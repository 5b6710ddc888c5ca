import GrammarFuzzing.Number.Scalar
import Mathlib

/-!
# Floats that are not negative

A score in floating point is a count divided by a count, or a sum of such, and so it is a number
that is not negative: zero, a finite float without a minus sign, or, if all else fails, infinity.
For such floats (`GrammarFuzzing.IsNonnegative`) the two orders that are in use agree: that of the
arithmetic and that of the bits, by which populations are sorted
(`GrammarFuzzing.IsNonnegative.le_iff`, `GrammarFuzzing.IsNonnegative.lt_iff`). For floats in
general they do not, since what is no number is greater than infinity in the one and beside
everything in the other.

Sums, products and quotients stay what they are as long as the divisor is positive and finite
(`GrammarFuzzing.IsPositive`), and no analysis of rounding is needed for it. To see that a **count**
is positive and finite does need some, as counts that are too large are rounded to infinity, and an
infinite score divided by an infinite number of scores would be no number
(`GrammarFuzzing.isPositive_ofNat`).

A finite float without a minus sign stands for a mantissa and an exponent. Its bits are the two of
them one after the other, up to the leading bit of the mantissa that is left out; with that bit
added to the exponent instead, the bits are a number that says it all
(`GrammarFuzzing.Binary64.finiteBits`).
-/

namespace GrammarFuzzing

open Float.Model (UnpackedFloat Format totalExponent)
open Float.Model.UnpackedFloat

namespace Binary64

/-! ### Fields -/

theorem toNat_packComponents (s : Sign) (e : BitVec 11) (m : BitVec 52) :
    (packComponents .binary64 s e m).toNat =
      (s.toBitVec.toNat * 2 ^ 11 + e.toNat) * 2 ^ 52 + m.toNat := by
  rw [packComponents]
  simp only [BitVec.toNat_append, ← Nat.shiftLeft_add_eq_or_of_lt e.isLt,
    ← Nat.shiftLeft_add_eq_or_of_lt m.isLt]
  simp only [Nat.shiftLeft_eq]

theorem toNat_unpackExponent (b : BitVec 64) :
    (@unpackExponent .binary64 b).toNat = b.toNat / 2 ^ 52 % 2 ^ 11 := by
  simp [unpackExponent, BitVec.extractLsb_toNat, Nat.shiftRight_eq_div_pow]

theorem toNat_unpackMantissa (b : BitVec 64) :
    (@unpackMantissa .binary64 b).toNat = b.toNat % 2 ^ 52 := by
  simp [unpackMantissa, BitVec.extractLsb_toNat, Nat.shiftRight_eq_div_pow]

theorem toNat_unpackSign (b : BitVec 64) :
    (@unpackSign .binary64 b).toNat = b.toNat / 2 ^ 63 % 2 := by
  simp [unpackSign, BitVec.extractLsb_toNat, Nat.shiftRight_eq_div_pow]

/-! ### What is stored -/

/-- The bits of infinity, the greatest ones of a number without a minus sign. -/
def infinityBits : Nat :=
  2047 * Nat.pow 2 52

/-- **A number without a minus sign.** -/
inductive Nonnegative : UnpackedFloat → Prop
  | zero : Nonnegative (.zero .positive)
  | finite {m : Nat} {e : Int} (hm : 0 < m) : Nonnegative (.finite .positive m e hm)
  | infinity : Nonnegative (.infinity .positive)

/-- **A mantissa and an exponent as they are stored**: the mantissa is as long as possible, unless
the exponent is the least one. -/
structure Canonical (m : Nat) (e : Int) : Prop where
  le : -1074 ≤ e
  lt : m < 2 ^ 53
  full : e = -1074 ∨ 2 ^ 52 ≤ m

/-- **The bits of a mantissa and an exponent.** -/
def finiteBits (m : Nat) (e : Int) : Nat :=
  (e + 1074).toNat * 2 ^ 52 + m

section Stored

variable {m n : Nat} {e f : Int}

theorem finiteBits_pos (hm : 0 < m) : 0 < finiteBits m e := by
  rw [finiteBits]
  omega

theorem Canonical.finiteBits_lt (h : Canonical m e) (he : e ≤ 971) :
    finiteBits m e < infinityBits := by
  have hlt := h.lt
  simp only [finiteBits, infinityBits, Nat.pow_eq]
  omega

theorem Canonical.eq_of_finiteBits_eq (h : Canonical m e) (h' : Canonical n f)
    (heq : finiteBits m e = finiteBits n f) : m = n ∧ e = f := by
  obtain ⟨hle, hlt, hfull⟩ := h
  obtain ⟨hle', hlt', hfull'⟩ := h'
  rw [finiteBits, finiteBits] at heq
  omega

/-- **The bits are in the order of exponents**, and of mantissas where exponents are equal. -/
theorem Canonical.compare_eq (h : Canonical m e) (h' : Canonical n f) :
    (compare e f).then (compare m n) = compare (finiteBits m e) (finiteBits n f) := by
  obtain ⟨hle, hlt, hfull⟩ := h
  obtain ⟨hle', hlt', hfull'⟩ := h'
  rw [finiteBits, finiteBits]
  rcases Int.lt_trichotomy e f with hef | rfl | hef
  · rw [compare_lt_iff_lt.mpr hef]
    exact (compare_lt_iff_lt.mpr (by omega)).symm
  · rw [compare_eq_iff_eq.mpr rfl, Ordering.then]
    rcases Nat.lt_trichotomy m n with hmn | rfl | hmn
    · rw [compare_lt_iff_lt.mpr hmn, compare_lt_iff_lt.mpr (by omega)]
    · rw [compare_eq_iff_eq.mpr rfl, compare_eq_iff_eq.mpr rfl]
    · rw [compare_gt_iff_gt.mpr hmn, compare_gt_iff_gt.mpr (by omega)]
  · rw [compare_gt_iff_gt.mpr hef]
    exact (compare_gt_iff_gt.mpr (by omega)).symm

/-- **A canonical float is stored as it is**, with its sign in front. -/
theorem Canonical.toNat_pack (h : Canonical m e) (hm : 0 < m) (he : e ≤ 971) (s : Sign) :
    (UnpackedFloat.pack .binary64 (.finite s m e hm)).toNat =
      s.toBitVec.toNat * 2 ^ 63 + finiteBits m e := by
  obtain ⟨hle, hlt, hfull⟩ := h
  have hbias : Format.binary64.exponentBias = 1023 := rfl
  have hbits : Format.binary64.mantissaBits = 53 := rfl
  have hroom : ¬ 2 ^ 11 ≤ (e + 1023 + 52).toNat + 1 := by omega
  simp only [UnpackedFloat.pack, hbias, hbits]
  rw [if_neg (by exact_mod_cast hroom), finiteBits]
  by_cases hnormal : 2 ^ 52 ≤ m
  · have hlog : m.log2 = 52 := (Nat.log2_eq_iff hm.ne').mpr ⟨hnormal, hlt⟩
    rw [if_pos (congrArg (· + 1) hlog), toNat_packComponents]
    simp only [BitVec.toNat_ofNat]
    omega
  · have hlog : m.log2 + 1 ≠ 53 := by
      have hlog := (Nat.log2_lt hm.ne').mpr (Nat.lt_of_not_le hnormal)
      omega
    rw [if_neg hlog, toNat_packComponents]
    simp only [BitVec.toNat_ofNat]
    omega

theorem Canonical.toNat_pack_positive (h : Canonical m e) (hm : 0 < m) (he : e ≤ 971) :
    (UnpackedFloat.pack .binary64 (.finite .positive m e hm)).toNat = finiteBits m e := by
  rw [h.toNat_pack hm he, Sign.toBitVec, BitVec.toNat_ofNat, Nat.zero_mod, Nat.zero_mul,
    Nat.zero_add]

end Stored

/-- **Whatever is stored without a minus sign** has bits up to those of infinity, canonical or
not. -/
theorem Nonnegative.toNat_pack_le {u : UnpackedFloat} (h : Nonnegative u) :
    (UnpackedFloat.pack .binary64 u).toNat ≤ infinityBits := by
  cases h with
  | zero => decide
  | infinity => decide
  | @finite m e hm =>
    have hfield := (BitVec.ofNat 52 m).isLt
    rw [UnpackedFloat.pack]
    dsimp only
    split
    · decide
    · split <;>
      · rw [toNat_packComponents]
        simp only [infinityBits, Sign.toBitVec, BitVec.toNat_ofNat, Nat.pow_eq] at *
        omega

/-- **What bits up to those of infinity stand for.** -/
theorem unpack_cases {b : BitVec 64} (h : b.toNat ≤ infinityBits) :
    (b.toNat = 0 ∧ UnpackedFloat.unpack .binary64 b = .zero .positive) ∨
    (∃ m e hm, Canonical m e ∧ e ≤ 971 ∧ b.toNat = finiteBits m e ∧
      UnpackedFloat.unpack .binary64 b = .finite .positive m e hm) ∨
    (b.toNat = infinityBits ∧ UnpackedFloat.unpack .binary64 b = .infinity .positive) := by
  have hexponent := toNat_unpackExponent b
  have hmantissa := toNat_unpackMantissa b
  -- A field has a value if its number has.
  have hfield : ∀ x : BitVec 11, x.toNat = b.toNat / 2 ^ 52 % 2 ^ 11 →
      @unpackExponent .binary64 b = x :=
    fun x hx => BitVec.eq_of_toNat_eq (hexponent.trans hx.symm)
  have hsign : @unpackSign .binary64 b = 0#1 := by
    rw [← BitVec.toNat_inj, toNat_unpackSign]
    simp only [infinityBits, Nat.pow_eq] at h
    simp
    omega
  simp only [infinityBits, Nat.pow_eq] at h ⊢
  rw [UnpackedFloat.unpack, hsign]
  dsimp only
  by_cases hall : @unpackExponent .binary64 b = -1#_
  · have hones : b.toNat / 2 ^ 52 % 2 ^ 11 = 2047 := by
      rw [← hexponent, hall]
      rfl
    have hzero : @unpackMantissa .binary64 b = 0#_ := by
      rw [← BitVec.toNat_inj, hmantissa]
      simp
      omega
    rw [if_pos hall, if_pos hzero]
    exact Or.inr (Or.inr ⟨by omega, rfl⟩)
  · have hones : b.toNat / 2 ^ 52 % 2 ^ 11 ≠ 2047 := fun hno => hall (hfield _ hno.symm)
    rw [if_neg hall]
    by_cases hnone : @unpackExponent .binary64 b = 0#_
    · have hlow : b.toNat / 2 ^ 52 % 2 ^ 11 = 0 := by
        rw [← hexponent, hnone]
        rfl
      rw [if_pos hnone]
      by_cases hzero : @unpackMantissa .binary64 b = 0#_
      · have hempty : b.toNat % 2 ^ 52 = 0 := by
          rw [← hmantissa, hzero]
          rfl
        rw [dif_pos hzero]
        exact Or.inl ⟨by omega, rfl⟩
      · rw [dif_neg hzero]
        refine Or.inr (Or.inl ⟨_, _, _, ⟨?_, ?_, ?_⟩, ?_, ?_, rfl⟩) <;>
          simp only [hexponent, hmantissa, hlow, Format.exponentBias, finiteBits]
        all_goals norm_num
        all_goals omega
    · have hlow : b.toNat / 2 ^ 52 % 2 ^ 11 ≠ 0 := fun hno => hnone (hfield _ hno.symm)
      have hfull : (1#1 ++ @unpackMantissa .binary64 b).toNat =
          2 ^ 52 + b.toNat % 2 ^ 52 := by
        rw [BitVec.toNat_append, ← Nat.shiftLeft_add_eq_or_of_lt (BitVec.isLt _), hmantissa]
        rfl
      rw [if_neg hnone]
      refine Or.inr (Or.inl ⟨_, _, _, ⟨?_, ?_, ?_⟩, ?_, ?_, rfl⟩) <;>
        simp only [hexponent, hfull, Format.exponentBias, finiteBits]
      all_goals norm_num
      all_goals omega

theorem Nonnegative.unpack {b : BitVec 64} (h : b.toNat ≤ infinityBits) :
    Nonnegative (UnpackedFloat.unpack .binary64 b) := by
  rcases unpack_cases h with ⟨-, hu⟩ | ⟨m, e, hm, -, -, -, hu⟩ | ⟨-, hu⟩ <;> rw [hu]
  · exact .zero
  · exact .finite hm
  · exact .infinity

theorem exists_finite_unpack {b : BitVec 64} (hpos : 0 < b.toNat) (h : b.toNat < infinityBits) :
    ∃ m e hm, Canonical m e ∧ e ≤ 971 ∧ b.toNat = finiteBits m e ∧
      UnpackedFloat.unpack .binary64 b = .finite .positive m e hm := by
  rcases unpack_cases (Nat.le_of_lt h) with ⟨hzero, -⟩ | hfinite | ⟨hall, -⟩
  · exact absurd hzero hpos.ne'
  · exact hfinite
  · exact absurd hall h.ne

/-- **A canonical float is unpacked as it was.** -/
theorem Canonical.unpack_pack {m : Nat} {e : Int} (h : Canonical m e) (hm : 0 < m) (he : e ≤ 971) :
    UnpackedFloat.unpack .binary64 (UnpackedFloat.pack .binary64 (.finite .positive m e hm)) =
      .finite .positive m e hm := by
  have hbits := h.toNat_pack_positive hm he
  obtain ⟨n, f, hn, hcanonical, -, hbits', hu⟩ := exists_finite_unpack
    (hbits.symm ▸ finiteBits_pos hm) (hbits.symm ▸ h.finiteBits_lt he)
  obtain ⟨rfl, rfl⟩ := h.eq_of_finiteBits_eq hcanonical (hbits.symm.trans hbits')
  exact hu

/-- **The arithmetic compares by bits.** -/
theorem compare_unpack {a b : BitVec 64} (ha : a.toNat ≤ infinityBits)
    (hb : b.toNat ≤ infinityBits) :
    (UnpackedFloat.unpack .binary64 a).compare (UnpackedFloat.unpack .binary64 b) =
      some (compare a.toNat b.toNat) := by
  have hinfinity : 0 < infinityBits := by decide
  rcases unpack_cases ha with ⟨ha, hu⟩ | ⟨m, e, hm, hc, he, ha, hu⟩ | ⟨ha, hu⟩ <;>
    rcases unpack_cases hb with ⟨hb, hv⟩ | ⟨n, f, hn, hd, hf, hb, hv⟩ | ⟨hb, hv⟩ <;>
    rw [hu, hv, ha, hb]
  · rfl
  · rw [compare_lt_iff_lt.mpr (finiteBits_pos hn)]
    rfl
  · rw [compare_lt_iff_lt.mpr hinfinity]
    rfl
  · rw [compare_gt_iff_gt.mpr (finiteBits_pos hm)]
    rfl
  · rw [← hc.compare_eq hd]
    rfl
  · rw [compare_lt_iff_lt.mpr (hc.finiteBits_lt he)]
    rfl
  · rw [compare_gt_iff_gt.mpr hinfinity]
    rfl
  · rw [compare_gt_iff_gt.mpr (hd.finiteBits_lt hf)]
    rfl
  · rfl

/-! ### Rounding -/

theorem mantissa_shiftRight (x : ExtendedMantissa) (k : Nat) :
    (x >>> k).mantissa = x.mantissa / 2 ^ k := by
  induction k with
  | zero => exact (Nat.div_one _).symm
  | succ k ih =>
    have hstep : (x >>> (k + 1)).mantissa = (x >>> k).mantissa / 2 := rfl
    rw [hstep, ih, Nat.div_div_eq_div_mul, pow_succ]

theorem mantissa_ofMantissaAndAccuracy (m : Nat) (a : Accuracy) :
    (ExtendedMantissa.ofMantissaAndAccuracy m a).mantissa = m := by
  rcases a with _ | _ | _ | _ <;> rfl

/-- A mantissa is rounded down or up by one. -/
theorem roundedMantissa_bounds (x : ExtendedMantissa) :
    x.mantissa ≤ x.roundedMantissa ∧ x.roundedMantissa ≤ x.mantissa + 1 := by
  rcases x with ⟨m, _ | _, _ | _⟩ <;>
  · simp only [ExtendedMantissa.roundedMantissa, ExtendedMantissa.accuracy,
      Accuracy.roundToNearestEven]
    omega

/-- **Rounding keeps the sign.** -/
theorem nonnegative_roundWithAccuracy (m : Nat) (e : Int) (a : Accuracy) :
    Nonnegative (roundWithAccuracy .binary64 .positive m e a) := by
  unfold roundWithAccuracy
  dsimp only
  split
  · exact .zero
  · exact .finite _

theorem nonnegative_normalize {m : Int} (hm : 0 ≤ m) (e : Int) :
    Nonnegative (UnpackedFloat.normalize .binary64 m e .positive) := by
  rw [UnpackedFloat.normalize]
  split
  · rename_i hlt
    exact absurd (compare_lt_iff_lt.mp hlt) (Int.not_lt.mpr hm)
  · exact .zero
  · exact nonnegative_roundWithAccuracy _ _ _

theorem targetExponent_eq (m : Nat) (e : Int) :
    Format.binary64.targetExponent (totalExponent m e) = max (m.log2 + 1 + e - 53) (-1074) :=
  rfl

/-- A mantissa of full length is canonical after one more shift at most, which is needed if rounding
has made it longer. -/
theorem canonical_shift {r : Nat} {e : Int} (hr : 2 ^ 52 ≤ r) (hr' : r ≤ 2 ^ 53) (he : -1074 ≤ e) :
    ∃ j, (Format.binary64.targetExponent (totalExponent r e) - e).toNat = j ∧ j ≤ 1 ∧
      0 < r / 2 ^ j ∧ Canonical (r / 2 ^ j) (e + j) := by
  rw [targetExponent_eq]
  rcases Nat.lt_or_eq_of_le hr' with hlt | rfl
  · have hlog : r.log2 = 52 := (Nat.log2_eq_iff (by omega)).mpr ⟨hr, hlt⟩
    refine ⟨0, by omega, Nat.zero_le 1, ?_, ?_, ?_, ?_⟩ <;> omega
  · have hlog : (2 ^ 53).log2 = 53 := Nat.log2_two_pow
    refine ⟨1, by omega, Nat.le_refl 1, ?_, ?_, ?_, ?_⟩ <;> omega

/-- **A mantissa that is long enough is rounded to a canonical one**, and its exponent grows by the
bits that are dropped. -/
theorem exists_roundWithAccuracy {m : Nat} {e : Int} (hm : 2 ^ 52 ≤ m) (he : -1074 ≤ e)
    (a : Accuracy) : ∃ n f hn, roundWithAccuracy .binary64 .positive m e a =
      .finite .positive n f hn ∧ Canonical n f ∧ e ≤ f ∧ f ≤ e + m.log2 - 51 := by
  have hpos : m ≠ 0 := (Nat.lt_of_lt_of_le (Nat.two_pow_pos 52) hm).ne'
  have hlog : 52 ≤ m.log2 := (Nat.le_log2 hpos).mpr hm
  obtain ⟨k, hk⟩ := Nat.exists_eq_add_of_le hlog
  have hshift : (Format.binary64.targetExponent (totalExponent m e) - e).toNat = k := by
    rw [targetExponent_eq]
    omega
  have hquotient : 2 ^ 52 ≤ m / 2 ^ k ∧ m / 2 ^ k < 2 ^ 53 := by
    have hlow := Nat.log2_self_le hpos
    have hhigh := @Nat.lt_log2_self m
    rw [hk, pow_add] at hlow
    rw [hk, Nat.add_right_comm, pow_add] at hhigh
    exact ⟨(Nat.le_div_iff_mul_le (Nat.two_pow_pos k)).mpr hlow,
      (Nat.div_lt_iff_lt_mul (Nat.two_pow_pos k)).mpr hhigh⟩
  have hround := roundedMantissa_bounds (ExtendedMantissa.ofMantissaAndAccuracy m a >>> k)
  rw [mantissa_shiftRight, mantissa_ofMantissaAndAccuracy] at hround
  obtain ⟨j, hj, hle, hn, hcanonical⟩ := canonical_shift (e := e + k)
    (Nat.le_trans hquotient.1 hround.1) (by omega) (by omega)
  unfold roundWithAccuracy shiftToTargetExponent shiftToExponent
  simp only [hshift, mantissa_shiftRight, mantissa_ofMantissaAndAccuracy, hj]
  rw [dif_neg hn.ne']
  exact ⟨_, _, hn, rfl, hcanonical, by omega, by omega⟩

/-! ### Operations -/

theorem Nonnegative.add {u v : UnpackedFloat} (hu : Nonnegative u) (hv : Nonnegative v) :
    Nonnegative (UnpackedFloat.add .binary64 u v) := by
  cases hu with
  | zero => cases hv <;> constructor
  | infinity => cases hv <;> constructor
  | finite hm =>
    cases hv with
    | zero => exact .finite hm
    | infinity => exact .infinity
    | finite hn =>
      exact nonnegative_normalize (Int.add_nonneg (Int.natCast_nonneg _) (Int.natCast_nonneg _)) _

section

variable {u : UnpackedFloat} {m : Nat} {e : Int}

theorem Nonnegative.mul (hu : Nonnegative u) (hm : 0 < m) :
    Nonnegative (UnpackedFloat.mul .binary64 u (.finite .positive m e hm)) := by
  cases hu with
  | zero => exact .zero
  | infinity => exact .infinity
  | finite => exact nonnegative_roundWithAccuracy _ _ _

theorem Nonnegative.div (hu : Nonnegative u) (hm : 0 < m) :
    Nonnegative (UnpackedFloat.div .binary64 u (.finite .positive m e hm)) := by
  cases hu with
  | zero => exact .zero
  | infinity => exact .infinity
  | finite => exact nonnegative_roundWithAccuracy _ _ _

end

end Binary64

open Binary64

/-! ### Floats -/

/-- **A float that is a number without a minus sign.** -/
def IsNonnegative (x : Float) : Prop :=
  x.toBits.toNat ≤ infinityBits

/-- **A float that is positive and finite.** -/
def IsPositive (x : Float) : Prop :=
  0 < x.toBits.toNat ∧ x.toBits.toNat < infinityBits

theorem isNonnegative_pack {u : UnpackedFloat} (h : Nonnegative u) :
    IsNonnegative (.ofModel (.pack u)) :=
  h.toNat_pack_le

theorem Binary64.Canonical.isPositive_pack {m : Nat} {e : Int} (h : Canonical m e) (hm : 0 < m)
    (he : e ≤ 971) : IsPositive (.ofModel (.pack (.finite .positive m e hm))) := by
  have hbits : (Float.ofModel (.pack (.finite .positive m e hm))).toBits.toNat = finiteBits m e :=
    h.toNat_pack_positive hm he
  rw [IsPositive, hbits]
  exact ⟨finiteBits_pos hm, h.finiteBits_lt he⟩

theorem float_mul_eq (x y : Float) : x * y = .ofModel (.pack (UnpackedFloat.mul .binary64
    (UnpackedFloat.unpack .binary64 x.toBits.toBitVec)
    (UnpackedFloat.unpack .binary64 y.toBits.toBitVec))) :=
  rfl

theorem float_lt_iff (x y : Float) :
    x < y ↔ x.toModel.unpack.compare y.toModel.unpack = some .lt := by
  change decide (x.toModel < y.toModel) = true ↔ _
  rw [decide_eq_true_iff]
  exact beq_iff_eq

theorem float_beq_iff (x y : Float) :
    (x == y) = true ↔ x.toModel.unpack.compare y.toModel.unpack = some .eq := by
  change (x.toModel.unpack.compare y.toModel.unpack == some .eq) = true ↔ _
  exact beq_iff_eq

namespace IsNonnegative

variable {x y : Float}

theorem add (hx : IsNonnegative x) (hy : IsNonnegative y) : IsNonnegative (x + y) :=
  isNonnegative_pack ((Nonnegative.unpack hx).add (Nonnegative.unpack hy))

theorem mul (hx : IsNonnegative x) (hy : IsPositive y) : IsNonnegative (x * y) := by
  obtain ⟨m, e, hm, -, -, -, hu⟩ := exists_finite_unpack hy.1 hy.2
  have hproduct := (Nonnegative.unpack hx).mul (e := e) hm
  rw [← hu] at hproduct
  exact isNonnegative_pack hproduct

theorem div (hx : IsNonnegative x) (hy : IsPositive y) : IsNonnegative (x / y) := by
  obtain ⟨m, e, hm, -, -, -, hu⟩ := exists_finite_unpack hy.1 hy.2
  have hquotient := (Nonnegative.unpack hx).div (e := e) hm
  rw [← hu] at hquotient
  exact isNonnegative_pack hquotient

theorem floatRank_eq (hx : IsNonnegative x) : floatRank x = x.toBits.toNat := by
  have hlt : (x.toBits.toNat : Int) < (Nat.pow 2 63 : Nat) :=
    Int.ofNat_lt.mpr (Nat.lt_of_le_of_lt hx (by decide))
  unfold floatRank
  dsimp only
  rw [if_pos hlt]

theorem floatRank_nonneg (hx : IsNonnegative x) : 0 ≤ floatRank x :=
  hx.floatRank_eq ▸ Int.natCast_nonneg _

theorem compare_eq (hx : IsNonnegative x) (hy : IsNonnegative y) :
    x.toModel.unpack.compare y.toModel.unpack = some (compare x.toBits.toNat y.toBits.toNat) :=
  compare_unpack hx hy

/-- **Less is of lower rank.** -/
theorem lt_iff (hx : IsNonnegative x) (hy : IsNonnegative y) :
    x < y ↔ floatRank x < floatRank y := by
  rw [float_lt_iff, hx.compare_eq hy, Option.some.injEq, compare_lt_iff_lt, hx.floatRank_eq,
    hy.floatRank_eq, Int.ofNat_lt]

/-- **At most is of no higher rank.** -/
theorem le_iff (hx : IsNonnegative x) (hy : IsNonnegative y) :
    x ≤ y ↔ floatRank x ≤ floatRank y := by
  have hle : x ≤ y ↔ x.toModel.unpack.le y.toModel.unpack = true := by
    change decide (x.toModel ≤ y.toModel) = true ↔ _
    rw [decide_eq_true_iff]
    exact Iff.rfl
  rw [hle, UnpackedFloat.le, hx.compare_eq hy, Option.any_some, hx.floatRank_eq, hy.floatRank_eq,
    Int.ofNat_le]
  exact Nat.isLE_compare

theorem isNaN_eq (hx : IsNonnegative x) : x.isNaN = false := by
  have hunpack : x.isNaN = (UnpackedFloat.unpack .binary64 x.toBits.toBitVec).isNaN := rfl
  rw [hunpack]
  rcases unpack_cases hx with ⟨-, hu⟩ | ⟨m, e, hm, -, -, -, hu⟩ | ⟨-, hu⟩ <;>
  · rw [hu]
    rfl

end IsNonnegative

/-! ### Counts -/

theorem isPositive_one : IsPositive (Float.ofBits 0x3FF0000000000000) :=
  ⟨by decide, by decide⟩

/-- A count that fits into a mantissa is converted, and multiplied by one. -/
theorem ofNat_of_lt {n : Nat} (h : n < 2 ^ 53) : Float.ofNat n =
    .ofModel (.pack (UnpackedFloat.normalize .binary64 n 0 .positive)) *
      Float.ofBits 0x3FF0000000000000 := by
  have hword : n.toUInt64.toNat = n := by
    simp
    omega
  have hfloat : n.toUInt64.toFloat =
      .ofModel (.pack (UnpackedFloat.normalize .binary64 n.toUInt64.toNat 0 .positive)) := rfl
  rw [hword] at hfloat
  rw [← hfloat]
  exact dif_pos ⟨h, Nat.zero_le _⟩

/-- A greater count is rounded. -/
theorem ofNat_of_le {n : Nat} (h : 2 ^ 53 ≤ n) : Float.ofNat n =
    .ofModel (.pack (roundWithAccuracy .binary64 .positive (n <<< 53 * 1) (-53 + 0) .exact)) := by
  have hslow : ¬ (n < 2 ^ 53 ∧ 0 ≤ 22) := by omega
  have hzero : n ≠ 0 := by omega
  have hrange : ¬ (0 : Int) < -(2 ^ Format.binary64.exponentBits + n.log2) := by
    have hpower : (0 : Int) ≤ 2 ^ Format.binary64.exponentBits := by positivity
    omega
  have hmodel : UnpackedFloat.ofScientific .binary64 n 0 =
      roundWithAccuracy .binary64 .positive (n <<< 53 * 1) (-53 + 0) .exact := by
    rw [UnpackedFloat.ofScientific, dif_neg hzero, if_neg (by decide), if_neg hrange,
      if_pos (Int.le_refl 0)]
    rfl
  rw [← hmodel]
  exact dif_neg hslow

/-- **A count is not negative**, however large it is. -/
theorem isNonnegative_ofNat (n : Nat) : IsNonnegative (Float.ofNat n) := by
  rcases Nat.lt_or_ge n (2 ^ 53) with h | h
  · rw [ofNat_of_lt h]
    exact (isNonnegative_pack (nonnegative_normalize (Int.natCast_nonneg n) 0)).mul isPositive_one
  · rw [ofNat_of_le h]
    exact isNonnegative_pack (nonnegative_roundWithAccuracy _ _ _)

/-- A count that fits into a mantissa is made as long as a mantissa and rounded. -/
theorem exists_normalize_eq {n : Nat} (hpos : 0 < n) (h : n < 2 ^ 53) :
    ∃ k : Nat, k ≤ 52 ∧ UnpackedFloat.normalize .binary64 n 0 .positive =
        roundWithAccuracy .binary64 .positive (n * 2 ^ k) (-k) .exact ∧
      2 ^ 52 ≤ n * 2 ^ k ∧ n * 2 ^ k < 2 ^ 53 := by
  have hlog : n.log2 < 53 := (Nat.log2_lt hpos.ne').mpr h
  obtain ⟨k, hk⟩ := Nat.exists_eq_add_of_le (Nat.le_of_lt_succ hlog)
  have hshift : (0 - Format.binary64.targetExponent (totalExponent n 0)).toNat = k := by
    rw [targetExponent_eq]
    omega
  refine ⟨k, by omega, ?_, ?_, ?_⟩
  · have hgt : compare (n : Int) 0 = .gt := compare_gt_iff_gt.mpr (by omega)
    rw [UnpackedFloat.normalize, hgt]
    simp only [UnpackedFloat.round, decreaseExponent, Int.toNat_natCast, hshift, Nat.shiftLeft_eq]
    rw [Int.zero_sub]
  · rw [hk, pow_add]
    exact Nat.mul_le_mul_right _ (Nat.log2_self_le hpos.ne')
  · have hlt := Nat.mul_lt_mul_of_pos_right (@Nat.lt_log2_self n) (Nat.two_pow_pos k)
    rwa [← pow_add, show n.log2 + 1 + k = 53 by omega] at hlt

/-- A count that fits into a mantissa is converted to a canonical float of about its size. -/
theorem exists_normalize {n : Nat} (hpos : 0 < n) (h : n < 2 ^ 53) :
    ∃ m f hm, UnpackedFloat.normalize .binary64 n 0 .positive = .finite .positive m f hm ∧
      Canonical m f ∧ -52 ≤ f ∧ f ≤ 1 := by
  obtain ⟨k, hk, hround, hlong, hshort⟩ := exists_normalize_eq hpos h
  have hlog : (n * 2 ^ k).log2 < 53 := (Nat.log2_lt (by omega)).mpr hshort
  obtain ⟨m, f, hm, hmf, hcanonical, hge, hle⟩ :=
    exists_roundWithAccuracy hlong (e := -k) (by omega) .exact
  exact ⟨m, f, hm, hround.trans hmf, hcanonical, by omega, by omega⟩

/-- What is positive, and neither too large nor too small, is so after a multiplication by one. -/
theorem Binary64.Canonical.isPositive_mul_one {m : Nat} {f : Int} (h : Canonical m f) (hm : 0 < m)
    (hge : -52 ≤ f) (hle : f ≤ 1) :
    IsPositive (.ofModel (.pack (.finite .positive m f hm)) * Float.ofBits 0x3FF0000000000000) := by
  have hu : UnpackedFloat.unpack .binary64
      (Float.ofModel (.pack (.finite .positive m f hm))).toBits.toBitVec =
        .finite .positive m f hm := h.unpack_pack hm (by omega)
  have hlong : 2 ^ 52 ≤ m * 2 ^ 52 := Nat.le_mul_of_pos_left _ hm
  have hshort : (m * 2 ^ 52).log2 < 105 := by
    have hlt := h.lt
    exact (Nat.log2_lt (by omega)).mpr (by omega)
  obtain ⟨q, i, hq, hround, hcanonical, -, hi⟩ :=
    exists_roundWithAccuracy hlong (e := f + -52) (by omega) .exact
  have hone : UnpackedFloat.unpack .binary64 (Float.ofBits 0x3FF0000000000000).toBits.toBitVec =
      .finite .positive (2 ^ 52) (-52) (by decide) := rfl
  have hproduct : UnpackedFloat.mul .binary64 (.finite .positive m f hm)
      (.finite .positive (2 ^ 52) (-52) (by decide)) = .finite .positive q i hq := hround
  rw [float_mul_eq, hu, hone, hproduct]
  exact hcanonical.isPositive_pack hq (by omega)

/-- **A count that is not zero is positive and finite** in floating point, unless it is immense. -/
theorem isPositive_ofNat {n : Nat} (hpos : 0 < n) (hn : n < Nat.pow 2 128) :
    IsPositive (Float.ofNat n) := by
  rcases Nat.lt_or_ge n (2 ^ 53) with h | h
  · obtain ⟨m, f, hm, hfloat, hcanonical, hge, hle⟩ := exists_normalize hpos h
    rw [ofNat_of_lt h, hfloat]
    exact hcanonical.isPositive_mul_one hm hge hle
  · have hlong : 2 ^ 52 ≤ n <<< 53 * 1 := by
      rw [Nat.shiftLeft_eq]
      omega
    have hshort : (n <<< 53 * 1).log2 < 181 := by
      rw [Nat.pow_eq] at hn
      rw [Nat.log2_lt (by omega), Nat.shiftLeft_eq]
      omega
    obtain ⟨m, f, hm, hround, hcanonical, -, hle⟩ :=
      exists_roundWithAccuracy hlong (e := -53 + 0) (by decide) .exact
    rw [ofNat_of_le h, hround]
    exact hcanonical.isPositive_pack hm (by omega)

end GrammarFuzzing
