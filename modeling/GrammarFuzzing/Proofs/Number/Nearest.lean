import GrammarFuzzing.Number.Reading
import GrammarFuzzing.Proofs.Number.Rounding

/-!
# The float nearest to a decimal

A numeral `n · 10 ^ e` is converted to a float in one of several ways. If it is a count, it is
rounded as it is. If it has places after the point, it is divided by a power of ten, and that power
is taken from a table of floats if it and the digits are small enough for both to be exact.
Exponents far outside the range of floats are answered without a computation.

All ways lead to the same float: the one in whose interval the numeral is
(`GrammarFuzzing.Dyadic.Stored.floatOfDecimal_eq`).

* An exact result and a quotient with its remainder both approximate the number as rounding needs it
  (`GrammarFuzzing.Binary64.roundWithAccuracy_exact`, `GrammarFuzzing.Binary64.div_eq`): the
  dividend is shifted until the quotient is as long as a mantissa.
* The floats in the table are the powers of ten (`GrammarFuzzing.exists_powerOfTen`), and a count
  that fits into a mantissa is converted as it is (`GrammarFuzzing.exists_toFloat`), so that on the
  short way, too, only the quotient is rounded.
* The numbers of the interval of a finite float are neither so small nor so large that the
  computation would be left out (`GrammarFuzzing.Dyadic.Holds.two_pow_le`,
  `GrammarFuzzing.Dyadic.Holds.lt_two_pow`).
-/

namespace GrammarFuzzing

open Float.Model (UnpackedFloat Format totalExponent)
open Float.Model.UnpackedFloat

namespace Binary64

/-! ### Exact results -/

variable {x : Dyadic} {v : ℚ} {m n M : Nat} {e f E : Int}

/-- An exact mantissa and exponent are rounded to the float in whose interval they are. -/
theorem roundWithAccuracy_exact (hx : x.Stored) (hv : x.Holds (M * 2 ^ E)) (s : Sign)
    (hlong : E ≤ -1074 ∨ 2 ^ 52 ≤ M) :
    roundWithAccuracy .binary64 s M E .exact = .finite s x.mantissa x.exponent hx.pos := by
  refine roundWithAccuracy_eq hx hv s ?_ hlong
  rw [mul_div_cancel_right₀ _ (zpow_ne_zero E two_ne_zero), Approximates]
  exact sub_self _

/-! ### Quotients -/

/-- The remainder of a division says in which part of a unit the quotient is. -/
theorem approximates_quotient {num den : Nat} (hden : 0 < den) :
    Approximates (.ofMantissaAndAccuracy (num / den) (accuracyOfFraction (num % den) den))
      ((num : ℚ) / den) := by
  have hden' : (0 : ℚ) < den := by exact_mod_cast hden
  have hrest : (num : ℚ) / den - (num / den : Nat) = (num % den : Nat) / den := by
    have hdiv : ((num % den : Nat) : ℚ) + den * (num / den : Nat) = num := by
      exact_mod_cast Nat.mod_add_div num den
    rw [← hdiv]
    field_simp
    ring
  have hlt : ((num % den : Nat) : ℚ) < den := by exact_mod_cast Nat.mod_lt num hden
  rw [Approximates, mantissa_ofMantissaAndAccuracy, hrest]
  generalize num % den = rest at hlt
  rw [accuracyOfFraction]
  split
  · rename_i hzero
    rw [hzero]
    exact zero_div _
  · rename_i hne
    have hpos : (0 : ℚ) < rest := by exact_mod_cast Nat.pos_of_ne_zero hne
    rcases Nat.lt_trichotomy (2 * rest) den with h | h | h
    · have hcast : (2 * rest : ℚ) < den := by exact_mod_cast h
      rw [compare_lt_iff_lt.mpr h]
      refine ⟨by positivity, ?_⟩
      rw [div_lt_div_iff₀ hden' two_pos]
      linarith
    · have hcast : (2 * rest : ℚ) = den := by exact_mod_cast h
      rw [compare_eq_iff_eq.mpr h]
      change (rest : ℚ) / den = 1 / 2
      rw [div_eq_div_iff hden'.ne' two_ne_zero]
      linarith
    · have hcast : (den : ℚ) < 2 * rest := by exact_mod_cast h
      rw [compare_gt_iff_gt.mpr h]
      refine ⟨?_, by rwa [div_lt_one hden']⟩
      rw [div_lt_div_iff₀ two_pos hden']
      linarith

/-- **A quotient is rounded to the float in whose interval it is.** -/
theorem div_eq (hx : x.Stored) (hm : 0 < m) (hn : 0 < n)
    (hv : x.Holds (m * 2 ^ e / (n * 2 ^ f))) :
    UnpackedFloat.div .binary64 (.finite .positive m e hm) (.finite .positive n f hn) =
      .finite .positive x.mantissa x.exponent hx.pos := by
  rw [UnpackedFloat.div, divCore]
  dsimp only
  generalize hE : min (e - f) (Format.binary64.targetExponent
    (totalExponent m e - totalExponent n f)) = E
  obtain ⟨k, hk⟩ : ∃ k : Nat, e - f - E = k := ⟨(e - f - E).toNat, by omega⟩
  rw [hk, Int.toNat_natCast, Nat.shiftLeft_eq]
  refine roundWithAccuracy_eq hx hv _ ?_ ?_
  · have hquotient : (m * 2 ^ e / (n * 2 ^ f) / 2 ^ E : ℚ) = ((m * 2 ^ k : Nat) : ℚ) / n := by
      have hsplit : (2 : ℚ) ^ e = 2 ^ k * 2 ^ f * 2 ^ E := by
        rw [← zpow_natCast, ← zpow_add₀ two_ne_zero, ← zpow_add₀ two_ne_zero]
        congr 1
        omega
      rw [hsplit]
      push_cast
      field_simp
    rw [hquotient]
    exact approximates_quotient hn
  · -- The mantissa of the dividend is shifted until that of the quotient is long enough.
    rw [or_iff_not_imp_left]
    intro hnormal
    have htarget : E ≤ m.log2 + 1 + e - (n.log2 + 1 + f) - 53 := by
      have hmax : Format.binary64.targetExponent (totalExponent m e - totalExponent n f) =
          max (m.log2 + 1 + e - (n.log2 + 1 + f) - 53) (-1074) := rfl
      omega
    rw [Nat.le_div_iff_mul_le hn]
    calc 2 ^ 52 * n ≤ 2 ^ 52 * 2 ^ (n.log2 + 1) := Nat.mul_le_mul_left _ Nat.lt_log2_self.le
      _ = 2 ^ (52 + (n.log2 + 1)) := (pow_add 2 _ _).symm
      _ ≤ 2 ^ (m.log2 + k) := Nat.pow_le_pow_right Nat.two_pos (by omega)
      _ = 2 ^ m.log2 * 2 ^ k := pow_add 2 _ _
      _ ≤ m * 2 ^ k := Nat.mul_le_mul_right _ (Nat.log2_self_le hm.ne')

end Binary64

open Binary64

/-! ### Floats -/

/-- Floats of equal bits are equal. -/
theorem float_ext : ∀ {a b : Float}, a.toBits.toNat = b.toBits.toNat → a = b
  | ⟨⟨_, _⟩⟩, ⟨⟨_, _⟩⟩, h => by
    congr 2
    exact UInt64.toNat_inj.mp h

namespace Dyadic

variable {x y z : Dyadic}

/-- **The float that is stored** as a mantissa and an exponent. -/
def Stored.float (hx : x.Stored) : Float :=
  .ofModel (.pack (.finite .positive x.mantissa x.exponent hx.pos))

/-- A mantissa of full length is stored, with the exponent that it has. -/
theorem stored_of_full {m : Nat} {e : Int} (hm : 2 ^ 52 ≤ m) (hm' : m < 2 ^ 53) (he : -1074 < e) :
    (Dyadic.mk m e (m = 2 ^ 52)).Stored :=
  ⟨Nat.lt_of_lt_of_le (Nat.two_pow_pos 52) hm, ⟨he.le, hm', Or.inr hm⟩, by simp [he]⟩

namespace Stored

variable (hx : x.Stored) (he : x.exponent ≤ 971)
include hx he

theorem unpack_float : UnpackedFloat.unpack .binary64 hx.float.toBits.toBitVec =
    .finite .positive x.mantissa x.exponent hx.pos :=
  hx.canonical.unpack_pack hx.pos he

theorem eq_float {a : Float} (h : a.toBits.toNat = finiteBits x.mantissa x.exponent) :
    a = hx.float :=
  float_ext (h.trans (hx.canonical.toNat_pack_positive hx.pos he).symm)

end Stored

/-- **What is at most half a place above a stored number** is in its interval. -/
theorem Stored.holds_of_le (hx : x.Stored) {v : ℚ} (hle : x.value ≤ v)
    (hlt : v < x.value + 2 ^ (x.exponent - 1)) : x.Holds v := by
  have hlow : x.low < 4 * x.mantissa := by
    have hpos := hx.pos
    rw [low]
    split <;> omega
  have hcast : (x.low : ℚ) < 4 * x.mantissa := by exact_mod_cast hlow
  have hplace : (0 : ℚ) < 2 ^ x.exponent := by positivity
  obtain ⟨f, rfl⟩ : ∃ f, v = f * 2 ^ x.exponent :=
    ⟨v / 2 ^ x.exponent, (div_mul_cancel₀ v hplace.ne').symm⟩
  have hfloor : x.mantissa ≤ f := le_of_mul_le_mul_right hle hplace
  have hhalf : f < x.mantissa + 1 / 2 := by
    rw [value, zpow_sub_one₀ two_ne_zero] at hlt
    exact lt_of_mul_lt_mul_right (by linarith) hplace.le
  rw [holds_mul_iff]
  split
  · constructor <;> linarith
  · constructor <;> linarith

/-- A stored number is in its own interval. -/
theorem Stored.holds_value (hx : x.Stored) : x.Holds x.value :=
  hx.holds_of_le le_rfl (lt_add_of_pos_right _ (by positivity))

/-- The quotient of two floats. -/
theorem Stored.float_div (hx : x.Stored) (hy : y.Stored) (hye : y.exponent ≤ 971) (hz : z.Stored)
    (hze : z.exponent ≤ 971) (h : x.Holds (y.value / z.value)) :
    hy.float / hz.float = hx.float := by
  have hdiv : hy.float / hz.float = .ofModel (.pack (UnpackedFloat.div .binary64
      (UnpackedFloat.unpack .binary64 hy.float.toBits.toBitVec)
      (UnpackedFloat.unpack .binary64 hz.float.toBits.toBitVec))) := rfl
  rw [hdiv, hy.unpack_float hye, hz.unpack_float hze, div_eq hx hy.pos hz.pos h]
  rfl

/-- **One is no change.** -/
theorem Stored.float_mul_one (hx : x.Stored) (he : x.exponent ≤ 971) :
    hx.float * Float.ofBits 0x3FF0000000000000 = hx.float := by
  have hone : UnpackedFloat.unpack .binary64 (Float.ofBits 0x3FF0000000000000).toBits.toBitVec =
      .finite .positive (2 ^ 52) (-52) (by decide) := rfl
  have hvalue : x.value = (x.mantissa * 2 ^ 52 : Nat) * 2 ^ (x.exponent + -52) := by
    rw [value, zpow_add₀ two_ne_zero]
    push_cast
    norm_num
    ring
  have hlong : 2 ^ 52 ≤ x.mantissa * 2 ^ 52 := Nat.le_mul_of_pos_left _ hx.pos
  rw [float_mul_eq, hx.unpack_float he, hone, UnpackedFloat.mul,
    roundWithAccuracy_exact hx (hvalue ▸ hx.holds_value) _ (Or.inr hlong)]
  rfl

end Dyadic

/-! ### Counts and powers of ten -/

/-- A count that fits into a mantissa is converted as it is. -/
theorem exists_toFloat {n : Nat} (hpos : 0 < n) (h : n < 2 ^ 53) : ∃ (x : Dyadic) (hx : x.Stored),
    x.exponent ≤ 971 ∧ x.value = n ∧ n.toUInt64.toFloat = hx.float := by
  obtain ⟨k, hk, hround, hlong, hshort⟩ := exists_normalize_eq hpos h
  have hx := Dyadic.stored_of_full hlong hshort (e := -k) (by omega)
  refine ⟨_, hx, by simp only; omega, ?_, ?_⟩
  · simp [Dyadic.value]
  · have hword : n.toUInt64.toNat = n := by
      simp
      omega
    have hfloat : n.toUInt64.toFloat =
        .ofModel (.pack (UnpackedFloat.normalize .binary64 n.toUInt64.toNat 0 .positive)) := rfl
    rw [hfloat, hword, hround, roundWithAccuracy_exact hx hx.holds_value _ (Or.inr hlong)]
    rfl

/-- The powers of ten up to `10 ^ 22` are floats. -/
theorem toBits_powersOfTen : ∀ i : Fin Float.exactlyRepresentablePowersOfTen.size,
    Float.exactlyRepresentablePowersOfTen[i].toBits.toNat =
        finiteBits (10 ^ i.val * 2 ^ 52 / 2 ^ (10 ^ i.val).log2) ((10 ^ i.val).log2 - 52) ∧
      2 ^ (10 ^ i.val).log2 ∣ 10 ^ i.val * 2 ^ 52 ∧ (10 ^ i.val).log2 < 128 := by
  decide +kernel

theorem exists_powerOfTen {k : Nat} (hk : k < Float.exactlyRepresentablePowersOfTen.size) :
    ∃ (x : Dyadic) (hx : x.Stored), x.exponent ≤ 971 ∧ x.value = 10 ^ k ∧
      Float.exactlyRepresentablePowersOfTen[k] = hx.float := by
  obtain ⟨hbits, ⟨m, hm⟩, hlog⟩ := toBits_powersOfTen ⟨k, hk⟩
  dsimp only at hbits hm hlog
  have hne : 10 ^ k ≠ 0 := (Nat.pow_pos (by decide)).ne'
  have hlow := Nat.mul_le_mul_right (2 ^ 52) (Nat.log2_self_le hne)
  have hhigh := Nat.mul_lt_mul_of_pos_right (@Nat.lt_log2_self (10 ^ k)) (Nat.two_pow_pos 52)
  generalize (10 ^ k).log2 = l at *
  have hl := Nat.two_pow_pos l
  rw [hm, Nat.mul_div_cancel_left m hl] at hbits
  rw [hm] at hlow hhigh
  rw [pow_succ, Nat.mul_assoc] at hhigh
  have hx := Dyadic.stored_of_full (Nat.le_of_mul_le_mul_left hlow hl)
    (Nat.lt_of_mul_lt_mul_left hhigh) (e := l - 52) (by omega)
  refine ⟨_, hx, by simp only; omega, ?_, hx.eq_float (by simp only; omega) hbits⟩
  have hvalue : (m : ℚ) * 2 ^ l = 10 ^ k * 2 ^ 52 := by
    rw [mul_comm]
    exact_mod_cast hm.symm
  rw [Dyadic.value, zpow_sub₀ two_ne_zero, zpow_natCast, ← mul_div_assoc, hvalue]
  norm_num

/-! ### Decimals -/

namespace Dyadic

variable {x : Dyadic} {v : ℚ}

/-- The numbers of an interval are not too small. -/
theorem Holds.two_pow_le (hx : x.Stored) (h : x.Holds v) : (2 : ℚ) ^ (-1075 : Int) ≤ v := by
  have hlow : x.low * 2 ^ (x.exponent - 2) ≤ v := by
    rw [Holds] at h
    split at h
    · exact h.1
    · exact h.1.le
  have htwo : (2 : ℚ) ≤ x.low := by
    have hpos := hx.pos
    have hle : 2 ≤ x.low := by
      rw [low]
      split <;> omega
    exact_mod_cast hle
  have hle := hx.canonical.le
  calc (2 : ℚ) ^ (-1075 : Int) ≤ 2 ^ (x.exponent - 2 + 1) :=
        zpow_le_zpow_right₀ one_le_two (by omega)
    _ = 2 * 2 ^ (x.exponent - 2) := by rw [zpow_add_one₀ two_ne_zero, mul_comm]
    _ ≤ x.low * 2 ^ (x.exponent - 2) := mul_le_mul_of_nonneg_right htwo (by positivity)
    _ ≤ v := hlow

/-- The numbers of an interval are not too large. -/
theorem Holds.lt_two_pow (hx : x.Stored) (he : x.exponent ≤ 971) (h : x.Holds v) :
    v < 2 ^ (1024 : Int) := by
  have hhigh : v ≤ (4 * x.mantissa + 2 : Nat) * 2 ^ (x.exponent - 2) := by
    rw [Holds] at h
    split at h
    · exact h.2
    · exact h.2.le
  have hlt : ((4 * x.mantissa + 2 : Nat) : ℚ) < 2 ^ (55 : Int) := by
    have hlt := hx.canonical.lt
    exact_mod_cast (show 4 * x.mantissa + 2 < 2 ^ 55 by omega)
  calc v ≤ (4 * x.mantissa + 2 : Nat) * 2 ^ (x.exponent - 2) := hhigh
    _ < 2 ^ (55 : Int) * 2 ^ (x.exponent - 2) := mul_lt_mul_of_pos_right hlt (by positivity)
    _ = 2 ^ (55 + (x.exponent - 2)) := (zpow_add₀ two_ne_zero _ _).symm
    _ ≤ 2 ^ (1024 : Int) := zpow_le_zpow_right₀ one_le_two (by omega)

theorem Holds.pos (hx : x.Stored) (h : x.Holds v) : 0 < v :=
  lt_of_lt_of_le (by positivity) (h.two_pow_le hx)

/-- A fraction that is not too small has no more places than this. -/
theorem Holds.places_le (hx : x.Stored) {n k : Nat} (h : x.Holds (n / 10 ^ k)) :
    k ≤ 2048 + n.log2 := by
  have hle := h.two_pow_le hx
  rw [le_div_iff₀ (by positivity), zpow_neg, inv_mul_le_iff₀ (by positivity)] at hle
  have hnat : 10 ^ k ≤ 2 ^ 1075 * n := by exact_mod_cast hle
  have hlt : 2 ^ (3 * k) < 2 ^ (1075 + (n.log2 + 1)) :=
    calc 2 ^ (3 * k) = 8 ^ k := pow_mul 2 3 k
      _ ≤ 10 ^ k := Nat.pow_le_pow_left (by decide) k
      _ ≤ 2 ^ 1075 * n := hnat
      _ < 2 ^ 1075 * 2 ^ (n.log2 + 1) :=
        Nat.mul_lt_mul_of_pos_left Nat.lt_log2_self (by positivity)
      _ = 2 ^ (1075 + (n.log2 + 1)) := (pow_add 2 _ _).symm
  have hexp := (Nat.pow_lt_pow_iff_right (by decide)).mp hlt
  omega

namespace Stored

variable (hx : x.Stored) (he : x.exponent ≤ 971) {n k : Nat}
include he

/-- **A count is converted to the nearest float.** -/
theorem ofNat_eq (hv : x.Holds n) : Float.ofNat n = hx.float := by
  have hpos : 0 < n := by exact_mod_cast hv.pos hx
  rcases Nat.lt_or_ge n (2 ^ 53) with h | h
  · obtain ⟨j, -, hround, hlong, -⟩ := exists_normalize_eq hpos h
    have hvalue : (n : ℚ) = (n * 2 ^ j : Nat) * 2 ^ (-j : Int) := by simp
    rw [hvalue] at hv
    rw [ofNat_of_lt h, hround, roundWithAccuracy_exact hx hv _ (Or.inr hlong)]
    exact hx.float_mul_one he
  · have hvalue : (n : ℚ) = (n <<< 53 * 1 : Nat) * 2 ^ (-53 + 0 : Int) := by
      rw [Nat.shiftLeft_eq]
      push_cast
      norm_num
      ring
    have hlong : 2 ^ 52 ≤ n <<< 53 * 1 := by
      rw [Nat.shiftLeft_eq]
      omega
    rw [hvalue] at hv
    rw [ofNat_of_le h, roundWithAccuracy_exact hx hv _ (Or.inr hlong)]
    rfl

omit he in
/-- **A decimal fraction is converted to the nearest float.** -/
theorem ofScientific_eq (hk : 0 < k) (hv : x.Holds (n / 10 ^ k)) :
    Float.ofScientific n true k = hx.float := by
  have hpos : 0 < n := by
    have hnum := hv.pos hx
    rw [div_pos_iff_of_pos_right (by positivity)] at hnum
    exact_mod_cast hnum
  by_cases hfast : n < 2 ^ 53 ∧ k ≤ 22
  · have hsize : k < Float.exactlyRepresentablePowersOfTen.size :=
      Nat.lt_of_le_of_lt hfast.2 (by decide)
    obtain ⟨y, hy, hye, hyn, hyf⟩ := exists_toFloat hpos hfast.1
    obtain ⟨z, hz, hze, hzk, hzf⟩ := exists_powerOfTen hsize
    have hfloat : Float.ofScientific n true k =
        n.toUInt64.toFloat / Float.exactlyRepresentablePowersOfTen[k] := dif_pos hfast
    rw [hfloat, hyf, hzf]
    exact hx.float_div hy hye hz hze (by rwa [hyn, hzk])
  · have hslow : Float.ofScientific n true k =
        .ofModel (.pack (UnpackedFloat.ofScientific .binary64 n (Int.negOfNat k))) :=
      dif_neg hfast
    have hplaces := hv.places_le hx
    have hneg : Int.negOfNat k = -(k : Int) := Int.negOfNat_eq
    have hbits : (2 ^ Format.binary64.exponentBits : Int) = 2048 := rfl
    rw [hslow, hneg, UnpackedFloat.ofScientific, dif_neg hpos.ne', if_neg (by omega),
      if_neg (by omega), if_neg (by omega), div_eq hx hpos]
    · rfl
    · simpa using hv

end Stored

end Dyadic

/-! ### Numerals -/

/-- A thousand is at most `2 ^ 10`. -/
theorem ten_pow_le_two_pow {k i : Nat} (h : 10 * k ≤ 3 * i) : 10 ^ k ≤ 2 ^ i := by
  rw [← Nat.pow_le_pow_iff_left three_ne_zero]
  calc (10 ^ k) ^ 3 = (10 ^ 3) ^ k := pow_right_comm 10 k 3
    _ ≤ (2 ^ 10) ^ k := Nat.pow_le_pow_left (by decide) k
    _ = 2 ^ (10 * k) := (pow_mul 2 10 k).symm
    _ ≤ 2 ^ (i * 3) := Nat.pow_le_pow_right Nat.two_pos (by omega)
    _ = (2 ^ i) ^ 3 := pow_mul 2 i 3

/-- And `2 ^ 93` is at most `10 ^ 28`. -/
theorem two_pow_le_ten_pow {k i : Nat} (h : 28 * i ≤ 93 * k) : 2 ^ i ≤ 10 ^ k := by
  rw [← Nat.pow_le_pow_iff_left (show 28 ≠ 0 by decide)]
  calc (2 ^ i) ^ 28 = 2 ^ (i * 28) := (pow_mul 2 i 28).symm
    _ ≤ 2 ^ (93 * k) := Nat.pow_le_pow_right Nat.two_pos (by omega)
    _ = (2 ^ 93) ^ k := pow_mul 2 93 k
    _ ≤ (10 ^ 28) ^ k := Nat.pow_le_pow_left (by decide) k
    _ = (10 ^ k) ^ 28 := pow_right_comm 10 28 k

/-- **Powers of ten below powers of two.** -/
theorem ten_zpow_le_two_zpow {k j : Int} (hpos : 0 ≤ k → 10 * k ≤ 3 * j)
    (hneg : k < 0 → 93 * k ≤ 28 * j) : (10 : ℚ) ^ k ≤ 2 ^ j := by
  rcases Int.lt_or_le k 0 with hk | hk
  · have hj := hneg hk
    rcases Int.lt_or_le j 0 with hj0 | hj0
    · obtain ⟨i, rfl⟩ : ∃ i : Nat, j = -i := ⟨j.natAbs, by omega⟩
      obtain ⟨l, rfl⟩ : ∃ l : Nat, k = -l := ⟨k.natAbs, by omega⟩
      rw [zpow_neg, zpow_neg, zpow_natCast, zpow_natCast]
      refine inv_anti₀ (by positivity) ?_
      exact_mod_cast two_pow_le_ten_pow (k := l) (i := i) (by omega)
    · exact (zpow_le_one_of_nonpos₀ (by norm_num) hk.le).trans
        (one_le_zpow₀ one_le_two hj0)
  · have hj := hpos hk
    obtain ⟨l, rfl⟩ := Int.eq_ofNat_of_zero_le hk
    obtain ⟨i, rfl⟩ := Int.eq_ofNat_of_zero_le (show 0 ≤ j by omega)
    rw [zpow_natCast, zpow_natCast]
    exact_mod_cast ten_pow_le_two_pow (k := l) (i := i) (by omega)

/-- The digits of a number bound it. -/
theorem length_toDigits_bounds {n : Nat} (hn : 0 < n) :
    (10 : ℚ) ^ ((Nat.toDigits 10 n).length - 1 : Int) ≤ n ∧
      (n : ℚ) < 10 ^ ((Nat.toDigits 10 n).length : Int) := by
  generalize hlength : (Nat.toDigits 10 n).length = l
  have hpos : 0 < l := hlength ▸ List.length_pos_iff.mpr Nat.toDigits_ne_nil
  obtain ⟨j, rfl⟩ := Nat.exists_eq_succ_of_ne_zero hpos.ne'
  have hupper := (Nat.length_toDigits_le_iff (b := 10) (n := n) (by decide) hpos).mp hlength.le
  have hlower : 10 ^ j ≤ n := by
    by_contra hlt
    rcases Nat.eq_zero_or_pos j with rfl | hj
    · omega
    · have hle := (Nat.length_toDigits_le_iff (b := 10) (n := n) (by decide) hj).mpr
        (Nat.lt_of_not_le hlt)
      omega
  rw [Nat.cast_succ, add_sub_cancel_right, zpow_natCast]
  exact ⟨by exact_mod_cast hlower, by exact_mod_cast hupper⟩

/-- **A numeral is read as the nearest float.** -/
theorem Dyadic.Stored.floatOfDecimal_eq {x : Dyadic} (hx : x.Stored) (he : x.exponent ≤ 971)
    {n : Nat} {e : Int} (hv : x.Holds (n * 10 ^ e)) : floatOfDecimal n e = hx.float := by
  have hpos : 0 < n := by
    have hnum := hv.pos hx
    rw [mul_pos_iff_of_pos_right (by positivity)] at hnum
    exact_mod_cast hnum
  obtain ⟨hlower, hupper⟩ := length_toDigits_bounds hpos
  rw [floatOfDecimal, if_neg hpos.ne', if_neg, if_neg]
  · split
    · rename_i h0
      obtain ⟨k, rfl⟩ := Int.eq_ofNat_of_zero_le h0
      rw [Int.toNat_natCast]
      refine hx.ofNat_eq he ?_
      simpa using hv
    · rename_i h0
      refine hx.ofScientific_eq (by omega) ?_
      obtain ⟨k, rfl⟩ : ∃ k : Nat, e = -k := ⟨e.natAbs, by omega⟩
      rw [neg_neg, Int.toNat_natCast]
      simpa [div_eq_mul_inv] using hv
  · intro hsmall
    have hten := mul_lt_mul_of_pos_right hupper (show (0 : ℚ) < 10 ^ e by positivity)
    rw [← zpow_add₀ (by norm_num)] at hten
    have hle := ten_zpow_le_two_zpow (j := -1075) (k := (Nat.toDigits 10 n).length + e)
      (by omega) (by omega)
    linarith [hv.two_pow_le hx]
  · intro hlarge
    have hten := mul_le_mul_of_nonneg_right hlower (show (0 : ℚ) ≤ 10 ^ e by positivity)
    rw [← zpow_add₀ (by norm_num)] at hten
    have hle : (2 : ℚ) ^ (1024 : Int) ≤ 10 ^ ((Nat.toDigits 10 n).length - 1 + e : Int) :=
      calc (2 : ℚ) ^ (1024 : Int) ≤ 10 ^ (310 : Int) := by
            exact_mod_cast two_pow_le_ten_pow (k := 310) (i := 1024) (by decide)
        _ ≤ 10 ^ ((Nat.toDigits 10 n).length - 1 + e : Int) :=
            zpow_le_zpow_right₀ (by norm_num) (by omega)
    linarith [hv.lt_two_pow hx he]

end GrammarFuzzing
