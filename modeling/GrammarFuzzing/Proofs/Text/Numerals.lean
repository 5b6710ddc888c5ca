import GrammarFuzzing.Constraint.Value
import GrammarFuzzing.Proofs.Number.Shortest
import GrammarFuzzing.Proofs.Text.ReadBack

/-!
# Numbers in text are read back

* A float that is a number is read back from the text that writes it
  (`GrammarFuzzing.readFloat?_showFloat`). The text is that of the shortest decimal of its interval;
  whichever layout the decimal has, what is read is a numeral of the same value
  (`GrammarFuzzing.Decimal.exists_numeral`), and a numeral of the interval is rounded to the float.
* What reads as an integer reads as a float that is equal to it
  (`GrammarFuzzing.exists_readFloat?_of_readInt64?`). It need not be the float that the integer is
  converted to: minus zero is an integer without a sign and a float with one.

That the bits of a float mean a stored number with a sign is `GrammarFuzzing.FloatClass.means_of`.
-/

namespace GrammarFuzzing

open Float.Model (UnpackedFloat Format)
open Float.Model.UnpackedFloat Binary64

/-! ### Digits and points -/

/-- **Characters that write a number** `digits · 10 ^ exponent` without a sign: digits, with or
without a point among them. -/
inductive Numeral : List Char → Nat → Int → Prop
  | whole {cs : List Char} (hne : cs ≠ []) (hcs : ∀ c ∈ cs, c.isDigit = true) :
    Numeral cs (Nat.ofDigitChars 10 cs 0) 0
  | point {ws fs : List Char} (hne : ws ≠ []) (hws : ∀ c ∈ ws, c.isDigit = true)
    (hfs : ∀ c ∈ fs, c.isDigit = true) :
    Numeral (ws ++ '.' :: fs) (Nat.ofDigitChars 10 (ws ++ fs) 0) (-fs.length)

namespace Numeral

variable {cs : List Char} {n : Nat} {e : Int}

/-- A numeral begins with a digit. -/
theorem exists_cons (h : Numeral cs n e) : ∃ c rest, cs = c :: rest ∧ c.isDigit = true := by
  cases h with
  | whole hne hcs =>
    obtain ⟨c, rest, rfl⟩ := List.exists_cons_of_ne_nil hne
    exact ⟨c, rest, rfl, hcs c List.mem_cons_self⟩
  | point hne hws =>
    obtain ⟨c, rest, rfl⟩ := List.exists_cons_of_ne_nil hne
    exact ⟨c, _, rfl, hws c List.mem_cons_self⟩

/-- There is no blank in a numeral. -/
theorem isBlank_eq (h : Numeral cs n e) : ∀ c ∈ cs, isBlank c = false := by
  cases h with
  | whole _ hcs => exact fun c hc => isBlank_of_isDigit (hcs c hc)
  | point _ hws hfs =>
    rw [List.forall_mem_append, List.forall_mem_cons]
    exact ⟨fun c hc => isBlank_of_isDigit (hws c hc), by decide,
      fun c hc => isBlank_of_isDigit (hfs c hc)⟩

/-- **A numeral is read** as the float of its digits and its exponent. -/
theorem readDecimal?_eq (h : Numeral cs n e) : readDecimal? cs = some (floatOfDecimal n e) := by
  cases h with
  | whole hne hcs =>
    have htake : cs.takeWhile Char.isDigit = cs := List.takeWhile_eq_self_iff.mpr hcs
    have hdrop : cs.dropWhile Char.isDigit = [] := List.dropWhile_eq_nil_iff.mpr hcs
    rw [readDecimal?, htake, hdrop]
    simp [digitsValue?_of_isDigit hne hcs, readExponent?]
  | @point ws fs hne hws hfs =>
    have htake : fs.takeWhile Char.isDigit = fs := List.takeWhile_eq_self_iff.mpr hfs
    have hdrop : fs.dropWhile Char.isDigit = [] := List.dropWhile_eq_nil_iff.mpr hfs
    have hpoint : Char.isDigit '.' = false := by decide
    rw [readDecimal?, List.takeWhile_append_of_pos hws, List.dropWhile_append_of_pos hws,
      List.takeWhile_cons_of_neg (by rw [hpoint]; simp),
      List.dropWhile_cons_of_neg (by rw [hpoint]; simp)]
    simp [htake, hdrop, digitsValue?_of_isDigit (List.append_ne_nil_of_left_ne_nil hne fs)
      (List.forall_mem_append.mpr ⟨hws, hfs⟩), readExponent?]

end Numeral

theorem isDigit_zeros (k : Nat) : ∀ c ∈ Decimal.zeros k, c.isDigit = true :=
  fun _ hc => List.eq_of_mem_replicate hc ▸ by decide

/-- Zeros in front add nothing. -/
theorem ofDigitChars_zeros_append (k : Nat) (ds : List Char) :
    Nat.ofDigitChars 10 (Decimal.zeros k ++ ds) 0 = Nat.ofDigitChars 10 ds 0 := by
  rw [Nat.ofDigitChars_append, Decimal.zeros, Nat.ofDigitChars_replicate_zero]
  rfl

/-- **The plain layout of a decimal is a numeral** of its value. -/
theorem Decimal.exists_numeral (x : Decimal) :
    ∃ n e, Numeral (x.positional "").toList n e ∧ (n * 10 ^ e : ℚ) = x.value := by
  have hne : Nat.toDigits 10 x.digits ≠ [] := Nat.toDigits_ne_nil
  have hds := isDigit_toDigits x.digits
  have hvalue : Nat.ofDigitChars 10 (Nat.toDigits 10 x.digits) 0 = x.digits :=
    Nat.ofDigitChars_ten_toDigits
  rw [positional, value]
  generalize Nat.toDigits 10 x.digits = ds at hne hds hvalue ⊢
  have hlength : 0 < ds.length := List.length_pos_iff.mpr hne
  split
  · rename_i h0
    have hwhole : Numeral (ds ++ zeros x.exponent.toNat) _ _ := .whole
      (List.append_ne_nil_of_left_ne_nil hne _)
      (List.forall_mem_append.mpr ⟨hds, isDigit_zeros _⟩)
    rw [String.toList_append, String.toList_ofList, String.toList_empty, List.append_nil]
    refine ⟨_, _, hwhole, ?_⟩
    rw [Nat.ofDigitChars_append, hvalue, zeros, Nat.ofDigitChars_replicate_zero, zpow_zero, mul_one,
      mul_comm]
    push_cast
    rw [← zpow_natCast, Int.toNat_of_nonneg h0]
  · rename_i h0
    split
    · rename_i hpoint
      have htaken : Numeral (ds.take (ds.length + x.exponent).toNat ++
          '.' :: ds.drop (ds.length + x.exponent).toNat) _ _ := .point
        (mt List.take_eq_nil_iff.mp (not_or.mpr ⟨by omega, hne⟩))
        (fun c hc => hds c (List.mem_of_mem_take hc)) fun c hc => hds c (List.mem_of_mem_drop hc)
      rw [String.toList_ofList]
      refine ⟨_, _, htaken, ?_⟩
      rw [List.take_append_drop, hvalue, List.length_drop]
      congr 2
      omega
    · have hpadded : Numeral (['0'] ++
          '.' :: (zeros (-(ds.length + x.exponent)).toNat ++ ds)) _ _ := .point
        (List.cons_ne_nil _ _) (List.forall_mem_singleton.mpr rfl)
        (List.forall_mem_append.mpr ⟨isDigit_zeros _, hds⟩)
      rw [String.toList_ofList]
      refine ⟨_, _, hpadded, ?_⟩
      have hzeros :
          Nat.ofDigitChars 10 (['0'] ++ (zeros (-(ds.length + x.exponent)).toNat ++ ds)) 0 =
            x.digits :=
        (ofDigitChars_zeros_append ((-(ds.length + x.exponent)).toNat + 1) ds).trans hvalue
      rw [hzeros, List.length_append, zeros, List.length_replicate]
      congr 2
      omega

/-! ### What the bits mean -/

/-- A float with a sign. -/
def signed (negative : Bool) (a : Float) : Float :=
  if negative then -a else a

/-- The bits of what is no number. -/
theorem isNaN_iff (a : Float) : a.isNaN = true ↔
    a.toBits.toNat / 2 ^ 52 % 2 ^ 11 = 2047 ∧ a.toBits.toNat % 2 ^ 52 ≠ 0 := by
  have hunpack : a.isNaN = (UnpackedFloat.unpack .binary64 a.toBits.toBitVec).isNaN := rfl
  have hexponent := toNat_unpackExponent a.toBits.toBitVec
  have hmantissa := toNat_unpackMantissa a.toBits.toBitVec
  rw [UInt64.toNat_toBitVec] at hexponent hmantissa
  have hall : @unpackExponent .binary64 a.toBits.toBitVec = -1#_ ↔
      a.toBits.toNat / 2 ^ 52 % 2 ^ 11 = 2047 := by
    rw [← hexponent, ← BitVec.toNat_inj]
    exact Iff.rfl
  have hzero : @unpackMantissa .binary64 a.toBits.toBitVec = 0#_ ↔
      a.toBits.toNat % 2 ^ 52 = 0 := by
    rw [← hmantissa, ← BitVec.toNat_inj]
    exact Iff.rfl
  rw [hunpack, UnpackedFloat.unpack, ← hall, Ne, ← hzero]
  dsimp only
  split_ifs with h1 h2 h3 h4 <;> simp_all [UnpackedFloat.isNaN]

/-- The bits of a stored float with a sign. -/
theorem Dyadic.Stored.toBits_signed {x : Dyadic} (hx : x.Stored) (he : x.exponent ≤ 971)
    (negative : Bool) : (signed negative hx.float).toBits.toNat =
      negative.toNat * 2 ^ 63 + finiteBits x.mantissa x.exponent := by
  cases negative with
  | false => exact (hx.canonical.toNat_pack_positive hx.pos he).trans (by simp)
  | true =>
    have hneg : -hx.float = .ofModel (.pack
        (UnpackedFloat.unpack .binary64 hx.float.toBits.toBitVec).neg) := rfl
    rw [signed, if_pos rfl, hneg, hx.unpack_float he]
    exact hx.canonical.toNat_pack hx.pos he .negative

/-- **What the meanings of bits stand for.** -/
inductive FloatClass.Means (a : Float) : FloatClass → Prop
  | nan (h : a.isNaN = true) : Means a .nan
  | infinite {negative : Bool} (h : a = signed negative (1.0 / 0.0)) : Means a (.infinite negative)
  | zero {negative : Bool} (h : a = signed negative 0.0) : Means a (.zero negative)
  | finite {negative : Bool} {x : Dyadic} (hx : x.Stored) (he : x.exponent ≤ 971)
    (h : a = signed negative hx.float) : Means a (.finite negative x)

/-- **A float is what its bits mean.** -/
theorem FloatClass.means_of (a : Float) : Means a (.of a) := by
  have hbound := a.toBits.toNat_lt
  rw [FloatClass.of, ofBits]
  simp only [Nat.pow_eq]
  -- The sign is the first bit.
  obtain ⟨negative, hsign⟩ : ∃ negative : Bool, a.toBits.toNat / 2 ^ 63 % 2 = negative.toNat :=
    ⟨a.toBits.toNat / 2 ^ 63 % 2 = 1, by
      rcases Nat.mod_two_eq_zero_or_one (a.toBits.toNat / 2 ^ 63) with h | h <;> rw [h] <;> rfl⟩
  have hnegative : decide (a.toBits.toNat / 2 ^ 63 % 2 = 1) = negative := by
    rw [hsign]
    cases negative <;> rfl
  rw [hnegative]
  split_ifs with hall hnone hall' hnone'
  · have hbits : (signed negative (1.0 / 0.0)).toBits.toNat =
        negative.toNat * 2 ^ 63 + 2047 * 2 ^ 52 := by
      cases negative <;> decide +kernel
    exact .infinite (float_ext (by omega))
  · exact .nan ((isNaN_iff a).mpr ⟨hall, hnone⟩)
  · have hbits : (signed negative 0.0).toBits.toNat = negative.toNat * 2 ^ 63 := by
      cases negative <;> decide +kernel
    exact .zero (float_ext (by omega))
  · have hx : (Dyadic.mk (a.toBits.toNat % 2 ^ 52) (-1074) false).Stored :=
      ⟨by simp only; omega, ⟨le_rfl, by simp only; omega, Or.inl rfl⟩, by simp⟩
    refine .finite hx (by simp) (float_ext ?_)
    rw [hx.toBits_signed (by simp), finiteBits]
    simp only
    omega
  · have hx : (Dyadic.mk (2 ^ 52 + a.toBits.toNat % 2 ^ 52)
        ((a.toBits.toNat / 2 ^ 52 % 2 ^ 11 : Nat) - 1075)
        (a.toBits.toNat % 2 ^ 52 = 0 && a.toBits.toNat / 2 ^ 52 % 2 ^ 11 != 1)).Stored := by
      refine ⟨by simp only; omega, ⟨by simp only; omega, by simp only; omega, Or.inr ?_⟩, ?_⟩
      · exact Nat.le_add_right _ _
      · simp only [Bool.and_eq_true, decide_eq_true_eq, bne_iff_ne]
        omega
    refine .finite hx (by simp only; omega) (float_ext ?_)
    rw [hx.toBits_signed (by simp only; omega), finiteBits]
    simp only
    omega

/-! ### Floats are read back -/

variable {w : String} {negative : Bool} {cs : List Char} {n : Nat} {e : Int}

/-- **A numeral with a sign is read.** -/
theorem Numeral.readFloat?_eq (h : Numeral cs n e) (hw : splitSign w.toList = (negative, cs)) :
    readFloat? w = some (signed negative (floatOfDecimal n e)) := by
  obtain ⟨c, rest, hcs, hc⟩ := h.exists_cons
  -- No word begins with a digit.
  have hword : ∀ d word, d.isDigit = false → lowerAscii cs ≠ d :: word := by
    intro d word hd heq
    rw [hcs, lowerAscii, List.map_cons] at heq
    obtain ⟨rfl, -⟩ := List.cons.inj heq
    have hlower : c.toLower = c := by
      simp only [Char.isDigit, Bool.and_eq_true, decide_eq_true_eq] at hc
      exact dif_neg fun hupper => absurd (UInt32.le_trans hupper.1 hc.2) (by decide)
    rw [hlower, hc] at hd
    exact Bool.noConfusion hd
  have hinf : lowerAscii cs ≠ "inf".toList := hword 'i' ['n', 'f'] rfl
  have hinfinity : lowerAscii cs ≠ "infinity".toList :=
    hword 'i' ['n', 'f', 'i', 'n', 'i', 't', 'y'] rfl
  have hnan : lowerAscii cs ≠ "nan".toList := hword 'n' ['a', 'n'] rfl
  rw [readFloat?, hw]
  simp only [hinf, hinfinity, hnan, decide_false, Bool.or_self, if_false, Bool.false_eq_true,
    h.readDecimal?_eq]
  rfl

/-- A sign in front of a numeral is told apart. -/
theorem Numeral.splitSign_eq (h : Numeral cs n e) (negative : Bool) :
    splitSign ((signText negative).toList ++ cs) = (negative, cs) := by
  obtain ⟨c, rest, rfl, hc⟩ := h.exists_cons
  cases negative with
  | true => rfl
  | false =>
    change splitSign (c :: rest) = _
    rw [splitSign.eq_def]
    split
    · rename_i heq
      obtain ⟨rfl, -⟩ := List.cons.inj heq
      exact absurd hc (by decide)
    · rename_i heq
      obtain ⟨rfl, -⟩ := List.cons.inj heq
      exact absurd hc (by decide)
    · rfl

/-- **A float that is written out is read back.** -/
theorem readFloat?_showFloat {a : Float} (h : a.isNaN = false) :
    readFloat? (showFloat a) = some a := by
  have hmeans := FloatClass.means_of a
  rw [showFloat]
  generalize FloatClass.of a = class' at hmeans ⊢
  cases hmeans with
  | nan hnan => exact absurd hnan (by rw [h]; exact Bool.false_ne_true)
  | @infinite negative heq =>
    rw [heq]
    cases negative <;> rfl
  | @zero negative heq =>
    rw [heq]
    cases negative <;> rfl
  | @finite negative x hx he heq =>
    obtain ⟨hdigits, hholds⟩ := hx.shortest_spec he
    obtain ⟨-, hvalue⟩ := Decimal.dropZeros_spec 20 hdigits
    obtain ⟨n, e, hnumeral, hne⟩ := (x.shortest.dropZeros 20).exists_numeral
    rw [← hvalue, ← hne] at hholds
    rw [hnumeral.readFloat?_eq (by rw [String.toList_append, hnumeral.splitSign_eq]),
      hx.floatOfDecimal_eq he hholds, heq]

/-! ### Integers as floats -/

/-- Digits are all that is read as a number. -/
theorem isDigit_of_digitsValueFrom? {cs : List Char} {acc n : Nat}
    (h : digitsValueFrom? acc cs = some n) : ∀ c ∈ cs, c.isDigit = true := by
  induction cs generalizing acc with
  | nil => exact fun c hc => absurd hc List.not_mem_nil
  | cons c cs ih =>
    rw [digitsValueFrom?] at h
    split at h
    · rename_i d hd
      refine List.forall_mem_cons.mpr ⟨?_, ih h⟩
      rw [decimalDigit?] at hd
      split at hd
      · rename_i hc
        rw [Bool.and_eq_true, decide_eq_true_eq, decide_eq_true_eq] at hc
        rw [Char.isDigit, Bool.and_eq_true, decide_eq_true_eq, decide_eq_true_eq]
        exact hc
      · exact absurd hd (by simp)
    · exact absurd h (by simp)

theorem numeral_of_digitsValue? {cs : List Char} {n : Nat} (h : digitsValue? cs = some n) :
    Numeral cs n 0 := by
  have hne : cs ≠ [] := by
    rintro rfl
    nomatch h
  have hcs : ∀ c ∈ cs, c.isDigit = true := by
    rw [digitsValue?] at h
    · exact isDigit_of_digitsValueFrom? h
    · exact hne
  obtain rfl := Option.some.inj ((digitsValue?_of_isDigit hne hcs).symm.trans h)
  exact .whole hne hcs

/-- An integer that fits into 64 bits is read as the float that it is converted to. -/
theorem floatOfDecimal_ofNat {n : Nat} (h : n ≤ Nat.pow 2 63) :
    floatOfDecimal n 0 = Float.ofNat n := by
  rw [Nat.pow_eq] at h
  rcases Nat.eq_zero_or_pos n with rfl | hpos
  · exact float_ext (by decide +kernel)
  · have hlength := (Nat.length_toDigits_le_iff (b := 10) (n := n) (k := 20) (by decide)
      (by decide)).mpr (by omega)
    rw [floatOfDecimal, if_neg hpos.ne', if_neg (by omega), if_neg (by omega), if_pos le_rfl]
    simp only [Int.toNat_zero, Nat.pow_eq, pow_zero, Nat.mul_one]
    rfl

/-- A float that is positive and finite is stored. -/
theorem IsPositive.exists_stored {a : Float} (h : IsPositive a) :
    ∃ (x : Dyadic) (hx : x.Stored), x.exponent ≤ 971 ∧ a = hx.float := by
  obtain ⟨m, e, hm, hcanonical, he, hbits, -⟩ := exists_finite_unpack h.1 h.2
  have hx : (Dyadic.mk m e (m = 2 ^ 52 ∧ -1074 < e)).Stored := ⟨hm, hcanonical, by simp⟩
  exact ⟨_, hx, he, hx.eq_float he hbits⟩

/-- A stored float is a number. -/
theorem Dyadic.Stored.isNaN_signed {x : Dyadic} (hx : x.Stored) (he : x.exponent ≤ 971)
    (negative : Bool) : (signed negative hx.float).isNaN = false := by
  have hlt := hx.canonical.finiteBits_lt he
  rw [← Bool.not_eq_true, isNaN_iff, hx.toBits_signed he]
  rw [infinityBits, Nat.pow_eq] at hlt
  have hsign := negative.toNat_lt
  omega

/-! ### Comparisons of floats -/

/-- **What is a number is equal to itself.** -/
theorem compareFloats_self {a : Float} (h : a.isNaN = false) :
    Value.compareFloats a a = some .eq := by
  have hself : a.toModel.unpack.compare a.toModel.unpack = some .eq := by
    have hnumber : a.toModel.unpack.isNaN = false := h
    generalize a.toModel.unpack = u at hnumber
    cases u with
    | notANumber => exact Bool.noConfusion hnumber
    | infinity s => cases s <;> rfl
    | zero s => rfl
    | finite s m e hm => cases s <;> simp [UnpackedFloat.compare, Std.ReflOrd.compare_self]
  have hlt : ¬ a < a := by
    rw [float_lt_iff, hself]
    simp
  have heq : (a == a) = true := (float_beq_iff a a).mpr hself
  rw [Value.compareFloats, if_neg hlt, if_neg hlt, if_pos heq]

/-- **What is no number has no order.** -/
theorem compareFloats_eq_none {a b : Float} (h : a.isNaN = true ∨ b.isNaN = true) :
    Value.compareFloats a b = none := by
  have hnone : ∀ u v : UnpackedFloat, u.isNaN = true ∨ v.isNaN = true → u.compare v = none := by
    intro u v huv
    cases u <;> cases v <;> first | rfl | simp [UnpackedFloat.isNaN] at huv
  have hab : a.toModel.unpack.compare b.toModel.unpack = none := hnone _ _ h
  have hba : b.toModel.unpack.compare a.toModel.unpack = none := hnone _ _ h.symm
  have heq : ¬ (a == b) = true := by
    rw [float_beq_iff, hab]
    exact nofun
  rw [Value.compareFloats, if_neg, if_neg, if_neg heq]
  · rw [float_lt_iff, hba]
    exact nofun
  · rw [float_lt_iff, hab]
    exact nofun

/-- An integer of 64 bits is read from digits with a sign. -/
theorem exists_of_readInt64? {w : String} {i : Int} (h : readInt64? w = some i) :
    ∃ negative cs n, splitSign w.toList = (negative, cs) ∧ digitsValue? cs = some n ∧
      i = (if negative then -(n : Int) else n) ∧ int64Min ≤ i ∧ i ≤ int64Max := by
  rw [readInt64?] at h
  generalize hw : splitSign w.toList = split at h
  obtain ⟨negative, cs⟩ := split
  dsimp only at h
  cases hn : digitsValue? cs with
  | none => simp [hn] at h
  | some n =>
    simp only [hn, Option.ite_none_right_eq_some, Option.some.injEq] at h
    obtain ⟨hrange, rfl⟩ := h
    exact ⟨negative, cs, n, rfl, hn, rfl, hrange⟩

/-- An integer is converted as its magnitude and its sign are, except that zero has no sign. -/
theorem compareFloats_signed_ofNat {n : Nat} (h : n < Nat.pow 2 128) (negative : Bool) :
    Value.compareFloats (signed negative (Float.ofNat n))
        (Float.ofInt (if negative then -(n : Int) else n)) = some .eq ∧
      Value.compareFloats (Float.ofInt (if negative then -(n : Int) else n))
        (signed negative (Float.ofNat n)) = some .eq := by
  rcases Nat.eq_zero_or_pos n with rfl | hpos
  · cases negative <;> decide +kernel
  · have hsame : Float.ofInt (if negative then -(n : Int) else n) =
        signed negative (Float.ofNat n) := by
      obtain ⟨k, rfl⟩ := Nat.exists_eq_succ_of_ne_zero hpos.ne'
      cases negative <;> rfl
    obtain ⟨x, hx, he, heq⟩ := (isPositive_ofNat hpos h).exists_stored
    rw [hsame, heq]
    exact and_self_iff.mpr (compareFloats_self (hx.isNaN_signed he negative))

/-- **What reads as an integer reads as an equal float.** -/
theorem exists_readFloat?_of_readInt64? {w : String} {i : Int} (h : readInt64? w = some i) :
    ∃ a, readFloat? w = some a ∧ Value.compareFloats a (Float.ofInt i) = some .eq ∧
      Value.compareFloats (Float.ofInt i) a = some .eq := by
  obtain ⟨negative, cs, n, hw, hn, rfl, hmin, hmax⟩ := exists_of_readInt64? h
  have hbound : n ≤ Nat.pow 2 63 := by
    simp only [int64Min, int64Max, Nat.pow_eq] at hmin hmax ⊢
    cases negative <;> simp only [if_true, if_false, Bool.false_eq_true] at hmin hmax <;> omega
  have hread := (numeral_of_digitsValue? hn).readFloat?_eq hw
  rw [floatOfDecimal_ofNat hbound] at hread
  exact ⟨_, hread, compareFloats_signed_ofNat (Nat.lt_of_le_of_lt hbound (by decide)) negative⟩

/-- What is no number is written in a word. -/
theorem showFloat_of_isNaN {a : Float} (h : a.isNaN = true) : showFloat a = "NaN" := by
  obtain ⟨hall, hrest⟩ := (isNaN_iff a).mp h
  have hclass : FloatClass.of a = .nan := by
    rw [FloatClass.of, FloatClass.ofBits]
    simp only [Nat.pow_eq]
    rw [if_pos hall, if_neg hrest]
  rw [showFloat, hclass]

/-- There is no blank in a float that is written out. -/
theorem trim_showFloat (a : Float) : trim (showFloat a) = showFloat a := by
  rw [showFloat]
  cases FloatClass.of a with
  | nan => rfl
  | infinite negative => cases negative <;> rfl
  | zero negative => cases negative <;> rfl
  | finite negative x =>
    obtain ⟨n, e, hnumeral, -⟩ := (x.shortest.dropZeros 20).exists_numeral
    have hsign : ∀ c ∈ (signText negative).toList, isBlank c = false := by
      cases negative <;> simp [signText, isBlank]
    refine trim_of_not_isBlank ?_
    rw [String.toList_append, List.forall_mem_append]
    exact ⟨hsign, hnumeral.isBlank_eq⟩

end GrammarFuzzing
