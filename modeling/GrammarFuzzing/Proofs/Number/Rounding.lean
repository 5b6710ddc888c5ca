import GrammarFuzzing.Proofs.Number.Nonnegative

/-!
# Rounding to the nearest float

A stored float stands for an interval of numbers, those that are rounded to it
(`GrammarFuzzing.Dyadic.Holds`). The arithmetic does not compute with such intervals: it has a
mantissa of as many bits as there are and two residual bits, shifts the mantissa to the exponent of
the result, and looks at the residual bits to round it. This file shows that the one is the other.

* Residual bits say in which part of a unit the rest of the number is
  (`GrammarFuzzing.Binary64.Residue`), and a shift by one place keeps this true
  (`GrammarFuzzing.Binary64.Approximates.shiftRightOne`).
* So the mantissa is rounded to the nearest whole number, of two to the even one
  (`GrammarFuzzing.Binary64.Approximates.nearest`), and there is only one such number.
* For a number of the interval this is the mantissa of the float. There is one exception
  (`GrammarFuzzing.Dyadic.Holds.rounded`): just below a power of two the exponent is smaller by one,
  the mantissa is rounded up until it has a bit too many, and a second shift removes that bit.

It follows that whatever approximates a number of the interval is rounded to the float
(`GrammarFuzzing.Binary64.roundWithAccuracy_eq`), however it was computed: exactly, by
multiplication, or with a remainder, by division.
-/

namespace GrammarFuzzing

open Float.Model (UnpackedFloat Format totalExponent)
open Float.Model.UnpackedFloat

/-! ### The interval of a float -/

namespace Dyadic

/-- The value of a dyadic number. -/
def value (x : Dyadic) : ℚ :=
  x.mantissa * 2 ^ x.exponent

/-- The lower end of the interval, in quarters of the last place. -/
def low (x : Dyadic) : Nat :=
  if x.narrow then 4 * x.mantissa - 1 else 4 * x.mantissa - 2

/-- **The interval of the numbers that round to a dyadic number.** The ends belong to it exactly if
the mantissa is even. -/
def Holds (x : Dyadic) (v : ℚ) : Prop :=
  if x.mantissa % 2 = 0 then
    x.low * 2 ^ (x.exponent - 2) ≤ v ∧ v ≤ (4 * x.mantissa + 2 : Nat) * 2 ^ (x.exponent - 2)
  else x.low * 2 ^ (x.exponent - 2) < v ∧ v < (4 * x.mantissa + 2 : Nat) * 2 ^ (x.exponent - 2)

/-- **A dyadic number as it is stored**: the mantissa is positive and as long as possible, and the
gap below the number is half the one above if the next smaller number has a smaller exponent. -/
structure Stored (x : Dyadic) : Prop where
  pos : 0 < x.mantissa
  canonical : Binary64.Canonical x.mantissa x.exponent
  narrow_iff : x.narrow = true ↔ x.mantissa = 2 ^ 52 ∧ -1074 < x.exponent

end Dyadic

namespace Binary64

/-! ### Residual bits -/

/-- **What is left of a number below its mantissa**, as far as two residual bits tell. -/
def Residue : Bool → Bool → ℚ → Prop
  | false, false, r => r = 0
  | false, true, r => 0 < r ∧ r < 1 / 2
  | true, false, r => r = 1 / 2
  | true, true, r => 1 / 2 < r ∧ r < 1

/-- **A mantissa with residual bits approximates a number.** -/
def Approximates (x : ExtendedMantissa) (f : ℚ) : Prop :=
  Residue x.roundBit x.stickyBit (f - x.mantissa)

variable {x : ExtendedMantissa} {f : ℚ}

theorem Residue.bounds : ∀ {a b : Bool} {r : ℚ}, Residue a b r → 0 ≤ r ∧ r < 1
  | false, false, _, h => by rw [Residue] at h; constructor <;> linarith
  | false, true, _, h => by rw [Residue] at h; constructor <;> linarith
  | true, false, _, h => by rw [Residue] at h; constructor <;> linarith
  | true, true, _, h => by rw [Residue] at h; constructor <;> linarith

/-- The mantissa is the whole part. -/
theorem Approximates.bounds (h : Approximates x f) : x.mantissa ≤ f ∧ f < x.mantissa + 1 := by
  obtain ⟨hlow, hhigh⟩ := Residue.bounds h
  constructor <;> linarith

/-- **A shift by one place halves the number.** -/
theorem Approximates.shiftRightOne (h : Approximates x f) :
    Approximates x.shiftRightOne (f / 2) := by
  obtain ⟨m, r, s⟩ := x
  rw [Approximates] at h ⊢
  obtain ⟨q, rfl | rfl⟩ := Nat.even_or_odd' m
  · have hq : 2 * q / 2 = q := by omega
    have hr : 2 * q % 2 = 0 := by omega
    simp only [ExtendedMantissa.shiftRightOne, hq, hr] at h ⊢
    push_cast at h
    cases r <;> cases s <;> simp only [Residue, bne_self_eq_false, Bool.or_false, Bool.or_true,
      Bool.or_self] at h ⊢
    · linarith
    · constructor <;> linarith
    · constructor <;> linarith
    · constructor <;> linarith
  · have hq : (2 * q + 1) / 2 = q := by omega
    have hr : (2 * q + 1) % 2 = 1 := by omega
    have hone : (1 != 0) = true := rfl
    simp only [ExtendedMantissa.shiftRightOne, hq, hr, hone] at h ⊢
    push_cast at h
    cases r <;> cases s <;> simp only [Residue, Bool.or_false, Bool.or_true, Bool.or_self] at h ⊢
    · linarith
    · constructor <;> linarith
    · constructor <;> linarith
    · constructor <;> linarith

theorem Approximates.shiftRight (h : Approximates x f) (k : Nat) :
    Approximates (x >>> k) (f / 2 ^ k) := by
  induction k with
  | zero =>
    rw [pow_zero, div_one]
    exact h
  | succ k ih =>
    rw [pow_succ, ← div_div]
    exact ih.shiftRightOne

/-- **The nearest whole number**, of two the even one. -/
def Nearest (f : ℚ) (n : Nat) : Prop :=
  |f - n| < 1 / 2 ∨ |f - n| = 1 / 2 ∧ n % 2 = 0

/-- **Residual bits say where to round.** -/
theorem Approximates.nearest (h : Approximates x f) : Nearest f x.roundedMantissa := by
  obtain ⟨m, r, s⟩ := x
  rw [Approximates] at h
  cases r <;> cases s <;>
    simp only [Residue, ExtendedMantissa.roundedMantissa, ExtendedMantissa.accuracy,
      Accuracy.roundToNearestEven] at h ⊢
  · left
    rw [h, abs_zero]
    norm_num
  · left
    rw [abs_of_pos h.1]
    exact h.2
  · right
    obtain ⟨q, rfl | rfl⟩ := Nat.even_or_odd' m
    · rw [show 2 * q + 2 * q % 2 = 2 * q by omega, h]
      exact ⟨abs_of_pos (by norm_num), by omega⟩
    · rw [show 2 * q + 1 + (2 * q + 1) % 2 = 2 * q + 1 + 1 by omega]
      refine ⟨?_, by omega⟩
      rw [show f - ((2 * q + 1 + 1 : Nat) : ℚ) = -(1 / 2) by push_cast at h ⊢; linarith]
      norm_num
  · left
    push_cast
    rw [abs_lt]
    constructor <;> linarith

theorem Nearest.unique {n n' : Nat} (h : Nearest f n) (h' : Nearest f n') : n = n' := by
  have hfar : |f - n| ≤ 1 / 2 ∧ |f - n'| ≤ 1 / 2 :=
    ⟨h.elim le_of_lt fun h => h.1.le, h'.elim le_of_lt fun h => h.1.le⟩
  have hgap : |(n : ℚ) - n'| ≤ 1 := by
    have htri := abs_sub_le (n : ℚ) f n'
    rw [abs_sub_comm (n : ℚ) f] at htri
    linarith [hfar.1, hfar.2]
  have hnat : n ≤ n' + 1 ∧ n' ≤ n + 1 := by
    rw [abs_le] at hgap
    constructor
    · have hle : (n : ℚ) ≤ n' + 1 := by linarith
      exact_mod_cast hle
    · have hle : (n' : ℚ) ≤ n + 1 := by linarith
      exact_mod_cast hle
  by_contra hne
  -- Both are half a place away, so both are even.
  have hone : |(n : ℚ) - n'| = 1 := by
    rcases (by omega : n = n' + 1 ∨ n' = n + 1) with rfl | rfl <;> push_cast <;> norm_num
  have htri := abs_sub_le (n : ℚ) f n'
  rw [hone, abs_sub_comm (n : ℚ) f] at htri
  rcases h with h | ⟨h, heven⟩
  · linarith [hfar.2]
  · rcases h' with h' | ⟨h', heven'⟩
    · linarith
    · omega

/-! ### Rounding -/

section

variable {M : Nat} {E : Int} {a : Accuracy}

/-- **What a mantissa is shifted to** is canonical, if the mantissa was long enough. -/
theorem exists_shift (hlong : E ≤ -1074 ∨ 2 ^ 52 ≤ M) :
    ∃ k, (Format.binary64.targetExponent (totalExponent M E) - E).toNat = k ∧
      Canonical (M / 2 ^ k) (E + k) := by
  rw [targetExponent_eq]
  refine ⟨_, rfl, ?_⟩
  generalize hk : (max (M.log2 + 1 + E - 53) (-1074) - E).toNat = k
  have hfull : 2 ^ 52 ≤ M → 52 ≤ M.log2 := fun h =>
    (Nat.le_log2 (Nat.lt_of_lt_of_le (Nat.two_pow_pos 52) h).ne').mpr h
  refine ⟨by omega, ?_, ?_⟩
  · rw [Nat.div_lt_iff_lt_mul (Nat.two_pow_pos k), ← pow_add]
    exact Nat.lt_of_lt_of_le Nat.lt_log2_self (Nat.pow_le_pow_right Nat.two_pos (by omega))
  · rw [or_iff_not_imp_left]
    intro hleast
    have hlog : M.log2 = 52 + k := by omega
    have hne : M ≠ 0 := by
      rintro rfl
      rw [Nat.log2_zero] at hlog
      omega
    have hle := Nat.log2_self_le hne
    rw [hlog, pow_add] at hle
    exact (Nat.le_div_iff_mul_le (Nat.two_pow_pos k)).mpr hle

/-- A stored number is not shifted. -/
theorem Canonical.targetExponent_eq {m : Nat} {e : Int} (h : Canonical m e) (hm : 0 < m) :
    Format.binary64.targetExponent (totalExponent m e) = e := by
  obtain ⟨hle, hlt, hfull⟩ := h
  rw [Binary64.targetExponent_eq]
  have hlog := (Nat.log2_lt hm.ne').mpr hlt
  rcases hfull with rfl | hfull
  · omega
  · have hlong := (Nat.le_log2 hm.ne').mpr hfull
    omega

end

end Binary64

namespace Dyadic

open Binary64

variable {x : Dyadic} {f : ℚ}

/-- The interval in units of the last place. -/
theorem holds_mul_iff : x.Holds (f * 2 ^ x.exponent) ↔
    if x.mantissa % 2 = 0 then (x.low : ℚ) ≤ 4 * f ∧ 4 * f ≤ 4 * x.mantissa + 2
    else (x.low : ℚ) < 4 * f ∧ 4 * f < 4 * x.mantissa + 2 := by
  have hpos : (0 : ℚ) < 2 ^ (x.exponent - 2) := by positivity
  have hsplit : f * 2 ^ x.exponent = 4 * f * 2 ^ (x.exponent - 2) := by
    rw [zpow_sub₀ two_ne_zero]
    ring
  rw [Holds, hsplit]
  push_cast
  simp only [mul_le_mul_iff_left₀ hpos, mul_lt_mul_iff_left₀ hpos]

theorem Stored.le_low (hx : x.Stored) : (4 * x.mantissa - 2 : ℚ) ≤ x.low := by
  have hpos := hx.pos
  have hle : 4 * x.mantissa ≤ x.low + 2 := by
    rw [low]
    split <;> omega
  have hcast : (4 * x.mantissa : ℚ) ≤ x.low + 2 := by exact_mod_cast hle
  linarith

/-- A number of the interval is at most half a place away. -/
theorem Holds.bounds (h : x.Holds (f * 2 ^ x.exponent)) :
    (x.low : ℚ) ≤ 4 * f ∧ 4 * f ≤ 4 * x.mantissa + 2 := by
  rw [holds_mul_iff] at h
  split at h
  · exact h
  · exact ⟨h.1.le, h.2.le⟩

/-- **A number of the interval is rounded to the mantissa.** -/
theorem Holds.nearest (hx : x.Stored) (h : x.Holds (f * 2 ^ x.exponent)) :
    Nearest f x.mantissa := by
  have hlow := hx.le_low
  rw [holds_mul_iff] at h
  rw [Nearest]
  split at h
  · rename_i heven
    have hle : |f - x.mantissa| ≤ 1 / 2 := by
      rw [abs_le]
      constructor <;> linarith [h.1, h.2]
    exact (lt_or_eq_of_le hle).imp_right fun heq => ⟨heq, heven⟩
  · left
    rw [abs_lt]
    constructor <;> linarith [h.1, h.2]

/-- A number in units of a smaller place. -/
theorem mul_two_pow_mul_zpow (f : ℚ) (j : Nat) (e : Int) :
    f * 2 ^ j * 2 ^ e = f * (2 : ℚ) ^ (e + j) := by
  rw [zpow_add₀ two_ne_zero, zpow_natCast, mul_assoc, mul_comm ((2 : ℚ) ^ j)]

section Shifted

variable (hx : x.Stored) {n : Nat} {t : Int} (hn : Canonical n t)
  (hf : (n : ℚ) ≤ f ∧ f < n + 1) (h : x.Holds (f * 2 ^ t))

include hx hn hf h

/-- **A mantissa is not shifted beyond the exponent of the stored number**: a number of this size
would have more than its mantissa. -/
theorem Holds.le_exponent : t ≤ x.exponent := by
  by_contra hlt
  obtain ⟨j, hj⟩ : ∃ j : Nat, t = x.exponent + (j + 1 : Nat) :=
    ⟨(t - x.exponent - 1).toNat, by omega⟩
  rw [hj, ← mul_two_pow_mul_zpow] at h
  obtain ⟨-, hhigh⟩ := h.bounds
  obtain ⟨hle, hmost, -⟩ := hx.canonical
  have hlong : (2 ^ 52 : ℚ) ≤ f := by
    have hcast : (2 ^ 52 : ℚ) ≤ n := by
      exact_mod_cast hn.full.resolve_left (by omega)
    exact hcast.trans hf.1
  have hshort : (x.mantissa + 1 : ℚ) ≤ 2 ^ 53 := by exact_mod_cast hmost
  have hpow : (2 : ℚ) ≤ 2 ^ (j + 1) := by
    exact_mod_cast Nat.le_self_pow (Nat.succ_ne_zero j) 2
  have hprod := mul_le_mul hlong hpow (by norm_num) (by linarith)
  linarith

/-- **Where a mantissa is shifted to a smaller exponent**, the number lies just below the power of
two that is stored, where the next smaller number is closer. -/
theorem Holds.low_of_lt_exponent (ht : t < x.exponent) :
    x.exponent = t + 1 ∧ x.mantissa = 2 ^ 52 ∧ (2 ^ 54 - 1 : ℚ) ≤ 2 * f ∧ f < 2 ^ 53 := by
  obtain ⟨j, hj⟩ : ∃ j : Nat, x.exponent = t + (j + 1 : Nat) :=
    ⟨(x.exponent - t - 1).toNat, by omega⟩
  -- In units of the stored number it is what it is here, shifted back.
  obtain ⟨f', rfl⟩ : ∃ f', f = f' * 2 ^ (j + 1) :=
    ⟨f / 2 ^ (j + 1), (div_mul_cancel₀ f (by positivity)).symm⟩
  rw [mul_two_pow_mul_zpow, ← hj] at h
  obtain ⟨hlow, -⟩ := h.bounds
  have hlong : (2 ^ 52 : ℚ) ≤ x.mantissa := by
    exact_mod_cast hx.canonical.full.resolve_left (by have := hn.le; omega)
  have hshort : f' * 2 ^ (j + 1) < 2 ^ 53 := by
    have hcast : (n + 1 : ℚ) ≤ 2 ^ 53 := by exact_mod_cast hn.lt
    exact lt_of_lt_of_le hf.2 hcast
  have hle := hx.le_low
  obtain rfl : j = 0 := by
    by_contra hne
    have hpow : (4 : ℚ) ≤ 2 ^ (j + 1) := by
      exact_mod_cast Nat.pow_le_pow_right Nat.two_pos (show 2 ≤ j + 1 by omega)
    have hprod := mul_le_mul_of_nonneg_left hpow (show 0 ≤ f' by linarith)
    linarith
  rw [zero_add, pow_one] at hshort ⊢
  have hnarrow : x.narrow = true := by
    by_contra hwide
    have hne : x.mantissa ≠ 2 ^ 52 := fun heq =>
      hwide (hx.narrow_iff.mpr ⟨heq, by have := hn.le; omega⟩)
    have hgt : (2 ^ 52 + 1 : ℚ) ≤ x.mantissa := by
      have hlong' : 2 ^ 52 ≤ x.mantissa := by exact_mod_cast hlong
      exact_mod_cast (show 2 ^ 52 + 1 ≤ x.mantissa by omega)
    linarith
  obtain ⟨hpower, -⟩ := hx.narrow_iff.mp hnarrow
  rw [low, if_pos hnarrow, hpower] at hlow
  refine ⟨by omega, hpower, ?_, hshort⟩
  norm_num at hlow ⊢
  linarith

/-- **At the exponent to which a mantissa is shifted**, a number of the interval is rounded to the
mantissa, or else to the next power of two, which takes one more shift. -/
theorem Holds.rounded {r : Nat} (hr : Nearest f r) :
    (t = x.exponent ∧ r = x.mantissa) ∨
      (x.exponent = t + 1 ∧ x.mantissa = 2 ^ 52 ∧ r = 2 ^ 53) := by
  rcases (h.le_exponent hx hn hf).eq_or_lt with rfl | ht
  · exact Or.inl ⟨rfl, hr.unique (h.nearest hx)⟩
  · obtain ⟨he, hpower, hlow, hhigh⟩ := h.low_of_lt_exponent hx hn hf ht
    refine Or.inr ⟨he, hpower, hr.unique ?_⟩
    have hnear : |f - (2 ^ 53 : Nat)| ≤ 1 / 2 := by
      norm_num at hlow hhigh ⊢
      rw [abs_le]
      constructor <;> linarith
    exact (lt_or_eq_of_le hnear).imp_right fun heq => ⟨heq, rfl⟩

end Shifted

end Dyadic

namespace Binary64

variable {x : Dyadic} {v : ℚ} {M : Nat} {E : Int} {a : Accuracy}

/-- **What approximates a number of the interval is rounded to the stored number.** -/
theorem roundWithAccuracy_eq (hx : x.Stored) (hv : x.Holds v) (s : Sign)
    (ha : Approximates (.ofMantissaAndAccuracy M a) (v / 2 ^ E)) (hlong : E ≤ -1074 ∨ 2 ^ 52 ≤ M) :
    roundWithAccuracy .binary64 s M E a = .finite s x.mantissa x.exponent hx.pos := by
  obtain ⟨k, hk, hcanonical⟩ := exists_shift hlong
  have hshift := ha.shiftRight k
  have hbounds := hshift.bounds
  rw [mantissa_shiftRight, mantissa_ofMantissaAndAccuracy] at hbounds
  have hvalue : v = v / 2 ^ E / 2 ^ k * 2 ^ (E + k) := by
    rw [zpow_add₀ two_ne_zero, zpow_natCast]
    field_simp
  rw [hvalue] at hv
  have hround : ∃ j, (Format.binary64.targetExponent (totalExponent
        (ExtendedMantissa.ofMantissaAndAccuracy M a >>> k).roundedMantissa (E + k)) -
      (E + k)).toNat = j ∧
      (ExtendedMantissa.ofMantissaAndAccuracy M a >>> k).roundedMantissa / 2 ^ j = x.mantissa ∧
        E + k + j = x.exponent := by
    rcases hv.rounded hx hcanonical hbounds hshift.nearest with ⟨he, hm⟩ | ⟨he, hm, hr⟩
    · refine ⟨0, ?_, by rw [hm, pow_zero, Nat.div_one], by omega⟩
      rw [hm, he, hx.canonical.targetExponent_eq hx.pos, sub_self, Int.toNat_zero]
    · refine ⟨1, ?_, by rw [hm, hr]; rfl, by omega⟩
      have hlog : (2 ^ 53).log2 = 53 := Nat.log2_two_pow
      have hle := hcanonical.le
      rw [hr, targetExponent_eq, hlog]
      omega
  obtain ⟨j, hj, hm, he⟩ := hround
  unfold roundWithAccuracy shiftToTargetExponent shiftToExponent
  simp only [hk, hj, mantissa_shiftRight, mantissa_ofMantissaAndAccuracy, hm, he]
  exact dif_neg hx.pos.ne'

end Binary64

end GrammarFuzzing
