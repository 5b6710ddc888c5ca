import GrammarFuzzing.Proofs.Number.Nearest

/-!
# The shortest decimal of a float is in its interval

The search for the shortest decimal goes from coarse grids to fine ones, and on each grid looks at
the two neighbours of the number. It has forty tries. This is enough
(`GrammarFuzzing.Dyadic.Stored.search_spec`): on a grid whose distances are less than half a place
of the number, the upper neighbour is in the interval, and the search comes to such a grid, as it
starts from the length of the mantissa, of at most 53 bits, and goes down by forty places.

So the decimal that is found is in the interval (`GrammarFuzzing.Dyadic.Stored.shortest_spec`), and
the zeros at its end are no part of its value (`GrammarFuzzing.Decimal.dropZeros_spec`). The
comparisons on the way are those of two natural numbers that are multiples of the two numbers meant
(`GrammarFuzzing.Dyadic.scaled_eq`).
-/

namespace GrammarFuzzing

/-! ### Comparisons -/

/-- The value of a decimal. -/
def Decimal.value (x : Decimal) : ℚ :=
  x.digits * 10 ^ x.exponent

/-- A power is a fraction of powers with natural exponents. -/
theorem zpow_mul_pow_toNat {q : ℚ} (hq : q ≠ 0) (k : Int) :
    q ^ k * q ^ (-k).toNat = q ^ k.toNat := by
  rw [← zpow_natCast, ← zpow_natCast, ← zpow_add₀ hq]
  congr 1
  omega

namespace Dyadic

variable {x : Dyadic} {a b d : Nat} {k e : Int}

/-- The two numbers that are compared are multiples of the two that are meant. -/
theorem scaled_eq (a : Nat) (k : Int) (b : Nat) (e : Int) : ∃ c : ℚ, 0 < c ∧
    (a * Nat.pow 10 k.toNat * Nat.pow 2 (-e).toNat : Nat) = a * 10 ^ k * c ∧
      (b * Nat.pow 2 e.toNat * Nat.pow 10 (-k).toNat : Nat) = b * 2 ^ e * c := by
  refine ⟨10 ^ (-k).toNat * 2 ^ (-e).toNat, by positivity, ?_, ?_⟩
  · simp only [Nat.pow_eq]
    push_cast
    rw [← zpow_mul_pow_toNat (show (10 : ℚ) ≠ 0 by norm_num) k]
    ring
  · simp only [Nat.pow_eq]
    push_cast
    rw [← zpow_mul_pow_toNat two_ne_zero e]
    ring

theorem compareScaled_eq_lt : compareScaled a k b e = .lt ↔ (a * 10 ^ k : ℚ) < b * 2 ^ e := by
  obtain ⟨c, hc, ha, hb⟩ := scaled_eq a k b e
  rw [compareScaled, compare_lt_iff_lt, ← Nat.cast_lt (α := ℚ), ha, hb, mul_lt_mul_iff_left₀ hc]

theorem compareScaled_eq_gt : compareScaled a k b e = .gt ↔ (b * 2 ^ e : ℚ) < a * 10 ^ k := by
  obtain ⟨c, hc, ha, hb⟩ := scaled_eq a k b e
  rw [compareScaled, compare_gt_iff_gt, ← Nat.cast_lt (α := ℚ), ha, hb,
    mul_lt_mul_iff_left₀ hc]

/-- **The test for a decimal of the interval.** -/
theorem rounds_iff : x.rounds d k = true ↔ x.Holds (d * 10 ^ k) := by
  rw [rounds, Holds, ← low]
  split
  · rw [Bool.and_eq_true, bne_iff_ne, bne_iff_ne, Ne, Ne, compareScaled_eq_lt, compareScaled_eq_gt,
      not_lt, not_lt]
  · rw [Bool.and_eq_true, beq_iff_eq, beq_iff_eq, compareScaled_eq_lt, compareScaled_eq_gt]

/-! ### The search -/

/-- The number is between two neighbours on the grid. -/
theorem floorAt_bounds (x : Dyadic) (k : Int) :
    x.floorAt k * 10 ^ k ≤ x.value ∧ x.value < (x.floorAt k + 1 : Nat) * 10 ^ k := by
  have hden : 0 < Nat.pow 2 (-x.exponent).toNat * Nat.pow 10 k.toNat := by
    simp only [Nat.pow_eq]
    positivity
  have hlow : x.floorAt k * (Nat.pow 2 (-x.exponent).toNat * Nat.pow 10 k.toNat) ≤
      x.mantissa * Nat.pow 2 x.exponent.toNat * Nat.pow 10 (-k).toNat := Nat.div_mul_le_self _ _
  have hhigh : x.mantissa * Nat.pow 2 x.exponent.toNat * Nat.pow 10 (-k).toNat <
      (x.floorAt k + 1) * (Nat.pow 2 (-x.exponent).toNat * Nat.pow 10 k.toNat) :=
    Nat.lt_mul_of_div_lt (Nat.lt_succ_self _) hden
  constructor
  · rw [value, ← not_lt, ← compareScaled_eq_gt, compareScaled, compare_gt_iff_gt, Nat.not_lt]
    linarith
  · rw [value, ← compareScaled_eq_gt, compareScaled, compare_gt_iff_gt]
    linarith

/-- **On a grid that is fine enough** the upper neighbour is in the interval. -/
theorem Stored.rounds_floorAt_succ (hx : x.Stored) (hk : (10 : ℚ) ^ k < 2 ^ (x.exponent - 1)) :
    x.rounds (x.floorAt k + 1) k = true := by
  obtain ⟨hlow, hhigh⟩ := x.floorAt_bounds k
  refine rounds_iff.mpr (hx.holds_of_le hhigh.le ?_)
  push_cast
  linarith

/-- **The search ends** with a decimal of the interval, if it comes to a grid that is fine
enough. -/
theorem Stored.search_spec (hx : x.Stored) : ∀ {tries : Nat} {k : Int},
    (∃ j, k - tries < j ∧ j ≤ k ∧ (10 : ℚ) ^ j < 2 ^ (x.exponent - 1)) →
      (x.search tries k).digits ≠ 0 ∧ x.Holds (x.search tries k).value
  | 0, k, ⟨j, hlow, hhigh, _⟩ => by omega
  | tries + 1, k, ⟨j, hlow, hhigh, hfine⟩ => by
    rw [search]
    split
    · rename_i hd _
      rw [Bool.and_eq_true, bne_iff_ne] at hd
      exact ⟨hd.2, rounds_iff.mp hd.1⟩
    · rename_i hd
      exact ⟨Nat.succ_ne_zero _, rounds_iff.mp hd⟩
    · rename_i hd hd'
      rw [Bool.and_eq_true, bne_iff_ne] at hd
      split
      · exact ⟨hd.2, rounds_iff.mp hd.1⟩
      · exact ⟨Nat.succ_ne_zero _, rounds_iff.mp hd'⟩
    · rename_i hcoarse
      have hne : j ≠ k := by
        rintro rfl
        exact absurd (hx.rounds_floorAt_succ hfine) (by rw [hcoarse]; exact Bool.false_ne_true)
      exact hx.search_spec ⟨j, by omega, by omega, hfine⟩

/-- **The shortest decimal is in the interval.** -/
theorem Stored.shortest_spec (hx : x.Stored) (he : x.exponent ≤ 971) :
    x.shortest.digits ≠ 0 ∧ x.Holds x.shortest.value := by
  have hle := hx.canonical.le
  have hlog : x.mantissa.log2 < 53 := (Nat.log2_lt hx.pos.ne').mpr hx.canonical.lt
  refine hx.search_spec ⟨x.startGrid - 39, by omega, by omega, ?_⟩
  rw [startGrid, Int.fdiv_eq_ediv_of_nonneg _ (by decide)]
  refine lt_of_le_of_lt (ten_zpow_le_two_zpow (j := x.exponent - 2) (fun _ => ?_) fun _ => ?_)
    (zpow_lt_zpow_right₀ one_lt_two (by omega)) <;> omega

end Dyadic

/-- Trailing zeros are no part of the value. -/
theorem Decimal.dropZeros_spec : ∀ (tries : Nat) {x : Decimal}, x.digits ≠ 0 →
    (x.dropZeros tries).digits ≠ 0 ∧ (x.dropZeros tries).value = x.value
  | 0, x, h => ⟨h, rfl⟩
  | tries + 1, x, h => by
    rw [dropZeros]
    split
    · rename_i hzero
      rw [Bool.and_eq_true, decide_eq_true_eq] at hzero
      obtain ⟨q, hq⟩ := Nat.dvd_of_mod_eq_zero hzero.1
      have hspec := dropZeros_spec tries (x := ⟨x.digits / 10, x.exponent + 1⟩)
        (by simp only; omega)
      refine ⟨hspec.1, hspec.2.trans ?_⟩
      rw [value, value, hq, Nat.mul_div_cancel_left q (by decide), zpow_add_one₀ (by norm_num)]
      push_cast
      ring
    · exact ⟨h, rfl⟩

end GrammarFuzzing
