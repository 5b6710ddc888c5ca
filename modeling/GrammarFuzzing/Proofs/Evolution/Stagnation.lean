import GrammarFuzzing.Evolution.Tuning
import GrammarFuzzing.Proofs.Number.Exact
import Mathlib.Tactic.NormNum

/-!
# How far rates drift

A stagnation tuner pushes its rates against limits of two kinds. Where nothing improves it goes
towards a *fixed* ceiling of mutation and a *fixed* floor of crossover, whatever the base is; where
something does, it goes back and stops at the base. Only the ceiling of repetitions is made from the
base.

From base rates between the fixed limits the tuner explores at least as much as they do, and a call
that reacts to stagnation explores at least as much as the last one. From other ones it does the
opposite: a reaction from a base above the ceiling *lowers* the rate of mutation to the ceiling, one
from a base below the floor raises the rate of crossover, and it is improvement that undoes this.
`GrammarFuzzing.StagnationTuner.after_explores_iff` says what holds of every base, and that nothing
short of the two limits will do for the rest.
-/

namespace GrammarFuzzing

namespace StagnationTuner

section Calls

variable {α : Type} [Scalar α]

/-- **A call reacts to stagnation** if it sees no improvement, and the tuner has waited for one as
long as it waits. -/
def Reacts (t : StagnationTuner α) (previous current : α) : Prop :=
  Scalar.lt (previous + threshold) current = false ∧ t.patience ≤ t.stagnant + 1

/-- **The rates and the tuner after some generations**, from the best fitness before each of them
and after it. The first call gets the base rates, and every other one what the last one returned. -/
def after (base : Rates α) (generations : List (α × α)) : Rates α × StagnationTuner α :=
  generations.foldl (fun state best => state.2.tune best.1 best.2 state.1) (base, ofBase base)

variable {t : StagnationTuner α} {previous current : α} {base r : Rates α}

theorem tune_of_reacts (h : t.Reacts previous current) :
    t.tune previous current r = (t.explore r, { t with stagnant := 0 }) := by
  rw [tune, h.1, if_neg Bool.false_ne_true, if_neg (Nat.not_lt.mpr h.2)]

/-- **What a call does**: it goes back, waits, or reacts. -/
theorem tune_cases (t : StagnationTuner α) (previous current : α) (r : Rates α) :
    t.tune previous current r = (t.relax r, { t with stagnant := 0 }) ∨
      t.tune previous current r = (r, { t with stagnant := t.stagnant + 1 }) ∨
      t.tune previous current r = (t.explore r, { t with stagnant := 0 }) := by
  rw [tune]
  split
  · exact Or.inl rfl
  · split
    · exact Or.inr (Or.inl rfl)
    · exact Or.inr (Or.inr rfl)

theorem after_append_singleton (generations : List (α × α)) (best : α × α) :
    after base (generations ++ [best]) =
      (after base generations).2.tune best.1 best.2 (after base generations).1 := by
  rw [after, List.foldl_append]
  rfl

end Calls

/-! ### Rates that are rationals -/

/-- Rates that are computed exactly. -/
def rates (p q : ℚ) (k : ℕ) : Rates Exact :=
  ⟨.rational p, .rational q, k⟩

/-- The tuner around base rates, some generations without improvement later. -/
def around (m c : ℚ) (n stagnant : ℕ) : StagnationTuner Exact :=
  { ofBase (rates m c n) with stagnant := stagnant }

variable {m c p q : ℚ} {n k stagnant : ℕ}

theorem around_step : (around m c n stagnant).step = .rational (1 / 20) := by
  change Scalar.ratio 1 20 = _
  rw [Exact.ratio_eq _ (by decide), Nat.cast_one, Nat.cast_ofNat]

theorem around_maxMutation : (around m c n stagnant).maxMutation = .rational (9 / 10) := by
  change Scalar.ratio 9 10 = _
  rw [Exact.ratio_eq _ (by decide), Nat.cast_ofNat, Nat.cast_ofNat]

theorem around_minCrossover : (around m c n stagnant).minCrossover = .rational (1 / 10) := by
  change Scalar.ratio 1 10 = _
  rw [Exact.ratio_eq _ (by decide), Nat.cast_one, Nat.cast_ofNat]

theorem around_maxRepetitionsCap (hn : 1 ≤ n) (hfits : 2 * n < 2 ^ 64) :
    (around m c n stagnant).maxRepetitionsCap = 2 * n := by
  have hmin : Nat.min (n * 2) (2 ^ 64 - 1) = n * 2 := Nat.min_eq_left (by omega)
  have hmax : Nat.max (n * 2) 1 = n * 2 := Nat.max_eq_left (by omega)
  change Nat.max (Nat.min (n * 2) (2 ^ 64 - 1)) 1 = 2 * n
  rw [hmin, hmax, Nat.mul_comm]

/-- One step of exploration, as far as the fixed limits let it. -/
theorem explore_rates (hn : 1 ≤ n) (hfits : 2 * n < 2 ^ 64) :
    (around m c n stagnant).explore (rates p q k) =
      rates (min (p + 1 / 20) (9 / 10)) (max (q - 1 / 20) (1 / 10)) (Nat.min (k + 1) (2 * n)) := by
  simp only [explore, rates, around_step, around_maxMutation, around_minCrossover,
    around_maxRepetitionsCap hn hfits, Exact.rational_add, Exact.rational_sub, Exact.min_rational,
    Exact.max_rational]

/-- One step back, as far as the base. -/
theorem relax_rates : (around m c n stagnant).relax (rates p q k) =
    rates (max (p - 1 / 20) m) (min (q + 1 / 20) c) (Nat.max (Nat.min k n) 1) := by
  rw [relax, around_step]
  simp only [rates, around, ofBase, Exact.rational_add, Exact.rational_sub, Exact.min_rational,
    Exact.max_rational]

/-! ### Any number of calls -/

/-- **Rates that a tuner reaches from base rates**: those of mutation and crossover are between the
base and the fixed limit, and there are at most twice as many repetitions as in the base. -/
structure Within (m c : ℚ) (n : ℕ) (p q : ℚ) (k : ℕ) : Prop where
  le_mutation : min m (9 / 10) ≤ p
  mutation_le : p ≤ max m (9 / 10)
  le_crossover : min c (1 / 10) ≤ q
  crossover_le : q ≤ max c (1 / 10)
  le_repetitions : n ≤ k
  repetitions_le : k ≤ 2 * n

theorem Within.base : Within m c n m c n :=
  ⟨min_le_left _ _, le_max_left _ _, min_le_left _ _, le_max_left _ _, le_rfl, by omega⟩

theorem Within.explore (hn : 1 ≤ n) (h : Within m c n p q k) :
    Within m c n (min (p + 1 / 20) (9 / 10)) (max (q - 1 / 20) (1 / 10))
      (Nat.min (k + 1) (2 * n)) where
  le_mutation := le_min (h.le_mutation.trans (by linarith)) (min_le_right _ _)
  mutation_le := (min_le_right _ _).trans (le_max_right _ _)
  le_crossover := (min_le_right _ _).trans (le_max_right _ _)
  crossover_le := max_le (le_trans (by linarith) h.crossover_le) (le_max_right _ _)
  le_repetitions := Nat.le_min.mpr ⟨Nat.le_succ_of_le h.le_repetitions, by omega⟩
  repetitions_le := Nat.min_le_right _ _

theorem Within.relax (hn : 1 ≤ n) (h : Within m c n p q k) :
    Within m c n (max (p - 1 / 20) m) (min (q + 1 / 20) c) (Nat.max (Nat.min k n) 1) where
  le_mutation := (min_le_left _ _).trans (le_max_right _ _)
  mutation_le := max_le (le_trans (by linarith) h.mutation_le) (le_max_left _ _)
  le_crossover := le_min (h.le_crossover.trans (by linarith)) (min_le_left _ _)
  crossover_le := (min_le_right _ _).trans (le_max_left _ _)
  le_repetitions := (Nat.le_min.mpr ⟨h.le_repetitions, le_rfl⟩).trans (Nat.le_max_left _ _)
  repetitions_le := Nat.max_le.mpr ⟨(Nat.min_le_right _ _).trans (by omega), by omega⟩

/-- The base rates and their tuner, or what calls make of them. -/
def Reached (m c : ℚ) (n : ℕ) (state : Rates Exact × StagnationTuner Exact) : Prop :=
  ∃ p q k stagnant, state = (rates p q k, around m c n stagnant) ∧ Within m c n p q k

/-- One call keeps to what can be reached. -/
theorem Reached.tune (hn : 1 ≤ n) (hfits : 2 * n < 2 ^ 64)
    {state : Rates Exact × StagnationTuner Exact} (h : Reached m c n state)
    (previous current : Exact) : Reached m c n (state.2.tune previous current state.1) := by
  obtain ⟨p, q, k, stagnant, rfl, hwithin⟩ := h
  rcases tune_cases (around m c n stagnant) previous current (rates p q k) with heq | heq | heq
  · rw [heq, relax_rates]
    exact ⟨_, _, _, 0, rfl, hwithin.relax hn⟩
  · rw [heq]
    exact ⟨p, q, k, stagnant + 1, rfl, hwithin⟩
  · rw [heq, explore_rates hn hfits]
    exact ⟨_, _, _, 0, rfl, hwithin.explore hn⟩

/-- **Any number of calls** keeps to what can be reached. -/
theorem reached_after (hn : 1 ≤ n) (hfits : 2 * n < 2 ^ 64) (generations : List (Exact × Exact)) :
    Reached m c n (after (rates m c n) generations) := by
  induction generations using List.reverseRecOn with
  | nil => exact ⟨m, c, n, 0, rfl, .base⟩
  | append_singleton generations best ih =>
    rw [after_append_singleton]
    exact ih.tune hn hfits best.1 best.2

/-! ### Reactions -/

/-- **Rates that explore at least as much as others**: mutation is not rarer, and crossover not more
frequent. -/
def Explores (r r' : Rates Exact) : Prop :=
  ∃ p q k p' q' k', r = rates p q k ∧ r' = rates p' q' k' ∧ p ≤ p' ∧ q' ≤ q

theorem explores_rates {p' q' : ℚ} {k' : ℕ} :
    Explores (rates p q k) (rates p' q' k') ↔ p ≤ p' ∧ q' ≤ q := by
  constructor
  · rintro ⟨_, _, _, _, _, _, hr, hr', hp, hq⟩
    cases hr
    cases hr'
    exact ⟨hp, hq⟩
  · rintro ⟨hp, hq⟩
    exact ⟨_, _, _, _, _, _, rfl, rfl, hp, hq⟩

/-- The best fitness before a generation and after it, if it stays the same. -/
def idle : Exact × Exact :=
  (.rational 0, .rational 0)

theorem not_improved_idle : Scalar.lt (idle.1 + threshold) idle.2 = false := by
  rw [threshold, idle, Exact.ratio_eq _ (Nat.two_pow_pos 52).ne', Exact.rational_add,
    Exact.lt_rational, decide_eq_false_iff_not, zero_add, not_lt]
  positivity

/-- **The tuner waits** for some generations without improvement. -/
theorem after_idle : ∀ {j : ℕ}, j < 5 →
    after (rates m c n) (List.replicate j idle) = (rates m c n, around m c n j)
  | 0, _ => rfl
  | j + 1, hj => by
    rw [List.replicate_succ', after_append_singleton, after_idle (Nat.lt_of_succ_lt hj), tune,
      not_improved_idle, if_neg Bool.false_ne_true]
    exact if_pos hj

theorem reacts_after_idle :
    (after (rates m c n) (List.replicate 4 idle)).2.Reacts idle.1 idle.2 := by
  rw [after_idle (by decide)]
  exact ⟨not_improved_idle, Nat.le_refl 5⟩

/-- What a reaction makes of the rates. -/
theorem after_of_reacts (hn : 1 ≤ n) (hfits : 2 * n < 2 ^ 64) {generations : List (Exact × Exact)}
    {best : Exact × Exact} (hreacts : (after (rates m c n) generations).2.Reacts best.1 best.2)
    (hrates : (after (rates m c n) generations).1 = rates p q k) :
    (after (rates m c n) (generations ++ [best])).1 =
      rates (min (p + 1 / 20) (9 / 10)) (max (q - 1 / 20) (1 / 10)) (Nat.min (k + 1) (2 * n)) := by
  obtain ⟨_, _, _, stagnant, hstate, -⟩ := reached_after (m := m) (c := c) hn hfits generations
  have htuner : (after (rates m c n) generations).2 = around m c n stagnant := by rw [hstate]
  rw [after_append_singleton, tune_of_reacts hreacts, hrates, htuner, explore_rates hn hfits]

/-- **A reaction explores more where the fixed limits let it.** -/
theorem explores_of_reacts (hn : 1 ≤ n) (hfits : 2 * n < 2 ^ 64) (hm : m ≤ 9 / 10) (hc : 1 / 10 ≤ c)
    {generations : List (Exact × Exact)} {best : Exact × Exact}
    (hreacts : (after (rates m c n) generations).2.Reacts best.1 best.2) :
    Explores (after (rates m c n) generations).1
      (after (rates m c n) (generations ++ [best])).1 := by
  obtain ⟨p, q, k, _, hstate, hwithin⟩ := reached_after (m := m) (c := c) hn hfits generations
  have hrates : (after (rates m c n) generations).1 = rates p q k := by rw [hstate]
  rw [after_of_reacts hn hfits hreacts hrates, hrates, explores_rates]
  constructor
  · exact le_min (by linarith) (hwithin.mutation_le.trans (max_le hm le_rfl))
  · exact max_le (by linarith) ((le_min hc le_rfl).trans hwithin.le_crossover)

/-- The first reaction after the base explores less if a fixed limit is in its way. -/
theorem between_of_explores_idle (hn : 1 ≤ n) (hfits : 2 * n < 2 ^ 64)
    (h : Explores (rates m c n) (after (rates m c n) (List.replicate 4 idle ++ [idle])).1) :
    m ≤ 9 / 10 ∧ 1 / 10 ≤ c := by
  rw [after_of_reacts hn hfits reacts_after_idle (by rw [after_idle (by decide)]),
    explores_rates] at h
  exact ⟨h.1.trans (min_le_right _ _), (le_max_right _ _).trans h.2⟩

/-- **How far a stagnation tuner goes from its base.** Let the base rates of mutation and crossover
be in the unit interval, and its repetitions be any number whose double fits into a word:

* whatever the fitness of the generations is, the rates stay in the unit interval and between the
  base and the fixed limits, and there are as many repetitions as in the base, or up to twice as
  many;
* if and only if the base is between the fixed limits, the rates of every run explore at least as
  much as the base;
* and again exactly for these bases, what a call makes of the rates when it reacts to stagnation
  explores at least as much as they did. -/
theorem after_explores_iff (hm₀ : 0 ≤ m) (hm₁ : m ≤ 1) (hc₀ : 0 ≤ c) (hc₁ : c ≤ 1) (hn : 1 ≤ n)
    (hfits : 2 * n < 2 ^ 64) :
    (∀ generations, ∃ p q k, (after (rates m c n) generations).1 = rates p q k ∧
      Within m c n p q k ∧ 0 ≤ p ∧ p ≤ 1 ∧ 0 ≤ q ∧ q ≤ 1) ∧
    ((∀ generations, Explores (rates m c n) (after (rates m c n) generations).1) ↔
      m ≤ 9 / 10 ∧ 1 / 10 ≤ c) ∧
    ((∀ generations best, (after (rates m c n) generations).2.Reacts best.1 best.2 →
        Explores (after (rates m c n) generations).1
          (after (rates m c n) (generations ++ [best])).1) ↔
      m ≤ 9 / 10 ∧ 1 / 10 ≤ c) := by
  refine ⟨fun generations => ?_, ⟨fun hall => ?_, fun ⟨hm, hc⟩ generations => ?_⟩,
    ⟨fun hall => ?_, fun ⟨hm, hc⟩ generations best hreacts => ?_⟩⟩
  · obtain ⟨p, q, k, _, hstate, hwithin⟩ := reached_after (m := m) (c := c) hn hfits generations
    refine ⟨p, q, k, by rw [hstate], hwithin, ?_, ?_, ?_, ?_⟩
    · exact (le_min hm₀ (by norm_num)).trans hwithin.le_mutation
    · exact hwithin.mutation_le.trans (max_le hm₁ (by norm_num))
    · exact (le_min hc₀ (by norm_num)).trans hwithin.le_crossover
    · exact hwithin.crossover_le.trans (max_le hc₁ (by norm_num))
  · exact between_of_explores_idle hn hfits (hall _)
  · obtain ⟨p, q, k, _, hstate, hwithin⟩ := reached_after (m := m) (c := c) hn hfits generations
    rw [hstate, explores_rates]
    exact ⟨(le_min le_rfl hm).trans hwithin.le_mutation,
      hwithin.crossover_le.trans (max_le le_rfl hc)⟩
  · have hfirst := hall _ idle reacts_after_idle
    rw [after_idle (by decide)] at hfirst
    exact between_of_explores_idle hn hfits hfirst
  · exact explores_of_reacts hn hfits hm hc hreacts

/-- With a base rate of mutation above the ceiling, some run explores less than the base; with usual
rates, every run explores at least as much. -/
theorem not_explores_highMutation :
    (∃ generations, ¬ Explores (rates (19 / 20) (4 / 5) 5)
      (after (rates (19 / 20) (4 / 5) 5) generations).1) ∧
    ∀ generations, Explores (rates (1 / 5) (4 / 5) 5)
      (after (rates (1 / 5) (4 / 5) 5) generations).1 := by
  obtain ⟨-, hhigh, -⟩ := after_explores_iff (m := 19 / 20) (c := 4 / 5) (n := 5) (by norm_num)
    (by norm_num) (by norm_num) (by norm_num) (by decide) (by decide)
  obtain ⟨-, husual, -⟩ := after_explores_iff (m := 1 / 5) (c := 4 / 5) (n := 5) (by norm_num)
    (by norm_num) (by norm_num) (by norm_num) (by decide) (by decide)
  constructor
  · by_contra hnone
    have hlimit := (hhigh.mp (by simpa using hnone)).1
    norm_num at hlimit
  · exact husual.mpr ⟨by norm_num, by norm_num⟩

end StagnationTuner

end GrammarFuzzing
