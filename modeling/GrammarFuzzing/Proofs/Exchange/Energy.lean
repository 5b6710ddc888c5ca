import GrammarFuzzing.Exchange.Schedule
import GrammarFuzzing.Proofs.Dictionary
import GrammarFuzzing.Proofs.Number.Exact
import Mathlib.Algebra.BigOperators.Ring.List
import Mathlib.Algebra.Order.BigOperators.Group.List

/-!
# Energies are a power law

A power schedule rebuilds three tables whenever it assigns energies: how often each type was
produced, what is covered of it, and its energy. Types come into the last table from either of the
first two. This file computes it with exact scalars and proves that the three agree: the table of
energies lists the **known** types, those that were produced or are tracked by coverage, each with
its **weight** (`GrammarFuzzing.PowerSchedule.rawEnergies_eq`),

`weight = (1 - covered share) / (max 1 frequency) ^ 2`.

Energies are weights in proportion to their sum. So what is assigned is a distribution that follows
the power law, or, if nothing is left to cover, an error and no energies at all
(`GrammarFuzzing.PowerSchedule.assignEnergy_follows`). Both tables are functions of the number of
times each type was produced, so the order in which types were produced does not matter, nor does
what was assigned before.

Coverage may be any number, also outside of the unit interval or infinite: it is read as the nearest
share.
-/

namespace GrammarFuzzing

namespace Exact

/-- The share of the unit interval that is nearest to a scalar. -/
def share : Exact → ℚ
  | .rational q => max 0 (min q 1)
  | .infinite negative => if negative then 0 else 1
  | .undefined => 0

theorem share_le_one : ∀ a : Exact, a.share ≤ 1
  | .rational _ => max_le zero_le_one (min_le_right _ _)
  | .infinite true | .undefined => zero_le_one
  | .infinite false => le_rfl

theorem clamp01_eq {a : Exact} (h : a ≠ .undefined) : Scalar.clamp01 a = rational a.share := by
  cases a with
  | undefined => exact absurd rfl h
  | infinite negative => cases negative <;> simp [Scalar.clamp01, share, Scalar.lt, lt]
  | rational q =>
    simp only [Scalar.clamp01, share, ofNat_eq, lt_rational, decide_eq_true_eq, Nat.cast_zero,
      Nat.cast_one]
    split
    · rw [min_eq_left (by linarith), max_eq_left (by linarith)]
    · split
      · rw [min_eq_right (by linarith), max_eq_right zero_le_one]
      · rw [min_eq_left (by linarith), max_eq_right (by linarith)]

/-- The whole unit interval is covered by one and by whatever is greater. -/
theorem share_eq_one_iff {a : Exact} (h : a ≠ .undefined) :
    a.share = 1 ↔ Scalar.lt a (Scalar.ofNat 1) = false := by
  cases a with
  | undefined => exact absurd rfl h
  | infinite negative => cases negative <;> simp [share, Scalar.lt, lt]
  | rational q =>
    rw [ofNat_eq, lt_rational, decide_eq_false_iff_not, share, Nat.cast_one, not_lt]
    constructor
    · intro hone
      by_contra hlt
      rw [not_le] at hlt
      rw [min_eq_left hlt.le] at hone
      rcases max_choice 0 q with hzero | hq <;> linarith
    · intro hle
      rw [min_eq_right hle, max_eq_right zero_le_one]

end Exact

namespace PowerSchedule

open Exact

variable {κ : Type} [DecidableEq κ] [Ord κ] [Std.LawfulEqOrd κ] [Std.TransOrd κ]

/-! ### What is known -/

/-- **The known types**: those that were produced and those that are tracked by coverage. -/
def known (observed : List κ) (coverage : Dictionary κ Exact) : List κ :=
  SortedSet.ofList (observed ++ coverage.keys)

/-- What is covered of a type; nothing is if it is not tracked. -/
def coverageOf (coverage : Dictionary κ Exact) (key : κ) : Exact :=
  (coverage.find? key).getD (.rational 0)

/-- A type of which all is covered. -/
def Exhausted (coverage : Dictionary κ Exact) (key : κ) : Prop :=
  Scalar.lt (coverageOf coverage key) (.rational 1) = false

/-- **The weight of a type**: its uncovered share, divided by the square of how often it was
produced, if it was. -/
def weight (observed : List κ) (coverage : Dictionary κ Exact) (key : κ) : ℚ :=
  (1 - (coverageOf coverage key).share) / ((Nat.max 1 (observed.count key) : ℕ) : ℚ) ^ 2

variable {observed : List κ} {coverage : Dictionary κ Exact}

omit [DecidableEq κ] [Std.TransOrd κ] in
theorem mem_known {key : κ} :
    key ∈ known observed coverage ↔ key ∈ observed ∨ key ∈ coverage.keys := by
  rw [known, SortedSet.mem_ofList, List.mem_append]

theorem length_known :
    (known observed coverage).length = (observed ++ coverage.keys).dedup.length :=
  SortedSet.length_ofList _

omit [DecidableEq κ] [Std.TransOrd κ] in
/-- Coverage is a number, also where it is not tracked. -/
theorem coverageOf_ne_undefined (hnumbers : ∀ c ∈ coverage.values, c ≠ .undefined) (key : κ) :
    coverageOf coverage key ≠ .undefined := by
  rw [coverageOf]
  cases hfind : coverage.find? key with
  | none => simp
  | some c => exact hnumbers c (List.mem_map_of_mem (Dictionary.mem_of_find? hfind))

omit [Std.LawfulEqOrd κ] [Std.TransOrd κ] in
theorem weight_nonneg (key : κ) : 0 ≤ weight observed coverage key :=
  div_nonneg (sub_nonneg.mpr (share_le_one _)) (sq_nonneg _)

omit [Std.TransOrd κ] in
/-- **A type has no weight exactly when all of it is covered.** -/
theorem weight_eq_zero_iff (observed : List κ)
    (hnumbers : ∀ c ∈ coverage.values, c ≠ .undefined) (key : κ) :
    weight observed coverage key = 0 ↔ Exhausted coverage key := by
  have hpos : (0 : ℚ) < (Nat.max 1 (observed.count key) : ℕ) := by
    exact_mod_cast Nat.lt_of_lt_of_le Nat.one_pos (Nat.le_max_left _ _)
  rw [weight, div_eq_zero_iff, or_iff_left (pow_ne_zero 2 hpos.ne'), sub_eq_zero, eq_comm,
    share_eq_one_iff (coverageOf_ne_undefined hnumbers key), Exhausted, ofNat_eq, Nat.cast_one]

/-! ### The tables -/

theorem rawEnergy_eq {a : Exact} (h : a ≠ .undefined) (n : ℕ) :
    rawEnergy n a = .rational ((1 - a.share) / ((Nat.max 1 n : ℕ) : ℚ) ^ 2) := by
  rw [rawEnergy, clamp01_eq h]
  cases n with
  | zero => simp
  | succ n =>
    have hne : (1 : ℚ) * (n + 1 : ℕ) * (n + 1 : ℕ) ≠ 0 := by positivity
    have hmax : Nat.max 1 (n + 1) = n + 1 := Nat.max_eq_right (Nat.succ_pos n)
    simp only [if_neg (Nat.succ_ne_zero n), exponent, Scalar.pow, ofNat_eq, rational_mul,
      rational_sub, Nat.cast_one, rational_div _ hne, hmax]
    rw [one_mul, sq]

omit [Std.TransOrd κ] in
/-- Counting more keys adds what each of them occurs. -/
theorem find?_foldl_count (key : κ) : ∀ (keys : List κ) (d : Dictionary κ ℕ),
    Dictionary.find? (keys.foldl (fun d k => d.put k ((d.find? k).getD 0 + 1)) d) key =
      if key ∈ keys then some ((d.find? key).getD 0 + keys.count key) else d.find? key
  | [], _ => rfl
  | k :: keys, d => by
    rw [List.foldl_cons, find?_foldl_count key keys]
    by_cases hk : k = key
    · subst hk
      rw [Dictionary.find?_put_self, Option.getD_some, List.count_cons_self,
        if_pos List.mem_cons_self]
      split
      · rw [Nat.add_right_comm, Nat.add_assoc]
      · rename_i hnot
        rw [List.count_eq_zero_of_not_mem hnot]
    · rw [Dictionary.find?_put_of_ne hk, List.count_cons_of_ne hk]
      simp [Ne.symm hk]

/-- **How often each type was produced**, for the types that were. -/
theorem count_eq (observed : List κ) :
    count observed = (SortedSet.ofList observed).map fun key => (key, observed.count key) := by
  refine Dictionary.eq_of_find? ?_ ?_ fun key => ?_
  · exact List.foldlRecOn observed _ (motive := fun d : Dictionary κ ℕ =>
      d.keys.Pairwise fun a b => compare a b = .lt) .nil
      fun d hd k _ => Dictionary.sorted_keys_put hd k _
  · rw [Dictionary.keys_map_self]
    exact SortedSet.sorted_ofList observed
  · rw [count, find?_foldl_count, Dictionary.find?_map_self]
    simp

omit [DecidableEq κ] [Std.TransOrd κ] in
/-- A type that is tracked gets an energy unless it has one. -/
theorem find?_foldl_tracked (key : κ) : ∀ (tracked d : Dictionary κ Exact),
    Dictionary.find?
        (tracked.foldl (fun d (k, c) => if d.has k then d else d.put k (rawEnergy 0 c)) d) key =
      (d.find? key).or ((tracked.find? key).map (rawEnergy 0))
  | [], _ => by simp
  | (k, c) :: tracked, d => by
    rw [List.foldl_cons, find?_foldl_tracked key tracked]
    dsimp only
    by_cases hk : k = key
    · subst hk
      rw [Dictionary.find?_cons_self]
      cases hfind : d.find? k with
      | none => simp [Dictionary.has, hfind, Dictionary.find?_put_self]
      | some v => simp [Dictionary.has, hfind]
    · rw [Dictionary.find?_cons_of_ne hk]
      split
      · rfl
      · rw [Dictionary.find?_put_of_ne hk]

/-- **The energies before they are set in proportion** are the weights of the known types. -/
theorem rawEnergies_eq (observed : List κ)
    (hnumbers : ∀ c ∈ coverage.values, c ≠ .undefined) :
    rawEnergies (count observed) coverage =
      (known observed coverage).map fun key => (key, .rational (weight observed coverage key)) := by
  have hproduced (key : κ) :
      rawEnergy (observed.count key) ((coverage.find? key).getD (Scalar.ofNat 0)) =
        .rational (weight observed coverage key) :=
    rawEnergy_eq (coverageOf_ne_undefined hnumbers key) _
  simp only [rawEnergies, count_eq, List.map_map, Function.comp_def, hproduced]
  refine Dictionary.eq_of_find? ?_ ?_ fun key => ?_
  · refine List.foldlRecOn coverage _ (motive := fun d : Dictionary κ Exact =>
      d.keys.Pairwise fun a b => compare a b = .lt) ?_ fun d hd p _ => ?_
    · rw [Dictionary.keys_map_self]
      exact SortedSet.sorted_ofList observed
    · split
      · exact hd
      · exact Dictionary.sorted_keys_put hd _ _
  · rw [Dictionary.keys_map_self]
    exact SortedSet.sorted_ofList _
  · rw [find?_foldl_tracked, Dictionary.find?_map_self, Dictionary.find?_map_self]
    simp only [SortedSet.mem_ofList, mem_known]
    by_cases hobserved : key ∈ observed
    · rw [if_pos hobserved, if_pos (Or.inl hobserved), Option.some_or]
    · rw [if_neg hobserved, Option.none_or]
      cases hfind : coverage.find? key with
      | none =>
        have hnot : key ∉ coverage.keys := by
          rw [← Dictionary.has_iff_mem_keys, Dictionary.has, hfind]
          exact Bool.false_ne_true
        rw [if_neg (not_or.mpr ⟨hobserved, hnot⟩), Option.map_none]
      | some c =>
        have hc := coverageOf_ne_undefined hnumbers key
        rw [if_pos (Or.inr (Dictionary.mem_keys_of_find? hfind)), weight,
          List.count_eq_zero_of_not_mem hobserved, ← rawEnergy_eq hc 0, coverageOf, hfind,
          Option.map_some, Option.getD_some]

/-! ### Energies -/

/-- **Energies that follow the power law** of the weights: they are those of the known types, they
are shares of one, none of them negative, and they are in proportion to the weights. -/
structure Follows (energies : Dictionary κ Exact) (observed : List κ)
    (coverage : Dictionary κ Exact) (share : κ → ℚ) : Prop where
  mem_keys : ∀ key, key ∈ energies.keys ↔ key ∈ observed ∨ key ∈ coverage.keys
  nodup : energies.keys.Nodup
  energy : ∀ key ∈ energies.keys, energies.find? key = some (.rational (share key))
  nonneg : ∀ key ∈ energies.keys, 0 ≤ share key
  sum : Scalar.sum energies.values = .rational 1
  eq_zero_iff : ∀ key ∈ energies.keys, share key = 0 ↔ Exhausted coverage key
  proportional : ∃ factor : ℚ, 0 < factor ∧
    ∀ key ∈ energies.keys, share key = factor * weight observed coverage key

/-- The weights of the known types together. -/
def totalWeight (observed : List κ) (coverage : Dictionary κ Exact) : ℚ :=
  ((known observed coverage).map (weight observed coverage)).sum

theorem sum_rawEnergies (hnumbers : ∀ c ∈ coverage.values, c ≠ .undefined) :
    Scalar.sum (rawEnergies (count observed) coverage).values =
      .rational (totalWeight observed coverage) := by
  rw [rawEnergies_eq observed hnumbers, totalWeight, ← sum_rational, Dictionary.values,
    List.map_map, List.map_map]
  rfl

omit [Std.LawfulEqOrd κ] [Std.TransOrd κ] in
theorem weights_nonneg : ∀ w ∈ (known observed coverage).map (weight observed coverage), 0 ≤ w := by
  intro w hw
  obtain ⟨key, -, rfl⟩ := List.mem_map.mp hw
  exact weight_nonneg key

omit [Std.TransOrd κ] in
/-- **There is no weight at all exactly when everything known is exhausted.** -/
theorem totalWeight_eq_zero_iff (observed : List κ)
    (hnumbers : ∀ c ∈ coverage.values, c ≠ .undefined) :
    totalWeight observed coverage = 0 ↔
      ∀ key ∈ known observed coverage, Exhausted coverage key := by
  simp only [← weight_eq_zero_iff observed hnumbers]
  constructor
  · intro hzero key hkey
    exact List.all_zero_of_le_zero_le_of_sum_eq_zero weights_nonneg hzero (List.mem_map_of_mem hkey)
  · intro hall
    refine List.sum_eq_zero fun w hw => ?_
    obtain ⟨key, hkey, rfl⟩ := List.mem_map.mp hw
    exact hall key hkey

/-- The part of a type in all weights. -/
def part (observed : List κ) (coverage : Dictionary κ Exact) (key : κ) : ℚ :=
  weight observed coverage key / totalWeight observed coverage

/-- **Weights in proportion to their sum follow the power law.** -/
theorem follows_of_totalWeight_pos (hnumbers : ∀ c ∈ coverage.values, c ≠ .undefined)
    (hpos : 0 < totalWeight observed coverage) :
    Follows ((known observed coverage).map fun key => (key, .rational (part observed coverage key)))
      observed coverage (part observed coverage) where
  mem_keys key := by rw [Dictionary.keys_map_self, mem_known]
  nodup := by
    rw [Dictionary.keys_map_self]
    exact SortedSet.nodup_of_sorted (SortedSet.sorted_ofList _)
  energy key hkey := by
    rw [Dictionary.keys_map_self] at hkey
    rw [Dictionary.find?_map_self, if_pos hkey]
  nonneg key _ := div_nonneg (weight_nonneg key) hpos.le
  sum := by
    have hparts : ((known observed coverage).map (part observed coverage)).sum = 1 := by
      change ((known observed coverage).map fun key =>
        weight observed coverage key / totalWeight observed coverage).sum = 1
      simp only [div_eq_mul_inv]
      rw [List.sum_map_mul_right]
      exact mul_inv_cancel₀ hpos.ne'
    rw [← hparts, ← sum_rational, Dictionary.values, List.map_map, List.map_map]
    rfl
  eq_zero_iff key _ := by
    rw [part, div_eq_zero_iff, or_iff_left hpos.ne', weight_eq_zero_iff observed hnumbers]
  proportional := ⟨(totalWeight observed coverage)⁻¹, inv_pos.mpr hpos, fun key _ =>
    div_eq_inv_mul _ _⟩

/-- What is assigned, by the sum of the weights. -/
theorem assignEnergy_eq (hnumbers : ∀ c ∈ coverage.values, c ≠ .undefined)
    (s : PowerSchedule κ Exact) : assignEnergy observed coverage s =
      if 0 < totalWeight observed coverage then
        let energies := (known observed coverage).map fun key =>
          (key, rational (part observed coverage key))
        (.ok energies, ⟨count observed, coverage, energies⟩)
      else (.error (.degenerateWeights (known observed coverage).length),
        ⟨count observed, coverage, []⟩) := by
  have hraw := rawEnergies_eq observed hnumbers
  rw [assignEnergy]
  dsimp only
  rw [sum_rawEnergies hnumbers, hraw, isNumber_rational, ofNat_eq, lt_rational, Nat.cast_zero,
    Bool.true_and]
  by_cases hpos : 0 < totalWeight observed coverage
  · simp only [hpos, decide_true, Bool.not_true, Bool.false_eq_true, if_false, if_true,
      List.map_map, Function.comp_def, rational_div _ hpos.ne', part]
  · simp only [hpos, decide_false, Bool.not_false, if_true, if_false, List.length_map]

/-- **Energies are a power law.** From any schedule, for the types that were produced and coverage
that is a number wherever it is tracked:

* if all of what is known is covered, or nothing is known, the assignment fails with the number of
  known types, and no energies are left;
* otherwise the energies follow the power law, and are those of the schedule from then on.

What comes out is a function of how often each type was produced, whatever the order was and
whatever the schedule held before. -/
theorem assignEnergy_follows (s : PowerSchedule κ Exact) (observed : List κ)
    {coverage : Dictionary κ Exact} (hnumbers : ∀ c ∈ coverage.values, c ≠ .undefined) :
    ((∀ key, key ∈ observed ∨ key ∈ coverage.keys → Exhausted coverage key) →
      assignEnergy observed coverage s =
        (.error (.degenerateWeights (observed ++ coverage.keys).dedup.length),
          ⟨count observed, coverage, []⟩)) ∧
    ((∃ key, (key ∈ observed ∨ key ∈ coverage.keys) ∧ ¬ Exhausted coverage key) →
      ∃ energies share, assignEnergy observed coverage s =
          (.ok energies, ⟨count observed, coverage, energies⟩) ∧
        Follows energies observed coverage share) ∧
    ∀ (s' : PowerSchedule κ Exact) (observed' : List κ),
      (∀ key, observed'.count key = observed.count key) →
        assignEnergy observed' coverage s' = assignEnergy observed coverage s := by
  simp only [← mem_known]
  have hzero := totalWeight_eq_zero_iff observed hnumbers
  refine ⟨fun hall => ?_, fun ⟨key, hkey, hleft⟩ => ?_, fun s' observed' hcount => ?_⟩
  · rw [assignEnergy_eq hnumbers, hzero.mpr hall, if_neg (lt_irrefl 0), length_known]
  · have hpos : 0 < totalWeight observed coverage :=
      (List.sum_nonneg weights_nonneg).lt_of_ne' fun h => hleft (hzero.mp h key hkey)
    rw [assignEnergy_eq hnumbers, if_pos hpos]
    exact ⟨_, _, rfl, follows_of_totalWeight_pos hnumbers hpos⟩
  · have hperm : observed'.Perm observed := List.perm_iff_count.mpr hcount
    have hknown : known observed' coverage = known observed coverage :=
      SortedSet.ofList_congr fun key => by
        rw [List.mem_append, List.mem_append, hperm.mem_iff]
    have hweight : weight observed' coverage = weight observed coverage := by
      funext key
      rw [weight, weight, hcount]
    have htotal : totalWeight observed' coverage = totalWeight observed coverage := by
      rw [totalWeight, totalWeight, hknown, hweight]
    have hpart : part observed' coverage = part observed coverage := by
      funext key
      rw [part, part, hweight, htotal]
    have hcounted : count observed' = count observed := by
      rw [count_eq, count_eq, SortedSet.ofList_congr fun _ => hperm.mem_iff]
      simp only [hcount]
    rw [assignEnergy_eq hnumbers, assignEnergy_eq hnumbers, htotal, hknown, hpart, hcounted]

/-- Two commands were produced, one of them twice, and of another one more than all is covered. -/
theorem assignEnergy_follows_commands :
    let coverage : Dictionary String Exact := [("get", .rational (1 / 2)),
      ("reset", .infinite false)]
    ∃ energies, (assignEnergy ["get", "put", "get"] coverage {}).1 = .ok energies ∧
      energies.find? "reset" = some (.rational 0) ∧ Scalar.sum energies.values = .rational 1 ∧
        (assignEnergy ["put", "get", "get"] coverage ⟨[], [], energies⟩).1 = .ok energies := by
  intro coverage
  have hnumbers : ∀ c ∈ Dictionary.values coverage, c ≠ .undefined := by decide
  obtain ⟨-, hassigned, hsame⟩ := assignEnergy_follows {} ["get", "put", "get"] hnumbers
  obtain ⟨energies, share, heq, hfollows⟩ := hassigned ⟨"put", Or.inl (by decide), by
    simp [Exhausted, coverageOf, coverage, Dictionary.find?]⟩
  have hreset := (hfollows.mem_keys "reset").mpr (Or.inr (by decide))
  refine ⟨energies, by rw [heq], ?_, hfollows.sum, ?_⟩
  · rw [hfollows.energy _ hreset, (hfollows.eq_zero_iff _ hreset).mpr rfl]
  · rw [hsame ⟨[], [], energies⟩ ["put", "get", "get"] (List.Perm.count_eq (by decide)), heq]

end PowerSchedule

end GrammarFuzzing
