import GrammarFuzzing.Evolution.Evaluation
import GrammarFuzzing.Proofs.Constraint.Meaning
import GrammarFuzzing.Proofs.Number.Exact

/-!
# Counts of checks

The fitness of a required constraint counts checks, those that hold and all of them, and says beside
that whether the constraint holds. A combination takes its verdict from its members and not from the
counts, so that the two have to be kept in step (`GrammarFuzzing.ClauseFitness.Consistent`): a
conjunction of several members counts itself as one more check, which holds when it does, and a
disjunction that holds counts all checks as holding. This is so at every depth of nesting
(`GrammarFuzzing.Constraint.consistent_evaluate`). Where nothing was checked the counts say nothing,
and a verdict of either kind is possible: no members are a conjunction that holds and a disjunction
that does not, and the ratio is zero for both (`GrammarFuzzing.Constraint.evaluate_counts`).

The counts are naturals. A comparison counts as far as a word can, and the sums over the members of
a combination fit a word as long as neither the tree nor the constraint is huge
(`GrammarFuzzing.Constraint.total_evaluate_le`).
-/

namespace GrammarFuzzing

/-- **The counts agree with the verdict.** -/
structure ClauseFitness.Consistent (c : ClauseFitness) : Prop where
  le : c.solved ≤ c.total
  of_success : c.success = true → c.solved = c.total
  success : 0 < c.total → c.solved = c.total → c.success = true

/-- **The ratio of counts that agree with the verdict** is between zero and one. It is zero if
nothing was checked, and otherwise it is one exactly on success. -/
theorem ClauseFitness.Consistent.exists_fitness {c : ClauseFitness} (h : c.Consistent) :
    ∃ q : ℚ, (c.fitness : Exact) = .rational q ∧ 0 ≤ q ∧ q ≤ 1 ∧ (c.total = 0 → q = 0) ∧
      (0 < c.total → (q = 1 ↔ c.success = true)) := by
  rw [fitness]
  split
  · rename_i htotal
    exact ⟨0, by simp, le_rfl, zero_le_one, fun _ => rfl, fun hpos => absurd htotal hpos.ne'⟩
  · rename_i htotal
    have hpos : (0 : ℚ) < c.total := by exact_mod_cast Nat.pos_of_ne_zero htotal
    have hle : (c.solved : ℚ) ≤ c.total := by exact_mod_cast h.le
    refine ⟨_, Exact.ratio_eq _ htotal, by positivity, (div_le_one hpos).mpr hle,
      fun hzero => absurd hzero htotal, fun hchecked => ?_⟩
    rw [div_eq_one_iff_eq hpos.ne', Nat.cast_inj]
    exact ⟨h.success hchecked, h.of_success⟩

namespace Constraint

/-- Counts that decide the verdict agree with it. -/
theorem consistent_ofCounts {solved total : Nat} (h : solved ≤ total)
    (failing : List FailingTree) : (ClauseFitness.ofCounts solved total failing).Consistent where
  le := h
  of_success := of_decide_eq_true
  success _ := decide_eq_true

theorem consistent_asClauses {f : Fitness}
    (h : ∀ c, f = .clauses c → c.Consistent) : (asClauses f).Consistent := by
  cases f with
  | values v => exact consistent_ofCounts le_rfl _
  | clauses c => exact h c rfl

theorem consistent_evaluateComparison (t : Tree) (left : Operand) (op : Comparison)
    (right : Operand) (clause : String) :
    (evaluateComparison t left op right clause).Consistent := by
  have hmax : maxBindings < unreachable := by decide
  have hchecked := List.countP_le_length (p := fun b => decide (Compares t left op right b))
    (l := (combinations t (boundNames left right)).take maxBindings)
  rw [← solved_evaluateComparison t left op right clause, List.length_take] at hchecked
  have htotal := total_evaluateComparison t left op right clause
  refine consistent_ofCounts ?_ _
  change (evaluateComparison t left op right clause).solved ≤
    (evaluateComparison t left op right clause).total
  omega

theorem consistent_evaluatePredicate (t : Tree) (name : String) (symbol : Option String)
    (holds : Tree → Bool) : (evaluatePredicate t name symbol holds).Consistent := by
  refine consistent_ofCounts ?_ _
  exact (Nat.sub_le _ _).trans (List.length_filterMap_le _ _)

/-- The sums of consistent counts. -/
theorem sumOf_solved_le {parts : List ClauseFitness} (h : ∀ c ∈ parts, c.Consistent) :
    sumOf (parts.map (·.solved)) ≤ sumOf (parts.map (·.total)) :=
  sumOf_map_le fun c hc => (h c hc).le

theorem sumOf_solved_eq {parts : List ClauseFitness} (h : ∀ c ∈ parts, c.Consistent)
    (hall : ∀ c ∈ parts, c.success = true) :
    sumOf (parts.map (·.solved)) = sumOf (parts.map (·.total)) := by
  induction parts with
  | nil => rfl
  | cons c parts ih =>
    rw [List.forall_mem_cons] at h hall
    exact congrArg₂ (· + ·) (h.1.of_success hall.1) (ih h.2 hall.2)

/-- **One member that counts all its checks as holding is met**, and no members have no checks. -/
theorem success_of_sumOf_eq {parts : List ClauseFitness} (h : ∀ c ∈ parts, c.Consistent)
    (hlength : parts.length ≤ 1) (hpos : 0 < sumOf (parts.map (·.total)))
    (heq : sumOf (parts.map (·.solved)) = sumOf (parts.map (·.total))) :
    ∃ c, parts = [c] ∧ c.success = true := by
  match parts, hlength with
  | [], _ => exact absurd hpos (Nat.lt_irrefl _)
  | [c], _ => exact ⟨c, rfl, (h c List.mem_cons_self).success hpos heq⟩

theorem consistent_conjunction {parts : List ClauseFitness} (h : ∀ c ∈ parts, c.Consistent) :
    (conjunction parts).Consistent := by
  have hle := sumOf_solved_le h
  by_cases hall : ∀ c ∈ parts, c.success = true
  · have hsuccess : parts.all (·.success) = true := List.all_eq_true.mpr hall
    have heq := sumOf_solved_eq h hall
    simp only [conjunction, hsuccess, if_true]
    exact ⟨(congrArg (· + _) heq).le, fun _ => congrArg (· + _) heq, fun _ _ => rfl⟩
  · have hfail : parts.all (·.success) = false := by
      rw [← Bool.not_eq_true, List.all_eq_true]
      exact hall
    simp only [conjunction, hfail, Bool.false_eq_true, if_false, Nat.add_zero]
    refine ⟨hle.trans (Nat.le_add_right _ _), fun hno => absurd hno (by simp), fun hpos heq => ?_⟩
    dsimp only at hpos heq
    -- Several members would count the conjunction as a check that does not hold.
    split at heq
    · omega
    · rename_i hlength
      rw [if_neg hlength] at hpos
      obtain ⟨c, rfl, hc⟩ := success_of_sumOf_eq h (by omega) hpos heq
      exact absurd (by simpa using hc) hall

theorem consistent_disjunction {parts : List ClauseFitness} (h : ∀ c ∈ parts, c.Consistent) :
    (disjunction parts).Consistent := by
  have hle := sumOf_solved_le h
  rw [disjunction]
  split
  · exact ⟨le_rfl, fun _ => rfl, fun _ _ => rfl⟩
  · rename_i hany
    refine ⟨?_, fun hno => absurd hno (by simp), fun hpos heq => ?_⟩
    · dsimp only
      omega
    · dsimp only at hpos heq
      split at heq
      · omega
      · rename_i hlength
        rw [if_neg hlength] at hpos
        obtain ⟨c, rfl, hc⟩ := success_of_sumOf_eq h (by omega) hpos heq
        exact absurd (by simpa using hc) hany

mutual

/-- **At every depth of nesting the counts agree with the verdict.** -/
theorem consistent_evaluate (t : Tree) : ∀ (c : Constraint) (found : ClauseFitness),
    evaluate t c = .clauses found → found.Consistent
  | .compare left op right, _, h => by
    rw [evaluate] at h
    obtain rfl := Fitness.clauses.inj h
    exact consistent_evaluateComparison ..
  | .predicate name symbol holds, _, h => by
    rw [evaluate] at h
    obtain rfl := Fitness.clauses.inj h
    exact consistent_evaluatePredicate ..
  | .allOf members, _, h => by
    rw [evaluate] at h
    obtain rfl := Fitness.clauses.inj h
    exact consistent_conjunction (consistent_evaluateParts t members)
  | .anyOf members, _, h => by
    rw [evaluate] at h
    obtain rfl := Fitness.clauses.inj h
    exact consistent_disjunction (consistent_evaluateParts t members)
  | .optimize .., _, h => by
    rw [evaluate] at h
    exact absurd h (by simp)

theorem consistent_evaluateParts (t : Tree) : ∀ (cs : List Constraint),
    ∀ c ∈ evaluateParts t cs, c.Consistent
  | [], c, h => absurd h List.not_mem_nil
  | m :: cs, c, h => by
    rw [evaluateParts, List.mem_cons] at h
    rcases h with rfl | h
    · exact consistent_asClauses (consistent_evaluate t m)
    · exact consistent_evaluateParts t cs c h

end

/-- **What is required is evaluated by counts** that agree with the verdict. -/
theorem exists_clauses_of_not_isSoft (t : Tree) {c : Constraint} (h : c.isSoft = false) :
    ∃ found, evaluate t c = .clauses found ∧ found.Consistent := by
  have hclauses : ∃ found, evaluate t c = .clauses found := by
    cases c with
    | optimize => exact absurd h (by simp [isSoft])
    | compare | predicate | allOf | anyOf => exact ⟨_, by rw [evaluate]⟩
  obtain ⟨found, hfound⟩ := hclauses
  exact ⟨found, hfound, consistent_evaluate t c found hfound⟩

/-- **The counts of a required constraint.** However it is nested, on every tree:

* at most all checks are solved; they all are on success and, if there are any, only then;
* the ratio is a rational between zero and one, zero if nothing was checked, and if something was
  checked one exactly on success. -/
theorem evaluate_counts (t : Tree) {c : Constraint} (h : c.isSoft = false) :
    ∃ found, evaluate t c = .clauses found ∧
      found.solved ≤ found.total ∧
      (found.success = true → found.solved = found.total) ∧
      (0 < found.total → found.solved = found.total → found.success = true) ∧
      ∃ q : ℚ, (found.fitness : Exact) = .rational q ∧ 0 ≤ q ∧ q ≤ 1 ∧
        (found.total = 0 → q = 0) ∧ (0 < found.total → (q = 1 ↔ found.success = true)) := by
  obtain ⟨found, hfound, hcounts⟩ := exists_clauses_of_not_isSoft t h
  exact ⟨found, hfound, hcounts.le, hcounts.of_success, hcounts.success, hcounts.exists_fitness⟩

/-- A comparison beside a disjunction without members: one check of two holds. -/
theorem evaluate_counts_nested :
    let t := Tree.branch "s" [.branch "a" [.leaf (.text "1")]]
    let c := allOf [compare (.int (.symbol "a")) .eq (.literal (.int 1)), allOf [anyOf []]]
    c.isSoft = false ∧ ∃ q : ℚ, ((c.evaluate t).score : Exact) = .rational q ∧ 0 ≤ q ∧ q < 1 := by
  intro t c
  obtain ⟨found, hfound, -, -, -, q, hq, h₀, h₁, -, hone⟩ := evaluate_counts t (c := c) rfl
  have hcounts : ∃ f, evaluate t c = .clauses f ∧ f.total = 2 ∧ f.success = false := by
    refine ⟨_, by rw [evaluate], ?_, ?_⟩ <;> decide +kernel
  obtain ⟨f, hf, htotal, hfail⟩ := hcounts
  obtain rfl := Fitness.clauses.inj (hfound.symm.trans hf)
  refine ⟨rfl, q, by rw [hfound]; exact hq, h₀, lt_of_le_of_ne h₁ fun h => ?_⟩
  exact absurd ((hone (by omega)).mp h) (by rw [hfail]; exact Bool.false_ne_true)

/-! ### The number of checks -/

mutual

/-- How many demands a constraint is made of, the combinations of demands among them. -/
def size : Constraint → Nat
  | .compare .. | .predicate .. | .optimize .. => 1
  | .allOf members | .anyOf members => listSize members + 1

/-- How many demands several constraints are made of. -/
def listSize : List Constraint → Nat
  | [] => 0
  | c :: rest => c.size + listSize rest

end

theorem total_conjunction_le (parts : List ClauseFitness) :
    (conjunction parts).total ≤ sumOf (parts.map (·.total)) + 1 := by
  rw [conjunction]
  dsimp only
  split <;> omega

theorem total_disjunction_le (parts : List ClauseFitness) :
    (disjunction parts).total ≤ sumOf (parts.map (·.total)) + 1 := by
  rw [disjunction]
  split <;>
  · dsimp only
    split <;> omega

theorem total_evaluateComparison_le (t : Tree) (left : Operand) (op : Comparison)
    (right : Operand) (clause : String) :
    (evaluateComparison t left op right clause).total ≤ t.size.pow 2 := by
  rw [total_evaluateComparison]
  exact (Nat.min_le_left _ _).trans (length_combinations_le t (length_boundNames_le left right))

theorem total_evaluatePredicate_le (t : Tree) (name : String) (symbol : Option String)
    (holds : Tree → Bool) : (evaluatePredicate t name symbol holds).total ≤ t.size := by
  cases symbol with
  | none => exact t.size_pos
  | some s => exact t.length_findAll_le _

mutual

/-- **Each demand adds at most the square of the size of the tree** to the number of checks. So the
sums of the members of combinations fit a word wherever the product of that square and the size of
the constraint does. -/
theorem total_evaluate_le (t : Tree) : ∀ c : Constraint,
    (asClauses (evaluate t c)).total ≤ c.size * t.size.pow 2
  | .compare .. => by
    rw [evaluate, size, Nat.one_mul]
    exact total_evaluateComparison_le ..
  | .predicate name symbol holds => by
    rw [evaluate, size, Nat.one_mul]
    exact (total_evaluatePredicate_le t name symbol holds).trans (Nat.le_pow (by decide))
  | .optimize .. => by
    rw [evaluate, size, Nat.one_mul]
    exact Nat.pow_pos t.size_pos
  | .allOf members => by
    rw [evaluate, size, Nat.add_mul, Nat.one_mul]
    exact (total_conjunction_le _).trans
      (Nat.add_le_add (total_evaluateParts_le t members) (Nat.pow_pos t.size_pos))
  | .anyOf members => by
    rw [evaluate, size, Nat.add_mul, Nat.one_mul]
    exact (total_disjunction_le _).trans
      (Nat.add_le_add (total_evaluateParts_le t members) (Nat.pow_pos t.size_pos))

theorem total_evaluateParts_le (t : Tree) : ∀ cs : List Constraint,
    sumOf ((evaluateParts t cs).map (·.total)) ≤ listSize cs * t.size.pow 2
  | [] => Nat.zero_le _
  | c :: cs => by
    rw [evaluateParts, List.map_cons, sumOf, listSize, Nat.add_mul]
    exact Nat.add_le_add (total_evaluate_le t c) (total_evaluateParts_le t cs)

end

end Constraint

/-- A tree meets the hard constraints if it meets each of them. -/
theorem Evaluator.success_rawScore {α : Type} [Scalar α] {e : Evaluator α} {t : Tree} :
    (e.rawScore t).success = true ↔ ∀ c ∈ e.hard, (c.evaluate t).success = true := by
  rw [rawScore]
  simp only [List.all_map, List.all_eq_true, Function.comp_apply]

end GrammarFuzzing
