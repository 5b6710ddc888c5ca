import GrammarFuzzing.Constraint.Spec
import GrammarFuzzing.Proofs.Constraint.Bindings

/-!
# What a required constraint means

A comparison asks that for every choice of an occurrence for each symbol it is about both operands
have values whose order satisfies the sign; conjunctions and disjunctions are what they say, and a
quantity to optimise asks nothing (`GrammarFuzzing.ConstraintSpec.Means`).

An evaluation checks at most `GrammarFuzzing.maxBindings` choices of a comparison and counts the
others as not holding. So what it finds to hold does hold, and it finds all that holds as long as no
comparison has more choices than that (`GrammarFuzzing.ConstraintSpec.evaluate_means`). The counts
of a comparison say how many choices there are and how many of the checked ones hold
(`GrammarFuzzing.Constraint.solved_evaluateComparison`,
`GrammarFuzzing.Constraint.total_evaluateComparison`).
-/

namespace GrammarFuzzing

/-! ### Meanings -/

/-- **Both operands have values, whose order satisfies the sign.** -/
def Compares (t : Tree) (left : Operand) (op : Comparison) (right : Operand) (b : Binding) : Prop :=
  ∃ x y o, left.eval? t b = some x ∧ right.eval? t b = some y ∧ x.compare? y = some o ∧
    op.holds o = true

namespace ConstraintSpec

mutual

/-- **What a constraint asks of a tree.** -/
def Means (t : Tree) : ConstraintSpec → Prop
  | .compare left op right =>
    ∀ b, Chooses t (Constraint.boundNames left right) b → Compares t left op right b
  | .allOf members => AllMean t members
  | .anyOf members => SomeMeans t members
  | .maximize _ => True
  | .minimize _ => True

/-- Every one of several constraints holds. -/
def AllMean (t : Tree) : List ConstraintSpec → Prop
  | [] => True
  | c :: rest => c.Means t ∧ AllMean t rest

/-- One of several constraints holds. -/
def SomeMeans (t : Tree) : List ConstraintSpec → Prop
  | [] => False
  | c :: rest => c.Means t ∨ SomeMeans t rest

end

mutual

/-- All combinations of occurrences that the comparisons in a constraint are about. -/
def choices (t : Tree) : ConstraintSpec → List (List Binding)
  | .compare left _ right => [combinations t (Constraint.boundNames left right)]
  | .allOf members => listChoices t members
  | .anyOf members => listChoices t members
  | .maximize _ => []
  | .minimize _ => []

/-- The combinations of several constraints. -/
def listChoices (t : Tree) : List ConstraintSpec → List (List Binding)
  | [] => []
  | c :: rest => c.choices t ++ listChoices t rest

end

end ConstraintSpec

/-! ### The counts of a comparison -/

namespace Constraint

variable {t : Tree} {left right : Operand} {op : Comparison} {clause : String}

theorem comparisonHolds_iff {b : Binding} :
    comparisonHolds t left op right b = true ↔ Compares t left op right b := by
  rw [comparisonHolds, Compares]
  cases left.eval? t b with
  | none => simp
  | some x =>
    cases right.eval? t b with
    | none => simp
    | some y => cases h : x.compare? y <;> simp [h]

instance (b : Binding) : Decidable (Compares t left op right b) :=
  decidable_of_iff _ comparisonHolds_iff

theorem sorted_boundNames (left right : Operand) :
    (boundNames left right).Pairwise fun a b => Ord.compare a b = .lt :=
  SortedSet.sorted_ofList _

theorem checked_of (t : Tree) (left right : Operand) :
    (Bindings.of t (boundNames left right)).checked =
      (combinations t (boundNames left right)).take maxBindings := by
  rw [Bindings.of_eq t (sorted_boundNames left right)]

/-- **As many checks are solved as there are checked combinations that hold.** -/
theorem solved_evaluateComparison (t : Tree) (left : Operand) (op : Comparison) (right : Operand)
    (clause : String) : (evaluateComparison t left op right clause).solved =
      ((combinations t (boundNames left right)).take maxBindings).countP
        fun b => Compares t left op right b := by
  have hholds : (fun b => decide (Compares t left op right b)) =
      comparisonHolds t left op right :=
    funext fun b => Bool.eq_iff_iff.mpr (decide_eq_true_iff.trans comparisonHolds_iff.symm)
  rw [hholds, evaluateComparison, ClauseFitness.ofCounts, checked_of,
    ← List.countP_eq_length_filter,
    List.length_eq_countP_add_countP (comparisonHolds t left op right)]
  simp

/-- **All combinations are counted**, as far as a word can count. -/
theorem total_evaluateComparison (t : Tree) (left : Operand) (op : Comparison) (right : Operand)
    (clause : String) : (evaluateComparison t left op right clause).total =
      min (combinations t (boundNames left right)).length unreachable := by
  rw [evaluateComparison, ClauseFitness.ofCounts,
    Bindings.satAdd_checked_skipped t (sorted_boundNames left right)]

theorem length_boundNames_le (left right : Operand) : (boundNames left right).length ≤ 2 := by
  refine (SortedSet.length_ofList_le _).trans ?_
  rw [List.length_append]
  have hleft : left.bound?.toList.length ≤ 1 := Option.length_toList_le
  have hright : right.bound?.toList.length ≤ 1 := Option.length_toList_le
  omega

/-- A tree with fewer than 2³² nodes has few enough combinations to be counted exactly. -/
theorem length_combinations_le_unreachable (left right : Operand) (ht : t.size < 4294967296) :
    (combinations t (boundNames left right)).length ≤ unreachable := by
  calc (combinations t (boundNames left right)).length
      ≤ t.size.pow 2 := length_combinations_le t (length_boundNames_le left right)
    _ ≤ (4294967295 : Nat).pow 2 := Nat.pow_le_pow_left (Nat.le_of_lt_succ ht) 2
    _ ≤ unreachable := by decide

/-- **A comparison succeeds exactly when all its combinations are checked and hold.** -/
theorem success_evaluateComparison : (evaluateComparison t left op right clause).success = true ↔
    (combinations t (boundNames left right)).length ≤ maxBindings ∧
      ∀ b, Chooses t (boundNames left right) b → Compares t left op right b := by
  have hmax : maxBindings < unreachable := by decide
  have hsuccess : (evaluateComparison t left op right clause).success = true ↔
      (evaluateComparison t left op right clause).solved =
        (evaluateComparison t left op right clause).total := by
    rw [evaluateComparison, ClauseFitness.ofCounts, decide_eq_true_iff]
  rw [hsuccess, solved_evaluateComparison, total_evaluateComparison]
  have hholds : (∀ b, Chooses t (boundNames left right) b → Compares t left op right b) ↔
      ∀ b ∈ combinations t (boundNames left right), decide (Compares t left op right b) = true :=
    forall_congr' fun b => imp_congr mem_combinations.symm decide_eq_true_iff.symm
  rw [hholds]
  generalize combinations t (boundNames left right) = all
  have hchecked : (all.take maxBindings).countP (fun b => Compares t left op right b) ≤
      (all.take maxBindings).length := List.countP_le_length
  rw [List.length_take] at hchecked
  constructor
  · intro h
    have hlength : all.length ≤ maxBindings := by omega
    rw [List.take_of_length_le hlength] at h
    refine ⟨hlength, List.countP_eq_length.mp ?_⟩
    omega
  · rintro ⟨hlength, h⟩
    rw [List.take_of_length_le hlength, List.countP_eq_length.mpr h]
    omega

end Constraint

/-! ### Evaluations and meanings -/

namespace ConstraintSpec

open Constraint

variable {t : Tree}

theorem success_conjunction {parts : List ClauseFitness} :
    (conjunction parts).success = true ↔ ∀ c ∈ parts, c.success = true := by
  rw [conjunction, List.all_eq_true]

theorem success_disjunction {parts : List ClauseFitness} :
    (disjunction parts).success = true ↔ ∃ c ∈ parts, c.success = true := by
  rw [disjunction, ← List.any_eq_true]
  split
  · rename_i h
    exact iff_of_true rfl h
  · rename_i h
    exact iff_of_false Bool.false_ne_true h

theorem success_asClauses (f : Fitness) : (asClauses f).success = f.success := by
  cases f <;> simp [asClauses, ClauseFitness.ofCounts, Fitness.success]

theorem evaluateParts_eq_map (t : Tree) (cs : List ConstraintSpec) :
    evaluateParts t (listToConstraint cs) =
      cs.map fun c => asClauses (evaluate t c.toConstraint) := by
  induction cs with
  | nil => rw [listToConstraint, evaluateParts, List.map_nil]
  | cons c cs ih => rw [listToConstraint, evaluateParts, ih, List.map_cons]

theorem success_allOf {cs : List ConstraintSpec} :
    (evaluate t (allOf cs).toConstraint).success = true ↔
      ∀ c ∈ cs, (evaluate t c.toConstraint).success = true := by
  rw [toConstraint, evaluate, Fitness.success, success_conjunction, evaluateParts_eq_map,
    List.forall_mem_map]
  simp only [success_asClauses]

theorem success_anyOf {cs : List ConstraintSpec} :
    (evaluate t (anyOf cs).toConstraint).success = true ↔
      ∃ c ∈ cs, (evaluate t c.toConstraint).success = true := by
  rw [toConstraint, evaluate, Fitness.success, success_disjunction, evaluateParts_eq_map,
    ← List.any_eq_true, List.any_map, List.any_eq_true]
  simp only [Function.comp_apply, success_asClauses]

theorem success_compare {left right : Operand} {op : Comparison} :
    (evaluate t (compare left op right).toConstraint).success = true ↔
      (combinations t (boundNames left right)).length ≤ maxBindings ∧
        (compare left op right).Means t := by
  rw [toConstraint, evaluate, Fitness.success, success_evaluateComparison, Means]

mutual

/-- **What an evaluation finds to hold does hold.** -/
theorem means_of_success : ∀ {c : ConstraintSpec},
    (evaluate t c.toConstraint).success = true → c.Means t
  | .compare left op right, h => (success_compare.mp h).2
  | .allOf members, h => by
    rw [Means]
    exact allMean_of_success (success_allOf.mp h)
  | .anyOf members, h => by
    rw [Means]
    exact someMeans_of_success (success_anyOf.mp h)
  | .maximize _, _ => by rw [Means]; trivial
  | .minimize _, _ => by rw [Means]; trivial

theorem allMean_of_success : ∀ {cs : List ConstraintSpec},
    (∀ c ∈ cs, (evaluate t c.toConstraint).success = true) → AllMean t cs
  | [], _ => trivial
  | _ :: _, h =>
    ⟨means_of_success (h _ List.mem_cons_self),
      allMean_of_success fun c hc => h c (List.mem_cons_of_mem _ hc)⟩

theorem someMeans_of_success : ∀ {cs : List ConstraintSpec},
    (∃ c ∈ cs, (evaluate t c.toConstraint).success = true) → SomeMeans t cs
  | [], h => by simp at h
  | _ :: _, h =>
    (List.exists_mem_cons_iff ..).mp h |>.imp means_of_success someMeans_of_success

end

mutual

/-- **An evaluation finds what holds**, if it checks all combinations. -/
theorem success_of_means : ∀ {c : ConstraintSpec},
    (∀ all ∈ c.choices t, all.length ≤ maxBindings) → c.Means t →
      (evaluate t c.toConstraint).success = true
  | .compare left op right, hfew, h =>
    success_compare.mpr ⟨hfew _ (by rw [choices]; exact List.mem_cons_self), h⟩
  | .allOf members, hfew, h => by
    rw [Means] at h
    rw [choices] at hfew
    exact success_allOf.mpr (forall_success_of_allMean hfew h)
  | .anyOf members, hfew, h => by
    rw [Means] at h
    rw [choices] at hfew
    exact success_anyOf.mpr (exists_success_of_someMeans hfew h)
  | .maximize _, _, _ => rfl
  | .minimize _, _, _ => rfl

theorem forall_success_of_allMean : ∀ {cs : List ConstraintSpec},
    (∀ all ∈ listChoices t cs, all.length ≤ maxBindings) → AllMean t cs →
      ∀ c ∈ cs, (evaluate t c.toConstraint).success = true
  | [], _, _ => fun c hc => absurd hc List.not_mem_nil
  | _ :: _, hfew, h => by
    rw [listChoices, List.forall_mem_append] at hfew
    exact List.forall_mem_cons.mpr
      ⟨success_of_means hfew.1 h.1, forall_success_of_allMean hfew.2 h.2⟩

theorem exists_success_of_someMeans : ∀ {cs : List ConstraintSpec},
    (∀ all ∈ listChoices t cs, all.length ≤ maxBindings) → SomeMeans t cs →
      ∃ c ∈ cs, (evaluate t c.toConstraint).success = true
  | [], _, h => h.elim
  | _ :: _, hfew, h => by
    rw [listChoices, List.forall_mem_append] at hfew
    exact (List.exists_mem_cons_iff ..).mpr
      (h.imp (success_of_means hfew.1) (exists_success_of_someMeans hfew.2))

end

/-- **An evaluation means what the constraint says.** On every tree:

* what the evaluation finds to hold does hold, truncated or not;
* where no comparison has more combinations than are checked, the two are the same;
* a comparison counts all its combinations as its checks – as far as a word can count, which is far
  enough for every tree with fewer than 2³² nodes – and those among the checked ones that hold as
  solved. -/
theorem evaluate_means (t : Tree) (spec : ConstraintSpec) :
    ((evaluate t spec.toConstraint).success = true → spec.Means t) ∧
    ((∀ all ∈ spec.choices t, all.length ≤ maxBindings) →
      ((evaluate t spec.toConstraint).success = true ↔ spec.Means t)) ∧
    ∀ left op right, ∃ found : ClauseFitness,
      evaluate t (compare left op right).toConstraint = .clauses found ∧
      found.total = min (combinations t (boundNames left right)).length unreachable ∧
      (t.size < 4294967296 → found.total = (combinations t (boundNames left right)).length) ∧
      found.solved = ((combinations t (boundNames left right)).take maxBindings).countP
        fun b => Compares t left op right b := by
  refine ⟨means_of_success, fun hfew => ⟨means_of_success, success_of_means hfew⟩,
    fun left op right => ⟨evaluateComparison t left op right (showComparison left op right), ?_,
      total_evaluateComparison .., fun ht => ?_, solved_evaluateComparison ..⟩⟩
  · rw [toConstraint, evaluate]
  · rw [total_evaluateComparison]
    exact Nat.min_eq_left (length_combinations_le_unreachable left right ht)

/-- In a tree with two numbers of one kind and one of another, none of the first kind is greater,
but some is smaller. -/
theorem evaluate_means_numbers :
    let t := Tree.branch "s" [.branch "a" [.leaf (.text "1")], .branch "b" [.leaf (.text "2")],
      .branch "a" [.leaf (.text "2")]]
    (compare (.int (.symbol "a")) .le (.int (.symbol "b"))).Means t ∧
      ¬ (compare (.int (.symbol "b")) .le (.int (.symbol "a"))).Means t := by
  intro t
  refine ⟨(evaluate_means t _).1 (by decide +kernel), fun h => ?_⟩
  have hfound := ((evaluate_means t _).2.1 (by decide +kernel)).mpr h
  revert hfound
  decide +kernel

end ConstraintSpec

end GrammarFuzzing
