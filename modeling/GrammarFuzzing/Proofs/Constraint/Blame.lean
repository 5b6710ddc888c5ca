import GrammarFuzzing.Proofs.Evolution.Score
import Mathlib.Data.List.Induction

/-!
# Blame

An evaluation names nodes to blame for what does not hold, by their paths, and repair, crossover and
mutation look these paths up in the tree. A path that leads nowhere, or a failure that nobody is to
blame for, would not be noticed: the search would only go on without direction.

* Every node that is blamed is in the tree and has the symbol that is recorded with it
  (`GrammarFuzzing.FailingTree.Points`). Blame comes from three places – the occurrences that a
  comparison binds, those that it counts, and the root for want of any – and combinations only pass
  it on or drop it (`GrammarFuzzing.Constraint.points_evaluate`).
* A comparison blames a node once, however many of its combinations the node is in
  (`GrammarFuzzing.Constraint.nodup_distinctPaths`).
* A failure is blamed (`GrammarFuzzing.ConstraintSpec.blames_of_failure`), but for two cases. A
  comparison with too many combinations fails although all that were checked may hold, and a
  disjunction without members fails although nothing does not hold.
-/

namespace GrammarFuzzing

/-- **The blame points at a node of the tree**, one with the recorded symbol. -/
def FailingTree.Points (f : FailingTree) (t : Tree) : Prop :=
  ∃ n, t.get? f.path = some n ∧ n.symbol = f.symbol

namespace Constraint

/-! ### One blame for each path -/

/-- **What is left of some blames** so far: one for each of their paths, with the set of these
paths beside it. -/
structure LeavesOne (fs : List FailingTree) (acc : List FailingTree × Std.HashSet Path) : Prop where
  seen : ∀ p, acc.2.contains p = true ↔ p ∈ acc.1.map (·.path)
  nodup : (acc.1.map (·.path)).Nodup
  mem : ∀ f ∈ acc.1, f ∈ fs
  path_mem : ∀ f ∈ fs, f.path ∈ acc.1.map (·.path)

theorem LeavesOne.step {fs : List FailingTree} {acc : List FailingTree × Std.HashSet Path}
    (h : LeavesOne fs acc) (f : FailingTree) :
    LeavesOne (fs ++ [f])
      (if acc.2.contains f.path then acc else (f :: acc.1, acc.2.insert f.path)) := by
  split
  · -- The blame that is left already has this path.
    rename_i hseen
    refine ⟨h.seen, h.nodup, fun f' hf' => List.mem_append_left _ (h.mem f' hf'), ?_⟩
    rw [List.forall_mem_append, List.forall_mem_singleton]
    exact ⟨h.path_mem, (h.seen _).mp hseen⟩
  · rename_i hnew
    rw [h.seen] at hnew
    refine ⟨fun p => ?_, List.nodup_cons.mpr ⟨hnew, h.nodup⟩, ?_, ?_⟩
    · rw [Std.HashSet.contains_insert, Bool.or_eq_true, h.seen, beq_iff_eq, List.map_cons,
        List.mem_cons, eq_comm]
    · rw [List.forall_mem_cons]
      exact ⟨List.mem_append_right _ List.mem_cons_self,
        fun f' hf' => List.mem_append_left _ (h.mem f' hf')⟩
    · rw [List.forall_mem_append, List.forall_mem_singleton]
      exact ⟨fun f' hf' => List.mem_cons_of_mem _ (h.path_mem f' hf'), List.mem_cons_self⟩

theorem leavesOne_foldl (fs : List FailingTree) :
    LeavesOne fs (fs.foldl (fun (acc : List FailingTree × Std.HashSet Path) f =>
      if acc.2.contains f.path then acc else (f :: acc.1, acc.2.insert f.path)) ([], {})) := by
  induction fs using List.reverseRecOn with
  | nil => exact ⟨by simp, List.nodup_nil, nofun, nofun⟩
  | append_singleton fs f ih =>
    rw [List.foldl_append]
    exact ih.step f

/-- **No path is left twice.** -/
theorem nodup_distinctPaths (fs : List FailingTree) : ((distinctPaths fs).map (·.path)).Nodup := by
  rw [distinctPaths, List.map_reverse, List.nodup_reverse]
  exact (leavesOne_foldl fs).nodup

theorem mem_of_mem_distinctPaths {fs : List FailingTree} {f : FailingTree}
    (h : f ∈ distinctPaths fs) : f ∈ fs :=
  (leavesOne_foldl fs).mem f (List.mem_reverse.mp h)

/-- **No path is lost.** -/
theorem path_mem_distinctPaths {fs : List FailingTree} {f : FailingTree} (h : f ∈ fs) :
    f.path ∈ (distinctPaths fs).map (·.path) := by
  rw [distinctPaths, List.map_reverse, List.mem_reverse]
  exact (leavesOne_foldl fs).path_mem f h

/-! ### Where blame comes from -/

variable {t : Tree} {left right : Operand} {op : Comparison} {clause : String}

/-- What a comparison counts is in the tree, and so is the root. -/
theorem get?_of_mem_culprits {p : Path} {s : Symbol} (h : (p, s) ∈ culprits t left right) :
    ∃ n, t.get? p = some n ∧ n.symbol = s := by
  rw [culprits] at h
  split at h
  · obtain ⟨rfl, rfl⟩ := Prod.mk.inj (List.mem_singleton.mp h)
    exact ⟨t, t.get?_nil, rfl⟩
  · obtain ⟨operand, -, h⟩ := List.mem_flatMap.mp h
    cases operand with
    | count scope symbol =>
      obtain ⟨q, hq, heq⟩ := List.mem_map.mp h
      obtain ⟨rfl, rfl⟩ := Prod.mk.inj heq
      exact Tree.mem_findAll.mp hq
    | _ => exact absurd h List.not_mem_nil

theorem culprits_ne_nil (t : Tree) (left right : Operand) : culprits t left right ≠ [] := by
  rw [culprits]
  split
  · exact List.cons_ne_nil _ _
  · rename_i h
    exact fun hnil => h (List.isEmpty_iff.mpr hnil)

theorem points_of_mem_blamed {names : List String} {b : Binding} (hb : Chooses t names b)
    {f : FailingTree} (hf : f ∈ blamed t left op right clause b) : f.Points t := by
  rw [blamed] at hf
  split at hf
  · obtain ⟨⟨p, s⟩, hmem, rfl⟩ := List.mem_map.mp hf
    exact get?_of_mem_culprits hmem
  · obtain ⟨⟨name, p⟩, hmem, rfl⟩ := List.mem_map.mp hf
    exact hb.occurs name p hmem

theorem blamed_ne_nil (t : Tree) (left : Operand) (op : Comparison) (right : Operand)
    (clause : String) (b : Binding) : blamed t left op right clause b ≠ [] := by
  rw [blamed]
  split
  · exact mt List.map_eq_nil_iff.mp (culprits_ne_nil t left right)
  · rename_i h
    exact fun hnil => h (List.isEmpty_iff.mpr (List.map_eq_nil_iff.mp hnil))

/-- **A comparison blames the nodes of the combinations that were checked and do not hold**, each
of them once. -/
theorem failing_evaluateComparison (t : Tree) (left : Operand) (op : Comparison) (right : Operand)
    (clause : String) : (evaluateComparison t left op right clause).failing =
      distinctPaths (((((combinations t (boundNames left right)).take maxBindings)).filter
        fun b => !comparisonHolds t left op right b).flatMap (blamed t left op right clause)) := by
  rw [evaluateComparison, ClauseFitness.ofCounts, checked_of]

theorem exists_of_mem_failing_evaluateComparison {f : FailingTree}
    (h : f ∈ (evaluateComparison t left op right clause).failing) :
    ∃ b, Chooses t (boundNames left right) b ∧ ¬ Compares t left op right b ∧
      f ∈ blamed t left op right clause b := by
  rw [failing_evaluateComparison] at h
  obtain ⟨b, hb, hf⟩ := List.mem_flatMap.mp (mem_of_mem_distinctPaths h)
  obtain ⟨hmem, hfails⟩ := List.mem_filter.mp hb
  refine ⟨b, mem_combinations.mp (List.mem_of_mem_take hmem), fun hcompares => ?_, hf⟩
  rw [comparisonHolds_iff.mpr hcompares] at hfails
  exact absurd hfails (by simp)

/-- **A combination that does not hold is blamed**, if it is checked. -/
theorem path_mem_failing_evaluateComparison
    (hfew : (combinations t (boundNames left right)).length ≤ maxBindings) {b : Binding}
    (hb : Chooses t (boundNames left right) b) (hfails : ¬ Compares t left op right b)
    {f : FailingTree} (hf : f ∈ blamed t left op right clause b) :
    f.path ∈ (evaluateComparison t left op right clause).failing.map (·.path) := by
  rw [failing_evaluateComparison, List.take_of_length_le hfew]
  refine path_mem_distinctPaths (List.mem_flatMap.mpr ⟨b, List.mem_filter.mpr ?_, hf⟩)
  refine ⟨mem_combinations.mpr hb, ?_⟩
  rw [← comparisonHolds_iff, Bool.not_eq_true] at hfails
  rw [hfails, Bool.not_false]

theorem failing_evaluateComparison_ne_nil
    (hfew : (combinations t (boundNames left right)).length ≤ maxBindings)
    (hfail : (evaluateComparison t left op right clause).success = false) :
    (evaluateComparison t left op right clause).failing ≠ [] := by
  rw [← Bool.not_eq_true, success_evaluateComparison] at hfail
  obtain ⟨b, hb, hfails⟩ : ∃ b, Chooses t (boundNames left right) b ∧
      ¬ Compares t left op right b := by
    by_contra hnone
    push Not at hnone
    exact hfail ⟨hfew, hnone⟩
  obtain ⟨f, hf⟩ := List.exists_mem_of_ne_nil _ (blamed_ne_nil t left op right clause b)
  have hpath := path_mem_failing_evaluateComparison hfew hb hfails hf
  intro hnil
  rw [hnil] at hpath
  exact absurd hpath List.not_mem_nil

/-! ### Blame at every depth -/

theorem failing_asClauses (f : Fitness) : (asClauses f).failing = f.failing := by
  cases f <;> rfl

/-- A conjunction passes on what its members blame. -/
theorem failing_conjunction (parts : List ClauseFitness) :
    (conjunction parts).failing = parts.flatMap (·.failing) :=
  rfl

/-- A disjunction passes on what its members blame if none of them holds. -/
theorem failing_disjunction (parts : List ClauseFitness) :
    (disjunction parts).failing =
      if parts.any (·.success) then [] else parts.flatMap (·.failing) := by
  rw [disjunction]
  split <;> rfl

theorem points_evaluatePredicate (t : Tree) (name : String) (symbol : Option String)
    (holds : Tree → Bool) : ∀ f ∈ (evaluatePredicate t name symbol holds).failing, f.Points t := by
  intro f hf
  obtain ⟨⟨p, n⟩, hn, rfl⟩ := List.mem_map.mp hf
  obtain ⟨q, -, hq⟩ := List.mem_filterMap.mp (List.mem_of_mem_filter hn)
  obtain ⟨m, hm, heq⟩ := Option.map_eq_some_iff.mp hq
  obtain ⟨rfl, rfl⟩ := Prod.mk.inj heq
  exact ⟨m, hm, rfl⟩

mutual

/-- **Whatever a constraint blames is in the tree**, at every depth of nesting. -/
theorem points_evaluate (t : Tree) : ∀ (c : Constraint), ∀ f ∈ (evaluate t c).failing, f.Points t
  | .compare left op right, f, hf => by
    rw [evaluate] at hf
    obtain ⟨b, hb, -, hf⟩ := exists_of_mem_failing_evaluateComparison hf
    exact points_of_mem_blamed hb hf
  | .predicate name symbol holds, f, hf => by
    rw [evaluate] at hf
    exact points_evaluatePredicate t name symbol holds f hf
  | .allOf members, f, hf => by
    rw [evaluate, Fitness.failing, failing_conjunction] at hf
    exact points_evaluateParts t members f hf
  | .anyOf members, f, hf => by
    rw [evaluate, Fitness.failing, failing_disjunction] at hf
    split at hf
    · exact absurd hf List.not_mem_nil
    · exact points_evaluateParts t members f hf
  | .optimize .., f, hf => by
    rw [evaluate] at hf
    exact absurd hf List.not_mem_nil

theorem points_evaluateParts (t : Tree) : ∀ (cs : List Constraint),
    ∀ f ∈ (evaluateParts t cs).flatMap (·.failing), f.Points t
  | [], f, hf => absurd hf List.not_mem_nil
  | c :: cs, f, hf => by
    rw [evaluateParts, List.flatMap_cons, List.mem_append, failing_asClauses] at hf
    rcases hf with hf | hf
    · exact points_evaluate t c f hf
    · exact points_evaluateParts t cs f hf

end

end Constraint

/-! ### Failures are blamed -/

namespace ConstraintSpec

open Constraint

mutual

/-- **Every disjunction in a constraint has members.** -/
def HasAlternatives : ConstraintSpec → Prop
  | .compare .. => True
  | .allOf members => AllHaveAlternatives members
  | .anyOf members => members ≠ [] ∧ AllHaveAlternatives members
  | .maximize _ => True
  | .minimize _ => True

/-- Every disjunction in some constraints has members. -/
def AllHaveAlternatives : List ConstraintSpec → Prop
  | [] => True
  | c :: rest => c.HasAlternatives ∧ AllHaveAlternatives rest

end

variable {t : Tree}

/-- What a member blames is among what all members blame. -/
theorem flatMap_failing_ne_nil {cs : List ConstraintSpec} {c : ConstraintSpec} (hc : c ∈ cs)
    (h : (evaluate t c.toConstraint).failing ≠ []) :
    (evaluateParts t (listToConstraint cs)).flatMap (·.failing) ≠ [] := by
  rw [evaluateParts_eq_map, List.flatMap_map]
  intro hnil
  rw [List.flatMap_eq_nil_iff] at hnil
  exact h ((failing_asClauses _).symm.trans (hnil c hc))

mutual

/-- **A failure is blamed**, if all combinations are checked and no disjunction is empty. -/
theorem blames_of_failure : ∀ {c : ConstraintSpec},
    (∀ all ∈ c.choices t, all.length ≤ maxBindings) → c.HasAlternatives →
      (evaluate t c.toConstraint).success = false → (evaluate t c.toConstraint).failing ≠ []
  | .compare left op right, hfew, _, h => by
    rw [toConstraint, evaluate] at h ⊢
    rw [choices, List.forall_mem_singleton] at hfew
    exact failing_evaluateComparison_ne_nil hfew h
  | .allOf members, hfew, hsome, h => by
    rw [choices] at hfew
    rw [HasAlternatives] at hsome
    rw [← Bool.not_eq_true, success_allOf] at h
    push Not at h
    obtain ⟨c, hc, hfail⟩ := h
    rw [toConstraint, evaluate, Fitness.failing, failing_conjunction]
    exact flatMap_failing_ne_nil hc
      (forall_blames_of_failure hfew hsome c hc (Bool.eq_false_iff.mpr hfail))
  | .anyOf members, hfew, hsome, h => by
    rw [choices] at hfew
    rw [HasAlternatives] at hsome
    obtain ⟨hne, hsome⟩ := hsome
    have hnone : (disjunction (evaluateParts t (listToConstraint members))).success = false := h
    rw [← Bool.not_eq_true, success_anyOf] at h
    push Not at h
    -- No member holds, so the blame of each is passed on, and there is a member.
    obtain ⟨c, hc⟩ := List.exists_mem_of_ne_nil _ hne
    rw [← Bool.not_eq_true, success_disjunction, ← List.any_eq_true] at hnone
    rw [toConstraint, evaluate, Fitness.failing, failing_disjunction, if_neg hnone]
    exact flatMap_failing_ne_nil hc
      (forall_blames_of_failure hfew hsome c hc (Bool.eq_false_iff.mpr (h c hc)))
  | .maximize _, _, _, h => absurd h (by rw [toConstraint, evaluate]; simp [Fitness.success])
  | .minimize _, _, _, h => absurd h (by rw [toConstraint, evaluate]; simp [Fitness.success])

theorem forall_blames_of_failure : ∀ {cs : List ConstraintSpec},
    (∀ all ∈ listChoices t cs, all.length ≤ maxBindings) → AllHaveAlternatives cs →
      ∀ c ∈ cs, (evaluate t c.toConstraint).success = false →
        (evaluate t c.toConstraint).failing ≠ []
  | [], _, _ => nofun
  | _ :: _, hfew, hsome => by
    rw [listChoices, List.forall_mem_append] at hfew
    rw [AllHaveAlternatives] at hsome
    exact List.forall_mem_cons.mpr
      ⟨blames_of_failure hfew.1 hsome.1, forall_blames_of_failure hfew.2 hsome.2⟩

end

end ConstraintSpec

/-! ### Evaluations -/

namespace Evaluator

variable {α : Type} [Scalar α]

/-- Batches keep the hard constraints. -/
theorem hard_after (cs : List Constraint) (batches : List (List Tree)) :
    (after cs batches : Evaluator α).hard = cs.filter fun c => !c.isSoft :=
  after_induction (P := fun e : Evaluator α => e.hard = cs.filter fun c => !c.isSoft) rfl
    (fun _ _ h => h) batches

/-- **An evaluation blames what its hard constraints blame** that are not met. -/
theorem mem_failing_rawScore {e : Evaluator α} {t : Tree} {f : FailingTree} :
    f ∈ (e.rawScore t).failing ↔
      ∃ c ∈ e.hard, (c.evaluate t).success = false ∧ f ∈ (c.evaluate t).failing := by
  simp [rawScore, List.mem_flatMap, and_assoc]

theorem points_rawScore (e : Evaluator α) (t : Tree) :
    ∀ f ∈ (e.rawScore t).failing, f.Points t := by
  intro f hf
  obtain ⟨c, -, -, hf⟩ := mem_failing_rawScore.mp hf
  exact Constraint.points_evaluate t c f hf

theorem failing_rawScore_ne_nil {e : Evaluator α} {specs : List ConstraintSpec} {t : Tree}
    (hhard : e.hard = (specs.map (·.toConstraint)).filter fun c => !c.isSoft)
    (hfew : ∀ c ∈ specs, ∀ all ∈ c.choices t, all.length ≤ maxBindings)
    (hsome : ∀ c ∈ specs, c.HasAlternatives) (hfail : (e.rawScore t).success = false) :
    (e.rawScore t).failing ≠ [] := by
  rw [← Bool.not_eq_true, success_rawScore] at hfail
  push Not at hfail
  obtain ⟨c, hc, hnot⟩ := hfail
  have hunmet := Bool.eq_false_iff.mpr hnot
  obtain ⟨spec, hspec, rfl⟩ := List.mem_map.mp (List.mem_of_mem_filter (hhard ▸ hc))
  obtain ⟨f, hf⟩ := List.exists_mem_of_ne_nil _
    (ConstraintSpec.blames_of_failure (hfew spec hspec) (hsome spec hspec) hunmet)
  exact List.ne_nil_of_mem (mem_failing_rawScore.mpr ⟨_, hc, hunmet, hf⟩)

/-- **Blame points at nodes, and failures are blamed.** For every list of constraints, after any
batches, and for every tree of a batch:

* what the evaluation of the tree blames is in the tree, with the recorded symbol;
* if the tree fails, no comparison has more combinations than are checked and no disjunction is
  without members, then something is blamed.

And a comparison blames no path twice. -/
theorem evaluateAll_blames (specs : List ConstraintSpec) (batches : List (List Tree))
    (ts : List Tree) :
    List.Forall₂ (fun t s => (∀ f ∈ s.failing, f.Points t) ∧
        (s.success = false → (∀ c ∈ specs, ∀ all ∈ c.choices t, all.length ≤ maxBindings) →
          (∀ c ∈ specs, c.HasAlternatives) → s.failing ≠ []))
      ts ((after (specs.map (·.toConstraint)) batches : Evaluator α).evaluateAll ts).1 ∧
    ∀ t left op right,
      ((Constraint.evaluate t (.compare left op right)).failing.map (·.path)).Nodup := by
  constructor
  · have hhard := hard_after (α := α) (specs.map (·.toConstraint)) batches
    rw [fst_evaluateAll, List.forall₂_map_right_iff, List.forall₂_same]
    exact fun t _ => ⟨points_rawScore _ t,
      fun hfail hfew hsome => failing_rawScore_ne_nil hhard hfew hsome hfail⟩
  · intro t left op right
    rw [Constraint.evaluate, Fitness.failing, Constraint.failing_evaluateComparison]
    exact Constraint.nodup_distinctPaths _

/-- A number that is not the demanded one is blamed. -/
theorem evaluateAll_blames_number :
    let t := Tree.branch "s" [.branch "a" [.leaf (.text "1")]]
    let spec := ConstraintSpec.allOf
      [.anyOf [.compare (.int (.symbol "a")) .eq (.literal (.int 2))]]
    ∃ s, ((after [spec.toConstraint] [] : Evaluator Exact).evaluateAll [t]).1 = [s] ∧
      s.success = false ∧ ∃ f ∈ s.failing, f.Points t := by
  intro t spec
  obtain ⟨hscores, -⟩ := evaluateAll_blames (α := Exact) [spec] [] [t]
  obtain ⟨s, rest, ⟨hpoints, hblames⟩, hnil, hall⟩ := List.forall₂_cons_left_iff.mp hscores
  obtain rfl := List.forall₂_nil_left_iff.mp hnil
  have hfail : s.success = false := by
    obtain rfl := (List.cons.inj hall).1
    decide +kernel
  have hsome : ∀ c ∈ [spec], c.HasAlternatives := by
    simp [spec, ConstraintSpec.HasAlternatives, ConstraintSpec.AllHaveAlternatives]
  obtain ⟨f, hf⟩ := List.exists_mem_of_ne_nil _ (hblames hfail (by decide +kernel) hsome)
  exact ⟨s, hall, hfail, f, hf, hpoints f hf⟩

end Evaluator

end GrammarFuzzing
