import GrammarFuzzing.Constraint.Spec
import GrammarFuzzing.Proofs.Evolution.Solutions
import GrammarFuzzing.Proofs.Number.Nonnegative

/-!
# Scores in floating point

What a run compares are floats, and floats are not ordered as one would like: what is no number is
left out by the greatest fitness (`GrammarFuzzing.Engine.bestOf`) and comes first among the elites
(`GrammarFuzzing.eliteIndices`). A run is only sure to keep its best tree because no score is like
that. Without soft constraints a score is a mean of shares, and a share divides two counts of
checks, so it is a number that is not negative
(`GrammarFuzzing.Evaluator.Requires.isNonnegative_score`), as long as the counts are finite floats.
They are: a comparison counts fewer than `2 ^ 64` checks, and there are fewer than `2 ^ 64`
comparisons (`GrammarFuzzing.ConstraintSpec.total_le`).

Of such scores the first elite has the greatest (`GrammarFuzzing.exists_mem_eliteIndices`), and the
greatest fitness is its (`GrammarFuzzing.Engine.floatRank_bestOf_le`).
-/

namespace GrammarFuzzing

/-! ### The size of constraints -/

namespace ConstraintSpec

mutual

/-- How many comparisons, quantities and combinations a constraint is made of. -/
def size : ConstraintSpec → Nat
  | .compare .. | .maximize _ | .minimize _ => 1
  | .allOf members | .anyOf members => listSize members + 1

/-- How many of them several constraints are made of. -/
def listSize : List ConstraintSpec → Nat
  | [] => 0
  | c :: rest => c.size + listSize rest

end

theorem size_pos (c : ConstraintSpec) : 0 < c.size := by
  cases c <;> rw [size] <;> omega

theorem size_le_listSize {c : ConstraintSpec} {cs : List ConstraintSpec} (h : c ∈ cs) :
    c.size ≤ listSize cs := by
  induction cs with
  | nil => exact absurd h List.not_mem_nil
  | cons d cs ih =>
    rw [listSize]
    rcases List.mem_cons.mp h with rfl | h
    · exact Nat.le_add_right _ _
    · exact Nat.le_trans (ih h) (Nat.le_add_left _ _)

theorem length_le_listSize (cs : List ConstraintSpec) : cs.length ≤ listSize cs := by
  induction cs with
  | nil => exact Nat.zero_le _
  | cons c cs ih =>
    have hpos := c.size_pos
    rw [listSize, List.length_cons]
    omega

mutual

/-- **The number of checks** that a constraint counts is bounded by its size, whatever the tree. -/
theorem total_le (t : Tree) : ∀ c : ConstraintSpec,
    (Constraint.asClauses (c.toConstraint.evaluate t)).total ≤ c.size * unreachable
  | .compare left op right => by
    rw [toConstraint, Constraint.evaluate, size, Nat.one_mul, Constraint.asClauses,
      Constraint.total_evaluateComparison]
    exact Nat.min_le_right _ _
  | .maximize _ | .minimize _ => by
    rw [toConstraint, Constraint.evaluate, size, Nat.one_mul]
    exact (by decide : 1 ≤ unreachable)
  | .allOf members => by
    rw [toConstraint, Constraint.evaluate, size, Nat.add_mul, Nat.one_mul]
    exact (Constraint.total_conjunction_le _).trans
      (Nat.add_le_add (total_parts_le t members) (by decide))
  | .anyOf members => by
    rw [toConstraint, Constraint.evaluate, size, Nat.add_mul, Nat.one_mul]
    exact (Constraint.total_disjunction_le _).trans
      (Nat.add_le_add (total_parts_le t members) (by decide))

theorem total_parts_le (t : Tree) : ∀ cs : List ConstraintSpec,
    sumOf ((Constraint.evaluateParts t (listToConstraint cs)).map (·.total)) ≤
      listSize cs * unreachable
  | [] => Nat.zero_le _
  | c :: cs => by
    rw [listToConstraint, Constraint.evaluateParts, List.map_cons, sumOf, listSize, Nat.add_mul]
    exact Nat.add_le_add (total_le t c) (total_parts_le t cs)

end

end ConstraintSpec

/-! ### Scores -/

/-- **The share of checks that hold** is not negative if the checks can be counted. -/
theorem ClauseFitness.isNonnegative_fitness {c : ClauseFitness} (h : c.total < Nat.pow 2 128) :
    IsNonnegative (c.fitness : Float) := by
  rw [fitness]
  split
  · exact isNonnegative_ofNat 0
  · exact (isNonnegative_ofNat c.solved).div (isPositive_ofNat (Nat.pos_of_ne_zero ‹_›) h)

namespace Evaluator

/-- **A required constraint scores a number that is not negative** on every tree. -/
theorem isNonnegative_hardScore (t : Tree) {c : ConstraintSpec}
    (hhard : c.toConstraint.isSoft = false) (hsize : c.size < Nat.pow 2 64) :
    IsNonnegative (hardScore (c.toConstraint.evaluate t) : Float) := by
  obtain ⟨found, hfound, -⟩ := Constraint.exists_clauses_of_not_isSoft t hhard
  have htotal := c.total_le t
  rw [hfound] at htotal ⊢
  rw [hardScore]
  split
  · exact isNonnegative_ofNat 1
  · refine ClauseFitness.isNonnegative_fitness (Nat.lt_of_le_of_lt htotal ?_)
    exact Nat.lt_of_le_of_lt (Nat.mul_le_mul_right _ (Nat.le_of_lt hsize)) (by decide)

/-- **The score of a tree** by the hard constraints alone. -/
def score (e : Evaluator Float) (t : Tree) : Float :=
  (e.rawScore t).hardFitness

/-- **An evaluator of constraints as they are written**, all of them hard and of a size that can be
counted. -/
structure Requires (e : Evaluator Float) (cs : List ConstraintSpec) : Prop where
  hard : e.hard = cs.map ConstraintSpec.toConstraint
  soft : e.soft = []
  not_isSoft : ∀ c ∈ cs, c.toConstraint.isSoft = false
  size_lt : ConstraintSpec.listSize cs < Nat.pow 2 64

variable {e : Evaluator Float} {cs : List ConstraintSpec}

theorem requires_ofConstraints (hhard : ∀ c ∈ cs, c.toConstraint.isSoft = false)
    (hsize : ConstraintSpec.listSize cs < Nat.pow 2 64) :
    (ofConstraints (cs.map ConstraintSpec.toConstraint) : Evaluator Float).Requires cs where
  hard := by
    refine List.filter_eq_self.mpr fun c hc => ?_
    obtain ⟨spec, hspec, rfl⟩ := List.mem_map.mp hc
    rw [hhard spec hspec]
    rfl
  soft := by
    refine List.filter_eq_nil_iff.mpr fun c hc => ?_
    obtain ⟨spec, hspec, rfl⟩ := List.mem_map.mp hc
    rw [hhard spec hspec]
    exact Bool.false_ne_true
  not_isSoft := hhard
  size_lt := hsize

/-- **Every tree scores a number that is not negative.** -/
theorem Requires.isNonnegative_score (h : e.Requires cs) (t : Tree) :
    IsNonnegative (e.score t) := by
  have hscores : ∀ f ∈ e.hard.map fun c => c.evaluate t, IsNonnegative (hardScore f) := by
    intro f hf
    rw [h.hard, List.map_map] at hf
    obtain ⟨c, hc, rfl⟩ := List.mem_map.mp hf
    exact isNonnegative_hardScore t (h.not_isSoft c hc)
      (Nat.lt_of_le_of_lt (ConstraintSpec.size_le_listSize hc) h.size_lt)
  have hlength : (e.hard.map fun c => c.evaluate t).length < Nat.pow 2 128 := by
    rw [List.length_map, h.hard, List.length_map]
    exact Nat.lt_of_le_of_lt (ConstraintSpec.length_le_listSize cs) (h.size_lt.trans (by decide))
  rw [score, rawScore]
  generalize e.hard.map (fun c => c.evaluate t) = fs at hscores hlength
  dsimp only
  split
  · exact isNonnegative_ofNat 1
  · rename_i hne
    refine IsNonnegative.div ?_ (isPositive_ofNat (List.length_pos_iff.mpr ?_) hlength)
    · exact List.foldlRecOn fs _ (isNonnegative_ofNat 0) fun sum hsum f hf =>
        hsum.add (hscores f hf)
    · rintro rfl
      exact hne rfl

/-- Without soft constraints trees are scored by the hard ones alone. -/
theorem map_fitness_evaluateAll (h : e.soft = []) (ts : List Tree) :
    (e.evaluateAll ts).1.map (·.fitness) = ts.map e.score := by
  rw [evaluateAll, List.map_map, List.map_map]
  refine List.map_congr_left fun t _ => ?_
  simp only [Function.comp_apply, blend, h, List.isEmpty_nil, if_true, score]

theorem Requires.congr {e' : Evaluator Float} (h : e.Requires cs) (hhard : e'.hard = e.hard)
    (hsoft : e'.soft = e.soft) : e'.Requires cs :=
  ⟨hhard.trans h.hard, hsoft.trans h.soft, h.not_isSoft, h.size_lt⟩

end Evaluator

/-! ### The greatest fitness -/

/-- The greater of two numbers is the one of higher rank. -/
theorem IsNonnegative.max_cases {x y : Float} (hx : IsNonnegative x) (hy : IsNonnegative y) :
    Scalar.max x y = y ∧ floatRank x < floatRank y ∨
      Scalar.max x y = x ∧ floatRank y ≤ floatRank x := by
  have hnumber : Scalar.isNumber x = true := by
    change (!x.isNaN) = true
    rw [hx.isNaN_eq]
    rfl
  have hlt : Scalar.lt x y = decide (floatRank x < floatRank y) :=
    decide_eq_decide.mpr (hx.lt_iff hy)
  rw [Scalar.max, hnumber, hlt]
  by_cases h : floatRank x < floatRank y
  · exact Or.inl ⟨by simp [h], h⟩
  · exact Or.inr ⟨by simp [h], Int.not_lt.mp h⟩

/-- **The greatest of some numbers** has at most the rank that all of them have. -/
theorem floatRank_foldl_max_le {xs : List Float} {a : Float} (ha : IsNonnegative a)
    (h : ∀ x ∈ xs, IsNonnegative x) :
    IsNonnegative (xs.foldl Scalar.max a) ∧ ∀ r, floatRank (xs.foldl Scalar.max a) ≤ r ↔
      floatRank a ≤ r ∧ ∀ x ∈ xs, floatRank x ≤ r := by
  induction xs generalizing a with
  | nil => exact ⟨ha, fun r => by simp⟩
  | cons x xs ih =>
    obtain ⟨hx, hxs⟩ := List.forall_mem_cons.mp h
    rw [List.foldl_cons]
    rcases ha.max_cases hx with ⟨heq, hrank⟩ | ⟨heq, hrank⟩ <;> rw [heq]
    · refine ⟨(ih hx hxs).1, fun r => ?_⟩
      rw [(ih hx hxs).2, List.forall_mem_cons]
      exact ⟨fun ⟨hxr, hall⟩ => ⟨by omega, hxr, hall⟩, fun ⟨_, hxr, hall⟩ => ⟨hxr, hall⟩⟩
    · refine ⟨(ih ha hxs).1, fun r => ?_⟩
      rw [(ih ha hxs).2, List.forall_mem_cons]
      exact ⟨fun ⟨har, hall⟩ => ⟨har, by omega, hall⟩, fun ⟨har, _, hall⟩ => ⟨har, hall⟩⟩

namespace Engine

variable {fitness : List Float}

theorem isNonnegative_zero : IsNonnegative 0.0 := by
  rw [IsNonnegative]
  decide

theorem floatRank_zero : floatRank 0.0 = 0 := by
  decide

theorem isNonnegative_bestOf (h : ∀ x ∈ fitness, IsNonnegative x) :
    IsNonnegative (bestOf fitness) :=
  (floatRank_foldl_max_le isNonnegative_zero h).1

theorem floatRank_bestOf_le (h : ∀ x ∈ fitness, IsNonnegative x) {r : Int} (hr : 0 ≤ r) :
    floatRank (bestOf fitness) ≤ r ↔ ∀ x ∈ fitness, floatRank x ≤ r := by
  rw [bestOf, (floatRank_foldl_max_le isNonnegative_zero h).2, floatRank_zero, and_iff_right hr]

end Engine

/-! ### Elites -/

theorem byFitness_perm (fitness : List Float) :
    (byFitness fitness).Perm (List.range fitness.length) := by
  have hperm := (List.mergeSort_perm fitness.zipIdx fun a b => floatRank b.1 ≤ floatRank a.1).map
    (·.2)
  rwa [List.zipIdx_map_snd, ← List.range_eq_range'] at hperm

theorem nodup_eliteIndices (fitness : List Float) (count : Nat) :
    (eliteIndices fitness count).Nodup :=
  ((byFitness_perm fitness).nodup_iff.mpr List.nodup_range).sublist (List.take_sublist _ _)

theorem lt_of_mem_eliteIndices {fitness : List Float} {count i : Nat}
    (h : i ∈ eliteIndices fitness count) : i < fitness.length :=
  List.mem_range.mp ((byFitness_perm fitness).mem_iff.mp (List.mem_of_mem_take h))

/-- More elites than individuals are all individuals. -/
theorem eliteIndices_min {fitness : List Float} {count most : Nat} (h : fitness.length ≤ most) :
    eliteIndices fitness (Nat.min count most) = eliteIndices fitness count := by
  have hlength : (byFitness fitness).length ≤ most := by
    rwa [(byFitness_perm fitness).length_eq, List.length_range]
  rw [eliteIndices, eliteIndices]
  change (byFitness fitness).take (min count most) = _
  rw [← List.take_take, List.take_of_length_le hlength]

/-- **Among the elites is one that none is better than**, if there are any. -/
theorem exists_mem_eliteIndices {fitness : List Float} (hne : fitness ≠ []) {count : Nat}
    (hcount : 0 < count) : ∃ i ∈ eliteIndices fitness count, ∃ x, fitness[i]? = some x ∧
      ∀ y ∈ fitness, floatRank y ≤ floatRank x := by
  have hperm := List.mergeSort_perm fitness.zipIdx fun a b => floatRank b.1 ≤ floatRank a.1
  have hsorted := pairwise_mergeSort_rank (fun p : Float × Nat => floatRank p.1) fitness.zipIdx
  rw [eliteIndices, byFitness]
  rcases hlist : fitness.zipIdx.mergeSort fun a b => floatRank b.1 ≤ floatRank a.1 with _ | ⟨p, ps⟩
  · rw [hlist] at hperm
    have hnil := congrArg List.length hperm.nil_eq
    rw [List.length_zipIdx] at hnil
    exact absurd (List.length_eq_zero_iff.mp hnil.symm) hne
  · rw [hlist] at hperm hsorted
    obtain ⟨k, rfl⟩ := Nat.exists_eq_succ_of_ne_zero hcount.ne'
    have hp : p ∈ fitness.zipIdx := hperm.mem_iff.mp List.mem_cons_self
    refine ⟨p.2, List.mem_cons_self, p.1, List.mem_zipIdx_iff_getElem?.mp hp, fun y hy => ?_⟩
    obtain ⟨i, hi, rfl⟩ := List.mem_iff_getElem.mp hy
    have hq : (fitness[i], i) ∈ p :: ps :=
      hperm.mem_iff.mpr (List.mem_zipIdx_iff_getElem?.mpr (List.getElem?_eq_getElem hi))
    rcases List.mem_cons.mp hq with hq | hq
    · have heq : fitness[i] = p.1 := congrArg Prod.fst hq
      rw [heq]
    · exact (List.pairwise_cons.mp hsorted).1 (fitness[i], i) hq

end GrammarFuzzing
