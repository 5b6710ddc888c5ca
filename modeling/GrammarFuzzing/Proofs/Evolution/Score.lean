import GrammarFuzzing.Evolution.Evaluation
import GrammarFuzzing.Proofs.Constraint.Counts
import GrammarFuzzing.Proofs.Number.Exact
import Mathlib.Tactic.FieldSimp

/-!
# Meeting all constraints comes first

The score of a tree blends two means, that of the hard constraints and that of the quantities. This
file computes it with exact scalars and proves that the blend puts the constraints first: a tree
that meets all hard constraints scores at least their share of all constraints
(`GrammarFuzzing.Constraint.hardShare`), and any other tree scores less than that
(`GrammarFuzzing.Evaluator.success_dominates`), whatever batches were scored before.

* The ranges only hold rationals, so the place of a value in its range is between zero and one, and
  so is the score of the quantities (`GrammarFuzzing.Evaluator.Measures.inUnit_softScore`). Values
  that are infinite or no number are not taken into the ranges and score zero.
* A constraint that is not met scores less than one, as its counts agree with its verdict, so the
  mean of the hard constraints is one only if all are met
  (`GrammarFuzzing.Evaluator.exists_hardFitness`).
-/

namespace GrammarFuzzing

open Exact

/-! ### Ranges -/

namespace ValueRange

/-- The ends of a range are rationals. -/
def Rational (r : ValueRange Exact) : Prop :=
  ∀ ends, r = some ends → ∃ p q : ℚ, ends = (rational p, rational q)

theorem Rational.observe {r : ValueRange Exact} (h : r.Rational) (value : Exact) :
    (r.observe value).Rational := by
  unfold ValueRange.observe
  split
  · exact h
  · rename_i hfinite
    obtain ⟨v, rfl⟩ := isFinite_iff.mp (by simpa using hfinite)
    cases r with
    | none =>
      rintro _ ⟨⟩
      exact ⟨v, v, rfl⟩
    | some ends =>
      obtain ⟨p, q, rfl⟩ := h ends rfl
      rintro _ ⟨⟩
      exact ⟨min p v, max q v, by rw [min_rational, max_rational]⟩

/-- **The place of a value is between zero and one.** -/
theorem Rational.inUnit_place {r : ValueRange Exact} (h : r.Rational) (v : ℚ) :
    InUnit (r.place (rational v)) := by
  have hhalf : InUnit (Scalar.ratio 1 2) := by
    rw [ratio_eq 1 two_ne_zero]
    exact inUnit_rational (by norm_num) (by norm_num)
  cases r with
  | none => exact hhalf
  | some ends =>
    obtain ⟨p, q, rfl⟩ := h ends rfl
    rw [place]
    split
    · rename_i hlt
      have hpq : q - p ≠ 0 := by
        rw [lt_rational, decide_eq_true_eq] at hlt
        exact (sub_pos.mpr hlt).ne'
      rw [rational_sub, rational_sub, rational_div _ hpq]
      exact inUnit_clamp01 _
    · exact hhalf

/-- **A value is scaled to the unit interval**, whatever it is and whatever the goal. -/
theorem Rational.inUnit_scale {r : ValueRange Exact} (h : r.Rational) (value : Option Exact)
    (goal : Goodness) : InUnit (r.scale value goal) := by
  have hzero : InUnit (Scalar.ofNat 0) := inUnit_rational le_rfl zero_le_one
  cases value with
  | none => exact hzero
  | some value =>
    unfold scale
    dsimp only
    split
    · exact hzero
    · rename_i hfinite
      obtain ⟨v, rfl⟩ := isFinite_iff.mp (by simpa using hfinite)
      cases goal with
      | maximize => exact h.inUnit_place v
      | minimize => exact (h.inUnit_place v).one_sub

end ValueRange

namespace Evaluator

theorem rational_observe {ranges : List (ValueRange Exact)} (h : ∀ r ∈ ranges, r.Rational)
    (values : List (Option Exact)) : ∀ r ∈ observe ranges values, r.Rational := by
  induction ranges generalizing values with
  | nil => cases values <;> exact h
  | cons r ranges ih =>
    rw [List.forall_mem_cons] at h
    cases values with
    | nil => exact List.forall_mem_cons.mpr h
    | cons value values =>
      cases value with
      | none => exact List.forall_mem_cons.mpr ⟨h.1, ih h.2 values⟩
      | some v => exact List.forall_mem_cons.mpr ⟨h.1.observe v, ih h.2 values⟩

/-! ### The two means -/

/-- **One hard constraint** scores between zero and one, and one exactly if it is met. -/
theorem exists_hardScore (t : Tree) {c : Constraint} (h : c.isSoft = false) :
    ∃ q : ℚ, hardScore (c.evaluate t) = rational q ∧ 0 ≤ q ∧ q ≤ 1 ∧
      (q = 1 ↔ (c.evaluate t).success = true) := by
  obtain ⟨found, hfound, hconsistent⟩ := Constraint.exists_clauses_of_not_isSoft t h
  rw [hfound, hardScore, Fitness.success]
  cases hsuccess : found.success with
  | true => exact ⟨1, by simp, zero_le_one, le_rfl, by simp⟩
  | false =>
    simp only [Bool.false_eq_true, if_false, iff_false, Fitness.score]
    obtain ⟨q, hq, h₀, h₁, hzero, hone⟩ := hconsistent.exists_fitness
    refine ⟨q, hq, h₀, h₁, fun h => ?_⟩
    rcases Nat.eq_zero_or_pos found.total with htotal | hpos
    · exact zero_ne_one ((hzero htotal).symm.trans h)
    · exact absurd (hsuccess.symm.trans ((hone hpos).mp h)) Bool.false_ne_true

/-- The scores of hard constraints sum to at most their number, and to it exactly if all are met. -/
theorem exists_sum_hardScores (t : Tree) : ∀ {cs : List Constraint},
    (∀ c ∈ cs, c.isSoft = false) → ∃ qs : List ℚ,
      cs.map (fun c => hardScore (c.evaluate t)) = qs.map rational ∧ 0 ≤ qs.sum ∧
        qs.sum ≤ cs.length ∧
          (qs.sum = cs.length ↔ ∀ c ∈ cs, (c.evaluate t).success = true)
  | [], _ => ⟨[], rfl, le_rfl, le_rfl, by simp⟩
  | c :: cs, h => by
    rw [List.forall_mem_cons] at h
    obtain ⟨q, hq, h₀, h₁, hone⟩ := exists_hardScore t h.1
    obtain ⟨qs, hqs, hs₀, hs₁, hall⟩ := exists_sum_hardScores t h.2
    refine ⟨q :: qs, by rw [List.map_cons, List.map_cons, hq, hqs], ?_, ?_, ?_⟩
    · rw [List.sum_cons]
      exact add_nonneg h₀ hs₀
    · rw [List.sum_cons, List.length_cons, Nat.cast_add, Nat.cast_one]
      linarith
    · rw [List.sum_cons, List.length_cons, Nat.cast_add, Nat.cast_one, List.forall_mem_cons,
        ← hone, ← hall]
      exact ⟨fun hsum => ⟨by linarith, by linarith⟩, fun ⟨hq, hqs⟩ => by rw [hq, hqs, add_comm]⟩

variable {e : Evaluator Exact}

/-- **The mean of the hard constraints** is between zero and one, and one exactly if all are met. -/
theorem exists_hardFitness (hhard : ∀ c ∈ e.hard, c.isSoft = false) (t : Tree) :
    ∃ q : ℚ, (e.rawScore t).hardFitness = rational q ∧ 0 ≤ q ∧ q ≤ 1 ∧
      (q = 1 ↔ (e.rawScore t).success = true) := by
  rw [success_rawScore]
  by_cases hnil : e.hard = []
  · refine ⟨1, ?_, zero_le_one, le_rfl, by simp [hnil]⟩
    simp [rawScore, hnil]
  · obtain ⟨qs, hqs, h₀, h₁, hall⟩ := exists_sum_hardScores t hhard
    have hpos : (0 : ℚ) < e.hard.length := by exact_mod_cast List.length_pos_iff.mpr hnil
    have hsum : (e.hard.map fun c => c.evaluate t).foldl (fun sum f => sum + hardScore f)
        (Scalar.ofNat 0) = rational qs.sum := by
      rw [← sum_rational, ← hqs, Scalar.sum, List.foldl_map, List.foldl_map, ofNat_eq, sumStart_eq,
        Nat.cast_zero]
    refine ⟨qs.sum / e.hard.length, ?_, div_nonneg h₀ hpos.le, (div_le_one hpos).mpr h₁, ?_⟩
    · have hempty : (e.hard.map fun c => c.evaluate t).isEmpty = false := by simpa using hnil
      rw [rawScore]
      simp only [hsum, hempty, Bool.false_eq_true, if_false, List.length_map]
      exact rational_div _ hpos.ne'
    · rw [div_eq_one_iff_eq hpos.ne', hall]

/-- **An evaluator of constraints**: its hard and its soft ones, and ranges of rationals. -/
structure Measures (e : Evaluator Exact) (cs : List Constraint) : Prop where
  hard : e.hard = cs.filter fun c => !c.isSoft
  soft : e.soft = cs.filter Constraint.isSoft
  ranges : ∀ r ∈ e.ranges, r.Rational

variable {cs : List Constraint}

theorem Measures.not_isSoft (h : e.Measures cs) : ∀ c ∈ e.hard, c.isSoft = false := by
  intro c hc
  rw [h.hard, List.mem_filter] at hc
  simpa using hc.2

/-- **The score of the quantities is between zero and one.** -/
theorem Measures.inUnit_softScore (h : e.Measures cs) (values : List (Option Exact)) :
    InUnit (e.softScore values) := by
  rw [softScore]
  split
  · exact inUnit_rational le_rfl zero_le_one
  · rename_i hsoft
    have hne : e.soft.length ≠ 0 := by simpa [List.length_eq_zero_iff] using hsoft
    refine inUnit_mean (fun a ha => ?_) hne ?_
    · obtain ⟨⟨⟨c, r⟩, value⟩, hmem, rfl⟩ := List.mem_map.mp ha
      have hr := (List.of_mem_zip (List.of_mem_zip hmem).1).2
      exact (h.ranges r hr).inUnit_scale value _
    · rw [scaled, List.length_map, List.length_zip, List.length_zip]
      omega

end Evaluator

/-! ### The blend -/

/-- The share of the hard constraints among some constraints. -/
def Constraint.hardShare (cs : List Constraint) : ℚ :=
  (cs.filter fun c => !c.isSoft).length /
    ((cs.filter fun c => !c.isSoft).length + (cs.filter Constraint.isSoft).length)

/-- **What the score of a tree tells**: whether all hard constraints are met, and a rational between
zero and one, at least the share of the hard constraints if they are, and less than that if not. -/
structure Evaluation.Tells (s : Evaluation Exact) (cs : List Constraint) (t : Tree) : Prop where
  success : s.success = true ↔ ∀ c ∈ cs, c.isSoft = false → (c.evaluate t).success = true
  fitness : ∃ q : ℚ, s.fitness = rational q ∧ 0 ≤ q ∧ q ≤ 1 ∧
    (s.success = true → Constraint.hardShare cs ≤ q) ∧
    (s.success = false → q < Constraint.hardShare cs) ∧
    ((∀ c ∈ cs, c.isSoft = false) → (q = 1 ↔ s.success = true))

namespace Evaluator

variable {e : Evaluator Exact} {cs : List Constraint}

/-- **The blend of the raw score of a tree** tells whether it meets the constraints. -/
theorem Measures.tells_blend (h : e.Measures cs) (t : Tree) :
    (e.blend (e.rawScore t)).Tells cs t := by
  obtain ⟨q, hq, h₀, h₁, hone⟩ := exists_hardFitness h.not_isSoft t
  obtain ⟨p, hp, hp₀, hp₁⟩ := h.inUnit_softScore (e.rawScore t).softValues
  have hshare : Constraint.hardShare cs = e.hard.length / (e.hard.length + e.soft.length) := by
    rw [Constraint.hardShare, h.hard, h.soft]
  refine ⟨?_, ?_⟩
  · rw [blend, success_rawScore, h.hard]
    simp only [List.mem_filter, and_imp, Bool.not_eq_true']
  have hhard₀ : (0 : ℚ) ≤ e.hard.length := Nat.cast_nonneg _
  -- A tree that fails meets less than all constraints, of which there are some.
  have hless : (e.rawScore t).success = false → q < 1 ∧ (0 : ℚ) < e.hard.length := by
    intro hfail
    refine ⟨lt_of_le_of_ne h₁ fun h => ?_, lt_of_le_of_ne hhard₀ fun hzero => ?_⟩
    · exact absurd ((hone.mp h).symm.trans hfail) (by simp)
    · have hnil : e.hard = [] := List.length_eq_zero_iff.mp (by exact_mod_cast hzero.symm)
      exact absurd ((success_rawScore.mpr (by simp [hnil])).symm.trans hfail) (by simp)
  rw [hshare, blend]
  by_cases hsoft : e.soft = []
  · simp only [hsoft, List.isEmpty_nil, if_true, List.length_nil, Nat.cast_zero, add_zero]
    refine ⟨q, hq, h₀, h₁, fun hsuccess => ?_, fun hfail => ?_, fun _ => hone⟩
    · rw [hone.mpr hsuccess]
      exact div_self_le_one _
    · rw [div_self (hless hfail).2.ne']
      exact (hless hfail).1
  · have hempty : e.soft.isEmpty = false := by simpa using hsoft
    have hsoft₀ : (0 : ℚ) < e.soft.length := by exact_mod_cast List.length_pos_iff.mpr hsoft
    have hpos : (0 : ℚ) < e.hard.length + e.soft.length := by linarith
    have hnone : ¬ ∀ c ∈ cs, c.isSoft = false := by
      obtain ⟨c, hc⟩ := List.exists_mem_of_ne_nil _ hsoft
      rw [h.soft, List.mem_filter] at hc
      intro hall
      exact absurd (hc.2.symm.trans (hall c hc.1)) (by simp)
    simp only [hempty, Bool.false_eq_true, if_false, hq, hp, ofNat_eq, rational_mul, rational_add]
    cases hsuccess : (e.rawScore t).success with
    | true =>
      have hprod := mul_le_mul_of_nonneg_right hp₁ hsoft₀.le
      have hprod₀ := mul_nonneg hp₀ hsoft₀.le
      simp only [if_true, rational_div _ hpos.ne', hone.mpr hsuccess, one_mul]
      refine ⟨_, rfl, by positivity, (div_le_one hpos).mpr (by linarith), fun _ => ?_, nofun,
        fun hno => absurd hno hnone⟩
      exact div_le_div_of_nonneg_right (by linarith) hpos.le
    | false =>
      obtain ⟨hlt, hhard⟩ := hless hsuccess
      have hprod := mul_lt_mul_of_pos_right hlt hhard
      simp only [Bool.false_eq_true, if_false, rational_div _ hpos.ne']
      refine ⟨_, rfl, by positivity, (div_le_one hpos).mpr (by linarith), nofun, fun _ => ?_,
        fun hno => absurd hno hnone⟩
      exact div_lt_div_of_pos_right (by linarith) hpos

/-! ### Batches -/

/-- The evaluator of constraints after some batches. -/
def after {α : Type} [Scalar α] (cs : List Constraint) (batches : List (List Tree)) :
    Evaluator α :=
  batches.foldl (fun e ts => (e.evaluateAll ts).2) (ofConstraints cs)

/-- **What every batch keeps** holds after all of them. -/
theorem after_induction {α : Type} [Scalar α] {P : Evaluator α → Prop} {cs : List Constraint}
    (hstart : P (ofConstraints cs)) (hbatch : ∀ e ts, P e → P (e.evaluateAll ts).2)
    (batches : List (List Tree)) : P (after cs batches) :=
  List.foldlRecOn batches _ hstart fun e he ts _ => hbatch e ts he

/-- **Each tree of a batch is scored by itself**, with the ranges that the whole batch has changed.
The raw scores do not depend on these. -/
theorem fst_evaluateAll {α : Type} [Scalar α] (e : Evaluator α) (ts : List Tree) :
    (e.evaluateAll ts).1 =
      ts.map fun t => (e.evaluateAll ts).2.blend ((e.evaluateAll ts).2.rawScore t) :=
  List.map_map

theorem measures_ofConstraints (cs : List Constraint) : (ofConstraints cs).Measures cs where
  hard := rfl
  soft := rfl
  ranges r hr := by
    obtain ⟨c, -, rfl⟩ := List.mem_map.mp hr
    exact fun _ => nofun

/-- **A batch keeps the constraints**, and takes rationals into the ranges. -/
theorem Measures.evaluateAll (h : e.Measures cs) (ts : List Tree) :
    (e.evaluateAll ts).2.Measures cs where
  hard := h.hard
  soft := h.soft
  ranges := by
    have hfold : ∀ (raw : List (RawScore Exact)) (ranges : List (ValueRange Exact)),
        (∀ r ∈ ranges, r.Rational) →
          ∀ r ∈ raw.foldl (fun rs s => observe rs s.softValues) ranges, r.Rational := by
      intro raw
      induction raw with
      | nil => exact fun _ h => h
      | cons s raw ih => exact fun ranges h => ih _ (rational_observe h s.softValues)
    exact hfold _ _ h.ranges

theorem measures_after (cs : List Constraint) (batches : List (List Tree)) :
    (after cs batches).Measures cs :=
  after_induction (P := fun e => e.Measures cs) (measures_ofConstraints cs)
    (fun _ ts h => Measures.evaluateAll h ts) batches

/-- The scores of a batch tell of its trees, in order. -/
theorem Measures.tells_evaluateAll (h : e.Measures cs) (ts : List Tree) :
    List.Forall₂ (fun t s => s.Tells cs t) ts (e.evaluateAll ts).1 := by
  rw [fst_evaluateAll, List.forall₂_map_right_iff, List.forall₂_same]
  exact fun t _ => (h.evaluateAll ts).tells_blend t

/-- **Meeting all hard constraints comes first.** After any batches, the score of each tree of a
batch tells whether it meets them: it is a rational between zero and one, at least the share of the
hard constraints if it does, and less if it does not. So of two trees, scored at any times, the one
that meets all of them has the greater score. -/
theorem success_dominates (cs : List Constraint) (batches : List (List Tree)) (ts : List Tree) :
    List.Forall₂ (fun t s => s.Tells cs t) ts ((after cs batches).evaluateAll ts).1 ∧
      ∀ batches' ts', ∀ s ∈ ((after cs batches).evaluateAll ts).1,
        ∀ s' ∈ ((after cs batches' : Evaluator Exact).evaluateAll ts').1,
          s.success = true → s'.success = false → Scalar.lt s'.fitness s.fitness = true := by
  have htells : ∀ batches ts, List.Forall₂ (fun t s => s.Tells cs t) ts
      ((after cs batches).evaluateAll ts).1 :=
    fun batches ts => (measures_after cs batches).tells_evaluateAll ts
  have hmem : ∀ batches ts, ∀ s ∈ ((after cs batches : Evaluator Exact).evaluateAll ts).1,
      ∃ t, s.Tells cs t := by
    intro batches ts s hs
    obtain ⟨i, hi, rfl⟩ := List.mem_iff_getElem.mp hs
    exact ⟨_, (htells batches ts).get ((htells batches ts).length_eq ▸ hi) hi⟩
  refine ⟨htells batches ts, fun batches' ts' s hs s' hs' hsuccess hfail => ?_⟩
  obtain ⟨t, ht⟩ := hmem batches ts s hs
  obtain ⟨t', ht'⟩ := hmem batches' ts' s' hs'
  obtain ⟨q, hq, -, -, hge, -⟩ := ht.fitness
  obtain ⟨q', hq', -, -, -, hlt, -⟩ := ht'.fitness
  rw [hq, hq', lt_rational, decide_eq_true_eq]
  exact (hlt hfail).trans_le (hge hsuccess)

/-- Of a list without items and a list with one, scored in different batches, the first is greater
if lists have to be empty, however much the number in the second is worth. -/
theorem success_dominates_empty :
    let cs := [Constraint.predicate "is empty" (some "list") fun t => t.children.isEmpty,
      .optimize .maximize (.int (.symbol "item"))]
    let none := Tree.branch "list" []
    let one := Tree.branch "list" [.branch "item" [.leaf (.text "9")]]
    ∃ s s' : Evaluation Exact, ((after cs [[one]]).evaluateAll [none]).1 = [s] ∧
      ((after cs []).evaluateAll [one, none]).1.head? = some s' ∧
        Scalar.lt s'.fitness s.fitness = true := by
  intro cs none one
  refine ⟨_, _, rfl, rfl, ?_⟩
  exact (success_dominates cs [[one]] [none]).2 [] [one, none] _ List.mem_cons_self _
    List.mem_cons_self (by rfl) (by rfl)

end Evaluator

end GrammarFuzzing
