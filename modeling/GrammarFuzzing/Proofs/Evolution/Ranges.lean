import GrammarFuzzing.Proofs.Evolution.Score

/-!
# The order of a batch does not matter

The score of a tree depends on the ranges of the soft constraints, and every tree of its batch may
widen these. Still the trees can be scored in any order, or at the same time, because all of them
are looked at before the first one is scored.

The argument does not exchange observations one by one. A range is characterised by the values that
were seen, whenever they were (`GrammarFuzzing.ValueRange.Spans`): it is empty if none of them is
finite, and goes from the least finite one to the greatest if some are. So it is a function of the
*set* of values (`GrammarFuzzing.ValueRange.Spans.unique`), and the evaluator is one of the set of
trees that it has seen (`GrammarFuzzing.Evaluator.after_congr`). The scores of a batch are then its
trees, each mapped by the same function.
-/

namespace GrammarFuzzing

open Exact

namespace ValueRange

/-- **A range spans some values**: it goes from the least finite one to the greatest, and is empty
if there are none. -/
def Spans (r : ValueRange Exact) (values : List (Option Exact)) : Prop :=
  match r with
  | none => ∀ v : ℚ, some (rational v) ∉ values
  | some (lo, hi) => ∃ p q : ℚ, lo = rational p ∧ hi = rational q ∧
      some (rational p) ∈ values ∧ some (rational q) ∈ values ∧
        ∀ v : ℚ, some (rational v) ∈ values → p ≤ v ∧ v ≤ q

variable {r r' : ValueRange Exact} {values values' : List (Option Exact)}

/-- **There is one range that spans some values**, in whatever order and however often they come. -/
theorem Spans.unique (h : r.Spans values) (h' : r'.Spans values')
    (hmem : ∀ v, v ∈ values ↔ v ∈ values') : r = r' := by
  rcases r with _ | ⟨lo, hi⟩ <;> rcases r' with _ | ⟨lo', hi'⟩
  · rfl
  · obtain ⟨p, -, -, -, hp, -, -⟩ := h'
    exact absurd ((hmem _).mpr hp) (h p)
  · obtain ⟨p, -, -, -, hp, -, -⟩ := h
    exact absurd ((hmem _).mp hp) (h' p)
  · obtain ⟨p, q, rfl, rfl, hp, hq, hall⟩ := h
    obtain ⟨p', q', rfl, rfl, hp', hq', hall'⟩ := h'
    have hlo : p = p' := le_antisymm (hall p' ((hmem _).mpr hp')).1 (hall' p ((hmem _).mp hp)).1
    have hhi : q = q' := le_antisymm (hall' q ((hmem _).mp hq)).2 (hall q' ((hmem _).mpr hq')).2
    rw [hlo, hhi]

/-- A value that is not finite, or missing, changes nothing. -/
theorem Spans.append_singleton (h : r.Spans values) {value : Option Exact}
    (hvalue : ∀ v : ℚ, value ≠ some (rational v)) : r.Spans (values ++ [value]) := by
  have hmem : ∀ v : ℚ, some (rational v) ∈ values ++ [value] ↔ some (rational v) ∈ values := by
    intro v
    rw [List.mem_append, List.mem_singleton, or_iff_left fun h => hvalue v h.symm]
  rcases r with _ | ⟨lo, hi⟩
  · simpa only [Spans, hmem] using h
  · simpa only [Spans, hmem] using h

/-- A finite value widens the range as far as to it. -/
theorem Spans.observe_rational (h : r.Spans values) (v : ℚ) :
    (r.observe (rational v)).Spans (values ++ [some (rational v)]) := by
  have hmem : ∀ w : ℚ, some (rational w) ∈ values ++ [some (rational v)] ↔
      some (rational w) ∈ values ∨ w = v := by
    intro w
    rw [List.mem_append, List.mem_singleton, Option.some.injEq, Exact.rational.injEq]
  rcases r with _ | ⟨lo, hi⟩
  · refine ⟨v, v, rfl, rfl, (hmem v).mpr (Or.inr rfl), (hmem v).mpr (Or.inr rfl), fun w hw => ?_⟩
    rcases (hmem w).mp hw with hold | rfl
    · exact absurd hold (h w)
    · exact ⟨le_rfl, le_rfl⟩
  · obtain ⟨p, q, rfl, rfl, hp, hq, hall⟩ := h
    refine ⟨min p v, max q v, min_rational p v, max_rational q v, (hmem _).mpr ?_,
      (hmem _).mpr ?_, fun w hw => ?_⟩
    · rcases min_choice p v with hmin | hmin
      · rw [hmin]
        exact Or.inl hp
      · exact Or.inr hmin
    · rcases max_choice q v with hmax | hmax
      · rw [hmax]
        exact Or.inl hq
      · exact Or.inr hmax
    · rcases (hmem w).mp hw with hold | rfl
      · exact ⟨min_le_of_left_le (hall w hold).1, le_max_of_le_left (hall w hold).2⟩
      · exact ⟨min_le_right _ _, le_max_right _ _⟩

/-- **A range with one more value** spans that one too. -/
theorem Spans.observe (h : r.Spans values) (value : Exact) :
    (r.observe value).Spans (values ++ [some value]) := by
  by_cases hfinite : Scalar.isFinite value = true
  · obtain ⟨v, rfl⟩ := isFinite_iff.mp hfinite
    exact h.observe_rational v
  · unfold ValueRange.observe
    rw [if_pos (by simpa using hfinite)]
    refine h.append_singleton fun v hv => hfinite ?_
    exact isFinite_iff.mpr ⟨v, Option.some.inj hv⟩

end ValueRange

namespace Evaluator

/-- What a soft constraint is worth on some trees. -/
def softValues (c : Constraint) (ts : List Tree) : List (Option Exact) :=
  ts.map fun t => softValue? (c.evaluate t)

/-- **Ranges that span the values of some trees**, each for its soft constraint. -/
def SpanAll (soft : List Constraint) (ranges : List (ValueRange Exact)) (ts : List Tree) : Prop :=
  List.Forall₂ (fun c r => r.Spans (softValues c ts)) soft ranges

variable {soft cs : List Constraint} {ranges ranges' : List (ValueRange Exact)}
  {ts ts' : List Tree}

/-- One more tree is seen. -/
theorem SpanAll.observe (h : SpanAll soft ranges ts) (t : Tree) :
    SpanAll soft (observe ranges (soft.map fun c => softValue? (c.evaluate t))) (ts ++ [t]) := by
  induction h with
  | nil => exact .nil
  | @cons c r soft ranges hspans _ ih =>
    have hvalues : softValues c (ts ++ [t]) = softValues c ts ++ [softValue? (c.evaluate t)] := by
      rw [softValues, List.map_append]
      rfl
    rw [List.map_cons]
    cases hvalue : (softValue? (c.evaluate t) : Option Exact) with
    | none =>
      refine .cons ?_ ih
      rw [hvalues, hvalue]
      exact hspans.append_singleton fun _ => nofun
    | some v =>
      refine .cons ?_ ih
      rw [hvalues, hvalue]
      exact hspans.observe v

/-- **Many more trees are seen**, one after the other. -/
theorem SpanAll.foldl_observe (h : SpanAll soft ranges ts) (ts' : List Tree) :
    SpanAll soft
      (ts'.foldl (fun rs t => Evaluator.observe rs (soft.map fun c => softValue? (c.evaluate t)))
        ranges) (ts ++ ts') := by
  induction ts' generalizing ranges ts with
  | nil => rwa [List.append_nil]
  | cons t ts' ih =>
    rw [List.foldl_cons, List.append_cons]
    exact ih (h.observe t)

theorem SpanAll.unique (h : SpanAll soft ranges ts) (h' : SpanAll soft ranges' ts')
    (hmem : ∀ t, t ∈ ts ↔ t ∈ ts') : ranges = ranges' := by
  induction h generalizing ranges' with
  | nil => cases h'; rfl
  | cons hspans _ ih =>
    cases h' with
    | cons hspans' h' =>
      have hvalues : ∀ c v, v ∈ softValues c ts ↔ v ∈ softValues c ts' := by
        intro c v
        simp only [softValues, List.mem_map, hmem]
      rw [hspans.unique hspans' (hvalues _), ih h']

theorem after_append_singleton (cs : List Constraint) (batches : List (List Tree))
    (ts : List Tree) :
    (after cs (batches ++ [ts]) : Evaluator Exact) = ((after cs batches).evaluateAll ts).2 := by
  rw [after, List.foldl_append]
  rfl

theorem ranges_evaluateAll (e : Evaluator Exact) (ts : List Tree) :
    (e.evaluateAll ts).2.ranges =
      ts.foldl (fun rs t => observe rs (e.soft.map fun c => softValue? (c.evaluate t))) e.ranges :=
  List.foldl_map

/-- **The ranges of an evaluator** span the values of all trees it has scored. -/
theorem spanAll_after (cs : List Constraint) (batches : List (List Tree)) :
    SpanAll (cs.filter Constraint.isSoft) (after cs batches).ranges batches.flatten := by
  induction batches using List.reverseRecOn with
  | nil =>
    refine List.forall₂_map_right_iff.mpr (List.forall₂_same.mpr fun c _ v => ?_)
    exact List.not_mem_nil
  | append_singleton batches ts ih =>
    rw [after_append_singleton, ranges_evaluateAll, (measures_after cs batches).soft,
      List.flatten_append, List.flatten_singleton]
    exact ih.foldl_observe ts

/-- **An evaluator is what the trees it has scored make of it**, in whatever batches they came. -/
theorem after_congr {batches batches' : List (List Tree)}
    (hmem : ∀ t, t ∈ batches.flatten ↔ t ∈ batches'.flatten) :
    (after cs batches : Evaluator Exact) = after cs batches' := by
  have h := measures_after cs batches
  have h' := measures_after cs batches'
  have hranges := (spanAll_after cs batches).unique (spanAll_after cs batches') hmem
  calc (after cs batches : Evaluator Exact)
    _ = ⟨cs.filter fun c => !c.isSoft, cs.filter Constraint.isSoft, (after cs batches).ranges⟩ := by
      rw [← h.hard, ← h.soft]
    _ = after cs batches' := by rw [hranges, ← h'.hard, ← h'.soft]

/-- **The order of a batch does not matter.** After any batches, take the trees of another one in
any order. Each of them is given the score that it has in every other order, the evaluator that is
left is the same, and two trees of the batch that are equal have equal scores. In that evaluator the
range of each soft constraint goes from the least to the greatest of the finite values seen so far,
if any was seen. -/
theorem evaluateAll_perm (cs : List Constraint) (batches : List (List Tree)) {n : ℕ}
    (t : Fin n → Tree) :
    ∃ (s : Fin n → Evaluation Exact) (e : Evaluator Exact),
      (∀ σ : Equiv.Perm (Fin n),
        (after cs batches).evaluateAll (List.ofFn (t ∘ σ)) = (List.ofFn (s ∘ σ), e)) ∧
      (∀ i j, t i = t j → s i = s j) ∧
      SpanAll (cs.filter Constraint.isSoft) e.ranges (batches.flatten ++ List.ofFn t) := by
  let e : Evaluator Exact := after cs (batches ++ [List.ofFn t])
  have hstate : ∀ σ : Equiv.Perm (Fin n),
      ((after cs batches).evaluateAll (List.ofFn (t ∘ σ))).2 = e := by
    intro σ
    rw [← after_append_singleton]
    refine after_congr fun u => ?_
    simp only [List.flatten_append, List.flatten_singleton, List.mem_append, List.mem_ofFn',
      σ.surjective.range_comp t]
  refine ⟨fun i => e.blend (e.rawScore (t i)), e, fun σ => Prod.ext ?_ (hstate σ), ?_, ?_⟩
  · rw [fst_evaluateAll, hstate, List.map_ofFn]
    rfl
  · intro i j hij
    exact congrArg (fun u => e.blend (e.rawScore u)) hij
  · have hspan := spanAll_after cs (batches ++ [List.ofFn t])
    rwa [List.flatten_append, List.flatten_singleton] at hspan

end Evaluator

end GrammarFuzzing
