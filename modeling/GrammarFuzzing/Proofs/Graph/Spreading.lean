import GrammarFuzzing.Graph.Search
import GrammarFuzzing.Proofs.Graph.Edges
import Mathlib.Data.List.Nodup

/-!
# What can come after a place

The places that can come after a place are found round by round, as far as none stops the search on
the way (`GrammarFuzzing.Graph.mem_after`). The invariant of the rounds is
`GrammarFuzzing.Graph.Spreading`. Each round takes one place away that is pending and adds those
that are new, so the rounds do not run out before nothing is pending.
-/

namespace GrammarFuzzing

namespace Graph

variable {g : Graph} {start : Vertex}

/-- **A walk that passes through places which do not stop it.** -/
inductive Passing (g : Graph) (stops : Vertex → Bool) (start : Vertex) : Vertex → Prop where
  /-- The walk that stays. -/
  | stay : g.Passing stops start start
  /-- One more edge. -/
  | step {v w : Vertex} (hv : g.Passing stops start v) (hw : w ∈ g.successors v)
      (hpass : stops w = false) : g.Passing stops start w

/-- **The invariant of spreading**: every place was found once and an edge leads to it, and whatever
an edge leads to from the start or from a place that does not stop the search was found, or the
place is pending. -/
structure Spreading (g : Graph) (stops : Vertex → Bool) (start : Vertex)
    (seen pending : List Vertex) : Prop where
  nodup : seen.Nodup
  reached : ∀ v ∈ seen, v ∈ g.targets
  open_or_pending : ∀ v, v = start ∨ v ∈ seen ∧ stops v = false →
    v ∈ pending ∨ ∀ w ∈ g.successors v, w ∈ seen

variable {stops : Vertex → Bool} {seen pending : List Vertex}

/-- **A round keeps the invariant.** -/
theorem Spreading.step (hg : g.Ordered) {v : Vertex}
    (h : g.Spreading stops start seen (v :: pending)) :
    let fresh := (g.successors v).filter fun w => !seen.contains w
    g.Spreading stops start (seen ++ fresh) (pending ++ fresh.filter fun w => !stops w) := by
  intro fresh
  have hfresh : ∀ w, w ∈ fresh ↔ w ∈ g.successors v ∧ w ∉ seen := by
    intro w
    simp [fresh]
  have hmore : ∀ w ∈ seen, w ∈ seen ++ fresh := fun w hw => List.mem_append_left _ hw
  refine ⟨?_, fun w hw => ?_, fun w hw => ?_⟩
  · refine h.nodup.append ((hg.nodup v).filter _) fun w hseen hw => ?_
    exact ((hfresh w).mp hw).2 hseen
  · rcases List.mem_append.mp hw with hw | hw
    · exact h.reached w hw
    · exact mem_targets ((hfresh w).mp hw).1
  · -- A place is new and pending, or it was open before, or it has just been looked at.
    by_cases hold : w = start ∨ w ∈ seen ∧ stops w = false
    · rcases h.open_or_pending w hold with hpending | hopen
      · rcases List.mem_cons.mp hpending with rfl | hpending
        · refine Or.inr fun x hx => ?_
          by_cases hx' : x ∈ seen
          · exact hmore x hx'
          · exact List.mem_append_right _ ((hfresh x).mpr ⟨hx, hx'⟩)
        · exact Or.inl (List.mem_append_left _ hpending)
      · exact Or.inr fun x hx => hmore x (hopen x hx)
    · rw [not_or] at hold
      obtain ⟨hw, hpass⟩ := hw.resolve_left hold.1
      rcases List.mem_append.mp hw with hw | hw
      · exact absurd ⟨hw, hpass⟩ hold.2
      · refine Or.inl (List.mem_append_right _ (List.mem_filter.mpr ⟨hw, ?_⟩))
        rw [hpass]
        rfl

/-- **Spreading ends when nothing is pending**, if it has enough rounds. -/
theorem Spreading.spread (hg : g.Ordered) : ∀ {rounds : Nat} {seen pending : List Vertex},
    g.Spreading stops start seen pending → pending.length + g.size < rounds + seen.length →
      g.Spreading stops start (g.spread stops rounds seen pending) []
  | 0, seen, pending, h, hrounds => by
    have := length_le_size h.nodup h.reached
    omega
  | rounds + 1, seen, [], h, _ => by
    rw [Graph.spread]
    · exact h
    · exact Nat.succ_ne_zero rounds
  | rounds + 1, seen, v :: pending, h, hrounds => by
    rw [Graph.spread]
    refine Spreading.spread hg (h.step hg) ?_
    have hle := List.length_filter_le (fun w => !stops w)
      ((g.successors v).filter fun w => !seen.contains w)
    rw [List.length_cons] at hrounds
    rw [List.length_append, List.length_append]
    omega

/-- **Whatever a walk leads to can come after its start**, if no place on the way stops it. -/
theorem mem_after (hg : g.Ordered) {v w : Vertex} (hv : g.Passing stops start v)
    (hw : w ∈ g.successors v) : w ∈ g.after stops start := by
  have hstart : g.Spreading stops start [] [start] :=
    ⟨List.nodup_nil, fun v hv => absurd hv List.not_mem_nil, fun v hv =>
      Or.inl (List.mem_singleton.mpr (hv.resolve_right fun h => absurd h.1 List.not_mem_nil))⟩
  have hdone : g.Spreading stops start (g.after stops start) [] :=
    hstart.spread hg (by rw [List.length_singleton, List.length_nil]; omega)
  have hopen : ∀ {v}, g.Passing stops start v → ∀ w ∈ g.successors v, w ∈ g.after stops start := by
    intro v hv
    induction hv with
    | stay => exact (hdone.open_or_pending start (Or.inl rfl)).resolve_left List.not_mem_nil
    | @step v w _ hw hpass ih =>
      exact (hdone.open_or_pending w (Or.inr ⟨ih w hw, hpass⟩)).resolve_left List.not_mem_nil
  exact hopen hv w hw

end Graph

end GrammarFuzzing
