import GrammarFuzzing.Proofs.Grammar.Matching
import Mathlib.Data.Finset.Card

/-!
# The rounds of a repetition

A repetition is matched in rounds: each adds one more copy at all positions that are still
followed. Once there are enough copies, a round leaves out the positions that an earlier round has
followed, and the loop is over when it has nothing to follow, or when there may be no more copies.

`GrammarFuzzing.Node.afterRepetition` computes the positions with a number of rounds that is known
in advance. `GrammarFuzzing.Node.Rounds` is the loop without such a number, and the two find the
same positions (`GrammarFuzzing.Node.exists_rounds`). In particular the loop comes to an end. This
is not clear without an upper bound, since a copy that matches no child leads back to where it
started. But each round that does not end the loop follows a position for the first time, and there
are only as many as there are children, and one.
-/

namespace GrammarFuzzing.Node

/-! ### The loop -/

/-- The positions that a round follows: all of them while copies are missing, and later those that
no round has followed since. -/
def followed (min count : Nat) (seen frontier : List Nat) : List Nat :=
  if count < min then frontier else frontier.filter fun p => !seen.contains p

/-- The positions where the repetition may stop, as known once a round has chosen what it
follows. -/
def stops (min count : Nat) (seen frontier : List Nat) : List Nat :=
  if count < min then seen else SortedSet.union seen (followed min count seen frontier)

/-- **The rounds of a repetition** from a number of copies, the positions where it may stop, and
the positions that its copies have reached. The last argument is what is found in the end. -/
inductive Rounds (step : Nat → List Nat) (min : Nat) (max : Option Nat) :
    Nat → List Nat → List Nat → List Nat → Prop
  /-- There is nothing to follow, or there may be no more copies. -/
  | last {count : Nat} {seen frontier : List Nat} :
    followed min count seen frontier = [] ∨ (∃ m, max = some m ∧ m ≤ count) →
      Rounds step min max count seen frontier (stops min count seen frontier)
  /-- One more copy at every position that is followed. -/
  | more {count : Nat} {seen frontier found : List Nat} :
    followed min count seen frontier ≠ [] → (∀ m, max = some m → count < m) →
      Rounds step min max (count + 1) (stops min count seen frontier)
        (advance step (followed min count seen frontier)) found →
          Rounds step min max count seen frontier found

variable {step : Nat → List Nat} {min count length : Nat} {max : Option Nat}
  {seen frontier : List Nat}

/-- **The loop has one outcome.** -/
theorem Rounds.unique {found found' : List Nat} (h : Rounds step min max count seen frontier found)
    (h' : Rounds step min max count seen frontier found') : found = found' := by
  induction h with
  | last hlast =>
    cases h' with
    | last => rfl
    | more hne hmax _ =>
      rcases hlast with hnil | ⟨m, hm, hle⟩
      · exact absurd hnil hne
      · exact absurd (hmax m hm) (Nat.not_lt_of_le hle)
  | more hne hmax _ ih =>
    cases h' with
    | last hlast =>
      rcases hlast with hnil | ⟨m, hm, hle⟩
      · exact absurd hnil hne
      · exact absurd (hmax m hm) (Nat.not_lt_of_le hle)
    | more _ _ hrest => exact ih hrest

/-! ### The loop ends -/

/-- The number of positions up to a length that have not been seen. -/
def unseen (length : Nat) (seen : List Nat) : Nat :=
  ((Finset.range (length + 1)).filter (· ∉ seen)).card

theorem unseen_le (length : Nat) (seen : List Nat) : unseen length seen ≤ length + 1 :=
  (Finset.card_filter_le _ _).trans_eq (Finset.card_range _)

/-- **Following a position for the first time** leaves fewer that have not been seen. -/
theorem unseen_union_lt {new : List Nat} {p : Nat} (hp : p ∈ new) (hseen : p ∉ seen)
    (hlength : p ≤ length) : unseen length (SortedSet.union seen new) < unseen length seen := by
  refine Finset.card_lt_card (Finset.ssubset_iff_of_subset ?_ |>.mpr ⟨p, ?_, ?_⟩)
  · intro q hq
    rw [Finset.mem_filter, SortedSet.mem_union] at hq
    exact Finset.mem_filter.mpr ⟨hq.1, fun h => hq.2 (Or.inl h)⟩
  · exact Finset.mem_filter.mpr ⟨Finset.mem_range.mpr (by omega), hseen⟩
  · rw [Finset.mem_filter, SortedSet.mem_union]
    exact fun h => h.2 (Or.inr hp)

/-- **With enough copies the loop goes on like the bounded one**, which may make as many rounds as
there may be more copies, or as there are positions left. -/
theorem exists_rounds_of_enough (hstep : ∀ p ≤ length, ∀ q ∈ step p, q ≤ length) :
    ∀ rounds count seen frontier, min ≤ count → (∀ p ∈ frontier, p ≤ length) →
      (∀ m, max = some m → m = count + rounds) → (max = none → unseen length seen ≤ rounds) →
        ∃ found, Rounds step min max count seen frontier found ∧
          ∀ q, q ∈ found ↔ q ∈ afterMore step rounds seen frontier := by
  intro rounds
  induction rounds with
  | zero =>
    intro count seen frontier hmin hfrontier hmax hunseen
    have hfollowed : followed min count seen frontier = frontier.filter fun p => !seen.contains p :=
      if_neg (Nat.not_lt_of_le hmin)
    refine ⟨_, .last ?_, fun q => ?_⟩
    · cases max with
      | some m => exact Or.inr ⟨m, rfl, (hmax m rfl).le⟩
      | none =>
        -- No position is left that could be new.
        refine Or.inl (List.eq_nil_iff_forall_not_mem.mpr fun p hp => ?_)
        rw [hfollowed, List.mem_filter] at hp
        have hseen : p ∉ seen := by simpa using hp.2
        exact absurd (unseen_union_lt hp.1 hseen (hfrontier p hp.1)) (by have := hunseen rfl; omega)
    · rw [stops, if_neg (Nat.not_lt_of_le hmin), hfollowed, afterMore, SortedSet.mem_union,
        SortedSet.mem_union, List.mem_filter]
      by_cases hq : q ∈ seen <;> simp [hq]
  | succ rounds ih =>
    intro count seen frontier hmin hfrontier hmax hunseen
    have hfollowed : followed min count seen frontier = frontier.filter fun p => !seen.contains p :=
      if_neg (Nat.not_lt_of_le hmin)
    have hstops : stops min count seen frontier =
        SortedSet.union seen (frontier.filter fun p => !seen.contains p) := by
      rw [stops, if_neg (Nat.not_lt_of_le hmin), hfollowed]
    by_cases hnil : (frontier.filter fun p => !seen.contains p) = []
    · refine ⟨_, .last (Or.inl (hfollowed.trans hnil)), fun q => ?_⟩
      rw [hstops, afterMore, hnil]
      rfl
    · obtain ⟨p, hp⟩ := List.exists_mem_of_ne_nil _ hnil
      have hnew : p ∈ frontier ∧ p ∉ seen := by simpa using hp
      have hfrontier' : ∀ q ∈ advance step (frontier.filter fun p => !seen.contains p),
          q ≤ length := by
        intro q hq
        obtain ⟨r, hr, hq⟩ := mem_advance.mp hq
        exact hstep r (hfrontier r (List.mem_of_mem_filter hr)) q hq
      have hunseen' : max = none →
          unseen length (SortedSet.union seen (frontier.filter fun p => !seen.contains p)) ≤
            rounds := by
        intro hnone
        have hlt := unseen_union_lt hp hnew.2 (hfrontier p hnew.1)
        have hle := hunseen hnone
        omega
      obtain ⟨found, hfound, hmem⟩ := ih (count + 1) _ _ (by omega) hfrontier'
        (fun m hm => by have := hmax m hm; omega) hunseen'
      refine ⟨found, .more ?_ (fun m hm => by have := hmax m hm; omega) ?_, fun q => ?_⟩
      · rwa [hfollowed]
      · rwa [hstops, hfollowed]
      · rw [hmem, afterMore]
        simp only [List.isEmpty_iff, hnil, if_false]

/-- **While copies are missing** the rounds add one after the other and leave nothing out. -/
theorem exists_rounds_of_missing (hstep : ∀ p ≤ length, ∀ q ∈ step p, q ≤ length) {rounds : Nat}
    (hmax : ∀ m, max = some m → m = min + rounds) (hnone : max = none → length + 1 ≤ rounds) :
    ∀ missing count frontier, count + missing = min → (∀ p ∈ frontier, p ≤ length) →
      ∃ found, Rounds step min max count [] frontier found ∧
        ∀ q, q ∈ found ↔ q ∈ afterMore step rounds [] (afterCopies step missing frontier) := by
  intro missing
  induction missing with
  | zero =>
    intro count frontier hcount hfrontier
    exact exists_rounds_of_enough hstep rounds count [] frontier (by omega) hfrontier
      (fun m hm => by have := hmax m hm; omega) fun h => (unseen_le length []).trans (hnone h)
  | succ missing ih =>
    intro count frontier hcount hfrontier
    have hfollowed : followed min count [] frontier = frontier := if_pos (by omega)
    have hstops : stops min count [] frontier = [] := if_pos (by omega)
    by_cases hnil : frontier = []
    · refine ⟨_, .last (Or.inl (hfollowed.trans hnil)), fun q => ?_⟩
      rw [hstops, mem_afterMore]
      simp [hnil, afterCopies]
    · have hfrontier' : ∀ q ∈ advance step frontier, q ≤ length := by
        intro q hq
        obtain ⟨p, hp, hq⟩ := mem_advance.mp hq
        exact hstep p (hfrontier p hp) q hq
      obtain ⟨found, hfound, hmem⟩ := ih (count + 1) _ (by omega) hfrontier'
      refine ⟨found, .more ?_ (fun m hm => by have := hmax m hm; omega) ?_, fun q => ?_⟩
      · rwa [hfollowed]
      · rwa [hstops, hfollowed]
      · rw [hmem, afterCopies]
        simp only [List.isEmpty_iff, hnil, if_false]

/-- **The loop ends, and finds the positions after copies between the bounds.** -/
theorem exists_rounds (hstep : ∀ p ≤ length, ∀ q ∈ step p, q ≤ length)
    (hbounds : ∀ m, max = some m → min ≤ m) {pos : Nat} (hpos : pos ≤ length) :
    ∃ found, Rounds step min max 0 [] [pos] found ∧
      ∀ q, q ∈ found ↔ q ∈ afterRepetition step length min max pos := by
  have hfrontier : ∀ p ∈ [pos], p ≤ length := by simpa using hpos
  cases max with
  | some m =>
    have hmost : ∀ k, some m = some k → k = min + (m - min) := by
      rintro k ⟨⟩
      exact (Nat.add_sub_cancel' (hbounds m rfl)).symm
    exact exists_rounds_of_missing hstep hmost (by simp) min 0 [pos] (Nat.zero_add min) hfrontier
  | none =>
    exact exists_rounds_of_missing hstep (by simp) (fun _ => Nat.le_refl _) min 0 [pos]
      (Nat.zero_add min) hfrontier

end GrammarFuzzing.Node
