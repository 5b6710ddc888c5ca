import GrammarFuzzing.Proofs.Parse.Chart
import Mathlib.Logic.Relation

/-!
# Reading without some goals

A search never looks for a goal inside itself at the same place. What it can find is therefore what
can be read without passing a goal that is **active**, one of those being looked for further out
(`GrammarFuzzing.FlatGrammar.Avoids`). This file compares that with reading at all.

* A derivation that passes a goal inside itself can be cut short, so making a goal active does not
  keep the goal itself from being read (`GrammarFuzzing.FlatGrammar.SpansAvoiding.cut`). This is why
  cutting cycles loses nothing, and why what failed inside a goal that failed has really failed.
* Active goals on longer stretches do not matter (`GrammarFuzzing.FlatGrammar.Reads.avoids`).
* Nor do active goals on an empty stretch, as long as no goal leads back to itself by productions
  that yield nothing (`GrammarFuzzing.FlatGrammar.Reads.avoids_of_below`).

In the last point tails of repetitions are exempt: a tail goes on to itself when what is repeated
yields nothing, but its first alternative is to stop, and then it never gets to the second.
-/

namespace GrammarFuzzing

/-- Whether the goal is what may follow the copies of a repetition made so far. -/
def Goal.isTail : Goal → Bool
  | .tail _ _ => true
  | _ => false

namespace FlatGrammar

variable {f : FlatGrammar} {input : Array UInt8} {active active' : Goal × Nat × Nat → Prop}

/-! ### Avoiding active goals -/

/-- **Atoms read a stretch without passing an active goal.** -/
inductive Avoids (f : FlatGrammar) (input : Array UInt8) (active : Goal × Nat × Nat → Prop) :
    List Atom → Nat → Nat → Prop
  | nil {i : Nat} : f.Avoids input active [] i i
  | literal {value : Literal} {rest : List Atom} {i j : Nat} :
    Chart.bytesAt input i value.toBytes = true →
      f.Avoids input active rest (i + value.toBytes.length) j →
        f.Avoids input active (.literal value :: rest) i j
  | goal {goal : Goal} {sender recipient : Option String} {atoms rest : List Atom} {i m j : Nat} :
    ¬ active (goal, i, m) → f.Alternative goal atoms → f.Avoids input active atoms i m →
      f.Avoids input active rest m j →
        f.Avoids input active (.goal goal sender recipient :: rest) i j

/-- An alternative of the goal reads the stretch without passing an active goal. -/
def SpansAvoiding (f : FlatGrammar) (input : Array UInt8) (active : Goal × Nat × Nat → Prop)
    (goal : Goal) (i j : Nat) : Prop :=
  ∃ atoms, f.Alternative goal atoms ∧ f.Avoids input active atoms i j

section Avoids

variable {atoms : List Atom} {goal : Goal} {i j : Nat}

theorem Avoids.reads (h : f.Avoids input active atoms i j) : f.Reads input atoms i j := by
  induction h with
  | nil => exact .nil
  | literal hbytes _ ih => exact .literal hbytes ih
  | goal _ halt _ _ ihatoms ihrest => exact .goal halt ihatoms ihrest

theorem SpansAvoiding.spans (h : f.SpansAvoiding input active goal i j) :
    f.Spans input goal i j := by
  obtain ⟨atoms, halt, hatoms⟩ := h
  exact ⟨atoms, halt, hatoms.reads⟩

theorem Avoids.mono (hactive : ∀ key, active' key → active key)
    (h : f.Avoids input active atoms i j) : f.Avoids input active' atoms i j := by
  induction h with
  | nil => exact .nil
  | literal hbytes _ ih => exact .literal hbytes ih
  | goal hgoal halt _ _ ihatoms ihrest =>
    exact .goal (fun h => hgoal (hactive _ h)) halt ihatoms ihrest

theorem avoids_cons_goal {sender recipient : Option String} {rest : List Atom} :
    f.Avoids input active (.goal goal sender recipient :: rest) i j ↔
      ∃ m, ¬ active (goal, i, m) ∧ f.SpansAvoiding input active goal i m ∧
        f.Avoids input active rest m j := by
  constructor
  · intro h
    cases h with
    | goal hgoal halt hatoms hrest => exact ⟨_, hgoal, ⟨_, halt, hatoms⟩, hrest⟩
  · rintro ⟨m, hgoal, ⟨atoms, halt, hatoms⟩, hrest⟩
    exact .goal hgoal halt hatoms hrest

/-- One more active goal. -/
def alsoActive (key : Goal × Nat × Nat) (active : Goal × Nat × Nat → Prop) :
    Goal × Nat × Nat → Prop :=
  fun key' => key' = key ∨ active key'

/-- A reading either avoids one more goal, or has a reading of that goal in it that avoids it. -/
theorem Avoids.or_spansAvoiding (key : Goal × Nat × Nat) (h : f.Avoids input active atoms i j) :
    f.Avoids input (alsoActive key active) atoms i j ∨
      f.SpansAvoiding input (alsoActive key active) key.1 key.2.1 key.2.2 := by
  induction h with
  | nil => exact Or.inl .nil
  | literal hbytes _ ih => exact ih.imp_left (.literal hbytes)
  | @goal goal _ _ atoms rest i m j hgoal halt _ _ ihatoms ihrest =>
    rcases ihatoms with hatoms | hspans
    · rcases ihrest with hrest | hspans
      · by_cases hkey : (goal, i, m) = key
        · -- The goal is read here without passing itself.
          subst hkey
          exact Or.inr ⟨atoms, halt, hatoms⟩
        · exact Or.inl (.goal (fun h => h.elim hkey hgoal) halt hatoms hrest)
      · exact Or.inr hspans
    · exact Or.inr hspans

/-- **A goal that can be read can be read without passing itself.** -/
theorem SpansAvoiding.cut (h : f.SpansAvoiding input active goal i j) :
    f.SpansAvoiding input (alsoActive (goal, i, j) active) goal i j := by
  obtain ⟨atoms, halt, hatoms⟩ := h
  rcases hatoms.or_spansAvoiding (goal, i, j) with hatoms | hspans
  · exact ⟨atoms, halt, hatoms⟩
  · exact hspans

/-- What can be read still can when a goal becomes active that cannot be read then. -/
theorem Avoids.of_not_spansAvoiding {key : Goal × Nat × Nat}
    (hkey : ¬ f.SpansAvoiding input (alsoActive key active) key.1 key.2.1 key.2.2)
    (h : f.Avoids input active atoms i j) : f.Avoids input (alsoActive key active) atoms i j :=
  (h.or_spansAvoiding key).resolve_right hkey

/-- **Active goals that do not fit into the stretch do not matter.** -/
theorem Reads.avoids (h : f.Reads input atoms i j)
    (hactive : ∀ goal a b, active (goal, a, b) → i ≤ a → b ≤ j → False) :
    f.Avoids input active atoms i j := by
  induction h with
  | nil => exact .nil
  | literal hbytes _ ih =>
    refine .literal hbytes (ih fun goal a b hkey ha hb => hactive goal a b hkey ?_ hb)
    omega
  | goal halt hatoms hrest ihatoms ihrest =>
    have hle := hatoms.le
    have hle' := hrest.le
    refine .goal (fun hkey => hactive _ _ _ hkey (Nat.le_refl _) hle') halt
      (ihatoms fun goal a b hkey ha hb => hactive goal a b hkey ha (by omega))
      (ihrest fun goal a b hkey ha hb => hactive goal a b hkey (by omega) hb)

theorem Spans.spansAvoiding (h : f.Spans input goal i j)
    (hactive : ∀ goal a b, active (goal, a, b) → i ≤ a → b ≤ j → False) :
    f.SpansAvoiding input active goal i j := by
  obtain ⟨atoms, halt, hatoms⟩ := h
  exact ⟨atoms, halt, hatoms.avoids hactive⟩

end Avoids

/-! ### Empty stretches -/

/-- **A goal lies below another**, not a tail, when it is part of an alternative of the other that
yields nothing. -/
def Below (f : FlatGrammar) (above goal : Goal) : Prop :=
  above.isTail = false ∧ ∃ atoms, f.Alternative above atoms ∧ f.Yields atoms [] ∧
    ∃ sender recipient, Atom.goal goal sender recipient ∈ atoms

/-- No goal leads back to itself by productions that yield nothing. -/
def Loopless (f : FlatGrammar) : Prop :=
  ∀ goal, ¬ Relation.TransGen f.Below goal goal

/-- **A scope for searches**: goals on stretches of the input, among them all goals in readings of
those, and on empty stretches none that leads back to itself. -/
structure Scope (f : FlatGrammar) (input : Array UInt8) (scope : Goal → Nat → Nat → Prop) :
    Prop where
  part : ∀ {above goal : Goal} {sender recipient : Option String} {before after : List Atom}
    {i a b j : Nat}, scope above i j →
      f.Alternative above (before ++ .goal goal sender recipient :: after) →
      f.Reads input before i a → f.Spans input goal a b → f.Reads input after b j → scope goal a b
  loopless : ∀ {goal : Goal} {i : Nat}, scope goal i i → ¬ Relation.TransGen f.Below goal goal

/-- Without loops everything is in scope. -/
theorem Loopless.scope (h : f.Loopless) (input : Array UInt8) :
    f.Scope input fun _ _ _ => True :=
  ⟨fun _ _ _ _ _ => trivial, fun _ => h _⟩

/-- The first alternative of a tail is to stop. -/
def TailsStop (f : FlatGrammar) : Prop :=
  ∀ goal k ks, goal.isTail = true → f.productionsOf goal = k :: ks → f.atomsOf? k = some []

theorem TailsStop.alternative (htails : f.TailsStop) (hf : f.Listed) {goal : Goal}
    (hgoal : goal.isTail = true) {atoms : List Atom} (halt : f.Alternative goal atoms) :
    f.Alternative goal [] := by
  obtain ⟨k, hk, -⟩ := hf.alternative_iff.mp halt
  cases hks : f.productionsOf goal with
  | nil =>
    rw [hks] at hk
    exact absurd hk List.not_mem_nil
  | cons k' ks =>
    exact hf.alternative_iff.mpr ⟨k', hks ▸ List.mem_cons_self, htails goal k' ks hgoal hks⟩

theorem reads_self {atoms : List Atom} {i : Nat} :
    f.Reads input atoms i i ↔ f.Yields atoms [] := by
  rw [reads_iff]
  constructor
  · rintro ⟨w, hw, -, hlength⟩
    rwa [List.eq_nil_of_length_eq_zero (by omega : w.length = 0)] at hw
  · exact fun h => ⟨[], h, rfl, rfl⟩

/-- **Active goals from which all goals of the atoms are reached do not matter** on an empty
stretch: to pass one of them would close a loop. -/
theorem Reads.avoids_of_below (htails : f.TailsStop) (hf : f.Listed) {atoms : List Atom} {i j : Nat}
    (h : f.Reads input atoms i j) (hij : i = j)
    (hloop : ∀ above a, active (above, a, a) → ¬ Relation.TransGen f.Below above above)
    (hactive : ∀ above, active (above, i, i) → ∀ goal sender recipient,
      Atom.goal goal sender recipient ∈ atoms → Relation.TransGen f.Below above goal) :
    f.Avoids input active atoms i j := by
  -- The reading is followed atom by atom, and into an alternative only if the goal is not a tail.
  induction h with
  | nil => exact .nil
  | @literal value rest i j hbytes hrest ih =>
    obtain hlength : value.toBytes.length = 0 := by
      have := hrest.le
      omega
    refine .literal hbytes (ih (by omega) fun above habove goal sender recipient hgoal => ?_)
    rw [hlength, Nat.add_zero] at habove
    exact hactive above habove goal sender recipient (List.mem_cons_of_mem _ hgoal)
  | @goal goal sender recipient atoms rest i m j halt hatoms hrest ihatoms ihrest =>
    obtain rfl : m = i := by
      have := hatoms.le
      have := hrest.le
      omega
    have hbelow : ∀ above, active (above, m, m) → Relation.TransGen f.Below above goal :=
      fun above habove => hactive above habove goal sender recipient List.mem_cons_self
    have hgoal : ¬ active (goal, m, m) := fun hkey =>
      hloop goal m hkey (hbelow goal hkey)
    have hrest' := ihrest hij fun above habove goal sender recipient hgoal =>
      hactive above habove goal sender recipient (List.mem_cons_of_mem _ hgoal)
    cases htail : goal.isTail with
    | true => exact .goal hgoal (htails.alternative hf htail halt) .nil hrest'
    | false =>
      refine .goal hgoal halt (ihatoms rfl fun above habove goal' sender' recipient' hgoal' => ?_)
        hrest'
      exact (hbelow above habove).tail
        ⟨htail, atoms, halt, reads_self.mp hatoms, sender', recipient', hgoal'⟩

end FlatGrammar

end GrammarFuzzing
