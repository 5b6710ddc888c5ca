import GrammarFuzzing.Proofs.Parse.Derivation

/-!
# Stretches of an input that atoms read

`GrammarFuzzing.FlatGrammar.Reads` is yielding with positions: atoms read the input from one
position to another. It is what the items of a chart and the calls of a search speak of. Atoms read
a stretch exactly when they yield the bytes on it (`GrammarFuzzing.FlatGrammar.reads_iff`), so a
goal spans the whole input exactly when it yields the input
(`GrammarFuzzing.FlatGrammar.spans_all`), and an empty stretch, wherever it is, exactly when it
yields nothing (`GrammarFuzzing.FlatGrammar.spans_self`).
-/

namespace GrammarFuzzing

/-! ### Bytes at a position -/

namespace Chart

variable {input : Array UInt8} {i : Nat} {u w : Bytes}

theorem bytesAt_append :
    bytesAt input i (u ++ w) = (bytesAt input i u && bytesAt input (i + u.length) w) := by
  induction u generalizing i with
  | nil => simp [bytesAt]
  | cons b u ih =>
    rw [List.cons_append, bytesAt, bytesAt, ih, Bool.and_assoc, List.length_cons,
      Nat.add_right_comm, Nat.add_assoc]

theorem add_length_le_of_bytesAt (h : bytesAt input i w = true) (hi : i ≤ input.size) :
    i + w.length ≤ input.size := by
  induction w generalizing i with
  | nil => exact hi
  | cons b w ih =>
    rw [bytesAt, Bool.and_eq_true, decide_eq_true_iff] at h
    obtain ⟨hlt, -⟩ := Array.getElem?_eq_some_iff.mp h.1
    have hw := ih h.2 hlt
    rw [List.length_cons]
    omega

theorem bytesAt_iff_starts : bytesAt input i w = true ↔ w <+: input.toList.drop i := by
  induction w generalizing i with
  | nil => simp [bytesAt]
  | cons b w ih =>
    rw [bytesAt, Bool.and_eq_true, ih, decide_eq_true_iff, ← Array.getElem?_toList]
    constructor
    · rintro ⟨hb, hw⟩
      obtain ⟨hlt, rfl⟩ := List.getElem?_eq_some_iff.mp hb
      rw [List.drop_eq_getElem_cons hlt]
      exact (List.prefix_cons_inj _).mpr hw
    · intro h
      have hlt : i < input.toList.length := by
        have := h.length_le
        rw [List.length_cons, List.length_drop] at this
        omega
      rw [List.drop_eq_getElem_cons hlt, List.cons_prefix_cons] at h
      exact ⟨by rw [List.getElem?_eq_getElem hlt, h.1], h.2⟩

/-- What is left of the input begins with the bytes that stand there. -/
theorem append_drop_of_bytesAt (h : bytesAt input i w = true) :
    w ++ input.toList.drop (i + w.length) = input.toList.drop i := by
  obtain ⟨v, hv⟩ := bytesAt_iff_starts.mp h
  rw [← hv, ← List.drop_drop, ← hv, List.drop_left]

/-- What stands on the whole input is the input. -/
theorem bytesAt_zero_iff : bytesAt input 0 w = true ∧ w.length = input.size ↔ w = input.toList := by
  rw [bytesAt_iff_starts, List.drop_zero, ← Array.length_toList]
  constructor
  · rintro ⟨hstarts, hlength⟩
    exact hstarts.eq_of_length hlength
  · rintro rfl
    exact ⟨List.prefix_refl _, rfl⟩

end Chart

/-! ### Reading -/

namespace FlatGrammar

/-- **Atoms read the input from one position to another.** -/
inductive Reads (f : FlatGrammar) (input : Array UInt8) : List Atom → Nat → Nat → Prop
  | nil {i : Nat} : f.Reads input [] i i
  | literal {value : Literal} {rest : List Atom} {i j : Nat} :
    Chart.bytesAt input i value.toBytes = true →
      f.Reads input rest (i + value.toBytes.length) j → f.Reads input (.literal value :: rest) i j
  | goal {goal : Goal} {sender recipient : Option String} {atoms rest : List Atom} {i m j : Nat} :
    f.Alternative goal atoms → f.Reads input atoms i m → f.Reads input rest m j →
      f.Reads input (.goal goal sender recipient :: rest) i j

/-- **A goal spans the stretch between two positions**: one of its alternatives reads it. -/
def Spans (f : FlatGrammar) (input : Array UInt8) (goal : Goal) (i j : Nat) : Prop :=
  ∃ atoms, f.Alternative goal atoms ∧ f.Reads input atoms i j

section Reads

variable {f : FlatGrammar} {input : Array UInt8} {as bs : List Atom} {goal : Goal} {i j k : Nat}

theorem Reads.append (h₁ : f.Reads input as i j) (h₂ : f.Reads input bs j k) :
    f.Reads input (as ++ bs) i k := by
  induction h₁ with
  | nil => exact h₂
  | literal hbytes _ ih => exact .literal hbytes (ih h₂)
  | goal halt hatoms _ _ ih => exact .goal halt hatoms (ih h₂)

theorem Reads.le (h : f.Reads input as i j) : i ≤ j := by
  induction h with
  | nil => exact Nat.le_refl _
  | literal _ _ ih => omega
  | goal _ _ _ ih₁ ih₂ => omega

theorem Reads.le_size (h : f.Reads input as i j) (hi : i ≤ input.size) : j ≤ input.size := by
  induction h with
  | nil => exact hi
  | literal hbytes _ ih => exact ih (Chart.add_length_le_of_bytesAt hbytes hi)
  | goal _ _ _ ih₁ ih₂ => exact ih₂ (ih₁ hi)

theorem Spans.le (h : f.Spans input goal i j) : i ≤ j := by
  obtain ⟨atoms, -, hreads⟩ := h
  exact hreads.le

theorem Spans.le_size (h : f.Spans input goal i j) (hi : i ≤ input.size) : j ≤ input.size := by
  obtain ⟨atoms, -, hreads⟩ := h
  exact hreads.le_size hi

theorem reads_cons_goal {sender recipient : Option String} :
    f.Reads input (.goal goal sender recipient :: as) i k ↔
      ∃ j, f.Spans input goal i j ∧ f.Reads input as j k := by
  constructor
  · intro h
    cases h with
    | goal halt hatoms hrest => exact ⟨_, ⟨_, halt, hatoms⟩, hrest⟩
  · rintro ⟨j, ⟨atoms, halt, hatoms⟩, hrest⟩
    exact .goal halt hatoms hrest

/-- What derived trees render as stands where the atoms read it. -/
theorem Derives.reads {ts : List Tree} (h : f.Derives as ts)
    (hbytes : Chart.bytesAt input i (Tree.listToBytes ts) = true) :
    f.Reads input as i (i + (Tree.listToBytes ts).length) := by
  induction h generalizing i with
  | nil => exact .nil
  | literal _ ih =>
    rw [Tree.listToBytes_cons, Tree.toBytes_leaf, Chart.bytesAt_append, Bool.and_eq_true] at hbytes
    rw [Tree.listToBytes_cons, Tree.toBytes_leaf, List.length_append, ← Nat.add_assoc]
    exact .literal hbytes.1 (ih hbytes.2)
  | goal halt _ _ ihcs ihts =>
    rw [Tree.listToBytes_append, Search.listToBytes_wrap, Chart.bytesAt_append,
      Bool.and_eq_true] at hbytes
    rw [Tree.listToBytes_append, Search.listToBytes_wrap, List.length_append, ← Nat.add_assoc]
    exact .goal halt (ihcs hbytes.1) (ihts hbytes.2)

/-- **Atoms read a stretch exactly when they yield the bytes on it.** -/
theorem reads_iff : f.Reads input as i j ↔
    ∃ w, f.Yields as w ∧ Chart.bytesAt input i w = true ∧ j = i + w.length := by
  constructor
  · intro h
    induction h with
    | nil => exact ⟨[], yields_nil, rfl, rfl⟩
    | @literal value rest i j hbytes _ ih =>
      obtain ⟨w, hw, hbytes', rfl⟩ := ih
      refine ⟨_, yields_cons_literal.mpr ⟨w, rfl, hw⟩, ?_, ?_⟩
      · rw [Chart.bytesAt_append, hbytes, hbytes']
        rfl
      · rw [List.length_append, Nat.add_assoc]
    | goal halt _ _ ihatoms ihrest =>
      obtain ⟨u, hu, hbytes, rfl⟩ := ihatoms
      obtain ⟨w, hw, hbytes', rfl⟩ := ihrest
      refine ⟨_, yields_cons_goal.mpr ⟨u, w, rfl, ⟨_, halt, hu⟩, hw⟩, ?_, ?_⟩
      · rw [Chart.bytesAt_append, hbytes, hbytes']
        rfl
      · rw [List.length_append, Nat.add_assoc]
  · rintro ⟨-, ⟨ts, hts, rfl⟩, hbytes, rfl⟩
    exact hts.reads hbytes

theorem spans_iff : f.Spans input goal i j ↔
    ∃ w, f.GoalYields goal w ∧ Chart.bytesAt input i w = true ∧ j = i + w.length := by
  simp only [Spans, reads_iff, GoalYields]
  constructor
  · rintro ⟨atoms, halt, w, hw, hbytes, hj⟩
    exact ⟨w, ⟨atoms, halt, hw⟩, hbytes, hj⟩
  · rintro ⟨w, ⟨atoms, halt, hw⟩, hbytes, hj⟩
    exact ⟨atoms, halt, w, hw, hbytes, hj⟩

/-- **A goal spans the whole input exactly when it yields it.** -/
theorem spans_all : f.Spans input goal 0 input.size ↔ f.GoalYields goal input.toList := by
  rw [spans_iff]
  constructor
  · rintro ⟨w, hw, hbytes, hlength⟩
    rwa [← Chart.bytesAt_zero_iff.mp ⟨hbytes, by omega⟩]
  · intro h
    have hinput : input.toList = input.toList := rfl
    obtain ⟨hbytes, hlength⟩ := Chart.bytesAt_zero_iff.mpr hinput
    exact ⟨_, h, hbytes, by omega⟩

/-- **A goal spans an empty stretch exactly when it yields nothing.** -/
theorem spans_self : f.Spans input goal i i ↔ f.GoalYields goal [] := by
  rw [spans_iff]
  constructor
  · rintro ⟨w, hw, -, hlength⟩
    rwa [List.eq_nil_of_length_eq_zero (by omega : w.length = 0)] at hw
  · exact fun h => ⟨[], h, rfl, rfl⟩

end Reads

end FlatGrammar

end GrammarFuzzing
