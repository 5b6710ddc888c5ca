import GrammarFuzzing.Parse.Search
import GrammarFuzzing.Proofs.Grammar.Validity
import GrammarFuzzing.Proofs.Parse.Flat
import Mathlib.Data.List.Perm.Subperm

/-!
# What flat productions derive

`GrammarFuzzing.FlatGrammar.Derives` relates atoms to the trees that they contribute: a literal is a
leaf, and a goal is wrapped around what one of its alternatives derives. It speaks of no input; what
a goal reads is what the trees render as (`GrammarFuzzing.FlatGrammar.Yields`), and where the input
can be cut between two leaves is told by their literals (`GrammarFuzzing.FlatGrammar.Lists`). Charts
and searches are measured against it.

The nullable goals are those that yield nothing (`GrammarFuzzing.FlatGrammar.nullable_of_iff`). They
are found in rounds, and a round that leaves the number of goals as it was has found all of them:
one round more would not add any either. There are no more rounds than goals, since each but the
last adds one.
-/

namespace GrammarFuzzing

@[simp] theorem Search.listToBytes_wrap (goal : Goal) (sender recipient : Option String)
    (cs : List Tree) :
    Tree.listToBytes (Search.wrap goal sender recipient cs) = Tree.listToBytes cs := by
  cases goal <;> simp [Search.wrap, Tree.toBytes, Symbol.toBytes, Symbol.named]

@[simp] theorem Search.listLiterals_wrap (goal : Goal) (sender recipient : Option String)
    (cs : List Tree) :
    Tree.listLiterals (Search.wrap goal sender recipient cs) = Tree.listLiterals cs := by
  cases goal <;> simp [Search.wrap, Tree.literals, Symbol.literal?, Symbol.named]

namespace FlatGrammar

/-! ### Derivations -/

/-- **The trees that atoms derive.** -/
inductive Derives (f : FlatGrammar) : List Atom → List Tree → Prop
  | nil : f.Derives [] []
  | literal {value : Literal} {rest : List Atom} {ts : List Tree} :
    f.Derives rest ts → f.Derives (.literal value :: rest) (Tree.leaf value :: ts)
  | goal {goal : Goal} {sender recipient : Option String} {atoms rest : List Atom}
      {cs ts : List Tree} :
    f.Alternative goal atoms → f.Derives atoms cs → f.Derives rest ts →
      f.Derives (.goal goal sender recipient :: rest) (Search.wrap goal sender recipient cs ++ ts)

/-- Atoms derive trees that render as these bytes. -/
def Yields (f : FlatGrammar) (atoms : List Atom) (w : Bytes) : Prop :=
  ∃ ts, f.Derives atoms ts ∧ Tree.listToBytes ts = w

/-- **What a goal yields**: what one of its alternatives does. -/
def GoalYields (f : FlatGrammar) (goal : Goal) (w : Bytes) : Prop :=
  ∃ atoms, f.Alternative goal atoms ∧ f.Yields atoms w

/-- Atoms derive trees with these literals, from left to right. -/
def Lists (f : FlatGrammar) (atoms : List Atom) (vs : List Literal) : Prop :=
  ∃ ts, f.Derives atoms ts ∧ Tree.listLiterals ts = vs

/-- **What a goal lists**: the literals that one of its alternatives does. -/
def GoalLists (f : FlatGrammar) (goal : Goal) (vs : List Literal) : Prop :=
  ∃ atoms, f.Alternative goal atoms ∧ f.Lists atoms vs

section Derives

variable {f : FlatGrammar} {as bs : List Atom} {goal : Goal} {u w : Bytes} {us vs : List Literal}

theorem Derives.append {ts us : List Tree} (h₁ : f.Derives as ts) (h₂ : f.Derives bs us) :
    f.Derives (as ++ bs) (ts ++ us) := by
  induction h₁ with
  | nil => exact h₂
  | literal _ ih => exact .literal ih
  | goal halt hcs _ _ ih =>
    rw [List.cons_append, List.append_assoc]
    exact .goal halt hcs ih

theorem yields_nil : f.Yields [] [] :=
  ⟨[], .nil, rfl⟩

theorem yields_literal (value : Literal) : f.Yields [.literal value] value.toBytes :=
  ⟨_, .literal .nil, by simp⟩

theorem Yields.append (h₁ : f.Yields as u) (h₂ : f.Yields bs w) : f.Yields (as ++ bs) (u ++ w) := by
  obtain ⟨ts, hts, rfl⟩ := h₁
  obtain ⟨us, hus, rfl⟩ := h₂
  exact ⟨ts ++ us, hts.append hus, by simp⟩

theorem GoalYields.atom (h : f.GoalYields goal w) (sender recipient : Option String) :
    f.Yields [.goal goal sender recipient] w := by
  obtain ⟨atoms, halt, cs, hcs, rfl⟩ := h
  exact ⟨_, .goal halt hcs .nil, by simp⟩

theorem lists_nil : f.Lists [] [] :=
  ⟨[], .nil, Tree.listLiterals_nil⟩

theorem lists_literal (value : Literal) : f.Lists [.literal value] [value] :=
  ⟨_, .literal .nil, by simp⟩

theorem Lists.append (h₁ : f.Lists as us) (h₂ : f.Lists bs vs) :
    f.Lists (as ++ bs) (us ++ vs) := by
  obtain ⟨ts, hts, rfl⟩ := h₁
  obtain ⟨ts', hts', rfl⟩ := h₂
  exact ⟨ts ++ ts', hts.append hts', by simp⟩

theorem GoalLists.atom (h : f.GoalLists goal vs) (sender recipient : Option String) :
    f.Lists [.goal goal sender recipient] vs := by
  obtain ⟨atoms, halt, cs, hcs, rfl⟩ := h
  exact ⟨_, .goal halt hcs .nil, by simp⟩

/-- Trees with these literals render as the bytes of the literals. -/
theorem Lists.yields (h : f.Lists as vs) : f.Yields as (vs.flatMap Literal.toBytes) := by
  obtain ⟨ts, hts, rfl⟩ := h
  exact ⟨ts, hts, (Tree.flatMap_listLiterals ts).symm⟩

theorem GoalLists.goalYields (h : f.GoalLists goal vs) :
    f.GoalYields goal (vs.flatMap Literal.toBytes) := by
  obtain ⟨atoms, halt, hvs⟩ := h
  exact ⟨atoms, halt, hvs.yields⟩

theorem yields_cons_literal {value : Literal} :
    f.Yields (.literal value :: as) w ↔ ∃ v, w = value.toBytes ++ v ∧ f.Yields as v := by
  constructor
  · rintro ⟨ts, hts, rfl⟩
    cases hts with
    | @literal _ _ ts hts => exact ⟨_, by simp, ts, hts, rfl⟩
  · rintro ⟨v, rfl, hv⟩
    exact (yields_literal value).append hv

theorem yields_cons_goal {sender recipient : Option String} :
    f.Yields (.goal goal sender recipient :: as) w ↔
      ∃ u v, w = u ++ v ∧ f.GoalYields goal u ∧ f.Yields as v := by
  constructor
  · rintro ⟨ts, hts, rfl⟩
    cases hts with
    | @goal _ _ _ atoms _ cs ts halt hcs hts =>
      exact ⟨_, _, by simp, ⟨atoms, halt, cs, hcs, rfl⟩, ts, hts, rfl⟩
  · rintro ⟨u, v, rfl, hu, hv⟩
    exact (hu.atom sender recipient).append hv

end Derives

/-! ### Nullable goals -/

section Nullable

variable {f : FlatGrammar}

/-- One production of a round. -/
def nullableStep (s : Std.HashSet Goal) (p : Production) : Std.HashSet Goal :=
  if p.atoms.all (atomNullable s) then s.insert p.goal else s

theorem contains_nullableStep {s : Std.HashSet Goal} {p : Production} {goal : Goal} :
    (nullableStep s p).contains goal = true ↔
      s.contains goal = true ∨ p.goal = goal ∧ p.atoms.all (atomNullable s) = true := by
  rw [nullableStep]
  split
  · rename_i hall
    simp [Std.HashSet.contains_insert, hall, or_comm]
  · rename_i hall
    simp [hall]

/-- A step either adds a goal or changes nothing. -/
theorem size_nullableStep (s : Std.HashSet Goal) (p : Production) :
    s.size ≤ (nullableStep s p).size ∧ ((nullableStep s p).size = s.size →
      (p.atoms.all (atomNullable s) = true → s.contains p.goal = true)) := by
  rw [nullableStep]
  split
  · rename_i hall
    rw [Std.HashSet.size_insert]
    split
    · rename_i hmem
      exact ⟨Nat.le_refl _, fun _ _ => hmem⟩
    · exact ⟨Nat.le_succ _, fun h => absurd h (by omega)⟩
  · rename_i hall
    exact ⟨Nat.le_refl _, fun _ h => absurd h hall⟩

theorem atomNullable_congr {s t : Std.HashSet Goal}
    (h : ∀ goal, s.contains goal = t.contains goal) : atomNullable s = atomNullable t := by
  funext a
  cases a with
  | literal value => rfl
  | goal goal sender recipient => exact h goal

/-- **A round that adds no goal** has none to add. -/
theorem size_foldl_nullableStep (ps : List Production) (s : Std.HashSet Goal) :
    s.size ≤ (ps.foldl nullableStep s).size ∧ ((ps.foldl nullableStep s).size = s.size →
      ∀ p ∈ ps, p.atoms.all (atomNullable s) = true → s.contains p.goal = true) := by
  induction ps generalizing s with
  | nil => exact ⟨Nat.le_refl _, by simp⟩
  | cons p ps ih =>
    obtain ⟨hstep, hsame⟩ := size_nullableStep s p
    obtain ⟨hrest, hnone⟩ := ih (nullableStep s p)
    rw [List.foldl_cons]
    refine ⟨Nat.le_trans hstep hrest, fun hsize => ?_⟩
    have hp := hsame (by omega)
    -- The first step changed nothing, so the rest saw the same goals.
    have hcontains : ∀ goal, (nullableStep s p).contains goal = s.contains goal := by
      intro goal
      rw [Bool.eq_iff_iff, contains_nullableStep]
      refine ⟨fun h => h.elim id ?_, Or.inl⟩
      rintro ⟨rfl, hall⟩
      exact hp hall
    intro q hq hall
    rcases List.mem_cons.mp hq with rfl | hq
    · exact hp hall
    · rw [← hcontains]
      exact hnone (by omega) q hq (by rwa [atomNullable_congr hcontains])

/-- A property of goals that productions of such goals pass on holds of all nullable goals. -/
theorem contains_foldl_nullableStep {P : Goal → Prop} (ps : List Production)
    (hstep : ∀ (s : Std.HashSet Goal), (∀ goal, s.contains goal = true → P goal) → ∀ p ∈ ps,
      p.atoms.all (atomNullable s) = true → P p.goal)
    (s : Std.HashSet Goal) (hs : ∀ goal, s.contains goal = true → P goal) :
    ∀ goal, (ps.foldl nullableStep s).contains goal = true → P goal := by
  induction ps generalizing s with
  | nil => exact hs
  | cons p ps ih =>
    refine ih (fun s hs q hq => hstep s hs q (List.mem_cons_of_mem _ hq)) _ fun goal hgoal => ?_
    rcases contains_nullableStep.mp hgoal with hgoal | ⟨rfl, hall⟩
    · exact hs goal hgoal
    · exact hstep s hs p List.mem_cons_self hall

theorem nullableRound_eq (productions : Array Production) (s : Std.HashSet Goal) :
    nullableRound productions s = productions.toList.foldl nullableStep s := by
  rw [nullableRound, ← Array.foldl_toList]
  rfl

theorem contains_nullableGoals {P : Goal → Prop} {productions : Array Production}
    (hstep : ∀ (s : Std.HashSet Goal), (∀ goal, s.contains goal = true → P goal) →
      ∀ p ∈ productions.toList, p.atoms.all (atomNullable s) = true → P p.goal) :
    ∀ (rounds : Nat) (s : Std.HashSet Goal), (∀ goal, s.contains goal = true → P goal) →
      ∀ goal, (nullableGoals productions rounds s).contains goal = true → P goal
  | 0, s, hs => hs
  | rounds + 1, s, hs => by
    simp only [nullableGoals]
    split
    · exact hs
    · refine contains_nullableGoals hstep rounds _ fun goal hgoal => ?_
      rw [nullableRound_eq] at hgoal
      exact contains_foldl_nullableStep _ hstep s hs goal hgoal

/-- Goals of productions are no more than the goals with productions. -/
theorem size_le_of_contains (s : Std.HashSet Goal)
    (hs : ∀ goal, s.contains goal = true → f.ofGoal.contains goal = true) :
    s.size ≤ f.ofGoal.size := by
  have hnodup : s.toList.Nodup :=
    Std.HashSet.distinct_toList.imp fun h => by simpa using h
  have hsub : s.toList ⊆ f.ofGoal.keys := fun goal hgoal =>
    Std.HashMap.mem_keys.mpr (hs goal (Std.HashSet.mem_toList.mp hgoal))
  rw [← Std.HashSet.length_toList, ← Std.HashMap.length_keys]
  exact (List.subperm_of_subset hnodup hsub).length_le

/-- **After enough rounds nothing is missing.** -/
theorem nullableGoals_closed (hf : f.Listed) :
    ∀ (rounds : Nat) (s : Std.HashSet Goal),
      (∀ goal, s.contains goal = true → f.ofGoal.contains goal = true) →
      f.ofGoal.size < rounds + s.size → ∀ p ∈ f.productions.toList,
        p.atoms.all (atomNullable (nullableGoals f.productions rounds s)) = true →
          (nullableGoals f.productions rounds s).contains p.goal = true
  | 0, s, hs, hrounds => by
    have := size_le_of_contains s hs
    omega
  | rounds + 1, s, hs, hrounds => by
    obtain ⟨hle, hnone⟩ := size_foldl_nullableStep f.productions.toList s
    simp only [nullableGoals]
    split
    · -- The round added nothing, so it had nothing to add.
      rename_i hsize
      rw [nullableRound_eq] at hsize
      exact hnone hsize
    · -- The round added a goal, so one round less is enough for what is left.
      rename_i hsize
      rw [nullableRound_eq] at hsize ⊢
      refine nullableGoals_closed hf rounds _ ?_ (by omega)
      refine contains_foldl_nullableStep _ (fun s _ p hp _ => ?_) s hs
      obtain ⟨i, hi⟩ := Array.mem_iff_getElem?.mp (Array.mem_toList_iff.mp hp)
      exact hf.contains hi

theorem Derives.all_atomNullable {s : Std.HashSet Goal}
    (hs : ∀ p ∈ f.productions.toList, p.atoms.all (atomNullable s) = true →
      s.contains p.goal = true)
    {atoms : List Atom} {ts : List Tree} (h : f.Derives atoms ts) (hts : Tree.listToBytes ts = []) :
    atoms.all (atomNullable s) = true := by
  induction h with
  | nil => rfl
  | literal _ ih =>
    rw [Tree.listToBytes_cons, List.append_eq_nil_iff] at hts
    rw [List.all_cons, ih hts.2, atomNullable, ← Tree.toBytes_leaf, hts.1]
    rfl
  | goal halt _ _ ihcs ihts =>
    rw [Tree.listToBytes_append, Search.listToBytes_wrap, List.append_eq_nil_iff] at hts
    obtain ⟨i, p, hp, rfl, rfl⟩ := halt
    have hall := ihcs hts.1
    rw [Array.all_toList] at hall
    rw [List.all_cons, ihts hts.2, atomNullable,
      hs p (Array.mem_toList_iff.mpr (Array.mem_of_getElem? hp)) hall]
    rfl

theorem yields_nil_of_all {s : Std.HashSet Goal}
    (hs : ∀ goal, s.contains goal = true → f.GoalYields goal []) {atoms : List Atom}
    (h : atoms.all (atomNullable s) = true) : f.Yields atoms [] := by
  induction atoms with
  | nil => exact yields_nil
  | cons a atoms ih =>
    rw [List.all_cons, Bool.and_eq_true] at h
    cases a with
    | literal value =>
      have hvalue := List.isEmpty_iff.mp h.1
      exact yields_cons_literal.mpr ⟨[], by rw [hvalue, List.nil_append], ih h.2⟩
    | goal goal sender recipient =>
      exact yields_cons_goal.mpr ⟨[], [], rfl, hs goal h.1, ih h.2⟩

/-- **The nullable goals of a grammar are those that yield nothing.** -/
theorem nullable_of_iff (g : Grammar) {goal : Goal} :
    (of g).nullable.contains goal = true ↔ (of g).GoalYields goal [] := by
  have hproductions : (of g).nullable =
      nullableGoals (of g).productions ((of g).ofGoal.size + 1) {} := rfl
  have hempty : ∀ (P : Goal → Prop) (goal : Goal),
      ({} : Std.HashSet Goal).contains goal = true → P goal := by
    intro P goal h
    exact absurd h (by simp)
  rw [hproductions]
  constructor
  · refine contains_nullableGoals (P := fun goal => (of g).GoalYields goal [])
      (fun s hs p hp hall => ?_) _ {} (hempty _) goal
    obtain ⟨i, hi⟩ := Array.mem_iff_getElem?.mp (Array.mem_toList_iff.mp hp)
    rw [← Array.all_toList] at hall
    exact ⟨_, ⟨i, p, hi, rfl, rfl⟩, yields_nil_of_all hs hall⟩
  · rintro ⟨-, ⟨i, p, hp, rfl, rfl⟩, ts, hts, hnil⟩
    have hclosed := nullableGoals_closed (listed_of g) ((of g).ofGoal.size + 1) {} (hempty _)
      (by omega)
    refine hclosed p (Array.mem_toList_iff.mpr (Array.mem_of_getElem? hp)) ?_
    rw [← Array.all_toList]
    exact hts.all_atomNullable hclosed hnil

end Nullable

end FlatGrammar

end GrammarFuzzing
