import GrammarFuzzing.Proofs.Parse.Recognition

/-!
# What a search finds

Searches are put together from a few combinators, and what is shown of a search is shown of each
combinator first: how it runs (`GrammarFuzzing.Search.run_before` and the like), and what it ensures
of its result (`GrammarFuzzing.Search.Ensures`). A search ensures a property when whatever it finds,
in whatever state it starts, has the property. Memories and active goals only make a search fail, so
they play no part in this file.

Whatever is found for atoms between two positions is derived from the atoms and renders as the bytes
between them (`GrammarFuzzing.Search.ensures_atomsChildren`). So parsing gives an annotated tree
that renders as the input, and removes the parties inside its messages
(`GrammarFuzzing.Grammar.WellFormed.parse_annotated`). The result is valid
(`GrammarFuzzing.Document.parse_complete_sound`).
-/

namespace GrammarFuzzing

namespace Search

/-! ### Runs -/

section Run

variable {α : Type} {search head tail : Search} {s : SearchState}

@[simp] theorem run_none : (return none : Search).run s = (none, s) := rfl

@[simp] theorem run_some (ts : List Tree) : (return some ts : Search).run s = (some ts, s) := rfl

theorem run_otherwise (next : Search) :
    (otherwise search next).run s =
      match search.run s with
      | (some ts, s') => (some ts, s')
      | (none, s') => next.run s' := by
  rw [otherwise, StateT.run_bind]
  rcases search.run s with ⟨_ | ts, s'⟩ <;> rfl

theorem run_first_cons (f : α → Search) (a : α) (rest : List α) :
    (first f (a :: rest)).run s =
      match (f a).run s with
      | (some ts, s') => (some ts, s')
      | (none, s') => (first f rest).run s' :=
  run_otherwise _

theorem run_guarded (hopeless : SearchState → Bool) :
    (guarded hopeless search).run s =
      if hopeless s = true then (none, s) else search.run s := by
  change (if hopeless s = true then (return none : Search) else search).run s = _
  split <;> rfl

theorem run_noting (note : SearchState → SearchState) :
    (noting note search).run s =
      match search.run s with
      | (some ts, s') => (some ts, s')
      | (none, s') => (none, note s') := by
  rw [noting, StateT.run_bind]
  rcases search.run s with ⟨_ | ts, s'⟩ <;> rfl

theorem run_during (enter leave : SearchState → SearchState) :
    (during enter leave search).run s =
      ((search.run (enter s)).1, leave (search.run (enter s)).2) := rfl

theorem run_before :
    (before head tail).run s =
      match tail.run s with
      | (none, s') => (none, s')
      | (some after, s') => ((head.run s').1.map (· ++ after), (head.run s').2) := by
  rw [before, StateT.run_bind]
  rcases tail.run s with ⟨_ | ts, s'⟩ <;> rfl

theorem run_wrapped (goal : Goal) (sender recipient : Option String) :
    (wrapped goal sender recipient search).run s =
      ((search.run s).1.map (wrap goal sender recipient), (search.run s).2) := rfl

end Run

/-! ### What searches ensure -/

/-- **Whatever the search finds has the property.** -/
def Ensures (search : Search) (P : List Tree → Prop) : Prop :=
  ∀ s ts, (search.run s).1 = some ts → P ts

section Ensures

variable {α : Type} {search head tail : Search} {P Q : List Tree → Prop}

theorem ensures_none : Ensures (return none) P :=
  fun _ _ h => absurd h (by simp)

theorem ensures_some {ts : List Tree} (h : P ts) : Ensures (return some ts) P := by
  intro s us hus
  obtain rfl := Option.some.inj hus
  exact h

theorem ensures_otherwise {next : Search} (h : Ensures search P) (hnext : Ensures next P) :
    Ensures (otherwise search next) P := by
  intro s ts hts
  rw [run_otherwise] at hts
  have hs := h s
  rcases hrun : search.run s with ⟨_ | us, s'⟩
  · rw [hrun] at hts
    exact hnext s' ts hts
  · rw [hrun] at hts hs
    exact hs ts hts

theorem ensures_first {f : α → Search} {as : List α} (h : ∀ a ∈ as, Ensures (f a) P) :
    Ensures (first f as) P := by
  induction as with
  | nil => exact ensures_none
  | cons a as ih =>
    intro s ts hts
    rw [run_first_cons] at hts
    have ha := h a List.mem_cons_self s
    rcases hrun : (f a).run s with ⟨_ | us, s'⟩
    · rw [hrun] at hts
      exact ih (fun b hb => h b (List.mem_cons_of_mem _ hb)) s' ts hts
    · rw [hrun] at hts ha
      exact ha ts hts

theorem Ensures.guarded (h : Ensures search P) (hopeless : SearchState → Bool) :
    Ensures (guarded hopeless search) P := by
  intro s ts hts
  rw [run_guarded] at hts
  split at hts
  · exact absurd hts (by simp)
  · exact h s ts hts

theorem Ensures.noting (h : Ensures search P) (note : SearchState → SearchState) :
    Ensures (noting note search) P := by
  intro s ts hts
  have hs := h s
  rw [run_noting] at hts
  rcases hrun : search.run s with ⟨_ | us, s'⟩
  · rw [hrun] at hts
    exact absurd hts (by simp)
  · rw [hrun] at hts hs
    exact hs ts hts

theorem Ensures.during (h : Ensures search P) (enter leave : SearchState → SearchState) :
    Ensures (during enter leave search) P :=
  fun s ts hts => h (enter s) ts hts

theorem ensures_before (hhead : Ensures head P) (htail : Ensures tail Q) :
    Ensures (before head tail) fun ts => ∃ cs us, ts = cs ++ us ∧ P cs ∧ Q us := by
  intro s ts hts
  rw [run_before] at hts
  have hs := htail s
  rcases hrun : tail.run s with ⟨_ | us, s'⟩
  · rw [hrun] at hts
    exact absurd hts (by simp)
  · rw [hrun] at hts hs
    obtain ⟨cs, hcs, rfl⟩ := Option.map_eq_some_iff.mp hts
    exact ⟨cs, us, rfl, hhead s' cs hcs, hs us rfl⟩

theorem Ensures.wrapped (h : Ensures search P) (goal : Goal) (sender recipient : Option String) :
    Ensures (wrapped goal sender recipient search) fun ts =>
      ∃ cs, ts = wrap goal sender recipient cs ∧ P cs := by
  intro s ts hts
  obtain ⟨cs, hcs, rfl⟩ := Option.map_eq_some_iff.mp hts
  exact ⟨cs, rfl, h s cs hcs⟩

theorem Ensures.mono (h : Ensures search P) (hPQ : ∀ ts, P ts → Q ts) : Ensures search Q :=
  fun s ts hts => hPQ ts (h s ts hts)

end Ensures

/-! ### Trees found between two positions -/

variable {f : FlatGrammar} {chart : Chart} {input : Array UInt8}

/-- **Trees that atoms derive and that render as the bytes between two positions.** -/
structure Builds (f : FlatGrammar) (input : Array UInt8) (atoms : List Atom) (i j : Nat)
    (ts : List Tree) : Prop where
  derives : f.Derives atoms ts
  bytes : Chart.bytesAt input i (Tree.listToBytes ts) = true
  stop : j = i + (Tree.listToBytes ts).length

/-- Children that one of the alternatives of a goal builds. -/
def GoalBuilds (f : FlatGrammar) (input : Array UInt8) (goal : Goal) (i j : Nat)
    (ts : List Tree) : Prop :=
  ∃ atoms, f.Alternative goal atoms ∧ Builds f input atoms i j ts

theorem Builds.reads {atoms : List Atom} {i j : Nat} {ts : List Tree}
    (h : Builds f input atoms i j ts) : f.Reads input atoms i j :=
  h.stop ▸ h.derives.reads h.bytes

theorem Builds.literal {value : Literal} {rest : List Atom} {i j : Nat} {ts : List Tree}
    (hvalue : Chart.bytesAt input i value.toBytes = true)
    (h : Builds f input rest (i + value.toBytes.length) j ts) :
    Builds f input (.literal value :: rest) i j (Tree.leaf value :: ts) := by
  refine ⟨.literal h.derives, ?_, ?_⟩
  · rw [Tree.listToBytes_cons, Tree.toBytes_leaf, Chart.bytesAt_append, hvalue, h.bytes]
    rfl
  · rw [Tree.listToBytes_cons, Tree.toBytes_leaf, List.length_append, ← Nat.add_assoc]
    exact h.stop

theorem Builds.goal {goal : Goal} {sender recipient : Option String} {rest : List Atom}
    {i m j : Nat} {cs ts : List Tree} (hcs : GoalBuilds f input goal i m cs)
    (h : Builds f input rest m j ts) :
    Builds f input (.goal goal sender recipient :: rest) i j
      (wrap goal sender recipient cs ++ ts) := by
  obtain ⟨atoms, halt, hcs⟩ := hcs
  refine ⟨.goal halt hcs.derives h.derives, ?_, ?_⟩
  · rw [Tree.listToBytes_append, listToBytes_wrap, Chart.bytesAt_append, hcs.bytes, ← hcs.stop,
      h.bytes]
    rfl
  · rw [Tree.listToBytes_append, listToBytes_wrap, List.length_append, ← Nat.add_assoc, ← hcs.stop]
    exact h.stop

theorem Builds.append {as bs : List Atom} {i m j : Nat} {ts us : List Tree}
    (h₁ : Builds f input as i m ts) (h₂ : Builds f input bs m j us) :
    Builds f input (as ++ bs) i j (ts ++ us) := by
  refine ⟨h₁.derives.append h₂.derives, ?_, ?_⟩
  · rw [Tree.listToBytes_append, Chart.bytesAt_append, h₁.bytes, ← h₁.stop, h₂.bytes]
    rfl
  · rw [Tree.listToBytes_append, List.length_append, ← Nat.add_assoc, ← h₁.stop]
    exact h₂.stop

/-- What atoms read they also build. -/
theorem exists_builds {atoms : List Atom} {i j : Nat} (h : f.Reads input atoms i j) :
    ∃ ts, Builds f input atoms i j ts := by
  obtain ⟨-, ⟨ts, hts, rfl⟩, hbytes, hstop⟩ := FlatGrammar.reads_iff.mp h
  exact ⟨ts, hts, hbytes, hstop⟩

theorem ensures_alternatives {P : Nat → Production → List Tree → Prop}
    {atoms : Nat → Production → Search} (h : ∀ k p, Ensures (atoms k p) (P k p)) (goal : Goal) :
    Ensures (alternatives f atoms goal) fun ts =>
      ∃ k ∈ f.productionsOf goal, ∃ p, f.productions[k]? = some p ∧ P k p ts := by
  refine ensures_first fun k hk => ?_
  split
  · exact ensures_none
  · rename_i p hp
    exact (h k p).mono fun ts hts => ⟨k, hk, p, hp, hts⟩

/-- **What is found for atoms is built from them**, if the same holds of goals. -/
theorem ensures_atomsChildren {child : Goal → Nat → Nat → Search}
    (hchild : ∀ goal i j, Ensures (child goal i j) (GoalBuilds f input goal i j)) (k : Nat) :
    ∀ (atoms : List Atom) (dot i j : Nat),
      Ensures (atomsChildren chart input child k atoms dot i j) (Builds f input atoms i j)
  | [], dot, i, j => by
    rw [atomsChildren]
    split
    · rename_i hij
      exact ensures_some ⟨.nil, rfl, hij.symm⟩
    · exact ensures_none
  | .literal value :: rest, dot, i, j => by
    rw [atomsChildren]
    refine (Ensures.noting ?_ _).guarded _
    simp only
    split
    · rename_i hvalue
      rw [Bool.and_eq_true] at hvalue
      have hleaf : Ensures (return some [Tree.leaf value]) (fun ts => ts = [Tree.leaf value]) :=
        ensures_some rfl
      refine (ensures_before hleaf (ensures_atomsChildren hchild k rest _ _ _)).mono ?_
      rintro ts ⟨cs, us, rfl, rfl, hus⟩
      exact Builds.literal hvalue.2 hus
    · exact ensures_none
  | .goal goal sender recipient :: rest, dot, i, j => by
    rw [atomsChildren]
    refine (Ensures.noting (ensures_first fun m _ => ?_) _).guarded _
    refine (ensures_before ((hchild goal i m).wrapped goal sender recipient)
      (ensures_atomsChildren hchild k rest _ _ _)).mono ?_
    rintro ts ⟨ds, us, rfl, ⟨cs, rfl, hcs⟩, hus⟩
    exact Builds.goal hcs hus

/-- **What is found for a goal is built by one of its alternatives.** -/
theorem ensures_goalChildren (hf : f.Listed) : ∀ (depth : Nat) (goal : Goal) (i j : Nat),
    Ensures (goalChildren f chart input depth goal i j) (GoalBuilds f input goal i j)
  | 0, _, _, _ => ensures_none
  | depth + 1, goal, i, j => by
    rw [goalChildren]
    refine (Ensures.noting (Ensures.during ?_ _ _) _).guarded _
    refine (ensures_alternatives (fun k p =>
      ensures_atomsChildren (ensures_goalChildren hf depth) k p.atoms.toList 0 i j) goal).mono ?_
    rintro ts ⟨k, hk, p, hp, hts⟩
    obtain ⟨p', hp', rfl⟩ := (hf k goal).mp hk
    obtain rfl := Option.some.inj (hp.symm.trans hp')
    exact ⟨_, ⟨k, p, hp, rfl, rfl⟩, hts⟩

end Search

/-! ### Parsed trees -/

namespace Grammar

variable {g : Grammar} {s : String}

/-- What parsing returns is the root over the children that are found, its nested parties
removed. -/
theorem parse_eq_ok (hbare : g.BareNames) (hs : s ∈ g.rules.keys) {w : Bytes} {mode : ParseMode}
    {t : Tree} : g.parse w s mode = .ok t ↔
      ∃ cs, (FlatGrammar.of g).children? (Chart.of (FlatGrammar.of g) w.toArray (.named s))
        w.toArray (.named s) mode = some cs ∧
          t = Tree.stripNestedParties ⟨.nonTerminal s, cs, [], none, none, false⟩ := by
  obtain ⟨hname, body, hbody⟩ := hbare.exists_body hs
  have hrule : g.rule s = .ok body := by rw [rule, hname, hbody]
  have hsymbol : Symbol.named s = .nonTerminal s := by rw [Symbol.named, hname]
  rw [parse, hname, hrule]
  simp only [hsymbol]
  split
  · rename_i cs hcs
    rw [hcs]
    simp [eq_comm]
  · rename_i hcs
    rw [hcs]
    simp

/-- The children of a root that are built from its symbol make an annotated tree. -/
theorem WellFormed.annotated_of_builds (hg : g.WellFormed) (hbare : g.BareNames)
    {input : Array UInt8} {i j : Nat} {cs : List Tree}
    (h : Search.GoalBuilds (FlatGrammar.of g) input (.named s) i j cs) :
    g.Annotated (.branch s cs) := by
  obtain ⟨atoms, halt, hcs⟩ := h
  exact hcs.derives.annotated hg hbare halt

/-- **What parsing returns**: an annotated tree that renders as the input, without the parties
inside messages. -/
theorem WellFormed.parse_annotated (hg : g.WellFormed) (hbare : g.BareNames)
    (hs : s ∈ g.rules.keys) {w : Bytes} {t : Tree} (h : g.parse w s .complete = .ok t) :
    ∃ u, u.symbol = .nonTerminal s ∧ u.sender = none ∧ u.recipient = none ∧ g.Annotated u ∧
      u.toBytes = w ∧ t = u.stripNestedParties := by
  obtain ⟨cs, hcs, rfl⟩ := (parse_eq_ok hbare hs).mp h
  have hbuilds := Search.ensures_goalChildren (FlatGrammar.listed_of g) _ _ _ _ _ cs hcs
  refine ⟨.branch s cs, rfl, rfl, rfl, hg.annotated_of_builds hbare hbuilds, ?_, rfl⟩
  obtain ⟨atoms, -, hatoms⟩ := hbuilds
  have hlength := hatoms.stop
  rw [Nat.zero_add] at hlength
  rw [Tree.toBytes_nonTerminal rfl]
  exact Chart.bytesAt_zero_iff.mp ⟨hatoms.bytes, hlength.symm⟩

/-- A parsed tree is valid and renders as the input. -/
theorem WellFormed.parse_sound (hg : g.WellFormed) (hbare : g.BareNames) (hs : s ∈ g.rules.keys)
    {w : Bytes} {t : Tree} (h : g.parse w s .complete = .ok t) :
    t.symbol = .nonTerminal s ∧ g.Valid t ∧ t.toBytes = w := by
  obtain ⟨u, hsymbol, -, -, hannotated, hbytes, rfl⟩ := hg.parse_annotated hbare hs h
  refine ⟨?_, valid_stripParties _ _ hannotated.valid, ?_⟩
  · rw [Tree.stripNestedParties, Tree.symbol_stripParties, hsymbol]
  · rw [Tree.stripNestedParties, Tree.toBytes_stripParties, hbytes]

end Grammar

end GrammarFuzzing
