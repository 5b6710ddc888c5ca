import GrammarFuzzing.Grammar.Generators
import GrammarFuzzing.Proofs.Grammar.Outermost
import GrammarFuzzing.Proofs.Random.Draw

/-!
# Generated values that are up to date

What a generator computed is read-only, from the node of its symbol downwards, and that node keeps
the trees from which it was computed. So it can be told whether the value is still the one that the
generator computes from them. A tree is **current** (`GrammarFuzzing.Grammar.Current`) if it was
written by hand down to nodes whose values are up to date and below which nothing can be written.

* What was generated is replaced as a whole or not at all: a subtree may be put where the root is,
  or where a node was written (`GrammarFuzzing.Grammar.Current.replace`). That no node is written
  below a read-only one is what makes this enough.
* On paths, a current tree has up-to-date values at its outermost read-only nodes and no sources
  elsewhere (`GrammarFuzzing.Grammar.Current.upToDate`,
  `GrammarFuzzing.Grammar.Current.written_at`).
-/

namespace GrammarFuzzing

/-- **A generator that draws nothing**, or to no effect: what it computes follows from the trees it
is given. -/
def Generator.Deterministic (generator : Generator) : Prop :=
  ∀ params, ∃ value, Draw.Gives (generator.generate params) (· = value)

/-- The generators to choose from are deterministic. -/
theorem Generator.deterministic_named (name : String) (dependencies : List String) (value : Bytes)
    (factor : Int) : (named name dependencies value factor).Deterministic :=
  fun _ => ⟨_, Draw.gives_pure rfl⟩

/-! ### Read-only trees -/

namespace Tree

/-- **All nodes are read-only.** -/
def Frozen (t : Tree) : Prop :=
  ∀ path n, t.get? path = some n → n.readOnly = true

/-- **An outermost read-only node**: one that is the root, or below a node that is not read-only. -/
structure OutermostReadOnly (t : Tree) (path : Path) (n : Tree) : Prop where
  get : t.get? path = some n
  readOnly : n.readOnly = true
  above : ∀ above i parent, path = above ++ [i] → t.get? above = some parent →
    parent.readOnly = false

theorem outermostReadOnly_root {t : Tree} (h : t.readOnly = true) : t.OutermostReadOnly [] t :=
  ⟨get?_nil t, h, fun _ _ _ hpath => absurd hpath (by simp)⟩

/-- What is outermost in a tree is outermost in the child it lies in. -/
theorem OutermostReadOnly.of_cons {t c n : Tree} {i : Nat} {path : Path}
    (hc : t.children[i]? = some c) (h : t.OutermostReadOnly (i :: path) n) :
    c.OutermostReadOnly path n := by
  refine ⟨?_, h.readOnly, ?_⟩
  · rw [← h.get, get?_cons, hc, Option.bind_some]
  · rintro above k parent rfl hparent
    refine h.above (i :: above) k parent rfl ?_
    rw [get?_cons, hc, Option.bind_some, hparent]

/-- What is outermost in a child is outermost in the tree if the root is not read-only. -/
theorem OutermostReadOnly.cons {t c n : Tree} {i : Nat} {path : Path}
    (h : c.OutermostReadOnly path n) (hroot : t.readOnly = false) (hc : t.children[i]? = some c) :
    t.OutermostReadOnly (i :: path) n := by
  refine ⟨?_, h.readOnly, fun above k parent hpath hparent => ?_⟩
  · rw [get?_cons, hc, Option.bind_some, h.get]
  · cases above with
    | nil => exact Option.some.inj ((get?_nil t).symm.trans hparent) ▸ hroot
    | cons j above =>
      obtain ⟨rfl, rfl⟩ := List.cons.inj hpath
      rw [get?_cons, hc, Option.bind_some] at hparent
      exact h.above above k parent rfl hparent

/-- There is a node at every part of a path. -/
theorem exists_get?_of_append {above below : Path} {n t : Tree}
    (hn : t.get? (above ++ below) = some n) : ∃ parent, t.get? above = some parent := by
  rw [get?_append] at hn
  obtain ⟨parent, hparent, -⟩ := Option.bind_eq_some_iff.mp hn
  exact ⟨parent, hparent⟩

theorem get?_asReadOnly {path : Path} : ∀ t : Tree,
    t.asReadOnly.get? path = (t.get? path).map asReadOnly := by
  induction path with
  | nil => exact fun t => by rw [get?_nil, get?_nil, Option.map_some]
  | cons i path ih =>
    intro t
    obtain ⟨symbol, children, sources, sender, recipient, readOnly⟩ := t
    rw [asReadOnly, listAsReadOnly_eq_map, get?_cons, get?_cons]
    cases hc : children[i]? with
    | none => simp [hc]
    | some c => simp [hc, ih c]

theorem readOnly_stripParties (inside : Bool) (t : Tree) :
    (t.stripParties inside).readOnly = t.readOnly := by
  obtain ⟨symbol, children, sources, sender, recipient, readOnly⟩ := t
  rw [stripParties]

theorem sources_stripParties (inside : Bool) (t : Tree) :
    (t.stripParties inside).sources = t.sources := by
  obtain ⟨symbol, children, sources, sender, recipient, readOnly⟩ := t
  rw [stripParties]

theorem children_stripParties (inside : Bool) (t : Tree) :
    (t.stripParties inside).children =
      t.children.map (stripParties (inside || t.sender.isSome)) := by
  obtain ⟨symbol, children, sources, sender, recipient, readOnly⟩ := t
  rw [stripParties, listStripParties_eq_map]

theorem frozen_asReadOnly (t : Tree) : t.asReadOnly.Frozen := by
  intro path n hn
  rw [get?_asReadOnly] at hn
  obtain ⟨m, -, rfl⟩ := Option.map_eq_some_iff.mp hn
  obtain ⟨symbol, children, sources, sender, recipient, readOnly⟩ := m
  rw [asReadOnly]

theorem Frozen.readOnly {t : Tree} (ht : t.Frozen) : t.readOnly = true :=
  ht [] t (get?_nil t)

/-- Only the children and the mark of the root matter. -/
theorem Frozen.of_children {t u : Tree} (ht : t.Frozen) (hreadOnly : u.readOnly = t.readOnly)
    (hchildren : u.children = t.children) : u.Frozen := by
  intro path n hn
  cases path with
  | nil =>
    obtain rfl := Option.some.inj ((get?_nil u).symm.trans hn)
    exact hreadOnly.trans ht.readOnly
  | cons i path =>
    rw [get?_cons, hchildren, ← get?_cons] at hn
    exact ht _ n hn

theorem Frozen.stripParties {t : Tree} (ht : t.Frozen) (inside : Bool) :
    (t.stripParties inside).Frozen := by
  intro path n hn
  rw [get?_stripParties] at hn
  obtain ⟨m, hm, rfl⟩ := Option.map_eq_some_iff.mp hn
  exact (readOnly_stripParties _ m).trans (ht path m hm)

end Tree

/-! ### Current trees -/

namespace Grammar

variable {g : Grammar}

/-- **The value of a node is up to date**: it is what the generator of its symbol computes from the
sources of the node, from whatever random source. -/
def UpToDate (g : Grammar) (t : Tree) : Prop :=
  ∃ name generator, t.symbol = .nonTerminal name ∧ g.generator? name = some generator ∧
    Draw.Gives (generator.generate t.sources) (· = some t.toBytes)

/-- **A current tree** was generated and its value is up to date, or it was written over current
trees. -/
inductive Current (g : Grammar) : Tree → Prop where
  /-- A value that is up to date, below which nothing can be written. -/
  | generated {t : Tree} (hvalue : g.UpToDate t) (hfrozen : t.Frozen) : g.Current t
  /-- A node that no generator made. -/
  | written {t : Tree} (hreadOnly : t.readOnly = false) (hsources : t.sources = [])
      (hchildren : ∀ c ∈ t.children, g.Current c) : g.Current t

namespace Current

variable {t : Tree}

/-- A written node over current trees. -/
theorem node {symbol : Symbol} {cs : List Tree} {sender recipient : Option String}
    (hcs : ∀ c ∈ cs, g.Current c) : g.Current ⟨symbol, cs, [], sender, recipient, false⟩ :=
  .written rfl rfl hcs

theorem leaf (value : Literal) : g.Current (.leaf value) :=
  .node fun _ hc => absurd hc List.not_mem_nil

theorem of_mem_children (ht : g.Current t) (hreadOnly : t.readOnly = false) {c : Tree}
    (hc : c ∈ t.children) : g.Current c := by
  cases ht with
  | generated hvalue hfrozen => exact absurd (hfrozen.readOnly.symm.trans hreadOnly) (by simp)
  | written hreadOnly hsources hchildren => exact hchildren c hc

/-- Parties do not matter. -/
theorem withParty (ht : g.Current t) (sender recipient : Option String) :
    g.Current (t.withParty sender recipient) := by
  obtain ⟨symbol, children, sources, sender', recipient', readOnly⟩ := t
  cases ht with
  | generated hvalue hfrozen => exact .generated hvalue (hfrozen.of_children rfl rfl)
  | written hreadOnly hsources hchildren => exact .written hreadOnly hsources hchildren

theorem stripParties (ht : g.Current t) : ∀ inside, g.Current (t.stripParties inside) := by
  induction ht with
  | generated hvalue hfrozen =>
    intro inside
    refine .generated ?_ (hfrozen.stripParties inside)
    rwa [UpToDate, Tree.symbol_stripParties, Tree.sources_stripParties, Tree.toBytes_stripParties]
  | @written t hreadOnly hsources hchildren ih =>
    intro inside
    refine .written ((Tree.readOnly_stripParties _ _).trans hreadOnly)
      ((Tree.sources_stripParties _ _).trans hsources) fun c hc => ?_
    rw [Tree.children_stripParties] at hc
    obtain ⟨d, hd, rfl⟩ := List.mem_map.mp hc
    exact ih d hd _

/-- **Below a read-only node everything is read-only**, so a node that is not has none above it. -/
theorem readOnly_of_get? {i : Nat} {path : Path} {n : Tree} (ht : g.Current t)
    (hn : t.get? (i :: path) = some n) (hreadOnly : n.readOnly = false) : t.readOnly = false := by
  cases ht with
  | generated hvalue hfrozen => exact absurd ((hfrozen _ n hn).symm.trans hreadOnly) (by simp)
  | written hwritten => exact hwritten

/-- **A written node of a current tree is the root of a current tree.** -/
theorem of_get? {n : Tree} (hreadOnly : n.readOnly = false) {path : Path} : ∀ {t : Tree},
    g.Current t → t.get? path = some n → g.Current n := by
  induction path with
  | nil =>
    intro t ht hn
    obtain rfl := Option.some.inj ((Tree.get?_nil t).symm.trans hn)
    exact ht
  | cons i path ih =>
    intro t ht hn
    have htop := ht.readOnly_of_get? hn hreadOnly
    rw [Tree.get?_cons] at hn
    obtain ⟨c, hc, hn⟩ := Option.bind_eq_some_iff.mp hn
    exact ih (ht.of_mem_children htop (List.mem_of_getElem? hc)) hn

/-- A current tree with another current tree at the root or at a written node. -/
theorem modify? {f : Tree → Tree} (hf : ∀ old, g.Current (f old)) {path : Path} :
    ∀ {t u : Tree}, g.Current t →
      (path = [] ∨ ∃ n, t.get? path = some n ∧ n.readOnly = false) → t.modify? f path = some u →
        g.Current u := by
  induction path with
  | nil =>
    rintro t _ - - ⟨⟩
    exact hf t
  | cons i path ih =>
    intro t u ht hslot hu
    obtain ⟨n, hn, hreadOnly⟩ := hslot.resolve_left (List.cons_ne_nil _ _)
    have htop := ht.readOnly_of_get? hn hreadOnly
    obtain ⟨c, d, hc, hd, rfl⟩ := Tree.modify?_cons_eq_some.mp hu
    rw [Tree.get?_cons, hc, Option.bind_some] at hn
    have hcurrent := ht.of_mem_children htop (List.mem_of_getElem? hc)
    have hnew := ih hcurrent (Or.inr ⟨n, hn, hreadOnly⟩) hd
    cases ht with
    | generated hvalue hfrozen => exact absurd (hfrozen.readOnly.symm.trans htop) (by simp)
    | written _ hsources hchildren =>
      refine .written htop hsources fun e he => ?_
      rcases List.mem_or_eq_of_mem_set he with he | rfl
      · exact hchildren e he
      · exact hnew

/-- **Replacing the root or a written node by a current tree keeps a tree current.** -/
theorem replace {u new : Tree} {path : Path} (ht : g.Current t) (hnew : g.Current new)
    (hslot : path = [] ∨ ∃ n, t.get? path = some n ∧ n.readOnly = false)
    (h : t.replace path new = .ok u) : g.Current u := by
  obtain ⟨old, -, -, hmodify⟩ := Tree.replace_eq_ok h
  exact ht.modify? (fun _ => hnew.withParty _ _) hslot hmodify

/-! ### Paths of current trees -/

/-- **The outermost read-only nodes of a current tree** have values that are up to date, and all
below them is read-only. -/
theorem upToDate {path : Path} {n : Tree} : ∀ {t : Tree}, g.Current t →
    t.OutermostReadOnly path n → g.UpToDate n ∧ n.Frozen := by
  induction path with
  | nil =>
    intro t ht hn
    obtain rfl := Option.some.inj ((Tree.get?_nil t).symm.trans hn.get)
    cases ht with
    | generated hvalue hfrozen => exact ⟨hvalue, hfrozen⟩
    | written hwritten => exact absurd (hn.readOnly.symm.trans hwritten) (by simp)
  | cons i path ih =>
    intro t ht hn
    have hget := hn.get
    rw [Tree.get?_cons] at hget
    obtain ⟨c, hc, -⟩ := Option.bind_eq_some_iff.mp hget
    -- The root is not read-only, since some node on the path lies below it and is the outermost.
    have htop : t.readOnly = false := by
      cases ht with
      | written hwritten => exact hwritten
      | generated hvalue hfrozen =>
        obtain ⟨above, k, hpath⟩ : ∃ above k, i :: path = above ++ [k] :=
          ⟨_, _, (List.dropLast_append_getLast (List.cons_ne_nil i path)).symm⟩
        obtain ⟨parent, hparent⟩ := Tree.exists_get?_of_append (hpath ▸ hn.get)
        have hfalse := hn.above above k parent hpath hparent
        exact absurd ((hfrozen above parent hparent).symm.trans hfalse) (by simp)
    exact ih (ht.of_mem_children htop (List.mem_of_getElem? hc)) (hn.of_cons hc)

/-- **Elsewhere a current tree was written**: a node that is not at or below an outermost read-only
node is not read-only and has no sources. -/
theorem written_at {path : Path} {n : Tree} : ∀ {t : Tree}, g.Current t → t.get? path = some n →
    (∀ above below top, path = above ++ below → ¬ t.OutermostReadOnly above top) →
      n.readOnly = false ∧ n.sources = [] := by
  induction path with
  | nil =>
    intro t ht hn houtside
    obtain rfl := Option.some.inj ((Tree.get?_nil t).symm.trans hn)
    cases ht with
    | written hreadOnly hsources => exact ⟨hreadOnly, hsources⟩
    | generated hvalue hfrozen =>
      exact absurd (Tree.outermostReadOnly_root hfrozen.readOnly) (houtside [] [] t rfl)
  | cons i path ih =>
    intro t ht hn houtside
    rw [Tree.get?_cons] at hn
    obtain ⟨c, hc, hn⟩ := Option.bind_eq_some_iff.mp hn
    cases ht with
    | generated hvalue hfrozen =>
      exact absurd (Tree.outermostReadOnly_root hfrozen.readOnly) (houtside [] (i :: path) t rfl)
    | written htop hsources hchildren =>
      refine ih (hchildren c (List.mem_of_getElem? hc)) hn ?_
      rintro above below top rfl htop'
      exact houtside (i :: above) below top rfl (htop'.cons htop hc)

end Current

end Grammar

end GrammarFuzzing
