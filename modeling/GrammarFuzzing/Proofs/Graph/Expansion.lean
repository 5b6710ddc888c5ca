import GrammarFuzzing.Proofs.Grammar.Faults
import GrammarFuzzing.Proofs.Graph.Passage
import GrammarFuzzing.Proofs.Graph.Search
import GrammarFuzzing.Proofs.Parse.Meaning

/-!
# Expansions are walks

When a tree is derived from left to right, leaves of rules are entered one after the other:
terminals and sets of characters, each of which **produces** a leaf of the tree, and references,
which lead on into another rule. `GrammarFuzzing.Grammar.Expands` says in which order. A tree that
derives has such an order, and may have several (`GrammarFuzzing.Grammar.expands_of_valid`).

The graph of the grammar has a walk that enters exactly these leaves in this order, and nothing else
but nodes with other nodes in them and exits of rules (`GrammarFuzzing.Grammar.Expands.along`). It
is the passage through the body of the rule at the root: a producing leaf is its own passage, and a
reference is passed through the rule that it refers to, by induction on the tree.

A piece of the walk leads from one leaf to a later one. Between two producing leaves that follow
each other it enters references only, so it passes no other terminal, and takes as many turns as
there are messages among these references (`GrammarFuzzing.Document.expansions_walk`).
-/

namespace GrammarFuzzing

namespace Node

/-- Whether a leaf of a rule produces a leaf of the tree. -/
def produces : Node → Bool
  | .terminal .. | .charset .. => true
  | _ => false

/-- Whether a node is a message. -/
def isMessage (n : Node) : Bool :=
  n.sender?.isSome

/-- A leaf as something to be decided. -/
def isLeaf : Node → Bool
  | .terminal .. | .charset .. | .reference .. => true
  | _ => false

theorem isLeaf_eq_true {n : Node} : n.isLeaf = true ↔ n.IsLeaf := by
  cases n <;> simp [isLeaf, IsLeaf]

theorem isLeaf_of_produces {n : Node} (h : n.produces = true) : n.isLeaf = true := by
  cases n with
  | terminal | charset => rfl
  | reference | sequence | choice | repetition => exact absurd h (by simp [produces])

theorem isLeaf_of_isMessage {n : Node} (h : n.isMessage = true) : n.isLeaf = true := by
  cases n with
  | reference => rfl
  | terminal | charset | sequence | choice | repetition =>
    exact absurd h (by simp [isMessage, sender?])

end Node

/-! ### The leaves of a tree -/

namespace Tree

/-- **The leaves of a tree that render as something**, from left to right. -/
def terminals (t : Tree) : List Tree :=
  (t.nodes.map (·.2)).filter fun n => n.symbol.isTerminal

theorem map_listNodes (ts : List Tree) (i : Nat) :
    (listNodes i ts).map (·.2) = ts.flatMap fun t => t.nodes.map (·.2) := by
  induction ts generalizing i with
  | nil => rfl
  | cons t ts ih => rw [listNodes, List.map_append, List.map_map, ih, List.flatMap_cons]; rfl

theorem terminals_nonTerminal {t : Tree} {name : String} (h : t.symbol = .nonTerminal name) :
    t.terminals = t.children.flatMap terminals := by
  obtain ⟨symbol, children, sources, sender, recipient, readOnly⟩ := t
  obtain rfl : symbol = .nonTerminal name := h
  rw [terminals, nodes, List.map_cons, map_listNodes,
    List.filter_cons_of_neg (by simp [Symbol.isTerminal]), List.filter_flatMap]
  rfl

theorem terminals_terminal {t : Tree} {value : Literal} (h : t.symbol = .terminal value)
    (hchildren : t.children = []) : t.terminals = [t] := by
  obtain ⟨symbol, children, sources, sender, recipient, readOnly⟩ := t
  obtain rfl : symbol = .terminal value := h
  obtain rfl : children = [] := hchildren
  rw [terminals, nodes, listNodes, List.map_singleton]
  rfl

end Tree

/-! ### Derivations -/

namespace Grammar

open Node hiding id

mutual

/-- **A derivation of a tree**, by the leaves of rules that are entered below its root, from left to
right. -/
def Expands (g : Grammar) : Tree → List Node → Prop
  | ⟨symbol, children, _, _, _, _⟩, entered =>
    match symbol with
    | .terminal _ => children = [] ∧ entered = []
    | .slice => False
    | .nonTerminal name =>
      ∃ body ls, g.body? name = some body ∧ body.Spells ls ∧ ExpandsAll g children ls entered

/-- Derivations of several trees, each of which comes out of one leaf. -/
def ExpandsAll (g : Grammar) : List Tree → List Node → List Node → Prop
  | [], ls, entered => ls = [] ∧ entered = []
  | t :: rest, ls, entered => ∃ l ms vs ws, ls = l :: ms ∧ entered = l :: (vs ++ ws) ∧ l.Admits t ∧
      Expands g t vs ∧ ExpandsAll g rest ms ws

end

variable {g : Grammar}

theorem expands_terminal {t : Tree} {value : Literal} (h : t.symbol = .terminal value)
    {entered : List Node} : g.Expands t entered ↔ t.children = [] ∧ entered = [] := by
  obtain ⟨symbol, children, sources, sender, recipient, readOnly⟩ := t
  obtain rfl : symbol = .terminal value := h
  rw [Expands]

mutual

/-- **Every valid tree has a derivation.** -/
theorem expands_of_valid : ∀ {t : Tree}, g.Valid t → ∃ entered, g.Expands t entered
  | ⟨symbol, children, sources, sender, recipient, readOnly⟩, h => by
    cases symbol with
    | terminal value => exact ⟨[], h, rfl⟩
    | slice => exact h.elim
    | nonTerminal name =>
      obtain ⟨⟨body, hbody, hmatch⟩, hchildren⟩ := h
      obtain ⟨ls, hls, hadmits⟩ := matches_iff_lifts.mp hmatch
      obtain ⟨entered, hentered⟩ := expandsAll_of_validAll hchildren hadmits
      exact ⟨entered, body, ls, hbody, hls, hentered⟩

theorem expandsAll_of_validAll : ∀ {ts : List Tree} {ls : List Node}, g.ValidAll ts →
    List.Forall₂ Admits ls ts → ∃ entered, g.ExpandsAll ts ls entered
  | [], _, _, hadmits => by
    obtain rfl := List.forall₂_nil_right_iff.mp hadmits
    exact ⟨[], rfl, rfl⟩
  | t :: ts, _, ⟨ht, hts⟩, hadmits => by
    obtain ⟨l, ms, hl, hms, rfl⟩ := List.forall₂_cons_right_iff.mp hadmits
    obtain ⟨vs, hvs⟩ := expands_of_valid ht
    obtain ⟨ws, hws⟩ := expandsAll_of_validAll hts hms
    exact ⟨l :: (vs ++ ws), l, ms, vs, ws, rfl, rfl, hl, hvs, hws⟩

end

/-- What comes out of a producing leaf is a terminal. -/
theorem exists_terminal_of_admits {l : Node} {t : Tree} (hl : l.produces = true)
    (h : l.Admits t) : ∃ value, t.symbol = .terminal value := by
  cases l with
  | terminal id value => exact ⟨value, of_decide_eq_true h⟩
  | charset id chars =>
    obtain ⟨x, -, hsymbol⟩ := exists_of_isOneOf h
    exact ⟨_, hsymbol⟩
  | reference | sequence | choice | repetition => exact absurd hl (by simp [produces])

/-- A leaf of a rule produces a leaf of the tree, or refers to the symbol of a node. -/
theorem produces_or_of_admits {l : Node} {t : Tree} (h : l.Admits t) : l.produces = true ∨
    ∃ id name sender recipient, l = .reference id name sender recipient ∧
      t.symbol = .nonTerminal name := by
  cases l with
  | terminal | charset => exact Or.inl rfl
  | reference id name sender recipient =>
    exact Or.inr ⟨id, name, sender, recipient, rfl, of_decide_eq_true h⟩
  | sequence | choice | repetition => exact h.elim

mutual

/-- **The leaves of a tree are produced one by one**, by the producing leaves of a derivation. -/
theorem Expands.produce : ∀ {t : Tree} {name : String} {entered : List Node},
    t.symbol = .nonTerminal name → g.Expands t entered →
      List.Forall₂ Admits (entered.filter produces) t.terminals
  | ⟨_, children, _, _, _, _⟩, name, entered, hsymbol, h => by
    obtain rfl : _ = Symbol.nonTerminal name := hsymbol
    obtain ⟨body, ls, -, -, hchildren⟩ := h
    rw [Tree.terminals_nonTerminal rfl]
    exact ExpandsAll.produce hchildren

theorem ExpandsAll.produce : ∀ {ts : List Tree} {ls entered : List Node},
    g.ExpandsAll ts ls entered →
      List.Forall₂ Admits (entered.filter produces) (ts.flatMap Tree.terminals)
  | [], _, _, h => by
    obtain ⟨-, rfl⟩ := h
    exact .nil
  | t :: ts, _, _, ⟨l, ms, vs, ws, rfl, rfl, hl, hvs, hws⟩ => by
    have hrest := ExpandsAll.produce hws
    rw [List.flatMap_cons]
    rcases produces_or_of_admits hl with hproduces | ⟨id, name, sender, recipient, rfl, hsymbol⟩
    · obtain ⟨value, hvalue⟩ := exists_terminal_of_admits hproduces hl
      obtain ⟨hchildren, rfl⟩ := (expands_terminal hvalue).mp hvs
      rw [Tree.terminals_terminal hvalue hchildren, List.filter_cons_of_pos hproduces]
      exact .cons hl hrest
    · rw [List.filter_cons_of_neg (by simp [produces]), List.filter_append]
      exact List.rel_append (Expands.produce hsymbol hvs) hrest

end

/-! ### The leaf at a place -/

/-- The leaf of a rule at a place. -/
def leafAt? (g : Grammar) : Vertex → Option Node
  | .node id => g.nodes.toList.find? fun n => n.id = id && n.isLeaf
  | .exit _ => none

theorem leafAt?_eq_some {v : Vertex} {n : Node} (h : g.leafAt? v = some n) :
    v = .node n.id ∧ n ∈ g.nodes ∧ n.isLeaf = true := by
  cases v with
  | exit rule => exact absurd h (by simp [leafAt?])
  | node id =>
    have hfound := List.find?_some h
    rw [Bool.and_eq_true, decide_eq_true_iff] at hfound
    exact ⟨congrArg Vertex.node hfound.1.symm,
      Array.mem_toList_iff.mp (List.mem_of_find?_eq_some h), hfound.2⟩

section Numbered

variable (hg : g.Numbered)

include hg

/-- **The leaf at the place of a node** is the node, if it is a leaf. -/
theorem Numbered.leafAt?_node {n : Node} (hn : n ∈ g.nodes) (hleaf : n.isLeaf = true) :
    g.leafAt? (.node n.id) = some n := by
  cases hfind : g.leafAt? (.node n.id) with
  | some m =>
    obtain ⟨hid, hm, -⟩ := leafAt?_eq_some hfind
    rw [hg.eq_of_id_eq hm hn (Vertex.node.inj hid).symm]
  | none =>
    have hnot := List.find?_eq_none.mp hfind n (Array.mem_toList_iff.mpr hn)
    exact absurd hleaf (by simpa using hnot)

theorem Numbered.leafAt?_eq_none {n : Node} (hn : n ∈ g.nodes) (hno : ¬ n.IsLeaf) :
    g.leafAt? (.node n.id) = none := by
  rw [Option.eq_none_iff_forall_ne_some]
  intro m hm
  obtain ⟨hid, hmem, hleaf⟩ := leafAt?_eq_some hm
  obtain rfl := hg.eq_of_id_eq hmem hn (Vertex.node.inj hid).symm
  exact hno (isLeaf_eq_true.mp hleaf)

/-- **A place is a message if the leaf there is one.** -/
theorem Numbered.messageAt_eq (v : Vertex) :
    g.messageAt v = ((g.leafAt? v).map isMessage).getD false := by
  cases v with
  | exit rule => rfl
  | node id =>
    cases hleaf : g.leafAt? (.node id) with
    | some n =>
      obtain ⟨hid, hn, -⟩ := leafAt?_eq_some hleaf
      rw [Bool.eq_iff_iff, messageAt, Array.any_eq_true', Option.map_some, Option.getD_some]
      constructor
      · rintro ⟨m, hm, h⟩
        rw [Bool.and_eq_true, decide_eq_true_iff] at h
        rw [hg.eq_of_id_eq hn hm (h.2.trans (Vertex.node.inj hid)).symm]
        exact h.1
      · intro h
        refine ⟨n, hn, ?_⟩
        rw [Bool.and_eq_true, decide_eq_true_iff]
        exact ⟨h, (Vertex.node.inj hid).symm⟩
    | none =>
      rw [Option.map_none, Option.getD_none, messageAt, Array.any_eq_false']
      intro m hm h
      rw [Bool.and_eq_true, decide_eq_true_iff] at h
      obtain ⟨hmessage, rfl⟩ := h
      rw [hg.leafAt?_node hm (isLeaf_of_isMessage hmessage)] at hleaf
      exact absurd hleaf (by simp)

/-- A producing leaf is no message. -/
theorem Numbered.messageAt_of_produces {n : Node} (hn : n ∈ g.nodes) (h : n.produces = true) :
    g.messageAt (.node n.id) = false := by
  rw [hg.messageAt_eq, hg.leafAt?_node hn (isLeaf_of_produces h)]
  cases n with
  | terminal | charset => rfl
  | reference | sequence | choice | repetition => exact absurd h (by simp [produces])

theorem Numbered.countP_messageAt (vs : List Vertex) :
    vs.countP g.messageAt = (vs.filterMap g.leafAt?).countP isMessage := by
  rw [List.countP_filterMap]
  exact List.countP_congr fun v _ => by rw [hg.messageAt_eq]

end Numbered

/-! ### The walk of a derivation -/

/-- **The walks on which leaves are entered**, from the first place up to the last one. -/
def walks (g : Grammar) : (Graph.ofGrammar g).Passage Node where
  Quiet v := g.leafAt? v = none
  Along v entered x := ∃ places, (Graph.ofGrammar g).IsWalk places ∧ places.head? = some v ∧
    places.getLast? = some x ∧ places.filterMap g.leafAt? = entered
  stop {v} hv := ⟨[v], List.isChain_singleton v, rfl, rfl, List.filterMap_cons_none hv⟩
  trans := by
    rintro v w x y ps qs ⟨vs, hvs, hv, hx, rfl⟩ hw ⟨ws, hws, hfirst, hy, rfl⟩
    refine ⟨vs ++ ws, hvs.append hws ?_, ?_, ?_, List.filterMap_append⟩
    · rintro last hlast first hws
      obtain rfl := Option.some.inj (hx.symm.trans hlast)
      obtain rfl := Option.some.inj (hfirst.symm.trans hws)
      exact hw
    · rw [List.head?_append, hv, Option.some_or]
    · rw [List.getLast?_append, hy, Option.some_or]

/-- A leaf is a walk on which it is entered. -/
theorem along_leaf {v : Vertex} {l : Node} (h : g.leafAt? v = some l) : g.walks.Along v [l] v :=
  ⟨[v], List.isChain_singleton v, rfl, rfl, List.filterMap_cons_some h⟩

mutual

/-- **A derivation of a tree is a walk** from the body of the rule at its root to the exit of the
rule. -/
theorem Expands.along (hg : g.WellFormed) (hbare : g.BareNames) (hnumbered : g.Numbered) :
    ∀ {t : Tree} {name : String} {entered : List Node}, t.symbol = .nonTerminal name →
      g.Expands t entered →
        ∃ body, g.body? name = some body ∧ g.walks.Along (.node body.id) entered (.exit name)
  | ⟨_, children, _, _, _, _⟩, name, entered, hsymbol, h => by
    obtain rfl : _ = Symbol.nonTerminal name := hsymbol
    obtain ⟨body, ls, hbody, hls, hchildren⟩ := h
    obtain ⟨pss, hpasses, rfl⟩ :=
      hchildren.through hg hbare hnumbered hbody (mem_leaves_of_spells hls)
    refine ⟨body, hbody, Graph.Passage.along_rule_of_spells hg hbare hbody rfl
      (fun m hm hno => ?_) hls hpasses⟩
    exact hnumbered.leafAt?_eq_none (hg.mem_nodes_of_mem_subnodes hbody hm) hno

/-- The leaves that children come out of are passed, one by one. -/
theorem ExpandsAll.through (hg : g.WellFormed) (hbare : g.BareNames) (hnumbered : g.Numbered)
    {name : String} {body : Node} (hbody : g.body? name = some body) :
    ∀ {ts : List Tree} {ls entered : List Node},
      g.ExpandsAll ts ls entered → (∀ l ∈ ls, l ∈ body.leaves) →
        ∃ pss : List (List Node), List.Forall₂ g.walks.Through ls pss ∧ pss.flatten = entered
  | [], _, _, ⟨hls, hentered⟩, _ => by
    subst hls hentered
    exact ⟨[], .nil, rfl⟩
  | t :: ts, _, _, ⟨l, ms, vs, ws, hls, hentered, hl, hvs, hws⟩, hleaves => by
    subst hls hentered
    obtain ⟨hleaf, hleaves⟩ := List.forall_mem_cons.mp hleaves
    obtain ⟨pss, hpasses, hflatten⟩ := hws.through hg hbare hnumbered hbody hleaves
    have hfound : g.leafAt? (.node l.id) = some l := hnumbered.leafAt?_node
      (hg.mem_nodes_of_mem_subnodes hbody (mem_subnodes_of_mem_leaves hleaf))
      (isLeaf_eq_true.mpr (isLeaf_of_mem_leaves hleaf))
    refine ⟨(l :: vs) :: pss, .cons ?_ hpasses, by rw [List.flatten_cons, hflatten]; rfl⟩
    rcases produces_or_of_admits hl with hproduces | ⟨id, name, sender, recipient, rfl, hsymbol⟩
    · obtain ⟨value, hvalue⟩ := exists_terminal_of_admits hproduces hl
      obtain ⟨-, rfl⟩ := (expands_terminal hvalue).mp hvs
      refine ⟨.node l.id, ?_, along_leaf hfound⟩
      cases l with
      | terminal | charset => exact List.mem_singleton.mpr rfl
      | reference | sequence | choice | repetition => exact absurd hproduces (by simp [produces])
    · obtain ⟨target, htarget, halong⟩ := hvs.along hg hbare hnumbered hsymbol
      refine ⟨.exit name, List.mem_singleton.mpr rfl, ?_⟩
      exact g.walks.trans (along_leaf hfound)
        (Graph.mem_successors_reference hg hbare hbody hleaf htarget) halong

end

/-- What is entered are nodes of the grammar. -/
theorem mem_nodes_of_along {v x : Vertex} {entered : List Node} (h : g.walks.Along v entered x) :
    ∀ n ∈ entered, n ∈ g.nodes := by
  obtain ⟨places, -, -, -, rfl⟩ := h
  intro n hn
  obtain ⟨v, -, hv⟩ := List.mem_filterMap.mp hn
  exact (leafAt?_eq_some hv).2.1

section Pieces

variable (hnumbered : g.Numbered) {v x : Vertex} {before between after : List Node} {u w : Node}
  (h : g.walks.Along v (before ++ u :: (between ++ w :: after)) x)

include h

/-- **A piece of a walk** leads from a leaf to a later one, past those that are entered in
between. -/
theorem exists_walk_between :
    ∃ inner, (Graph.ofGrammar g).IsWalk (.node u.id :: (inner ++ [.node w.id])) ∧
      inner.filterMap g.leafAt? = between := by
  obtain ⟨places, hwalk, -, -, hplaces⟩ := h
  obtain ⟨head, rest, rfl, -, hrest⟩ := List.filterMap_eq_append_iff.mp hplaces
  obtain ⟨skipped, pu, rest, rfl, -, hu, hrest⟩ := List.filterMap_eq_cons_iff.mp hrest
  obtain ⟨inner, rest, rfl, hinner, hrest⟩ := List.filterMap_eq_append_iff.mp hrest
  obtain ⟨quiet, pw, rest, rfl, hquiet, hw, -⟩ := List.filterMap_eq_cons_iff.mp hrest
  obtain ⟨rfl, -, -⟩ := leafAt?_eq_some hu
  obtain ⟨rfl, -, -⟩ := leafAt?_eq_some hw
  refine ⟨inner ++ quiet, hwalk.infix ⟨head ++ skipped, rest, ?_⟩, ?_⟩
  · simp
  · rw [List.filterMap_append, hinner, List.filterMap_eq_nil_iff.mpr hquiet, List.append_nil]

include hnumbered

/-- Up to a producing leaf there is a message for each that is entered. -/
theorem exists_walk_countP (hw : w.produces = true) :
    ∃ inner, (Graph.ofGrammar g).IsWalk (.node u.id :: (inner ++ [.node w.id])) ∧
      inner.filterMap g.leafAt? = between ∧
        (inner ++ [.node w.id]).countP g.messageAt = between.countP isMessage := by
  obtain ⟨inner, hwalk, hinner⟩ := exists_walk_between h
  have hfree := hnumbered.messageAt_of_produces (mem_nodes_of_along h w (by simp)) hw
  refine ⟨inner, hwalk, hinner, ?_⟩
  rw [List.countP_append, List.countP_singleton, hfree, hnumbered.countP_messageAt, hinner]
  rfl

/-- **From one producing leaf to the next one** there is a walk past no other. -/
theorem exists_walk_to_next (hu : u.produces = true) (hw : w.produces = true)
    (hbetween : ∀ n ∈ between, n.produces = false) :
    ∃ inner, (Graph.ofGrammar g).IsWalk (.node u.id :: (inner ++ [.node w.id])) ∧
      (∀ n ∈ g.nodes, n.produces = true → .node n.id ∉ inner) ∧
        (Vertex.node u.id :: (inner ++ [.node w.id])).countP g.messageAt =
          between.countP isMessage := by
  obtain ⟨inner, hwalk, hinner, hcount⟩ := exists_walk_countP hnumbered h hw
  have hfree := hnumbered.messageAt_of_produces (mem_nodes_of_along h u (by simp)) hu
  refine ⟨inner, hwalk, fun n hn hproduces hin => ?_, ?_⟩
  · have hfound := List.mem_filterMap.mpr
      ⟨_, hin, hnumbered.leafAt?_node hn (isLeaf_of_produces hproduces)⟩
    rw [hinner] at hfound
    exact absurd hproduces (by rw [hbetween n hfound]; decide)
  · rw [List.countP_cons_of_neg (by rw [hfree]; decide), hcount]

/-- **To any later terminal** there is a cheapest walk, at no more than a turn for each message in
between. -/
theorem exists_shortestPath {id : Nat} {value : Literal} (hw : w = .terminal id value) :
    ∃ path cost, (Graph.ofGrammar g).shortestPath u.id w.id = some (path, cost) ∧
      cost ≤ between.countP isMessage := by
  obtain ⟨inner, hwalk, -, hcount⟩ := exists_walk_countP hnumbered h (by rw [hw]; rfl)
  have hvalue : (Graph.ofGrammar g).terminals.find? w.id = some value := by
    subst hw
    exact hnumbered.find?_terminals (mem_nodes_of_along h (.terminal id value) (by simp))
  have hleads : (Graph.ofGrammar g).Leads (.node u.id) ((Graph.ofGrammar g).holds value)
      (.node u.id :: (inner ++ [.node w.id])) := ⟨inner, _, rfl, hwalk, decide_eq_true hvalue⟩
  rcases (Graph.ofGrammar g).search_cases (.node u.id) ((Graph.ofGrammar g).holds value) with
    ⟨-, hnone⟩ | ⟨path, hpath, -, hleast⟩
  · exact absurd hleads (hnone _)
  · have hcost := hleast _ hleads
    rw [List.tail_cons, Graph.sumOf_cost_ofGrammar, Graph.sumOf_cost_ofGrammar, hcount] at hcost
    refine ⟨path, path.tail.countP g.messageAt, ?_, by omega⟩
    rw [Graph.shortestPath, hvalue, Option.bind_some, hpath, Graph.sumOf_cost_ofGrammar]

end Pieces

end Grammar

/-- **The graph of a grammar contains every expansion from left to right.** A tree that passes has a
derivation, and in every derivation of it the producing leaves are those of the leaves of the tree,
in their order. Where two of them follow each other, there is a walk from the one to the other that
passes no other producing leaf and has a message for each message that is entered between them. So
there is a cheapest walk between any two terminals, which costs at most the messages in between. -/
theorem Document.expansions_walk {doc : Document} {g : Grammar} (h : doc.toGrammar = .ok g)
    (hbare : g.BareNames) {t : Tree} {name : String} (hsymbol : t.symbol = .nonTerminal name)
    (ht : g.validate t = .ok ()) :
    (∃ entered, g.Expands t entered) ∧
    ∀ entered, g.Expands t entered →
      List.Forall₂ Node.Admits (entered.filter Node.produces) t.terminals ∧
      (∀ before u between w after, entered = before ++ u :: (between ++ w :: after) →
        u.produces = true → w.produces = true → (∀ n ∈ between, n.produces = false) →
        ∃ inner, (Graph.ofGrammar g).IsWalk (.node u.id :: (inner ++ [.node w.id])) ∧
          (∀ n ∈ g.nodes, n.produces = true → .node n.id ∉ inner) ∧
          (Vertex.node u.id :: (inner ++ [.node w.id])).countP g.messageAt =
            between.countP Node.isMessage) ∧
      ∀ before id value between id' value' after,
        entered = before ++ .terminal id value :: (between ++ .terminal id' value' :: after) →
        ∃ path cost, (Graph.ofGrammar g).shortestPath id id' = some (path, cost) ∧
          cost ≤ between.countP Node.isMessage := by
  have hg := wellFormed_of_toGrammar h
  have hnumbered := doc.coherent_toDraft.numbered_of_build h
  refine ⟨Grammar.expands_of_valid (hg.validate_eq_ok.mp ht), fun entered hentered => ?_⟩
  obtain ⟨body, -, halong⟩ := hentered.along hg hbare hnumbered hsymbol
  refine ⟨hentered.produce hsymbol, ?_, ?_⟩
  · rintro before u between w after rfl hu hw hbetween
    exact Grammar.exists_walk_to_next hnumbered halong hu hw hbetween
  · rintro before id value between id' value' after rfl
    exact Grammar.exists_shortestPath hnumbered halong rfl

/-- Two say a word each, with any number of pauses in between. -/
def Document.talk : Document :=
  ⟨"talk", [("pauses", .star (.text " ")), ("talk", .seq [.message "word" "A" none, .ref "pauses",
    .message "word" "B" none]), ("word", .text "hi")], []⟩

/-- Where there is no pause, one word follows the other at the cost of the second message. -/
theorem Document.expansions_walk_talk : ∃ g, talk.toGrammar = .ok g ∧ ∃ inner,
    (Graph.ofGrammar g).IsWalk (.node 6 :: (inner ++ [.node 6])) ∧
      (Vertex.node 6 :: (inner ++ [.node 6])).countP g.messageAt = 1 ∧
        ∃ path cost, (Graph.ofGrammar g).shortestPath 6 6 = some (path, cost) ∧ cost ≤ 1 := by
  have h : talk.toGrammar = .ok _ := rfl
  have hbare : ∀ name ∈ ["pauses", "talk", "word"], bareName name = name := by decide
  obtain ⟨-, hwalks⟩ := expansions_walk h hbare (t := .branch "talk" [
    .branch "word" [.leaf (.text "hi")], .branch "pauses" [],
    .branch "word" [.leaf (.text "hi")]]) rfl rfl
  -- Each word comes out of its message, and the pauses are left out.
  obtain ⟨-, hnext, hlater⟩ := hwalks [.reference 2 "word" (some "A") none,
      .terminal 6 (.text "hi"), .reference 3 "pauses" none none,
      .reference 4 "word" (some "B") none, .terminal 6 (.text "hi")] <| by
    have hspells : Node.Spells (.sequence 5 [.reference 2 "word" (some "A") none,
        .reference 3 "pauses" none none, .reference 4 "word" (some "B") none])
        [.reference 2 "word" (some "A") none, .reference 3 "pauses" none none,
          .reference 4 "word" (some "B") none] :=
      ⟨_, _, rfl, rfl, _, _, rfl, rfl, _, _, rfl, rfl, rfl⟩
    have hpauses : Node.Spells (.repetition 1 (.terminal 0 (.text " ")) 0 none .star) [] :=
      ⟨0, Nat.le_refl 0, nofun, rfl⟩
    exact ⟨_, _, rfl, hspells,
      _, _, [.terminal 6 (.text "hi")], _, rfl, rfl, rfl,
        ⟨_, _, rfl, rfl, _, _, [], [], rfl, rfl, rfl, ⟨rfl, rfl⟩, rfl, rfl⟩,
      _, _, [], _, rfl, rfl, rfl, ⟨_, _, rfl, hpauses, rfl, rfl⟩,
      _, _, [.terminal 6 (.text "hi")], [], rfl, rfl, rfl,
        ⟨_, _, rfl, rfl, _, _, [], [], rfl, rfl, rfl, ⟨rfl, rfl⟩, rfl, rfl⟩, rfl, rfl⟩
  obtain ⟨inner, hwalk, -, hturns⟩ := hnext [_] _ [_, _] _ [] rfl rfl rfl (by decide)
  exact ⟨_, h, inner, hwalk, hturns, hlater [_] 6 _ [_, _] 6 _ [] rfl⟩

end GrammarFuzzing
