import GrammarFuzzing.Proofs.Grammar.Spelling
import GrammarFuzzing.Proofs.Graph.Building
import GrammarFuzzing.Proofs.Graph.Walks

/-!
# Passages through a graph

An expansion of a rule passes through the graph of a grammar: it enters the body, and then the nodes
that are expanded from left to right, until it leaves the body through one of its exits. What is of
interest on the way differs: the packets that are sent, or the leaves of rules that are entered. A
`GrammarFuzzing.Graph.Passage` says what it is, which places are **quiet** because nothing of it
happens there, and that one stretch can follow another over an edge.

Whatever leaves a node spells, if there are passages through them, there is one through the node, on
which what happens at the leaves happens in their order
(`GrammarFuzzing.Graph.Passage.through_of_spells`). The induction follows the node, and the exits
say where it may be left:

| node | the passage |
|---|---|
| sequence | through the parts, each entered from an exit of the part before |
| choice | through one option |
| repetition | through the copies, over the edge back to the body; without any, only the node |

The body of a rule is entered from the references to it, and left to the exit of the rule
(`GrammarFuzzing.Graph.mem_successors_reference`, `GrammarFuzzing.Graph.Passage.along_rule`).
-/

namespace GrammarFuzzing

namespace Graph

variable {g : Graph}

/-! ### Edges of a graph -/

/-- The graph has some edges. -/
def Has (g : Graph) (es : List (Vertex × Vertex)) : Prop :=
  ∀ e ∈ es, e.2 ∈ g.successors e.1

theorem has_cons {v w : Vertex} {es : List (Vertex × Vertex)} :
    g.Has ((v, w) :: es) ↔ w ∈ g.successors v ∧ g.Has es :=
  List.forall_mem_cons

theorem has_append {es es' : List (Vertex × Vertex)} : g.Has (es ++ es') ↔ g.Has es ∧ g.Has es' :=
  List.forall_mem_append

/-! ### Passages through nodes -/

/-- **A way to pass through a graph** from place to place, while something happens. -/
structure Passage (g : Graph) (α : Type) where
  /-- Nothing happens at the place. -/
  Quiet : Vertex → Prop
  /-- There is a passage from one place up to another on which something happens. -/
  Along : Vertex → List α → Vertex → Prop
  stop {v : Vertex} (hv : Quiet v) : Along v [] v
  trans {v w x y : Vertex} {ps qs : List α} (h : Along v ps x) (hw : w ∈ g.successors x)
    (h' : Along w qs y) : Along v (ps ++ qs) y

namespace Passage

variable {α : Type} {P : g.Passage α}

/-- A passage may start from a quiet place. -/
theorem pass {v w x : Vertex} {ps : List α} (hv : P.Quiet v) (hw : w ∈ g.successors v)
    (h : P.Along w ps x) : P.Along v ps x :=
  P.trans (P.stop hv) hw h

/-- **A node can be passed**: from the node to one of its exits. -/
def Through (P : g.Passage α) (m : Node) (ps : List α) : Prop :=
  ∃ x ∈ m.exits, P.Along (.node m.id) ps x

/-- The nodes that have nodes below them are quiet. -/
def QuietInside (P : g.Passage α) (ms : List Node) : Prop :=
  ∀ m ∈ ms, ¬ m.IsLeaf → P.Quiet (.node m.id)

/-- **Copies are passed one after the other**, over edges from the exits back to the entrance. -/
theorem along_of_copies {spells : List Node → Prop} {exits : List Vertex} {w : Vertex}
    (hpass : ∀ {ls pss}, spells ls → List.Forall₂ P.Through ls pss →
      ∃ x ∈ exits, P.Along w pss.flatten x) :
    ∀ {k : Nat} {ls : List Node} {pss : List (List α)},
      (k ≠ 0 → ∀ x ∈ exits, w ∈ g.successors x) → Node.Copies spells k ls →
        List.Forall₂ P.Through ls pss → ∀ {v x : Vertex} {ps : List α}, x ∈ exits →
          P.Along v ps x → ∃ y ∈ exits, P.Along v (ps ++ pss.flatten) y
  | 0, ls, pss, _, hcopies, hpasses, v, x, ps, hx, h => by
    obtain rfl : ls = [] := hcopies
    obtain rfl := List.forall₂_nil_left_iff.mp hpasses
    rw [List.flatten_nil, List.append_nil]
    exact ⟨x, hx, h⟩
  | k + 1, _, _, hback, ⟨ks, ms, rfl, hks, hms⟩, hpasses, v, x, ps, hx, h => by
    obtain ⟨first, rest, rfl, hfirst, hrest⟩ := forall₂_append_left.mp hpasses
    have hback := hback (Nat.succ_ne_zero k)
    obtain ⟨y, hy, hcopy⟩ := hpass hks hfirst
    rw [List.flatten_append, ← List.append_assoc]
    exact along_of_copies hpass (fun _ => hback) hms hrest hy (P.trans h (hback x hx) hcopy)

variable {rule : String → Option Node}

mutual

/-- **A node is passed through the leaves that it spells.** -/
theorem through_of_spells : ∀ {m : Node} {ls : List Node} {pss : List (List α)},
    g.Has (m.edges rule) → P.QuietInside m.subnodes → m.Spells ls →
      List.Forall₂ P.Through ls pss → P.Through m pss.flatten
  | .terminal .., _, _, _, _, hspells, hpasses
  | .charset .., _, _, _, _, hspells, hpasses
  | .reference .., _, _, _, _, hspells, hpasses => by
    rw [Node.Spells] at hspells
    subst hspells
    obtain ⟨ps, rest, hps, hrest, rfl⟩ := List.forall₂_cons_left_iff.mp hpasses
    obtain rfl := List.forall₂_nil_left_iff.mp hrest
    rwa [List.flatten_cons, List.flatten_nil, List.append_nil]
  | .sequence id parts, ls, pss, hedges, hquiet, hspells, hpasses => by
    rw [Node.subnodes] at hquiet
    rw [Node.edges] at hedges
    have hself := hquiet _ List.mem_cons_self fun hleaf => hleaf
    exact along_of_spellsAll hedges (fun k hk => hquiet k (List.mem_cons_of_mem _ hk)) hspells
      hpasses (List.mem_singleton.mpr rfl) (P.stop hself)
  | .choice id options, ls, pss, hedges, hquiet, hspells, hpasses => by
    rw [Node.subnodes] at hquiet
    rw [Node.edges] at hedges
    obtain ⟨x, hx, w, hw, h⟩ := along_of_spellsSome hedges
      (fun k hk => hquiet k (List.mem_cons_of_mem _ hk)) hspells hpasses
    exact ⟨x, hx, P.pass (hquiet _ List.mem_cons_self fun hleaf => hleaf) hw h⟩
  | .repetition id body min max form, ls, pss, hedges, hquiet, hspells, hpasses => by
    rw [Node.subnodes] at hquiet
    rw [Node.edges, has_append, has_cons] at hedges
    obtain ⟨hinside, henter, hback⟩ := hedges
    have hself := hquiet _ List.mem_cons_self fun hleaf => hleaf
    have hbody : ∀ {ls pss}, body.Spells ls → List.Forall₂ P.Through ls pss →
        P.Through body pss.flatten := through_of_spells hinside
      (fun k hk => hquiet k (List.mem_cons_of_mem _ hk))
    obtain ⟨k, hmin, hmax, hcopies⟩ := hspells
    cases k with
    | zero =>
      -- Without copies the node itself is the exit.
      obtain rfl : ls = [] := hcopies
      obtain rfl := List.forall₂_nil_left_iff.mp hpasses
      refine ⟨.node id, ?_, P.stop hself⟩
      rw [Node.exits, if_pos (Nat.le_zero.mp hmin), SortedSet.mem_insert]
      exact Or.inl rfl
    | succ k =>
      obtain ⟨ks, ms, rfl, hks, hms⟩ := hcopies
      obtain ⟨first, rest, rfl, hfirst, hrest⟩ := forall₂_append_left.mp hpasses
      obtain ⟨x, hx, hcopy⟩ := hbody hks hfirst
      have hloop : k ≠ 0 → ∀ x ∈ body.exits, .node body.id ∈ g.successors x := by
        intro hk x hx
        have hmany : (max.all fun m => m > 1) = true := by
          cases max with
          | none => rfl
          | some m =>
            have := hmax m rfl
            exact decide_eq_true (show 1 < m by omega)
        rw [if_pos hmany] at hback
        exact hback (x, .node body.id) (List.mem_map.mpr ⟨x, hx, rfl⟩)
      have hfirst : P.Along (.node id) first.flatten x :=
        P.pass hself henter hcopy
      obtain ⟨y, hy, h⟩ := along_of_copies hbody hloop hms hrest hx hfirst
      rw [List.flatten_append]
      refine ⟨y, ?_, h⟩
      rw [Node.exits]
      split
      · exact SortedSet.mem_insert.mpr (Or.inr hy)
      · exact hy

/-- Parts are passed one after the other, from where the sequence was entered. -/
theorem along_of_spellsAll : ∀ {parts ls : List Node} {pss : List (List α)}
    {entered : List Vertex}, g.Has (Node.sequenceEdges rule entered parts) →
      P.QuietInside (Node.listSubnodes parts) → Node.SpellsAll parts ls →
        List.Forall₂ P.Through ls pss → ∀ {v x : Vertex} {ps : List α}, x ∈ entered →
          P.Along v ps x →
            ∃ y ∈ Node.sequenceExits entered parts, P.Along v (ps ++ pss.flatten) y
  | [], ls, pss, entered, _, _, hspells, hpasses, v, x, ps, hx, h => by
    obtain rfl : ls = [] := hspells
    obtain rfl := List.forall₂_nil_left_iff.mp hpasses
    rw [List.flatten_nil, List.append_nil, Node.sequenceExits]
    exact ⟨x, hx, h⟩
  | m :: rest, _, _, entered, hedges, hquiet, ⟨ks, ms, rfl, hks, hms⟩, hpasses, v, x, ps, hx,
      h => by
    obtain ⟨first, later, rfl, hfirst, hlater⟩ := forall₂_append_left.mp hpasses
    rw [Node.listSubnodes] at hquiet
    rw [Node.sequenceEdges, has_append, has_append] at hedges
    obtain ⟨hinside, henter, hrest⟩ := hedges
    obtain ⟨y, hy, hpart⟩ := through_of_spells hinside
      (fun k hk => hquiet k (List.mem_append_left _ hk)) hks hfirst
    have hedge := henter (x, .node m.id) (List.mem_map.mpr ⟨x, hx, rfl⟩)
    rw [List.flatten_append, ← List.append_assoc, Node.sequenceExits]
    refine along_of_spellsAll hrest (fun k hk => hquiet k (List.mem_append_right _ hk)) hms hlater
      ?_ (P.trans h hedge hpart)
    split
    · exact SortedSet.mem_union.mpr (Or.inr hy)
    · exact hy

/-- One of several options is passed. -/
theorem along_of_spellsSome : ∀ {options ls : List Node} {pss : List (List α)} {id : Nat}
    {found : List Vertex}, g.Has (Node.choiceEdges rule id options) →
      P.QuietInside (Node.listSubnodes options) → Node.SpellsSome options ls →
        List.Forall₂ P.Through ls pss → ∃ x ∈ Node.choiceExits found options,
          ∃ w ∈ g.successors (.node id), P.Along w pss.flatten x
  | [], _, _, _, _, _, _, hspells, _ => hspells.elim
  | m :: rest, ls, pss, id, found, hedges, hquiet, hspells, hpasses => by
    rw [Node.listSubnodes] at hquiet
    rw [Node.choiceEdges, has_cons, has_append] at hedges
    obtain ⟨henter, hinside, hrest⟩ := hedges
    rw [Node.choiceExits]
    rcases hspells with hspells | hspells
    · obtain ⟨x, hx, h⟩ := through_of_spells hinside
        (fun k hk => hquiet k (List.mem_append_left _ hk)) hspells hpasses
      exact ⟨x, Node.mem_choiceExits rest (SortedSet.mem_union.mpr (Or.inr hx)), .node m.id,
        henter, h⟩
    · exact along_of_spellsSome hrest (fun k hk => hquiet k (List.mem_append_right _ hk)) hspells
        hpasses

end

end Passage

end Graph

/-! ### Edges at leaves -/

namespace Node

variable {rule : String → Option Node}

mutual

/-- **The edges of a leaf are edges of the node.** -/
theorem edges_subset_of_mem_leaves : ∀ {m l : Node}, l ∈ m.leaves → l.edges rule ⊆ m.edges rule
  | .terminal .., _, h | .charset .., _, h | .reference .., _, h => by
    rw [leaves, List.mem_singleton] at h
    rw [h]
    exact List.Subset.refl _
  | .sequence id parts, _, h => by
    rw [leaves] at h
    rw [edges]
    exact edges_subset_sequenceEdges h
  | .choice id options, _, h => by
    rw [leaves] at h
    rw [edges]
    exact edges_subset_choiceEdges h
  | .repetition id body min max form, _, h => by
    rw [leaves] at h
    rw [edges]
    exact fun e he => List.mem_append_left _ (edges_subset_of_mem_leaves h he)

theorem edges_subset_sequenceEdges : ∀ {parts : List Node} {l : Node} {entered : List Vertex},
    l ∈ listLeaves parts → l.edges rule ⊆ sequenceEdges rule entered parts
  | [], _, _, h => absurd h List.not_mem_nil
  | m :: rest, _, _, h => by
    rw [listLeaves, List.mem_append] at h
    rw [sequenceEdges]
    intro e he
    rcases h with h | h
    · exact List.mem_append_left _ (edges_subset_of_mem_leaves h he)
    · exact List.mem_append_right _ (List.mem_append_right _ (edges_subset_sequenceEdges h he))

theorem edges_subset_choiceEdges : ∀ {options : List Node} {l : Node} {id : Nat},
    l ∈ listLeaves options → l.edges rule ⊆ choiceEdges rule id options
  | [], _, _, h => absurd h List.not_mem_nil
  | m :: rest, _, _, h => by
    rw [listLeaves, List.mem_append] at h
    rw [choiceEdges]
    intro e he
    rcases h with h | h
    · exact List.mem_cons_of_mem _ (List.mem_append_left _ (edges_subset_of_mem_leaves h he))
    · exact List.mem_cons_of_mem _ (List.mem_append_right _ (edges_subset_choiceEdges h he))

end

end Node

/-! ### Nodes of rules -/

/-- **Numbers tell the nodes of a built grammar apart.** -/
theorem Draft.Coherent.numbered_of_build {d : Draft} (hd : d.Coherent) {g : Grammar}
    (h : d.build = .ok g) : g.Numbered := by
  intro n hn
  rw [(Draft.builds_of_build h).nodes] at hn ⊢
  exact (hd.numbered n hn n (Node.mem_subnodes_self n)).1

/-- Nodes of a rule are nodes of the grammar. -/
theorem Grammar.WellFormed.mem_nodes_of_mem_subnodes {g : Grammar} (hg : g.WellFormed)
    {name : String} {body : Node} (hbody : g.body? name = some body) {n : Node}
    (hn : n ∈ body.subnodes) : n ∈ g.nodes :=
  Array.mem_of_getElem? (hg.numbered ((Grammar.occurs_of_body? hbody).of_mem_subnodes hn))

/-! ### Edges of rules -/

namespace Graph

section Rules

variable {g : Grammar} (hg : g.WellFormed) (hbare : g.BareNames) {name : String} {body : Node}
  (hbody : g.body? name = some body)

include hg hbare hbody

/-- The graph of a grammar has the edges of its rules. -/
theorem has_ruleEdges : (ofGrammar g).Has (g.ruleEdges name body) :=
  fun _ he => (mem_successors_ofGrammar hg hbare).mpr ⟨name, body, hbody, he⟩

/-- **A reference in a rule leads to the body of the rule that it refers to.** -/
theorem mem_successors_reference {id : Nat} {other : String} {sender recipient : Option String}
    (hl : .reference id other sender recipient ∈ body.leaves) {target : Node}
    (htarget : g.body? other = some target) :
    .node target.id ∈ (ofGrammar g).successors (.node id) := by
  refine has_ruleEdges hg hbare hbody (.node id, .node target.id)
    (List.mem_append_left _ (Node.edges_subset_of_mem_leaves hl ?_))
  rw [Node.edges, htarget]
  exact List.mem_singleton.mpr rfl

variable {α : Type} {P : (ofGrammar g).Passage α}

/-- **A rule is left through its exit** once its body has been passed. -/
theorem Passage.along_rule (hquiet : P.Quiet (.exit name)) {ps : List α} (h : P.Through body ps) :
    P.Along (.node body.id) ps (.exit name) := by
  obtain ⟨x, hx, h⟩ := h
  have hexit : .exit name ∈ (ofGrammar g).successors x := has_ruleEdges hg hbare hbody
    (x, .exit name) (List.mem_append_right _ (List.mem_map.mpr ⟨x, hx, rfl⟩))
  have hleft := P.trans h hexit (P.stop hquiet)
  rwa [List.append_nil] at hleft

/-- **A rule is passed through the leaves that its body spells.** -/
theorem Passage.along_rule_of_spells (hquiet : P.Quiet (.exit name))
    (hinside : P.QuietInside body.subnodes) {ls : List Node} {pss : List (List α)}
    (hls : body.Spells ls) (hpasses : List.Forall₂ P.Through ls pss) :
    P.Along (.node body.id) pss.flatten (.exit name) :=
  along_rule hg hbare hbody hquiet
    (through_of_spells (has_append.mp (has_ruleEdges hg hbare hbody)).1 hinside hls hpasses)

end Rules

end Graph

end GrammarFuzzing
