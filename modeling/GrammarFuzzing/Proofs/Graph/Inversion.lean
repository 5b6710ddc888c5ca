import GrammarFuzzing.Proofs.Graph.Passage

/-!
# Where edges lead

An edge of the graph of a grammar enters a rule through a reference, or it stays with one rule. In
the second case it starts where a node of the body is passed (`GrammarFuzzing.Node.passed`), which
for a reference is the exit of the rule that it refers to, and leads to a node of the body or to the
exit of the rule. `GrammarFuzzing.Grammar.Hops` has one constructor for each of these, and every
edge is one of them (`GrammarFuzzing.Grammar.HasEdge.hops`).

Two things follow that the visits of the graph do not show. From a reference there is no way but
into its rule (`GrammarFuzzing.Grammar.HasEdge.enters`). And to a node that is nowhere a part of
another one there is no way but from references to rules of which it is the body
(`GrammarFuzzing.Grammar.HasEdge.entered`).
-/

namespace GrammarFuzzing

namespace Node

variable {rule : String → Option Node} {around : List Node}

/-- **The place where a node is passed**: the node itself, or for a reference the exit of its
rule. -/
def passed : Node → Vertex
  | .reference _ name _ _ => .exit name
  | n => .node n.id

theorem id_eq_of_passed {n : Node} {id : Nat} (h : n.passed = .node id) : n.id = id := by
  cases n with
  | reference => exact absurd h (by simp [passed])
  | terminal | charset | sequence | choice | repetition => exact Vertex.node.inj h

/-! ### Exits -/

mutual

/-- **A node is left where one of its nodes is passed.** -/
theorem mem_passed_of_mem_exits : ∀ {n : Node}, n.subnodes ⊆ around →
    ∀ v ∈ n.exits, v ∈ around.map passed
  | .terminal .., h, v, hv | .charset .., h, v, hv | .reference .., h, v, hv => by
    rw [exits, List.mem_singleton] at hv
    exact List.mem_map.mpr ⟨_, h (mem_subnodes_self _), hv.symm⟩
  | .sequence id parts, h, v, hv => by
    rw [subnodes, List.cons_subset] at h
    rw [exits] at hv
    refine mem_passed_of_mem_sequenceExits h.2 (fun w hw => ?_) v hv
    exact List.mem_map.mpr ⟨_, h.1, (List.mem_singleton.mp hw).symm⟩
  | .choice id options, h, v, hv => by
    rw [subnodes, List.cons_subset] at h
    rw [exits] at hv
    exact mem_passed_of_mem_choiceExits h.2 (fun w hw => absurd hw List.not_mem_nil) v hv
  | .repetition id body min max form, h, v, hv => by
    rw [subnodes, List.cons_subset] at h
    rw [exits] at hv
    split at hv
    · rcases SortedSet.mem_insert.mp hv with rfl | hv
      · exact List.mem_map.mpr ⟨_, h.1, rfl⟩
      · exact mem_passed_of_mem_exits h.2 v hv
    · exact mem_passed_of_mem_exits h.2 v hv

theorem mem_passed_of_mem_sequenceExits : ∀ {parts : List Node} {entered : List Vertex},
    listSubnodes parts ⊆ around → (∀ v ∈ entered, v ∈ around.map passed) →
      ∀ v ∈ sequenceExits entered parts, v ∈ around.map passed
  | [], _, _, hentered => hentered
  | n :: rest, entered, h, hentered => by
    rw [listSubnodes, List.append_subset] at h
    rw [sequenceExits]
    refine mem_passed_of_mem_sequenceExits h.2 fun v hv => ?_
    split at hv
    · exact (SortedSet.mem_union.mp hv).elim (hentered v) (mem_passed_of_mem_exits h.1 v)
    · exact mem_passed_of_mem_exits h.1 v hv

theorem mem_passed_of_mem_choiceExits : ∀ {options : List Node} {found : List Vertex},
    listSubnodes options ⊆ around → (∀ v ∈ found, v ∈ around.map passed) →
      ∀ v ∈ choiceExits found options, v ∈ around.map passed
  | [], _, _, hfound => hfound
  | n :: rest, found, h, hfound => by
    rw [listSubnodes, List.append_subset] at h
    rw [choiceExits]
    exact mem_passed_of_mem_choiceExits h.2 fun v hv =>
      (SortedSet.mem_union.mp hv).elim (hfound v) (mem_passed_of_mem_exits h.1 v)

end

/-! ### Edges -/

/-- **An edge stays among some nodes**: it starts where one of them is passed, and leads to one. -/
def Stays (around : List Node) (e : Vertex × Vertex) : Prop :=
  e.1 ∈ around.map passed ∧ ∃ k ∈ around, e.2 = .node k.id

/-- **An edge enters a rule** through a reference among some nodes. -/
def Enters (rule : String → Option Node) (around : List Node) (e : Vertex × Vertex) : Prop :=
  ∃ id name sender recipient target, .reference id name sender recipient ∈ around ∧
    rule name = some target ∧ e = (.node id, .node target.id)

mutual

/-- **Every edge inside a node stays there or enters a rule.** -/
theorem stays_or_enters : ∀ {n : Node}, n.subnodes ⊆ around →
    ∀ e ∈ n.edges rule, Stays around e ∨ Enters rule around e
  | .terminal .., _, _, he | .charset .., _, _, he => by
    rw [edges] at he
    exact absurd he List.not_mem_nil
  | .reference id name sender recipient, h, e, he => by
    rw [edges] at he
    obtain ⟨target, htarget, rfl⟩ := List.mem_map.mp he
    exact Or.inr ⟨id, name, sender, recipient, target, h (mem_subnodes_self _),
      Option.mem_toList.mp htarget, rfl⟩
  | .sequence id parts, h, e, he => by
    rw [subnodes, List.cons_subset] at h
    rw [edges] at he
    refine stays_or_enters_sequence h.2 (fun w hw => ?_) e he
    exact List.mem_map.mpr ⟨_, h.1, (List.mem_singleton.mp hw).symm⟩
  | .choice id options, h, e, he => by
    rw [subnodes, List.cons_subset] at h
    rw [edges] at he
    exact stays_or_enters_choice h.2 (List.mem_map.mpr ⟨_, h.1, rfl⟩) e he
  | .repetition id body min max form, h, e, he => by
    rw [subnodes, List.cons_subset] at h
    have hbody : body ∈ around := h.2 (mem_subnodes_self body)
    rw [edges, List.mem_append, List.mem_cons] at he
    rcases he with he | rfl | he
    · exact stays_or_enters h.2 e he
    · exact Or.inl ⟨List.mem_map.mpr ⟨_, h.1, rfl⟩, body, hbody, rfl⟩
    · -- The edges back to the body, if there may be several copies.
      split at he
      · obtain ⟨v, hv, rfl⟩ := List.mem_map.mp he
        exact Or.inl ⟨mem_passed_of_mem_exits h.2 v hv, body, hbody, rfl⟩
      · exact absurd he List.not_mem_nil

theorem stays_or_enters_sequence : ∀ {parts : List Node} {entered : List Vertex},
    listSubnodes parts ⊆ around → (∀ v ∈ entered, v ∈ around.map passed) →
      ∀ e ∈ sequenceEdges rule entered parts, Stays around e ∨ Enters rule around e
  | [], _, _, _, e, he => by
    rw [sequenceEdges] at he
    exact absurd he List.not_mem_nil
  | n :: rest, entered, h, hentered, e, he => by
    rw [listSubnodes, List.append_subset] at h
    rw [sequenceEdges, List.mem_append, List.mem_append] at he
    rcases he with he | he | he
    · exact stays_or_enters h.1 e he
    · obtain ⟨v, hv, rfl⟩ := List.mem_map.mp he
      exact Or.inl ⟨hentered v hv, n, h.1 (mem_subnodes_self n), rfl⟩
    · refine stays_or_enters_sequence h.2 (fun v hv => ?_) e he
      split at hv
      · exact (SortedSet.mem_union.mp hv).elim (hentered v) (mem_passed_of_mem_exits h.1 v)
      · exact mem_passed_of_mem_exits h.1 v hv

theorem stays_or_enters_choice : ∀ {options : List Node} {id : Nat},
    listSubnodes options ⊆ around → .node id ∈ around.map passed →
      ∀ e ∈ choiceEdges rule id options, Stays around e ∨ Enters rule around e
  | [], _, _, _, e, he => by
    rw [choiceEdges] at he
    exact absurd he List.not_mem_nil
  | n :: rest, id, h, hid, e, he => by
    rw [listSubnodes, List.append_subset] at h
    rw [choiceEdges, List.mem_cons, List.mem_append] at he
    rcases he with rfl | he | he
    · exact Or.inl ⟨hid, n, h.1 (mem_subnodes_self n), rfl⟩
    · exact stays_or_enters h.1 e he
    · exact stays_or_enters_choice h.2 hid e he

end

end Node

namespace Grammar

/-- **What an edge of a grammar is.** -/
inductive Hops (g : Grammar) (v w : Vertex) : Prop
  /-- It enters a rule through a reference to it. -/
  | enter {name other : String} {body target : Node} {id : Nat} {sender recipient : Option String}
      (hbody : g.body? name = some body)
      (hreference : .reference id other sender recipient ∈ body.subnodes)
      (htarget : g.body? other = some target) (hv : v = .node id) (hw : w = .node target.id)
  /-- It leads from one node of a body to another. -/
  | within {name : String} {body m k : Node} (hbody : g.body? name = some body)
      (hinner : ¬ body.IsLeaf) (hm : m ∈ body.subnodes) (hk : k ∈ body.subnodes)
      (hv : v = m.passed) (hw : w = .node k.id)
  /-- It leaves a rule. -/
  | leave {name : String} {body m : Node} (hbody : g.body? name = some body)
      (hm : m ∈ body.subnodes) (hv : v = m.passed) (hw : w = .exit name)

/-- **Every edge is one of the three.** -/
theorem HasEdge.hops {g : Grammar} {v w : Vertex} (h : g.HasEdge (v, w)) : g.Hops v w := by
  obtain ⟨name, body, hbody, he⟩ := h
  rcases List.mem_append.mp he with he | he
  · by_cases hleaf : body.IsLeaf
    · cases body with
      | terminal | charset =>
        rw [Node.edges] at he
        exact absurd he List.not_mem_nil
      | reference id other sender recipient =>
        rw [Node.edges] at he
        obtain ⟨target, htarget, heq⟩ := List.mem_map.mp he
        obtain ⟨rfl, rfl⟩ := Prod.mk.inj heq
        exact .enter hbody (Node.mem_subnodes_self _) (Option.mem_toList.mp htarget) rfl rfl
      | sequence | choice | repetition => exact hleaf.elim
    · rcases Node.stays_or_enters (List.Subset.refl _) _ he with
        ⟨hv, k, hk, rfl⟩ | ⟨id, other, sender, recipient, target, href, htarget, heq⟩
      · obtain ⟨m, hm, rfl⟩ := List.mem_map.mp hv
        exact .within hbody hleaf hm hk rfl rfl
      · obtain ⟨rfl, rfl⟩ := Prod.mk.inj heq
        exact .enter hbody href htarget rfl rfl
  · obtain ⟨x, hx, heq⟩ := List.mem_map.mp he
    obtain ⟨rfl, rfl⟩ := Prod.mk.inj heq
    obtain ⟨m, hm, rfl⟩ := List.mem_map.mp (Node.mem_passed_of_mem_exits (List.Subset.refl _) x hx)
    exact .leave hbody hm rfl rfl

section Numbered

variable {g : Grammar} (hg : g.WellFormed) (hnumbered : g.Numbered)

include hg hnumbered

/-- **A reference leads into its rule only.** -/
theorem HasEdge.enters {id : Nat} {name : String} {sender recipient : Option String}
    (hn : .reference id name sender recipient ∈ g.nodes) {w : Vertex}
    (h : g.HasEdge (.node id, w)) : ∃ target, g.body? name = some target ∧ w = .node target.id := by
  -- No node is passed where a reference is.
  have hpassed : ∀ {other : String} {body m : Node}, g.body? other = some body →
      m ∈ body.subnodes → Vertex.node id ≠ m.passed := by
    intro other body m hbody hm heq
    have hm := hg.mem_nodes_of_mem_subnodes hbody hm
    rw [hnumbered.eq_of_id_eq hm hn (Node.id_eq_of_passed heq.symm)] at heq
    exact absurd heq (by simp [Node.passed])
  cases h.hops with
  | enter hbody href htarget hv hw =>
    have hm := hg.mem_nodes_of_mem_subnodes hbody href
    have hmn := hnumbered.eq_of_id_eq hm hn (Vertex.node.inj hv).symm
    obtain ⟨-, rfl, -, -⟩ := Node.reference.inj hmn
    exact ⟨_, htarget, hw⟩
  | within hbody _ hm _ hv => exact absurd hv (hpassed hbody hm)
  | leave hbody hm hv => exact absurd hv (hpassed hbody hm)

/-- **A node that is no part of another one is entered from references** to rules of which it is the
body. -/
theorem HasEdge.entered {n : Node} (hn : n ∈ g.nodes)
    (hwhole : ∀ name body, g.body? name = some body → ¬ body.IsLeaf → n ∉ body.subnodes)
    {v : Vertex}
    (h : g.HasEdge (v, .node n.id)) : ∃ id name sender recipient,
      .reference id name sender recipient ∈ g.nodes ∧ v = .node id ∧ g.body? name = some n := by
  cases h.hops with
  | @enter _ other _ target id sender recipient hbody href htarget hv hw =>
    have hm := hg.mem_nodes_of_mem_subnodes htarget (Node.mem_subnodes_self target)
    obtain rfl := hnumbered.eq_of_id_eq hm hn (Vertex.node.inj hw).symm
    exact ⟨id, other, sender, recipient, hg.mem_nodes_of_mem_subnodes hbody href, hv, htarget⟩
  | within hbody hinner _ hk _ hw =>
    have hm := hg.mem_nodes_of_mem_subnodes hbody hk
    obtain rfl := hnumbered.eq_of_id_eq hm hn (Vertex.node.inj hw).symm
    exact absurd hk (hwhole _ _ hbody hinner)
  | leave _ _ _ hw => exact absurd hw (by simp)

end Numbered

end Grammar

end GrammarFuzzing
