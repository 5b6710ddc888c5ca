import GrammarFuzzing.Proofs.Graph.Inversion
import GrammarFuzzing.Proofs.Packet.Navigation

/-!
# Where packets are entered

A navigator has two marks for the places of its graph. It knows which packets references enter, and
the graph knows which references are messages and cost a turn. In the rules that can be reached
without entering a message both marks agree: a message there has become a reference to the rule of
its packet. Message content is left as it is, so a message in there costs a turn and enters nothing
(`GrammarFuzzing.Reduction.Rewrites.isSome_packetAt?`).

From an entry the only way is to the token of the packet, and the only way to the token is from an
entry of the packet (`GrammarFuzzing.Reduction.Rewrites.eq_token_of_packetAt?`,
`GrammarFuzzing.Reduction.Rewrites.packetAt?_of_edge_token`). Its text, however, may be that of a
terminal in message content as well.

`GrammarFuzzing.Reduction.Rewrites` is about all nodes and rules of a reduction, message content
included, whereas `GrammarFuzzing.Reduction.Reduces` is about control rules.
-/

namespace GrammarFuzzing

namespace Reduction

open Node hiding id

variable {d : Draft} {g : Grammar} {r : Reduction} {ids : List Nat}

/-! ### Reduced nodes -/

/-- Senders stay. -/
@[simp] theorem sender?_reduceNode (packets : List Packet) (control : Nat → Bool) (n : Node) :
    (reduceNode packets control n).sender? = n.sender? := by
  cases n with
  | terminal | charset =>
    rw [reduceNode]
    split <;> rfl
  | reference =>
    rw [reduceNode]
    split
    · split <;> rfl
    · rfl
  | sequence | choice | repetition =>
    rw [reduceNode]
    rfl

/-- Outside control rules leaves stay. -/
theorem reduceNode_of_not_control {packets : List Packet} {control : Nat → Bool} {l : Node}
    (hl : l.IsLeaf) (h : control l.id = false) : reduceNode packets control l = l := by
  cases l with
  | terminal id | charset id =>
    change control id = false at h
    rw [reduceNode, h]
    rfl
  | reference id =>
    change control id = false at h
    rw [reduceNode, h]
    split <;> rfl
  | sequence | choice | repetition => exact hl.elim

/-- A terminal that is left is one outside control rules. -/
theorem eq_terminal_of_reduceNode {packets : List Packet} {control : Nat → Bool} {n : Node}
    {id : Nat} {value : Literal} (h : reduceNode packets control n = .terminal id value) :
    control id = false ∧ n = .terminal id value := by
  have hid : n.id = id := by rw [← id_reduceNode packets control, h]; rfl
  have hleaf : n.IsLeaf := isLeaf_of_reduceNode packets control (h ▸ trivial)
  cases hcontrol : control id with
  | false => exact ⟨rfl, by rw [← h, reduceNode_of_not_control hleaf (hid ▸ hcontrol)]⟩
  | true =>
    cases n with
    | terminal i | charset i =>
      obtain rfl : i = id := hid
      rw [reduceNode, if_pos hcontrol] at h
      exact absurd h (by simp)
    | reference =>
      rcases reduceNode_of_isLeaf packets control hleaf with hn | ⟨_, _, _, hn⟩
      all_goals exact absurd (hn.symm.trans h) (by simp)
    | sequence | choice | repetition => exact hleaf.elim

theorem token_inj {j k : Nat} (h : token j = token k) : j = k := by
  have hjoin : String.join ([j].map token) = String.join ([k].map token) := by
    rw [List.map_singleton, List.map_singleton, h]
  exact (List.cons.inj (join_token_inj.mp hjoin)).1

/-! ### All of a reduction -/

/-- **A reduction with all its nodes and rules**: those of the grammar, reduced, and texts with new
numbers. A token is the text of the rule of its packet only. -/
structure Rewrites (g : Grammar) (ids : List Nat) (r : Reduction) : Prop where
  original : g.WellFormed
  numbers : g.Numbered
  ruled : ∀ {id name sender recipient}, .reference id name sender recipient ∈ g.nodes →
    name ∈ g.rules.keys
  unmarked : Unmarked g
  packets : r.packets = Packet.all g
  wellFormed : r.grammar.WellFormed
  bareNames : r.grammar.BareNames
  numbered : r.grammar.Numbered
  node : ∀ n ∈ r.grammar.nodes, (∃ m ∈ g.nodes, n = reduceNode r.packets ids.contains m) ∨
    ∃ id text, g.nodes.size ≤ id ∧ n = .terminal id (.text text)
  rule : ∀ {name body}, r.grammar.body? name = some body →
    (∃ m, g.body? name = some m ∧ body = reduceNode r.packets ids.contains m) ∨
      name ∉ g.rules.keys ∧ ∃ id text, g.nodes.size ≤ id ∧ body = .terminal id (.text text) ∧
        ∀ k, text = token k → name = packetRule k
  token : ∀ p ∈ r.packets, ∃ id, g.nodes.size ≤ id ∧
    r.grammar.body? (packetRule (r.packets.idxOf p)) = some (.terminal id (.text (r.tokenOf p)))

/-- **What is reduced has all its nodes and rules.** -/
theorem exists_rewrites (hd : d.Coherent) (h : d.build = .ok g) (hbare : g.BareNames)
    (hmarks : Unmarked g) (hr : g.reduce = .ok r) :
    ∃ ids, controlIds g = .ok ids ∧ ControlIds g ids ∧ Rewrites g ids r := by
  have hb := Draft.builds_of_build h
  have hg := hd.wellFormed h
  have hnumbered := numbered_of_reduce hd h hr
  obtain ⟨ids, hids, hpackets, -, hbuild⟩ := exists_of_reduce hr
  have hbuilds := Draft.builds_of_build hbuild
  have hreduced := coherent_addTexts
    (coherent_reduceBodies (hb.coherent_toDraft hd) ids.contains) (addedTexts g ids.contains)
  have hsize : (reduceBodies g ids.contains).nodes.size = g.nodes.size := Array.size_map
  have hcontrol := controlIds_eq_ok hg hbare (Dictionary.has_iff_mem_keys.mp hb.has_start) hids
  refine ⟨ids, hids, hcontrol, hg, hd.numbered_of_build h, mem_keys_of_reference hb, hmarks,
    hpackets, hreduced.wellFormed hbuild, bareNames_of_builds hbuilds hbare, hnumbered,
    fun n hn => ?_, fun {name body} hbody => ?_, fun p hp => ?_⟩
  · rw [hpackets]
    rcases mem_nodes_addTexts (hbuilds.nodes ▸ hn) with hn | ⟨id, hid, p, -, rfl⟩
    · obtain ⟨m, hm, rfl⟩ := Array.mem_map.mp hn
      exact Or.inl ⟨m, hm, rfl⟩
    · exact Or.inr ⟨id, p.2, hsize ▸ hid, rfl⟩
  · rw [hpackets]
    by_cases hadded : name ∈ (addedTexts g ids.contains).map (·.1)
    · obtain ⟨⟨_, text⟩, hp, rfl⟩ := List.mem_map.mp hadded
      obtain ⟨id, hid, htext⟩ := body?_of_mem_addedTexts hbuilds hp
      obtain rfl := Option.some.inj (hbody.symm.trans htext)
      refine Or.inr ⟨fun hname => notMem_addedTexts hmarks hname hadded, id, text, hid, rfl,
        fun k hk => ?_⟩
      rcases mem_addedTexts hp with ⟨j, hj⟩ | ⟨i, hi⟩
      · obtain ⟨rfl, rfl⟩ := Prod.mk.inj hj
        exact congrArg packetRule (token_inj hk)
      · obtain ⟨-, rfl⟩ := Prod.mk.inj hi
        have hlist := congrArg String.toList hk
        rw [toList_token] at hlist
        exact absurd hlist (by simp)
    · rw [Grammar.body?, hbuilds.rules, find?_addTexts_of_notMem bareName_addedTexts hadded]
        at hbody
      have hmap := (Dictionary.find?_map _ _ _).symm.trans hbody
      obtain ⟨m, hm, rfl⟩ := Option.map_eq_some_iff.mp hmap
      exact Or.inl ⟨m, hm, rfl⟩
  · rw [hpackets] at hp
    rw [tokenOf, hpackets]
    exact body?_of_mem_addedTexts hbuilds (packet_mem_addedTexts (List.idxOf_lt_length_of_mem hp))

section Rewrites

variable (h : Rewrites g ids r)

include h

theorem Rewrites.id_lt_size {m : Node} (hm : m ∈ g.nodes) : m.id < g.nodes.size :=
  (Array.getElem?_eq_some_iff.mp (h.numbers m hm)).1

/-- **The body of a rule is reduced, or it is a text with a new number.** -/
theorem Rewrites.subnode {name : String} {body n : Node} (hbody : r.grammar.body? name = some body)
    (hn : n ∈ body.subnodes) : (∃ m k, g.body? name = some m ∧ k ∈ m.subnodes ∧
      body.id = m.id ∧ n = reduceNode r.packets ids.contains k) ∨
        g.nodes.size ≤ body.id ∧ n = body ∧ body.IsLeaf ∧ n.passed = .node n.id := by
  rcases h.rule hbody with ⟨m, hm, rfl⟩ | ⟨-, id, text, hid, rfl, -⟩
  · rw [subnodes_reduceNode] at hn
    obtain ⟨k, hk, rfl⟩ := List.mem_map.mp hn
    exact Or.inl ⟨m, k, hm, hk, id_reduceNode _ _ _, rfl⟩
  · obtain rfl := List.mem_singleton.mp hn
    exact Or.inr ⟨hid, rfl, trivial, rfl⟩

/-! ### Entries and messages -/

/-- Nodes of the grammar enter nothing. -/
theorem Rewrites.entered?_eq_none {m : Node} (hm : m ∈ g.nodes) : r.entered? m = none := by
  cases m with
  | reference => exact packetOfRule?_eq_none (h.unmarked _ (h.ruled hm)).1
  | terminal | charset | sequence | choice | repetition => rfl

/-- **A message in a control rule becomes a reference to the rule of its packet.** -/
theorem Rewrites.reduceNode_message {m : Node} (hm : m ∈ g.nodes) (hcontrol : m.id ∈ ids)
    {p : Packet} (hp : Packet.ofReference? m = some p) : p ∈ r.packets ∧
      reduceNode r.packets ids.contains m =
        .reference m.id (packetRule (r.packets.idxOf p)) m.sender? m.recipient? := by
  have hmem : p ∈ r.packets := by
    rw [h.packets, Packet.all, SortedSet.mem_ofList, List.mem_filterMap]
    exact ⟨m, Array.mem_toList_iff.mpr hm, hp⟩
  cases m with
  | reference id name sender recipient =>
    refine ⟨hmem, ?_⟩
    rw [reduceNode, hp, Option.bind_some, idxOf?_of_mem hmem]
    exact if_pos (List.contains_iff_mem.mpr hcontrol)
  | terminal | charset | sequence | choice | repetition =>
    exact absurd hp (by simp [Packet.ofReference?])

/-- **A reduced node enters the packet that the node sends**, if it is a control node. -/
theorem Rewrites.entered?_reduceNode {m : Node} (hm : m ∈ g.nodes) :
    r.entered? (reduceNode r.packets ids.contains m) =
      if m.id ∈ ids then Packet.ofReference? m else none := by
  split
  · rename_i hcontrol
    cases hp : Packet.ofReference? m with
    | some p =>
      obtain ⟨hmem, hreduced⟩ := h.reduceNode_message hm hcontrol hp
      rw [hreduced]
      exact packetOfRule?_of_mem hmem
    | none =>
      cases m with
      | terminal id | charset id =>
        have hcontrol : ids.contains id = true := List.contains_iff_mem.mpr hcontrol
        rw [reduceNode, if_pos hcontrol]
        exact packetOfRule?_literalRule r id
      | reference id name sender recipient =>
        cases sender with
        | none => exact h.entered?_eq_none hm
        | some sender => exact absurd hp (by simp [Packet.ofReference?])
      | sequence | choice | repetition => rfl
  · rename_i hcontrol
    by_cases hleaf : m.IsLeaf
    · rw [reduceNode_of_not_control hleaf (by simpa using hcontrol)]
      exact h.entered?_eq_none hm
    · cases m with
      | terminal | charset | reference => exact absurd trivial hleaf
      | sequence | choice | repetition => rfl

/-- **A node of a reduction enters a packet** exactly if it is a message and a control node. -/
theorem Rewrites.isSome_entered? {n : Node} (hn : n ∈ r.grammar.nodes) :
    (r.entered? n).isSome = true ↔ n.sender?.isSome = true ∧ n.id ∈ ids := by
  rcases h.node n hn with ⟨m, hm, rfl⟩ | ⟨id, text, -, rfl⟩
  · rw [h.entered?_reduceNode hm, sender?_reduceNode, id_reduceNode]
    split
    · rename_i hcontrol
      rw [and_iff_left hcontrol]
      cases m with
      | reference id name sender recipient => cases sender <;> simp [Packet.ofReference?, sender?]
      | terminal | charset | sequence | choice | repetition =>
        simp [Packet.ofReference?, sender?]
    · rename_i hcontrol
      simp [hcontrol]
  · simp [entered?, sender?]

/-- What is entered at a place, by the node there. -/
theorem Rewrites.packetAt?_eq_some {v : Vertex} {p : Packet} :
    (Navigator.of r).packetAt? v = some p ↔
      ∃ n ∈ r.grammar.nodes, v = .node n.id ∧ r.entered? n = some p := by
  constructor
  · intro hv
    cases v with
    | node id =>
      obtain ⟨n, hn, hentry⟩ := List.mem_filterMap.mp (Dictionary.mem_of_find? hv)
      have hn := Array.mem_toList_iff.mp hn
      have hid : id = n.id := by
        split at hentry
        · obtain ⟨_, -, heq⟩ := Option.map_eq_some_iff.mp hentry
          exact (congrArg Prod.fst heq).symm
        · exact absurd hentry (by simp)
      subst hid
      exact ⟨n, hn, rfl, (packetAt?_node h.numbered hn).symm.trans hv⟩
    | exit => exact absurd hv (by simp [Navigator.packetAt?])
  · rintro ⟨n, hn, rfl, hentered⟩
    exact (packetAt?_node h.numbered hn).trans hentered

/-- **A packet is entered** at the messages that are control nodes. -/
theorem Rewrites.isSome_packetAt? {v : Vertex} :
    ((Navigator.of r).packetAt? v).isSome = true ↔
      r.grammar.messageAt v = true ∧ ∃ id ∈ ids, v = .node id := by
  rw [Grammar.messageAt_iff, Option.isSome_iff_exists]
  constructor
  · rintro ⟨p, hp⟩
    obtain ⟨n, hn, rfl, hentered⟩ := h.packetAt?_eq_some.mp hp
    obtain ⟨hsender, hid⟩ := (h.isSome_entered? hn).mp (hentered ▸ rfl)
    exact ⟨⟨n, hn, hsender, rfl⟩, n.id, hid, rfl⟩
  · rintro ⟨⟨n, hn, hsender, rfl⟩, id, hid, hnode⟩
    obtain rfl := Vertex.node.inj hnode
    obtain ⟨p, hp⟩ := Option.isSome_iff_exists.mp ((h.isSome_entered? hn).mpr ⟨hsender, hid⟩)
    exact ⟨p, h.packetAt?_eq_some.mpr ⟨n, hn, rfl, hp⟩⟩

/-! ### Entries and tokens -/

/-- **The token of a packet** is a text with a new number. -/
theorem Rewrites.token_mem_nodes {p : Packet} {id : Nat} (hid : r.tokenNode? p = some id) :
    p ∈ r.packets ∧ g.nodes.size ≤ id ∧ .terminal id (.text (r.tokenOf p)) ∈ r.grammar.nodes := by
  have hp : p ∈ r.packets := by
    by_contra hno
    rw [tokenNode?, List.idxOf?_eq_none_iff.mpr hno] at hid
    exact absurd hid (by simp)
  obtain ⟨token, hnew, hbody⟩ := h.token p hp
  obtain rfl := Option.some.inj ((tokenNode?_eq_some h.bareNames hp hbody).symm.trans hid)
  exact ⟨hp, hnew, h.wellFormed.mem_nodes_of_mem_subnodes hbody (mem_subnodes_self _)⟩

/-- A terminal enters nothing, and is no message. -/
theorem Rewrites.quiet_terminal {id : Nat} {value : Literal}
    (hid : .terminal id value ∈ r.grammar.nodes) : (Navigator.of r).packetAt? (.node id) = none ∧
      r.grammar.messageAt (.node id) = false := by
  refine ⟨packetAt?_node h.numbered hid, Bool.eq_false_iff.mpr fun hmessage => ?_⟩
  obtain ⟨n, hn, hsender, hnode⟩ := Grammar.messageAt_iff.mp hmessage
  obtain rfl := h.numbered.eq_of_id_eq hn hid (Vertex.node.inj hnode).symm
  exact absurd hsender (by simp [sender?])

/-- **Whoever enters a packet refers to its rule.** -/
theorem Rewrites.exists_reference {n : Node} (hn : n ∈ r.grammar.nodes) {p : Packet}
    (hp : r.entered? n = some p) : p ∈ r.packets ∧ ∃ sender recipient,
      n = .reference n.id (packetRule (r.packets.idxOf p)) sender recipient := by
  rcases h.node n hn with ⟨m, hm, rfl⟩ | ⟨id, text, -, rfl⟩
  · rw [h.entered?_reduceNode hm] at hp
    split at hp
    · rename_i hcontrol
      obtain ⟨hmem, hreduced⟩ := h.reduceNode_message hm hcontrol hp
      rw [hreduced]
      exact ⟨hmem, _, _, rfl⟩
    · exact absurd hp (by simp)
  · exact absurd hp (by simp [entered?])

/-- **From an entry the only way is to the token.** -/
theorem Rewrites.eq_token_of_packetAt? {v w : Vertex} {p : Packet}
    (hp : (Navigator.of r).packetAt? v = some p)
    (hw : w ∈ (Navigator.of r).graph.successors v) :
    ∃ id, r.tokenNode? p = some id ∧ w = .node id := by
  obtain ⟨n, hn, rfl, hentered⟩ := h.packetAt?_eq_some.mp hp
  obtain ⟨hmem, sender, recipient, hreference⟩ := h.exists_reference hn hentered
  have hedge := (Graph.mem_successors_ofGrammar h.wellFormed h.bareNames).mp hw
  obtain ⟨target, htarget, rfl⟩ := hedge.enters h.wellFormed h.numbered (hreference ▸ hn)
  exact ⟨target.id, tokenNode?_eq_some h.bareNames hmem htarget, rfl⟩

/-- **The only way to the token of a packet is from an entry.** -/
theorem Rewrites.packetAt?_of_edge_token {v : Vertex} {p : Packet} {id : Nat}
    (hp : p ∈ r.packets) (hnew : g.nodes.size ≤ id)
    (hid : .terminal id (.text (r.tokenOf p)) ∈ r.grammar.nodes)
    (hw : .node id ∈ (Navigator.of r).graph.successors v) :
    (Navigator.of r).packetAt? v = some p := by
  have hedge := (Graph.mem_successors_ofGrammar h.wellFormed h.bareNames).mp hw
  obtain ⟨i, name, sender, recipient, hn, rfl, hbody⟩ :=
    hedge.entered h.wellFormed h.numbered hid fun name body hbody hinner hmem => by
      -- What lies in a rule of the grammar has no new number.
      rcases h.subnode hbody hmem with ⟨m, k, hm, hk, -, heq⟩ | ⟨-, -, hleaf, -⟩
      · have hlt := h.id_lt_size (h.original.mem_nodes_of_mem_subnodes hm hk)
        rw [← id_reduceNode r.packets ids.contains, ← heq] at hlt
        exact absurd hnew (Nat.not_le.mpr hlt)
      · exact absurd hleaf hinner
  refine h.packetAt?_eq_some.mpr ⟨_, hn, rfl, ?_⟩
  -- The body is a text that was added, and only one rule has the text.
  rcases h.rule hbody with ⟨m, hm, heq⟩ | ⟨-, _, text, -, heq, hname⟩
  · have hlt := h.id_lt_size (h.original.mem_nodes_of_mem_subnodes hm (mem_subnodes_self m))
    rw [← id_reduceNode r.packets ids.contains, ← heq] at hlt
    exact absurd hnew (Nat.not_le.mpr hlt)
  · obtain rfl := hname _ (Literal.text.inj (Node.terminal.inj heq).2).symm
    exact packetOfRule?_of_mem hp

end Rewrites

end Reduction

end GrammarFuzzing
