import GrammarFuzzing.Proofs.Packet.Entries

/-!
# Ways as sequences of packets

The packets on a way from packet to packet follow each other: the first is among the successors of
the packet where the way starts, and each later one among those of the one before it. For between
two packets the way leads from the token of the first, without entering another, to the entry of the
second (`GrammarFuzzing.Reduction.Rewrites.isChain_packets`).

What else is said of ways depends on message content. A rule that is used by control rules and in
message content has one exit for both, so a way may go on in the content of a message that was never
entered. Two things can go wrong there. A text that reads like the token of the goal ends the way,
which then does not enter the goal. And a message within the message costs a turn, but is no packet
on the way. If neither occurs outside control rules, a way ends with its goal and costs a turn for
each of its packets; nor do they matter if message content is apart from control rules
(`GrammarFuzzing.Reduction.Apart`), since no way gets there
(`GrammarFuzzing.Reduction.Rewrites.inside_of_edge`).
-/

namespace GrammarFuzzing

namespace Reduction

open Node hiding id

variable {d : Draft} {g : Grammar} {r : Reduction} {ids : List Nat}

/-- **Message content is apart from control rules**: a rule whose body is no control node has no
control node in it, and refers to no rule whose body is one. -/
def Apart (g : Grammar) (ids : List Nat) : Prop :=
  ∀ p ∈ g.rules, p.2.id ∉ ids → (∀ n ∈ p.2.subnodes, n.id ∉ ids) ∧
    ∀ other ∈ p.2.references, ∀ target ∈ g.body? other, target.id ∉ ids

instance (g : Grammar) (ids : List Nat) : Decidable (Apart g ids) :=
  inferInstanceAs (Decidable (∀ p ∈ g.rules, p.2.id ∉ ids → (∀ n ∈ p.2.subnodes, n.id ∉ ids) ∧
    ∀ other ∈ p.2.references, ∀ target ∈ g.body? other, target.id ∉ ids))

/-! ### Ways that stay in control rules -/

/-- **A number is inside** the control rules or the texts that are added. -/
def InsideId (g : Grammar) (ids : List Nat) (id : Nat) : Prop :=
  id ∈ ids ∨ g.nodes.size ≤ id

/-- **A place is inside** if its node is, or the body of the rule whose exit it is. -/
def Inside (g : Grammar) (ids : List Nat) (r : Reduction) : Vertex → Prop
  | .node id => InsideId g ids id
  | .exit name => ∃ body, r.grammar.body? name = some body ∧ InsideId g ids body.id

section Inside

variable (h : Rewrites g ids r)

include h

/-- A node of the grammar is inside if it is a control node. -/
theorem Rewrites.insideId_iff {m : Node} (hm : m ∈ g.nodes) : InsideId g ids m.id ↔ m.id ∈ ids :=
  or_iff_left (Nat.not_le.mpr (h.id_lt_size hm))

/-- **Where a rule outside is passed is outside**, if message content is apart. -/
theorem Rewrites.not_inside_of_apart (hapart : Apart g ids) {name : String} {body n : Node}
    (hbody : g.body? name = some body) (hno : body.id ∉ ids) (hn : n ∈ body.subnodes) :
    ¬ Inside g ids r (.node n.id) ∧
      ¬ Inside g ids r (reduceNode r.packets ids.contains n).passed := by
  obtain ⟨hnodes, hreferences⟩ := hapart (name, body) (Dictionary.mem_of_find? hbody) hno
  have hmem := h.original.mem_nodes_of_mem_subnodes hbody hn
  have hnode : ¬ Inside g ids r (.node n.id) := fun hin =>
    hnodes n hn ((h.insideId_iff hmem).mp hin)
  refine ⟨hnode, ?_⟩
  by_cases hleaf : n.IsLeaf
  · rw [reduceNode_of_not_control hleaf (by simpa using hnodes n hn)]
    cases n with
    | terminal | charset => exact hnode
    | reference id other sender recipient =>
      -- The rule that it refers to is one of the grammar, and outside as well.
      rintro ⟨target, htarget, hin⟩
      rcases h.rule htarget with ⟨m, hm, rfl⟩ | ⟨hadded, -⟩
      · rw [id_reduceNode, h.insideId_iff (h.original.mem_nodes_of_mem_subnodes hm
          (mem_subnodes_self m))] at hin
        refine hreferences other ?_ m hm hin
        exact List.mem_filterMap.mpr ⟨_, mem_leaves_of_isLeaf hn trivial, rfl⟩
      · exact hadded (h.ruled hmem)
    | sequence | choice | repetition => exact hleaf.elim
  · cases n with
    | terminal | charset | reference => exact absurd trivial hleaf
    | sequence | choice | repetition => exact hnode

/-- **What a control node refers to is inside**: the rule of a packet or a literal, or a rule that
is reached without entering a message. -/
theorem Rewrites.insideId_of_reference (hids : ControlIds g ids) {k : Node} (hk : g.Occurs k)
    (hcontrol : k.id ∈ ids) {id : Nat} {other : String} {sender recipient : Option String}
    (hreduced : reduceNode r.packets ids.contains k = .reference id other sender recipient)
    {target : Node} (htarget : r.grammar.body? other = some target) :
    InsideId g ids target.id := by
  rcases h.rule htarget with ⟨m, hm, rfl⟩ | ⟨-, _, _, hnew, rfl, -⟩
  · -- The rule is one of the grammar, so that its name has no mark.
    have hmem := Array.mem_of_getElem? (h.original.numbered hk)
    have hunmarked := h.unmarked other (Dictionary.mem_keys_of_find? hm)
    refine Or.inl ?_
    rw [id_reduceNode]
    cases hp : Packet.ofReference? k with
    | some p =>
      obtain ⟨-, heq⟩ := h.reduceNode_message hmem hcontrol hp
      obtain ⟨-, rfl, -⟩ := Node.reference.inj (heq.symm.trans hreduced)
      exact absurd ⟨_, (toList_packetRule _).symm⟩ hunmarked.1
    | none =>
      cases k with
      | terminal i | charset i =>
        have hcontrol : ids.contains i = true := List.contains_iff_mem.mpr hcontrol
        rw [reduceNode, if_pos hcontrol] at hreduced
        obtain ⟨-, rfl, -⟩ := Node.reference.inj hreduced
        exact absurd ⟨_, (toList_literalRule _).symm⟩ hunmarked.2
      | reference i name sender' recipient' =>
        cases sender' with
        | none =>
          obtain ⟨-, rfl, -⟩ := Node.reference.inj hreduced
          exact hids.reference hk hcontrol hm
        | some => exact absurd hp (by simp [Packet.ofReference?])
      | sequence | choice | repetition =>
        rw [reduceNode] at hreduced
        exact absurd hreduced (by simp)
  · exact Or.inr hnew

/-- What lies in a body inside is inside. -/
theorem Rewrites.insideId_of_subnode (hids : ControlIds g ids) {name : String} {body n : Node}
    (hbody : r.grammar.body? name = some body) (hin : InsideId g ids body.id)
    (hn : n ∈ body.subnodes) : InsideId g ids n.id := by
  rcases h.subnode hbody hn with ⟨m, k, hm, hk, hid, rfl⟩ | ⟨-, rfl, -, -⟩
  · have hmem := h.original.mem_nodes_of_mem_subnodes hm (mem_subnodes_self m)
    rw [hid, h.insideId_iff hmem] at hin
    rw [id_reduceNode]
    exact Or.inl (hids.subnodes (Grammar.occurs_of_body? hm) hin k hk)
  · exact hin

/-- **A rule that has a place inside is inside**, if message content is apart. -/
theorem Rewrites.insideId_of_inside (hapart : Apart g ids) {name : String} {body n : Node}
    (hbody : r.grammar.body? name = some body) (hn : n ∈ body.subnodes)
    (hin : Inside g ids r (.node n.id) ∨ Inside g ids r n.passed) : InsideId g ids body.id := by
  rcases h.subnode hbody hn with ⟨m, k, hm, hk, hid, rfl⟩ | ⟨hnew, rfl, -, -⟩
  · by_contra hno
    have hcontrol : m.id ∉ ids := fun hmem => hno (hid ▸ Or.inl hmem)
    obtain ⟨hnode, hpassed⟩ := h.not_inside_of_apart hapart hm hcontrol hk
    rw [id_reduceNode] at hin
    exact hin.elim hnode hpassed
  · exact Or.inr hnew

/-- **No edge leads out of control rules**, if message content is apart. -/
theorem Rewrites.inside_of_edge (hids : ControlIds g ids) (hapart : Apart g ids) {v w : Vertex}
    (hv : Inside g ids r v) (hw : w ∈ (Navigator.of r).graph.successors v) :
    Inside g ids r w := by
  have hedge := (Graph.mem_successors_ofGrammar h.wellFormed h.bareNames).mp hw
  cases hedge.hops with
  | enter hbody href htarget hfrom hto =>
    subst hfrom hto
    rcases h.subnode hbody href with ⟨m, k, hm, hk, -, hreduced⟩ | ⟨-, -, -, hpassed⟩
    · have hmem := h.original.mem_nodes_of_mem_subnodes hm hk
      have hid : k.id = _ := (id_reduceNode _ _ k).symm.trans (congrArg Node.id hreduced.symm)
      refine h.insideId_of_reference hids ((Grammar.occurs_of_body? hm).of_mem_subnodes hk)
        ((h.insideId_iff hmem).mp (hid ▸ hv)) hreduced.symm htarget
    · exact absurd hpassed (by simp [passed])
  | within hbody _ hm hk hfrom hto =>
    subst hfrom hto
    exact h.insideId_of_subnode hids hbody (h.insideId_of_inside hapart hbody hm (Or.inr hv)) hk
  | leave hbody hm hfrom hto =>
    subst hfrom hto
    exact ⟨_, hbody, h.insideId_of_inside hapart hbody hm (Or.inr hv)⟩

end Inside

/-! ### The packets on a walk -/

/-- **The packets on a walk follow each other.** -/
theorem Rewrites.isChain_packets (h : Rewrites g ids r) :
    ∀ {rest : List Vertex} {v : Vertex} {p : Packet} {start : Nat}, r.tokenNode? p = some start →
      (Navigator.of r).graph.Passing (fun v => ((Navigator.of r).packetAt? v).isSome) (.node start)
        v → (Navigator.of r).graph.IsWalk (v :: rest) →
          (p :: rest.filterMap (Navigator.of r).packetAt?).IsChain fun a b =>
            b ∈ (Navigator.of r).successors a
  | [], _, p, _, _, _, _ => List.isChain_singleton p
  | w :: rest, v, p, start, hstart, hpassing, hwalk => by
    obtain ⟨hw, hwalk⟩ := List.isChain_cons_cons.mp hwalk
    cases hentry : (Navigator.of r).packetAt? w with
    | none =>
      rw [List.filterMap_cons_none hentry]
      exact h.isChain_packets hstart (hpassing.step hw (by rw [hentry]; rfl)) hwalk
    | some q =>
      have hq : q ∈ (Navigator.of r).successors p := (Navigator.mem_successors hstart).mpr
        ⟨w, Graph.mem_after (Graph.ordered_ofGrammar h.wellFormed h.bareNames) hpassing hw, hentry⟩
      rw [List.filterMap_cons_some hentry]
      cases rest with
      | nil => exact List.isChain_cons_cons.mpr ⟨hq, List.isChain_singleton q⟩
      | cons x rest =>
        -- After an entry comes the token of the packet.
        obtain ⟨hx, hwalk⟩ := List.isChain_cons_cons.mp hwalk
        obtain ⟨token, htoken, rfl⟩ := h.eq_token_of_packetAt? hentry hx
        obtain ⟨-, -, hnode⟩ := h.token_mem_nodes htoken
        rw [List.filterMap_cons_none (h.quiet_terminal hnode).1]
        exact List.isChain_cons_cons.mpr ⟨hq, h.isChain_packets htoken .stay hwalk⟩

/-- **What a navigator finds is a walk** from the token of a packet to a text that reads like the
token of another, with the packets that are entered and the messages in between. -/
theorem Rewrites.exists_walk (h : Rewrites g ids r) {p q : Packet} {packets : List Packet}
    {cost : Nat} (hpath : (Navigator.of r).shortestPath p q = some (packets, cost)) :
    ∃ start inner goal, r.tokenNode? p = some start ∧ q ∈ r.packets ∧
      .terminal goal (.text (r.tokenOf q)) ∈ r.grammar.nodes ∧
      (Navigator.of r).graph.IsWalk (.node start :: (inner ++ [.node goal])) ∧
      packets = inner.filterMap (Navigator.of r).packetAt? ∧
      cost = inner.countP r.grammar.messageAt := by
  rw [Navigator.shortestPath] at hpath
  simp only [Option.bind_eq_bind, Option.pure_def, Option.bind_eq_some_iff] at hpath
  obtain ⟨start, hstart, token, htoken, ⟨walk, cost'⟩, hwalk, heq⟩ := hpath
  obtain ⟨rfl, rfl⟩ := Prod.mk.inj (Option.some.inj heq)
  obtain ⟨hq, -, hvalue⟩ := h.token_mem_nodes htoken
  rw [Graph.shortestPath, show (Navigator.of r).graph.terminals.find? token = _ from
    h.numbered.find?_terminals hvalue, Option.bind_some] at hwalk
  rcases Graph.search_cases (Navigator.of r).graph (.node start)
      ((Navigator.of r).graph.holds (.text (r.tokenOf q))) with
    ⟨hnone, -⟩ | ⟨_, hsearch, ⟨inner, goal, rfl, hchain, hgoal⟩, -⟩
  · exact absurd (hnone.symm.trans hwalk) (by simp)
  · obtain ⟨rfl, rfl⟩ := Prod.mk.inj (Option.some.inj (hwalk.symm.trans hsearch))
    obtain ⟨id, rfl, hterminal⟩ := Graph.exists_terminal_of_holds hgoal
    -- Neither the token at the start nor the goal enters anything, and the goal costs nothing.
    obtain ⟨hfirst, -⟩ := h.quiet_terminal (h.token_mem_nodes hstart).2.2
    obtain ⟨hlast, hno⟩ := h.quiet_terminal hterminal
    refine ⟨start, inner, id, hstart, hq, hterminal, hchain, ?_, ?_⟩
    · rw [List.filterMap_cons_none hfirst, List.filterMap_append, List.filterMap_cons_none hlast,
        List.filterMap_nil, List.append_nil]
    · rw [List.tail_cons, show (Navigator.of r).graph = Graph.ofGrammar r.grammar from rfl,
        Graph.sumOf_cost_ofGrammar, List.countP_append, List.countP_singleton, hno]
      rfl

/-- **A way ends with its goal** if the token of the goal is where it ends. -/
theorem Rewrites.getLast?_packets (h : Rewrites g ids r) {p q : Packet} {start goal : Nat}
    {inner : List Vertex} (hstart : r.tokenNode? p = some start) (hq : q ∈ r.packets)
    (hgoal : .terminal goal (.text (r.tokenOf q)) ∈ r.grammar.nodes)
    (hwalk : (Navigator.of r).graph.IsWalk (.node start :: (inner ++ [.node goal])))
    (hnew : g.nodes.size ≤ goal) :
    (inner.filterMap (Navigator.of r).packetAt?).getLast? = some q := by
  obtain ⟨hfirst, -⟩ := h.quiet_terminal (h.token_mem_nodes hstart).2.2
  rcases List.eq_nil_or_concat' inner with rfl | ⟨before, v, rfl⟩
  · obtain ⟨hedge, -⟩ := List.isChain_cons_cons.mp hwalk
    exact absurd (hfirst.symm.trans (h.packetAt?_of_edge_token hq hnew hgoal hedge)) (by simp)
  · rw [← List.cons_append, ← List.cons_append, Graph.isWalk_concat List.getLast?_concat] at hwalk
    rw [List.filterMap_append, List.filterMap_cons_some
      (h.packetAt?_of_edge_token hq hnew hgoal hwalk.2), List.filterMap_nil, List.getLast?_concat]

/-- **A way costs a turn for each of its packets** if all messages on it are in control rules. -/
theorem Rewrites.countP_messageAt (h : Rewrites g ids r) {inner : List Vertex}
    (hcontrol : ∀ v ∈ inner, r.grammar.messageAt v = true → ∃ id ∈ ids, v = .node id) :
    inner.countP r.grammar.messageAt =
      (inner.filterMap (Navigator.of r).packetAt?).length := by
  rw [List.length_filterMap_eq_countP]
  exact List.countP_congr fun v hv =>
    ⟨fun hmessage => h.isSome_packetAt?.mpr ⟨hmessage, hcontrol v hv hmessage⟩,
      fun hentry => (h.isSome_packetAt?.mp hentry).1⟩

theorem Rewrites.length_packets_le (h : Rewrites g ids r) (inner : List Vertex) :
    (inner.filterMap (Navigator.of r).packetAt?).length ≤ inner.countP r.grammar.messageAt := by
  rw [List.length_filterMap_eq_countP]
  exact List.countP_mono_left fun v _ hentry => (h.isSome_packetAt?.mp hentry).1

/-- **A way stays in control rules** if message content is apart. -/
theorem Rewrites.inside_of_walk (h : Rewrites g ids r) (hids : ControlIds g ids)
    (hapart : Apart g ids) {start : Nat} {rest : List Vertex} (hstart : g.nodes.size ≤ start)
    (hwalk : (Navigator.of r).graph.IsWalk (.node start :: rest)) :
    ∀ v ∈ rest, Inside g ids r v := fun v hv =>
  List.IsChain.induction (Inside g ids r) _ hwalk
    (fun _ _ hw hin => h.inside_of_edge hids hapart hin hw) (fun _ => Or.inr hstart) v
    (List.mem_cons_of_mem _ hv)

/-- A text that is left of the grammar is one outside control rules. -/
theorem Rewrites.new_or_terminal (h : Rewrites g ids r) {id : Nat} {value : Literal}
    (hid : .terminal id value ∈ r.grammar.nodes) :
    g.nodes.size ≤ id ∨ .terminal id value ∈ g.nodes ∧ id ∉ ids := by
  rcases h.node _ hid with ⟨m, hm, hreduced⟩ | ⟨_, _, hnew, heq⟩
  · obtain ⟨hcontrol, rfl⟩ := eq_terminal_of_reduceNode hreduced.symm
    exact Or.inr ⟨hm, by simpa using hcontrol⟩
  · obtain ⟨rfl, -⟩ := Node.terminal.inj heq
    exact Or.inl hnew

/-- A message of a reduction is one of the grammar. -/
theorem Rewrites.exists_message (h : Rewrites g ids r) {v : Vertex}
    (hv : r.grammar.messageAt v = true) :
    ∃ m ∈ g.nodes, m.sender?.isSome = true ∧ v = .node m.id := by
  obtain ⟨n, hn, hsender, rfl⟩ := Grammar.messageAt_iff.mp hv
  rcases h.node n hn with ⟨m, hm, rfl⟩ | ⟨_, _, -, rfl⟩
  · rw [sender?_reduceNode] at hsender
    exact ⟨m, hm, hsender, congrArg Vertex.node (id_reduceNode _ _ m)⟩
  · exact absurd hsender (by simp [sender?])

/-- **Ways are sequences of packets.** If there is a way from a packet to another, the first packet
on it can directly follow the one where it starts, each later one the one before it, and there are
no more packets than turns. The last packet is the goal, unless a terminal outside control rules
reads like the token of the goal; and there are as many packets as turns, unless there are messages
outside control rules. Neither matters where message content is apart from control rules. -/
theorem shortestPath_packets (hd : d.Coherent) (h : d.build = .ok g) (hbare : g.BareNames)
    (hmarks : Unmarked g) (hr : g.reduce = .ok r) {p q : Packet} {packets : List Packet}
    {cost : Nat} (hpath : (Navigator.of r).shortestPath p q = some (packets, cost)) :
    ∃ ids, controlIds g = .ok ids ∧
      (p :: packets).IsChain (fun a b => b ∈ (Navigator.of r).successors a) ∧
      packets.length ≤ cost ∧
      (Apart g ids ∨ (∀ id, .terminal id (.text (r.tokenOf q)) ∈ g.nodes → id ∈ ids) →
        packets.getLast? = some q) ∧
      (Apart g ids ∨ (∀ n ∈ g.nodes, n.sender?.isSome = true → n.id ∈ ids) →
        cost = packets.length) := by
  obtain ⟨ids, hids, hclosed, hrewrites⟩ := exists_rewrites hd h hbare hmarks hr
  obtain ⟨start, inner, goal, hstart, hq, hgoal, hwalk, rfl, rfl⟩ := hrewrites.exists_walk hpath
  have hnew := (hrewrites.token_mem_nodes hstart).2.1
  refine ⟨ids, hids, ?_, hrewrites.length_packets_le inner, fun htext => ?_, fun hmessages => ?_⟩
  · have hchain := hrewrites.isChain_packets hstart .stay hwalk
    rwa [List.filterMap_append, List.filterMap_cons_none (hrewrites.quiet_terminal hgoal).1,
      List.filterMap_nil, List.append_nil] at hchain
  · refine hrewrites.getLast?_packets hstart hq hgoal hwalk ?_
    refine (hrewrites.new_or_terminal hgoal).resolve_right fun ⟨hmem, hno⟩ => ?_
    rcases htext with hapart | htext
    · have hin := hrewrites.inside_of_walk hclosed hapart hnew hwalk (.node goal) (by simp)
      exact hno ((hrewrites.insideId_iff hmem).mp hin)
    · exact hno (htext goal hmem)
  · refine hrewrites.countP_messageAt fun v hv hmessage => ?_
    obtain ⟨m, hm, hsender, rfl⟩ := hrewrites.exists_message hmessage
    refine ⟨m.id, ?_, rfl⟩
    rcases hmessages with hapart | hmessages
    · have hin := hrewrites.inside_of_walk hclosed hapart hnew hwalk _ (List.mem_append_left _ hv)
      exact (hrewrites.insideId_iff hm).mp hin
    · exact hmessages m hm hsender

end Reduction

/-- A client says hello, and sends any number of lines, each of which the server acknowledges. -/
def Document.uploads : Document :=
  ⟨"session", [("ack", .text "ok"), ("data", .plus (.ref "digit")), ("digit", .chars "01"),
    ("hello", .text "hi"), ("session", .seq [.message "hello" "Client" none,
      .star (.seq [.message "data" "Client" none, .message "ack" "Server" none])])], []⟩

/-- The server acknowledges a line two turns after the hello, and the line comes in between. The
digits of a line are message content, apart from the session. -/
theorem Document.shortestPath_uploads : ∃ g r, uploads.toGrammar = .ok g ∧ g.reduce = .ok r ∧
    ∃ packets cost, (Navigator.of r).shortestPath ⟨some "Client", none, "hello"⟩
        ⟨some "Server", none, "ack"⟩ = some (packets, cost) ∧
      packets.head? = some ⟨some "Client", none, "data"⟩ ∧
      ⟨some "Client", none, "data"⟩ ∈
        (Navigator.of r).successors ⟨some "Client", none, "hello"⟩ ∧
      packets.getLast? = some ⟨some "Server", none, "ack"⟩ ∧ cost = packets.length := by
  have h : uploads.toGrammar = .ok _ := rfl
  have hkeys : ∀ name ∈ ["ack", "data", "digit", "hello", "session"], bareName name = name ∧
      ¬ Reduction.packetMark.toList <+: name.toList ∧
        ¬ Reduction.literalMark.toList <+: name.toList := by decide
  have hpath : (uploads.toGrammar.bind Grammar.reduce).toOption.map (fun r =>
      (Navigator.of r).shortestPath ⟨some "Client", none, "hello"⟩ ⟨some "Server", none, "ack"⟩) =
      some (some ([⟨some "Client", none, "data"⟩, ⟨some "Server", none, "ack"⟩], 2)) := by
    decide +kernel
  cases hr : uploads.toGrammar.bind Grammar.reduce with
  | error e =>
    rw [hr] at hpath
    exact absurd hpath (by simp [Except.toOption])
  | ok r =>
    rw [hr] at hpath
    have hpath := Option.some.inj hpath
    obtain ⟨ids, hids, hchain, -, hlast, hcost⟩ := Reduction.shortestPath_packets
      uploads.coherent_toDraft h (fun name hname => (hkeys name hname).1)
      (fun name hname => (hkeys name hname).2) hr hpath
    obtain rfl : [5, 6, 7, 8, 9, 10] = ids := Except.ok.inj hids
    exact ⟨_, r, h, hr, _, _, hpath, rfl, hchain.rel, hlast (Or.inl (by decide)),
      hcost (Or.inl (by decide))⟩

/-- A line that ends like the token of the opening, after a rule that the session uses as well. -/
def Document.echo : Document :=
  ⟨"session", [("end", .text "."), ("line", .seq [.ref "end", .text "<0>"]),
    ("open", .text "o"), ("session", .seq [.message "open" "Client" none, .ref "end",
      .message "line" "Server" none])], []⟩

/-- No other opening can follow the first one, but the text reads like its token. -/
example : (Document.echo.toGrammar.bind Grammar.reduce).toOption.map (fun r =>
    (Navigator.of r).shortestPath ⟨some "Client", none, "open"⟩ ⟨some "Client", none, "open"⟩) =
    some (some ([], 0)) := by decide +kernel

/-- A report with a note in it, between rules that the session uses as well. -/
def Document.notes : Document :=
  ⟨"session", [("ack", .text "a"), ("end", .text "."), ("note", .text "n"), ("open", .text "o"),
    ("reply", .message "ack" "Server" none),
    ("report", .seq [.ref "end", .message "note" "Clerk" none, .ref "reply"]),
    ("session", .alt [.seq [.message "open" "Client" none, .ref "end"],
      .seq [.message "report" "Client" none, .ref "reply"]])], []⟩

/-- The way to the reply leads through the report, where the note costs a turn. -/
example : (Document.notes.toGrammar.bind Grammar.reduce).toOption.map (fun r =>
    (Navigator.of r).shortestPath ⟨some "Client", none, "open"⟩ ⟨some "Server", none, "ack"⟩) =
    some (some ([⟨some "Server", none, "ack"⟩], 2)) := by decide +kernel

end GrammarFuzzing
