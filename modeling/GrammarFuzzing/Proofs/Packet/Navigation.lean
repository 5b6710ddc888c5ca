import GrammarFuzzing.Proofs.Packet.Passage
import GrammarFuzzing.Proofs.Packet.Prediction

/-!
# Ways along exchanges

No complete exchange is lost on a navigator: from each packet of the exchange there is a way to
every later one, at a cost of no more turns than the exchange takes, and the packet that comes right
after it is among its successors (`GrammarFuzzing.Reduction.navigates_exchange`).

A complete exchange has a reduced tree, and the tree is a passage through the graph of the reduction
from the body of the start symbol to its exit, on which exactly the packets of the exchange are sent
(`GrammarFuzzing.Reduction.Reduces.exists_travels`). What its leaves derive makes the passages
through them:

| control leaf | in the reduction | the passage |
|---|---|---|
| message | reference to a token | sends the packet |
| literal | reference to an empty text | past the text, without packets |
| reference to a control rule | itself | through the rule, by induction on the tree |

The passage goes through the exits of rules that others enter as well. It is a walk of the graph
all the same, so the cheapest walk is no dearer.
-/

namespace GrammarFuzzing

/-! ### Answers of a navigator -/

namespace Navigator

variable {n : Navigator} {p q : Packet} {start : Nat}

/-- A way from packet to packet is one from token to token. -/
theorem shortestPath_eq_some {goal cost : Nat} {walk : List Vertex}
    (hstart : n.reduction.tokenNode? p = some start)
    (hgoal : n.reduction.tokenNode? q = some goal)
    (hwalk : n.graph.shortestPath start goal = some (walk, cost)) :
    n.shortestPath p q = some (walk.filterMap n.packetAt?, cost) := by
  rw [shortestPath, hstart, Option.bind_eq_bind, Option.bind_some, hgoal, Option.bind_eq_bind,
    Option.bind_some, hwalk]
  rfl

/-- The successors of a packet are entered after its token. -/
theorem mem_successors (hstart : n.reduction.tokenNode? p = some start) :
    q ∈ n.successors p ↔ ∃ v ∈ n.graph.after (fun v => (n.packetAt? v).isSome) (.node start),
      n.packetAt? v = some q := by
  rw [successors, hstart]
  exact SortedSet.mem_ofList.trans List.mem_filterMap

end Navigator

namespace Reduction

open Node hiding id

variable {g : Grammar} {r : Reduction}

theorem numbered_of_reduce {d : Draft} (hd : d.Coherent) (h : d.build = .ok g)
    (hr : g.reduce = .ok r) : r.grammar.Numbered := by
  obtain ⟨ids, -, -, -, hbuild⟩ := exists_of_reduce hr
  have hbodies := coherent_reduceBodies ((Draft.builds_of_build h).coherent_toDraft hd) ids.contains
  exact (coherent_addTexts hbodies _).numbered_of_build hbuild

/-- **Every packet has a rule for its token.** -/
theorem exists_token_of_reduce (hr : g.reduce = .ok r) {p : Packet} (hp : p ∈ r.packets) :
    ∃ id, r.grammar.body? (packetRule (r.packets.idxOf p)) =
      some (.terminal id (.text (r.tokenOf p))) := by
  obtain ⟨ids, -, hpackets, -, hbuild⟩ := exists_of_reduce hr
  rw [hpackets] at hp
  rw [tokenOf, hpackets]
  obtain ⟨id, -, hid⟩ := body?_of_mem_addedTexts (Draft.builds_of_build hbuild)
    (packet_mem_addedTexts (List.idxOf_lt_length_of_mem hp))
  exact ⟨id, hid⟩

/-! ### Places of a navigator -/

/-- The packet that a node enters. -/
def entered? (r : Reduction) : Node → Option Packet
  | .reference _ name _ _ => r.packetOfRule? name
  | _ => none

section Places

variable (hnumbered : r.grammar.Numbered)

include hnumbered

/-- **The packet at a node is the one that the node enters.** -/
theorem packetAt?_node {n : Node} (hn : n ∈ r.grammar.nodes) :
    (Navigator.of r).packetAt? (.node n.id) = r.entered? n := by
  refine (hnumbered.find?_filterMap (fun m p h => ?_) hn).trans ?_
  · cases m with
    | reference =>
      obtain ⟨_, -, rfl⟩ := Option.map_eq_some_iff.mp h
      rfl
    | terminal | charset | sequence | choice | repetition => exact absurd h (by simp)
  · cases n with
    | reference id name sender recipient =>
      simp only [Option.map_map, Function.comp_def, Option.map_id', entered?]
    | terminal | charset | sequence | choice | repetition => rfl

/-- **A node is quiet** if it enters no packet and is no message. -/
theorem quiet_node {n : Node} (hn : n ∈ r.grammar.nodes) (hentered : r.entered? n = none)
    (hsender : n.sender? = none) : (Navigator.of r).Quiet (.node n.id) :=
  ⟨(packetAt?_node hnumbered hn).trans hentered, hnumbered.cost_eq_zero hn hsender⟩

end Places

/-- **The token of a packet is the body of its rule.** -/
theorem tokenNode?_eq_some (hbare : r.grammar.BareNames) {p : Packet} (hp : p ∈ r.packets)
    {body : Node} (hbody : r.grammar.body? (packetRule (r.packets.idxOf p)) = some body) :
    r.tokenNode? p = some body.id := by
  rw [tokenNode?, idxOf?_of_mem hp, Option.bind_eq_bind, Option.bind_some,
    hbare.rule_eq_ok hbody]
  rfl

/-! ### Passages through leaves -/

section Leaves

variable {found : Dictionary String Node} (hr : Reduces g found r)
  (hnumbered : r.grammar.Numbered) {name : String} {body : Node}
  (hbody : r.grammar.body? name = some body)

include hr hnumbered

/-- The text of a rule is a quiet place. -/
theorem Reduces.quiet_text {name text : String} {id : Nat}
    (hbody : r.grammar.body? name = some (.terminal id (.text text))) :
    (Navigator.of r).Quiet (.node id) :=
  quiet_node hnumbered (n := .terminal id (.text text))
    (hr.wellFormed.mem_nodes_of_mem_subnodes hbody (mem_subnodes_self _)) rfl rfl

/-- **A rule for a text is passed without packets.** -/
theorem Reduces.travels_text {name text : String} {id : Nat}
    (hbody : r.grammar.body? name = some (.terminal id (.text text))) :
    (Navigator.of r).Travels (.node id) [] (.exit name) :=
  Graph.Passage.along_rule (P := (Navigator.of r).passage) hr.wellFormed hr.bareNames hbody
    ((Navigator.of r).quiet_exit name)
    ⟨.node id, by rw [exits, List.mem_singleton], .stop (hr.quiet_text hnumbered hbody)⟩

include hbody

/-- **A quiet reference is passed through the rule that it refers to.** -/
theorem Reduces.passes_quiet {id : Nat} {other : String} {recipient : Option String}
    (hl : .reference id other none recipient ∈ body.leaves)
    (hentered : r.packetOfRule? other = none) {target : Node}
    (htarget : r.grammar.body? other = some target) {ps : List Packet}
    (h : (Navigator.of r).Travels (.node target.id) ps (.exit other)) :
    (Navigator.of r).passage.Through (.reference id other none recipient) ps := by
  have hn := hr.wellFormed.mem_nodes_of_mem_subnodes hbody (mem_subnodes_of_mem_leaves hl)
  refine ⟨.exit other, by rw [exits, List.mem_singleton], .pass ?_ ?_ h⟩
  · exact quiet_node hnumbered hn hentered rfl
  · exact Graph.mem_successors_reference hr.wellFormed hr.bareNames hbody hl htarget

/-- **A reference to a token is passed by sending the packet.** -/
theorem Reduces.passes_message {id token : Nat} {sender recipient : Option String} {p : Packet}
    (hp : p ∈ r.packets)
    (hl : .reference id (packetRule (r.packets.idxOf p)) sender recipient ∈ body.leaves)
    (htoken : r.grammar.body? (packetRule (r.packets.idxOf p)) =
      some (.terminal token (.text (r.tokenOf p)))) :
    (Navigator.of r).passage.Through
      (.reference id (packetRule (r.packets.idxOf p)) sender recipient) [p] := by
  have hn := hr.wellFormed.mem_nodes_of_mem_subnodes hbody (mem_subnodes_of_mem_leaves hl)
  refine ⟨.exit (packetRule (r.packets.idxOf p)), by rw [exits, List.mem_singleton],
    .send ?_ (tokenNode?_eq_some hr.bareNames hp htoken) (hr.quiet_text hnumbered htoken) ?_
      (hr.travels_text hnumbered htoken)⟩
  · exact (packetAt?_node hnumbered hn).trans (packetOfRule?_of_mem hp)
  · exact Graph.mem_successors_reference hr.wellFormed hr.bareNames hbody hl htoken

/-- **What takes the place of a message or a literal is passed** as its text says. -/
theorem Reduces.exists_passes_text {k : Node} (hk : ControlLeaf found k) {text : String}
    (htext : r.replacementText? k = some text)
    (hl : .reference k.id (r.replacement k) k.sender? k.recipient? ∈ body.leaves) :
    ∃ ps, r.Sends (Utf8.encode text) ps ∧
      (Navigator.of r).passage.Through
        (.reference k.id (r.replacement k) k.sender? k.recipient?) ps := by
  obtain ⟨_, control, hcontrol, hleaf⟩ := hk
  obtain ⟨token, htoken⟩ := hr.text hcontrol hleaf htext
  have hisleaf := isLeaf_of_mem_leaves hleaf
  cases k with
  | terminal | charset =>
    obtain rfl := Option.some.inj htext
    exact ⟨[], sends_nil, hr.passes_quiet hnumbered hbody hl (packetOfRule?_literalRule r _) htoken
      (hr.travels_text hnumbered htoken)⟩
  | reference id name sender recipient =>
    cases sender with
    | none => exact absurd htext (by simp [replacementText?])
    | some sender =>
      obtain rfl := Option.some.inj htext
      have hmem := hr.packet hcontrol hleaf
      exact ⟨[⟨some sender, recipient, name⟩], sends_singleton hmem,
        hr.passes_message hnumbered hbody hmem hl htoken⟩
  | sequence | choice | repetition => exact hisleaf.elim

end Leaves

/-! ### Passages through rules -/

section Passages

variable {found : Dictionary String Node}

mutual

/-- **A reduced tree of a control rule is a passage through the rule**, on which the packets are
sent that the tree renders as. -/
theorem Reduces.exists_travels (hr : Reduces g found r) (hnumbered : r.grammar.Numbered) :
    ∀ {u : Tree} {name : String}, r.grammar.Valid u → u.symbol = .nonTerminal name →
      name ∈ found.keys → ∃ body ps, r.grammar.body? name = some body ∧ r.Sends u.toBytes ps ∧
        (Navigator.of r).Travels (.node body.id) ps (.exit name)
  | ⟨_, children, _, _, _, _⟩, name, hu, hname, hfound => by
    obtain rfl : _ = Symbol.nonTerminal name := hname
    obtain ⟨⟨reduced, hreduced, hmatch⟩, hvalid⟩ := hu
    obtain ⟨ls, hls, hadmits⟩ := matches_iff_lifts.mp hmatch
    obtain ⟨pss, hpasses, hsends⟩ := hr.exists_passes hnumbered hfound hreduced hvalid hadmits
      (mem_leaves_of_spells hls)
    refine ⟨reduced, pss.flatten, hreduced, ?_, Graph.Passage.along_rule_of_spells
      (P := (Navigator.of r).passage) hr.wellFormed hr.bareNames hreduced
      ((Navigator.of r).quiet_exit name) (fun m hm hno => ?_) hls hpasses⟩
    · rwa [Tree.toBytes_nonTerminal rfl]
    · have hm := hr.wellFormed.mem_nodes_of_mem_subnodes hreduced hm
      cases m with
      | terminal | charset | reference => exact absurd trivial hno
      | sequence | choice | repetition => exact quiet_node hnumbered hm rfl rfl

/-- The leaves that the children of a reduced tree come from are passed, one by one. -/
theorem Reduces.exists_passes (hr : Reduces g found r) (hnumbered : r.grammar.Numbered)
    {name : String} (hfound : name ∈ found.keys) {reduced : Node}
    (hreduced : r.grammar.body? name = some reduced) : ∀ {us : List Tree} {ls : List Node},
      r.grammar.ValidAll us → List.Forall₂ Admits ls us → (∀ l ∈ ls, l ∈ reduced.leaves) →
        ∃ pss : List (List Packet), List.Forall₂ (Navigator.of r).passage.Through ls pss ∧
          r.Sends (Tree.listToBytes us) pss.flatten
  | [], _, _, hadmits, _ => by
    obtain rfl := List.forall₂_nil_right_iff.mp hadmits
    rw [Tree.listToBytes_nil]
    exact ⟨[], .nil, sends_nil⟩
  | u :: us, _, hvalid, hadmits, hls => by
    obtain ⟨l, ls, hl, hrest, rfl⟩ := List.forall₂_cons_right_iff.mp hadmits
    rw [List.forall_mem_cons] at hls
    obtain ⟨pss, hpasses, hsends⟩ := hr.exists_passes hnumbered hfound hreduced hvalid.2 hrest hls.2
    -- The leaf refers to a text, or to a control rule, through which the child is a passage.
    have hchild : ∃ ps, r.Sends u.toBytes ps ∧ (Navigator.of r).passage.Through l ps := by
      obtain ⟨body, hbody⟩ := Dictionary.exists_find?_of_mem_keys hfound
      obtain ⟨k, hk, rfl⟩ := hr.leaf hbody hreduced (mem_subnodes_of_mem_leaves hls.1)
        (isLeaf_of_mem_leaves hls.1)
      have hcontrol : ControlLeaf found k := ⟨name, body, hbody, hk⟩
      have hsymbol : u.symbol = .nonTerminal (r.replacement k) := of_decide_eq_true hl
      cases htext : r.replacementText? k with
      | some text =>
        obtain ⟨id, hid⟩ := hr.text hbody hk htext
        rw [toBytes_of_text hid hvalid.1 hsymbol]
        exact hr.exists_passes_text hnumbered hreduced hcontrol htext hls.1
      | none =>
        obtain ⟨id, other, recipient, rfl⟩ := eq_reference_of_replacementText? htext
        have hother := hr.mem_keys hcontrol
        obtain ⟨target, ps, htarget, hsends, htravels⟩ :=
          hr.exists_travels hnumbered hvalid.1 hsymbol hother
        exact ⟨ps, hsends, hr.passes_quiet hnumbered hreduced hls.1 (hr.kept hother).1 htarget
          htravels⟩
    obtain ⟨ps, hps, hpass⟩ := hchild
    rw [Tree.listToBytes_cons]
    exact ⟨ps :: pss, .cons hpass hpasses, List.flatten_cons ▸ hps.append hsends⟩

end

/-- **A complete exchange is a passage through the start symbol.** -/
theorem Reduces.exists_travels_history (hr : Reduces g found r) (hnumbered : r.grammar.Numbered)
    {history : List Packet} (h : r.isComplete history = true) :
    ∃ v, (Navigator.of r).Travels v history (.exit g.start) := by
  obtain ⟨s, hs, u, hsymbol, hu, hbytes⟩ := (hr.isComplete_iff_valid history).mp h
  obtain ⟨body, ps, -, hsends, htravels⟩ :=
    hr.exists_travels hnumbered hu hsymbol hr.control.start
  obtain ⟨hknown, rfl⟩ := tokens?_eq_some.mp hs
  obtain rfl : ps = history := hsends.inj ⟨hknown, hbytes⟩
  exact ⟨_, htravels⟩

/-! ### Ways from packet to packet -/

theorem eq_append_of_getElem? {α : Type} {xs : List α} {i : Nat} {x : α} (h : xs[i]? = some x) :
    xs = xs.take i ++ x :: xs.drop (i + 1) := by
  obtain ⟨hi, rfl⟩ := List.getElem?_eq_some_iff.mp h
  rw [← List.drop_eq_getElem_cons hi, List.take_append_drop]

/-- **The rest of a complete exchange is a passage** that goes on from the token of a packet. -/
theorem Reduces.exists_onward (hr : Reduces g found r) (hnumbered : r.grammar.Numbered)
    {history : List Packet} (h : r.isComplete history = true) {i : Nat} {p : Packet}
    (hp : history[i]? = some p) (hrest : history.drop (i + 1) ≠ []) :
    ∃ token, r.tokenNode? p = some token ∧
      ∃ w ∈ (Navigator.of r).graph.successors (.node token),
        (Navigator.of r).Travels w (history.drop (i + 1)) (.exit g.start) := by
  obtain ⟨v, hv⟩ := hr.exists_travels_history hnumbered h
  rw [eq_append_of_getElem? hp] at hv
  obtain ⟨token, htoken, hquiet, htravels⟩ := hv.after_token
  exact ⟨token, htoken, htravels.exists_onward hquiet hrest⟩

/-- **A packet leads to every later one** at a turn for each packet in between and the last. -/
theorem Reduces.exists_shortestPath (hr : Reduces g found r) (hnumbered : r.grammar.Numbered)
    (htokens : ∀ p ∈ r.packets, ∃ id, r.grammar.body? (packetRule (r.packets.idxOf p)) =
      some (.terminal id (.text (r.tokenOf p)))) {history : List Packet}
    (h : r.isComplete history = true) {i j : Nat} {p q : Packet} (hij : i < j)
    (hp : history[i]? = some p) (hq : history[j]? = some q) :
    ∃ packets cost, (Navigator.of r).shortestPath p q = some (packets, cost) ∧ cost ≤ j - i := by
  have hrest : (history.drop (i + 1))[j - (i + 1)]? = some q := by
    rw [List.getElem?_drop, Nat.add_sub_cancel' hij, hq]
  have hbetween : ((history.drop (i + 1)).take (j - (i + 1))).length ≤ j - (i + 1) :=
    List.length_take_le ..
  obtain ⟨start, hstart, w, hw, htravels⟩ := hr.exists_onward hnumbered h hp fun hnil => by
    rw [hnil] at hrest
    exact absurd hrest (by simp)
  rw [eq_append_of_getElem? hrest] at htravels
  obtain ⟨goal, t, cost, hgoal, hwalk, hedge, hcost⟩ := htravels.exists_walk .stay hw
  -- The goal is the text of the token.
  have hknown := mem_packets_of_isComplete h q (List.mem_of_getElem? hq)
  obtain ⟨id, hbody⟩ := htokens q hknown
  obtain rfl : id = goal :=
    Option.some.inj ((tokenNode?_eq_some hr.bareNames hknown hbody).symm.trans hgoal)
  have hvalue := hnumbered.find?_terminals
    (hr.wellFormed.mem_nodes_of_mem_subnodes hbody (mem_subnodes_self _))
  have hholds : (Graph.ofGrammar r.grammar).holds (.text (r.tokenOf q)) (.node id) = true :=
    decide_eq_true hvalue
  obtain ⟨places, least, hsearch, hleast⟩ := Graph.exists_search hwalk hedge hholds
  have hpath : (Navigator.of r).graph.shortestPath start id = some (places, least) := by
    rw [Graph.shortestPath, show (Navigator.of r).graph.terminals.find? id = _ from hvalue]
    exact hsearch
  exact ⟨_, least, Navigator.shortestPath_eq_some hstart hgoal hpath, by omega⟩

/-- **A packet has the one right after it among its successors.** -/
theorem Reduces.mem_successors (hr : Reduces g found r) (hnumbered : r.grammar.Numbered)
    {history : List Packet} (h : r.isComplete history = true) {i : Nat} {p q : Packet}
    (hp : history[i]? = some p) (hq : history[i + 1]? = some q) :
    q ∈ (Navigator.of r).successors p := by
  have hrest : history.drop (i + 1) = q :: history.drop (i + 1 + 1) := by
    obtain ⟨hi, rfl⟩ := List.getElem?_eq_some_iff.mp hq
    exact List.drop_eq_getElem_cons hi
  obtain ⟨start, hstart, w, hw, htravels⟩ := hr.exists_onward hnumbered h hp (by rw [hrest]; simp)
  rw [hrest] at htravels
  obtain ⟨t, v, hpassing, hv, hpacket⟩ := htravels.exists_passing .stay hw
  exact (Navigator.mem_successors hstart).mpr
    ⟨v, Graph.mem_after (Graph.ordered_ofGrammar hr.wellFormed hr.bareNames) hpassing hv, hpacket⟩

end Passages

/-- **Navigation never misses or overestimates an exchange.** From each packet of a complete
exchange there is a way to every later one, at a cost of no more turns than lie between them, and
the packet right after it is one of its successors. -/
theorem navigates_exchange {d : Draft} (hd : d.Coherent) (h : d.build = .ok g)
    (hbare : g.BareNames) (hmarks : Unmarked g) (hr : g.reduce = .ok r) {history : List Packet}
    (hcomplete : r.isComplete history = true) :
    (∀ i j p q, i < j → history[i]? = some p → history[j]? = some q →
      ∃ packets cost, (Navigator.of r).shortestPath p q = some (packets, cost) ∧ cost ≤ j - i) ∧
    ∀ i p q, history[i]? = some p → history[i + 1]? = some q →
      q ∈ (Navigator.of r).successors p := by
  have hnumbered := numbered_of_reduce hd h hr
  obtain ⟨found, hreduces⟩ := exists_reduces hd h hbare hmarks hr
  constructor
  · intro i j p q hij hp hq
    exact hreduces.exists_shortestPath hnumbered (fun _ => exists_token_of_reduce hr) hcomplete hij
      hp hq
  · intro i p q hp hq
    exact hreduces.mem_successors hnumbered hcomplete hp hq

end Reduction

/-- The server's greeting is one turn after the client's, and follows it. -/
theorem Document.navigates_handshake : ∃ g r, handshake.toGrammar = .ok g ∧ g.reduce = .ok r ∧
    (∃ packets cost, (Navigator.of r).shortestPath ⟨some "Client", some "Server", "greeting"⟩
      ⟨some "Server", none, "greeting"⟩ = some (packets, cost) ∧ cost ≤ 1) ∧
    ⟨some "Server", none, "greeting"⟩ ∈
      (Navigator.of r).successors ⟨some "Client", some "Server", "greeting"⟩ := by
  have h : handshake.toGrammar = .ok _ := rfl
  have hbare : ∀ name ∈ ["greeting", "session"], bareName name = name := by decide
  have hmarks : ∀ name ∈ ["greeting", "session"], ¬ Reduction.packetMark.toList <+: name.toList ∧
      ¬ Reduction.literalMark.toList <+: name.toList := by decide
  obtain ⟨r, hr⟩ := exists_reduce_handshake
  obtain ⟨found, hreduces⟩ :=
    Reduction.exists_reduces handshake.coherent_toDraft h hbare hmarks hr
  have hcomplete : r.isComplete [⟨some "Client", some "Server", "greeting"⟩,
      ⟨some "Server", none, "greeting"⟩] = true :=
    hreduces.isComplete_of_annotated (annotated_handshake h) rfl rfl rfl
  obtain ⟨hpath, hnext⟩ := Reduction.navigates_exchange handshake.coherent_toDraft h hbare hmarks hr
    hcomplete
  exact ⟨_, r, h, hr, hpath 0 1 _ _ Nat.one_pos rfl rfl, hnext 0 _ _ rfl rfl⟩

end GrammarFuzzing
