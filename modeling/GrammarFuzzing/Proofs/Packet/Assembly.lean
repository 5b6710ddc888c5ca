import GrammarFuzzing.Proofs.Packet.Prediction
import GrammarFuzzing.Proofs.Parse.Parsing

/-!
# Exchanges are put together from their messages

The tree of an exchange is made in two steps: the tokens of its history are parsed with the
reduction of the grammar, and in the tree that comes out, the skeleton, the trees of the messages
take the place of their tokens, one after the other, and stand-ins the place of empty rules.
Whatever trees the history has, they are the messages of the result, in order
(`GrammarFuzzing.Reduction.Reduces.filledRule_of_assemble`). If they are trees for their packets,
the result is a tree of the grammar, and the outermost messages in it are the history
(`GrammarFuzzing.Reduction.assemble_derives`).

The skeleton need not be the one that a tree of the grammar with this history would have: the tokens
may be parsed in several ways. All that counts is that its tokens stand in it in the order of the
history. `GrammarFuzzing.Reduction.TakesIn` says this of every part of it: its bytes are the tokens
of some packets, and filling it uses up the trees of these packets and leaves the trees after them.
-/

namespace GrammarFuzzing

/-- **What a message is**, wherever it stands: its type and its bytes. -/
def TreeMessage.content (m : TreeMessage) : (Option String × Option String × Symbol) × Bytes :=
  (m.label, m.payload)

/-- **The message that a tree is in the place of a packet**: it has the parties of the packet. -/
def Packet.messageWith (e : Packet × Tree) : (Option String × Option String × Symbol) × Bytes :=
  ((e.1.sender, e.1.recipient, e.2.symbol), e.2.toBytes)

/-- **A packet with a tree for it**: a valid tree of its symbol. -/
def Grammar.Carries (g : Grammar) (e : Packet × Tree) : Prop :=
  e.2.symbol = e.1.symbol ∧ g.Valid e.2

/-- Where messages stand is no part of their contents. -/
theorem Tree.map_content_listMessages_cons (i : Nat) (t : Tree) (ts : List Tree) :
    (listMessages i (t :: ts)).map TreeMessage.content =
      t.messages.map TreeMessage.content ++ (listMessages (i + 1) ts).map TreeMessage.content := by
  rw [listMessages, List.map_append, List.map_map]
  rfl

namespace Reduction

open Node hiding id

variable {g : Grammar} {r : Reduction} {found : Dictionary String Node} {α β : Type}

/-! ### Taking in trees of messages -/

/-- **Bytes write packets, and a computation takes in trees for them.** Given a tree for each of
these packets and more trees after them, it uses up the former and leaves the latter. -/
def TakesIn (r : Reduction) (w : Bytes) (fill : List Tree → Option (α × List Tree))
    (post : List (Packet × Tree) → α → Prop) : Prop :=
  ∃ ps : List Packet, r.Sends w ps ∧
    ∀ history rest, history.map (·.1) = ps →
      ∃ a, fill (history.map (·.2) ++ rest) = some (a, rest) ∧ post history a

variable {w v : Bytes} {fill : List Tree → Option (α × List Tree)}
  {post : List (Packet × Tree) → α → Prop}

/-- Nothing is written and nothing taken in. -/
theorem takesIn_nil {a : α} (hfill : ∀ ts, fill ts = some (a, ts)) (h : post [] a) :
    TakesIn r [] fill post := by
  refine ⟨[], sends_nil, fun history rest hhistory => ⟨a, ?_, ?_⟩⟩
  · rw [List.map_eq_nil_iff.mp hhistory, List.map_nil, List.nil_append, hfill]
  · rwa [List.map_eq_nil_iff.mp hhistory]

/-- The token of a packet takes in one tree. -/
theorem takesIn_token {p : Packet} (hp : p ∈ r.packets) {make : Tree → α}
    (hfill : ∀ t ts, fill (t :: ts) = some (make t, ts)) (h : ∀ t, post [(p, t)] (make t)) :
    TakesIn r (Utf8.encode (r.tokenOf p)) fill post := by
  refine ⟨[p], sends_singleton hp, fun history rest hhistory => ?_⟩
  obtain ⟨⟨q, t⟩, rfl, hq⟩ := List.map_eq_singleton_iff.mp hhistory
  obtain rfl : q = p := hq
  exact ⟨make t, hfill t rest, h t⟩

/-- **One part after the other.** -/
theorem TakesIn.append {fillRest : List Tree → Option (β × List Tree)}
    {postRest : List (Packet × Tree) → β → Prop} {γ : Type}
    {fillAll : List Tree → Option (γ × List Tree)} {postAll : List (Packet × Tree) → γ → Prop}
    (make : α → β → γ) (h : TakesIn r w fill post) (hrest : TakesIn r v fillRest postRest)
    (hfill : ∀ ts us vs a b, fill ts = some (a, us) → fillRest us = some (b, vs) →
      fillAll ts = some (make a b, vs))
    (hpost : ∀ history more a b, post history a → postRest more b →
      postAll (history ++ more) (make a b)) :
    TakesIn r (w ++ v) fillAll postAll := by
  obtain ⟨ps, hps, hfirst⟩ := h
  obtain ⟨qs, hqs, hsecond⟩ := hrest
  refine ⟨ps ++ qs, hps.append hqs, fun history rest hhistory => ?_⟩
  obtain ⟨first, second, rfl, hfst, hsnd⟩ := List.map_eq_append_iff.mp hhistory
  obtain ⟨a, ha, hposta⟩ := hfirst first (second.map (·.2) ++ rest) hfst
  obtain ⟨b, hb, hpostb⟩ := hsecond second rest hsnd
  refine ⟨make a b, ?_, hpost _ _ _ _ hposta hpostb⟩
  rw [List.map_append, List.append_assoc]
  exact hfill _ _ _ _ _ ha hb

theorem TakesIn.map {make : α → β} {fill' : List Tree → Option (β × List Tree)}
    {post' : List (Packet × Tree) → β → Prop} (h : TakesIn r w fill post)
    (hfill : ∀ ts us a, fill ts = some (a, us) → fill' ts = some (make a, us))
    (hpost : ∀ history a, post history a → post' history (make a)) :
    TakesIn r w fill' post' := by
  obtain ⟨ps, hps, hall⟩ := h
  refine ⟨ps, hps, fun history rest hhistory => ?_⟩
  obtain ⟨a, ha, hposta⟩ := hall history rest hhistory
  exact ⟨make a, hfill _ _ _ ha, hpost _ _ hposta⟩

/-! ### Filling a skeleton -/

/-- No set of characters in the control rules is empty. -/
def NoEmptyLeaf (found : Dictionary String Node) : Prop :=
  ∀ id chars, ControlLeaf found (.charset id chars) → chars ≠ []

/-- **What a filled child is**: it has the messages of a history, and comes out of the leaf of its
rule and is valid if the history carries trees for its packets. -/
structure Filled (g : Grammar) (found : Dictionary String Node) (l : Node)
    (history : List (Packet × Tree)) (t : Tree) : Prop where
  messages : t.messages.map TreeMessage.content = history.map Packet.messageWith
  derives : NoEmptyLeaf found → (∀ e ∈ history, g.Carries e) → l.Admits t ∧ g.Valid t

/-- Several filled children. -/
structure FilledAll (g : Grammar) (found : Dictionary String Node) (ls : List Node)
    (history : List (Packet × Tree)) (ts : List Tree) : Prop where
  messages : ∀ i,
    (Tree.listMessages i ts).map TreeMessage.content = history.map Packet.messageWith
  derives : NoEmptyLeaf found → (∀ e ∈ history, g.Carries e) →
    List.Forall₂ Admits ls ts ∧ g.ValidAll ts

/-- What a filled skeleton of a control rule is. -/
structure FilledRule (g : Grammar) (found : Dictionary String Node) (name : String)
    (history : List (Packet × Tree)) (t : Tree) : Prop where
  symbol : t.symbol = .nonTerminal name
  sender : t.sender = none
  messages : t.messages.map TreeMessage.content = history.map Packet.messageWith
  valid : NoEmptyLeaf found → (∀ e ∈ history, g.Carries e) → g.Valid t

/-- Every literal has a stand-in, which comes out of it unless it is an empty set. -/
theorem exists_standIn {l : Node} (hleaf : l.IsLeaf)
    (hreference : ∀ id name sender recipient, l ≠ .reference id name sender recipient) :
    ∃ value, standIn? l = some value ∧
      ((∀ id chars, l = .charset id chars → chars ≠ []) → l.Admits (Tree.leaf value)) := by
  cases l with
  | terminal id value => exact ⟨value, rfl, fun _ => by simp [Admits, isLiteral, Tree.leaf]⟩
  | charset id chars =>
    refine ⟨_, rfl, fun hchars => ?_⟩
    obtain ⟨c, cs, rfl⟩ := List.exists_cons_of_ne_nil (hchars id chars rfl)
    simp [Admits, isOneOf, Tree.leaf]
  | reference id name sender recipient => exact absurd rfl (hreference id name sender recipient)
  | sequence | choice | repetition => exact hleaf.elim

section Substitute

variable {u : Tree} {name : String} (hsymbol : u.symbol = .nonTerminal name)

include hsymbol

theorem substitute_of_packet {p : Packet} (hpacket : r.packetOfRule? name = some p) (t : Tree)
    (ts : List Tree) :
    r.substitute u (t :: ts) = some (t.withParty p.sender p.recipient, ts) := by
  obtain ⟨symbol, children, sources, sender, recipient, readOnly⟩ := u
  obtain rfl : symbol = .nonTerminal name := hsymbol
  rw [substitute]
  simp only [hpacket]

theorem substitute_of_literal (hpacket : r.packetOfRule? name = none) {value : Literal}
    (hliteral : r.literals.find? name = some value) (ts : List Tree) :
    r.substitute u ts = some (Tree.leaf value, ts) := by
  obtain ⟨symbol, children, sources, sender, recipient, readOnly⟩ := u
  obtain rfl : symbol = .nonTerminal name := hsymbol
  rw [substitute]
  simp only [hpacket, hliteral]

end Substitute

theorem substitute_of_kept {name : String} {children sources : List Tree}
    {sender recipient : Option String} {readOnly : Bool} (hbare : bareName name = name)
    (hpacket : r.packetOfRule? name = none) (hliteral : r.literals.find? name = none)
    {ts us cs : List Tree} (h : r.substituteList children ts = some (cs, us)) :
    r.substitute ⟨.nonTerminal name, children, sources, sender, recipient, readOnly⟩ ts =
      some (Tree.branch name cs, us) := by
  rw [substitute]
  simp only [hpacket, hliteral, h, Symbol.named, hbare, Tree.branch]

/-- **A message takes the place of its token.** -/
theorem Reduces.takesIn_message (hr : Reduces g found r) {id : Nat} {name sender : String}
    {recipient : Option String} {u : Tree}
    (hl : ControlLeaf found (.reference id name (some sender) recipient)) (hu : r.grammar.Valid u)
    (hsymbol : u.symbol =
      .nonTerminal (r.replacement (.reference id name (some sender) recipient))) :
    TakesIn r u.toBytes (r.substitute u)
      (Filled g found (.reference id name (some sender) recipient)) := by
  obtain ⟨_, body, hbody, hleaf⟩ := hl
  obtain ⟨_, htext⟩ := hr.text hbody hleaf rfl
  have hmem := hr.packet hbody hleaf
  rw [toBytes_of_text htext hu hsymbol]
  refine takesIn_token hmem (substitute_of_packet hsymbol (packetOfRule?_of_mem hmem))
    fun t => ⟨?_, fun _ hcarries => ?_⟩
  · rw [Tree.messages_of_sender rfl, List.map_singleton, List.map_singleton, TreeMessage.content,
      TreeMessage.label, Packet.messageWith, Tree.toBytes_withParty]
    rfl
  · obtain ⟨ht, hvalid⟩ := hcarries _ List.mem_cons_self
    exact ⟨decide_eq_true ht, Grammar.valid_withParty.mpr hvalid⟩

/-- **A stand-in takes the place of an empty text.** -/
theorem Reduces.takesIn_literal (hr : Reduces g found r) {l : Node} {u : Tree}
    (hl : ControlLeaf found l)
    (hreference : ∀ id name sender recipient, l ≠ .reference id name sender recipient)
    (hu : r.grammar.Valid u) (hsymbol : u.symbol = .nonTerminal (r.replacement l)) :
    TakesIn r u.toBytes (r.substitute u) (Filled g found l) := by
  have hleaf := hl
  obtain ⟨_, body, hbody, hleaf⟩ := hleaf
  have hisleaf := isLeaf_of_mem_leaves hleaf
  obtain ⟨value, hvalue, hadmits⟩ := exists_standIn hisleaf hreference
  have hname : r.replacement l = literalRule l.id ∧ r.replacementText? l = some "" := by
    cases l with
    | terminal | charset => exact ⟨rfl, rfl⟩
    | reference id name sender recipient => exact absurd rfl (hreference id name sender recipient)
    | sequence | choice | repetition => exact hisleaf.elim
  obtain ⟨_, htext⟩ := hr.text hbody hleaf hname.2
  rw [toBytes_of_text htext hu hsymbol]
  rw [hname.1] at hsymbol
  refine takesIn_nil (substitute_of_literal hsymbol (packetOfRule?_literalRule r l.id)
    (hr.literal hbody hleaf hvalue)) ⟨rfl, fun hchars _ => ⟨hadmits ?_, Grammar.valid_leaf value⟩⟩
  rintro id chars rfl
  exact hchars id chars hl

mutual

/-- **A skeleton of a control rule takes in the messages of its tokens**, and becomes a tree of the
rule. -/
theorem Reduces.takesIn_substitute (hr : Reduces g found r) :
    ∀ {u : Tree} {name : String}, r.grammar.Valid u → u.symbol = .nonTerminal name →
      name ∈ found.keys → TakesIn r u.toBytes (r.substitute u) (FilledRule g found name)
  | ⟨_, children, _, _, _, _⟩, name, hu, hname, hfound => by
    obtain rfl : _ = Symbol.nonTerminal name := hname
    obtain ⟨⟨reduced, hreduced, hmatch⟩, hvalid⟩ := hu
    obtain ⟨body, hbody⟩ := Dictionary.exists_find?_of_mem_keys hfound
    obtain ⟨reduced', hreduced', hmatches⟩ := hr.body hbody
    obtain rfl : reduced = reduced' := Option.some.inj (hreduced.symm.trans hreduced')
    obtain ⟨ls, hls, hus⟩ := (hmatches children).mp hmatch
    have hall := hr.takesIn_substituteList hvalid hus fun l hl =>
      ⟨name, body, hbody, mem_leaves_of_spells hls l hl⟩
    obtain ⟨hpacket, hliteral⟩ := hr.kept hfound
    rw [Tree.toBytes_nonTerminal rfl]
    refine hall.map (fun ts us cs => substitute_of_kept
      (hr.bareNames name (Dictionary.mem_keys_of_find? hreduced)) hpacket hliteral) ?_
    intro history cs hcs
    refine ⟨rfl, rfl, ?_, fun hchars hcarries => (Grammar.valid_nonTerminal rfl).mpr ?_⟩
    · rw [Tree.messages_of_no_sender rfl]
      exact hcs.messages 0
    · -- The rule spells the leaves out of which the filled children come.
      obtain ⟨hadmits, hvalid⟩ := hcs.derives hchars hcarries
      exact ⟨⟨body, hr.control.body hbody, matches_iff_lifts.mpr ⟨ls, hls, hadmits⟩⟩,
        Grammar.validAll_iff.mp hvalid⟩

theorem Reduces.takesIn_substituteList (hr : Reduces g found r) :
    ∀ {us : List Tree} {ls : List Node}, r.grammar.ValidAll us →
      List.Forall₂ (fun l c => isNamed (r.replacement l) c = true) ls us →
      (∀ l ∈ ls, ControlLeaf found l) →
        TakesIn r (Tree.listToBytes us) (r.substituteList us) (FilledAll g found ls)
  | [], _, _, hnamed, _ => by
    obtain rfl := List.forall₂_nil_right_iff.mp hnamed
    rw [Tree.listToBytes_nil]
    refine takesIn_nil (fun ts => by rw [substituteList]) ⟨fun i => ?_, fun _ _ => ⟨.nil, trivial⟩⟩
    rw [Tree.listMessages]
    rfl
  | u :: us, _, hvalid, hnamed, hls => by
    obtain ⟨l, ls, hl, hrest, rfl⟩ := List.forall₂_cons_right_iff.mp hnamed
    rw [List.forall_mem_cons] at hls
    have hsymbol : u.symbol = .nonTerminal (r.replacement l) := of_decide_eq_true hl
    have hchild : TakesIn r u.toBytes (r.substitute u) (Filled g found l) := by
      by_cases hreference : ∃ id name sender recipient, l = .reference id name sender recipient
      · obtain ⟨id, name, sender, recipient, rfl⟩ := hreference
        cases sender with
        | some sender => exact hr.takesIn_message hls.1 hvalid.1 hsymbol
        | none =>
          refine (hr.takesIn_substitute hvalid.1 hsymbol (hr.mem_keys hls.1)).map
            (fun _ _ _ h => h) fun history t ht => ⟨ht.messages, fun hchars hcarries => ⟨?_, ?_⟩⟩
          · exact decide_eq_true ht.symbol
          · exact ht.valid hchars hcarries
      · refine hr.takesIn_literal hls.1 ?_ hvalid.1 hsymbol
        rintro id name sender recipient rfl
        exact hreference ⟨id, name, sender, recipient, rfl⟩
    rw [Tree.listToBytes_cons]
    refine hchild.append List.cons (hr.takesIn_substituteList hvalid.2 hrest hls.2)
      (fun ts rest rest' c cs hc hcs => ?_) fun history more t ts ht hts =>
        ⟨fun i => ?_, fun hchars hcarries => ?_⟩
    · rw [substituteList, hc]
      simp only [hcs]
    · rw [Tree.map_content_listMessages_cons, ht.messages, hts.messages, List.map_append]
    · rw [List.forall_mem_append] at hcarries
      obtain ⟨hadmits, hvalid⟩ := ht.derives hchars hcarries.1
      obtain ⟨hadmitsAll, hvalidAll⟩ := hts.derives hchars hcarries.2
      exact ⟨.cons hadmits hadmitsAll, hvalid, hvalidAll⟩

end

/-- **A skeleton takes in the messages of the history that it was parsed from.** -/
theorem Reduces.assemble_of_parse (hr : Reduces g found r) {history : List (Packet × Tree)}
    {tokens : String} (htokens : r.tokens? (history.map (·.1)) = some tokens) {skeleton : Tree}
    (hparse : r.grammar.parse (Utf8.encode tokens) r.grammar.start .complete = .ok skeleton) :
    ∃ t, r.assemble history = .ok t ∧ FilledRule g found g.start history t := by
  obtain ⟨hknown, rfl⟩ := tokens?_eq_some.mp htokens
  obtain ⟨hsymbol, hvalid, hbytes⟩ :=
    hr.wellFormed.parse_sound hr.bareNames hr.start_mem_keys hparse
  rw [hr.start] at hsymbol
  obtain ⟨ps, hps, hfill⟩ := hr.takesIn_substitute hvalid hsymbol hr.control.start
  -- The tokens in the skeleton are those of the history.
  have hhistory : history.map (·.1) = ps := Sends.inj ⟨hknown, hbytes⟩ hps
  obtain ⟨t, hsubstitute, hfilled⟩ := hfill history [] hhistory
  rw [List.append_nil] at hsubstitute
  refine ⟨t, ?_, hfilled⟩
  simp only [assemble, htokens, hparse, hsubstitute]

/-- **An assembled exchange has the trees of its history as its messages**, whatever trees these
are. -/
theorem Reduces.filledRule_of_assemble (hr : Reduces g found r) {history : List (Packet × Tree)}
    {t : Tree} (h : r.assemble history = .ok t) : FilledRule g found g.start history t := by
  cases htokens : r.tokens? (history.map (·.1)) with
  | none =>
    simp only [assemble, htokens] at h
    exact absurd h (by simp)
  | some tokens =>
    cases hparse : r.grammar.parse (Utf8.encode tokens) r.grammar.start .complete with
    | error e =>
      simp only [assemble, htokens, hparse] at h
      exact absurd h (by simp)
    | ok skeleton =>
      obtain ⟨t', ht', hfilled⟩ := hr.assemble_of_parse htokens hparse
      obtain rfl := Except.ok.inj (h.symm.trans ht')
      exact hfilled

/-- **Complete exchanges are assembled** where the reduction has no empty loop. -/
theorem Reduces.exists_assemble (hr : Reduces g found r) (hloop : r.grammar.NoEmptyLoop)
    {history : List (Packet × Tree)} (hcomplete : r.isComplete (history.map (·.1)) = true) :
    ∃ t, r.assemble history = .ok t := by
  rw [isComplete] at hcomplete
  split at hcomplete
  · exact absurd hcomplete Bool.false_ne_true
  · rename_i tokens htokens
    obtain ⟨skeleton, hparse⟩ := hr.wellFormed.exists_parse_complete hr.bareNames
      hr.start_mem_keys (hr.wellFormed.noEmptyLoopIn hloop _ _) hcomplete
    obtain ⟨t, ht, -⟩ := hr.assemble_of_parse htokens hparse
    exact ⟨t, ht⟩

end Reduction

end GrammarFuzzing
