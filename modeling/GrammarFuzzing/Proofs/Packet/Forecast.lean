import GrammarFuzzing.Proofs.Packet.Reduction

/-!
# The reduction of a grammar is exact

A history is a complete exchange exactly when some annotated tree of the start symbol has it as its
outermost messages (`GrammarFuzzing.Reduction.isComplete_iff`).

A tree of the grammar and a tree of its reduction that take the same choices in their control rules
go together. Below a control rule their children correspond to the same leaves:

* a leaf that is a reference without a sender is a control rule in both, and the trees go on;
* any other leaf is a message or a literal on the one side and a text on the other, a token or
  nothing (`GrammarFuzzing.Reduction.Reduces.writes_of_marks`).

So the bytes of the one tree write the messages of the other. Both directions are an induction on
the tree at hand, `GrammarFuzzing.Reduction.Reduces.exists_reduced` and
`GrammarFuzzing.Reduction.Reduces.exists_original`. The second has to come up with the messages, of
which the reduction knows nothing but that they can be made: every rule is productive.
-/

namespace GrammarFuzzing

/-! ### Messages -/

namespace Tree

/-- A node with a sender is a message. -/
theorem messages_of_sender {t : Tree} {sender : String} (h : t.sender = some sender) :
    t.messages = [⟨sender, t.recipient, t.symbol, t.toBytes, []⟩] := by
  obtain ⟨symbol, children, sources, sender', recipient, readOnly⟩ := t
  obtain rfl : sender' = some sender := h
  rw [messages]

/-- The messages of a node without a sender are those of its children. -/
theorem messages_of_no_sender {t : Tree} (h : t.sender = none) :
    t.messages = listMessages 0 t.children := by
  obtain ⟨symbol, children, sources, sender, recipient, readOnly⟩ := t
  obtain rfl : sender = none := h
  rw [messages]

/-- The types of messages do not tell where they stand. -/
theorem map_label_listMessages_cons (i : Nat) (t : Tree) (ts : List Tree) :
    (listMessages i (t :: ts)).map TreeMessage.label =
      (t.messages ++ listMessages (i + 1) ts).map TreeMessage.label := by
  rw [listMessages, List.map_append, List.map_append, List.map_map]
  rfl

mutual

/-- **Parties inside messages make no messages.** -/
theorem messages_stripParties : ∀ t : Tree, (t.stripParties false).messages = t.messages
  | ⟨symbol, children, sources, some sender, recipient, readOnly⟩ => by
    have hbytes := toBytes_stripParties false
      ⟨symbol, children, sources, some sender, recipient, readOnly⟩
    rw [stripParties] at hbytes ⊢
    rw [messages_of_sender rfl, messages_of_sender rfl, hbytes]
    rfl
  | ⟨symbol, children, sources, none, recipient, readOnly⟩ => by
    rw [stripParties, messages_of_no_sender rfl, messages_of_no_sender rfl]
    exact listMessages_stripParties 0 children

theorem listMessages_stripParties : ∀ (i : Nat) (ts : List Tree),
    listMessages i (listStripParties false ts) = listMessages i ts
  | _, [] => by rw [listStripParties]
  | i, t :: ts => by
    rw [listStripParties, listMessages, listMessages, messages_stripParties,
      listMessages_stripParties]

end

end Tree

namespace Reduction

open Node hiding id

variable {g : Grammar} {r : Reduction} {found : Dictionary String Node}

/-! ### Trees of rules for texts -/

/-- A tree of a rule for a text renders as the text. -/
theorem toBytes_of_text {name text : String} {id : Nat}
    (h : r.grammar.body? name = some (.terminal id (.text text))) {t : Tree}
    (ht : r.grammar.Valid t) (hname : t.symbol = .nonTerminal name) :
    t.toBytes = Utf8.encode text := by
  obtain ⟨⟨body, hbody, hmatch⟩, hall⟩ := (Grammar.valid_nonTerminal hname).mp ht
  obtain rfl : body = .terminal id (.text text) := Option.some.inj (hbody.symm.trans h)
  obtain ⟨c, hchildren, hc⟩ := hmatch
  rw [Tree.toBytes_nonTerminal hname, hchildren, Tree.listToBytes_cons, Tree.listToBytes_nil,
    List.append_nil]
  exact (hall c (hchildren ▸ List.mem_cons_self)).toBytes_terminal (of_decide_eq_true hc)

/-- A rule for a text has a tree. -/
theorem valid_of_text {name text : String} {id : Nat}
    (h : r.grammar.body? name = some (.terminal id (.text text))) :
    r.grammar.Valid (Tree.branch name [Tree.leaf (.text text)]) := by
  refine (Grammar.valid_nonTerminal rfl).mpr ⟨⟨_, h, _, rfl, ?_⟩, fun c hc => ?_⟩
  · simp [isLiteral, Tree.leaf]
  · obtain rfl := List.mem_singleton.mp hc
    exact Grammar.valid_leaf _

/-! ### Leaves of control rules -/

/-- What comes out of a leaf that is no reference is a terminal. -/
theorem exists_terminal_of_admits {l : Node} {c : Tree} (h : l.Admits c)
    (hl : ∀ id name sender recipient, l ≠ .reference id name sender recipient) :
    ∃ value, c.symbol = .terminal value := by
  cases l with
  | terminal id value => exact ⟨value, of_decide_eq_true h⟩
  | charset id chars =>
    rw [Admits, isOneOf] at h
    split at h
    · exact ⟨_, ‹_›⟩
    · exact absurd h Bool.false_ne_true
  | reference id name sender recipient => exact absurd rfl (hl id name sender recipient)
  | sequence | choice | repetition => exact h.elim

/-- A leaf of a control rule. -/
def ControlLeaf (found : Dictionary String Node) (l : Node) : Prop :=
  ∃ name body, found.find? name = some body ∧ l ∈ body.leaves

/-- Only references to control rules have no text in a reduction. -/
theorem eq_reference_of_replacementText? {l : Node} (h : r.replacementText? l = none) :
    ∃ id name recipient, l = .reference id name none recipient := by
  cases l with
  | reference id name sender recipient =>
    cases sender with
    | none => exact ⟨id, name, recipient, rfl⟩
    | some sender => exact absurd h (by simp [replacementText?])
  | terminal | charset | sequence | choice | repetition =>
    exact absurd h (by simp [replacementText?])

/-- A control leaf that refers to a rule without sending it refers to a control rule. -/
theorem Reduces.mem_keys (hr : Reduces g found r) {id : Nat} {name : String}
    {recipient : Option String} (hl : ControlLeaf found (.reference id name none recipient)) :
    name ∈ found.keys := by
  obtain ⟨_, body, hbody, hleaf⟩ := hl
  exact hr.control.closed hbody name (mem_controlReferences.mpr ⟨id, recipient, hleaf⟩)

/-- **The text that takes the place of a leaf writes the messages of what the leaf derives**: one
token for a message, and nothing for a literal. -/
theorem Reduces.writes_of_marks (hr : Reduces g found r) {l : Node} (hl : ControlLeaf found l)
    {text : String} (htext : r.replacementText? l = some text) {c : Tree} (hmarks : l.Marks c)
    (hc : g.Annotated c) : r.Writes (Utf8.encode text) c.messages := by
  obtain ⟨_, body, hbody, hleaf⟩ := hl
  have hisleaf := isLeaf_of_mem_leaves hleaf
  cases l with
  | terminal id value | charset id chars =>
    obtain rfl := Option.some.inj htext
    have hsender : c.sender = none := hmarks.sender
    obtain ⟨value, hvalue⟩ := exists_terminal_of_admits hmarks.admits fun _ _ _ _ => nofun
    rw [Tree.messages_of_no_sender hsender, (Grammar.valid_terminal hvalue).mp hc.valid,
      Tree.listMessages]
    exact writes_nil
  | reference id name sender recipient =>
    cases sender with
    | none => exact absurd htext (by simp [replacementText?])
    | some sender =>
      obtain rfl := Option.some.inj htext
      have hsymbol : c.symbol = .nonTerminal name := of_decide_eq_true hmarks.admits
      rw [Tree.messages_of_sender hmarks.sender]
      refine writes_singleton (hr.packet hbody hleaf) ?_
      rw [Packet.label, TreeMessage.label, hsymbol, hmarks.recipient]
      rfl
  | sequence | choice | repetition => exact hisleaf.elim

/-! ### From the grammar to its reduction -/

mutual

/-- **A tree of a control rule has a reduced tree**, which writes its messages. -/
theorem Reduces.exists_reduced (hr : Reduces g found r) : ∀ {t : Tree} {name : String},
    g.Annotated t → t.symbol = .nonTerminal name → name ∈ found.keys →
      ∃ u, u.symbol = .nonTerminal name ∧ r.grammar.Valid u ∧
        r.Writes u.toBytes (Tree.listMessages 0 t.children)
  | ⟨_, children, _, _, _, _⟩, name, ht, hname, hfound => by
    obtain rfl : _ = Symbol.nonTerminal name := hname
    obtain ⟨⟨body, hbody, ls, hls, hcs⟩, hall⟩ := ht
    obtain ⟨body', hbody'⟩ := Dictionary.exists_find?_of_mem_keys hfound
    obtain rfl : body' = body := Option.some.inj ((hr.control.body hbody').symm.trans hbody)
    obtain ⟨cs', hcs', hvalid, hwrites⟩ := hr.exists_reducedAll (i := 0) hall hcs fun l hl =>
      ⟨name, body', hbody', mem_leaves_of_spells hls l hl⟩
    -- The reduced body spells the same leaves, so it matches the reduced children.
    obtain ⟨reduced, hreduced, hmatches⟩ := hr.body hbody'
    refine ⟨Tree.branch name cs', rfl, (Grammar.valid_nonTerminal rfl).mpr
      ⟨⟨reduced, hreduced, (hmatches cs').mpr ⟨ls, hls, hcs'⟩⟩,
        Grammar.validAll_iff.mp hvalid⟩, ?_⟩
    rwa [Tree.toBytes_nonTerminal rfl]

theorem Reduces.exists_reducedAll (hr : Reduces g found r) :
    ∀ {ts : List Tree} {ls : List Node} {i : Nat}, g.AnnotatedAll ts →
      List.Forall₂ Marks ls ts → (∀ l ∈ ls, ControlLeaf found l) →
        ∃ us, List.Forall₂ (fun l c => isNamed (r.replacement l) c = true) ls us ∧
          r.grammar.ValidAll us ∧ r.Writes (Tree.listToBytes us) (Tree.listMessages i ts)
  | [], _, _, _, hmarks, _ => by
    obtain rfl := List.forall₂_nil_right_iff.mp hmarks
    refine ⟨[], .nil, trivial, ?_⟩
    rw [Tree.listToBytes_nil, Tree.listMessages]
    exact writes_nil
  | t :: ts, _, i, hall, hmarks, hls => by
    obtain ⟨l, ls, hl, hrest, rfl⟩ := List.forall₂_cons_right_iff.mp hmarks
    rw [List.forall_mem_cons] at hls
    obtain ⟨us, hus, hvalid, hwrites⟩ := hr.exists_reducedAll (i := i + 1) hall.2 hrest hls.2
    -- Either a text takes the place of the child, or both trees go on with a control rule.
    have hchild : ∃ u, isNamed (r.replacement l) u = true ∧ r.grammar.Valid u ∧
        r.Writes u.toBytes t.messages := by
      cases htext : r.replacementText? l with
      | some text =>
        obtain ⟨_, body, hbody, hleaf⟩ := hls.1
        obtain ⟨id, hid⟩ := hr.text hbody hleaf htext
        refine ⟨_, by simp [isNamed, Tree.branch], valid_of_text hid, ?_⟩
        rw [toBytes_of_text hid (valid_of_text hid) rfl]
        exact hr.writes_of_marks hls.1 htext hl hall.1
      | none =>
        obtain ⟨id, name, recipient, rfl⟩ := eq_reference_of_replacementText? htext
        have hname : t.symbol = .nonTerminal name := of_decide_eq_true hl.admits
        obtain ⟨u, husymbol, huvalid, huwrites⟩ :=
          hr.exists_reduced hall.1 hname (hr.mem_keys hls.1)
        rw [Tree.messages_of_no_sender hl.sender]
        exact ⟨u, decide_eq_true husymbol, huvalid, huwrites⟩
    obtain ⟨u, hu, huvalid, huwrites⟩ := hchild
    refine ⟨u :: us, .cons hu hus, ⟨huvalid, hvalid⟩, ?_⟩
    rw [Tree.listToBytes_cons]
    exact (huwrites.append hwrites).of_label (Tree.map_label_listMessages_cons i t ts).symm

end

/-! ### From the reduction to the grammar -/

/-- A control leaf derives an annotated tree. -/
theorem Reduces.exists_marks (hr : Reduces g found r) (hg : g.WellFormed)
    (hproductive : g.Productive) (hchars : g.NoEmptyCharset) {l : Node}
    (hl : ControlLeaf found l) : ∃ c, l.Marks c ∧ g.Annotated c := by
  obtain ⟨_, body, hbody, hleaf⟩ := hl
  have hoccurs := (Grammar.occurs_of_body? (hr.control.body hbody)).of_mem_subnodes
    (mem_subnodes_of_mem_leaves hleaf)
  refine hchars.exists_marks hoccurs (isLeaf_of_mem_leaves hleaf) ?_
  rintro id name sender recipient rfl
  obtain ⟨body', hbody'⟩ := hg.exists_body_of_reference hoccurs
  exact hg.exists_annotated hproductive hchars hbody'

mutual

/-- **A reduced tree of a control rule comes from a tree**, whose messages it writes. -/
theorem Reduces.exists_original (hr : Reduces g found r)
    (hmade : ∀ l, ControlLeaf found l → ∃ c, l.Marks c ∧ g.Annotated c) :
    ∀ {u : Tree} {name : String}, r.grammar.Valid u → u.symbol = .nonTerminal name →
      name ∈ found.keys →
        ∃ cs, g.Annotated (Tree.branch name cs) ∧ r.Writes u.toBytes (Tree.listMessages 0 cs)
  | ⟨_, children, _, _, _, _⟩, name, hu, hname, hfound => by
    obtain rfl : _ = Symbol.nonTerminal name := hname
    obtain ⟨⟨reduced, hreduced, hmatch⟩, hvalid⟩ := hu
    obtain ⟨body, hbody⟩ := Dictionary.exists_find?_of_mem_keys hfound
    obtain ⟨reduced', hreduced', hmatches⟩ := hr.body hbody
    obtain rfl : reduced = reduced' := Option.some.inj (hreduced.symm.trans hreduced')
    obtain ⟨ls, hls, hus⟩ := (hmatches children).mp hmatch
    obtain ⟨cs, hcs, hall, hwrites⟩ := hr.exists_originalAll hmade (i := 0) hvalid hus
      fun l hl => ⟨name, body, hbody, mem_leaves_of_spells hls l hl⟩
    refine ⟨cs, (Grammar.annotated_nonTerminal rfl).mpr
      ⟨⟨body, hr.control.body hbody, ls, hls, hcs⟩, hall⟩, ?_⟩
    rwa [Tree.toBytes_nonTerminal rfl]

theorem Reduces.exists_originalAll (hr : Reduces g found r)
    (hmade : ∀ l, ControlLeaf found l → ∃ c, l.Marks c ∧ g.Annotated c) :
    ∀ {us : List Tree} {ls : List Node} {i : Nat}, r.grammar.ValidAll us →
      List.Forall₂ (fun l c => isNamed (r.replacement l) c = true) ls us →
      (∀ l ∈ ls, ControlLeaf found l) →
        ∃ cs, List.Forall₂ Marks ls cs ∧ g.AnnotatedAll cs ∧
          r.Writes (Tree.listToBytes us) (Tree.listMessages i cs)
  | [], _, _, _, hnamed, _ => by
    obtain rfl := List.forall₂_nil_right_iff.mp hnamed
    refine ⟨[], .nil, trivial, ?_⟩
    rw [Tree.listToBytes_nil, Tree.listMessages]
    exact writes_nil
  | u :: us, _, i, hvalid, hnamed, hls => by
    obtain ⟨l, ls, hl, hrest, rfl⟩ := List.forall₂_cons_right_iff.mp hnamed
    rw [List.forall_mem_cons] at hls
    obtain ⟨cs, hcs, hall, hwrites⟩ :=
      hr.exists_originalAll hmade (i := i + 1) hvalid.2 hrest hls.2
    have hsymbol : u.symbol = .nonTerminal (r.replacement l) := of_decide_eq_true hl
    -- A text tells the message but not its contents, so any tree that the leaf derives will do.
    have hchild : ∃ c, l.Marks c ∧ g.Annotated c ∧ r.Writes u.toBytes c.messages := by
      cases htext : r.replacementText? l with
      | some text =>
        obtain ⟨_, body, hbody, hleaf⟩ := hls.1
        obtain ⟨id, hid⟩ := hr.text hbody hleaf htext
        obtain ⟨c, hmarks, hc⟩ := hmade l hls.1
        rw [toBytes_of_text hid hvalid.1 hsymbol]
        exact ⟨c, hmarks, hc, hr.writes_of_marks hls.1 htext hmarks hc⟩
      | none =>
        obtain ⟨id, name, recipient, rfl⟩ := eq_reference_of_replacementText? htext
        obtain ⟨ds, hds, hdwrites⟩ := hr.exists_original hmade hvalid.1 hsymbol (hr.mem_keys hls.1)
        refine ⟨(Tree.branch name ds).withParty none recipient, ⟨?_, rfl, rfl⟩,
          Grammar.annotated_withParty.mpr hds, ?_⟩
        · exact decide_eq_true rfl
        · rw [Tree.messages_of_no_sender rfl]
          exact hdwrites
    obtain ⟨c, hmarks, hc, hcwrites⟩ := hchild
    refine ⟨c :: cs, .cons hmarks hcs, ⟨hc, hall⟩, ?_⟩
    rw [Tree.listToBytes_cons]
    exact (hcwrites.append hwrites).of_label (Tree.map_label_listMessages_cons i c cs).symm

end

/-! ### Complete exchanges -/

/-- A history is complete when its tokens are what a reduced tree renders as. -/
theorem Reduces.isComplete_iff_valid (hr : Reduces g found r) (history : List Packet) :
    r.isComplete history = true ↔ ∃ s, r.tokens? history = some s ∧
      ∃ u, u.symbol = .nonTerminal g.start ∧ r.grammar.Valid u ∧ u.toBytes = Utf8.encode s := by
  obtain ⟨body, hbody⟩ := Dictionary.exists_find?_of_mem_keys hr.control.start
  obtain ⟨reduced, hreduced, -⟩ := hr.body hbody
  have hstart : r.grammar.start ∈ r.grammar.rules.keys := by
    rw [hr.start]
    exact Dictionary.mem_keys_of_find? hreduced
  rw [isComplete]
  cases htokens : r.tokens? history with
  | none => simp
  | some s =>
    rw [hr.wellFormed.recognize_iff_valid hr.bareNames hstart, hr.start]
    simp

/-- The outermost messages of a tree of the start symbol are a complete exchange. -/
theorem Reduces.isComplete_of_annotated (hr : Reduces g found r) {t : Tree} (ht : g.Annotated t)
    (hsymbol : t.symbol = .nonTerminal g.start) (hsender : t.sender = none) {history : List Packet}
    (hlabels : t.messages.map TreeMessage.label = history.map Packet.label) :
    r.isComplete history = true := by
  obtain ⟨u, husymbol, hu, hwrites⟩ := hr.exists_reduced ht hsymbol hr.control.start
  rw [Tree.messages_of_no_sender hsender] at hlabels
  obtain ⟨s, hs, hbytes⟩ := hwrites.tokens?_iff.mpr hlabels
  exact (hr.isComplete_iff_valid history).mpr ⟨s, hs, u, husymbol, hu, hbytes.symm⟩

end Reduction

/-- A client greets, and a server greets back. In between there is a greeting that nobody sends. -/
def Document.handshake : Document :=
  ⟨"session", [("greeting", .text "hi"), ("session", .seq [
    .message "greeting" "Client" (some "Server"), .ref "greeting",
    .message "greeting" "Server" none])], []⟩

/-- The handshake has a reduction. -/
theorem Document.exists_reduce_handshake :
    ∃ r, handshake.toGrammar.bind Grammar.reduce = .ok r := by
  have hsome : (handshake.toGrammar.bind Grammar.reduce).toOption.isSome = true := by
    decide +kernel
  cases hreduce : handshake.toGrammar.bind Grammar.reduce with
  | ok r => exact ⟨r, rfl⟩
  | error e =>
    rw [hreduce] at hsome
    exact absurd hsome Bool.false_ne_true

/-- All three greetings, as parsing annotates them. -/
def Tree.handshake : Tree :=
  .branch "session" [(Tree.branch "greeting" [.leaf (.text "hi")]).withParty
    (some "Client") (some "Server"), .branch "greeting" [.leaf (.text "hi")],
    (Tree.branch "greeting" [.leaf (.text "hi")]).withParty (some "Server") none]

theorem Document.annotated_handshake {g : Grammar} (h : handshake.toGrammar = .ok g) :
    g.Annotated Tree.handshake := by
  obtain rfl := Except.ok.inj ((show handshake.toGrammar = .ok _ from rfl).symm.trans h)
  -- The rule spells its three references, and each child has the parties of its own.
  refine (Grammar.annotated_nonTerminal rfl).mpr ⟨⟨_, rfl, ?_⟩, ?_, ?_, ?_, trivial⟩
  · refine ⟨_, ⟨_, _, rfl, rfl, _, _, rfl, rfl, _, _, rfl, rfl, rfl⟩, ?_⟩
    exact .cons ⟨rfl, rfl, rfl⟩ (.cons ⟨rfl, rfl, rfl⟩ (.cons ⟨rfl, rfl, rfl⟩ .nil))
  all_goals
    refine ⟨⟨_, rfl, ?_⟩, rfl, trivial⟩
    exact ⟨_, rfl, .cons ⟨rfl, rfl, rfl⟩ .nil⟩

end GrammarFuzzing
