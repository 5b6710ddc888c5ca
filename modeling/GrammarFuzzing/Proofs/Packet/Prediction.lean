import GrammarFuzzing.Proofs.Packet.Forecast
import GrammarFuzzing.Proofs.Parse.Sentence

/-!
# Predictions are exact

The packets that are predicted after a history are those with which it begins a complete exchange
(`GrammarFuzzing.Reduction.Reduces.mem_predict`), in increasing order.

The tokens of the history and of one more packet are accepted in incomplete mode if they begin a
sentence of the reduction. A sentence consists of whole tokens again
(`GrammarFuzzing.Reduction.Reduces.exists_sends`), and tokens that begin tokens are the first of
them, so what follows is the rest of a history. That no name of the reduction is a dead end follows
from the grammar: where a rule derives a finite tree, its reduced form does, since whatever is not a
control rule has become a text (`GrammarFuzzing.Reduction.Reduces.exists_valid`).
-/

namespace GrammarFuzzing.Reduction

open Node hiding id

variable {g : Grammar} {r : Reduction} {found : Dictionary String Node}

/-! ### No control rule is a dead end -/

/-- What takes the place of a control leaf derives a valid tree, if control rules that it refers to
do. -/
theorem Reduces.exists_replaced (hr : Reduces g found r) {l : Node} (hl : ControlLeaf found l)
    (hreference : ∀ id name recipient, l = .reference id name none recipient →
      ∃ u, u.symbol = .nonTerminal name ∧ r.grammar.Valid u) :
    ∃ u, isNamed (r.replacement l) u = true ∧ r.grammar.Valid u := by
  cases htext : r.replacementText? l with
  | some text =>
    obtain ⟨_, body, hbody, hleaf⟩ := hl
    obtain ⟨id, hid⟩ := hr.text hbody hleaf htext
    exact ⟨_, by simp [isNamed, Tree.branch], valid_of_text hid⟩
  | none =>
    obtain ⟨id, name, recipient, rfl⟩ := eq_reference_of_replacementText? htext
    obtain ⟨u, hsymbol, hu⟩ := hreference id name recipient rfl
    exact ⟨u, decide_eq_true hsymbol, hu⟩

/-- **A control rule has a reduced tree.** The leaves it spells within its distance refer to control
rules at a smaller one. -/
theorem Reduces.exists_valid (hr : Reduces g found r) (hg : g.WellFormed)
    (hproductive : g.Productive) {name : String} {body : Node}
    (hbody : found.find? name = some body) :
    ∃ u, u.symbol = .nonTerminal name ∧ r.grammar.Valid u := by
  induction hd : g.distance body using Nat.strong_induction_on generalizing name body with
  | _ v ih =>
    have hoccurs := Grammar.occurs_of_body? (hr.control.body hbody)
    have hlt := hproductive name body (hr.control.body hbody)
    obtain ⟨ls, hls, hle⟩ := exists_spells hg.toBounded hoccurs hlt
    have hmade : ∀ l ∈ ls, ∃ u, isNamed (r.replacement l) u = true ∧ r.grammar.Valid u := by
      intro l hl
      have hcontrol : ControlLeaf found l := ⟨name, body, hbody, mem_leaves_of_spells hls l hl⟩
      refine hr.exists_replaced hcontrol ?_
      rintro id other recipient rfl
      obtain ⟨body', hbody'⟩ := Dictionary.exists_find?_of_mem_keys (hr.mem_keys hcontrol)
      have hcount := hle _ hl
      rw [distanceWith, satAdd, Grammar.distanceIn_of_body? (hr.control.body hbody')] at hcount
      rw [Grammar.distance] at hd hlt
      exact ih _ (by omega) hbody' rfl
    obtain ⟨us, hus, hvalid⟩ := exists_forall₂ hmade
    obtain ⟨reduced, hreduced, hmatches⟩ := hr.body hbody
    exact ⟨Tree.branch name us, rfl, (Grammar.valid_nonTerminal rfl).mpr
      ⟨⟨reduced, hreduced, (hmatches us).mpr ⟨ls, hls, hus⟩⟩, hvalid⟩⟩

/-- The names that can be reached in a reduction: control rules, and rules for texts. -/
def Reached (found : Dictionary String Node) (r : Reduction) (name : String) : Prop :=
  name ∈ found.keys ∨ ∃ id text, r.grammar.body? name = some (.terminal id (.text text))

theorem Reduces.reached_replacement (hr : Reduces g found r) {l : Node}
    (hl : ControlLeaf found l) : Reached found r (r.replacement l) := by
  cases htext : r.replacementText? l with
  | some text =>
    obtain ⟨_, body, hbody, hleaf⟩ := hl
    obtain ⟨id, hid⟩ := hr.text hbody hleaf htext
    exact Or.inr ⟨id, text, hid⟩
  | none =>
    obtain ⟨id, name, recipient, rfl⟩ := eq_reference_of_replacementText? htext
    exact Or.inl (hr.mem_keys hl)

/-- **No name that can be reached in a reduction is a dead end.** -/
theorem Reduces.makes (hr : Reduces g found r) (hg : g.WellFormed) (hproductive : g.Productive) :
    r.grammar.Makes (Reached found r) where
  body := by
    rintro name (hname | ⟨id, text, hbody⟩)
    · obtain ⟨body, hbody⟩ := Dictionary.exists_find?_of_mem_keys hname
      obtain ⟨reduced, hreduced, -⟩ := hr.body hbody
      exact ⟨reduced, hreduced⟩
    · exact ⟨_, hbody⟩
  leaf := by
    rintro name reduced l (hname | ⟨id, text, hbody⟩) hreduced hl hleaf
    · obtain ⟨body, hbody⟩ := Dictionary.exists_find?_of_mem_keys hname
      obtain ⟨k, hk, rfl⟩ := hr.leaf hbody hreduced hl hleaf
      have hcontrol : ControlLeaf found k := ⟨name, body, hbody, hk⟩
      refine hr.exists_replaced hcontrol ?_
      rintro id other recipient rfl
      obtain ⟨body', hbody'⟩ := Dictionary.exists_find?_of_mem_keys (hr.mem_keys hcontrol)
      exact hr.exists_valid hg hproductive hbody'
    · obtain rfl := Option.some.inj (hbody.symm.trans hreduced)
      rw [subnodes, List.mem_singleton] at hl
      subst hl
      exact ⟨_, by simp [Admits, isLiteral, Tree.leaf], Grammar.valid_leaf (.text text)⟩
  closed := by
    rintro name reduced id other sender recipient (hname | ⟨id', text, hbody⟩) hreduced hl
    · obtain ⟨body, hbody⟩ := Dictionary.exists_find?_of_mem_keys hname
      obtain ⟨k, hk, hreference⟩ := hr.leaf hbody hreduced hl trivial
      rw [(Node.reference.inj hreference).2.1]
      exact hr.reached_replacement ⟨name, body, hbody, hk⟩
    · obtain rfl := Option.some.inj (hbody.symm.trans hreduced)
      rw [subnodes, List.mem_singleton] at hl
      exact absurd hl (by simp)

/-! ### Reduced trees send packets -/

/-- The text that takes the place of a control leaf is a token or nothing. -/
theorem Reduces.exists_sends_text (hr : Reduces g found r) {l : Node}
    (hl : ControlLeaf found l) {text : String} (htext : r.replacementText? l = some text) :
    ∃ ps, r.Sends (Utf8.encode text) ps := by
  obtain ⟨_, body, hbody, hleaf⟩ := hl
  have hisleaf := isLeaf_of_mem_leaves hleaf
  cases l with
  | terminal | charset =>
    obtain rfl := Option.some.inj htext
    exact ⟨[], sends_nil⟩
  | reference id name sender recipient =>
    cases sender with
    | none => exact absurd htext (by simp [replacementText?])
    | some sender =>
      obtain rfl := Option.some.inj htext
      exact ⟨_, sends_singleton (hr.packet hbody hleaf)⟩
  | sequence | choice | repetition => exact hisleaf.elim

mutual

/-- **A reduced tree of a control rule sends packets.** -/
theorem Reduces.exists_sends (hr : Reduces g found r) : ∀ {u : Tree} {name : String},
    r.grammar.Valid u → u.symbol = .nonTerminal name → name ∈ found.keys →
      ∃ ps, r.Sends u.toBytes ps
  | ⟨_, children, _, _, _, _⟩, name, hu, hname, hfound => by
    obtain rfl : _ = Symbol.nonTerminal name := hname
    obtain ⟨⟨reduced, hreduced, hmatch⟩, hvalid⟩ := hu
    obtain ⟨body, hbody⟩ := Dictionary.exists_find?_of_mem_keys hfound
    obtain ⟨reduced', hreduced', hmatches⟩ := hr.body hbody
    obtain rfl : reduced = reduced' := Option.some.inj (hreduced.symm.trans hreduced')
    obtain ⟨ls, hls, hus⟩ := (hmatches children).mp hmatch
    rw [Tree.toBytes_nonTerminal rfl]
    exact hr.exists_sendsAll hvalid hus fun l hl =>
      ⟨name, body, hbody, mem_leaves_of_spells hls l hl⟩

theorem Reduces.exists_sendsAll (hr : Reduces g found r) : ∀ {us : List Tree} {ls : List Node},
    r.grammar.ValidAll us → List.Forall₂ (fun l c => isNamed (r.replacement l) c = true) ls us →
      (∀ l ∈ ls, ControlLeaf found l) → ∃ ps, r.Sends (Tree.listToBytes us) ps
  | [], _, _, _, _ => by
    rw [Tree.listToBytes_nil]
    exact ⟨[], sends_nil⟩
  | u :: us, _, hvalid, hnamed, hls => by
    obtain ⟨l, ls, hl, hrest, rfl⟩ := List.forall₂_cons_right_iff.mp hnamed
    rw [List.forall_mem_cons] at hls
    obtain ⟨qs, hqs⟩ := hr.exists_sendsAll hvalid.2 hrest hls.2
    have hsymbol : u.symbol = .nonTerminal (r.replacement l) := of_decide_eq_true hl
    have hchild : ∃ ps, r.Sends u.toBytes ps := by
      cases htext : r.replacementText? l with
      | some text =>
        obtain ⟨_, body, hbody, hleaf⟩ := hls.1
        obtain ⟨id, hid⟩ := hr.text hbody hleaf htext
        rw [toBytes_of_text hid hvalid.1 hsymbol]
        exact hr.exists_sends_text hls.1 htext
      | none =>
        obtain ⟨id, name, recipient, rfl⟩ := eq_reference_of_replacementText? htext
        exact hr.exists_sends hvalid.1 hsymbol (hr.mem_keys hls.1)
    obtain ⟨ps, hps⟩ := hchild
    rw [Tree.listToBytes_cons]
    exact ⟨_, hps.append hqs⟩

end

/-! ### Predictions -/

/-- The start of a reduction can be reached. -/
theorem Reduces.start_mem_keys (hr : Reduces g found r) :
    r.grammar.start ∈ r.grammar.rules.keys := by
  obtain ⟨body, hbody⟩ := Dictionary.exists_find?_of_mem_keys hr.control.start
  obtain ⟨reduced, hreduced, -⟩ := hr.body hbody
  rw [hr.start]
  exact Dictionary.mem_keys_of_find? hreduced

/-- **The recognizer accepts whole histories only.** -/
theorem Reduces.exists_history (hr : Reduces g found r) {w : Bytes}
    (h : r.grammar.recognize w r.grammar.start .complete = true) :
    ∃ ps, r.isComplete ps = true ∧ (∀ p ∈ ps, p ∈ r.packets) ∧
      w = Utf8.encode (String.join (ps.map r.tokenOf)) := by
  obtain ⟨u, hsymbol, hu, hbytes⟩ :=
    (hr.wellFormed.recognize_iff_valid hr.bareNames hr.start_mem_keys w).mp h
  obtain ⟨ps, hps, hsends⟩ := hr.exists_sends hu (hr.start ▸ hsymbol) hr.control.start
  refine ⟨ps, ?_, hps, hbytes.symm.trans hsends⟩
  rw [isComplete, tokens?_eq_some.mpr ⟨hps, rfl⟩]
  rwa [← hbytes, hsends] at h

/-- **A history can be continued exactly when its tokens begin a sentence.** -/
theorem Reduces.recognize_tokens (hr : Reduces g found r) (hg : g.WellFormed)
    (hproductive : g.Productive) {history : List Packet} (hknown : ∀ p ∈ history, p ∈ r.packets) :
    r.grammar.recognize (Utf8.encode (String.join (history.map r.tokenOf))) r.grammar.start
        .incomplete = true ↔ ∃ rest, r.isComplete (history ++ rest) = true := by
  have hstart : Reached found r r.grammar.start := Or.inl (hr.start ▸ hr.control.start)
  rw [hr.wellFormed.recognize_incomplete_iff hr.bareNames (hr.makes hg hproductive) hstart]
  constructor
  · rintro ⟨v, hv⟩
    obtain ⟨ps, hps, -, hw⟩ := hr.exists_history hv
    obtain ⟨rest, rfl⟩ := prefix_of_encode_join_tokenOf hknown ⟨v, hw⟩
    exact ⟨rest, hps⟩
  · rintro ⟨rest, hrest⟩
    rw [isComplete] at hrest
    cases htokens : r.tokens? (history ++ rest) with
    | none =>
      rw [htokens] at hrest
      exact absurd hrest Bool.false_ne_true
    | some s =>
      rw [htokens] at hrest
      obtain ⟨-, rfl⟩ := tokens?_eq_some.mp htokens
      refine ⟨Utf8.encode (String.join (rest.map r.tokenOf)), ?_⟩
      rwa [← Utf8.encode_append, ← String.join_append, ← List.map_append]

/-- The packets of a complete history are known. -/
theorem mem_packets_of_isComplete {history : List Packet} (h : r.isComplete history = true) :
    ∀ p ∈ history, p ∈ r.packets := by
  rw [isComplete] at h
  split at h
  · exact absurd h Bool.false_ne_true
  · rename_i s htokens
    exact (tokens?_eq_some.mp htokens).1

/-- **Predictions are exact.** -/
theorem Reduces.mem_predict (hr : Reduces g found r) (hg : g.WellFormed)
    (hproductive : g.Productive) (hnodup : r.packets.Nodup) {history : List Packet} {p : Packet} :
    p ∈ r.predict history ↔ ∃ rest, r.isComplete (history ++ p :: rest) = true := by
  -- The token of the packet at a place is its number there.
  have hplace : ∀ {k : Nat} {p : Packet}, r.packets[k]? = some p → r.tokenOf p = token k := by
    intro k p hk
    obtain ⟨hlt, rfl⟩ := List.getElem?_eq_some_iff.mp hk
    rw [tokenOf, hnodup.idxOf_getElem k hlt]
  rw [predict]
  cases htokens : r.tokens? history with
  | none =>
    refine iff_of_false List.not_mem_nil ?_
    rintro ⟨rest, hrest⟩
    have hknown := List.forall_mem_append.mp (mem_packets_of_isComplete hrest)
    rw [tokens?_eq_some.mpr ⟨hknown.1, rfl⟩] at htokens
    exact absurd htokens (by simp)
  | some known =>
    obtain ⟨hknown, rfl⟩ := tokens?_eq_some.mp htokens
    have hrecognize : ∀ {k : Nat}, r.packets[k]? = some p →
        (r.grammar.recognize (Utf8.encode (String.join (history.map r.tokenOf) ++ token k))
          r.grammar.start .incomplete = true ↔
            ∃ rest, r.isComplete (history ++ p :: rest) = true) := by
      intro k hk
      have hmem := List.mem_of_getElem? hk
      have htext : String.join (history.map r.tokenOf) ++ token k =
          String.join ((history ++ [p]).map r.tokenOf) := by
        rw [List.map_append, String.join_append, List.map_singleton, String.join_cons,
          String.join_nil, String.append_empty, hplace hk]
      rw [htext, hr.recognize_tokens hg hproductive
        (List.forall_mem_append.mpr ⟨hknown, List.forall_mem_singleton.mpr hmem⟩)]
      exact exists_congr fun rest => by rw [List.append_cons history p rest]
    simp only [List.mem_map, List.mem_filter, Prod.exists, List.mem_zipIdx_iff_getElem?]
    constructor
    · rintro ⟨q, k, ⟨hk, hviable⟩, rfl⟩
      exact (hrecognize hk).mp hviable
    · rintro ⟨rest, hrest⟩
      have hmem : p ∈ r.packets := mem_packets_of_isComplete hrest p (by simp)
      obtain ⟨k, hk⟩ := List.mem_iff_getElem?.mp hmem
      exact ⟨p, k, ⟨hk, (hrecognize hk).mpr ⟨rest, hrest⟩⟩, rfl⟩

/-- The packets of a reduction are in increasing order. -/
theorem sorted_packets (hr : g.reduce = .ok r) :
    r.packets.Pairwise fun p q => compare p q = .lt := by
  obtain ⟨_, -, hpackets, -, -⟩ := exists_of_reduce hr
  rw [hpackets]
  exact SortedSet.sorted_ofList _

/-- Packets are predicted in increasing order. -/
theorem sorted_predict (hsorted : r.packets.Pairwise fun p q => compare p q = .lt)
    (history : List Packet) :
    (r.predict history).Pairwise fun p q => compare p q = .lt := by
  rw [predict]
  split
  · exact .nil
  · refine hsorted.sublist ?_
    conv_rhs => rw [← List.zipIdx_map_fst 0 r.packets]
    exact List.filter_sublist.map _

/-! ### Histories that grow by predicted packets -/

/-- **A history that has grown** from the empty one by predicted packets. -/
inductive Grown (r : Reduction) : List Packet → Prop
  | nil : r.Grown []
  | snoc {history : List Packet} {p : Packet} : r.Grown history → p ∈ r.predict history →
    r.Grown (history ++ [p])

/-- A history that has grown begins a complete exchange. -/
theorem Reduces.exists_complete_of_grown (hr : Reduces g found r) (hg : g.WellFormed)
    (hproductive : g.Productive) (hnodup : r.packets.Nodup) {history : List Packet}
    (h : r.Grown history) : ∃ rest, r.isComplete (history ++ rest) = true := by
  cases h with
  | nil =>
    obtain ⟨body, hbody⟩ := Dictionary.exists_find?_of_mem_keys hr.control.start
    obtain ⟨u, hsymbol, hu⟩ := hr.exists_valid hg hproductive hbody
    rw [← hr.start] at hsymbol
    have hrecognize := (hr.wellFormed.recognize_iff_valid hr.bareNames hr.start_mem_keys _).mpr
      ⟨u, hsymbol, hu, rfl⟩
    obtain ⟨ps, hps, -⟩ := hr.exists_history hrecognize
    exact ⟨ps, hps⟩
  | @snoc history p _ hp =>
    obtain ⟨rest, hrest⟩ := (hr.mem_predict hg hproductive hnodup).mp hp
    exact ⟨rest, by rwa [← List.append_cons]⟩

/-- **A history that has grown is complete or goes on.** -/
theorem Reduces.isComplete_or_predict_ne_nil (hr : Reduces g found r) (hg : g.WellFormed)
    (hproductive : g.Productive) (hnodup : r.packets.Nodup) {history : List Packet}
    (h : r.Grown history) : r.isComplete history = true ∨ r.predict history ≠ [] := by
  obtain ⟨rest, hrest⟩ := hr.exists_complete_of_grown hg hproductive hnodup h
  cases rest with
  | nil => exact Or.inl (by rwa [List.append_nil] at hrest)
  | cons p rest =>
    exact Or.inr (List.ne_nil_of_mem ((hr.mem_predict hg hproductive hnodup).mpr ⟨rest, hrest⟩))

/-! ### Exchanges that one rule spells -/

/-- The packet of a reference that sends a message. -/
def sentPacket? : Node → Option Packet
  | .reference _ name (some sender) recipient => some ⟨some sender, recipient, name⟩
  | _ => none

/-- **Reduced children of references that send messages send their packets.** -/
theorem Reduces.exists_sends_spelled (hr : Reduces g found r) {us : List Tree} {ls : List Node}
    (hnamed : List.Forall₂ (fun l c => isNamed (r.replacement l) c = true) ls us)
    (hvalid : ∀ u ∈ us, r.grammar.Valid u)
    (hls : ∀ l ∈ ls, ControlLeaf found l ∧ (sentPacket? l).isSome) :
    ∃ ps, List.Forall₂ (fun l p => sentPacket? l = some p) ls ps ∧
      r.Sends (Tree.listToBytes us) ps := by
  induction hnamed with
  | nil => exact ⟨[], .nil, by rw [Tree.listToBytes_nil]; exact sends_nil⟩
  | @cons l u ls us hl _ ih =>
    rw [List.forall_mem_cons] at hvalid hls
    obtain ⟨ps, hps, hsends⟩ := ih hvalid.2 hls.2
    obtain ⟨⟨_, body, hbody, hleaf⟩, hsent⟩ := hls.1
    obtain ⟨p, hp⟩ := Option.isSome_iff_exists.mp hsent
    have htoken : p ∈ r.packets ∧ r.replacementText? l = some (r.tokenOf p) := by
      cases l with
      | reference id name sender recipient =>
        cases sender with
        | none => exact absurd hp (by simp [sentPacket?])
        | some sender =>
          obtain rfl := Option.some.inj hp
          exact ⟨hr.packet hbody hleaf, rfl⟩
      | terminal | charset | sequence | choice | repetition =>
        exact absurd hp (by simp [sentPacket?])
    obtain ⟨_, htext⟩ := hr.text hbody hleaf htoken.2
    refine ⟨p :: ps, .cons hp hps, ?_⟩
    rw [Tree.listToBytes_cons, toBytes_of_text htext hvalid.1 (of_decide_eq_true hl)]
    exact (sends_singleton htoken.1).append hsends

/-- **Where the rule of the start symbol sends whatever it refers to, complete exchanges are what it
spells.** -/
theorem Reduces.isComplete_iff_spells (hr : Reduces g found r) {body : Node}
    (hbody : g.body? g.start = some body) (hsent : ∀ l ∈ body.leaves, (sentPacket? l).isSome)
    (history : List Packet) : r.isComplete history = true ↔
      Lifts (fun l p => sentPacket? l = some p) body.Spells history := by
  obtain ⟨_, hfound⟩ := Dictionary.exists_find?_of_mem_keys hr.control.start
  obtain rfl := Option.some.inj (hbody.symm.trans (hr.control.body hfound))
  obtain ⟨reduced, hreduced, hmatches⟩ := hr.body hfound
  have hleaves : ∀ ls, body.Spells ls →
      ∀ l ∈ ls, ControlLeaf found l ∧ (sentPacket? l).isSome := fun ls hls l hl =>
    have hmem := mem_leaves_of_spells hls l hl
    ⟨⟨_, body, hfound, hmem⟩, hsent l hmem⟩
  rw [hr.isComplete_iff_valid]
  constructor
  · rintro ⟨s, hs, u, hsymbol, hu, hw⟩
    obtain ⟨hknown, rfl⟩ := tokens?_eq_some.mp hs
    obtain ⟨⟨reduced', hreduced', hmatch⟩, hvalid⟩ := (Grammar.valid_nonTerminal hsymbol).mp hu
    obtain rfl : reduced = reduced' := Option.some.inj (hreduced.symm.trans hreduced')
    obtain ⟨ls, hls, hnamed⟩ := (hmatches u.children).mp hmatch
    obtain ⟨ps, hps, hsends⟩ := hr.exists_sends_spelled hnamed hvalid (hleaves ls hls)
    rw [← Tree.toBytes_nonTerminal hsymbol] at hsends
    obtain rfl := hsends.inj ⟨hknown, hw⟩
    exact ⟨ls, hls, hps⟩
  · rintro ⟨ls, hls, hhistory⟩
    have hmade : ∀ l ∈ ls, ∃ u, isNamed (r.replacement l) u = true ∧ r.grammar.Valid u := by
      intro l hl
      refine hr.exists_replaced (hleaves ls hls l hl).1 ?_
      rintro id name recipient rfl
      exact absurd (hleaves ls hls _ hl).2 (by simp [sentPacket?])
    obtain ⟨us, hus, hvalid⟩ := exists_forall₂ hmade
    obtain ⟨ps, hps, hsends⟩ := hr.exists_sends_spelled hus hvalid (hleaves ls hls)
    -- Each leaf has but one packet.
    obtain rfl : ps = history := List.right_unique_forall₂'
      (fun _ _ _ h h' => Option.some.inj (h.symm.trans h')) hps hhistory
    exact ⟨_, tokens?_eq_some.mpr ⟨hsends.known, rfl⟩, Tree.branch g.start us, rfl,
      (Grammar.valid_nonTerminal rfl).mpr
        ⟨⟨reduced, hreduced, (hmatches us).mpr ⟨ls, hls, hus⟩⟩, hvalid⟩,
      (Tree.toBytes_nonTerminal rfl).trans hsends.bytes⟩

/-- One packet that can come next is what is predicted. -/
theorem predict_eq_singleton (hsorted : r.packets.Pairwise fun p q => compare p q = .lt)
    {history : List Packet} {p : Packet} (h : ∀ q, q ∈ r.predict history ↔ q = p) :
    r.predict history = [p] := by
  refine List.perm_singleton.mp ((List.perm_ext_iff_of_nodup ?_ (List.nodup_singleton _)).mpr ?_)
  · exact SortedSet.nodup_of_sorted (sorted_predict hsorted history)
  · simpa using h

/-- **Where the start symbol is one message, complete exchanges are this message.** -/
theorem Reduces.isComplete_singleton (hr : Reduces g found r) {id : Nat} {name sender : String}
    {recipient : Option String}
    (hbody : g.body? g.start = some (.reference id name (some sender) recipient))
    (history : List Packet) :
    r.isComplete history = true ↔ history = [⟨some sender, recipient, name⟩] := by
  rw [hr.isComplete_iff_spells hbody (by simp [leaves, sentPacket?])]
  refine lifts_singleton.trans ?_
  simp [sentPacket?]

/-- So this message is predicted first, and then nothing. -/
theorem Reduces.predict_singleton (hr : Reduces g found r) (hg : g.WellFormed)
    (hproductive : g.Productive) {id : Nat} {name sender : String} {recipient : Option String}
    (hbody : g.body? g.start = some (.reference id name (some sender) recipient))
    (hsorted : r.packets.Pairwise fun p q => compare p q = .lt) :
    r.predict [] = [⟨some sender, recipient, name⟩] ∧
      r.predict [⟨some sender, recipient, name⟩] = [] := by
  have hpredict : ∀ history q, q ∈ r.predict history ↔
      history = [] ∧ q = ⟨some sender, recipient, name⟩ := by
    intro history q
    rw [hr.mem_predict hg hproductive (SortedSet.nodup_of_sorted hsorted)]
    simp [hr.isComplete_singleton hbody, List.append_eq_singleton_iff]
  refine ⟨predict_eq_singleton hsorted fun q => by simp [hpredict], ?_⟩
  exact List.eq_nil_iff_forall_not_mem.mpr fun q hq => by simp [hpredict] at hq

end GrammarFuzzing.Reduction
