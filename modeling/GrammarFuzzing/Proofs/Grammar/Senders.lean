import GrammarFuzzing.Grammar.Slice
import GrammarFuzzing.Proofs.Grammar.Validity
import GrammarFuzzing.Tree.Message

/-!
# The messages of some senders

A slice of a grammar is to hold the messages of some senders only, and slicing drops references to
messages of others. It drops them where a list of nodes stands, that is, from sequences and choices.
A message that a repetition repeats, or that is all there is to a rule, has no list around it and
stays. So slicing separates the senders exactly if every message of another sender stands in a
sequence or a choice (`GrammarFuzzing.Grammar.Droppable`):

* `GrammarFuzzing.Grammar.isSentBy_slice_iff` – then, and only then, no message of another sender
  occurs in the slice.

The second half of the file is about trees. `GrammarFuzzing.Tree.SentBy` says that all nodes with a
sender have one of the given ones. It does not matter to it what else is done to a tree: whether
parties are removed or nodes become read-only.
-/

namespace GrammarFuzzing

/-! ### Nodes -/

namespace Node

variable {senders : List String}

/-- Restricting a node does not change whose message it is. -/
@[simp] theorem isSentBy_keepSenders (n : Node) :
    (n.keepSenders senders).isSentBy senders = n.isSentBy senders := by
  cases n <;> rw [keepSenders] <;> rfl

/-- A message of another sender is a reference, and nothing is in it. -/
theorem subnodes_of_not_isSentBy {n : Node} (h : n.isSentBy senders = false) :
    n.subnodes = [n] := by
  cases n with
  | reference => rfl
  | terminal | charset | sequence | choice | repetition => simp [isSentBy, sender?] at h

/-- Whether what a node repeats is no message, or one of the given senders. -/
def repeatsSentBy (senders : List String) : Node → Bool
  | .repetition _ body _ _ _ => body.isSentBy senders
  | _ => true

mutual

/-- **What is no message of another sender stays**, restricted. -/
theorem keepSenders_mem_subnodes {m : Node} (hm : m.isSentBy senders = true) :
    ∀ {n : Node}, m ∈ n.subnodes → m.keepSenders senders ∈ (n.keepSenders senders).subnodes
  | .terminal .., h | .charset .., h | .reference .., h => by
    rw [subnodes, List.mem_singleton] at h
    rw [h]
    exact mem_subnodes_self _
  | .sequence id parts, h => by
    rw [subnodes, List.mem_cons] at h
    rcases h with rfl | h
    · exact mem_subnodes_self _
    · rw [keepSenders, subnodes]
      exact List.mem_cons_of_mem _ (keepSenders_mem_listSubnodes hm h)
  | .choice id options, h => by
    rw [subnodes, List.mem_cons] at h
    rcases h with rfl | h
    · exact mem_subnodes_self _
    · rw [keepSenders, subnodes]
      exact List.mem_cons_of_mem _ (keepSenders_mem_listSubnodes hm h)
  | .repetition id body min max form, h => by
    rw [subnodes, List.mem_cons] at h
    rcases h with rfl | h
    · exact mem_subnodes_self _
    · rw [keepSenders]
      exact mem_subnodes_repetition (keepSenders_mem_subnodes hm h)

theorem keepSenders_mem_listSubnodes {m : Node} (hm : m.isSentBy senders = true) :
    ∀ {ns : List Node}, m ∈ listSubnodes ns →
      m.keepSenders senders ∈ listSubnodes (listKeepSenders senders ns)
  | [], h => by simp [listSubnodes] at h
  | n :: ns, h => by
    rw [listSubnodes, List.mem_append] at h
    rw [listKeepSenders]
    split
    · rw [listSubnodes, List.mem_append]
      exact h.imp (keepSenders_mem_subnodes hm) (keepSenders_mem_listSubnodes hm)
    · rename_i hn
      -- A node that is dropped is a message of another sender, and has no other node in it.
      rcases h with h | h
      · rw [subnodes_of_not_isSentBy (Bool.not_eq_true _ ▸ hn), List.mem_singleton] at h
        exact absurd (h ▸ hm) hn
      · exact keepSenders_mem_listSubnodes hm h

end

mutual

/-- **In a restricted node there is no message of another sender** if the node is none and none is
repeated in it. -/
theorem isSentBy_of_mem_keepSenders {m : Node} : ∀ {n : Node}, n.isSentBy senders = true →
    (∀ k ∈ n.subnodes, k.repeatsSentBy senders = true) → m ∈ (n.keepSenders senders).subnodes →
      m.isSentBy senders = true
  | .terminal .., hn, _, h | .charset .., hn, _, h | .reference .., hn, _, h => by
    rw [keepSenders, subnodes, List.mem_singleton] at h
    rwa [h]
  | .sequence id parts, _, hrepeats, h => by
    rw [keepSenders, subnodes, List.mem_cons] at h
    rcases h with rfl | h
    · rfl
    · refine isSentBy_of_mem_listKeepSenders (fun k hk => hrepeats k ?_) h
      rw [subnodes]
      exact List.mem_cons_of_mem _ hk
  | .choice id options, _, hrepeats, h => by
    rw [keepSenders, subnodes, List.mem_cons] at h
    rcases h with rfl | h
    · rfl
    · refine isSentBy_of_mem_listKeepSenders (fun k hk => hrepeats k ?_) h
      rw [subnodes]
      exact List.mem_cons_of_mem _ hk
  | .repetition id body min max form, _, hrepeats, h => by
    rw [keepSenders, subnodes, List.mem_cons] at h
    rcases h with rfl | h
    · rfl
    · have hbody : body.isSentBy senders = true := hrepeats _ (mem_subnodes_self _)
      exact isSentBy_of_mem_keepSenders hbody
        (fun k hk => hrepeats k (mem_subnodes_repetition hk)) h

theorem isSentBy_of_mem_listKeepSenders {m : Node} : ∀ {ns : List Node},
    (∀ k ∈ listSubnodes ns, k.repeatsSentBy senders = true) →
      m ∈ listSubnodes (listKeepSenders senders ns) → m.isSentBy senders = true
  | [], _, h => by simp [listKeepSenders, listSubnodes] at h
  | n :: ns, hrepeats, h => by
    simp only [listSubnodes, List.mem_append] at hrepeats
    rw [listKeepSenders] at h
    split at h
    · rename_i hn
      rw [listSubnodes, List.mem_append] at h
      rcases h with h | h
      · exact isSentBy_of_mem_keepSenders hn (fun k hk => hrepeats k (Or.inl hk)) h
      · exact isSentBy_of_mem_listKeepSenders (fun k hk => hrepeats k (Or.inr hk)) h
    · exact isSentBy_of_mem_listKeepSenders (fun k hk => hrepeats k (Or.inr hk)) h

end

end Node

/-! ### Slices -/

namespace Grammar

open Node

variable {g : Grammar} {senders : List String}

/-- **Messages of other senders stand in sequences and choices only**, where they can be dropped:
none is the body of a rule or of a repetition. -/
def Droppable (g : Grammar) (senders : List String) : Prop :=
  ∀ p ∈ g.rules, p.2.isSentBy senders = true ∧ ∀ n ∈ p.2.subnodes, n.repeatsSentBy senders = true

instance (g : Grammar) (senders : List String) : Decidable (g.Droppable senders) :=
  inferInstanceAs (Decidable (∀ p ∈ g.rules, p.2.isSentBy senders = true ∧
    ∀ n ∈ p.2.subnodes, n.repeatsSentBy senders = true))

/-- The rules of a slice are the rules, restricted. -/
theorem rules_slice {slice : Grammar} (h : g.slice senders = .ok slice) :
    slice.rules = g.rules.map fun r => (r.1, r.2.keepSenders senders) := by
  rw [Grammar.slice] at h
  dsimp only at h
  split at h
  · exact absurd h (by simp)
  · exact (Draft.builds_of_build h).rules

/-- **No message of another sender occurs in a slice** exactly if each of them could be dropped. -/
theorem isSentBy_slice_iff {slice : Grammar} (h : g.slice senders = .ok slice) :
    (∀ n, slice.Occurs n → n.isSentBy senders = true) ↔ g.Droppable senders := by
  have hrules : ∀ n, slice.Occurs n ↔
      ∃ p ∈ g.rules, n ∈ (p.2.keepSenders senders).subnodes := by
    intro n
    rw [Occurs, rules_slice h]
    simp
  simp only [hrules]
  constructor
  · intro hslice p hp
    refine ⟨?_, fun n hn => ?_⟩
    · rw [← isSentBy_keepSenders]
      exact hslice _ ⟨p, hp, mem_subnodes_self _⟩
    · cases n with
      | terminal | charset | reference | sequence | choice => rfl
      | repetition id body min max form =>
        have hkept : (Node.repetition id body min max form).keepSenders senders ∈
            (p.2.keepSenders senders).subnodes := keepSenders_mem_subnodes rfl hn
        rw [keepSenders] at hkept
        have hbody := subnodes_trans (mem_subnodes_repetition (mem_subnodes_self _)) hkept
        rw [repeatsSentBy, ← isSentBy_keepSenders]
        exact hslice _ ⟨p, hp, hbody⟩
  · rintro hg n ⟨p, hp, hn⟩
    exact isSentBy_of_mem_keepSenders (hg p hp).1 (hg p hp).2 hn

end Grammar

/-! ### Trees -/

namespace Tree

variable {senders : List String}

mutual

/-- **All nodes that have a sender have one of the given ones.** -/
def SentBy (senders : List String) : Tree → Prop
  | ⟨_, children, _, sender, _, _⟩ => (∀ s ∈ sender, s ∈ senders) ∧ ListSentBy senders children

/-- All nodes of several trees that have a sender have one of the given ones. -/
def ListSentBy (senders : List String) : List Tree → Prop
  | [] => True
  | t :: rest => t.SentBy senders ∧ ListSentBy senders rest

end

theorem listSentBy_iff {ts : List Tree} :
    ListSentBy senders ts ↔ ∀ t ∈ ts, t.SentBy senders := by
  induction ts with
  | nil => simp [ListSentBy]
  | cons t ts ih => simp [ListSentBy, ih]

theorem sentBy_node {symbol : Symbol} {children sources : List Tree}
    {sender recipient : Option String} {readOnly : Bool} :
    SentBy senders ⟨symbol, children, sources, sender, recipient, readOnly⟩ ↔
      (∀ s ∈ sender, s ∈ senders) ∧ ∀ t ∈ children, t.SentBy senders := by
  rw [SentBy, listSentBy_iff]

theorem sentBy_leaf (value : Literal) : (leaf value).SentBy senders :=
  sentBy_node.mpr ⟨fun _ hs => absurd hs (by simp), fun _ ht => absurd ht List.not_mem_nil⟩

/-- A tree as a message of another party. -/
theorem SentBy.withParty {t : Tree} (ht : t.SentBy senders) {sender : Option String}
    (hsender : ∀ s ∈ sender, s ∈ senders) (recipient : Option String) :
    (t.withParty sender recipient).SentBy senders := by
  obtain ⟨symbol, children, sources, sender', recipient', readOnly⟩ := t
  exact ⟨hsender, ht.2⟩

theorem SentBy.withSources {t : Tree} (ht : t.SentBy senders) (sources : List Tree) :
    (t.withSources sources).SentBy senders := by
  obtain ⟨symbol, children, sources', sender, recipient, readOnly⟩ := t
  exact ht

mutual

/-- Removing parties brings in no sender. -/
theorem SentBy.stripParties : ∀ {t : Tree}, t.SentBy senders → ∀ inside,
    (t.stripParties inside).SentBy senders
  | ⟨symbol, children, sources, sender, recipient, readOnly⟩, ⟨hsender, hchildren⟩, inside => by
    rw [Tree.stripParties]
    refine ⟨fun s hs => ?_, ListSentBy.stripParties hchildren _⟩
    split at hs
    · exact absurd hs (by simp)
    · exact hsender s hs

theorem ListSentBy.stripParties : ∀ {ts : List Tree}, ListSentBy senders ts → ∀ inside,
    ListSentBy senders (listStripParties inside ts)
  | [], _, _ => by
    rw [listStripParties]
    exact trivial
  | _ :: _, ⟨ht, hts⟩, inside => by
    rw [listStripParties]
    exact ⟨ht.stripParties inside, ListSentBy.stripParties hts inside⟩

end

mutual

/-- A read-only tree has the senders that it had. -/
theorem SentBy.asReadOnly : ∀ {t : Tree}, t.SentBy senders → t.asReadOnly.SentBy senders
  | ⟨symbol, children, sources, sender, recipient, readOnly⟩, ⟨hsender, hchildren⟩ => by
    rw [Tree.asReadOnly]
    exact ⟨hsender, ListSentBy.asReadOnly hchildren⟩

theorem ListSentBy.asReadOnly : ∀ {ts : List Tree}, ListSentBy senders ts →
    ListSentBy senders (listAsReadOnly ts)
  | [], _ => by
    rw [listAsReadOnly]
    exact trivial
  | _ :: _, ⟨ht, hts⟩ => by
    rw [listAsReadOnly]
    exact ⟨ht.asReadOnly, ListSentBy.asReadOnly hts⟩

end

mutual

/-- **The messages of a tree are sent by the senders of its nodes.** -/
theorem SentBy.messages : ∀ {t : Tree}, t.SentBy senders → ∀ m ∈ t.messages, m.sender ∈ senders
  | ⟨symbol, children, sources, some s, recipient, readOnly⟩, ⟨hsender, _⟩, m, hm => by
    rw [Tree.messages, List.mem_singleton] at hm
    rw [hm]
    exact hsender s rfl
  | ⟨symbol, children, sources, none, recipient, readOnly⟩, ⟨_, hchildren⟩, m, hm => by
    rw [Tree.messages] at hm
    exact ListSentBy.messages hchildren 0 m hm

theorem ListSentBy.messages : ∀ {ts : List Tree}, ListSentBy senders ts → ∀ i,
    ∀ m ∈ listMessages i ts, m.sender ∈ senders
  | [], _, _, _, hm => by
    rw [listMessages] at hm
    exact absurd hm List.not_mem_nil
  | t :: ts, ⟨ht, hts⟩, i, m, hm => by
    rw [listMessages, List.mem_append] at hm
    rcases hm with hm | hm
    · obtain ⟨n, hn, rfl⟩ := List.mem_map.mp hm
      exact ht.messages n hn
    · exact ListSentBy.messages hts (i + 1) m hm

end

end Tree

end GrammarFuzzing
