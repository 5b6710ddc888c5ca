import GrammarFuzzing.Proofs.Grammar.Parties
import GrammarFuzzing.Proofs.Grammar.Replacement
import GrammarFuzzing.Proofs.Tree.Paths
import GrammarFuzzing.Tree.Message

/-!
# Canonical trees with other subtrees

Whether a node of a canonical tree has parties depends on where it stands: outside of all messages
it has those of its references, and below a message it has none
(`GrammarFuzzing.Tree.enclosed`). A subtree that is moved from one place to another brings the
parties of its old place along. Those that are too many are removed, since nested parties are; those
that are missing stay missing.

* `GrammarFuzzing.Grammar.Marked` says that no party is missing, which is what a replacement has to
  keep (`GrammarFuzzing.Grammar.Marked.replace`). Without its nested parties such a tree is
  canonical (`GrammarFuzzing.Grammar.Marked.canonical`).
* `GrammarFuzzing.Grammar.canonical_transplant_iff` tells when a subtree may be moved from one
  canonical tree to another: always, except that a subtree from within a message must be silent
  where it comes to stand outside of all messages.
* `GrammarFuzzing.Grammar.Canonical.mem_messages_iff` says which messages a canonical tree has: the
  outermost nodes whose references name a sender.
-/

namespace GrammarFuzzing

/-! ### Inside and outside of messages -/

namespace Tree

/-- **Whether a node above the one at a path is a message.** -/
def enclosed : Tree → Path → Bool
  | _, [] => false
  | t, i :: path => t.sender.isSome || (t.children[i]?).any fun c => c.enclosed path

theorem enclosed_nil (t : Tree) : t.enclosed [] = false := by
  rw [enclosed]

theorem enclosed_cons {t c : Tree} {i : Nat} (hc : t.children[i]? = some c) (path : Path) :
    t.enclosed (i :: path) = (t.sender.isSome || c.enclosed path) := by
  rw [enclosed, hc, Option.any_some]

/-- Removing parties does not change what is inside of a message. -/
theorem enclosed_stripParties (path : Path) : ∀ (t : Tree) (inside : Bool),
    (inside || (t.stripParties inside).enclosed path) = (inside || t.enclosed path) := by
  induction path with
  | nil => exact fun t inside => by rw [enclosed_nil, enclosed_nil]
  | cons i path ih =>
    intro t inside
    obtain ⟨symbol, children, sources, sender, recipient, readOnly⟩ := t
    rw [stripParties, listStripParties_eq_map, enclosed, enclosed]
    cases inside with
    | true => rfl
    | false =>
      cases hc : children[i]? with
      | none => simp [hc]
      | some c => simpa [hc] using ih c sender.isSome

/-- **What stands at a path once parties are removed.** -/
theorem get?_stripParties (path : Path) : ∀ (t : Tree) (inside : Bool),
    (t.stripParties inside).get? path =
      (t.get? path).map (stripParties (inside || t.enclosed path)) := by
  induction path with
  | nil =>
    intro t inside
    rw [get?_nil, get?_nil, enclosed_nil, Bool.or_false, Option.map_some]
  | cons i path ih =>
    intro t inside
    obtain ⟨symbol, children, sources, sender, recipient, readOnly⟩ := t
    rw [stripParties, listStripParties_eq_map, get?_cons, get?_cons]
    cases hc : children[i]? with
    | none => simp [hc]
    | some c => simp [hc, ih c, enclosed_cons (t := ⟨symbol, children, _, _, _, _⟩) hc,
        Bool.or_assoc]

/-- Modifying a node changes nothing above it. -/
theorem enclosed_modify? {f : Tree → Tree} {path : Path} : ∀ {t u : Tree},
    t.modify? f path = some u → u.enclosed path = t.enclosed path := by
  induction path with
  | nil => exact fun _ => by rw [enclosed_nil, enclosed_nil]
  | cons i path ih =>
    intro t u hu
    obtain ⟨c, d, hc, hd, rfl⟩ := modify?_cons_eq_some.mp hu
    obtain ⟨hi, -⟩ := List.getElem?_eq_some_iff.mp hc
    rw [enclosed_cons hc, enclosed_cons (List.getElem?_set_self hi), ih hd]

/-- Two nodes with the same symbol and the same parties. -/
structure SameRoot (t u : Tree) : Prop where
  symbol : t.symbol = u.symbol
  sender : t.sender = u.sender
  recipient : t.recipient = u.recipient

mutual

/-- **The messages of a tree** are its nodes with a sender that no message encloses. -/
theorem mem_messages_iff {m : TreeMessage} : ∀ {t : Tree}, m ∈ t.messages ↔
    ∃ n, t.get? m.path = some n ∧ t.enclosed m.path = false ∧ n.sender = some m.sender ∧
      n.recipient = m.recipient ∧ n.symbol = m.symbol ∧ n.toBytes = m.payload
  | ⟨symbol, children, sources, some s, recipient, readOnly⟩ => by
    obtain ⟨sender', recipient', symbol', payload, path⟩ := m
    rw [messages, List.mem_singleton]
    cases path with
    | nil => simp [get?_nil, enclosed_nil, eq_comm]
    | cons i path => simp [enclosed]
  | ⟨symbol, children, sources, none, recipient, readOnly⟩ => by
    obtain ⟨sender', recipient', symbol', payload, path⟩ := m
    rw [messages, mem_listMessages_iff]
    cases path with
    | nil => simp [get?_nil]
    | cons i path =>
      simp only [get?_cons, Option.bind_eq_some_iff, List.cons.injEq, Nat.zero_add]
      constructor
      · rintro ⟨j, below, c, ⟨rfl, rfl⟩, hc, n, hn, henclosed, hrest⟩
        exact ⟨n, ⟨c, hc, hn⟩, by rwa [enclosed_cons hc], hrest⟩
      · rintro ⟨n, ⟨c, hc, hn⟩, henclosed, hrest⟩
        rw [enclosed_cons hc] at henclosed
        exact ⟨i, path, c, ⟨rfl, rfl⟩, hc, n, hn, henclosed, hrest⟩

theorem mem_listMessages_iff {m : TreeMessage} : ∀ {ts : List Tree} {i : Nat},
    m ∈ listMessages i ts ↔ ∃ j below c, m.path = (i + j) :: below ∧ ts[j]? = some c ∧
      ∃ n, c.get? below = some n ∧ c.enclosed below = false ∧ n.sender = some m.sender ∧
        n.recipient = m.recipient ∧ n.symbol = m.symbol ∧ n.toBytes = m.payload
  | [], i => by simp [listMessages]
  | t :: ts, i => by
    rw [listMessages, List.mem_append, mem_listMessages_iff, List.mem_map]
    constructor
    · rintro (⟨k, hk, rfl⟩ | ⟨j, below, c, hpath, hc, hn⟩)
      · exact ⟨0, k.path, t, rfl, rfl, mem_messages_iff.mp hk⟩
      · exact ⟨j + 1, below, c, by rw [hpath, Nat.add_right_comm, Nat.add_assoc], hc, hn⟩
    · rintro ⟨j, below, c, hpath, hc, hn⟩
      cases j with
      | zero =>
        obtain rfl : t = c := by simpa using hc
        refine Or.inl ⟨{ m with path := below }, mem_messages_iff.mpr hn, ?_⟩
        obtain ⟨sender', recipient', symbol', payload, path⟩ := m
        obtain rfl : path = (i + 0) :: below := hpath
        rfl
      | succ j =>
        exact Or.inr ⟨j, below, c, by rw [hpath, Nat.add_right_comm, Nat.add_assoc], hc, hn⟩

end

end Tree

namespace Grammar

open Node

variable {g : Grammar}

/-! ### Canonical trees by paths -/

/-- What stands at a path of a canonical tree is canonical for its place, and has the parties of its
place unless it is the root. -/
theorem CanonicalBelow.of_get? {path : Path} {n : Tree} : ∀ {t : Tree} {inside : Bool},
    g.CanonicalBelow inside t → t.get? path = some n →
      g.CanonicalBelow (inside || t.enclosed path) n ∧
        (path ≠ [] → g.HasParties (inside || t.enclosed path) n) := by
  induction path with
  | nil =>
    intro t inside ht hn
    obtain rfl := Option.some.inj ((Tree.get?_nil t).symm.trans hn)
    rw [Tree.enclosed_nil, Bool.or_false]
    exact ⟨ht, fun h => absurd rfl h⟩
  | cons i path ih =>
    intro t inside ht hn
    rw [Tree.get?_cons] at hn
    obtain ⟨c, hc, hbelow⟩ := Option.bind_eq_some_iff.mp hn
    rw [Tree.enclosed_cons hc, ← Bool.or_assoc]
    obtain ⟨symbol, children, sources, sender, recipient, readOnly⟩ := t
    obtain ⟨hparties, hcanonical⟩ := canonicalAll_iff.mp ht c (List.mem_of_getElem? hc)
    obtain ⟨hcanonical, hrest⟩ := ih hcanonical hbelow
    refine ⟨hcanonical, fun _ => ?_⟩
    cases path with
    | nil =>
      obtain rfl := Option.some.inj ((Tree.get?_nil c).symm.trans hbelow)
      rw [Tree.enclosed_nil, Bool.or_false]
      exact hparties
    | cons j path => exact hrest (by simp)

/-- **A message is where the references name a sender**: the messages of a canonical tree are the
outermost nodes of which references to their symbol say who sends them. -/
theorem Canonical.mem_messages_iff (hg : g.UniformParties) {t : Tree} (ht : g.Canonical t)
    {m : TreeMessage} : m ∈ t.messages ↔
      ∃ n, m.path ≠ [] ∧ t.get? m.path = some n ∧ t.enclosed m.path = false ∧
        (∃ id name, g.Occurs (.reference id name (some m.sender) m.recipient) ∧
          n.symbol = .nonTerminal name) ∧ n.symbol = m.symbol ∧ n.toBytes = m.payload := by
  rw [Tree.mem_messages_iff]
  constructor
  · rintro ⟨n, hn, henclosed, hsender, hrecipient, hrest⟩
    have hpath : m.path ≠ [] := by
      intro hnil
      rw [hnil] at hn
      obtain rfl := Option.some.inj ((Tree.get?_nil t).symm.trans hn)
      exact absurd (ht.sender.symm.trans hsender) (by simp)
    obtain ⟨l, hl, hmarks⟩ := by simpa [henclosed] using (ht.below.of_get? hn).2 hpath
    refine ⟨n, hpath, hn, henclosed, ?_, hrest⟩
    rcases hmarks.cases with ⟨id, name, rfl, hname⟩ | ⟨value, -, hnone, -⟩
    · rw [hsender, hrecipient] at hl
      exact ⟨id, name, hl, hname⟩
    · exact absurd (hnone.symm.trans hsender) (by simp)
  · rintro ⟨n, hpath, hn, henclosed, ⟨id, name, href, hname⟩, hrest⟩
    obtain ⟨l, hl, hmarks⟩ := by simpa [henclosed] using (ht.below.of_get? hn).2 hpath
    rcases hmarks.cases with ⟨id', name', rfl, hname'⟩ | ⟨value, hvalue, -⟩
    · obtain rfl : name = name' := by simpa [hname] using hname'
      obtain ⟨hsender, hrecipient⟩ := hg.eq hl href
      exact ⟨n, hn, henclosed, hsender, hrecipient, hrest⟩
    · exact absurd (hname.symm.trans hvalue) (by simp)

/-! ### No party is missing -/

mutual

/-- Below the root of a tree, unless the root is a message, every node that no message encloses has
the parties of a leaf that derives it. -/
def MarkedBelow (g : Grammar) : Tree → Prop
  | ⟨_, children, _, sender, _, _⟩ => sender = none → MarkedAll g children

/-- No party of several children is missing. -/
def MarkedAll (g : Grammar) : List Tree → Prop
  | [] => True
  | t :: rest => (g.HasParties false t ∧ MarkedBelow g t) ∧ MarkedAll g rest

end

/-- **No party of a tree is missing**: its root has none, and every other node that no message
encloses has those of a leaf that derives it. Nested parties may be too many. -/
structure Marked (g : Grammar) (t : Tree) : Prop where
  sender : t.sender = none
  recipient : t.recipient = none
  below : g.MarkedBelow t

theorem markedAll_iff {ts : List Tree} :
    g.MarkedAll ts ↔ ∀ t ∈ ts, g.HasParties false t ∧ g.MarkedBelow t := by
  induction ts with
  | nil => simp [MarkedAll]
  | cons t ts ih => simp [MarkedAll, ih]

theorem markedBelow_iff {t : Tree} :
    g.MarkedBelow t ↔ (t.sender = none → g.MarkedAll t.children) := by
  obtain ⟨symbol, children, sources, sender, recipient, readOnly⟩ := t
  rw [MarkedBelow]

mutual

/-- No party is missing if none is at any path. -/
theorem markedBelow_of_get? : ∀ {t : Tree}, (∀ path n, path ≠ [] → t.get? path = some n →
    t.enclosed path = false → g.HasParties false n) → g.MarkedBelow t
  | ⟨symbol, children, sources, sender, recipient, readOnly⟩, h => by
    rintro rfl
    refine markedAll_of_get? fun i c hc => ⟨?_, fun path n _ hn henclosed => ?_⟩
    · refine h [i] c (by simp) ?_ ?_
      · rw [Tree.get?_cons, hc, Option.bind_some, Tree.get?_nil]
      · rw [Tree.enclosed_cons hc, Tree.enclosed_nil]
        rfl
    · refine h (i :: path) n (by simp) ?_ ?_
      · rw [Tree.get?_cons, hc, Option.bind_some, hn]
      · rw [Tree.enclosed_cons hc, henclosed]
        rfl

theorem markedAll_of_get? : ∀ {ts : List Tree}, (∀ (i : Nat) (c : Tree), ts[i]? = some c →
    g.HasParties false c ∧ ∀ path n, path ≠ [] → c.get? path = some n →
      c.enclosed path = false → g.HasParties false n) → g.MarkedAll ts
  | [], _ => trivial
  | t :: ts, h => by
    obtain ⟨hparties, hbelow⟩ := h 0 t rfl
    exact ⟨⟨hparties, markedBelow_of_get? hbelow⟩, markedAll_of_get? fun i c hc => h (i + 1) c hc⟩

end

/-- In a canonical tree no party is missing. -/
theorem CanonicalBelow.marked {t : Tree} (ht : g.CanonicalBelow false t) : g.MarkedBelow t := by
  refine markedBelow_of_get? fun path n hpath hn henclosed => ?_
  have hparties := (ht.of_get? hn).2 hpath
  rwa [henclosed] at hparties

theorem Canonical.marked {t : Tree} (ht : g.Canonical t) : g.Marked t :=
  ⟨ht.sender, ht.recipient, ht.below.marked⟩

mutual

/-- Without any party there is none too many. -/
theorem canonicalBelow_strip : ∀ t : Tree, g.CanonicalBelow true (t.stripParties true)
  | ⟨symbol, children, sources, sender, recipient, readOnly⟩ => by
    rw [Tree.stripParties]
    exact canonicalAll_strip children

theorem canonicalAll_strip : ∀ ts : List Tree, g.CanonicalAll true (Tree.listStripParties true ts)
  | [] => by
    rw [Tree.listStripParties]
    exact trivial
  | ⟨symbol, children, sources, sender, recipient, readOnly⟩ :: ts => by
    have hbelow := canonicalBelow_strip ⟨symbol, children, sources, sender, recipient, readOnly⟩
    rw [Tree.listStripParties, Tree.stripParties] at *
    exact ⟨⟨⟨rfl, rfl⟩, hbelow⟩, canonicalAll_strip ts⟩

end

mutual

theorem MarkedBelow.canonicalBelow : ∀ {t : Tree}, g.MarkedBelow t →
    g.CanonicalBelow false (t.stripParties false)
  | ⟨symbol, children, sources, some s, recipient, readOnly⟩, _ => by
    rw [Tree.stripParties]
    exact canonicalAll_strip children
  | ⟨symbol, children, sources, none, recipient, readOnly⟩, h => by
    rw [Tree.stripParties]
    exact MarkedAll.canonicalAll (h rfl)

theorem MarkedAll.canonicalAll : ∀ {ts : List Tree}, g.MarkedAll ts →
    g.CanonicalAll false (Tree.listStripParties false ts)
  | [], _ => by
    rw [Tree.listStripParties]
    exact trivial
  | t :: ts, ⟨⟨⟨l, hl, hmarks⟩, ht⟩, hts⟩ => by
    rw [Tree.listStripParties]
    exact ⟨⟨hasParties_stripParties hl hmarks false, ht.canonicalBelow⟩, MarkedAll.canonicalAll hts⟩

end

/-- **Where no party is missing, removing nested ones makes a tree canonical.** -/
theorem Marked.canonical {t : Tree} (ht : g.Marked t) : g.Canonical t.stripNestedParties := by
  have hbelow := ht.below.canonicalBelow
  obtain ⟨symbol, children, sources, sender, recipient, readOnly⟩ := t
  exact ⟨ht.sender, ht.recipient, hbelow⟩

/-! ### Other subtrees -/

/-- Parties and symbol of a child decide whether it has its parties. -/
theorem HasParties.of_sameRoot {inside : Bool} {c d : Tree} (hc : g.HasParties inside c)
    (h : d.SameRoot c) : g.HasParties inside d := by
  cases inside with
  | true => exact ⟨h.sender.trans hc.1, h.recipient.trans hc.2⟩
  | false =>
    obtain ⟨l, hl, hmarks⟩ := hc
    refine ⟨l, hl, ?_, h.sender.trans hmarks.sender, h.recipient.trans hmarks.recipient⟩
    have hadmits := hmarks.admits
    cases l with
    | terminal | charset | reference =>
      simpa [Admits, isLiteral, isOneOf, isNamed, h.symbol] using hadmits
    | sequence | choice | repetition => exact hadmits.elim

/-- **Changing a node outside of all messages** needs a node below which no party is missing; within
a message anything will do. -/
theorem MarkedBelow.modify? {f : Tree → Tree} {path : Path} : ∀ {t u : Tree}, g.MarkedBelow t →
    t.modify? f path = some u →
      (∀ old, t.get? path = some old → (f old).SameRoot old ∧
        (t.enclosed path = false → g.MarkedBelow (f old))) → u.SameRoot t ∧ g.MarkedBelow u := by
  induction path with
  | nil =>
    rintro t _ - ⟨⟩ hf
    obtain ⟨hsame, hmarked⟩ := hf t (Tree.get?_nil t)
    exact ⟨hsame, hmarked (Tree.enclosed_nil t)⟩
  | cons i path ih =>
    intro t u ht hu hf
    obtain ⟨c, d, hc, hd, rfl⟩ := Tree.modify?_cons_eq_some.mp hu
    refine ⟨⟨rfl, rfl, rfl⟩, markedBelow_iff.mpr fun hsender => ?_⟩
    have hall := markedAll_iff.mp (markedBelow_iff.mp ht hsender)
    obtain ⟨hparties, hbelow⟩ := hall c (List.mem_of_getElem? hc)
    obtain ⟨hsame, hmarked⟩ := ih hbelow hd fun old hold => by
      have hget : t.get? (i :: path) = some old := by
        rw [Tree.get?_cons, hc, Option.bind_some, hold]
      refine (hf old hget).imp_right fun hmarked henclosed => hmarked ?_
      rw [Tree.enclosed_cons hc, henclosed, hsender]
      rfl
    refine markedAll_iff.mpr fun e he => ?_
    rcases List.mem_or_eq_of_mem_set he with he | rfl
    · exact hall e he
    · exact ⟨hparties.of_sameRoot hsame, hmarked⟩

/-- **Replacing a subtree** leaves no party missing if none is missing below the new one where it
comes to stand outside of all messages and is none itself. -/
theorem Marked.replace {t u new : Tree} {path : Path} (ht : g.Marked t)
    (hnew : ∀ old, t.get? path = some old → t.enclosed path = false → old.sender = none →
      g.MarkedAll new.children) (h : t.replace path new = .ok u) : g.Marked u := by
  obtain ⟨old, hold, hsymbol, hmodify⟩ := Tree.replace_eq_ok h
  obtain ⟨hsame, hbelow⟩ := ht.below.modify? hmodify fun old' hold' => by
    obtain rfl := Option.some.inj (hold.symm.trans hold')
    refine ⟨⟨hsymbol.symm, rfl, rfl⟩, fun henclosed => ?_⟩
    exact markedBelow_iff.mpr fun hsender => hnew old hold henclosed hsender
  exact ⟨hsame.sender.trans ht.sender, hsame.recipient.trans ht.recipient, hbelow⟩

/-- Below a canonical tree that is no message no party is missing. -/
theorem Canonical.markedAll {t : Tree} (ht : g.Canonical t) : g.MarkedAll t.children :=
  markedBelow_iff.mp ht.below.marked ht.sender

/-! ### Subtrees from other places -/

/-- No reference to a symbol names parties. -/
def SilentSymbol (g : Grammar) (s : Symbol) : Prop :=
  ∀ id name sender recipient, g.Occurs (.reference id name sender recipient) →
    s = .nonTerminal name → sender = none ∧ recipient = none

/-- **A silent tree**: no reference to a symbol below its root names parties. -/
def Silent (g : Grammar) (t : Tree) : Prop :=
  ∀ path n, path ≠ [] → t.get? path = some n → g.SilentSymbol n.symbol

theorem exists_of_mem_right {α β : Type} {R : α → β → Prop} {as : List α} {bs : List β}
    (h : List.Forall₂ R as bs) {b : β} (hb : b ∈ bs) : ∃ a ∈ as, R a b := by
  obtain ⟨i, hi, rfl⟩ := List.getElem_of_mem hb
  have hi' : i < as.length := h.length_eq ▸ hi
  exact ⟨as[i], List.getElem_mem hi', h.get hi' hi⟩

/-- A child of a valid node is admitted by a leaf of the grammar. -/
theorem Valid.exists_leaf {t c : Tree} (ht : g.Valid t) (hc : c ∈ t.children) :
    ∃ l, g.Occurs l ∧ l.Admits c := by
  cases hsymbol : t.symbol with
  | terminal value =>
    rw [((valid_terminal hsymbol).mp ht)] at hc
    exact absurd hc List.not_mem_nil
  | slice =>
    have hno := ht.symbol
    simp [hsymbol, Symbol.isTerminal] at hno
  | nonTerminal name =>
    obtain ⟨⟨body, hbody, hmatch⟩, -⟩ := (valid_nonTerminal hsymbol).mp ht
    obtain ⟨ls, hls, hadmits⟩ := matches_iff_lifts.mp hmatch
    obtain ⟨l, hl, hlc⟩ := exists_of_mem_right hadmits hc
    exact ⟨l, (occurs_of_body? hbody).of_mem_subnodes
      (mem_subnodes_of_mem_leaves (mem_leaves_of_spells hls l hl)), hlc⟩

/-- Whatever stands below the root of a valid tree is admitted by a leaf of the grammar. -/
theorem Valid.exists_leaf_of_get? {path : Path} {n : Tree} : ∀ {t : Tree}, g.Valid t → path ≠ [] →
    t.get? path = some n → ∃ l, g.Occurs l ∧ l.Admits n := by
  induction path with
  | nil => exact fun _ h => absurd rfl h
  | cons i path ih =>
    intro t ht _ hn
    rw [Tree.get?_cons] at hn
    obtain ⟨c, hc, hbelow⟩ := Option.bind_eq_some_iff.mp hn
    have hmem := List.mem_of_getElem? hc
    cases path with
    | nil =>
      obtain rfl := Option.some.inj ((Tree.get?_nil c).symm.trans hbelow)
      exact ht.exists_leaf hmem
    | cons j path => exact ih (validAll_iff.mp ht.children c hmem) (by simp) hbelow

/-- Within a message nothing is a message. -/
theorem CanonicalBelow.enclosed_eq_false {path : Path} : ∀ {t : Tree}, g.CanonicalBelow true t →
    t.sender = none → t.enclosed path = false := by
  induction path with
  | nil => exact fun _ _ => Tree.enclosed_nil _
  | cons i path ih =>
    intro t ht hsender
    obtain ⟨symbol, children, sources, sender, recipient, readOnly⟩ := t
    cases hc : children[i]? with
    | none => simp [Tree.enclosed, hc, show sender = none from hsender]
    | some c =>
      obtain ⟨hparties, hbelow⟩ := canonicalAll_iff.mp ht c (List.mem_of_getElem? hc)
      rw [Tree.enclosed_cons hc, ih hbelow hparties.1, hsender]
      rfl

/-- **A silent subtree from within a message** lacks no party elsewhere. -/
theorem markedBelow_of_silent {t : Tree} (hvalid : g.Valid t) (ht : g.CanonicalBelow true t)
    (hsilent : g.Silent t) : g.MarkedBelow t := by
  refine markedBelow_of_get? fun path n hpath hn _ => ?_
  obtain ⟨hsender, hrecipient⟩ := (ht.of_get? hn).2 hpath
  obtain ⟨l, hl, hadmits⟩ := hvalid.exists_leaf_of_get? hpath hn
  refine ⟨l, hl, ?_⟩
  cases l with
  | terminal | charset => exact ⟨hadmits, hsender, hrecipient⟩
  | reference id name sender recipient =>
    obtain ⟨rfl, rfl⟩ := hsilent path n hpath hn id name sender recipient hl
      (by simpa [Admits, isNamed] using hadmits)
    exact ⟨hadmits, hsender, hrecipient⟩
  | sequence | choice | repetition => exact hadmits.elim

/-- A subtree from within a message that lacks no party elsewhere is silent. -/
theorem silent_of_canonicalBelow (hg : g.UniformParties) {t : Tree} (ht : g.CanonicalBelow true t)
    (hsender : t.sender = none) (h : g.CanonicalBelow false (t.stripParties false)) :
    g.Silent t := by
  intro path n hpath hn id name sender recipient href hname
  obtain ⟨hnone, hnone'⟩ := (ht.of_get? hn).2 hpath
  have hget := Tree.get?_stripParties path t false
  have henclosed := Tree.enclosed_stripParties path t false
  rw [Bool.false_or, ht.enclosed_eq_false hsender] at hget henclosed
  rw [hn, Option.map_some] at hget
  have hparties := (h.of_get? hget).2 hpath
  rw [henclosed] at hparties
  obtain ⟨l, hl, hmarks⟩ := hparties
  rcases hmarks.cases with ⟨id', name', hreference, hname'⟩ | ⟨value, hvalue, -⟩
  · rw [Tree.symbol_stripParties, hname] at hname'
    obtain rfl := Symbol.nonTerminal.inj hname'
    rw [hreference] at hl
    obtain ⟨hsame, hsame'⟩ := hg.eq href hl
    obtain ⟨symbol, children, sources, sender', recipient', readOnly⟩ := n
    rw [Tree.stripParties] at hsame hsame'
    exact ⟨hsame.trans hnone, hsame'.trans hnone'⟩
  · rw [Tree.symbol_stripParties, hname] at hvalue
    exact absurd hvalue (by simp)

/-- **What stands at a path fits into a place of another tree**: it is not taken out of a message to
a place that is neither within a message nor one itself, or else it is silent. -/
def Fits (g : Grammar) (b : Tree) (pathB : Path) (a : Tree) (pathA : Path) : Prop :=
  ∀ subA subB, a.get? pathA = some subA → b.get? pathB = some subB →
    a.enclosed pathA = false → subA.sender = none → b.enclosed pathB = true → g.Silent subB

/-- A silent subtree, or one from outside of all messages, makes a canonical tree in its new
place. -/
theorem Fits.canonical (hg : g.UniformParties) {a b subB child : Tree} {pathA pathB : Path}
    (h : g.Fits b pathB a pathA) (ha : g.Canonical a) (hb : g.Canonical b) (hvalid : g.Valid b)
    (hpathA : pathA ≠ []) (hpathB : pathB ≠ []) (hsubB : b.get? pathB = some subB)
    (hchild : a.replace pathA subB = .ok child) : g.Canonical child.stripNestedParties := by
  obtain ⟨subA, hsubA, hsymbol, -⟩ := Tree.replace_eq_ok hchild
  have hpartiesA := (ha.below.of_get? hsubA).2 hpathA
  obtain ⟨hbelowB, hpartiesB⟩ := hb.below.of_get? hsubB
  rw [Bool.false_or] at hbelowB hpartiesA hpartiesB
  refine (ha.marked.replace (fun old hold henclosedA hsender => ?_) hchild).canonical
  obtain rfl := Option.some.inj (hsubA.symm.trans hold)
  cases henclosedB : b.enclosed pathB with
  | true =>
    rw [henclosedB] at hbelowB hpartiesB
    have hsilent := h subA subB hsubA hsubB henclosedA hsender henclosedB
    have hmarked := markedBelow_of_silent (hvalid.of_get? hsubB) hbelowB hsilent
    exact markedBelow_iff.mp hmarked (hpartiesB hpathB).1
  | false =>
    -- Both places are outside of all messages, so the symbol alone decides the parties.
    rw [henclosedB] at hbelowB hpartiesB
    rw [henclosedA] at hpartiesA
    have hsame := (hpartiesB hpathB).eq hg hpartiesA hsymbol.symm
    exact markedBelow_iff.mp hbelowB.marked (hsame.1.trans hsender)

/-- A subtree that makes a canonical tree in its new place fits into it. -/
theorem fits_of_canonical (hg : g.UniformParties) {a b subB child : Tree} {pathA pathB : Path}
    (hb : g.Canonical b) (hsubB : b.get? pathB = some subB)
    (hchild : a.replace pathA subB = .ok child) (h : g.Canonical child.stripNestedParties) :
    g.Fits b pathB a pathA := by
  intro subA other hsubA hother henclosedA hsender henclosedB
  obtain rfl := Option.some.inj (hsubB.symm.trans hother)
  obtain ⟨old, hold, -, hmodify⟩ := Tree.replace_eq_ok hchild
  obtain rfl := Option.some.inj (hsubA.symm.trans hold)
  have hbelowB := (hb.below.of_get? hsubB).1
  rw [henclosedB, Bool.or_true] at hbelowB
  -- The subtree in its new place, seen in the child without nested parties.
  have hget := Tree.get?_stripParties pathA child false
  have henclosed := Tree.enclosed_stripParties pathA child false
  rw [Bool.false_or, Tree.enclosed_modify? hmodify, henclosedA] at hget henclosed
  rw [Tree.get?_modify? hmodify hsubA, Option.map_some] at hget
  have hbelow := (h.below.of_get? hget).1
  rw [Tree.stripNestedParties, henclosed] at hbelow
  obtain ⟨symbol, children, sources, sender, recipient, readOnly⟩ := subB
  have hsilent := silent_of_canonicalBelow hg
    (t := (Tree.mk symbol children sources sender recipient readOnly).withParty subA.sender
      subA.recipient) hbelowB hsender hbelow
  intro path n hpath hn
  obtain ⟨i, path, rfl⟩ := List.exists_cons_of_ne_nil hpath
  exact hsilent (i :: path) n hpath hn

/-- **When a subtree may be moved** from one canonical tree to another. -/
theorem canonical_transplant_iff (hg : g.UniformParties) {a b subB child : Tree}
    {pathA pathB : Path} (ha : g.Canonical a) (hb : g.Canonical b) (hvalid : g.Valid b)
    (hpathA : pathA ≠ []) (hpathB : pathB ≠ []) (hsubB : b.get? pathB = some subB)
    (hchild : a.replace pathA subB = .ok child) :
    g.Canonical child.stripNestedParties ↔ g.Fits b pathB a pathA :=
  ⟨fits_of_canonical hg hb hsubB hchild,
    fun h => h.canonical hg ha hb hvalid hpathA hpathB hsubB hchild⟩

end Grammar

end GrammarFuzzing
