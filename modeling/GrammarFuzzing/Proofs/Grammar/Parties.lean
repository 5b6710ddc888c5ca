import GrammarFuzzing.Proofs.Grammar.Annotation
import GrammarFuzzing.Proofs.Tree.Shape

/-!
# Outermost messages

In an annotated tree every node has the parties of the leaf that derives it, so messages may lie
inside messages. Trees that are handed out are annotated on their **outermost messages** only
(`GrammarFuzzing.Grammar.Canonical`): the root has no parties, outside all messages a node has those
of a leaf that derives it, and below a message no node has any.

* An annotated tree becomes canonical when its nested parties are removed
  (`GrammarFuzzing.Grammar.Annotated.canonical`).
* Where all references to a symbol name the same parties (`GrammarFuzzing.Grammar.UniformParties`)
  there is nothing left to choose: plain canonical trees of one shape are equal
  (`GrammarFuzzing.Grammar.Canonical.eq_of_sameShape`).
-/

namespace GrammarFuzzing

namespace Node

/-- References to one symbol name the same parties. -/
def agrees : Node → Node → Bool
  | .reference _ name sender recipient, .reference _ name' sender' recipient' =>
    name ≠ name' || (sender = sender' && recipient = recipient')
  | _, _ => true

/-- A child with the parties of its leaf is a symbol with those of a reference to it, or a terminal
without parties. -/
theorem Marks.cases {l : Node} {c : Tree} (h : l.Marks c) :
    (∃ id name, l = .reference id name c.sender c.recipient ∧ c.symbol = .nonTerminal name) ∨
      ∃ value, c.symbol = .terminal value ∧ c.sender = none ∧ c.recipient = none := by
  obtain ⟨hadmits, hsender, hrecipient⟩ := h
  cases l with
  | terminal id value => exact Or.inr ⟨value, by simpa [Admits, isLiteral] using hadmits, hsender,
      hrecipient⟩
  | charset id chars =>
    obtain ⟨x, -, hsymbol⟩ := exists_of_isOneOf hadmits
    exact Or.inr ⟨_, hsymbol, hsender, hrecipient⟩
  | reference id name sender recipient =>
    obtain rfl : c.sender = sender := hsender
    obtain rfl : c.recipient = recipient := hrecipient
    exact Or.inl ⟨id, name, rfl, by simpa [Admits, isNamed] using hadmits⟩
  | sequence | choice | repetition => exact hadmits.elim

end Node

namespace Grammar

open Node

variable {g : Grammar}

/-- **All references to a symbol name the same parties.** -/
def UniformParties (g : Grammar) : Prop :=
  ∀ p ∈ g.rules, ∀ m ∈ p.2.subnodes, ∀ q ∈ g.rules, ∀ n ∈ q.2.subnodes, m.agrees n = true

instance (g : Grammar) : Decidable g.UniformParties :=
  inferInstanceAs (Decidable (∀ p ∈ g.rules, ∀ m ∈ p.2.subnodes, ∀ q ∈ g.rules,
    ∀ n ∈ q.2.subnodes, m.agrees n = true))

theorem UniformParties.eq (hg : g.UniformParties) {id id' : Nat} {name : String}
    {sender sender' recipient recipient' : Option String}
    (hm : g.Occurs (.reference id name sender recipient))
    (hn : g.Occurs (.reference id' name sender' recipient')) :
    sender = sender' ∧ recipient = recipient' := by
  obtain ⟨p, hp, hm⟩ := hm
  obtain ⟨q, hq, hn⟩ := hn
  simpa [agrees] using hg p hp _ hm q hq _ hn

/-- **The parties of a child**: none inside a message, and elsewhere those of a leaf that derives
it. -/
def HasParties (g : Grammar) (inside : Bool) (c : Tree) : Prop :=
  if inside then c.sender = none ∧ c.recipient = none else ∃ l, g.Occurs l ∧ l.Marks c

/-- With uniform parties the symbol of a child tells its parties. -/
theorem HasParties.eq (hg : g.UniformParties) {inside : Bool} {c d : Tree}
    (hc : g.HasParties inside c) (hd : g.HasParties inside d) (hsymbol : c.symbol = d.symbol) :
    c.sender = d.sender ∧ c.recipient = d.recipient := by
  cases inside with
  | true => exact ⟨hc.1.trans hd.1.symm, hc.2.trans hd.2.symm⟩
  | false =>
    obtain ⟨l, hl, hmarks⟩ := hc
    obtain ⟨m, hm, hmarks'⟩ := hd
    rcases hmarks.cases with ⟨id, name, rfl, hname⟩ | ⟨value, hvalue, hsender, hrecipient⟩
    · rcases hmarks'.cases with ⟨id', name', rfl, hname'⟩ | ⟨value, hvalue, -⟩
      · obtain rfl : name = name' := by
          simpa [hname, hname'] using hsymbol
        exact hg.eq hl hm
      · simp [hname, hvalue] at hsymbol
    · rcases hmarks'.cases with ⟨id', name', rfl, hname'⟩ | ⟨value', -, hsender', hrecipient'⟩
      · simp [hvalue, hname'] at hsymbol
      · exact ⟨hsender.trans hsender'.symm, hrecipient.trans hrecipient'.symm⟩

mutual

/-- Below the root of a tree only the outermost messages have parties, those of references to them.
Whether the tree lies `inside` a message is given. -/
def CanonicalBelow (g : Grammar) (inside : Bool) : Tree → Prop
  | ⟨_, children, _, sender, _, _⟩ => CanonicalAll g (inside || sender.isSome) children

/-- Only the outermost messages of several children have parties. -/
def CanonicalAll (g : Grammar) (inside : Bool) : List Tree → Prop
  | [] => True
  | t :: rest => (g.HasParties inside t ∧ CanonicalBelow g inside t) ∧ CanonicalAll g inside rest

end

/-- **Only the outermost messages of a tree have parties**, and its root is none. -/
structure Canonical (g : Grammar) (t : Tree) : Prop where
  sender : t.sender = none
  recipient : t.recipient = none
  below : g.CanonicalBelow false t

theorem canonicalAll_iff {inside : Bool} {ts : List Tree} :
    g.CanonicalAll inside ts ↔ ∀ t ∈ ts, g.HasParties inside t ∧ g.CanonicalBelow inside t := by
  induction ts with
  | nil => simp [CanonicalAll]
  | cons t ts ih => simp [CanonicalAll, ih]

/-! ### Removing nested parties -/

/-- A terminal has no parties, and its leaf names none. -/
theorem hasParties_leaf {l : Node} {value : Literal} (hl : g.Occurs l)
    (hadmits : l.Admits (Tree.leaf value)) (inside : Bool) :
    g.HasParties inside (Tree.leaf value) := by
  cases inside with
  | true => exact ⟨rfl, rfl⟩
  | false =>
    refine ⟨l, hl, ?_⟩
    cases l with
    | terminal | charset => exact ⟨hadmits, rfl, rfl⟩
    | reference id name => simp [Admits, isNamed, Tree.leaf] at hadmits
    | sequence | choice | repetition => exact hadmits.elim

/-- A child with the parties of its leaf, its nested parties removed. -/
theorem hasParties_stripParties {l : Node} {c : Tree} (hl : g.Occurs l) (h : l.Marks c)
    (inside : Bool) : g.HasParties inside (c.stripParties inside) := by
  obtain ⟨symbol, children, sources, sender, recipient, readOnly⟩ := c
  rw [Tree.stripParties]
  cases inside with
  | true => exact ⟨rfl, rfl⟩
  | false =>
    refine ⟨l, hl, ?_, h.sender, h.recipient⟩
    have hadmits := h.admits
    cases l <;> exact hadmits

mutual

/-- Below the root of an annotated tree there are no parties that are not outermost, once nested
ones are removed. -/
theorem Annotated.canonicalBelow : ∀ {t : Tree}, g.Annotated t → ∀ inside,
    g.CanonicalBelow inside (t.stripParties inside)
  | ⟨.terminal _, children, _, _, _, _⟩, h, inside => by
    obtain rfl : children = [] := h
    rw [Tree.stripParties, Tree.listStripParties]
    exact trivial
  | ⟨.slice, _, _, _, _, _⟩, h, _ => h.elim
  | ⟨.nonTerminal name, children, _, sender, _, _⟩, h, inside => by
    obtain ⟨⟨body, hbody, ls, hls, hmarks⟩, hall⟩ := h
    have hoccurs : ∀ l ∈ ls, g.Occurs l := fun l hl =>
      (occurs_of_body? hbody).of_mem_subnodes
        (mem_subnodes_of_mem_leaves (mem_leaves_of_spells hls l hl))
    have hinside : (inside || (if inside then none else sender).isSome) =
        (inside || sender.isSome) := by
      cases inside <;> rfl
    rw [Tree.stripParties, CanonicalBelow, hinside]
    exact canonicalAll_of_marks hmarks hoccurs hall _

theorem canonicalAll_of_marks : ∀ {ls : List Node} {ts : List Tree},
    List.Forall₂ Marks ls ts → (∀ l ∈ ls, g.Occurs l) → g.AnnotatedAll ts → ∀ inside,
      g.CanonicalAll inside (Tree.listStripParties inside ts)
  | _, [], _, _, _, _ => by
    rw [Tree.listStripParties]
    exact trivial
  | _, t :: ts, hmarks, hoccurs, hall, inside => by
    obtain ⟨l, ls, hl, hls, rfl⟩ := List.forall₂_cons_right_iff.mp hmarks
    obtain ⟨hoccurs, hrest⟩ := List.forall_mem_cons.mp hoccurs
    rw [Tree.listStripParties]
    exact ⟨⟨hasParties_stripParties hoccurs hl inside, hall.1.canonicalBelow inside⟩,
      canonicalAll_of_marks hls hrest hall.2 inside⟩

end

/-- **An annotated tree without its nested parties is canonical** if its root has none. -/
theorem Annotated.canonical {t : Tree} (ht : g.Annotated t) (hsender : t.sender = none)
    (hrecipient : t.recipient = none) : g.Canonical t.stripNestedParties := by
  have hbelow := ht.canonicalBelow false
  obtain ⟨symbol, children, sources, sender, recipient, readOnly⟩ := t
  exact ⟨hsender, hrecipient, hbelow⟩

/-! ### Shape and parties -/

mutual

/-- Plain trees of one shape are equal if the parties of their roots are. -/
theorem eq_of_sameShape_below (hg : g.UniformParties) : ∀ {t u : Tree} {inside : Bool},
    t.SameShape u → t.Plain → u.Plain → g.CanonicalBelow inside t → g.CanonicalBelow inside u →
      t.sender = u.sender → t.recipient = u.recipient → t = u
  | ⟨symbol, children, sources, sender, recipient, readOnly⟩,
    ⟨symbol', children', sources', sender', recipient', readOnly'⟩, inside,
    hshape, ⟨hsources, hreadOnly, hplain⟩, ⟨hsources', hreadOnly', hplain'⟩, ht, hu, hsender,
    hrecipient => by
    obtain ⟨hsymbol, hchildren⟩ := Tree.sameShape_iff.mp hshape
    dsimp only at hsymbol hchildren hsender hrecipient
    subst hsymbol hsender hrecipient
    rw [eq_of_sameShapes hg hchildren hplain hplain' ht hu, hsources, hsources', hreadOnly,
      hreadOnly']

theorem eq_of_sameShapes (hg : g.UniformParties) : ∀ {ts us : List Tree} {inside : Bool},
    List.Forall₂ Tree.SameShape ts us → Tree.ListPlain ts → Tree.ListPlain us →
      g.CanonicalAll inside ts → g.CanonicalAll inside us → ts = us
  | [], _, _, hshapes, _, _, _, _ => (List.forall₂_nil_left_iff.mp hshapes).symm
  | t :: ts, _, inside, hshapes, hplain, hplain', hts, hus => by
    obtain ⟨u, us, hshape, hrest, rfl⟩ := List.forall₂_cons_left_iff.mp hshapes
    obtain ⟨⟨hparties, ht⟩, hts⟩ := hts
    obtain ⟨⟨hparties', hu⟩, hus⟩ := hus
    obtain ⟨hsender, hrecipient⟩ := hparties.eq hg hparties' (Tree.sameShape_iff.mp hshape).1
    rw [eq_of_sameShape_below hg hshape hplain.1 hplain'.1 ht hu hsender hrecipient,
      eq_of_sameShapes hg hrest hplain.2 hplain'.2 hts hus]

end

end Grammar

end GrammarFuzzing
