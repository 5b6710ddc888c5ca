import GrammarFuzzing.Proofs.Grammar.Distance
import GrammarFuzzing.Proofs.Grammar.Spelling

/-!
# Annotated trees

A reference that sends a message names its parties, and parsing hands them on to the node that comes
out of the reference. Two references may name one symbol with different parties, so the parties of a
node are a matter of the leaf that derives it, not of its symbol. A tree is **annotated**
(`GrammarFuzzing.Grammar.Annotated`) when the children of every node correspond to leaves that the
rule of the node spells, each child with the parties of its leaf. The root comes out of no leaf, and
may have any parties.

Parsing finds such trees (`GrammarFuzzing.Grammar.WellFormed.parse_annotated`). Annotated trees are
valid (`GrammarFuzzing.Grammar.Annotated.valid`), and every symbol of a productive grammar without
empty sets of characters has one (`GrammarFuzzing.Grammar.WellFormed.exists_annotated`).
-/

namespace GrammarFuzzing

namespace Node

/-- The recipient of a message reference. -/
def recipient? : Node → Option String
  | .reference _ _ _ recipient => recipient
  | _ => none

/-- **A child with the parties of the leaf** that it is derived by. -/
structure Marks (l : Node) (c : Tree) : Prop where
  admits : l.Admits c
  sender : c.sender = l.sender?
  recipient : c.recipient = l.recipient?

/-- **The lists of children that a node stands for, with the parties of their leaves.** -/
def Annotates (n : Node) (cs : List Tree) : Prop :=
  Lifts Marks n.Spells cs

theorem Annotates.matches {n : Node} {cs : List Tree} (h : n.Annotates cs) : n.Matches cs := by
  obtain ⟨ls, hls, hcs⟩ := h
  exact matches_iff_lifts.mpr ⟨ls, hls, hcs.imp fun _ _ hmarks => hmarks.admits⟩

theorem annotates_of_isLeaf {l : Node} (hl : l.IsLeaf) {cs : List Tree} :
    l.Annotates cs ↔ ∃ c, cs = [c] ∧ l.Marks c := by
  cases l with
  | terminal | charset | reference => exact lifts_singleton
  | sequence | choice | repetition => exact hl.elim

theorem annotates_sequence {id : Nat} {parts : List Node} {cs : List Tree} :
    (sequence id parts).Annotates cs ↔ Lifts Marks (SpellsAll parts) cs := by
  simp only [Annotates, Spells]

theorem annotates_choice {id : Nat} {options : List Node} {cs : List Tree} :
    (choice id options).Annotates cs ↔ ∃ n ∈ options, n.Annotates cs := by
  simp only [Annotates, Spells]
  induction options with
  | nil => simp [Lifts, SpellsSome]
  | cons n options ih =>
    rw [show SpellsSome (n :: options) = fun ls => n.Spells ls ∨ SpellsSome options ls from rfl,
      lifts_or, ih]
    simp only [List.mem_cons, exists_eq_or_imp]

theorem annotates_repetition {id min : Nat} {body : Node} {max : Option Nat}
    {form : RepetitionForm} {cs : List Tree} :
    (repetition id body min max form).Annotates cs ↔
      ∃ k, min ≤ k ∧ (∀ m, max = some m → k ≤ m) ∧ Copies body.Annotates k cs := by
  simp only [Annotates, Spells, lifts_exists, lifts_and, lifts_copies]
  rfl

end Node

/-- Elements that each correspond to something with a property correspond to a list of such. -/
theorem exists_forall₂ {α β : Type} {R : α → β → Prop} {P : β → Prop} : ∀ {ls : List α},
    (∀ l ∈ ls, ∃ c, R l c ∧ P c) → ∃ cs, List.Forall₂ R ls cs ∧ ∀ c ∈ cs, P c
  | [], _ => ⟨[], .nil, by simp⟩
  | l :: ls, h => by
    obtain ⟨c, hc, hPc⟩ := h l List.mem_cons_self
    obtain ⟨cs, hcs, hPcs⟩ := exists_forall₂ fun m hm => h m (List.mem_cons_of_mem _ hm)
    exact ⟨c :: cs, .cons hc hcs, List.forall_mem_cons.mpr ⟨hPc, hPcs⟩⟩

namespace Grammar

open Node

mutual

/-- **The children of every node carry the parties of the leaves that derive them.** -/
def Annotated (g : Grammar) : Tree → Prop
  | ⟨symbol, children, _, _, _, _⟩ =>
    match symbol with
    | .terminal _ => children = []
    | .slice => False
    | .nonTerminal name =>
      (∃ body, g.body? name = some body ∧ body.Annotates children) ∧ AnnotatedAll g children

/-- All of several trees are annotated. -/
def AnnotatedAll (g : Grammar) : List Tree → Prop
  | [] => True
  | t :: rest => Annotated g t ∧ AnnotatedAll g rest

end

variable {g : Grammar}

theorem annotatedAll_iff {ts : List Tree} : g.AnnotatedAll ts ↔ ∀ t ∈ ts, g.Annotated t := by
  induction ts with
  | nil => simp [AnnotatedAll]
  | cons t ts ih => simp [AnnotatedAll, ih]

/-- A node of a symbol is annotated when its children are, and carry the parties of leaves. -/
theorem annotated_nonTerminal {t : Tree} {name : String} (h : t.symbol = .nonTerminal name) :
    g.Annotated t ↔ (∃ body, g.body? name = some body ∧ body.Annotates t.children) ∧
      g.AnnotatedAll t.children := by
  obtain ⟨symbol, children, sources, sender, recipient, readOnly⟩ := t
  obtain rfl : symbol = .nonTerminal name := h
  rw [Annotated]

theorem annotated_leaf (value : Literal) : g.Annotated (Tree.leaf value) := by
  rw [Tree.leaf, Annotated]

/-- The parties of the root do not matter. -/
theorem annotated_withParty {t : Tree} {sender recipient : Option String} :
    g.Annotated (t.withParty sender recipient) ↔ g.Annotated t := by
  obtain ⟨symbol, children, sources, sender', recipient', readOnly⟩ := t
  cases symbol <;> simp only [Tree.withParty, Annotated]

mutual

/-- **Annotated trees are valid.** -/
theorem Annotated.valid : ∀ {t : Tree}, g.Annotated t → g.Valid t
  | ⟨.terminal _, _, _, _, _, _⟩, h => h
  | ⟨.slice, _, _, _, _, _⟩, h => h.elim
  | ⟨.nonTerminal name, children, _, _, _, _⟩, h => by
    obtain ⟨⟨body, hbody, hchildren⟩, hall⟩ := h
    exact ⟨⟨body, hbody, hchildren.matches⟩, AnnotatedAll.valid hall⟩

theorem AnnotatedAll.valid : ∀ {ts : List Tree}, g.AnnotatedAll ts → g.ValidAll ts
  | [], _ => trivial
  | _ :: _, h => ⟨h.1.valid, h.2.valid⟩

end

/-- A leaf derives an annotated tree if the symbol that it may refer to has one. -/
theorem NoEmptyCharset.exists_marks (hchars : g.NoEmptyCharset) {l : Node} (hl : g.Occurs l)
    (hleaf : l.IsLeaf) (hreference : ∀ id name sender recipient,
      l = .reference id name sender recipient → ∃ t, t.symbol = .nonTerminal name ∧ g.Annotated t) :
    ∃ c, l.Marks c ∧ g.Annotated c := by
  cases l with
  | terminal id value =>
    exact ⟨Tree.leaf value, ⟨by simp [Admits, isLiteral, Tree.leaf], rfl, rfl⟩, annotated_leaf _⟩
  | charset id chars =>
    obtain ⟨c, cs, rfl⟩ := List.exists_cons_of_ne_nil (hchars.ne_nil hl)
    exact ⟨Tree.leaf (.text c.toString),
      ⟨by simp [Admits, isOneOf, Tree.leaf], rfl, rfl⟩, annotated_leaf _⟩
  | reference id name sender recipient =>
    obtain ⟨t, hsymbol, ht⟩ := hreference id name sender recipient rfl
    refine ⟨t.withParty sender recipient, ⟨?_, rfl, rfl⟩, annotated_withParty.mpr ht⟩
    simp [Admits, isNamed, Tree.withParty, hsymbol]
  | sequence | choice | repetition => exact hleaf.elim

/-- **Every symbol of a productive grammar has an annotated tree**, if no set of characters is
empty. -/
theorem WellFormed.exists_annotated (hg : g.WellFormed) (hproductive : g.Productive)
    (hchars : g.NoEmptyCharset) {name : String} {body : Node} (hbody : g.body? name = some body) :
    ∃ t, t.symbol = .nonTerminal name ∧ g.Annotated t := by
  induction hd : g.distance body using Nat.strong_induction_on generalizing name body with
  | _ v ih =>
    have hlt := hproductive name body hbody
    have hn := occurs_of_body? hbody
    obtain ⟨ls, hls, hle⟩ := exists_spells hg.toBounded hn hlt
    have hmarks : ∀ l ∈ ls, ∃ c, l.Marks c ∧ g.Annotated c := by
      intro l hl
      have hleaf := mem_leaves_of_spells hls l hl
      have hoccurs := hn.of_mem_subnodes (mem_subnodes_of_mem_leaves hleaf)
      refine hchars.exists_marks hoccurs (isLeaf_of_mem_leaves hleaf) ?_
      rintro id other sender recipient rfl
      obtain ⟨body', hbody'⟩ := hg.exists_body_of_reference hoccurs
      -- The reference counts for one node, so its rule is at a smaller distance.
      have hcount := hle _ hl
      rw [distanceWith, satAdd, distanceIn_of_body? hbody'] at hcount
      rw [distance] at hd hlt
      exact ih _ (by omega) hbody' rfl
    obtain ⟨cs, hcs, hall⟩ := exists_forall₂ hmarks
    refine ⟨Tree.branch name cs, rfl, (annotated_nonTerminal rfl).mpr ?_⟩
    exact ⟨⟨body, hbody, ls, hls, hcs⟩, annotatedAll_iff.mpr hall⟩

end Grammar

end GrammarFuzzing
