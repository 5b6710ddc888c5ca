import GrammarFuzzing.Proofs.Evolution.Operators
import GrammarFuzzing.Proofs.Grammar.Faults
import Mathlib.Algebra.BigOperators.Group.Multiset.Basic

/-!
# What a crossover exchanges

A crossover takes a subtree out of each of two trees and puts it in the place of the other
(`GrammarFuzzing.crossover_swaps`). It succeeds as soon as there is a symbol that both trees offer
below their roots, and what it makes is known up to the parties of nodes, which belong to the place
and not to the subtree.

Three things do not depend on parties, and each is followed through the exchange on its own:

* the tree without them, `GrammarFuzzing.Tree.withoutParties`;
* what the nodes carry, `GrammarFuzzing.Tree.labels`. It is a sum over the nodes, so what one tree
  loses the other gains;
* whether a grammar finds a fault in one of the nodes, `GrammarFuzzing.Grammar.Faultless`. A node is
  checked against its rule by the symbols of its children, and these stay what they are. No bounds
  of repetitions are needed for that, since the check itself is followed, not what it means.
-/

namespace GrammarFuzzing

namespace Tree

/-! ### Trees without parties -/

/-- **The tree without parties.** -/
def withoutParties (t : Tree) : Tree :=
  t.stripParties true

theorem withoutParties_mk {symbol : Symbol} {children sources : List Tree}
    {sender recipient : Option String} {readOnly : Bool} :
    withoutParties ⟨symbol, children, sources, sender, recipient, readOnly⟩ =
      ⟨symbol, children.map withoutParties, sources, none, none, readOnly⟩ := by
  rw [withoutParties, stripParties, listStripParties_eq_map]
  rfl

theorem withoutParties_withParty (t : Tree) (sender recipient : Option String) :
    (t.withParty sender recipient).withoutParties = t.withoutParties := by
  obtain ⟨symbol, children, sources, sender', recipient', readOnly⟩ := t
  rw [withParty, withoutParties_mk, withoutParties_mk]

mutual

/-- The parties that are left do not matter to a tree without any. -/
theorem withoutParties_stripParties : ∀ (t : Tree) (inside : Bool),
    (t.stripParties inside).withoutParties = t.withoutParties
  | ⟨symbol, children, sources, sender, recipient, readOnly⟩, inside => by
    rw [stripParties, withoutParties_mk, withoutParties_mk,
      map_withoutParties_listStripParties children]

theorem map_withoutParties_listStripParties : ∀ (ts : List Tree) (inside : Bool),
    (listStripParties inside ts).map withoutParties = ts.map withoutParties
  | [], _ => rfl
  | t :: ts, inside => by
    rw [listStripParties, List.map_cons, List.map_cons, withoutParties_stripParties t,
      map_withoutParties_listStripParties ts]

end

/-- **Changes that differ in parties only** make trees that do. -/
theorem withoutParties_modify? {f f' : Tree → Tree}
    (hf : ∀ old, (f old).withoutParties = (f' old).withoutParties) {path : Path} :
    ∀ {t u u' : Tree}, t.modify? f path = some u → t.modify? f' path = some u' →
      u.withoutParties = u'.withoutParties := by
  induction path with
  | nil =>
    rintro t _ _ ⟨⟩ ⟨⟩
    exact hf t
  | cons i path ih =>
    intro t u u' hu hu'
    obtain ⟨c, d, hc, hd, rfl⟩ := modify?_cons_eq_some.mp hu
    obtain ⟨c', d', hc', hd', rfl⟩ := modify?_cons_eq_some.mp hu'
    obtain rfl := Option.some.inj (hc.symm.trans hc')
    obtain ⟨symbol, children, sources, sender, recipient, readOnly⟩ := t
    rw [withoutParties_mk, withoutParties_mk, List.map_set, List.map_set, ih hd hd']

/-! ### What nodes carry -/

/-- What a node carries besides its children and parties. -/
def label (t : Tree) : Symbol × List Tree × Bool :=
  (t.symbol, t.sources, t.readOnly)

/-- **What the nodes of a tree carry**, each as often as it occurs. -/
def labels (t : Tree) : Multiset (Symbol × List Tree × Bool) :=
  t.nodes.map fun n => n.2.label

theorem labels_listNodes (ts : List Tree) (i : Nat) :
    (((listNodes i ts).map fun n => n.2.label : List _) : Multiset _) = (ts.map labels).sum := by
  induction ts generalizing i with
  | nil => simp [listNodes]
  | cons t ts ih =>
    rw [listNodes, List.map_append, List.map_map, ← Multiset.coe_add, ih (i + 1), List.map_cons,
      List.sum_cons]
    rfl

/-- **The labels of a tree** are that of its root and those of its children. -/
theorem labels_eq (t : Tree) : t.labels = {t.label} + (t.children.map labels).sum := by
  obtain ⟨symbol, children, sources, sender, recipient, readOnly⟩ := t
  rw [labels, nodes, List.map_cons, ← Multiset.cons_coe, labels_listNodes,
    ← Multiset.singleton_add]

theorem labels_withParty (t : Tree) (sender recipient : Option String) :
    (t.withParty sender recipient).labels = t.labels := by
  rw [labels_eq, labels_eq t]
  rfl

mutual

/-- Parties are not counted among the labels. -/
theorem labels_stripParties :
    ∀ (t : Tree) (inside : Bool), (t.stripParties inside).labels = t.labels
  | ⟨symbol, children, sources, sender, recipient, readOnly⟩, inside => by
    rw [stripParties, labels_eq, labels_eq ⟨symbol, children, _, _, _, _⟩]
    simp only [map_labels_listStripParties children]
    rfl

theorem map_labels_listStripParties : ∀ (ts : List Tree) (inside : Bool),
    (listStripParties inside ts).map labels = ts.map labels
  | [], _ => rfl
  | t :: ts, inside => by
    rw [listStripParties, List.map_cons, List.map_cons, labels_stripParties t,
      map_labels_listStripParties ts]

end

/-- A sum with another summand in one place. -/
theorem sum_map_set {M : Type} [AddCommMonoid M] (f : Tree → M) {c d : Tree} :
    ∀ {ts : List Tree} {i : Nat}, ts[i]? = some c →
      ((ts.set i d).map f).sum + f c = (ts.map f).sum + f d
  | [], _, hc => absurd hc (by simp)
  | t :: ts, 0, hc => by
    obtain rfl : t = c := by simpa using hc
    rw [List.set_cons_zero, List.map_cons, List.map_cons, List.sum_cons, List.sum_cons]
    ac_rfl
  | t :: ts, i + 1, hc => by
    have hrest := sum_map_set f (d := d) (show ts[i]? = some c by simpa using hc)
    rw [List.set_cons_succ, List.map_cons, List.map_cons, List.sum_cons, List.sum_cons,
      add_assoc, hrest, add_assoc]

/-- **What a tree gains by a subtree and loses by another one.** -/
theorem labels_modify? {f : Tree → Tree} {path : Path} {old : Tree} : ∀ {t u : Tree},
    t.get? path = some old → t.modify? f path = some u →
      u.labels + old.labels = t.labels + (f old).labels := by
  induction path with
  | nil =>
    rintro t _ ⟨⟩ ⟨⟩
    exact add_comm _ _
  | cons i path ih =>
    intro t u hold hu
    obtain ⟨c, d, hc, hd, rfl⟩ := modify?_cons_eq_some.mp hu
    rw [get?_cons, hc, Option.bind_some] at hold
    have hsum := sum_map_set labels (d := d) hc
    have hchild := ih hold hd
    -- Both sides are compared after adding what the child had.
    rw [← add_left_inj c.labels, labels_eq, labels_eq t]
    calc _ = {t.label} + (((t.children.set i d).map labels).sum + c.labels) + old.labels := by
          ac_rfl
      _ = {t.label} + (t.children.map labels).sum + (d.labels + old.labels) := by
          rw [hsum]
          ac_rfl
      _ = {t.label} + (t.children.map labels).sum + (f old).labels + c.labels := by
          rw [hchild]
          ac_rfl

end Tree

namespace Grammar

open Node

/-! ### Faults of nodes -/

/-- A position after a child is found by the symbol of the child. -/
theorem endAfter_congr {cs ds : List Tree} (h : SameSymbols cs ds) {test : Tree → Bool}
    (htest : ∀ c d : Tree, c.symbol = d.symbol → test c = test d) (pos : Nat) :
    endAfter cs pos test = endAfter ds pos test := by
  have hpos : (cs[pos]?).map (·.symbol) = (ds[pos]?).map (·.symbol) := by
    rw [← List.getElem?_map, ← List.getElem?_map, h]
  rw [endAfter, endAfter]
  cases hc : cs[pos]? with
  | none =>
    rw [hc, Option.map_none, eq_comm, Option.map_eq_none_iff] at hpos
    rw [hpos]
  | some c =>
    rw [hc, Option.map_some, eq_comm, Option.map_eq_some_iff] at hpos
    obtain ⟨d, hd, hsymbol⟩ := hpos
    rw [hd]
    simp only [htest d c hsymbol]

mutual

/-- **Where a match ends is a matter of symbols.** -/
theorem ends_congr {cs ds : List Tree} (h : SameSymbols cs ds) : ∀ (n : Node) (pos : Nat),
    n.ends cs pos = n.ends ds pos
  | .terminal _ value, pos => by
    rw [Node.ends, Node.ends]
    exact endAfter_congr h (fun c d hcd => by rw [isLiteral, isLiteral, hcd]) pos
  | .charset _ chars, pos => by
    rw [Node.ends, Node.ends]
    exact endAfter_congr h (fun c d hcd => by rw [isOneOf, isOneOf, hcd]) pos
  | .reference _ name _ _, pos => by
    rw [Node.ends, Node.ends]
    exact endAfter_congr h (fun c d hcd => by rw [isNamed, isNamed, hcd]) pos
  | .sequence _ parts, pos => by
    rw [Node.ends, Node.ends, sequenceEnds_congr h parts]
  | .choice _ options, pos => by
    rw [Node.ends, Node.ends, choiceEnds_congr h options]
  | .repetition _ body min max _, pos => by
    have hlength : cs.length = ds.length := by
      rw [← List.length_map (·.symbol), h, List.length_map]
    rw [Node.ends, Node.ends, hlength]
    simp only [ends_congr h body]

theorem sequenceEnds_congr {cs ds : List Tree} (h : SameSymbols cs ds) :
    ∀ (ns : List Node) (frontier : List Nat),
      sequenceEnds cs ns frontier = sequenceEnds ds ns frontier
  | [], _ => rfl
  | n :: ns, frontier => by
    rw [sequenceEnds, sequenceEnds, sequenceEnds_congr h ns]
    simp only [ends_congr h n]

theorem choiceEnds_congr {cs ds : List Tree} (h : SameSymbols cs ds) :
    ∀ (ns : List Node) (pos : Nat), choiceEnds cs ns pos = choiceEnds ds ns pos
  | [], _ => rfl
  | n :: ns, pos => by
    rw [choiceEnds, choiceEnds, ends_congr h n, choiceEnds_congr h ns]

end

variable {g : Grammar}

/-- **Faults of a node are a matter of symbols**, its own and those of its children. -/
theorem fault?_congr {t u : Tree} (hsymbol : t.symbol = u.symbol)
    (h : SameSymbols t.children u.children) : g.fault? t = g.fault? u := by
  have hlength : t.children.length = u.children.length := by
    rw [← List.length_map (·.symbol), h, List.length_map]
  have hfits : ∀ body : Node, body.fits t.children = body.fits u.children := fun body => by
    rw [Node.fits, Node.fits, ends_congr h, hlength]
  have hempty : t.children.isEmpty = u.children.isEmpty := by
    rw [Bool.eq_iff_iff, List.isEmpty_iff_length_eq_zero, List.isEmpty_iff_length_eq_zero, hlength]
  rw [fault?, fault?, hsymbol]
  simp only [hfits, hempty]

/-- **No node of a tree has a fault.** -/
def Faultless (g : Grammar) (t : Tree) : Prop :=
  ∀ path n, t.get? path = some n → g.fault? n = none

/-- Checking a tree looks for faults of its nodes. -/
theorem validate_eq_ok_iff_faultless {t : Tree} : g.validate t = .ok () ↔ g.Faultless t := by
  have hnone : g.Faultless t ↔ t.nodes.findSome? (g.faultAt []) = none := by
    simp only [List.findSome?_eq_none_iff, faultAt, Option.map_eq_none_iff, Prod.forall,
      Tree.mem_nodes, Faultless]
  rw [validate_eq, hnone]
  cases t.nodes.findSome? (g.faultAt []) with
  | none => simp [passes]
  | some e => simp [passes]

theorem faultless_iff {t : Tree} :
    g.Faultless t ↔ g.fault? t = none ∧ ∀ c ∈ t.children, g.Faultless c := by
  constructor
  · intro h
    refine ⟨h [] t (Tree.get?_nil t), fun c hc path n hn => ?_⟩
    obtain ⟨i, hi⟩ := List.mem_iff_getElem?.mp hc
    exact h (i :: path) n (by rw [Tree.get?_cons, hi, Option.bind_some, hn])
  · rintro ⟨hself, hchildren⟩ path n hn
    cases path with
    | nil =>
      obtain rfl := Option.some.inj ((Tree.get?_nil t).symm.trans hn)
      exact hself
    | cons i path =>
      rw [Tree.get?_cons] at hn
      obtain ⟨c, hc, hn⟩ := Option.bind_eq_some_iff.mp hn
      exact hchildren c (List.mem_of_getElem? hc) path n hn

theorem Faultless.of_get? {t n : Tree} {path : Path} (h : g.Faultless t)
    (hn : t.get? path = some n) : g.Faultless n := by
  induction path generalizing t with
  | nil =>
    obtain rfl := Option.some.inj ((Tree.get?_nil t).symm.trans hn)
    exact h
  | cons i path ih =>
    rw [Tree.get?_cons] at hn
    obtain ⟨c, hc, hn⟩ := Option.bind_eq_some_iff.mp hn
    exact ih ((faultless_iff.mp h).2 c (List.mem_of_getElem? hc)) hn

theorem Faultless.withParty {t : Tree} {sender recipient : Option String} (h : g.Faultless t) :
    g.Faultless (t.withParty sender recipient) := by
  obtain ⟨hself, hchildren⟩ := faultless_iff.mp h
  exact faultless_iff.mpr ⟨hself, hchildren⟩

mutual

/-- Parties are not checked. -/
theorem Faultless.stripParties : ∀ {t : Tree}, g.Faultless t → ∀ inside,
    g.Faultless (t.stripParties inside)
  | ⟨symbol, children, sources, sender, recipient, readOnly⟩, h, inside => by
    obtain ⟨hself, hchildren⟩ := faultless_iff.mp h
    rw [Tree.stripParties]
    refine faultless_iff.mpr ⟨?_, Faultless.listStripParties hchildren _⟩
    rw [← hself]
    refine fault?_congr rfl ?_
    rw [Tree.listStripParties_eq_map, SameSymbols, List.map_map]
    exact List.map_congr_left fun t _ => Tree.symbol_stripParties _ t

theorem Faultless.listStripParties : ∀ {ts : List Tree}, (∀ t ∈ ts, g.Faultless t) → ∀ inside,
    ∀ t ∈ Tree.listStripParties inside ts, g.Faultless t
  | [], _, _ => fun t ht => absurd ht List.not_mem_nil
  | t :: ts, h, inside => by
    obtain ⟨ht, hts⟩ := List.forall_mem_cons.mp h
    rw [Tree.listStripParties]
    exact List.forall_mem_cons.mpr ⟨ht.stripParties inside, Faultless.listStripParties hts inside⟩

end

/-- **A faultless subtree in the place of one with its symbol** leaves a tree faultless. -/
theorem Faultless.modify? {f : Tree → Tree} {path : Path} {old : Tree} (hf : g.Faultless (f old))
    (hsymbol : (f old).symbol = old.symbol) : ∀ {t u : Tree}, g.Faultless t →
      t.get? path = some old → t.modify? f path = some u →
        g.Faultless u ∧ u.symbol = t.symbol := by
  induction path with
  | nil =>
    rintro t _ - ⟨⟩ ⟨⟩
    exact ⟨hf, hsymbol⟩
  | cons i path ih =>
    intro t u ht hold hu
    obtain ⟨c, d, hc, hd, rfl⟩ := Tree.modify?_cons_eq_some.mp hu
    rw [Tree.get?_cons, hc, Option.bind_some] at hold
    obtain ⟨hself, hchildren⟩ := faultless_iff.mp ht
    obtain ⟨hchild, hdc⟩ := ih (hchildren c (List.mem_of_getElem? hc)) hold hd
    refine ⟨faultless_iff.mpr ⟨?_, fun e he => ?_⟩, rfl⟩
    · rw [← hself]
      exact (fault?_congr (t := t) (u := { t with children := t.children.set i d }) rfl
        (sameSymbols_set hc hdc)).symm
    · rcases List.mem_or_eq_of_mem_set he with he | rfl
      · exact hchildren e he
      · exact hchild

end Grammar

/-! ### The exchange -/

/-- **Two trees are others with a pair of subtrees exchanged**, parties aside. -/
def Exchanged (a b : Tree) (pathA pathB : Path) (c d : Tree) : Prop :=
  ∃ subA subB a' b', a.get? pathA = some subA ∧ b.get? pathB = some subB ∧
    a.modify? (fun _ => subB) pathA = some a' ∧ b.modify? (fun _ => subA) pathB = some b' ∧
      c.withoutParties = a'.withoutParties ∧ d.withoutParties = b'.withoutParties

section Swap

variable {a b c d : Tree} {pathA pathB : Path}

/-- **A swap is an exchange of subtrees.** -/
theorem exchanged_of_swapAt (h : swapAt a b pathA pathB = some (c, d)) :
    Exchanged a b pathA pathB c d := by
  obtain ⟨subA, subB, childA, childB, hsubA, hsubB, hchildA, hchildB, rfl, rfl⟩ := swapAt_eq_some h
  obtain ⟨-, -, -, hmodifyA⟩ := Tree.replace_eq_ok hchildA
  obtain ⟨-, -, -, hmodifyB⟩ := Tree.replace_eq_ok hchildB
  obtain ⟨a', ha'⟩ := Tree.exists_modify (f := fun _ => subB) hsubA
  obtain ⟨b', hb'⟩ := Tree.exists_modify (f := fun _ => subA) hsubB
  refine ⟨subA, subB, a', b', hsubA, hsubB, ha', hb', ?_, ?_⟩
  · rw [Tree.stripNestedParties, Tree.withoutParties_stripParties]
    exact Tree.withoutParties_modify? (fun _ => Tree.withoutParties_withParty subB _ _) hmodifyA ha'
  · rw [Tree.stripNestedParties, Tree.withoutParties_stripParties]
    exact Tree.withoutParties_modify? (fun _ => Tree.withoutParties_withParty subA _ _) hmodifyB hb'

/-- **A swap neither makes nor loses nodes.** -/
theorem labels_swapAt (h : swapAt a b pathA pathB = some (c, d)) :
    c.labels + d.labels = a.labels + b.labels := by
  obtain ⟨subA, subB, childA, childB, hsubA, hsubB, hchildA, hchildB, rfl, rfl⟩ := swapAt_eq_some h
  obtain ⟨oldA, holdA, -, hmodifyA⟩ := Tree.replace_eq_ok hchildA
  obtain ⟨oldB, holdB, -, hmodifyB⟩ := Tree.replace_eq_ok hchildB
  obtain rfl := Option.some.inj (hsubA.symm.trans holdA)
  obtain rfl := Option.some.inj (hsubB.symm.trans holdB)
  have hA := Tree.labels_modify? hsubA hmodifyA
  have hB := Tree.labels_modify? hsubB hmodifyB
  rw [Tree.labels_withParty] at hA hB
  rw [Tree.stripNestedParties, Tree.stripNestedParties, Tree.labels_stripParties,
    Tree.labels_stripParties, ← add_left_inj (subA.labels + subB.labels)]
  calc _ = childA.labels + subA.labels + (childB.labels + subB.labels) := by ac_rfl
    _ = a.labels + b.labels + (subA.labels + subB.labels) := by
        rw [hA, hB]
        ac_rfl

/-- **A swap of valid trees gives valid trees**, for whatever grammar. -/
theorem validate_swapAt {g : Grammar} (h : swapAt a b pathA pathB = some (c, d))
    (ha : g.validate a = .ok ()) (hb : g.validate b = .ok ()) :
    g.validate c = .ok () ∧ g.validate d = .ok () := by
  obtain ⟨subA, subB, childA, childB, hsubA, hsubB, hchildA, hchildB, rfl, rfl⟩ := swapAt_eq_some h
  obtain ⟨oldA, holdA, hsymbolA, hmodifyA⟩ := Tree.replace_eq_ok hchildA
  obtain ⟨oldB, holdB, hsymbolB, hmodifyB⟩ := Tree.replace_eq_ok hchildB
  simp only [Grammar.validate_eq_ok_iff_faultless] at ha hb ⊢
  have hA := Grammar.Faultless.modify? (f := fun old => subB.withParty old.sender old.recipient)
    (hb.of_get? hsubB).withParty hsymbolA.symm ha holdA hmodifyA
  have hB := Grammar.Faultless.modify? (f := fun old => subA.withParty old.sender old.recipient)
    (ha.of_get? hsubA).withParty hsymbolB.symm hb holdB hmodifyB
  exact ⟨hA.1.stripParties false, hB.1.stripParties false⟩

end Swap

/-- **A crossover exchanges two subtrees with one symbol**, at writable nodes below the roots. It
gives up exactly if there is no symbol with such nodes in both trees, it keeps all nodes and their
validity, and it looks at the nodes to blame first. -/
theorem crossover_swaps (a b : Tree) (failing : List FailingTree) (source : Source) :
    (((crossover a b failing).run source).1 = none ↔
      ¬ ∃ s pathA pathB, a.Offers s pathA ∧ b.Offers s pathB) ∧
    ∀ c d, ((crossover a b failing).run source).1 = some (c, d) →
      (∃ s pathA pathB, a.Offers s pathA ∧ b.Offers s pathB ∧ Exchanged a b pathA pathB c d ∧
        ((∃ f ∈ failing, a.Offers f.symbol f.path ∧ ∃ other, b.Offers f.symbol other) →
          ∃ f ∈ failing, f.path = pathA ∧ f.symbol = s)) ∧
      c.labels + d.labels = a.labels + b.labels ∧
      ∀ g : Grammar, g.validate a = .ok () → g.validate b = .ok () →
        g.validate c = .ok () ∧ g.validate d = .ok () := by
  rcases gives_crossover_cases a b failing source with
    ⟨hnone, hnothing⟩ | ⟨s, pathA, pathB, ha, hb, ⟨c, d, hcd, hsome⟩, hblamed⟩
  · rw [hnone]
    refine ⟨iff_of_true rfl ?_, fun c d h => absurd h (by simp)⟩
    rintro ⟨s, pathA, pathB, ha, hb⟩
    exact hnothing s pathA pathB ha hb
  · rw [hsome]
    refine ⟨iff_of_false (by simp) (not_not.mpr ⟨s, pathA, pathB, ha, hb⟩), ?_⟩
    rintro _ _ ⟨⟩
    refine ⟨⟨s, pathA, pathB, ha, hb, exchanged_of_swapAt hcd, ?_⟩, labels_swapAt hcd,
      fun g => validate_swapAt hcd⟩
    rintro ⟨f, hf, hfa, hfb⟩
    have hmem := hblamed (List.ne_nil_of_mem (mem_blamedPoints.mpr ⟨f, hf, rfl, hfa, hfb⟩))
    obtain ⟨f', hf', hpath, hoffers, -⟩ := mem_blamedPoints.mp hmem
    refine ⟨f', hf', hpath, ?_⟩
    -- There is one node at the path, and so one symbol.
    obtain ⟨-, n, hn, -, rfl⟩ := ha
    obtain ⟨-, n', hn', -, hsymbol⟩ := hoffers
    obtain rfl := Option.some.inj (hn.symm.trans hn')
    exact hsymbol.symm

/-- Two parents of one digit each have children. -/
theorem crossover_swaps_digits : ((crossover
    (.branch "number" [.branch "digit" [.leaf (.text "1")]])
    (.branch "number" [.branch "digit" [.leaf (.text "2")]]) []).run (.ofSeed 28)).1 ≠ none :=
  fun hnone => (crossover_swaps _ _ [] (.ofSeed 28)).1.mp hnone
    ⟨.nonTerminal "digit", [0], [0], ⟨by decide, _, rfl, rfl, rfl⟩, by decide, _, rfl, rfl, rfl⟩

/-- A read-only digit stays where it is. -/
example : ((crossover
    (.branch "number" [.branch "digit" [.leaf (.text "1")]])
    (.branch "number" [.asReadOnly (.branch "digit" [.leaf (.text "2")]),
      .branch "digit" [.leaf (.text "3")]]) []).run (.ofWords [0])).1 =
    some (.branch "number" [.branch "digit" [.leaf (.text "3")]],
      .branch "number" [.asReadOnly (.branch "digit" [.leaf (.text "2")]),
        .branch "digit" [.leaf (.text "1")]]) :=
  rfl

end GrammarFuzzing
