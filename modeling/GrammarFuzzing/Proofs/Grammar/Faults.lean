import GrammarFuzzing.Proofs.Grammar.Rounds
import GrammarFuzzing.Proofs.Grammar.Validity
import GrammarFuzzing.Proofs.Tree.Paths

/-!
# What checking a tree finds

Checking a tree looks at its nodes one by one, each before its children, and stops at the first one
that does not derive from its rule. So it is a search through the list of all nodes
(`GrammarFuzzing.Grammar.validate_eq`), and what it looks for is a fault of a single node
(`GrammarFuzzing.Grammar.fault?`).

A node without a fault is one that derives (`GrammarFuzzing.Grammar.Bounded.fault?_eq_none`): a
terminal without children, or a symbol with a rule whose body stands for the whole list of children.
Hence a tree passes exactly when all its nodes derive, and otherwise the path in the error leads to
the first one that does not (`GrammarFuzzing.Document.validate_exact`).
-/

namespace GrammarFuzzing

namespace Grammar

variable {g : Grammar}

/-! ### Faults of a node -/

/-- **A node derives**: it is a terminal without children, or its children are what the body of its
rule stands for. -/
def NodeDerives (g : Grammar) (t : Tree) : Prop :=
  match t.symbol with
  | .terminal _ => t.children = []
  | .slice => False
  | .nonTerminal name => ∃ body, g.body? name = some body ∧ body.Matches t.children

/-- What is wrong with a node itself, in words. -/
def fault? (g : Grammar) (t : Tree) : Option String :=
  match t.symbol with
  | .terminal _ => if t.children.isEmpty then none else some "terminal with children"
  | .slice => some "slice marker inside a tree"
  | .nonTerminal name =>
    match g.body? name with
    | none => some ("no rule for " ++ angled name)
    | some body =>
      if body.fits t.children then none else some ("children do not match " ++ body.toSpec)

/-- **Nothing is wrong with the nodes that derive**, and with no others. -/
theorem Bounded.fault?_eq_none (hg : g.Bounded) {t : Tree} :
    g.fault? t = none ↔ g.NodeDerives t := by
  rw [fault?, NodeDerives]
  cases t.symbol with
  | terminal value => simp
  | slice => simp
  | nonTerminal name =>
    cases hbody : g.body? name with
    | none => simp [hbody]
    | some body =>
      have hfits : body.fits t.children = true ↔ body.Matches t.children :=
        hg.fits_iff (occurs_of_body? hbody)
      simp [hbody, hfits]

/-! ### The first fault -/

/-- The error for a node below a path, if there is something wrong with the node. -/
def faultAt (g : Grammar) (path : Path) (n : Path × Tree) : Option GrammarError :=
  (g.fault? n.2).map fun reason => .invalidTree (path ++ n.1) n.2.symbol.toSpec reason

/-- What a search for an error comes to. -/
def passes (e : Option GrammarError) : Except GrammarError Unit :=
  match e with
  | none => .ok ()
  | some e => .error e

mutual

/-- **Checking a tree finds the first of its nodes with a fault.** -/
theorem validateAt_eq : ∀ (t : Tree) (path : Path),
    g.validateAt path t = passes (t.nodes.findSome? (g.faultAt path))
  | ⟨.terminal value, children, _, _, _, _⟩, path => by
    rw [validateAt, Tree.nodes, List.findSome?_cons, faultAt, fault?, List.append_nil]
    cases children with
    | nil => simp [Tree.listNodes, passes]
    | cons c cs => simp [passes]
  | ⟨.slice, _, _, _, _, _⟩, path => by
    rw [validateAt, Tree.nodes, List.findSome?_cons, faultAt, fault?, List.append_nil]
    rfl
  | ⟨.nonTerminal name, children, _, _, _, _⟩, path => by
    rw [validateAt, Tree.nodes, List.findSome?_cons, faultAt, fault?, List.append_nil]
    cases hbody : g.body? name with
    | none => simp [hbody, passes]
    | some body =>
      by_cases hfits : body.fits children = true
      · simp only [hbody, hfits, if_true, Option.map_none]
        exact validateListAt_eq children path 0
      · simp [hbody, hfits, passes]

/-- Checking the children from an index on. -/
theorem validateListAt_eq : ∀ (ts : List Tree) (path : Path) (i : Nat),
    g.validateListAt path i ts = passes ((Tree.listNodes i ts).findSome? (g.faultAt path))
  | [], path, i => by
    rw [validateListAt, Tree.listNodes]
    rfl
  | t :: ts, path, i => by
    have hbelow : g.faultAt path ∘ (fun n : Path × Tree => (i :: n.1, n.2)) =
        g.faultAt (path ++ [i]) := by
      funext n
      simp [faultAt]
    rw [validateListAt, validateAt_eq t, Tree.listNodes, List.findSome?_append,
      List.findSome?_map, hbelow, validateListAt_eq ts path (i + 1)]
    cases t.nodes.findSome? (g.faultAt (path ++ [i])) with
    | none => rfl
    | some e => rfl

end

theorem validate_eq (t : Tree) : g.validate t = passes (t.nodes.findSome? (g.faultAt [])) :=
  validateAt_eq t []

/-- A tree passes when all its nodes derive. -/
theorem Bounded.validate_eq_ok_iff (hg : g.Bounded) {t : Tree} :
    g.validate t = .ok () ↔ ∀ n ∈ t.nodes, g.NodeDerives n.2 := by
  have hnone : (∀ n ∈ t.nodes, g.NodeDerives n.2) ↔ t.nodes.findSome? (g.faultAt []) = none := by
    simp only [List.findSome?_eq_none_iff, faultAt, Option.map_eq_none_iff, hg.fault?_eq_none]
  rw [validate_eq, hnone]
  cases t.nodes.findSome? (g.faultAt []) with
  | none => simp [passes]
  | some e => simp [passes]

/-- An error is about the first node that does not derive. -/
theorem Bounded.validate_eq_error_iff (hg : g.Bounded) {t : Tree} {e : GrammarError} :
    g.validate t = .error e ↔ ∃ before path n after reason,
      t.nodes = before ++ (path, n) :: after ∧ (∀ m ∈ before, g.NodeDerives m.2) ∧
        g.fault? n = some reason ∧ e = .invalidTree path n.symbol.toSpec reason := by
  have hsome : g.validate t = .error e ↔ t.nodes.findSome? (g.faultAt []) = some e := by
    rw [validate_eq]
    cases t.nodes.findSome? (g.faultAt []) with
    | none => simp [passes]
    | some e' => simp [passes]
  rw [hsome, List.findSome?_eq_some_iff]
  simp only [faultAt, Option.map_eq_some_iff, Option.map_eq_none_iff, hg.fault?_eq_none,
    List.nil_append]
  constructor
  · rintro ⟨before, ⟨path, n⟩, after, hnodes, ⟨reason, hreason, rfl⟩, hbefore⟩
    exact ⟨before, path, n, after, reason, hnodes, hbefore, hreason, rfl⟩
  · rintro ⟨before, path, n, after, reason, hnodes, hbefore, hreason, rfl⟩
    exact ⟨before, (path, n), after, hnodes, ⟨reason, hreason, rfl⟩, hbefore⟩

/-! ### Repetitions -/

/-- Matches that start among the children end there. -/
theorem Bounded.le_length_of_mem_ends (hg : g.Bounded) {n : Node} (hn : g.Occurs n)
    {cs : List Tree} {pos stop : Nat} (hpos : pos ≤ cs.length) (h : stop ∈ n.ends cs pos) :
    stop ≤ cs.length := by
  obtain ⟨ds, es, hdrop, rfl, -⟩ := (hg.mem_ends cs hn).mp h
  have hlength := congrArg List.length hdrop
  rw [List.length_drop, List.length_append] at hlength
  omega

/-- **The rounds of a repetition come to an end**, and what they find are the ends of its
matches. -/
theorem Bounded.exists_rounds_repetition (hg : g.Bounded) {id min : Nat} {body : Node}
    {max : Option Nat} {form : RepetitionForm} (hn : g.Occurs (.repetition id body min max form))
    {cs : List Tree} {pos : Nat} (hpos : pos ≤ cs.length) :
    ∃ found, Node.Rounds (body.ends cs) min max 0 [] [pos] found ∧
      (∀ stop, stop ∈ found ↔ stop ∈ (Node.repetition id body min max form).ends cs pos) ∧
      ∀ stop, stop ∈ found ↔
        Node.Stretch (Node.repetition id body min max form).Matches cs pos stop := by
  have hbody := hn.of_mem_subnodes (Node.mem_subnodes_repetition body.mem_subnodes_self)
  have hbounds : ∀ m, max = some m → min ≤ m := fun m hm => (hg.bounds (hm ▸ hn)).2
  obtain ⟨found, hfound, hmem⟩ := Node.exists_rounds
    (fun p hp q hq => hg.le_length_of_mem_ends hbody hp hq) hbounds hpos
  refine ⟨found, hfound, fun stop => ?_, fun stop => ?_⟩
  · rw [hmem, Node.ends]
  · rw [hmem, ← hg.mem_ends cs hn, Node.ends]

end Grammar

/-! ### Checked trees -/

/-- **Checking a tree accepts exactly the derivation trees.** A tree passes when each of its nodes
derives: no node is a slice, terminals have no children, and every other node has a rule whose body
stands for the whole list of its children. Otherwise the error names the first node that does not
derive, in the order in which each node comes before its children and these from left to right.

The body of a rule stands for a list of children as `GrammarFuzzing.Node.Matches` says. A repetition
is matched in rounds that leave out positions seen before; they come to an end, whether or not a
copy can be without children, and lose no split of the children into copies. -/
theorem Document.validate_exact {doc : Document} {g : Grammar} (h : doc.toGrammar = .ok g)
    (t : Tree) :
    (g.validate t = .ok () ↔ ∀ n ∈ t.nodes, g.NodeDerives n.2) ∧
    (∀ e, g.validate t = .error e ↔ ∃ before path n after reason,
      t.nodes = before ++ (path, n) :: after ∧ (∀ m ∈ before, g.NodeDerives m.2) ∧
        ¬ g.NodeDerives n ∧ t.get? path = some n ∧ g.fault? n = some reason ∧
          e = .invalidTree path n.symbol.toSpec reason) ∧
    ∀ id body min max form, g.Occurs (.repetition id body min max form) →
      ∀ cs : List Tree, ∀ pos ≤ cs.length,
        ∃ found, Node.Rounds (body.ends cs) min max 0 [] [pos] found ∧
          (∀ stop, stop ∈ found ↔ stop ∈ (Node.repetition id body min max form).ends cs pos) ∧
          ∀ stop, stop ∈ found ↔
            Node.Stretch (Node.repetition id body min max form).Matches cs pos stop := by
  have hg := (wellFormed_of_toGrammar h).toBounded
  refine ⟨hg.validate_eq_ok_iff, fun e => hg.validate_eq_error_iff.trans ?_,
    fun id body min max form hn cs pos hpos => hg.exists_rounds_repetition hn hpos⟩
  constructor
  · rintro ⟨before, path, n, after, reason, hnodes, hbefore, hreason, rfl⟩
    have hmem : (path, n) ∈ t.nodes := by
      rw [hnodes]
      exact List.mem_append_right _ List.mem_cons_self
    refine ⟨before, path, n, after, reason, hnodes, hbefore, fun hderives => ?_,
      Tree.mem_nodes.mp hmem, hreason, rfl⟩
    rw [hg.fault?_eq_none.mpr hderives] at hreason
    exact nomatch hreason
  · rintro ⟨before, path, n, after, reason, hnodes, hbefore, -, -, hreason, rfl⟩
    exact ⟨before, path, n, after, reason, hnodes, hbefore, hreason, rfl⟩

/-- Lines of words and gaps: a copy of what a line repeats may be without children. -/
def Document.gappedLines : Document :=
  ⟨"line", [("line", .seq [.plus (.optional (.ref "word")), .text "."]), ("word", .text "w")], []⟩

/-- A line of two words passes. Where its second word is misspelt, the error leads to that word. And
the rounds of its words, each of which may be a gap, end after both. -/
theorem Document.validate_gappedLines : ∃ g, gappedLines.toGrammar = .ok g ∧
    (∀ n ∈ (Tree.branch "line" [.branch "word" [.leaf (.text "w")],
        .branch "word" [.leaf (.text "w")], .leaf (.text ".")]).nodes, g.NodeDerives n.2) ∧
    (∃ n, ¬ g.NodeDerives n ∧ (Tree.branch "line" [.branch "word" [.leaf (.text "w")],
      .branch "word" [.leaf (.text "v")], .leaf (.text ".")]).get? [1] = some n) ∧
    ∃ body : Node, g.Occurs (.repetition 2 body 1 none .plus) ∧ ∃ found,
      Node.Rounds (body.ends [.branch "word" [], .branch "word" []]) 1 none 0 [] [0] found ∧
        2 ∈ found := by
  have h : gappedLines.toGrammar = .ok _ := rfl
  refine ⟨_, h, (validate_exact h _).1.mp rfl, ?_,
    .repetition 1 (.reference 0 "word" none none) 0 (some 1) .optional, ?_⟩
  · obtain ⟨before, path, n, after, reason, -, -, hn, hpath, -, herror⟩ :=
      ((validate_exact h (Tree.branch "line" [.branch "word" [.leaf (.text "w")],
        .branch "word" [.leaf (.text "v")], .leaf (.text ".")])).2.1 _).mp rfl
    obtain ⟨rfl, -, -⟩ := GrammarError.invalidTree.inj herror
    exact ⟨n, hn, hpath⟩
  · refine (fun hn => ⟨hn, ?_⟩ : _ → _ ∧ _) ⟨_, List.mem_cons_self,
      List.mem_cons_of_mem _ (List.mem_append_left _ List.mem_cons_self)⟩
    obtain ⟨found, hfound, hmem, -⟩ := (validate_exact h (.branch "line" [])).2.2 _ _ _ _ _ hn
      [.branch "word" [], .branch "word" []] 0 (Nat.zero_le _)
    exact ⟨found, hfound, (hmem 2).mpr (by decide)⟩

end GrammarFuzzing
