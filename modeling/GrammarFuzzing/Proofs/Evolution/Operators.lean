import GrammarFuzzing.Evolution.Mutation
import GrammarFuzzing.Evolution.Population
import GrammarFuzzing.Proofs.Dictionary
import GrammarFuzzing.Proofs.Fuzz.Expansion
import GrammarFuzzing.Proofs.Grammar.Replacement
import GrammarFuzzing.Proofs.Tree.Paths

/-!
# What the operators of variation do

Crossover, mutation and repair make trees out of trees in one way: they put another subtree at a
path, by `GrammarFuzzing.Tree.replace`, and remove nested parties. What else they do is to choose
the path and the subtree. Each operator is described here once, with everything that is known of its
choices, and its properties follow from these descriptions.

* `GrammarFuzzing.gives_crossover_cases`: at points of one symbol in both parents, each gets what
  the other has;
* `GrammarFuzzing.SubtreeMutator.gives_mutate_of`: at a writable node, or the root, a fresh
  expansion;
* `GrammarFuzzing.applySuggestion?_eq_some`: at a node that is not read-only, what was parsed.

A **slot** is a writable node below the root. A parent offers its slots for crossover, each under
its symbol (`GrammarFuzzing.mem_find?_swapPoints`), and the crossover gives up only if the parents
offer no symbol in common.
-/

namespace GrammarFuzzing

variable {g : Grammar}

theorem eq_ok_of_toOption {ε α : Type} {r : Except ε α} {x : α} (h : r.toOption = some x) :
    r = .ok x := by
  cases r with
  | error e => exact absurd h (by simp [Except.toOption])
  | ok y => exact congrArg Except.ok (Option.some.inj h)

theorem Symbol.eq_nonTerminal_of_name? {s : Symbol} {name : String} (h : s.name? = some name) :
    s = .nonTerminal name := by
  cases s with
  | nonTerminal other => exact congrArg Symbol.nonTerminal (Option.some.inj h)
  | terminal | slice => exact absurd h (by simp [Symbol.name?])

/-! ### The order of symbols -/

namespace Literal

theorem compare_text (s t : String) : compare (text s) (text t) = compare s t := by
  change (compare s t).then .eq = _
  rw [Ordering.then_eq]

theorem compare_bytes (bs cs : Bytes) : compare (bytes bs) (bytes cs) = compare bs cs := by
  change (compare bs cs).then .eq = _
  rw [Ordering.then_eq]

instance : Std.LawfulEqOrd Literal where
  compare_self := by
    rintro (s | bs)
    · rw [compare_text, Std.ReflOrd.compare_self]
    · rw [compare_bytes, Std.ReflOrd.compare_self]
  eq_of_compare := by
    rintro (s | bs) (t | cs) h
    · rw [compare_text] at h
      rw [Std.LawfulEqOrd.eq_of_compare h]
    · exact nomatch h
    · exact nomatch h
    · rw [compare_bytes] at h
      rw [Std.LawfulEqOrd.eq_of_compare h]

end Literal

namespace Symbol

theorem compare_terminal (l m : Literal) : compare (terminal l) (terminal m) = compare l m := by
  change (compare l m).then .eq = _
  rw [Ordering.then_eq]

theorem compare_nonTerminal (s t : String) :
    compare (nonTerminal s) (nonTerminal t) = compare s t := by
  change (compare s t).then .eq = _
  rw [Ordering.then_eq]

instance : Std.LawfulEqOrd Symbol where
  compare_self := by
    rintro (l | name | _)
    · rw [compare_terminal, Std.ReflOrd.compare_self]
    · rw [compare_nonTerminal, Std.ReflOrd.compare_self]
    · rfl
  eq_of_compare := by
    rintro (l | name | _) (m | other | _) h
    · rw [compare_terminal] at h
      rw [Std.LawfulEqOrd.eq_of_compare h]
    · exact nomatch h
    · exact nomatch h
    · exact nomatch h
    · rw [compare_nonTerminal] at h
      rw [Std.LawfulEqOrd.eq_of_compare h]
    · exact nomatch h
    · exact nomatch h
    · exact nomatch h
    · rfl

end Symbol

/-! ### Crossover -/

/-- **A slot of a tree**: the path of a node below the root that may be replaced. -/
def Tree.Slot (t : Tree) (path : Path) : Prop :=
  path ≠ [] ∧ ∃ n, t.get? path = some n ∧ n.isWritable = true

/-- **A tree offers a symbol at a path**: the path of a slot with the symbol. -/
def Tree.Offers (t : Tree) (s : Symbol) (path : Path) : Prop :=
  path ≠ [] ∧ ∃ n, t.get? path = some n ∧ n.isWritable = true ∧ n.symbol = s

theorem Tree.Offers.slot {t : Tree} {s : Symbol} {path : Path} (h : t.Offers s path) :
    t.Slot path := by
  obtain ⟨hpath, n, hn, hwritable, -⟩ := h
  exact ⟨hpath, n, hn, hwritable⟩

/-- The nodes that may be swapped, with their paths. -/
theorem mem_swappable {t n : Tree} {path : Path} :
    (path, n) ∈ t.nodes.filter (fun n => !n.1.isEmpty && n.2.isWritable) ↔
      t.get? path = some n ∧ path ≠ [] ∧ n.isWritable = true := by
  rw [List.mem_filter, Tree.mem_nodes, Bool.and_eq_true, Bool.not_eq_true',
    List.isEmpty_eq_false_iff]

/-- **The swap points of a symbol** are the paths at which the tree offers it. -/
theorem mem_find?_swapPoints {t : Tree} {s : Symbol} {path : Path} :
    path ∈ ((swapPoints t).find? s).getD [] ↔ t.Offers s path := by
  have hfold : ∀ (ns : List (Path × Tree)) (d : Dictionary Symbol (List Path)),
      path ∈ ((ns.foldl (fun (d : Dictionary Symbol (List Path)) n =>
        d.put n.2.symbol ((d.find? n.2.symbol).getD [] ++ [n.1])) d).find? s).getD [] ↔
        path ∈ (d.find? s).getD [] ∨ ∃ n, (path, n) ∈ ns ∧ n.symbol = s := by
    intro ns
    induction ns with
    | nil => simp
    | cons n ns ih =>
      intro d
      obtain ⟨other, n⟩ := n
      rw [List.foldl_cons, ih]
      by_cases hs : n.symbol = s
      · subst hs
        rw [Dictionary.find?_put_self]
        simp [or_assoc, or_and_right, exists_or]
      · rw [Dictionary.find?_put_of_ne hs]
        simp [or_and_right, exists_or, hs]
  rw [swapPoints, hfold]
  simp only [mem_swappable, Dictionary.find?_nil, Option.getD_none, List.not_mem_nil, false_or]
  constructor
  · rintro ⟨n, ⟨hn, hpath, hwritable⟩, hs⟩
    exact ⟨hpath, n, hn, hwritable, hs⟩
  · rintro ⟨hpath, n, hn, hwritable, hs⟩
    exact ⟨n, ⟨hn, hpath, hwritable⟩, hs⟩

/-- What a tree offers is listed under its symbol. -/
theorem Tree.Offers.exists_find? {t : Tree} {s : Symbol} {path : Path} (h : t.Offers s path) :
    ∃ paths, (swapPoints t).find? s = some paths ∧ path ∈ paths := by
  have hmem := mem_find?_swapPoints.mpr h
  cases hfind : (swapPoints t).find? s with
  | none =>
    rw [hfind] at hmem
    exact absurd hmem List.not_mem_nil
  | some paths =>
    rw [hfind, Option.getD_some] at hmem
    exact ⟨paths, rfl, hmem⟩

/-- **Swap points are listed under their symbols**, and only symbols that have some. -/
theorem offers_of_mem_swapPoints {t : Tree} {p : Symbol × List Path} (hp : p ∈ swapPoints t) :
    p.2 ≠ [] ∧ ∀ path ∈ p.2, t.Offers p.1 path := by
  have hfold : ∀ (ns : List (Path × Tree)) (d : Dictionary Symbol (List Path)),
      (∀ n ∈ ns, t.Offers n.2.symbol n.1) →
        (∀ q ∈ d, q.2 ≠ [] ∧ ∀ path ∈ q.2, t.Offers q.1 path) →
          ∀ q ∈ ns.foldl (fun (d : Dictionary Symbol (List Path)) n =>
            d.put n.2.symbol ((d.find? n.2.symbol).getD [] ++ [n.1])) d,
              q.2 ≠ [] ∧ ∀ path ∈ q.2, t.Offers q.1 path := by
    intro ns
    induction ns with
    | nil => exact fun d _ hd => hd
    | cons n ns ih =>
      intro d hns hd
      obtain ⟨hn, hns⟩ := List.forall_mem_cons.mp hns
      refine ih _ hns fun q hq => ?_
      rcases Dictionary.mem_put hq with rfl | hq
      · refine ⟨by simp, List.forall_mem_append.mpr ⟨?_, List.forall_mem_singleton.mpr hn⟩⟩
        cases hfind : d.find? n.2.symbol with
        | none => exact fun path hpath => absurd hpath List.not_mem_nil
        | some paths => exact (hd _ (Dictionary.mem_of_find? hfind)).2
      · exact hd q hq
  refine hfold _ [] (fun n hn => ?_) (fun q hq => absurd hq List.not_mem_nil) p hp
  obtain ⟨hn, hpath, hwritable⟩ := mem_swappable.mp hn
  exact ⟨hpath, n.2, hn, hwritable, rfl⟩

/-- A symbol has swap points if it is offered somewhere. -/
theorem has_swapPoints {t : Tree} {s : Symbol} :
    (swapPoints t).has s = true ↔ ∃ path, t.Offers s path := by
  rw [Dictionary.has, Option.isSome_iff_exists]
  constructor
  · rintro ⟨paths, hfind⟩
    obtain ⟨hne, hoffers⟩ := offers_of_mem_swapPoints (Dictionary.mem_of_find? hfind)
    obtain ⟨path, hpath⟩ := List.exists_mem_of_ne_nil paths hne
    exact ⟨path, hoffers path hpath⟩
  · rintro ⟨path, hoffers⟩
    obtain ⟨paths, hfind, -⟩ := hoffers.exists_find?
    exact ⟨paths, hfind⟩

/-- **The points to blame** are those that an entry names under the symbol they have, if the other
tree offers it, too. -/
theorem mem_blamedPoints {a b : Tree} {failing : List FailingTree} {path : Path} :
    path ∈ blamedPoints (swapPoints a) (swapPoints b) failing ↔
      ∃ f ∈ failing, f.path = path ∧ a.Offers f.symbol path ∧ ∃ other, b.Offers f.symbol other := by
  rw [blamedPoints, List.mem_map]
  constructor
  · rintro ⟨f, hf, rfl⟩
    obtain ⟨hf, hblamed⟩ := List.mem_filter.mp hf
    rw [Bool.and_eq_true, Bool.and_eq_true, List.contains_iff_mem, mem_find?_swapPoints,
      has_swapPoints] at hblamed
    exact ⟨f, hf, rfl, hblamed.2, hblamed.1.2⟩
  · rintro ⟨f, hf, rfl, hoffers, hother⟩
    have hnonTerminal : f.symbol.isNonTerminal = true := by
      obtain ⟨-, n, -, hwritable, hs⟩ := hoffers
      rw [Tree.isWritable, Bool.and_eq_true, hs] at hwritable
      exact hwritable.1
    refine ⟨f, List.mem_filter.mpr ⟨hf, ?_⟩, rfl⟩
    rw [Bool.and_eq_true, Bool.and_eq_true, List.contains_iff_mem, mem_find?_swapPoints,
      has_swapPoints]
    exact ⟨⟨hnonTerminal, hother⟩, hoffers⟩

/-- **The shared points** are those with a symbol that the other tree offers, too. -/
theorem mem_sharedPoints {a b : Tree} {path : Path} :
    path ∈ sharedPoints (swapPoints a) (swapPoints b) ↔
      ∃ s, a.Offers s path ∧ ∃ other, b.Offers s other := by
  rw [sharedPoints, List.mem_flatMap]
  constructor
  · rintro ⟨p, hp, hpath⟩
    obtain ⟨hp, hshared⟩ := List.mem_filter.mp hp
    exact ⟨p.1, (offers_of_mem_swapPoints hp).2 path hpath, has_swapPoints.mp hshared⟩
  · rintro ⟨s, hoffers, hother⟩
    obtain ⟨paths, hfind, hmem⟩ := hoffers.exists_find?
    exact ⟨(s, paths), List.mem_filter.mpr ⟨Dictionary.mem_of_find? hfind,
      has_swapPoints.mpr hother⟩, hmem⟩

/-- **Swapping** puts the subtrees at the two paths in the place of each other. -/
theorem swapAt_eq_some {a b c d : Tree} {pathA pathB : Path}
    (h : swapAt a b pathA pathB = some (c, d)) :
    ∃ subA subB childA childB, a.get? pathA = some subA ∧ b.get? pathB = some subB ∧
      a.replace pathA subB = .ok childA ∧ b.replace pathB subA = .ok childB ∧
        c = childA.stripNestedParties ∧ d = childB.stripNestedParties := by
  rw [swapAt] at h
  obtain ⟨subA, hsubA, h⟩ := Option.bind_eq_some_iff.mp h
  obtain ⟨subB, hsubB, h⟩ := Option.bind_eq_some_iff.mp h
  obtain ⟨childA, hchildA, h⟩ := Option.bind_eq_some_iff.mp h
  obtain ⟨childB, hchildB, h⟩ := Option.bind_eq_some_iff.mp h
  obtain ⟨rfl, rfl⟩ := Prod.mk.inj (Option.some.inj h)
  exact ⟨subA, subB, childA, childB, hsubA, hsubB, eq_ok_of_toOption hchildA,
    eq_ok_of_toOption hchildB, rfl, rfl⟩

/-- **Points with one symbol can be swapped.** -/
theorem exists_swapAt {a b : Tree} {s : Symbol} {pathA pathB : Path} (ha : a.Offers s pathA)
    (hb : b.Offers s pathB) : ∃ c d, swapAt a b pathA pathB = some (c, d) := by
  obtain ⟨-, subA, hsubA, -, rfl⟩ := ha
  obtain ⟨-, subB, hsubB, -, hsymbol⟩ := hb
  obtain ⟨childA, hchildA⟩ := Tree.exists_replace hsubA hsymbol
  obtain ⟨childB, hchildB⟩ := Tree.exists_replace hsubB hsymbol.symm
  refine ⟨childA.stripNestedParties, childB.stripNestedParties, ?_⟩
  simp only [swapAt, hsubA, hsubB, Option.bind_eq_bind, Option.bind_some, hchildA, hchildB]
  rfl

/-- What is picked out of a list is one of its elements, if there are any. -/
theorem Draw.gives_pick?_cases {α : Type} (xs : List α) :
    Draw.Gives (Draw.pick? xs) fun o => (o = none ∧ xs = []) ∨ ∃ x ∈ xs, o = some x := by
  by_cases hxs : xs = []
  · subst hxs
    exact Draw.gives_pure (Or.inl ⟨rfl, rfl⟩)
  · exact (Draw.gives_pick? hxs).mono fun o ho => Or.inr ho

/-- **A crossover swaps two points with one symbol**, one to blame if there are any; it gives up
only if the trees share no symbol. -/
theorem gives_crossover_cases (a b : Tree) (failing : List FailingTree) :
    Draw.Gives (crossover a b failing) fun children =>
      (children = none ∧ ∀ s pathA pathB, a.Offers s pathA → ¬ b.Offers s pathB) ∨
        ∃ s pathA pathB, a.Offers s pathA ∧ b.Offers s pathB ∧
          (∃ c d, swapAt a b pathA pathB = some (c, d) ∧ children = some (c, d)) ∧
            (blamedPoints (swapPoints a) (swapPoints b) failing ≠ [] →
              pathA ∈ blamedPoints (swapPoints a) (swapPoints b) failing) := by
  rw [crossover]
  refine (Draw.gives_pick?_cases _).bind fun blamed hblamed => ?_
  extract_lets swap
  -- Whichever point was chosen in the first tree, it is swapped with one in the second.
  have hswap : ∀ pathA s, a.Offers s pathA → (∃ pathB, b.Offers s pathB) →
      Draw.Gives (swap (some pathA)) fun children => ∃ pathB, b.Offers s pathB ∧
        ∃ c d, swapAt a b pathA pathB = some (c, d) ∧ children = some (c, d) := by
    rintro pathA s hoffers ⟨other, hother⟩
    obtain ⟨-, n, hn, -, rfl⟩ := id hoffers
    obtain ⟨partners, hfind, hmem⟩ := hother.exists_find?
    simp only [swap, hn, Option.bind_some, hfind]
    refine (Draw.gives_pick? (List.ne_nil_of_mem hmem)).bind ?_
    rintro _ ⟨pathB, hpathB, rfl⟩
    have hoffersB := (offers_of_mem_swapPoints (Dictionary.mem_of_find? hfind)).2 pathB hpathB
    obtain ⟨c, d, hcd⟩ := exists_swapAt hoffers hoffersB
    exact Draw.gives_pure ⟨pathB, hoffersB, c, d, hcd, hcd⟩
  rcases hblamed with ⟨rfl, hnil⟩ | ⟨pathA, hpathA, rfl⟩
  · refine (Draw.gives_pick?_cases _).bind fun chosen hchosen => ?_
    rcases hchosen with ⟨rfl, hshared⟩ | ⟨pathA, hpathA, rfl⟩
    · refine Draw.gives_pure (Or.inl ⟨rfl, fun s pathA pathB ha hb => ?_⟩)
      have hmem := mem_sharedPoints.mpr ⟨s, ha, pathB, hb⟩
      rw [hshared] at hmem
      exact absurd hmem List.not_mem_nil
    · obtain ⟨s, ha, hb⟩ := mem_sharedPoints.mp hpathA
      refine (hswap pathA s ha hb).mono fun children hchildren => Or.inr ?_
      obtain ⟨pathB, hb, hcd⟩ := hchildren
      exact ⟨s, pathA, pathB, ha, hb, hcd, fun hne => absurd hnil hne⟩
  · obtain ⟨f, -, -, ha, hb⟩ := mem_blamedPoints.mp hpathA
    refine (hswap pathA f.symbol ha hb).mono fun children hchildren => Or.inr ?_
    obtain ⟨pathB, hb, hcd⟩ := hchildren
    exact ⟨f.symbol, pathA, pathB, ha, hb, hcd, fun _ => hpathA⟩

/-- **The children of a crossover come out of a swap** of two slots. -/
theorem gives_crossover_swapAt (a b : Tree) (failing : List FailingTree) :
    Draw.Gives (crossover a b failing) fun children =>
      ∀ c d, children = some (c, d) → ∃ pathA pathB, a.Slot pathA ∧ b.Slot pathB ∧
        swapAt a b pathA pathB = some (c, d) := by
  refine (gives_crossover_cases a b failing).mono ?_
  rintro children (⟨rfl, -⟩ | ⟨s, pathA, pathB, ha, hb, ⟨c', d', hcd, rfl⟩, -⟩) c d h
  · exact absurd h (by simp)
  · exact ⟨pathA, pathB, ha.slot, hb.slot, Option.some.inj h ▸ hcd⟩

/-! ### Mutation -/

namespace SubtreeMutator

/-- **What is replaced** is the root, or a node that may be replaced. -/
theorem writableAncestor_cases (t : Tree) (path : Path) :
    writableAncestor t path = [] ∨
      ∃ n, t.get? (writableAncestor t path) = some n ∧ n.isWritable = true := by
  rw [writableAncestor]
  cases hfind : List.find? (fun p => (t.get? p).any Tree.isWritable)
      ((List.range path.length).map fun i => path.take (i + 1)).reverse with
  | none => exact Or.inl rfl
  | some p =>
    have hany : (t.get? p).any Tree.isWritable = true :=
      List.find?_some (p := fun p => (t.get? p).any Tree.isWritable) hfind
    obtain ⟨n, hn, hwritable⟩ := (Option.any_eq_true _ _).mp hany
    exact Or.inr ⟨n, hn, hwritable⟩

variable {fails : GrammarError → Prop} {P : Tree → Prop}

/-- **A mutation regenerates** the root or a writable node. -/
theorem gives_mutate_of_regenerate (m : SubtreeMutator) {t : Tree} (failing : List FailingTree)
    (h : ∀ path, (path = [] ∨ ∃ n, t.get? path = some n ∧ n.isWritable = true) →
      Attempt.Gives (m.regenerate g t path) fails P) :
    Attempt.Gives (m.mutate g t failing) fails P := by
  rw [mutate]
  exact (Attempt.gives_lift (Draw.gives_true _)).bind fun target _ =>
    h _ (writableAncestor_cases t target)

/-- **A mutated tree has a property** if the tree has it, and every tree with a fresh expansion at
the root or at a writable node. -/
theorem gives_mutate_of (m : SubtreeMutator) {t : Tree} (ht : P t)
    (hfresh : ∀ path old name budget, (path = [] ∨ old.isWritable = true) →
      t.get? path = some old → old.symbol = .nonTerminal name →
        Attempt.Gives ((Fuzzer.mk g m.settings).fuzzSymbol name budget) (fun _ => True)
          fun fresh => ∀ u, t.replace path fresh = .ok u → P u.stripNestedParties)
    (failing : List FailingTree) :
    Attempt.Gives (m.mutate g t failing) (fun _ => True) P := by
  refine m.gives_mutate_of_regenerate failing fun path hcases => ?_
  rw [regenerate]
  split
  · exact Attempt.gives_pure ht
  · rename_i old hold
    have hwritable : path = [] ∨ old.isWritable = true := by
      refine hcases.imp_right ?_
      rintro ⟨n, hn, hwritable⟩
      exact Option.some.inj (hold.symm.trans hn) ▸ hwritable
    split
    · exact Attempt.gives_pure ht
    · rename_i name hname
      refine (hfresh path old name _ hwritable hold (Symbol.eq_nonTerminal_of_name? hname)).bind ?_
      intro fresh hfresh
      split
      · exact Attempt.gives_pure (hfresh _ ‹_›)
      · exact Attempt.gives_throw trivial

end SubtreeMutator

/-! ### Repair -/

/-- **A suggestion is applied** to a node that is not read-only, by what its value is parsed to. -/
theorem applySuggestion?_eq_some {t u : Tree} {f : FailingTree}
    (h : applySuggestion? g t f = some u) :
    ∃ name node w parsed, t.get? f.path = some node ∧ node.symbol = .nonTerminal name ∧
      node.readOnly = false ∧ g.parse w name .complete = .ok parsed ∧
        t.replace f.path parsed = .ok u := by
  rw [applySuggestion?] at h
  obtain ⟨suggestion, -, h⟩ := Option.bind_eq_some_iff.mp h
  obtain ⟨name, hname, h⟩ := Option.bind_eq_some_iff.mp h
  obtain ⟨node, hnode, h⟩ := Option.bind_eq_some_iff.mp h
  split at h
  · exact absurd h (by simp)
  · rename_i hwritable
    obtain ⟨parsed, hparsed, h⟩ := Option.bind_eq_some_iff.mp h
    rw [Bool.or_eq_true, not_or, decide_eq_true_iff, not_not, Bool.not_eq_true] at hwritable
    exact ⟨name, node, _, parsed, hnode,
      hwritable.1.trans (Symbol.eq_nonTerminal_of_name? hname), hwritable.2,
      eq_ok_of_toOption hparsed, eq_ok_of_toOption h⟩

/-- **A property that suggestions keep is kept by repair**, up to the removal of nested parties in
the end. -/
theorem repair_induction {P : Tree → Prop}
    (hstep : ∀ {t u f}, P t → applySuggestion? g t f = some u → P u) {t : Tree} (ht : P t)
    (failing : List FailingTree) :
    (repair g t failing).1 = t ∨
      ∃ u, P u ∧ (repair g t failing).1 = u.stripNestedParties := by
  -- As long as nothing was applied, the tree is what it was.
  have hfold : ∀ (fs : List FailingTree) (acc : Tree × Bool), P acc.1 →
      (acc.2 = false → acc.1 = t) → P (fs.foldl (repairStep g) acc).1 ∧
        ((fs.foldl (repairStep g) acc).2 = false → (fs.foldl (repairStep g) acc).1 = t) := by
    intro fs
    induction fs with
    | nil => exact fun acc hacc hsame => ⟨hacc, hsame⟩
    | cons f fs ih =>
      intro acc hacc hsame
      rw [List.foldl_cons, repairStep]
      split
      · rename_i u hu
        exact ih (u, true) (hstep hacc hu) fun h => absurd h (by simp)
      · exact ih acc hacc hsame
  obtain ⟨hfolded, hsame⟩ :=
    hfold (failing.mergeSort fun a b => b.path.length ≤ a.path.length) (t, false) ht fun _ => rfl
  rw [repair]
  dsimp only
  split
  · exact Or.inr ⟨_, hfolded, rfl⟩
  · rename_i happlied
    exact Or.inl (hsame (Bool.eq_false_iff.mpr happlied))

end GrammarFuzzing
