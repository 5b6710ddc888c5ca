import GrammarFuzzing.Proofs.Grammar.Matching
import GrammarFuzzing.Tree.Path

/-!
# Valid trees

`GrammarFuzzing.Grammar.Valid` is validity as a property of a tree: terminals are leaves, and the
children of every other node are what the body of its rule stands for
(`GrammarFuzzing.Node.Matches`). It is what `GrammarFuzzing.Grammar.validate` checks
(`GrammarFuzzing.Grammar.Bounded.validate_eq_ok`).

Validity reads the symbols of a tree and nothing else, so it survives whatever only changes the
marks of nodes (`GrammarFuzzing.Grammar.valid_stripParties`,
`GrammarFuzzing.Grammar.valid_asReadOnly`).
-/

namespace GrammarFuzzing

/-! ### What trees render as -/

namespace Tree

@[simp] theorem listToBytes_nil : listToBytes [] = [] := by
  rw [listToBytes]

@[simp] theorem listToBytes_cons (t : Tree) (ts : List Tree) :
    listToBytes (t :: ts) = t.toBytes ++ listToBytes ts := by
  rw [listToBytes]

@[simp] theorem listToBytes_append (ts us : List Tree) :
    listToBytes (ts ++ us) = listToBytes ts ++ listToBytes us := by
  induction ts with
  | nil => simp
  | cons t ts ih => simp [ih]

@[simp] theorem toBytes_leaf (value : Literal) : (leaf value).toBytes = value.toBytes := by
  simp [leaf, toBytes, Symbol.toBytes]

theorem toBytes_nonTerminal {t : Tree} {name : String} (h : t.symbol = .nonTerminal name) :
    t.toBytes = listToBytes t.children := by
  obtain ⟨symbol, children, sources, sender, recipient, readOnly⟩ := t
  obtain rfl : symbol = .nonTerminal name := h
  simp [toBytes, Symbol.toBytes]

mutual

/-- **The literals of the terminals of a tree** from left to right. -/
def literals : Tree → List Literal
  | ⟨symbol, children, _, _, _, _⟩ => symbol.literal?.toList ++ listLiterals children

/-- The literals of several trees, one after the other. -/
def listLiterals : List Tree → List Literal
  | [] => []
  | t :: rest => t.literals ++ listLiterals rest

end

@[simp] theorem listLiterals_nil : listLiterals [] = [] := by
  rw [listLiterals]

@[simp] theorem listLiterals_cons (t : Tree) (ts : List Tree) :
    listLiterals (t :: ts) = t.literals ++ listLiterals ts := by
  rw [listLiterals]

@[simp] theorem listLiterals_append (ts us : List Tree) :
    listLiterals (ts ++ us) = listLiterals ts ++ listLiterals us := by
  induction ts with
  | nil => simp
  | cons t ts ih => simp [ih]

@[simp] theorem literals_leaf (value : Literal) : (leaf value).literals = [value] := by
  simp [leaf, literals, Symbol.literal?]

theorem literals_nonTerminal {t : Tree} {name : String} (h : t.symbol = .nonTerminal name) :
    t.literals = listLiterals t.children := by
  obtain ⟨symbol, children, sources, sender, recipient, readOnly⟩ := t
  obtain rfl : symbol = .nonTerminal name := h
  simp [literals, Symbol.literal?]

mutual

/-- **A tree renders as its terminals.** -/
theorem flatMap_literals : ∀ (t : Tree), t.literals.flatMap Literal.toBytes = t.toBytes
  | ⟨symbol, children, sources, sender, recipient, readOnly⟩ => by
    rw [literals, toBytes, List.flatMap_append, flatMap_listLiterals children]
    cases symbol <;> simp [Symbol.toBytes, Symbol.literal?]

theorem flatMap_listLiterals : ∀ (ts : List Tree),
    (listLiterals ts).flatMap Literal.toBytes = listToBytes ts
  | [] => by rw [listLiterals, listToBytes, List.flatMap_nil]
  | t :: ts => by
    rw [listLiterals, listToBytes, List.flatMap_append, flatMap_literals t,
      flatMap_listLiterals ts]

end

mutual

/-- The terminals of a tree are the literals of its nodes. -/
theorem literals_eq_nodes : ∀ (t : Tree),
    t.literals = t.nodes.filterMap fun n => n.2.symbol.literal?
  | ⟨symbol, children, sources, sender, recipient, readOnly⟩ => by
    rw [literals, nodes, listLiterals_eq_nodes children 0]
    cases symbol <;> simp [Symbol.literal?]

theorem listLiterals_eq_nodes : ∀ (ts : List Tree) (i : Nat),
    listLiterals ts = (listNodes i ts).filterMap fun n => n.2.symbol.literal?
  | [], i => by rw [listLiterals, listNodes, List.filterMap_nil]
  | t :: ts, i => by
    rw [listLiterals, listNodes, List.filterMap_append, List.filterMap_map,
      literals_eq_nodes t, listLiterals_eq_nodes ts (i + 1)]
    rfl

end

/-- **A tree renders as its terminals from left to right.** -/
theorem toBytes_eq_terminals (t : Tree) :
    t.toBytes = (t.nodes.filterMap fun n => n.2.symbol.literal?).flatMap Literal.toBytes := by
  rw [← literals_eq_nodes, flatMap_literals]

end Tree

/-! ### Validity -/

namespace Grammar

open Node

mutual

/-- **A tree derives from the grammar.** -/
def Valid (g : Grammar) : Tree → Prop
  | ⟨symbol, children, _, _, _, _⟩ =>
    match symbol with
    | .terminal _ => children = []
    | .slice => False
    | .nonTerminal name =>
      (∃ body, g.body? name = some body ∧ body.Matches children) ∧ ValidAll g children

/-- All of several trees derive from the grammar. -/
def ValidAll (g : Grammar) : List Tree → Prop
  | [] => True
  | t :: rest => Valid g t ∧ ValidAll g rest

end

variable {g : Grammar}

theorem validAll_iff {ts : List Tree} : g.ValidAll ts ↔ ∀ t ∈ ts, g.Valid t := by
  induction ts with
  | nil => simp [ValidAll]
  | cons t ts ih => simp [ValidAll, ih]

/-- A node of a symbol is valid when its children match and are valid. -/
theorem valid_nonTerminal {t : Tree} {name : String} (h : t.symbol = .nonTerminal name) :
    g.Valid t ↔ (∃ body, g.body? name = some body ∧ body.Matches t.children) ∧
      ∀ c ∈ t.children, g.Valid c := by
  obtain ⟨symbol, children, sources, sender, recipient, readOnly⟩ := t
  obtain rfl : symbol = .nonTerminal name := h
  rw [Valid, validAll_iff]

theorem valid_terminal {t : Tree} {value : Literal} (h : t.symbol = .terminal value) :
    g.Valid t ↔ t.children = [] := by
  obtain ⟨symbol, children, sources, sender, recipient, readOnly⟩ := t
  obtain rfl : symbol = .terminal value := h
  rw [Valid]

theorem valid_leaf (value : Literal) : g.Valid (Tree.leaf value) := by
  rw [Tree.leaf, Valid]

/-- A valid terminal has no terminals but itself. -/
theorem Valid.literals_terminal {t : Tree} {value : Literal} (ht : g.Valid t)
    (h : t.symbol = .terminal value) : t.literals = [value] := by
  have hchildren := (valid_terminal h).mp ht
  obtain ⟨symbol, children, sources, sender, recipient, readOnly⟩ := t
  obtain rfl : symbol = .terminal value := h
  obtain rfl : children = [] := hchildren
  simp [Tree.literals, Symbol.literal?]

/-- A valid terminal renders as its value. -/
theorem Valid.toBytes_terminal {t : Tree} {value : Literal} (ht : g.Valid t)
    (h : t.symbol = .terminal value) : t.toBytes = value.toBytes := by
  rw [← Tree.flatMap_literals, ht.literals_terminal h, List.flatMap_singleton]

/-- A valid node is a terminal, or a symbol that has a rule. -/
theorem Valid.symbol {t : Tree} (ht : g.Valid t) : t.symbol.isTerminal = true ∨
    ∃ name ∈ g.rules.keys, t.symbol = .nonTerminal name := by
  obtain ⟨symbol, children, sources, sender, recipient, readOnly⟩ := t
  cases symbol with
  | terminal value => exact Or.inl rfl
  | slice => exact ht.elim
  | nonTerminal name =>
    obtain ⟨⟨body, hbody, -⟩, -⟩ := ht
    exact Or.inr ⟨name, Dictionary.mem_keys_of_find? hbody, rfl⟩

/-- The children of a valid tree are valid. -/
theorem Valid.children {t : Tree} (ht : g.Valid t) : g.ValidAll t.children := by
  obtain ⟨symbol, children, sources, sender, recipient, readOnly⟩ := t
  cases symbol with
  | terminal value =>
    obtain rfl : children = [] := ht
    exact trivial
  | slice => exact ht.elim
  | nonTerminal name => exact ht.2

/-- **What is found at a path of a valid tree is valid.** -/
theorem Valid.of_get? {path : Path} {c : Tree} : ∀ {t : Tree}, g.Valid t → t.get? path = some c →
    g.Valid c := by
  induction path with
  | nil =>
    rintro t ht ⟨⟩
    exact ht
  | cons i path ih =>
    intro t ht hc
    rw [Tree.get?] at hc
    split at hc
    · rename_i d hd
      exact ih (validAll_iff.mp ht.children d (List.mem_of_getElem? hd)) hc
    · exact absurd hc (by simp)

mutual

/-- **All nodes of a valid tree are valid.** -/
theorem Valid.of_mem_nodes : ∀ {t : Tree} {n : Path × Tree}, g.Valid t → n ∈ t.nodes → g.Valid n.2
  | ⟨symbol, children, sources, sender, recipient, readOnly⟩, n, ht, hn => by
    rw [Tree.nodes, List.mem_cons] at hn
    rcases hn with rfl | hn
    · exact ht
    · exact validAll_of_mem_listNodes ht.children hn

theorem validAll_of_mem_listNodes : ∀ {ts : List Tree} {i : Nat} {n : Path × Tree},
    g.ValidAll ts → n ∈ Tree.listNodes i ts → g.Valid n.2
  | [], i, n, _, hn => by
    rw [Tree.listNodes] at hn
    exact absurd hn List.not_mem_nil
  | t :: ts, i, n, hts, hn => by
    rw [Tree.listNodes, List.mem_append] at hn
    rcases hn with hn | hn
    · obtain ⟨m, hm, rfl⟩ := List.mem_map.mp hn
      exact Valid.of_mem_nodes (n := m) hts.1 hm
    · exact validAll_of_mem_listNodes hts.2 hn

end

/-! ### Grammars that allow more -/

mutual

/-- **Validity survives rules that allow more.** -/
theorem Valid.of_rules {h : Grammar} (hrules : ∀ name body, g.body? name = some body →
    ∃ body', h.body? name = some body' ∧ ∀ cs, body.Matches cs → body'.Matches cs) :
    ∀ {t : Tree}, g.Valid t → h.Valid t
  | ⟨symbol, children, _, _, _, _⟩, ht => by
    cases symbol with
    | terminal value => exact ht
    | slice => exact ht.elim
    | nonTerminal name =>
      obtain ⟨⟨body, hbody, hmatch⟩, hvalid⟩ := ht
      obtain ⟨body', hbody', hmore⟩ := hrules name body hbody
      exact ⟨⟨body', hbody', hmore children hmatch⟩, ValidAll.of_rules hrules hvalid⟩

theorem ValidAll.of_rules {h : Grammar} (hrules : ∀ name body, g.body? name = some body →
    ∃ body', h.body? name = some body' ∧ ∀ cs, body.Matches cs → body'.Matches cs) :
    ∀ {ts : List Tree}, g.ValidAll ts → h.ValidAll ts
  | [], _ => trivial
  | _ :: _, hts => ⟨Valid.of_rules hrules hts.1, ValidAll.of_rules hrules hts.2⟩

end

/-! ### Checking -/

mutual

theorem Bounded.validateAt_eq_ok (hg : g.Bounded) :
    ∀ (t : Tree) (path : Path), g.validateAt path t = .ok () ↔ g.Valid t
  | ⟨.terminal value, children, _, _, _, _⟩, path => by
    rw [validateAt, Valid]
    cases children <;> simp
  | ⟨.slice, children, _, _, _, _⟩, path => by
    rw [validateAt, Valid]
    simp
  | ⟨.nonTerminal name, children, _, _, _, _⟩, path => by
    rw [validateAt, Valid]
    cases hbody : g.body? name with
    | none => simp
    | some body =>
      have hfits : body.fits children = true ↔ body.Matches children :=
        hg.fits_iff (occurs_of_body? hbody)
      have hchildren := hg.validateListAt_eq_ok children path 0
      by_cases hmatch : body.fits children = true
      · simp [hmatch, hfits.mp hmatch, hchildren]
      · have hno : ¬ body.Matches children := fun h => hmatch (hfits.mpr h)
        simp [hmatch, hno]

theorem Bounded.validateListAt_eq_ok (hg : g.Bounded) :
    ∀ (ts : List Tree) (path : Path) (i : Nat), g.validateListAt path i ts = .ok () ↔ g.ValidAll ts
  | [], path, i => by
    rw [validateListAt, ValidAll]
    simp
  | t :: ts, path, i => by
    have ht := hg.validateAt_eq_ok t (path ++ [i])
    have hts := hg.validateListAt_eq_ok ts path (i + 1)
    rw [validateListAt, ValidAll, ← ht, ← hts]
    cases g.validateAt (path ++ [i]) t <;> simp

end

/-- **Checking a tree finds nothing wrong exactly when the tree is valid.** -/
theorem Bounded.validate_eq_ok (hg : g.Bounded) {t : Tree} :
    g.validate t = .ok () ↔ g.Valid t :=
  hg.validateAt_eq_ok t []

/-! ### Only symbols matter -/

/-- Two lists carry the same symbols at the same places. -/
def SameSymbols (cs ds : List Tree) : Prop :=
  cs.map (·.symbol) = ds.map (·.symbol)

theorem SameSymbols.of_append {cs cs' ds : List Tree} (h : SameSymbols (cs ++ cs') ds) :
    ∃ es es', ds = es ++ es' ∧ SameSymbols cs es ∧ SameSymbols cs' es' := by
  rw [SameSymbols, List.map_append] at h
  obtain ⟨es, es', rfl, hes, hes'⟩ := List.map_eq_append_iff.mp h.symm
  exact ⟨es, es', rfl, hes.symm, hes'.symm⟩

theorem SameSymbols.of_singleton {c : Tree} {ds : List Tree} (h : SameSymbols [c] ds) :
    ∃ d, ds = [d] ∧ d.symbol = c.symbol := by
  obtain ⟨d, rfl, hd⟩ := List.map_eq_singleton_iff.mp h.symm
  exact ⟨d, rfl, hd⟩

theorem SameSymbols.eq_nil {ds : List Tree} (h : SameSymbols [] ds) : ds = [] :=
  List.map_eq_nil_iff.mp h.symm

theorem copies_of_sameSymbols {P : List Tree → Prop}
    (hP : ∀ {cs ds}, SameSymbols cs ds → P cs → P ds) :
    ∀ {k : Nat} {cs ds : List Tree}, SameSymbols cs ds → Copies P k cs → Copies P k ds
  | 0, _, _, hsymbols, h => by
    obtain rfl : _ = [] := h
    exact hsymbols.eq_nil
  | k + 1, _, _, hsymbols, h => by
    obtain ⟨cs, cs', rfl, hcs, hcs'⟩ := h
    obtain ⟨es, es', rfl, hes, hes'⟩ := hsymbols.of_append
    exact ⟨es, es', rfl, hP hes hcs, copies_of_sameSymbols hP hes' hcs'⟩

mutual

/-- **A match stays one when every child keeps its symbol.** -/
theorem matches_of_sameSymbols : ∀ {n : Node} {cs ds : List Tree}, SameSymbols cs ds →
    n.Matches cs → n.Matches ds
  | .terminal _ _, cs, ds, hsymbols, h | .charset _ _, cs, ds, hsymbols, h
  | .reference _ _ _ _, cs, ds, hsymbols, h => by
    rw [Matches] at h ⊢
    obtain ⟨c, rfl, hc⟩ := h
    obtain ⟨d, rfl, hd⟩ := hsymbols.of_singleton
    refine ⟨d, rfl, ?_⟩
    simpa [isLiteral, isOneOf, isNamed, hd] using hc
  | .sequence _ parts, cs, ds, hsymbols, h => by
    rw [Matches] at h ⊢
    exact matchesAll_of_sameSymbols hsymbols h
  | .choice _ options, cs, ds, hsymbols, h => by
    rw [Matches] at h ⊢
    exact matchesSome_of_sameSymbols hsymbols h
  | .repetition _ body min max _, cs, ds, hsymbols, h => by
    rw [Matches] at h ⊢
    obtain ⟨k, hmin, hmax, hcopies⟩ := h
    exact ⟨k, hmin, hmax, copies_of_sameSymbols (fun hes hm => matches_of_sameSymbols hes hm)
      hsymbols hcopies⟩

theorem matchesAll_of_sameSymbols : ∀ {ns : List Node} {cs ds : List Tree}, SameSymbols cs ds →
    MatchesAll ns cs → MatchesAll ns ds
  | [], _, _, hsymbols, h => by
    rw [MatchesAll] at h ⊢
    subst h
    exact hsymbols.eq_nil
  | n :: ns, _, _, hsymbols, h => by
    rw [MatchesAll] at h ⊢
    obtain ⟨cs, cs', rfl, hcs, hcs'⟩ := h
    obtain ⟨es, es', rfl, hes, hes'⟩ := hsymbols.of_append
    exact ⟨es, es', rfl, matches_of_sameSymbols hes hcs, matchesAll_of_sameSymbols hes' hcs'⟩

theorem matchesSome_of_sameSymbols : ∀ {ns : List Node} {cs ds : List Tree}, SameSymbols cs ds →
    MatchesSome ns cs → MatchesSome ns ds
  | [], _, _, _, h => by
    rw [MatchesSome] at h
    exact h.elim
  | n :: ns, _, _, hsymbols, h => by
    rw [MatchesSome] at h ⊢
    exact h.imp (matches_of_sameSymbols hsymbols) (matchesSome_of_sameSymbols hsymbols)

end

theorem matches_map {f : Tree → Tree} (hf : ∀ t, (f t).symbol = t.symbol) {n : Node}
    {cs : List Tree} (h : n.Matches cs) : n.Matches (cs.map f) := by
  refine matches_of_sameSymbols ?_ h
  rw [SameSymbols, List.map_map]
  exact List.map_congr_left fun t _ => (hf t).symm

/-- Marks of a node do not matter to its validity. -/
theorem valid_marks {symbol : Symbol} {children sources sources' : List Tree}
    {sender recipient sender' recipient' : Option String} {readOnly readOnly' : Bool} :
    g.Valid ⟨symbol, children, sources, sender, recipient, readOnly⟩ ↔
      g.Valid ⟨symbol, children, sources', sender', recipient', readOnly'⟩ := by
  cases symbol <;> simp only [Valid]

theorem valid_withParty {t : Tree} {sender recipient : Option String} :
    g.Valid (t.withParty sender recipient) ↔ g.Valid t := by
  cases t
  exact valid_marks

theorem valid_withSources {t : Tree} {sources : List Tree} :
    g.Valid (t.withSources sources) ↔ g.Valid t := by
  cases t
  exact valid_marks

/-- A node whose children were changed in their marks. -/
theorem valid_map_children {f : Tree → Tree} (hf : ∀ t, (f t).symbol = t.symbol) {symbol : Symbol}
    {children sources sources' : List Tree} {sender recipient sender' recipient' : Option String}
    {readOnly readOnly' : Bool}
    (h : g.Valid ⟨symbol, children, sources, sender, recipient, readOnly⟩)
    (hchildren : ∀ c ∈ children, g.Valid c → g.Valid (f c)) :
    g.Valid ⟨symbol, children.map f, sources', sender', recipient', readOnly'⟩ := by
  cases symbol with
  | terminal value =>
    obtain rfl : children = [] := h
    rfl
  | slice => exact h.elim
  | nonTerminal name =>
    obtain ⟨⟨body, hbody, hmatch⟩, hvalid⟩ := h
    refine ⟨⟨body, hbody, matches_map hf hmatch⟩, validAll_iff.mpr fun c hc => ?_⟩
    obtain ⟨d, hd, rfl⟩ := List.mem_map.mp hc
    exact hchildren d hd (validAll_iff.mp hvalid d hd)

end Grammar

/-! ### Parties and read-only marks -/

namespace Tree

theorem listStripParties_eq_map (inside : Bool) (ts : List Tree) :
    listStripParties inside ts = ts.map (stripParties inside) := by
  induction ts with
  | nil => rw [listStripParties, List.map_nil]
  | cons t ts ih => rw [listStripParties, ih, List.map_cons]

@[simp] theorem symbol_stripParties (inside : Bool) (t : Tree) :
    (t.stripParties inside).symbol = t.symbol := by
  obtain ⟨symbol, children, sources, sender, recipient, readOnly⟩ := t
  rw [stripParties]

theorem listAsReadOnly_eq_map (ts : List Tree) : listAsReadOnly ts = ts.map asReadOnly := by
  induction ts with
  | nil => rw [listAsReadOnly, List.map_nil]
  | cons t ts ih => rw [listAsReadOnly, ih, List.map_cons]

@[simp] theorem symbol_asReadOnly (t : Tree) : t.asReadOnly.symbol = t.symbol := by
  obtain ⟨symbol, children, sources, sender, recipient, readOnly⟩ := t
  rw [asReadOnly]

mutual

@[simp] theorem toBytes_stripParties : ∀ (inside : Bool) (t : Tree),
    (t.stripParties inside).toBytes = t.toBytes
  | inside, ⟨symbol, children, sources, sender, recipient, readOnly⟩ => by
    rw [stripParties, toBytes, toBytes, listToBytes_stripParties]

theorem listToBytes_stripParties : ∀ (inside : Bool) (ts : List Tree),
    listToBytes (listStripParties inside ts) = listToBytes ts
  | inside, [] => by rw [listStripParties]
  | inside, t :: ts => by
    rw [listStripParties, listToBytes, listToBytes, toBytes_stripParties,
      listToBytes_stripParties]

end

mutual

@[simp] theorem toBytes_asReadOnly : ∀ t : Tree, t.asReadOnly.toBytes = t.toBytes
  | ⟨symbol, children, sources, sender, recipient, readOnly⟩ => by
    rw [asReadOnly, toBytes, toBytes, listToBytes_asReadOnly]

theorem listToBytes_asReadOnly : ∀ ts : List Tree, listToBytes (listAsReadOnly ts) = listToBytes ts
  | [] => by rw [listAsReadOnly]
  | t :: ts => by
    rw [listAsReadOnly, listToBytes, listToBytes, toBytes_asReadOnly, listToBytes_asReadOnly]

end

theorem toBytes_withParty (t : Tree) (sender recipient : Option String) :
    (t.withParty sender recipient).toBytes = t.toBytes := by
  cases t
  rw [withParty, toBytes, toBytes]

theorem toBytes_withSources (t : Tree) (sources : List Tree) :
    (t.withSources sources).toBytes = t.toBytes := by
  cases t
  rw [withSources, toBytes, toBytes]

end Tree

namespace Grammar

variable {g : Grammar}

mutual

/-- **Parties do not matter to validity.** -/
theorem valid_stripParties : ∀ (t : Tree) (inside : Bool),
    g.Valid t → g.Valid (t.stripParties inside)
  | ⟨symbol, children, sources, sender, recipient, readOnly⟩, inside, h => by
    rw [Tree.stripParties, Tree.listStripParties_eq_map]
    exact valid_map_children (Tree.symbol_stripParties _) h
      (validList_stripParties children (inside || sender.isSome))

theorem validList_stripParties : ∀ (ts : List Tree) (inside : Bool), ∀ c ∈ ts, g.Valid c →
    g.Valid (c.stripParties inside)
  | [], _, c, hc, _ => absurd hc List.not_mem_nil
  | t :: ts, inside, c, hc, h => by
    rcases List.mem_cons.mp hc with hc | hc
    · rw [hc] at h ⊢
      exact valid_stripParties t inside h
    · exact validList_stripParties ts inside c hc h

end

mutual

/-- **Read-only marks do not matter to validity.** -/
theorem valid_asReadOnly : ∀ (t : Tree), g.Valid t → g.Valid t.asReadOnly
  | ⟨symbol, children, sources, sender, recipient, readOnly⟩, h => by
    rw [Tree.asReadOnly, Tree.listAsReadOnly_eq_map]
    exact valid_map_children Tree.symbol_asReadOnly h (validList_asReadOnly children)

theorem validList_asReadOnly : ∀ (ts : List Tree), ∀ c ∈ ts, g.Valid c → g.Valid c.asReadOnly
  | [], c, hc, _ => absurd hc List.not_mem_nil
  | t :: ts, c, hc, h => by
    rcases List.mem_cons.mp hc with hc | hc
    · rw [hc] at h ⊢
      exact valid_asReadOnly t h
    · exact validList_asReadOnly ts c hc h

end

end Grammar

end GrammarFuzzing
