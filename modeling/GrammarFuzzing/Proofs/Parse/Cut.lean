import GrammarFuzzing.Proofs.Parse.Sentence
import GrammarFuzzing.Proofs.Text.ReadBack
import GrammarFuzzing.Proofs.Tree.Shape

/-!
# Trees that break off

In incomplete mode the input may be the beginning of something that the symbol derives. The tree
that is parsed then is a **left cut** of a tree that goes on (`GrammarFuzzing.Tree.LeftCut`): it has
all that stands to the left of a way down from the root, and on the way nothing to the right. The
way ends between two children, or in a terminal of which only the first bytes are there
(`GrammarFuzzing.Literal.Cuts`).

The search for such a tree leaves out what it does not come to: the atoms after the one that the
input ends in, at every level. Where no goal is a dead end, each of them derives something, and the
trees that were found are a left cut of those found with these added
(`GrammarFuzzing.Search.ensures_partialGoal`). Goals that dissolve make no level of their own: what
is left out after them is left out of the node around them.

The root of what is parsed is a left cut of a valid tree in this way
(`GrammarFuzzing.Document.parse_incomplete_cut`).
-/

namespace GrammarFuzzing

/-! ### Cuts -/

/-- **A literal with the first bytes of another one**, which is a text like it unless the cut is
inside a character. -/
inductive Literal.Cuts : Literal → Literal → Prop
  | text {s t : String} : Utf8.encode s <+: Utf8.encode t → Cuts (.text s) (.text t)
  | character {b : Bytes} {t : String} : b <+: Utf8.encode t → (∀ s, Utf8.encode s ≠ b) →
    Cuts (.bytes b) (.text t)
  | bytes {b c : Bytes} : b <+: c → Cuts (.bytes b) (.bytes c)

theorem Literal.Cuts.toBytes_prefix {value whole : Literal} (h : value.Cuts whole) :
    value.toBytes <+: whole.toBytes := by
  cases h with
  | text h => exact h
  | character h _ => exact h
  | bytes h => exact h

namespace Tree

/-- **A tree is a left cut of another one**: the children at its root are the first ones of the
other tree, all but perhaps the last one, which is a left cut itself. A terminal may be cut. -/
inductive LeftCut : Tree → Tree → Prop
  | literal {value whole : Literal} : value.Cuts whole → LeftCut (leaf value) (leaf whole)
  | stop {t : Tree} {kept omitted : List Tree} : t.children = kept ++ omitted →
    LeftCut { t with children := kept } t
  | last {t c whole : Tree} {kept omitted : List Tree} : t.children = kept ++ whole :: omitted →
    LeftCut c whole → LeftCut { t with children := kept ++ [c] } t

/-- Several trees are a left cut of others. -/
inductive ListLeftCut : List Tree → List Tree → Prop
  | stop (kept omitted : List Tree) : ListLeftCut kept (kept ++ omitted)
  | last {c whole : Tree} (kept omitted : List Tree) : LeftCut c whole →
    ListLeftCut (kept ++ [c]) (kept ++ whole :: omitted)

variable {t whole : Tree} {ts wholes : List Tree}

/-- A node over trees that are a left cut. -/
theorem ListLeftCut.node (h : ListLeftCut ts wholes) (symbol : Symbol) (sources : List Tree)
    (sender recipient : Option String) (readOnly : Bool) :
    LeftCut ⟨symbol, ts, sources, sender, recipient, readOnly⟩
      ⟨symbol, wholes, sources, sender, recipient, readOnly⟩ := by
  cases h with
  | stop _ omitted =>
    exact @LeftCut.stop ⟨symbol, _, sources, sender, recipient, readOnly⟩ _ _ rfl
  | last kept omitted hlast =>
    exact @LeftCut.last ⟨symbol, _, sources, sender, recipient, readOnly⟩ _ _ _ _ rfl hlast

theorem ListLeftCut.append_left (us : List Tree) (h : ListLeftCut ts wholes) :
    ListLeftCut (us ++ ts) (us ++ wholes) := by
  cases h with
  | stop _ omitted =>
    rw [← List.append_assoc]
    exact .stop (us ++ ts) omitted
  | last kept omitted hlast =>
    rw [← List.append_assoc, ← List.append_assoc]
    exact .last (us ++ kept) omitted hlast

/-- What comes after a cut is left out. -/
theorem ListLeftCut.append_right (h : ListLeftCut ts wholes) (us : List Tree) :
    ListLeftCut ts (wholes ++ us) := by
  cases h with
  | stop _ omitted =>
    rw [List.append_assoc]
    exact .stop ts (omitted ++ us)
  | last kept omitted hlast =>
    rw [List.append_assoc, List.cons_append]
    exact .last kept (omitted ++ us) hlast

/-- **A left cut renders as the beginning** of what the whole tree renders as. -/
theorem LeftCut.toBytes_prefix (h : t.LeftCut whole) : t.toBytes <+: whole.toBytes := by
  induction h with
  | literal h =>
    rw [toBytes_leaf, toBytes_leaf]
    exact h.toBytes_prefix
  | @stop t kept omitted hchildren =>
    rw [toBytes_eq t, toBytes_eq, hchildren, listToBytes_append, ← List.append_assoc]
    exact List.prefix_append _ _
  | @last t c whole kept omitted hchildren _ ih =>
    obtain ⟨more, hmore⟩ := ih
    refine ⟨more ++ listToBytes omitted, ?_⟩
    rw [toBytes_eq t, toBytes_eq, hchildren]
    simp only [listToBytes_append, listToBytes_cons, listToBytes_nil, ← hmore, List.append_assoc,
      List.append_nil]

/-- Parties are removed alike on both sides of a cut. -/
theorem LeftCut.stripParties (h : t.LeftCut whole) :
    ∀ inside, (t.stripParties inside).LeftCut (whole.stripParties inside) := by
  induction h with
  | literal h =>
    intro inside
    have hleaf : ∀ value, (leaf value).stripParties inside = leaf value := by
      intro value
      rw [leaf, Tree.stripParties, listStripParties]
      cases inside <;> rfl
    rw [hleaf, hleaf]
    exact .literal h
  | @stop t kept omitted hchildren =>
    intro inside
    obtain ⟨symbol, children, sources, sender, recipient, readOnly⟩ := t
    obtain rfl : children = kept ++ omitted := hchildren
    rw [Tree.stripParties, Tree.stripParties, listStripParties_eq_map, listStripParties_eq_map,
      List.map_append]
    exact (ListLeftCut.stop _ _).node ..
  | @last t c whole kept omitted hchildren _ ih =>
    intro inside
    obtain ⟨symbol, children, sources, sender, recipient, readOnly⟩ := t
    obtain rfl : children = kept ++ whole :: omitted := hchildren
    rw [Tree.stripParties, Tree.stripParties, listStripParties_eq_map, listStripParties_eq_map,
      List.map_append, List.map_append, List.map_singleton, List.map_cons]
    exact (ListLeftCut.last _ _ (ih _)).node ..

end Tree

/-! ### Searching for what is begun -/

namespace Search

open FlatGrammar

variable {f : FlatGrammar} {chart : Chart} {input : Array UInt8} {P : Goal → Prop}

/-- **The first bytes of a literal are there**: they are a cut of it. -/
theorem cuts_cutLiteral {value : Literal} {b : Bytes} (h : b <+: value.toBytes) :
    (cutLiteral value b).Cuts value ∧ (cutLiteral value b).toBytes = b := by
  cases value with
  | bytes whole => exact ⟨.bytes h, rfl⟩
  | text whole =>
    cases hs : Utf8.decode? b with
    | some s =>
      have hbytes := Utf8.encode_of_decode? h hs
      simp only [cutLiteral, hs]
      exact ⟨.text (hbytes ▸ h), hbytes⟩
    | none =>
      simp only [cutLiteral, hs]
      refine ⟨.character h fun s hbytes => ?_, rfl⟩
      rw [← hbytes, Utf8.decode?_encode] at hs
      exact Option.some_ne_none s hs

/-- **Trees for the rest of the input that are a left cut of trees that atoms derive.** -/
structure Breaks (f : FlatGrammar) (input : Array UInt8) (atoms : List Atom) (i : Nat)
    (ts : List Tree) : Prop where
  cut : ∃ wholes, f.Derives atoms wholes ∧ Tree.ListLeftCut ts wholes
  bytes : Tree.listToBytes ts = input.toList.drop i

/-- Such trees for one of the alternatives of a goal. -/
def GoalBreaks (f : FlatGrammar) (input : Array UInt8) (goal : Goal) (i : Nat) (ts : List Tree) :
    Prop :=
  ∃ atoms, f.Alternative goal atoms ∧ Breaks f input atoms i ts

/-- A literal that is there, and what breaks off after it. -/
theorem Breaks.literal {value : Literal} {rest : List Atom} {i : Nat} {ts : List Tree}
    (hvalue : Chart.bytesAt input i value.toBytes = true)
    (h : Breaks f input rest (i + value.toBytes.length) ts) :
    Breaks f input (.literal value :: rest) i (Tree.leaf value :: ts) := by
  obtain ⟨wholes, hwholes, hcut⟩ := h.cut
  refine ⟨⟨_, .literal hwholes, hcut.append_left [_]⟩, ?_⟩
  rw [Tree.listToBytes_cons, Tree.toBytes_leaf, h.bytes, Chart.append_drop_of_bytesAt hvalue]

/-- **A literal that breaks off**, before atoms that derive something. -/
theorem Breaks.cutLiteral {value : Literal} {rest : List Atom} {i : Nat} {others : List Tree}
    (hvalue : input.toList.drop i <+: value.toBytes) (hrest : f.Derives rest others) :
    Breaks f input (.literal value :: rest) i
      [Tree.leaf (cutLiteral value (input.toList.drop i))] := by
  obtain ⟨hcuts, hbytes⟩ := cuts_cutLiteral hvalue
  refine ⟨⟨_, .literal hrest, .last [] others (.literal hcuts)⟩, ?_⟩
  rw [Tree.listToBytes_cons, Tree.toBytes_leaf, Tree.listToBytes_nil, List.append_nil, hbytes]

/-- A goal that was read whole, and what breaks off after it. -/
theorem Breaks.goal {goal : Goal} {sender recipient : Option String} {rest : List Atom} {i m : Nat}
    {cs ts : List Tree} (hcs : GoalBuilds f input goal i m cs) (h : Breaks f input rest m ts) :
    Breaks f input (.goal goal sender recipient :: rest) i
      (wrap goal sender recipient cs ++ ts) := by
  obtain ⟨atoms, halt, hcs⟩ := hcs
  obtain ⟨wholes, hwholes, hcut⟩ := h.cut
  refine ⟨⟨_, .goal halt hcs.derives hwholes, hcut.append_left _⟩, ?_⟩
  rw [Tree.listToBytes_append, listToBytes_wrap, h.bytes, hcs.stop,
    Chart.append_drop_of_bytesAt hcs.bytes]

/-- **A goal that breaks off**, before atoms that derive something. -/
theorem GoalBreaks.atom {goal : Goal} {sender recipient : Option String} {rest : List Atom}
    {i : Nat} {cs others : List Tree} (h : GoalBreaks f input goal i cs)
    (hrest : f.Derives rest others) : Breaks f input (.goal goal sender recipient :: rest) i
      (wrap goal sender recipient cs) := by
  obtain ⟨atoms, halt, ⟨wholes, hwholes, hcut⟩, hbytes⟩ := h
  refine ⟨⟨_, .goal halt hwholes hrest, ?_⟩, by rw [listToBytes_wrap, hbytes]⟩
  cases goal with
  | named name => exact .last [] others (hcut.node ..)
  | inner | tail => exact hcut.append_right others

/-- **What is found for atoms as far as the input goes breaks off**, if the same holds of goals, and
the goals are no dead ends. -/
theorem ensures_partialAtoms (hP : f.Live P) {child : Goal → Nat → Nat → Search}
    {partialChild : Goal → Nat → Search}
    (hchild : ∀ goal i j, Ensures (child goal i j) (GoalBuilds f input goal i j))
    (hpartial : ∀ goal i, P goal → Ensures (partialChild goal i) (GoalBreaks f input goal i)) :
    ∀ (atoms : List Atom) (i : Nat), GoalsIn P atoms →
      Ensures (partialAtoms chart input child partialChild atoms i) (Breaks f input atoms i)
  | [], i, _ => by
    rw [partialAtoms]
    split
    · rename_i hi
      refine ensures_some ⟨⟨[], .nil, .stop [] []⟩, ?_⟩
      rw [hi, ← Array.length_toList, List.drop_length, Tree.listToBytes_nil]
    · exact ensures_none
  | atom :: rest, i, hatoms => by
    obtain ⟨-, wholes, hwholes, -⟩ := hP.exists_yields hatoms
    obtain ⟨-, others, hothers, -⟩ := hP.exists_yields hatoms.tail
    rw [partialAtoms.eq_def]
    split
    · rename_i hi
      refine ensures_some ⟨⟨wholes, hwholes, .stop [] wholes⟩, ?_⟩
      rw [hi, ← Array.length_toList, List.drop_length, Tree.listToBytes_nil]
    · cases atom with
      | literal value =>
        simp only
        split
        · rename_i hvalue
          have hleaf : Ensures (return some [Tree.leaf value]) (fun ts => ts = [Tree.leaf value]) :=
            ensures_some rfl
          refine (ensures_before hleaf
            (ensures_partialAtoms hP hchild hpartial rest _ hatoms.tail)).mono ?_
          rintro ts ⟨cs, us, rfl, rfl, hus⟩
          exact .literal (Chart.bytesAt_iff_starts.mpr (List.isPrefixOf_iff_prefix.mp hvalue)) hus
        · split
          · rename_i hcut
            exact ensures_some (.cutLiteral (List.isPrefixOf_iff_prefix.mp hcut) hothers)
          · exact ensures_none
      | goal goal sender recipient =>
        refine ensures_otherwise (ensures_first fun m _ => ?_) ?_
        · refine (ensures_before ((hchild goal i m).wrapped goal sender recipient)
            (ensures_partialAtoms hP hchild hpartial rest m hatoms.tail)).mono ?_
          rintro ts ⟨ds, us, rfl, ⟨cs, rfl, hcs⟩, hus⟩
          exact .goal hcs hus
        · refine ((hpartial goal i hatoms.head).wrapped goal sender recipient).mono ?_
          rintro ts ⟨cs, rfl, hcs⟩
          exact hcs.atom hothers

/-- **What is found for a goal as far as the input goes breaks off**, if the goal leads to no dead
end. -/
theorem ensures_partialGoal (hf : f.Listed) (hP : f.Live P) {child : Goal → Nat → Nat → Search}
    (hchild : ∀ goal i j, Ensures (child goal i j) (GoalBuilds f input goal i j)) :
    ∀ (depth : Nat) (goal : Goal) (i : Nat), P goal →
      Ensures (partialGoal f chart input child depth goal i) (GoalBreaks f input goal i)
  | 0, _, _, _ => ensures_none
  | depth + 1, goal, i, hgoal => by
    rw [partialGoal]
    refine (Ensures.noting (Ensures.during (ensures_first fun k hk => ?_) _ _) _).guarded _
    obtain ⟨p, hp, rfl⟩ := (hf k goal).mp hk
    have halt : f.Alternative p.goal p.atoms.toList := ⟨k, p, hp, rfl, rfl⟩
    simp only [hp]
    exact (ensures_partialAtoms hP hchild (ensures_partialGoal hf hP hchild depth) _ i
      (hP.closed hgoal halt)).mono fun ts hts => ⟨_, halt, hts⟩

/-- Trees that were built from the whole input break off nowhere. -/
theorem GoalBuilds.goalBreaks {goal : Goal} {cs : List Tree}
    (h : GoalBuilds f input goal 0 input.size cs) : GoalBreaks f input goal 0 cs := by
  obtain ⟨atoms, halt, hbuilds⟩ := h
  have hlength := hbuilds.stop
  rw [Nat.zero_add] at hlength
  refine ⟨atoms, halt, ⟨cs, hbuilds.derives, ?_⟩, ?_⟩
  · have hcut := Tree.ListLeftCut.stop cs []
    rwa [List.append_nil] at hcut
  · rw [List.drop_zero]
    exact Chart.bytesAt_zero_iff.mp ⟨hbuilds.bytes, hlength.symm⟩

/-- **The children that are found in incomplete mode break off** where the input ends. -/
theorem goalBreaks_of_children? (hf : f.Listed) (hP : f.Live P) {root : Goal} (hroot : P root)
    {cs : List Tree} (h : f.children? chart input root .incomplete = some cs) :
    GoalBreaks f input root 0 cs := by
  rw [children?] at h
  split at h
  · have hwhole : ∀ goal i j,
        Ensures (goalChildren f chart input (f.nestingBound input.size) goal i j)
          (GoalBuilds f input goal i j) := ensures_goalChildren hf _
    exact ensures_otherwise ((hwhole root 0 input.size).mono fun _ => GoalBuilds.goalBreaks)
      (ensures_partialGoal hf hP hwhole _ root 0 hroot) _ cs h
  · exact absurd h (by simp)

end Search

/-- **An incomplete parse is a cut of a complete derivation.** The tree renders as the input, and it
is a left cut of a valid tree of the symbol, which begins with the input. -/
theorem Document.parse_incomplete_cut {doc : Document} {g : Grammar} (h : doc.toGrammar = .ok g)
    (hbare : g.BareNames) (hchars : g.NoEmptyCharset) {s : String} (hs : s ∈ g.rules.keys)
    {w : Bytes} {t : Tree} (hparse : g.parse w s .incomplete = .ok t) :
    t.toBytes = w ∧ ∃ whole : Tree, whole.symbol = .nonTerminal s ∧ g.validate whole = .ok () ∧
      w <+: whole.toBytes ∧ t.symbol = whole.symbol ∧ t.LeftCut whole := by
  have hg := wellFormed_of_toGrammar h
  have hmakes := hg.makes (Draft.builds_of_build h).isProductive hchars
  obtain ⟨cs, hcs, rfl⟩ := (Grammar.parse_eq_ok hbare hs).mp hparse
  obtain ⟨atoms, halt, ⟨wholes, hwholes, hcut⟩, hbytes⟩ :=
    Search.goalBreaks_of_children? (FlatGrammar.listed_of g) (hmakes.live hg) (.named hs) hcs
  have hvalid : g.Valid (Tree.branch s wholes) := (hwholes.annotated hg hbare halt).valid
  have hnode := (hcut.node (.nonTerminal s) [] none none false).stripParties false
  have hrender : (Tree.branch s cs).stripNestedParties.toBytes = w := by
    rw [Tree.stripNestedParties, Tree.toBytes_stripParties, Tree.toBytes_nonTerminal rfl]
    simpa [Tree.branch] using hbytes
  refine ⟨hrender, (Tree.branch s wholes).stripNestedParties, ?_, ?_, ?_, ?_, hnode⟩
  · rw [Tree.stripNestedParties, Tree.symbol_stripParties, Tree.branch]
  · exact hg.validate_eq_ok.mpr (Grammar.valid_stripParties _ _ hvalid)
  · rw [← hrender]
    exact hnode.toBytes_prefix
  · rw [Tree.stripNestedParties, Tree.stripNestedParties, Tree.symbol_stripParties,
      Tree.symbol_stripParties, Tree.branch]

/-- The first byte of the letter is parsed as a word that breaks off inside the letter. -/
theorem Document.parse_incomplete_cut_accented : ∃ g t, accented.toGrammar = .ok g ∧
    g.parse [0xc3] "word" .incomplete = .ok t ∧ t.toBytes = [0xc3] ∧
      ∃ whole : Tree, whole.symbol = .nonTerminal "word" ∧ g.validate whole = .ok () ∧
        [0xc3] <+: whole.toBytes ∧ t.symbol = whole.symbol ∧ t.LeftCut whole := by
  have h : accented.toGrammar = .ok _ := rfl
  have hg := wellFormed_of_toGrammar h
  have hbare : ∀ name ∈ ["word"], bareName name = name := by decide
  have hs : "word" ∈ ["word"] := by decide
  have hmakes := hg.makes (Draft.builds_of_build h).isProductive (by decide)
  have hword : Grammar.recognize _ ([0xc3] ++ [0xa9, 0, 255]) "word" .complete = true :=
    (hg.recognize_iff_valid hbare hs _).mpr
      ⟨.branch "word" [.leaf (.text "é"), .leaf (.bytes [0, 255])], rfl,
        hg.validate_eq_ok.mp rfl, rfl⟩
  obtain ⟨t, ht⟩ := hg.exists_parse_incomplete hbare hs (hg.noEmptyLoop (by decide))
    ((hg.recognize_incomplete_iff hbare hmakes hs [0xc3]).mpr ⟨_, hword⟩)
  exact ⟨_, t, h, ht, parse_incomplete_cut h hbare (by decide) hs ht⟩

end GrammarFuzzing
