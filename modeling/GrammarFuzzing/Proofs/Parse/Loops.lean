import GrammarFuzzing.Proofs.Grammar.Reach
import GrammarFuzzing.Proofs.Parse.Avoidance
import GrammarFuzzing.Proofs.Parse.Meaning
import GrammarFuzzing.Tree.Path

/-!
# Grammars without empty loops

An **empty loop** is a tree that renders as nothing and has its root symbol once more below the root
(`GrammarFuzzing.Tree.IsEmptyLoop`). Without valid ones no goal of the flat form leads back to
itself by productions that yield nothing (`GrammarFuzzing.Grammar.WellFormed.loopless`), which is
what searching for a derivation asks for. Whether there is one need not be asked when no rule that
can derive nothing leads back to itself
(`GrammarFuzzing.Grammar.WellFormed.noEmptyLoop_of_vanishing`), let alone when no rule can derive
nothing (`GrammarFuzzing.Grammar.WellFormed.noEmptyLoop`).

A way from a goal back to itself passes a symbol: as long as it passes goals of nodes only, each
node lies in the one before it. And a way from a symbol back to itself spells out a tree, with the
symbol at the root and on the way down.
-/

namespace GrammarFuzzing

/-- **An empty loop**: a tree that renders as nothing and has its root symbol again below the
root. -/
def Tree.IsEmptyLoop (t : Tree) : Prop :=
  t.toBytes = [] ∧ ∃ path c, path ≠ [] ∧ t.get? path = some c ∧ c.symbol = t.symbol

/-- A tree with an empty loop in it. -/
def Tree.HasEmptyLoop (t : Tree) : Prop :=
  ∃ path u, t.get? path = some u ∧ u.IsEmptyLoop

/-- **No valid tree is an empty loop.** -/
def Grammar.NoEmptyLoop (g : Grammar) : Prop :=
  ∀ t, g.validate t = .ok () → ¬ t.IsEmptyLoop

/-- **No valid tree of an input has an empty loop in it.** -/
def Grammar.NoEmptyLoopIn (g : Grammar) (s : String) (w : Bytes) : Prop :=
  ∀ t, t.symbol = .nonTerminal s → g.validate t = .ok () → t.toBytes = w → ¬ t.HasEmptyLoop

namespace FlatGrammar

variable {g : Grammar}

/-- The first alternative of a tail of a grammar is to stop. -/
theorem tailsStop_of (g : Grammar) : (of g).TailsStop := by
  intro goal k ks htail hks
  have hordered := (collects_of g).ordered goal
  rw [hks, List.map_cons] at hordered
  cases hlookup : (entriesOf g).lookup goal with
  | none =>
    rw [hlookup] at hordered
    exact absurd hordered (by simp)
  | some alts =>
    rw [hlookup] at hordered
    rcases own_of_mem_entriesOf (mem_of_lookup hlookup) with ⟨name, rfl⟩ | ⟨n, -, hown⟩
    · exact absurd htail (by simp [Goal.isTail])
    · have hfirst : ∃ rest, alts = [] :: rest := by
        cases n with
        | terminal | reference | sequence => simp [Node.ownAlternatives] at hown
        | charset | choice =>
          rw [Node.ownAlternatives, List.mem_singleton] at hown
          rw [(Prod.mk.inj hown).1] at htail
          exact absurd htail (by simp [Goal.isTail])
        | repetition =>
          rw [Node.ownAlternatives, List.mem_cons, Node.mem_tails] at hown
          rcases hown with hown | ⟨-, -, rfl⟩ | ⟨-, -, -, -, -, rfl⟩
          · rw [(Prod.mk.inj hown).1] at htail
            exact absurd htail (by simp [Goal.isTail])
          · exact ⟨_, rfl⟩
          · exact ⟨_, rfl⟩
      obtain ⟨rest, rfl⟩ := hfirst
      exact (List.cons.inj hordered).1

/-! ### Ways that pass no symbol -/

/-- **A goal in an alternative of a node** is a symbol, a tail, or a node in the node. -/
theorem goal_of_alternative_inner {id : Nat} {atoms : List Atom}
    (halt : (of g).Alternative (.inner id) atoms) {goal : Goal} {sender recipient : Option String}
    (hgoal : Atom.goal goal sender recipient ∈ atoms) :
    (∃ name, goal = .named name) ∨ goal.isTail = true ∨
      ∃ n m, g.Occurs n ∧ g.Occurs m ∧ n.id = id ∧ goal = .inner m.id ∧ sizeOf m < sizeOf n := by
  -- The goal belongs to a node `m` in a part `k` of the node.
  have hpart : ∀ {n k m : Node}, g.Occurs n → n.id = id → k ∈ n.subnodes → sizeOf k < sizeOf n →
      m ∈ k.subnodes → goal = .inner m.id → ∃ n m, g.Occurs n ∧ g.Occurs m ∧ n.id = id ∧
        goal = .inner m.id ∧ sizeOf m < sizeOf n := by
    intro n k m hn hid hk hlt hm hgoal
    refine ⟨n, m, hn, hn.of_mem_subnodes (Node.subnodes_trans hm hk), hid, hgoal, ?_⟩
    rcases Node.eq_or_sizeOf_lt_of_mem_subnodes hm with rfl | hlt'
    · exact hlt
    · omega
  rcases own_of_alternative halt with ⟨name, hname⟩ | ⟨n, alts, hn, hown, hatoms⟩
  · exact absurd hname (by simp)
  · have hid : n.id = id := (Option.some.inj (Node.goal_node?_of_mem_own hown)).symm
    cases n with
    | terminal | reference | sequence => simp [Node.ownAlternatives] at hown
    | charset =>
      rw [Node.ownAlternatives, List.mem_singleton] at hown
      rw [(Prod.mk.inj hown).2] at hatoms
      obtain ⟨c, -, rfl⟩ := List.mem_map.mp hatoms
      simp at hgoal
    | choice id' options =>
      rw [Node.ownAlternatives, List.mem_singleton] at hown
      rw [(Prod.mk.inj hown).2] at hatoms
      obtain ⟨k, hk, rfl⟩ := List.mem_map.mp hatoms
      refine (Node.goal_of_mem_flatten hgoal).imp (fun ⟨_, name, h, _⟩ => ⟨name, h⟩)
        fun h => Or.inr ?_
      obtain ⟨m, hm, _, hinner, -⟩ := h
      refine hpart hn hid (Node.mem_subnodes_choice hk k.mem_subnodes_self) ?_ hm hinner
      have := List.sizeOf_lt_of_mem hk
      simp only [Node.choice.sizeOf_spec]
      omega
    | repetition id' body min max form =>
      rw [Node.ownAlternatives, List.mem_cons, Node.mem_tails] at hown
      rcases hown with hown | ⟨-, hno, -⟩ | ⟨m, n, -, -, hno, -⟩
      · rw [(Prod.mk.inj hown).2, List.mem_singleton] at hatoms
        rw [hatoms, List.mem_append] at hgoal
        rcases hgoal with hgoal | hgoal
        · obtain ⟨element, helement, hgoal⟩ := List.mem_flatten.mp hgoal
          rw [List.eq_of_mem_replicate helement] at hgoal
          refine (Node.goal_of_mem_flatten hgoal).imp (fun ⟨_, name, h, _⟩ => ⟨name, h⟩)
            fun h => Or.inr ?_
          obtain ⟨m, hm, _, hinner, -⟩ := h
          refine hpart hn hid (Node.mem_subnodes_repetition body.mem_subnodes_self) ?_ hm hinner
          simp only [Node.repetition.sizeOf_spec]
          omega
        · obtain ⟨alts, htails⟩ := Node.tails_of_mem_tailAtoms body.flatten hgoal
          rcases Node.mem_tails.mp htails with ⟨-, rfl, -⟩ | ⟨-, -, -, -, rfl, -⟩ <;>
            exact Or.inr (Or.inl rfl)
      · exact absurd hno (by simp)
      · exact absurd hno (by simp)

end FlatGrammar

namespace Grammar

open FlatGrammar Relation

variable {g : Grammar}

/-- **A way passes a symbol, or ends at a tail, or leads from a node to a node in it.** -/
theorem WellFormed.transGen_below (hg : g.WellFormed) {above goal : Goal}
    (h : TransGen (of g).Below above goal) :
    (∃ name, ReflTransGen (of g).Below above (.named name) ∧
        ReflTransGen (of g).Below (.named name) goal) ∨
      goal.isTail = true ∨ ∃ n m, g.Occurs n ∧ g.Occurs m ∧ above = .inner n.id ∧
        goal = .inner m.id ∧ sizeOf m < sizeOf n := by
  -- A single step, which a tail does not make.
  have hstep : ∀ {above goal : Goal}, (of g).Below above goal →
      (∃ name, above = .named name) ∨ (∃ name, goal = .named name) ∨ goal.isTail = true ∨
        ∃ n m, g.Occurs n ∧ g.Occurs m ∧ above = .inner n.id ∧ goal = .inner m.id ∧
          sizeOf m < sizeOf n := by
    rintro above goal ⟨htail, atoms, halt, -, sender, recipient, hgoal⟩
    cases above with
    | named name => exact Or.inl ⟨name, rfl⟩
    | tail => exact absurd htail (by simp [Goal.isTail])
    | inner id =>
      refine Or.inr ((goal_of_alternative_inner halt hgoal).imp_right fun h => h.imp_right ?_)
      rintro ⟨n, m, hn, hm, rfl, hgoal, hlt⟩
      exact ⟨n, m, hn, hm, rfl, hgoal, hlt⟩
  induction h with
  | single h =>
    rcases hstep h with ⟨name, rfl⟩ | ⟨name, rfl⟩ | h'
    · exact Or.inl ⟨name, .refl, .single h⟩
    · exact Or.inl ⟨name, .single h, .refl⟩
    · exact Or.inr h'
  | @tail middle goal hway h ih =>
    rcases ih with ⟨name, h₁, h₂⟩ | htail | ⟨n, m, hn, hm, rfl, rfl, hlt⟩
    · exact Or.inl ⟨name, h₁, h₂.tail h⟩
    · exact absurd h.1 (by simp [htail])
    · rcases hstep h with ⟨name, hno⟩ | ⟨name, rfl⟩ | htail | ⟨m', k, hm', hk, hid, rfl, hlt'⟩
      · exact absurd hno (by simp)
      · exact Or.inl ⟨name, hway.to_reflTransGen.tail h, .refl⟩
      · exact Or.inr (Or.inl htail)
      · obtain rfl := hg.eq_of_id_eq hm hm' (Goal.inner.inj hid)
        exact Or.inr (Or.inr ⟨n, k, hn, hk, rfl, rfl, by omega⟩)

/-- **A way from a goal back to itself passes a symbol**, which then leads back to itself, too. -/
theorem WellFormed.exists_named_of_loop (hg : g.WellFormed) {goal : Goal}
    (h : TransGen (of g).Below goal goal) :
    ∃ name, ReflTransGen (of g).Below goal (.named name) ∧
      TransGen (of g).Below (.named name) (.named name) := by
  rcases hg.transGen_below h with ⟨name, h₁, h₂⟩ | htail | ⟨n, m, hn, hm, rfl, hid, hlt⟩
  · exact ⟨name, h₁, (TransGen.trans_right h₂ h).trans_left h₁⟩
  · obtain ⟨next, hnext, -⟩ := TransGen.head'_iff.mp h
    exact absurd hnext.1 (by simp [htail])
  · obtain rfl := hg.eq_of_id_eq hn hm (Goal.inner.inj hid)
    exact absurd hlt (Nat.lt_irrefl _)

/-! ### Ways are trees -/

/-- A tree is one of some trees or lies in one of them. -/
def Inside (c : Tree) (ts : List Tree) : Prop :=
  ∃ t ∈ ts, ∃ path, t.get? path = some c

theorem Inside.of_mem {t : Tree} {ts : List Tree} (h : t ∈ ts) : Inside t ts :=
  ⟨t, h, [], rfl⟩

theorem Inside.mono {c : Tree} {ts us : List Tree} (h : Inside c ts) (hsub : ∀ t ∈ ts, t ∈ us) :
    Inside c us := by
  obtain ⟨t, ht, hc⟩ := h
  exact ⟨t, hsub t ht, hc⟩

/-- What lies in the children of a tree lies below its root. -/
theorem Inside.exists_path {c t : Tree} (h : Inside c t.children) :
    ∃ path, path ≠ [] ∧ t.get? path = some c := by
  obtain ⟨d, hd, path, hpath⟩ := h
  obtain ⟨i, hi⟩ := List.mem_iff_getElem?.mp hd
  refine ⟨i :: path, List.cons_ne_nil _ _, ?_⟩
  rw [Tree.get?, hi]
  exact hpath

theorem Inside.wrap {c : Tree} {cs : List Tree} (h : Inside c cs) (goal : Goal)
    (sender recipient : Option String) : Inside c (Search.wrap goal sender recipient cs) := by
  cases goal with
  | inner | tail => exact h
  | named name =>
    have hbelow : Inside c (⟨.named name, cs, [], sender, recipient, false⟩ : Tree).children := h
    obtain ⟨path, -, hpath⟩ := hbelow.exists_path
    exact ⟨_, List.mem_singleton.mpr rfl, path, hpath⟩

/-- In a derivation that renders as nothing, what a goal contributes can be exchanged. -/
theorem exchange {f : FlatGrammar} {atoms : List Atom} {ts : List Tree} (h : f.Derives atoms ts)
    (hts : Tree.listToBytes ts = []) {goal : Goal} {sender recipient : Option String}
    (hgoal : Atom.goal goal sender recipient ∈ atoms) {alt : List Atom} {cs : List Tree}
    (halt : f.Alternative goal alt) (hcs : f.Derives alt cs) (hempty : Tree.listToBytes cs = []) :
    ∃ ds, f.Derives atoms ds ∧ Tree.listToBytes ds = [] ∧
      ∀ t ∈ Search.wrap goal sender recipient cs, t ∈ ds := by
  -- The goal stands first or among the rest; what it stands among renders as nothing, too.
  induction h with
  | nil => exact absurd hgoal List.not_mem_nil
  | @literal value rest ts hrest ih =>
    rw [Tree.listToBytes_cons, List.append_eq_nil_iff] at hts
    rcases List.mem_cons.mp hgoal with hgoal | hgoal
    · exact absurd hgoal (by simp)
    · obtain ⟨ds, hds, hnil, hmem⟩ := ih hts.2 hgoal
      refine ⟨_, .literal hds, ?_, fun t ht => List.mem_cons_of_mem _ (hmem t ht)⟩
      rw [Tree.listToBytes_cons, hts.1, hnil]
      rfl
  | @goal goal' _ _ atoms' rest cs' ts halt' hcs' hrest _ ih =>
    rw [Tree.listToBytes_append, Search.listToBytes_wrap, List.append_eq_nil_iff] at hts
    rcases List.mem_cons.mp hgoal with hgoal | hgoal
    · obtain ⟨rfl, rfl, rfl⟩ := Atom.goal.inj hgoal
      refine ⟨_, .goal halt hcs hrest, ?_, fun t ht => List.mem_append_left _ ht⟩
      rw [Tree.listToBytes_append, Search.listToBytes_wrap, hempty, hts.2]
      rfl
    · obtain ⟨ds, hds, hnil, hmem⟩ := ih hts.2 hgoal
      refine ⟨_, .goal halt' hcs' hds, ?_, fun t ht => List.mem_append_right _ (hmem t ht)⟩
      rw [Tree.listToBytes_append, Search.listToBytes_wrap, hts.1, hnil]
      rfl

/-- **A way down to a symbol spells out a tree** that renders as nothing, with any such tree of the
symbol in it. -/
theorem exists_inside_of_way {f : FlatGrammar} {name : String} {goal : Goal}
    (h : ReflTransGen f.Below goal (.named name)) {atoms : List Atom} {cs : List Tree}
    (halt : f.Alternative (.named name) atoms) (hcs : f.Derives atoms cs)
    (hempty : Tree.listToBytes cs = []) :
    ∃ atoms' ds, f.Alternative goal atoms' ∧ f.Derives atoms' ds ∧ Tree.listToBytes ds = [] ∧
      ∀ sender recipient, ∃ u : Tree, u.symbol = Symbol.named name ∧ u.children = cs ∧
        Inside u (Search.wrap goal sender recipient ds) := by
  induction h using ReflTransGen.head_induction_on with
  | refl =>
    refine ⟨atoms, cs, halt, hcs, hempty, fun sender recipient => ?_⟩
    exact ⟨⟨.named name, cs, [], sender, recipient, false⟩, rfl, rfl,
      .of_mem (List.mem_singleton.mpr rfl)⟩
  | head h _ ih =>
    -- The children of the goal below take the place of whatever it contributed here.
    obtain ⟨-, atoms₁, halt₁, ⟨ts, hts, hnil⟩, sender, recipient, hgoal⟩ := h
    obtain ⟨atoms', ds, halt', hds, hempty', hinside⟩ := ih
    obtain ⟨es, hes, hnil', hmem⟩ := exchange hts hnil hgoal halt' hds hempty'
    obtain ⟨u, hsymbol, hchildren, hu⟩ := hinside sender recipient
    exact ⟨atoms₁, es, halt₁, hes, hnil', fun _ _ =>
      ⟨u, hsymbol, hchildren, (hu.mono hmem).wrap _ _ _⟩⟩

/-- **A way from a symbol back to itself spells out children** of the symbol with the symbol in
them. -/
theorem exists_children_of_loop {f : FlatGrammar} {name : String}
    (h : TransGen f.Below (.named name) (.named name)) :
    ∃ atoms cs c, f.Alternative (.named name) atoms ∧ f.Derives atoms cs ∧
      Tree.listToBytes cs = [] ∧ Inside c cs ∧ c.symbol = Symbol.named name := by
  obtain ⟨next, ⟨-, atoms, halt, ⟨ts, hts, hnil⟩, sender, recipient, hgoal⟩, hway⟩ :=
    TransGen.head'_iff.mp h
  obtain ⟨atoms', ds, halt', hds, hempty, hinside⟩ := exists_inside_of_way hway halt hts hnil
  obtain ⟨cs, hcs, hnil', hmem⟩ := exchange hts hnil hgoal halt' hds hempty
  obtain ⟨u, hsymbol, -, hu⟩ := hinside sender recipient
  exact ⟨atoms, cs, u, halt, hcs, hnil', hu.mono hmem, hsymbol⟩

/-- A node of a symbol that renders as nothing, with the symbol among what lies below. -/
theorem isEmptyLoop_of_inside {name : String} {t c : Tree} (hname : t.symbol = .nonTerminal name)
    (hnil : Tree.listToBytes t.children = []) (h : Inside c t.children)
    (hc : c.symbol = t.symbol) : t.IsEmptyLoop := by
  obtain ⟨path, hne, hpath⟩ := h.exists_path
  exact ⟨(Tree.toBytes_nonTerminal hname).trans hnil, path, c, hne, hpath, hc⟩

/-- **Without empty loops no goal leads back to itself.** -/
theorem WellFormed.loopless (hg : g.WellFormed) (hbare : g.BareNames) (hloop : g.NoEmptyLoop) :
    (of g).Loopless := by
  intro goal hgoal
  obtain ⟨name, -, hname⟩ := hg.exists_named_of_loop hgoal
  obtain ⟨atoms, cs, c, halt, hcs, hnil, hinside, hsymbol⟩ := exists_children_of_loop hname
  have htree : g.Valid (.branch name cs) := (hcs.annotated hg hbare halt).valid
  obtain ⟨body, hbody, -⟩ := ((valid_nonTerminal rfl).mp htree).1
  refine hloop _ (hg.validate_eq_ok.mpr htree) (isEmptyLoop_of_inside rfl hnil hinside ?_)
  rw [hsymbol, Symbol.named, hbare.of_body? hbody]
  rfl

/-- Without empty loops there are none in the trees of an input. -/
theorem WellFormed.noEmptyLoopIn (hg : g.WellFormed) (hloop : g.NoEmptyLoop) (s : String)
    (w : Bytes) : g.NoEmptyLoopIn s w := by
  rintro t - ht - ⟨path, c, hpath, hc⟩
  have hvalid := hg.validate_eq_ok.mp ht
  exact hloop c (hg.validate_eq_ok.mpr (hvalid.of_get? hpath)) hc

end Grammar

/-! ### Rules that derive something

A grammar has no empty loop if none of its rules derives nothing at all, which shows at its rules.
-/

namespace Node

mutual

/-- Whether a node stands for something that renders as nothing, given the symbols that do. -/
def vanishes (vanishing : String → Bool) : Node → Bool
  | .terminal _ value => value.toBytes.isEmpty
  | .charset _ _ => false
  | .reference _ name _ _ => vanishing name
  | .sequence _ parts => allVanish vanishing parts
  | .choice _ options => someVanish vanishing options
  | .repetition _ body min _ _ => min == 0 || body.vanishes vanishing

/-- Whether all of several nodes do. -/
def allVanish (vanishing : String → Bool) : List Node → Bool
  | [] => true
  | n :: rest => n.vanishes vanishing && allVanish vanishing rest

/-- Whether one of several nodes does. -/
def someVanish (vanishing : String → Bool) : List Node → Bool
  | [] => false
  | n :: rest => n.vanishes vanishing || someVanish vanishing rest

end

variable {vanishing : String → Bool}

mutual

/-- **What renders as nothing vanishes**: a node with a match that renders as nothing, when the
symbols among its children that render as nothing are known. -/
theorem vanishes_of_matches : ∀ {n : Node} {cs : List Tree}, n.Matches cs →
    Tree.listToBytes cs = [] → (∀ c ∈ cs, ∀ value, c.symbol = .terminal value →
      c.toBytes = value.toBytes) → (∀ c ∈ cs, ∀ name, c.symbol = .nonTerminal name →
        c.toBytes = [] → vanishing name = true) → n.vanishes vanishing = true
  | .terminal _ value, cs, h, hnil, hleaf, _ => by
    obtain ⟨c, rfl, hc⟩ := h
    have hvalue := hleaf c List.mem_cons_self value (by simpa [isLiteral] using hc)
    rw [Tree.listToBytes_cons, List.append_eq_nil_iff] at hnil
    rw [vanishes, ← hvalue, hnil.1]
    rfl
  | .reference _ name _ _, cs, h, hnil, _, hnode => by
    obtain ⟨c, rfl, hc⟩ := h
    rw [Tree.listToBytes_cons, List.append_eq_nil_iff] at hnil
    exact hnode c List.mem_cons_self name (by simpa [isNamed] using hc) hnil.1
  | .charset _ _, cs, h, hnil, hleaf, _ => by
    obtain ⟨c, rfl, hc⟩ := h
    obtain ⟨x, -, hsymbol⟩ := exists_of_isOneOf hc
    have hvalue := hleaf c List.mem_cons_self _ hsymbol
    rw [Tree.listToBytes_cons, List.append_eq_nil_iff] at hnil
    rw [hnil.1, Literal.toBytes, Utf8.encode, Char.toString_eq_singleton, String.toList_singleton,
      List.flatMap_cons, List.flatMap_nil, List.append_nil] at hvalue
    exact absurd hvalue.symm String.utf8EncodeChar_ne_nil
  | .sequence _ parts, cs, h, hnil, hleaf, hnode => by
    rw [Matches] at h
    exact allVanish_of_matches h hnil hleaf hnode
  | .choice _ options, cs, h, hnil, hleaf, hnode => by
    rw [Matches] at h
    exact someVanish_of_matches h hnil hleaf hnode
  | .repetition _ body min max _, cs, h, hnil, hleaf, hnode => by
    rw [Matches] at h
    obtain ⟨k, hmin, -, hcopies⟩ := h
    rw [vanishes, Bool.or_eq_true, beq_iff_eq]
    cases k with
    | zero => exact Or.inl (by omega)
    | succ k =>
      obtain ⟨ds, es, rfl, hds, -⟩ := hcopies
      rw [Tree.listToBytes_append, List.append_eq_nil_iff] at hnil
      exact Or.inr (vanishes_of_matches hds hnil.1
        (fun c hc => hleaf c (List.mem_append_left _ hc))
        (fun c hc => hnode c (List.mem_append_left _ hc)))

theorem allVanish_of_matches : ∀ {ns : List Node} {cs : List Tree}, MatchesAll ns cs →
    Tree.listToBytes cs = [] → (∀ c ∈ cs, ∀ value, c.symbol = .terminal value →
      c.toBytes = value.toBytes) → (∀ c ∈ cs, ∀ name, c.symbol = .nonTerminal name →
        c.toBytes = [] → vanishing name = true) → allVanish vanishing ns = true
  | [], cs, _, _, _, _ => rfl
  | n :: ns, cs, h, hnil, hleaf, hnode => by
    obtain ⟨ds, es, rfl, hds, hes⟩ := h
    rw [Tree.listToBytes_append, List.append_eq_nil_iff] at hnil
    rw [allVanish, Bool.and_eq_true]
    exact ⟨vanishes_of_matches hds hnil.1 (fun c hc => hleaf c (List.mem_append_left _ hc))
        (fun c hc => hnode c (List.mem_append_left _ hc)),
      allVanish_of_matches hes hnil.2 (fun c hc => hleaf c (List.mem_append_right _ hc))
        (fun c hc => hnode c (List.mem_append_right _ hc))⟩

theorem someVanish_of_matches : ∀ {ns : List Node} {cs : List Tree}, MatchesSome ns cs →
    Tree.listToBytes cs = [] → (∀ c ∈ cs, ∀ value, c.symbol = .terminal value →
      c.toBytes = value.toBytes) → (∀ c ∈ cs, ∀ name, c.symbol = .nonTerminal name →
        c.toBytes = [] → vanishing name = true) → someVanish vanishing ns = true
  | [], cs, h, _, _, _ => h.elim
  | n :: ns, cs, h, hnil, hleaf, hnode => by
    rw [MatchesSome] at h
    rw [someVanish, Bool.or_eq_true]
    exact h.imp (fun h => vanishes_of_matches h hnil hleaf hnode)
      (fun h => someVanish_of_matches h hnil hleaf hnode)

end

end Node

namespace Grammar

open Relation

variable {g : Grammar} {vanishing : String → Bool}

mutual

/-- **A symbol that renders as nothing vanishes**, when the rules of all others do not. -/
theorem Valid.vanishing (hrules : ∀ p ∈ g.rules, p.2.vanishes vanishing = true →
    vanishing p.1 = true) : ∀ {t : Tree} {name : String}, g.Valid t →
      t.symbol = .nonTerminal name → t.toBytes = [] → vanishing name = true
  | ⟨symbol, children, sources, sender, recipient, readOnly⟩, name, ht, hname, hnil => by
    obtain rfl : symbol = .nonTerminal name := hname
    obtain ⟨⟨body, hbody, hmatch⟩, hvalid⟩ := ht
    rw [Tree.toBytes_nonTerminal rfl] at hnil
    refine hrules _ (Dictionary.mem_of_find? hbody) (Node.vanishes_of_matches hmatch hnil ?_ ?_)
    · exact fun c hc value hvalue => (validAll_iff.mp hvalid c hc).toBytes_terminal hvalue
    · exact ValidAll.vanishing hrules hvalid

theorem ValidAll.vanishing (hrules : ∀ p ∈ g.rules, p.2.vanishes vanishing = true →
    vanishing p.1 = true) : ∀ {ts : List Tree}, g.ValidAll ts → ∀ t ∈ ts, ∀ name,
      t.symbol = .nonTerminal name → t.toBytes = [] → vanishing name = true
  | [], _, t, ht, _, _, _ => absurd ht List.not_mem_nil
  | u :: ts, h, t, ht, name, hname, hnil => by
    rw [ValidAll] at h
    rcases List.mem_cons.mp ht with ht | ht
    · rw [ht] at hname hnil
      exact Valid.vanishing hrules h.1 hname hnil
    · exact ValidAll.vanishing hrules h.2 t ht name hname hnil

end

/-- **A grammar has no empty loop if what can render as nothing does not lead back to itself.** -/
theorem WellFormed.noEmptyLoop_of_vanishing (hg : g.WellFormed)
    (hrules : ∀ p ∈ g.rules, p.2.vanishes vanishing = true → vanishing p.1 = true)
    (hback : ∀ name, vanishing name = true → ¬ TransGen g.Refers name name) : g.NoEmptyLoop := by
  rintro t ht ⟨hnil, path, c, hpath, hc, hsymbol⟩
  have hvalid := hg.validate_eq_ok.mp ht
  cases hname : t.symbol with
  | terminal value =>
    have hchildren := (valid_terminal hname).mp hvalid
    cases path with
    | nil => exact absurd rfl hpath
    | cons i path =>
      rw [Tree.get?, hchildren] at hc
      exact absurd hc (by simp)
  | slice =>
    rcases hvalid.symbol with hterminal | ⟨name, -, hno⟩
    · rw [hname] at hterminal
      exact absurd hterminal Bool.false_ne_true
    · rw [hname] at hno
      exact absurd hno (by simp)
  | nonTerminal name =>
    exact hback name (Valid.vanishing hrules hvalid hname hnil)
      (hvalid.transGen_refers hname hpath hc (hsymbol.trans hname))

/-- **A grammar whose rules all derive something has no empty loop.** -/
theorem WellFormed.noEmptyLoop (hg : g.WellFormed)
    (hrules : ∀ p ∈ g.rules, p.2.vanishes (fun _ => false) = false) : g.NoEmptyLoop :=
  hg.noEmptyLoop_of_vanishing (fun p hp h => absurd (h.symm.trans (hrules p hp)) (by simp))
    fun _ h => absurd h Bool.false_ne_true

end Grammar

end GrammarFuzzing
