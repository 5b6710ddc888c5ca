import GrammarFuzzing.Proofs.Grammar.Spelling
import GrammarFuzzing.Proofs.Parse.Parsing
import GrammarFuzzing.Proofs.Parse.Prefix

/-!
# Beginnings of sentences

Where no name that can be met is a dead end (`GrammarFuzzing.Grammar.Makes`), the recognizer accepts
in incomplete mode exactly the beginnings of what it accepts in complete mode
(`GrammarFuzzing.Grammar.WellFormed.recognize_incomplete_iff`).

That names are no dead ends is said of the leaves of their rules, each of which derives a valid
tree. A node that is made of such leaves matches valid children, however it combines them
(`GrammarFuzzing.Grammar.WellFormed.exists_matches`), so no goal that stands for a node in such a
rule is a dead end either (`GrammarFuzzing.Grammar.Makes.live`).

A productive grammar without empty sets of characters has no dead ends at all
(`GrammarFuzzing.Grammar.WellFormed.makes`). So incomplete mode recognizes the beginnings of
sentences of every grammar that a document makes, wherever the cut is, even within the bytes of a
terminal (`GrammarFuzzing.Document.recognize_prefix_iff`).
-/

namespace GrammarFuzzing.Grammar

open FlatGrammar Node

variable {g : Grammar}

/-! ### Nodes made of what can be made -/

mutual

/-- **A node whose leaves derive valid trees matches valid children.** -/
theorem WellFormed.exists_matches (hg : g.WellFormed) : ∀ {n : Node}, g.Occurs n →
    (∀ l ∈ n.subnodes, l.IsLeaf → ∃ c, l.Admits c ∧ g.Valid c) →
      ∃ cs, n.Matches cs ∧ g.ValidAll cs
  | .terminal .., _, h | .charset .., _, h | .reference .., _, h => by
    obtain ⟨c, hc, hvalid⟩ := h _ (mem_subnodes_self _) trivial
    exact ⟨[c], ⟨c, rfl, hc⟩, hvalid, trivial⟩
  | .sequence _ parts, hn, h => by
    obtain ⟨cs, hcs, hvalid⟩ := hg.exists_matchesAll
      (fun n (hp : n ∈ parts) => hn.of_mem_subnodes (mem_subnodes_sequence hp n.mem_subnodes_self))
      fun n hp l hl => h l (mem_subnodes_sequence hp hl)
    exact ⟨cs, hcs, hvalid⟩
  | .choice _ options, hn, h => by
    obtain ⟨cs, hcs, hvalid⟩ := hg.exists_matchesSome (hg.choice_ne_nil hn)
      (fun n hp => hn.of_mem_subnodes (mem_subnodes_choice hp n.mem_subnodes_self))
      fun n hp l hl => h l (mem_subnodes_choice hp hl)
    exact ⟨cs, hcs, hvalid⟩
  | .repetition _ body min max _, hn, h => by
    have hmax : ∀ m, max = some m → min ≤ m := fun m hm => (hg.bounds (hm ▸ hn)).2
    obtain ⟨cs, hcs, hvalid⟩ := hg.exists_matches
      (hn.of_mem_subnodes (mem_subnodes_repetition body.mem_subnodes_self))
      fun l hl => h l (mem_subnodes_repetition hl)
    refine ⟨_, ⟨min, Nat.le_refl _, hmax, copies_replicate hcs min⟩,
      validAll_iff.mpr fun c hc => ?_⟩
    obtain ⟨ds, hds, hc⟩ := List.mem_flatten.mp hc
    rw [List.eq_of_mem_replicate hds] at hc
    exact validAll_iff.mp hvalid c hc

theorem WellFormed.exists_matchesAll (hg : g.WellFormed) : ∀ {ns : List Node},
    (∀ n ∈ ns, g.Occurs n) →
      (∀ n ∈ ns, ∀ l ∈ n.subnodes, l.IsLeaf → ∃ c, l.Admits c ∧ g.Valid c) →
        ∃ cs, MatchesAll ns cs ∧ g.ValidAll cs
  | [], _, _ => ⟨[], rfl, trivial⟩
  | n :: ns, hn, h => by
    rw [List.forall_mem_cons] at hn h
    obtain ⟨ds, hds, hvalid⟩ := hg.exists_matches hn.1 h.1
    obtain ⟨es, hes, hvalid'⟩ := hg.exists_matchesAll hn.2 h.2
    refine ⟨ds ++ es, ⟨ds, es, rfl, hds, hes⟩, validAll_iff.mpr ?_⟩
    exact List.forall_mem_append.mpr ⟨validAll_iff.mp hvalid, validAll_iff.mp hvalid'⟩

theorem WellFormed.exists_matchesSome (hg : g.WellFormed) : ∀ {ns : List Node}, ns ≠ [] →
    (∀ n ∈ ns, g.Occurs n) →
      (∀ n ∈ ns, ∀ l ∈ n.subnodes, l.IsLeaf → ∃ c, l.Admits c ∧ g.Valid c) →
        ∃ cs, MatchesSome ns cs ∧ g.ValidAll cs
  | [], hne, _, _ => absurd rfl hne
  | n :: ns, _, hn, h => by
    obtain ⟨cs, hcs, hvalid⟩ := hg.exists_matches (hn n List.mem_cons_self) (h n List.mem_cons_self)
    exact ⟨cs, Or.inl hcs, hvalid⟩

end

/-! ### Names without dead ends -/

/-- **Names without dead ends**: every leaf of their rules derives a valid tree, and refers to such
a name if it is a reference. -/
structure Makes (g : Grammar) (names : String → Prop) : Prop where
  body : ∀ {name}, names name → ∃ body, g.body? name = some body
  leaf : ∀ {name body l}, names name → g.body? name = some body → l ∈ body.subnodes → l.IsLeaf →
    ∃ c, l.Admits c ∧ g.Valid c
  closed : ∀ {name body id other sender recipient}, names name → g.body? name = some body →
    .reference id other sender recipient ∈ body.subnodes → names other

/-- The goals that names lead to: the names themselves, and the goals of the nodes in their
rules. -/
inductive Leads (g : Grammar) (names : String → Prop) : Goal → Prop
  | named {name : String} : names name → g.Leads names (.named name)
  | node {name : String} {body n : Node} {goal : Goal} {alts : List (List Atom)} : names name →
    g.body? name = some body → n ∈ body.subnodes → (goal, alts) ∈ n.ownAlternatives →
      g.Leads names goal

variable {names : String → Prop}

/-- The goals of a flattened node in a rule of such a name. -/
theorem Makes.goalsIn_flatten (hnames : g.Makes names) {name : String} {body n : Node}
    (hname : names name) (hbody : g.body? name = some body) (hn : n ∈ body.subnodes) :
    GoalsIn (g.Leads names) n.flatten := by
  intro goal sender recipient hgoal
  rcases goal_of_mem_flatten hgoal with ⟨id, other, rfl, hother⟩ | ⟨m, hm, alts, -, hown⟩
  · exact .named (hnames.closed hname hbody (subnodes_trans hother hn))
  · exact .node hname hbody (subnodes_trans hm hn) hown

/-- The goals of the alternatives of a node in a rule of such a name. -/
theorem Makes.goalsIn_own (hnames : g.Makes names) {name : String} {body n : Node}
    (hname : names name) (hbody : g.body? name = some body) (hn : n ∈ body.subnodes) {goal : Goal}
    {alts : List (List Atom)} (hown : (goal, alts) ∈ n.ownAlternatives) {atoms : List Atom}
    (hatoms : atoms ∈ alts) : GoalsIn (g.Leads names) atoms := by
  intro goal' sender recipient hgoal
  cases n with
  | terminal | reference | sequence => simp [ownAlternatives] at hown
  | charset =>
    rw [ownAlternatives, List.mem_singleton] at hown
    obtain ⟨-, rfl⟩ := Prod.mk.inj hown
    obtain ⟨c, -, rfl⟩ := List.mem_map.mp hatoms
    simp at hgoal
  | choice id options =>
    rw [ownAlternatives, List.mem_singleton] at hown
    obtain ⟨-, rfl⟩ := Prod.mk.inj hown
    obtain ⟨k, hk, rfl⟩ := List.mem_map.mp hatoms
    exact hnames.goalsIn_flatten hname hbody
      (subnodes_trans (mem_subnodes_choice hk k.mem_subnodes_self) hn) _ _ _ hgoal
  | repetition id element min max form =>
    have helement := hnames.goalsIn_flatten hname hbody
      (subnodes_trans (mem_subnodes_repetition element.mem_subnodes_self) hn)
    -- A tail of the repetition is one of its own goals.
    have htail : ∀ {goal : Goal} {alts : List (List Atom)},
        (goal, alts) ∈ tails id element.flatten min max → g.Leads names goal := fun h =>
      .node hname hbody hn (List.mem_cons_of_mem _ h)
    rw [ownAlternatives, List.mem_cons] at hown
    rcases hown with hown | hown
    · obtain ⟨-, rfl⟩ := Prod.mk.inj hown
      rw [List.mem_singleton.mp hatoms, List.mem_append] at hgoal
      rcases hgoal with hgoal | hgoal
      · obtain ⟨copy, hcopy, hgoal⟩ := List.mem_flatten.mp hgoal
        rw [List.eq_of_mem_replicate hcopy] at hgoal
        exact helement _ _ _ hgoal
      · obtain ⟨alts, htails⟩ := tails_of_mem_tailAtoms element.flatten hgoal
        exact htail htails
    · rcases goal_of_mem_tails hown hatoms hgoal with hgoal | ⟨alts, htails⟩
      · exact helement _ _ _ hgoal
      · exact htail htails

/-- A goal of a node in a rule of such a name yields something. -/
theorem Makes.exists_goalYields_own (hg : g.WellFormed) (hnames : g.Makes names) {name : String}
    {body n : Node} (hname : names name) (hbody : g.body? name = some body) (hn : n ∈ body.subnodes)
    {goal : Goal} {alts : List (List Atom)} (hown : (goal, alts) ∈ n.ownAlternatives) :
    ∃ w, (of g).GoalYields goal w := by
  have hoccurs := (occurs_of_body? hbody).of_mem_subnodes hn
  -- The goal of the node itself yields what children render as that the node matches.
  have hself : n.flatten = [.plain (.inner n.id)] → ∃ w, (of g).GoalYields (.inner n.id) w := by
    intro hflatten
    obtain ⟨cs, hcs, hvalid⟩ := hg.exists_matches hoccurs
      fun l hl => hnames.leaf hname hbody (subnodes_trans hl hn)
    have hyields := (hg.lists_of_matches hoccurs hcs (hg.readableAll hvalid)).yields
    rw [hflatten] at hyields
    obtain ⟨u, v, -, hu, -⟩ := yields_cons_goal.mp hyields
    exact ⟨u, hu⟩
  cases n with
  | terminal | reference | sequence => simp [ownAlternatives] at hown
  | charset | choice =>
    rw [ownAlternatives, List.mem_singleton] at hown
    rw [(Prod.mk.inj hown).1]
    exact hself rfl
  | repetition id element min max form =>
    have halt := hown
    rw [ownAlternatives, List.mem_cons] at hown
    rcases hown with hown | htail
    · rw [(Prod.mk.inj hown).1]
      exact hself rfl
    · -- A tail may always stop.
      have hstop : [] ∈ alts := by
        rcases mem_tails.mp htail with ⟨-, -, rfl⟩ | ⟨-, -, -, -, -, rfl⟩
        · exact List.mem_cons_self
        · exact List.mem_cons_self
      exact ⟨[], [], (hg.alternative_own hoccurs halt).mpr hstop, yields_nil⟩

/-- **Names without dead ends lead to goals without dead ends.** -/
theorem Makes.live (hg : g.WellFormed) (hnames : g.Makes names) :
    (of g).Live (g.Leads names) where
  yields := by
    rintro _ (@⟨name, hname⟩ | @⟨name, body, n, goal, alts, hname, hbody, hn, hown⟩)
    · obtain ⟨body, hbody⟩ := hnames.body hname
      have hoccurs := occurs_of_body? hbody
      obtain ⟨cs, hcs, hvalid⟩ := hg.exists_matches hoccurs
        fun l hl => hnames.leaf hname hbody hl
      exact ⟨_, (hg.goalLists_of_matches hbody hcs (hg.readableAll hvalid)).goalYields⟩
    · exact hnames.exists_goalYields_own hg hname hbody hn hown
  closed := by
    rintro _ atoms (@⟨name, hname⟩ | @⟨name, body, n, goal, alts, hname, hbody, hn, hown⟩) halt
    · obtain ⟨body, hbody, hatoms⟩ := alternative_named.mp halt
      have hself := hnames.goalsIn_flatten hname hbody body.mem_subnodes_self
      cases body with
      | choice id options =>
        obtain ⟨n, hn, rfl⟩ := List.mem_map.mp hatoms
        exact hnames.goalsIn_flatten hname hbody (mem_subnodes_choice hn n.mem_subnodes_self)
      | terminal | charset | reference | sequence | repetition =>
        rw [List.mem_singleton.mp hatoms]
        exact hself
    · have hoccurs := (occurs_of_body? hbody).of_mem_subnodes hn
      exact hnames.goalsIn_own hname hbody hn hown ((hg.alternative_own hoccurs hown).mp halt)

/-! ### The recognizer -/

/-- **In incomplete mode the recognizer accepts the beginnings of sentences.** -/
theorem WellFormed.recognize_incomplete_iff (hg : g.WellFormed) (hbare : g.BareNames)
    (hnames : g.Makes names) {name : String} (hname : names name) (w : Bytes) :
    g.recognize w name .incomplete = true ↔
      ∃ v, g.recognize (w ++ v) name .complete = true := by
  obtain ⟨body, hbody⟩ := hnames.body hname
  have hkey := Dictionary.mem_keys_of_find? hbody
  rw [recognize_incomplete hbare hkey,
    Chart.viable_iff (lawful_of g) (hnames.live hg) (.named hname)]
  simp only [recognize_complete hbare hkey, spans_all]
  constructor
  · rintro ⟨_, hyields, v, rfl⟩
    exact ⟨v, by simpa using hyields⟩
  · rintro ⟨v, hyields⟩
    exact ⟨w ++ v, by simpa using hyields, v, by simp⟩

/-- **A productive grammar has no dead ends**, if no set of characters is empty. -/
theorem WellFormed.makes (hg : g.WellFormed) (hproductive : g.Productive)
    (hchars : g.NoEmptyCharset) : g.Makes (· ∈ g.rules.keys) where
  body := Dictionary.exists_find?_of_mem_keys
  leaf := by
    intro name body l _ hbody hl hleaf
    have hoccurs := (occurs_of_body? hbody).of_mem_subnodes hl
    obtain ⟨c, hc, hannotated⟩ := hchars.exists_marks hoccurs hleaf (by
      rintro id other sender recipient rfl
      obtain ⟨body', hbody'⟩ := hg.exists_body_of_reference hoccurs
      exact hg.exists_annotated hproductive hchars hbody')
    exact ⟨c, hc.admits, hannotated.valid⟩
  closed := by
    intro name body id other sender recipient _ hbody hl
    have hoccurs := (occurs_of_body? hbody).of_mem_subnodes hl
    exact Dictionary.has_iff_mem_keys.mp (hg.has_reference hoccurs)

end GrammarFuzzing.Grammar

namespace GrammarFuzzing

/-- **Incomplete mode recognizes the beginnings of sentences**: exactly those bytes that some bytes
complete to an input that complete mode recognizes. The cut may be anywhere, also within the bytes
of a terminal. -/
theorem Document.recognize_prefix_iff {doc : Document} {g : Grammar} (h : doc.toGrammar = .ok g)
    (hbare : g.BareNames) (hchars : g.NoEmptyCharset) {s : String} (hs : s ∈ g.rules.keys)
    (w : Bytes) :
    g.recognize w s .incomplete = true ↔ ∃ v, g.recognize (w ++ v) s .complete = true := by
  have hg := wellFormed_of_toGrammar h
  have hproductive := (Draft.builds_of_build h).isProductive
  exact hg.recognize_incomplete_iff hbare (hg.makes hproductive hchars) hs w

/-- An accented letter before two bytes that are no text. -/
def Document.accented : Document :=
  ⟨"word", [("word", .seq [.text "é", .bytes [0, 255]])], []⟩

/-- The first of the two bytes of the letter begins a word, and so does everything but the last
byte. -/
theorem Document.recognize_accented : ∃ g, accented.toGrammar = .ok g ∧
    g.recognize [0xc3] "word" .incomplete = true ∧
      g.recognize [0xc3, 0xa9, 0] "word" .incomplete = true := by
  have h : accented.toGrammar = .ok _ := rfl
  have hbare : ∀ name ∈ ["word"], bareName name = name := by decide
  have hs : "word" ∈ ["word"] := by decide
  have hword : Grammar.recognize _ [0xc3, 0xa9, 0, 255] "word" .complete = true :=
    ((wellFormed_of_toGrammar h).recognize_iff_valid hbare hs _).mpr
      ⟨.branch "word" [.leaf (.text "é"), .leaf (.bytes [0, 255])], rfl,
        (wellFormed_of_toGrammar h).validate_eq_ok.mp rfl, rfl⟩
  exact ⟨_, h, (recognize_prefix_iff h hbare (by decide) hs _).mpr ⟨[0xa9, 0, 255], hword⟩,
    (recognize_prefix_iff h hbare (by decide) hs _).mpr ⟨[255], hword⟩⟩

end GrammarFuzzing
