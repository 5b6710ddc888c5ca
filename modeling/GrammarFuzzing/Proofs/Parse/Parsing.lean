import GrammarFuzzing.Proofs.Parse.Partial
import GrammarFuzzing.Proofs.Parse.Parts

/-!
# Parsing and recognizing

What is parsed is valid and renders as the input (`GrammarFuzzing.Document.parse_complete_sound`),
and what is parsed is recognized. The converse, that what is recognized is parsed, holds of each
input whose trees have no empty loop in them; in incomplete mode, where the input may be continued
in many ways, it is shown for grammars without empty loops
(`GrammarFuzzing.Document.parse_iff_recognize`).

With an empty loop it can fail. A symbol that is looked for inside itself fails there, and so do the
symbols in between, which are not looked for again at the place although they can be found once the
outer one is done. Take `s ::= b a`, `a ::= b | ""` and `b ::= a` on the empty input: looking for
`a` looks for `b`, which looks for `a` in vain and fails; then `a` is found as `""`, but the `b`
before it is on record as failed.
-/

namespace GrammarFuzzing

namespace FlatGrammar

variable {f : FlatGrammar} {input : Array UInt8} {root : Goal} {scope : Goal → Nat → Nat → Prop}

/-- **What the chart records is found.** -/
theorem exists_children_complete (hf : f.Lawful) (hscope : f.Scope input scope)
    (hroot : scope root 0 input.size) (htails : f.TailsStop)
    (hspans : f.Spans input root 0 input.size) :
    ∃ cs, f.children? (Chart.of f input root) input root .complete = some cs := by
  have hready : Search.Ready f input (fun _ => False) input.size {} := Search.ready_empty
  have hpredicted : f.Predicted input root root 0 := .root
  have hkept := Search.kept_goalChildren hf hscope htails hpredicted hroot hready
    (Nat.le_refl input.size)
  refine Option.ne_none_iff_exists'.mp fun hnone => ?_
  exact (hkept.failed hnone).2 hspans

/-- **What is viable is begun.** -/
theorem exists_children_incomplete (hf : f.Lawful) (hloop : f.Loopless) (htails : f.TailsStop)
    (hroot : ∃ atoms, f.Alternative root atoms)
    (hviable : (Chart.of f input root).viable f input = true) :
    ∃ cs, f.children? (Chart.of f input root) input root .incomplete = some cs := by
  have hready : Search.Ready f input (fun _ => False) input.size {} := Search.ready_empty
  have hpredicted : f.Predicted input root root 0 := .root
  have hkept := Search.kept_goalChildren hf (hloop.scope input) htails hpredicted trivial hready
    (Nat.le_refl input.size)
  refine Option.ne_none_iff_exists'.mp ?_
  simp only [children?, hviable, if_true]
  rw [Search.run_otherwise]
  rcases hrun : (Search.goalChildren f (Chart.of f input root) input (f.nestingBound input.size)
    root 0 input.size).run {} with ⟨_ | ts, s⟩
  · rw [hrun] at hkept
    have hpartials : s.failedPartials = {} := hkept.partials.1
    have hunfinished : s.activePartials = {} := hkept.partials.2
    refine Search.partialGoal_isSome hf hloop htails (Chart.goalBegins_of_viable hf hroot hviable)
      ⟨hkept.ready rfl, ?_, fun goal i hfailed => ?_⟩
    · funext key
      simp only [Search.Unfinished, hunfinished]
      simp
    · rw [hpartials] at hfailed
      exact absurd hfailed (by simp)
  · exact Option.some_ne_none ts

end FlatGrammar

namespace Grammar

open FlatGrammar

variable {g : Grammar} {s : String} {w : Bytes}

/-- A symbol with a rule has an alternative. -/
theorem WellFormed.exists_alternative (hg : g.WellFormed) {body : Node}
    (hbody : g.body? s = some body) : ∃ atoms, (of g).Alternative (.named s) atoms := by
  cases body with
  | choice id options =>
    obtain ⟨n, hn⟩ := List.exists_mem_of_ne_nil _ (hg.choice_ne_nil (occurs_of_body? hbody))
    exact ⟨n.flatten, alternative_named.mpr ⟨_, hbody, List.mem_map_of_mem hn⟩⟩
  | terminal | charset | reference | sequence | repetition =>
    exact ⟨_, alternative_named.mpr ⟨_, hbody, List.mem_singleton.mpr rfl⟩⟩

/-- In incomplete mode the recognizer asks whether the chart is viable. -/
theorem recognize_incomplete (hbare : g.BareNames) (hs : s ∈ g.rules.keys) (w : Bytes) :
    g.recognize w s .incomplete = true ↔
      (Chart.of (of g) w.toArray (.named s)).viable (of g) w.toArray = true := by
  have hrule : g.hasRule s = true := by
    rw [hasRule, hbare s hs]
    exact Dictionary.has_iff_mem_keys.mpr hs
  rw [recognize, hbare s hs]
  simp only [hrule, Bool.not_true, Bool.false_eq_true, if_false]

/-- **What is parsed is recognized.** -/
theorem recognize_of_parse (hbare : g.BareNames) (hs : s ∈ g.rules.keys) {mode : ParseMode}
    {t : Tree} (h : g.parse w s mode = .ok t) : g.recognize w s mode = true := by
  obtain ⟨cs, hcs, -⟩ := (parse_eq_ok hbare hs).mp h
  cases mode with
  | complete =>
    rw [recognize_complete hbare hs]
    obtain ⟨atoms, halt, hbuilds⟩ :=
      Search.ensures_goalChildren (listed_of g) _ _ _ _ _ cs hcs
    exact ⟨atoms, halt, hbuilds.reads⟩
  | incomplete =>
    rw [recognize_incomplete hbare hs]
    by_contra hno
    rw [children?] at hcs
    simp only [hno] at hcs
    exact absurd hcs (by simp)

/-- **What is recognized is parsed** if no tree of the input has an empty loop in it. -/
theorem WellFormed.exists_parse_complete (hg : g.WellFormed) (hbare : g.BareNames)
    (hs : s ∈ g.rules.keys) (hloop : g.NoEmptyLoopIn s w)
    (h : g.recognize w s .complete = true) : ∃ t, g.parse w s .complete = .ok t := by
  obtain ⟨cs, hcs⟩ := exists_children_complete (lawful_of g) (hg.scope hbare hs hloop) .whole
    (tailsStop_of g) ((recognize_complete hbare hs w).mp h)
  exact ⟨_, (parse_eq_ok hbare hs).mpr ⟨cs, hcs, rfl⟩⟩

/-- **What is recognized as begun is begun** if the grammar has no empty loop. -/
theorem WellFormed.exists_parse_incomplete (hg : g.WellFormed) (hbare : g.BareNames)
    (hs : s ∈ g.rules.keys) (hloop : g.NoEmptyLoop)
    (h : g.recognize w s .incomplete = true) : ∃ t, g.parse w s .incomplete = .ok t := by
  obtain ⟨-, body, hbody⟩ := hbare.exists_body hs
  obtain ⟨cs, hcs⟩ := exists_children_incomplete (lawful_of g) (hg.loopless hbare hloop)
    (tailsStop_of g) (hg.exists_alternative hbody) ((recognize_incomplete hbare hs w).mp h)
  exact ⟨_, (parse_eq_ok hbare hs).mpr ⟨cs, hcs, rfl⟩⟩

end Grammar

/-! ### Parsed trees -/

/-- An item is an `x` or a wrapped item, and a wrapped item is an item: a cycle of two symbols that
derives no empty text. -/
def Document.wrappedItems : Document :=
  ⟨"item", [("item", .alt [.ref "wrapped", .text "x"]), ("wrapped", .ref "item")], []⟩

/-- The grammar of wrapped items reads an `x`. -/
theorem Document.wrappedItems_spec : ∃ g, wrappedItems.toGrammar = .ok g ∧ g.BareNames ∧
    "item" ∈ g.rules.keys ∧ g.NoEmptyLoop ∧
      g.recognize (Utf8.encode "x") "item" .complete = true := by
  have h : wrappedItems.toGrammar = .ok _ := rfl
  have hg := wellFormed_of_toGrammar h
  have hbare : ∀ name ∈ ["item", "wrapped"], bareName name = name := by decide
  have hs : "item" ∈ ["item", "wrapped"] := by decide
  refine ⟨_, h, hbare, hs, hg.noEmptyLoop ?_, (hg.recognize_iff_valid hbare hs _).mpr
    ⟨.branch "item" [.leaf (.text "x")], rfl, hg.validate_eq_ok.mp ?_, rfl⟩⟩
  · decide
  · rfl

/-- **Parsing is sound**: a tree that is returned for the whole input has the symbol at its root, is
valid and renders as the input. Each of its nodes is a terminal or a symbol with a rule, and its
terminals from left to right are the input. -/
theorem Document.parse_complete_sound {doc : Document} {g : Grammar} (h : doc.toGrammar = .ok g)
    (hbare : g.BareNames) {s : String} (hs : s ∈ g.rules.keys) {w : Bytes} {t : Tree}
    (hparse : g.parse w s .complete = .ok t) :
    t.symbol = .nonTerminal s ∧ g.validate t = .ok () ∧ t.toBytes = w ∧
      (∀ n ∈ t.nodes, n.2.symbol.isTerminal = true ∨
        ∃ name ∈ g.rules.keys, n.2.symbol = .nonTerminal name) ∧
      (t.nodes.filterMap fun n => n.2.symbol.literal?).flatMap Literal.toBytes = w := by
  have hg := wellFormed_of_toGrammar h
  obtain ⟨hsymbol, hvalid, hbytes⟩ := hg.parse_sound hbare hs hparse
  refine ⟨hsymbol, hg.validate_eq_ok.mpr hvalid, hbytes, fun n hn => ?_, ?_⟩
  · exact (hvalid.of_mem_nodes hn).symbol
  · rw [← Tree.toBytes_eq_terminals, hbytes]

/-- An `x` is parsed as an item. -/
theorem Document.parse_wrappedItems : ∃ g t, wrappedItems.toGrammar = .ok g ∧
    g.parse (Utf8.encode "x") "item" .complete = .ok t ∧ g.validate t = .ok () := by
  obtain ⟨g, h, hbare, hs, hloop, hrecognize⟩ := wrappedItems_spec
  have hg := wellFormed_of_toGrammar h
  obtain ⟨t, ht⟩ := hg.exists_parse_complete hbare hs (hg.noEmptyLoopIn hloop _ _) hrecognize
  exact ⟨g, t, h, ht, (parse_complete_sound h hbare hs ht).2.1⟩

/-! ### Parsing and recognizing -/

/-- **Parsing and recognizing agree away from empty loops.** What is parsed is recognized, in both
modes. An input is parsed exactly when it is recognized if none of its trees has an empty loop in
it; in particular the text of such a tree is parsed again. And without empty loops an input is
parsed as begun exactly when it is recognized as begun. -/
theorem Document.parse_iff_recognize {doc : Document} {g : Grammar} (h : doc.toGrammar = .ok g)
    (hbare : g.BareNames) {s : String} (hs : s ∈ g.rules.keys) :
    (∀ w mode t, g.parse w s mode = .ok t → g.recognize w s mode = true) ∧
      (∀ w, g.NoEmptyLoopIn s w →
        ((∃ t, g.parse w s .complete = .ok t) ↔ g.recognize w s .complete = true)) ∧
      (∀ t, t.symbol = .nonTerminal s → g.validate t = .ok () → g.NoEmptyLoopIn s t.toBytes →
        ∃ u, g.parse t.toBytes s .complete = .ok u) ∧
      (g.NoEmptyLoop → ∀ w,
        (∃ t, g.parse w s .incomplete = .ok t) ↔ g.recognize w s .incomplete = true) := by
  have hg := wellFormed_of_toGrammar h
  refine ⟨fun w mode t ht => Grammar.recognize_of_parse hbare hs ht, fun w hloop =>
    ⟨?_, hg.exists_parse_complete hbare hs hloop⟩, fun t hsymbol ht hloop => ?_, fun hloop w =>
    ⟨?_, hg.exists_parse_incomplete hbare hs hloop⟩⟩
  · rintro ⟨t, ht⟩
    exact Grammar.recognize_of_parse hbare hs ht
  · refine hg.exists_parse_complete hbare hs hloop ((hg.recognize_iff_valid hbare hs _).mpr ?_)
    exact ⟨t, hsymbol, hg.validate_eq_ok.mp ht, rfl⟩
  · rintro ⟨t, ht⟩
    exact Grammar.recognize_of_parse hbare hs ht

/-- Wrapped items have no empty loop, so the `x` that is recognized is parsed, and parsed as begun
exactly when it is recognized as begun. -/
theorem Document.parse_iff_recognize_wrappedItems : ∃ g, wrappedItems.toGrammar = .ok g ∧
    g.recognize (Utf8.encode "x") "item" .complete = true ∧
      (∃ t, g.parse (Utf8.encode "x") "item" .complete = .ok t) ∧
      ((∃ t, g.parse (Utf8.encode "x") "item" .incomplete = .ok t) ↔
        g.recognize (Utf8.encode "x") "item" .incomplete = true) := by
  obtain ⟨g, h, hbare, hs, hloop, hrecognize⟩ := wrappedItems_spec
  obtain ⟨-, hcomplete, -, hincomplete⟩ := parse_iff_recognize h hbare hs
  have hin := (wellFormed_of_toGrammar h).noEmptyLoopIn hloop "item" (Utf8.encode "x")
  exact ⟨g, h, hrecognize, (hcomplete _ hin).mpr hrecognize, hincomplete hloop _⟩

end GrammarFuzzing
