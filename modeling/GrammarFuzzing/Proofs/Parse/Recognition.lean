import GrammarFuzzing.Parse.Basic
import GrammarFuzzing.Proofs.Parse.Chart
import GrammarFuzzing.Proofs.Parse.Meaning

/-!
# The recognizer is exact

The bytes that `GrammarFuzzing.Grammar.recognize` accepts in complete mode are those that valid
trees render as (`GrammarFuzzing.Document.recognize_complete_iff`). Three readings of a grammar meet
here: the chart records the stretches that goals span (`GrammarFuzzing.Chart.spans_of_iff`), a
stretch of all of the input is a yield (`GrammarFuzzing.FlatGrammar.spans_all`), and the yields of a
symbol are what its valid trees render as (`GrammarFuzzing.Grammar.WellFormed.goalYields_named`).
-/

namespace GrammarFuzzing

namespace Grammar

variable {g : Grammar} {s : String}

/-- A symbol of the grammar is its own bare name, and has a rule. -/
theorem BareNames.exists_body (hbare : g.BareNames) (hs : s ∈ g.rules.keys) :
    bareName s = s ∧ ∃ body, g.body? s = some body :=
  ⟨hbare s hs, Dictionary.exists_find?_of_mem_keys hs⟩

/-- In complete mode the recognizer asks whether the symbol spans the input. -/
theorem recognize_complete (hbare : g.BareNames) (hs : s ∈ g.rules.keys) (w : Bytes) :
    g.recognize w s .complete = true ↔
      (FlatGrammar.of g).Spans w.toArray (.named s) 0 w.toArray.size := by
  have hrule : g.hasRule s = true := by
    rw [hasRule, hbare s hs]
    exact Dictionary.has_iff_mem_keys.mpr hs
  rw [recognize, hbare s hs]
  simp only [hrule, Bool.not_true, Bool.false_eq_true, if_false]
  rw [Chart.spans_of_iff (FlatGrammar.lawful_of g)]
  exact and_iff_right .root

theorem WellFormed.recognize_iff_valid (hg : g.WellFormed) (hbare : g.BareNames)
    (hs : s ∈ g.rules.keys) (w : Bytes) :
    g.recognize w s .complete = true ↔
      ∃ t : Tree, t.symbol = .nonTerminal s ∧ g.Valid t ∧ t.toBytes = w := by
  rw [recognize_complete hbare hs, FlatGrammar.spans_all, hg.goalYields_named hbare]

end Grammar

/-- **The recognizer is exact**: it accepts the bytes of the trees that the grammar validates, and
no others. -/
theorem Document.recognize_complete_iff {doc : Document} {g : Grammar} (h : doc.toGrammar = .ok g)
    (hbare : g.BareNames) {s : String} (hs : s ∈ g.rules.keys) (w : Bytes) :
    g.recognize w s .complete = true ↔
      ∃ t : Tree, t.symbol = .nonTerminal s ∧ g.validate t = .ok () ∧ t.toBytes = w := by
  have hg := wellFormed_of_toGrammar h
  rw [hg.recognize_iff_valid hbare hs]
  simp only [hg.validate_eq_ok]

/-- Lists of `a`, left-recursive and cyclic: a list is a list or nothing, possibly with one more. -/
def Document.leftRecursive : Document :=
  ⟨"list", [("list", .alt [.ref "list", .seq [.ref "list", .text "a"], .text ""])], []⟩

/-- Two letters are a list: the grammar validates a tree of them. -/
theorem Document.recognize_leftRecursive :
    ∃ g, leftRecursive.toGrammar = .ok g ∧
      g.recognize (Utf8.encode "aa") "list" .complete = true := by
  have h : leftRecursive.toGrammar = .ok _ := rfl
  refine ⟨_, h, (recognize_complete_iff h ?_ ?_ _).mpr ⟨.branch "list" [.branch "list"
    [.branch "list" [.leaf (.text "")], .leaf (.text "a")], .leaf (.text "a")], rfl, ?_, ?_⟩⟩
  · exact (by decide : ∀ name ∈ ["list"], bareName name = name)
  · exact (by decide : "list" ∈ ["list"])
  · rfl
  · rfl

end GrammarFuzzing
