import GrammarFuzzing.Proofs.Evolution.Operators
import GrammarFuzzing.Proofs.Grammar.Replacement

/-!
# Variation stays within the language

Each way in which the engine makes a tree out of others keeps it a tree that derives from the start
symbol:

* crossover swaps valid subtrees (`GrammarFuzzing.gives_crossover`);
* mutation puts in an expansion of the symbol it takes out
  (`GrammarFuzzing.SubtreeMutator.gives_mutate`);
* repair puts in what was parsed from a suggestion (`GrammarFuzzing.derivesStart_repair`).

All of them end in `GrammarFuzzing.Tree.replace`, which refuses a subtree with another symbol. So it
does not matter whether the paths to blame are still up to date: a stale path leads to a valid
subtree, or to none.
-/

namespace GrammarFuzzing

variable {g : Grammar}

/-- No structural hint is in force: none of the probabilities of a node is above zero. -/
def Grammar.Unhinted (g : Grammar) : Prop :=
  (Fuzzer.mk g {}).Unhinted

instance (g : Grammar) : Decidable g.Unhinted :=
  inferInstanceAs (Decidable (Fuzzer.mk g {}).Unhinted)

/-- **What evolution asks of a grammar.** -/
structure Grammar.Evolvable (g : Grammar) : Prop where
  wellFormed : g.WellFormed
  bareNames : g.BareNames
  noEmptyCharset : g.NoEmptyCharset
  unhinted : g.Unhinted
  start_mem : g.start ∈ g.rules.keys

/-- **What a symbol is expanded to without hints is valid.** -/
theorem Grammar.Evolvable.gives_fuzzSymbol (hg : g.Evolvable) (settings : FuzzSettings)
    {name : String} (hname : name ∈ g.rules.keys) (budget : Nat) :
    Attempt.Gives ((Fuzzer.mk g settings).fuzzSymbol name budget) (fun _ => True) fun t =>
      t.symbol = .nonTerminal name ∧ g.Valid t := by
  -- The hints of a fuzzer are those of its grammar, whatever its limits.
  have hunhinted : (Fuzzer.mk g settings).Unhinted := hg.unhinted
  have hgives := Fuzzer.gives_fuzzSymbol (f := ⟨g, settings⟩) hg.wellFormed hg.bareNames
    hg.noEmptyCharset hname budget
  refine hgives.forget.mono ?_
  rintro t ⟨hsymbol, hvalid⟩
  rw [hunhinted.widened_eq] at hvalid
  exact ⟨hsymbol, hvalid⟩

/-! ### Crossover -/

theorem derivesStart_swapAt {a b c d : Tree} (ha : g.DerivesStart a) (hb : g.DerivesStart b)
    {pathA pathB : Path} (h : swapAt a b pathA pathB = some (c, d)) :
    g.DerivesStart c ∧ g.DerivesStart d := by
  obtain ⟨subA, subB, childA, childB, hsubA, hsubB, hchildA, hchildB, rfl, rfl⟩ := swapAt_eq_some h
  have hA := ha.replace (hb.of_get? hsubB) hchildA
  have hB := hb.replace (ha.of_get? hsubA) hchildB
  exact ⟨hA.stripNestedParties, hB.stripNestedParties⟩

/-- **The children of two trees of the language are trees of the language.** -/
theorem gives_crossover {a b : Tree} (ha : g.DerivesStart a) (hb : g.DerivesStart b)
    (failing : List FailingTree) :
    Draw.Gives (crossover a b failing) fun children =>
      ∀ c d, children = some (c, d) → g.DerivesStart c ∧ g.DerivesStart d := by
  refine (gives_crossover_swapAt a b failing).mono fun children hchildren c d h => ?_
  obtain ⟨pathA, pathB, -, -, hswap⟩ := hchildren c d h
  exact derivesStart_swapAt ha hb hswap

/-! ### Mutation -/

/-- **A mutated tree of the language is a tree of the language.** -/
theorem SubtreeMutator.gives_mutate (hg : g.Evolvable) (m : SubtreeMutator) {t : Tree}
    (ht : g.DerivesStart t) (failing : List FailingTree) :
    Attempt.Gives (m.mutate g t failing) (fun _ => True) g.DerivesStart := by
  refine m.gives_mutate_of ht (fun path old name budget _ hold hname => ?_) failing
  have hmem := (ht.of_get? hold).mem_keys hname
  refine (hg.gives_fuzzSymbol m.settings hmem _).mono ?_
  rintro fresh ⟨-, hfresh⟩ u hu
  exact (ht.replace hfresh hu).stripNestedParties

/-! ### Repair -/

theorem derivesStart_applySuggestion? (hg : g.Evolvable) {t u : Tree} {f : FailingTree}
    (ht : g.DerivesStart t) (h : applySuggestion? g t f = some u) : g.DerivesStart u := by
  obtain ⟨name, node, w, parsed, hnode, hsymbol, -, hparsed, hu⟩ := applySuggestion?_eq_some h
  have hmem := (ht.of_get? hnode).mem_keys hsymbol
  obtain ⟨-, hvalid, -⟩ := hg.wellFormed.parse_sound hg.bareNames hmem hparsed
  exact ht.replace hvalid hu

/-- **A repaired tree of the language is a tree of the language.** -/
theorem derivesStart_repair (hg : g.Evolvable) {t : Tree} (ht : g.DerivesStart t)
    (failing : List FailingTree) : g.DerivesStart (repair g t failing).1 := by
  rcases repair_induction (derivesStart_applySuggestion? hg) ht failing with
    hsame | ⟨u, hu, hrepair⟩
  · rwa [hsame]
  · rw [hrepair]
    exact hu.stripNestedParties

end GrammarFuzzing
