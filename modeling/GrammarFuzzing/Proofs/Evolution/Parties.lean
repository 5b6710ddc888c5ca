import GrammarFuzzing.Proofs.Evolution.Variation
import GrammarFuzzing.Proofs.Fuzz.RoundTrip
import GrammarFuzzing.Proofs.Grammar.Outermost

/-!
# Variation and the parties of messages

Whether variation keeps trees canonical, with parties on their outermost messages and nowhere else.

* Mutation does: a fresh expansion is canonical, so no party is missing wherever it is put
  (`GrammarFuzzing.SubtreeMutator.gives_canonical_mutate`).
* Repair does: what was parsed is canonical, too (`GrammarFuzzing.Grammar.canonical_repair`).
* Crossover does unless it takes a subtree out of a message to a place that is neither within a
  message nor one itself. There the references below the subtree should say who sends and receives
  them, but the subtree has lost that, and nothing brings it back. This is the only case, and it
  loses parties exactly if some reference below the subtree names any
  (`GrammarFuzzing.Grammar.canonical_swapAt_iff`).
-/

namespace GrammarFuzzing

namespace Grammar

variable {g : Grammar}

/-- **When the children of a crossover are canonical**: each is if the subtree it was given fits. -/
theorem canonical_swapAt_iff (huniform : g.UniformParties) {a b c d : Tree} {pathA pathB : Path}
    (ha : g.Canonical a) (hb : g.Canonical b) (hvalidA : g.Valid a) (hvalidB : g.Valid b)
    (hpathA : pathA ≠ []) (hpathB : pathB ≠ []) (h : swapAt a b pathA pathB = some (c, d)) :
    (g.Canonical c ↔ g.Fits b pathB a pathA) ∧ (g.Canonical d ↔ g.Fits a pathA b pathB) := by
  obtain ⟨subA, subB, childA, childB, hsubA, hsubB, hchildA, hchildB, rfl, rfl⟩ := swapAt_eq_some h
  exact ⟨canonical_transplant_iff huniform ha hb hvalidB hpathA hpathB hsubB hchildA,
    canonical_transplant_iff huniform hb ha hvalidA hpathB hpathA hsubA hchildB⟩

/-- A suggestion leaves no party missing. -/
theorem marked_applySuggestion? (hg : g.WellFormed) (hbare : g.BareNames) {t u : Tree}
    {f : FailingTree} (ht : g.Marked t ∧ g.Valid t) (h : applySuggestion? g t f = some u) :
    g.Marked u ∧ g.Valid u := by
  obtain ⟨name, node, w, parsed, hnode, hsymbol, -, hparsed, hu⟩ := applySuggestion?_eq_some h
  have hmem := (ht.2.of_get? hnode).mem_keys hsymbol
  have hcanonical := hg.parse_canonical hbare hmem hparsed
  obtain ⟨-, hvalid, -⟩ := hg.parse_sound hbare hmem hparsed
  exact ⟨ht.1.replace (fun _ _ _ _ => hcanonical.markedAll) hu, (ht.2.replace hvalid hu).1⟩

/-- **A repaired canonical tree is canonical.** -/
theorem canonical_repair (hg : g.WellFormed) (hbare : g.BareNames) {t : Tree}
    (ht : g.Canonical t) (hvalid : g.Valid t) (failing : List FailingTree) :
    g.Canonical (repair g t failing).1 := by
  rcases repair_induction (marked_applySuggestion? hg hbare) ⟨ht.marked, hvalid⟩ failing with
    hsame | ⟨u, ⟨hu, -⟩, hrepair⟩
  · rwa [hsame]
  · rw [hrepair]
    exact hu.canonical

end Grammar

/-- **A mutated canonical tree is canonical**, without generators. -/
theorem SubtreeMutator.gives_canonical_mutate {g : Grammar} (hg : g.WellFormed)
    (hgenerators : g.generators = []) (m : SubtreeMutator) {t : Tree} (ht : g.Canonical t)
    (failing : List FailingTree) :
    Attempt.Gives (m.mutate g t failing) (fun _ => True) g.Canonical := by
  refine m.gives_mutate_of ht (fun path old name budget _ hold hname => ?_) failing
  refine
    (Fuzzer.gives_canonical_fuzzSymbol (f := ⟨g, m.settings⟩) hg hgenerators name budget).mono ?_
  rintro fresh ⟨-, hfresh⟩ u hu
  exact (ht.marked.replace (fun _ _ _ _ => hfresh.markedAll) hu).canonical

/-- **Variation and the parties of messages**, in a grammar without generators in which all
references to a symbol name the same parties. Mutation keeps canonical trees canonical, and so does
repair if no name is in brackets. The children of a crossover come out of a swap of two nodes below
the roots, and each of them is canonical exactly if the subtree it was given fits: it was not taken
out of a message to a place that is neither within a message nor one itself, or no reference below
it names parties. A canonical tree has the messages that it should have: the outermost nodes below
the root of which references say who sends them. -/
theorem Draft.canonical_variation {d : Draft} (hd : d.Coherent) {g : Grammar} (h : d.build = .ok g)
    (hgenerators : g.generators = []) (huniform : g.UniformParties) :
    (∀ a b failing, g.Canonical a → g.Canonical b → g.validate a = .ok () →
      g.validate b = .ok () → Draw.Gives (crossover a b failing) fun children =>
        ∀ c d, children = some (c, d) → ∃ pathA pathB, a.Slot pathA ∧ b.Slot pathB ∧
          swapAt a b pathA pathB = some (c, d) ∧ (g.Canonical c ↔ g.Fits b pathB a pathA) ∧
            (g.Canonical d ↔ g.Fits a pathA b pathB)) ∧
    (∀ (m : SubtreeMutator) t failing, g.Canonical t →
      Attempt.Gives (m.mutate g t failing) (fun _ => True) g.Canonical) ∧
    (g.BareNames → ∀ t failing, g.Canonical t → g.validate t = .ok () →
      g.Canonical (repair g t failing).1) ∧
    (∀ t, g.Canonical t → ∀ m, m ∈ t.messages ↔
      ∃ n, m.path ≠ [] ∧ t.get? m.path = some n ∧ t.enclosed m.path = false ∧
        (∃ id name, g.Occurs (.reference id name (some m.sender) m.recipient) ∧
          n.symbol = .nonTerminal name) ∧ n.symbol = m.symbol ∧ n.toBytes = m.payload) := by
  have hg := hd.wellFormed h
  refine ⟨fun a b failing ha hb hvalidA hvalidB => ?_, fun m t failing ht => ?_,
    fun hbare t failing ht hvalid => ?_, fun t ht m => ht.mem_messages_iff huniform⟩
  · refine (gives_crossover_swapAt a b failing).mono fun children hchildren c d hcd => ?_
    obtain ⟨pathA, pathB, hslotA, hslotB, hswap⟩ := hchildren c d hcd
    have hiff := Grammar.canonical_swapAt_iff huniform ha hb (hg.validate_eq_ok.mp hvalidA)
      (hg.validate_eq_ok.mp hvalidB) hslotA.1 hslotB.1 hswap
    exact ⟨pathA, pathB, hslotA, hslotB, hswap, hiff⟩
  · exact m.gives_canonical_mutate hg hgenerators ht failing
  · exact Grammar.canonical_repair hg hbare ht (hg.validate_eq_ok.mp hvalid) failing

/-- A greeting is canonical as it was fuzzed, and stays so whatever is mutated or mended in it. -/
theorem Document.canonical_greeting : ∃ g, greetings.toGrammar = .ok g ∧
    g.Canonical Tree.greeting ∧
      (∀ (m : SubtreeMutator) failing,
        Attempt.Gives (m.mutate g Tree.greeting failing) (fun _ => True) g.Canonical) ∧
      ∀ failing, g.Canonical (repair g Tree.greeting failing).1 := by
  have h : greetings.toGrammar = .ok _ := rfl
  have hbare : ∀ name ∈ ["exchange", "greeting", "name"], bareName name = name := by decide
  have hfuzzed := Fuzzer.gives_canonical_fuzzSymbol (f := ⟨_, {}⟩) (wellFormed_of_toGrammar h) rfl
    "exchange" 10
  obtain ⟨-, hcanonical⟩ : Tree.greeting.Plain ∧ Grammar.Canonical _ Tree.greeting :=
    @Attempt.Gives.of_run_eq _ _ _ _ _ hfuzzed (.ofWords []) _ _ rfl
  obtain ⟨-, hmutate, hrepair, -⟩ :=
    Draft.canonical_variation greetings.coherent_toDraft h rfl (by decide)
  exact ⟨_, h, hcanonical, fun m failing => hmutate m _ failing hcanonical,
    fun failing => hrepair hbare _ failing hcanonical rfl⟩

end GrammarFuzzing
