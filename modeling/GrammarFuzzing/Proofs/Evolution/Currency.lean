import GrammarFuzzing.Proofs.Evolution.Closure
import GrammarFuzzing.Proofs.Fuzz.Generated

/-!
# Generated values during evolution

Each operator of variation looks in its own way whether it may replace a node: crossover takes
writable nodes, repair asks whether the node is read-only, and mutation climbs to a writable node or
to the root. Since nothing is written below a read-only node, all of them replace generated values
as a whole or not at all. So an engine whose generators are deterministic only holds trees that are
current (`GrammarFuzzing.Engine.stepped_current`).
-/

namespace GrammarFuzzing

variable {g : Grammar}

theorem Tree.readOnly_of_isWritable {t : Tree} (h : t.isWritable = true) : t.readOnly = false := by
  rw [isWritable, Bool.and_eq_true, Bool.not_eq_true'] at h
  exact h.2

/-- There is a node that is not read-only at a slot. -/
theorem Tree.Slot.exists_get? {t : Tree} {path : Path} (h : t.Slot path) :
    ∃ n, t.get? path = some n ∧ n.readOnly = false := by
  obtain ⟨-, n, hn, hwritable⟩ := h
  exact ⟨n, hn, readOnly_of_isWritable hwritable⟩

/-! ### Operators -/

/-- **The children of current trees are current.** -/
theorem Grammar.Current.gives_crossover {a b : Tree} (ha : g.Current a) (hb : g.Current b)
    (failing : List FailingTree) : Draw.Gives (crossover a b failing) fun children =>
      ∀ c d, children = some (c, d) → g.Current c ∧ g.Current d := by
  refine (gives_crossover_swapAt a b failing).mono fun children hchildren c d h => ?_
  obtain ⟨pathA, pathB, hslotA, hslotB, hswap⟩ := hchildren c d h
  obtain ⟨subA, subB, childA, childB, hsubA, hsubB, hchildA, hchildB, rfl, rfl⟩ :=
    swapAt_eq_some hswap
  have hof : ∀ {t sub : Tree} {path : Path}, g.Current t → t.Slot path →
      t.get? path = some sub → g.Current sub := by
    intro t sub path ht hslot hsub
    obtain ⟨n, hn, hreadOnly⟩ := hslot.exists_get?
    obtain rfl := Option.some.inj (hn.symm.trans hsub)
    exact Grammar.Current.of_get? hreadOnly ht hn
  have hA := ha.replace (hof hb hslotB hsubB) (Or.inr hslotA.exists_get?) hchildA
  have hB := hb.replace (hof ha hslotA hsubA) (Or.inr hslotB.exists_get?) hchildB
  exact ⟨hA.stripParties false, hB.stripParties false⟩

/-- **A mutated current tree is current.** -/
theorem SubtreeMutator.gives_current_mutate (hg : g.Repeatable) (m : SubtreeMutator) {t : Tree}
    (ht : g.Current t) (failing : List FailingTree) :
    Attempt.Gives (m.mutate g t failing) (fun _ => True) g.Current := by
  refine m.gives_mutate_of ht (fun path old name budget hslot hold _ => ?_) failing
  refine (Fuzzer.gives_current_fuzzSymbol (f := ⟨g, m.settings⟩) hg name budget).mono ?_
  intro fresh hfresh u hu
  refine (ht.replace hfresh (hslot.imp_right fun hwritable => ?_) hu).stripParties false
  exact ⟨old, hold, Tree.readOnly_of_isWritable hwritable⟩

/-- **A repaired current tree is current.** -/
theorem Grammar.Current.repair {t : Tree} (ht : g.Current t) (failing : List FailingTree) :
    g.Current (repair g t failing).1 := by
  have hstep : ∀ {t u : Tree} {f : FailingTree}, g.Current t → applySuggestion? g t f = some u →
      g.Current u := by
    intro t u f ht h
    obtain ⟨name, node, w, parsed, hnode, -, hreadOnly, hparsed, hu⟩ := applySuggestion?_eq_some h
    exact ht.replace (current_parse hparsed) (Or.inr ⟨node, hnode, hreadOnly⟩) hu
  rcases repair_induction hstep ht failing with hsame | ⟨u, hu, hrepair⟩
  · rwa [hsame]
  · rw [hrepair]
    exact hu.stripParties false

/-! ### Engines -/

namespace Engine

variable {τ : Type} {e : Engine τ}

/-- **Generated values never go stale.** For every grammar with deterministic generators, all
constraints, all valid settings, every tuner, every random source and any number of transitions,
with errors or without: in every tree that the engine holds, each outermost read-only node has the
value that the generator of its symbol computes from its sources, and all below it is read-only; and
every node that is not at or below such a node is not read-only and has no sources. -/
theorem stepped_current {d : Draft} (hd : d.Coherent) (h : d.build = .ok g) (hbare : g.BareNames)
    (hdeterministic : ∀ p ∈ g.generators, p.2.Deterministic) {constraints : List Constraint}
    {config : Config} {m : SubtreeMutator}
    {tune : τ → Float → Float → List Tree → Rates Float → Rates Float × τ} {memory : τ}
    (he : Engine.of g constraints config (.tuned m tune) memory = .ok e) (source : Source) (n : Nat)
    {t : Tree} (ht : (stepped { e with source := source } n).Holds t) :
    (∀ path node, t.OutermostReadOnly path node → g.UpToDate node ∧ node.Frozen) ∧
      ∀ path node, t.get? path = some node →
        (∀ above below top, path = above ++ below → ¬ t.OutermostReadOnly above top) →
          node.readOnly = false ∧ node.sources = [] := by
  have hg : g.Repeatable := ⟨hd.wellFormed h, hbare,
    fun hgenerator => hdeterministic _ (Dictionary.mem_of_find? hgenerator),
    (Draft.builds_of_build h).has_generator⟩
  obtain ⟨-, rfl, -, hstrategy, -⟩ := of_eq_ok he
  have hkeeps : Keeps { e with source := source } e.grammar.Current := by
    refine ⟨fun settings => ?_, fun ht => ht.repair, fun ha hb => ha.gives_crossover hb, ?_⟩
    · exact Fuzzer.gives_current_fuzzSymbol (f := ⟨e.grammar, settings⟩) hg _ _
    · intro t ht memory failing
      dsimp only
      rw [hstrategy]
      refine Draw.Gives.bind (m.gives_current_mutate hg ht failing) fun result hresult => ?_
      refine Draw.gives_pure ?_
      rintro u rfl
      exact hresult
  have hcurrent := hkeeps.stepped (fun t ht => absurd ht (not_holds_of_eq_ok he source t)) n t ht
  exact ⟨fun path node hnode => hcurrent.upToDate hnode,
    fun path node hnode houtside => hcurrent.written_at hnode houtside⟩

end Engine

/-- A digit and a copy of one. -/
def Document.copies : Document :=
  ⟨"pair", [("copy", .ref "digit"), ("digit", .chars "01"),
    ("pair", .seq [.ref "digit", .ref "copy"])], []⟩

/-- A copy is computed from a digit of its own. -/
def Generator.copying : Dictionary String Generator :=
  [("copy", .named "concat" ["digit"] [] 0)]

/-- In all pairs that an engine holds after forty transitions, the outermost read-only nodes are up
to date. -/
theorem Engine.stepped_current_copies :
    ∃ g e, { Document.copies.toDraft with generators := Generator.copying }.build = .ok g ∧
      standard g [] {} (.stagnation (.ofBase ⟨0.2, 0.8, 5⟩)) = .ok e ∧
      ∀ t, (stepped { e with source := .ofSeed 28 } 40).Holds t →
        ∀ path node, t.OutermostReadOnly path node → g.UpToDate node := by
  have h : { Document.copies.toDraft with generators := Generator.copying }.build = .ok _ := rfl
  have hd : Draft.Coherent { Document.copies.toDraft with generators := Generator.copying } :=
    ⟨Document.copies.coherent_toDraft.numbered, Document.copies.coherent_toDraft.rules⟩
  have hbare : ∀ name ∈ ["copy", "digit", "pair"], bareName name = name := by decide
  have hdeterministic : ∀ p ∈ Generator.copying, p.2.Deterministic :=
    List.forall_mem_singleton.mpr (Generator.deterministic_named _ _ _ _)
  have hmake : ∀ g, ∃ e, Engine.of g [] {} (.tuned ⟨{}, 0.9⟩
      fun (t : Tuner Float) previous current _ rates => t.tune previous current rates)
        (.stagnation (.ofBase ⟨0.2, 0.8, 5⟩)) = .ok e ∧
      standard g [] {} (.stagnation (.ofBase ⟨0.2, 0.8, 5⟩)) = .ok e := fun g => ⟨_, rfl, rfl⟩
  obtain ⟨e, he, hstandard⟩ := hmake _
  refine ⟨_, e, h, hstandard, fun t ht path node hnode => ?_⟩
  exact ((stepped_current hd h hbare hdeterministic he (.ofSeed 28) 40 ht).1 path node hnode).1

end GrammarFuzzing
