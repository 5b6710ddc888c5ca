import GrammarFuzzing.Proofs.Evolution.Invariant

/-!
# What an engine holds

An engine holds the trees of its population, its offspring and its solutions
(`GrammarFuzzing.Engine.Holds`). It has four ways to come by a tree: it fuzzes one from the start
symbol, repairs one, crosses two and mutates one. Everything else that it does with trees is to
choose among those it holds. So a property that these four keep holds of all trees that the engine
ever holds (`GrammarFuzzing.Engine.Keeps.stepped`), whatever the property is.
-/

namespace GrammarFuzzing

variable {P : Tree → Prop}

/-! ### The loops of an engine -/

namespace Census

/-- A tree is taken in, or the population stays as it is. -/
theorem forall_addUnique {c : Census} {population : List Tree} {t : Tree}
    (hpopulation : ∀ u ∈ population, P u) (ht : P t) : ∀ u ∈ (c.addUnique population t).1, P u := by
  rcases c.addUnique_cases population t with ⟨-, h⟩ | ⟨-, h⟩ <;> rw [h]
  · exact hpopulation
  · exact List.forall_mem_append.mpr ⟨hpopulation, List.forall_mem_singleton.mpr ht⟩

/-- A population is topped up with fuzzed trees. -/
theorem gives_forall_topUp {g : Grammar} {target : Nat} {c : Census} {population : List Tree}
    (hfuzz : ∀ settings, Attempt.Gives (Fuzzer.mk g settings).fuzz (fun _ => True) P)
    (h : ∀ u ∈ population, P u) :
    Attempt.Gives (c.topUp g population target) (fun _ => True) fun r => ∀ u ∈ r.1, P u :=
  (gives_refillWithin_of (I := fun ts _ => ∀ u ∈ ts, P u) (fun _ => hfuzz _)
    (fun hts _ ht => forall_addUnique hts ht) _ h).forget

end Census

namespace Engine

variable {τ : Type} {e : Engine τ}

/-- **A tree that an engine holds**: one of its population, its offspring or its solutions. -/
def Holds (e : Engine τ) (t : Tree) : Prop :=
  t ∈ e.population ∨ (∃ o ∈ e.offspring, o.tree = t) ∨ ∃ s ∈ e.corpus.entries, s.tree = t

/-- **All ways in which an engine makes trees keep a property.** -/
structure Keeps (e : Engine τ) (P : Tree → Prop) : Prop where
  fuzz : ∀ settings, Attempt.Gives (Fuzzer.mk e.grammar settings).fuzz (fun _ => True) P
  repair : ∀ {t}, P t → ∀ failing, P (repair e.grammar t failing).1
  crossover : ∀ {a b}, P a → P b → ∀ failing,
    Draw.Gives (GrammarFuzzing.crossover a b failing) fun children =>
      ∀ c d, children = some (c, d) → P c ∧ P d
  mutate : ∀ {t}, P t → ∀ memory failing,
    Draw.Gives (e.strategy.mutate memory e.grammar t failing) fun r => ∀ u, r.1 = .ok u → P u

theorem SameSetup.keeps {e' : Engine τ} (h : e.SameSetup e') (hkeeps : e.Keeps P) : e'.Keeps P := by
  obtain ⟨hfuzz, hrepair, hcrossover, hmutate⟩ := hkeeps
  rw [← h.grammar] at hfuzz hrepair hmutate
  rw [← h.strategy] at hmutate
  exact ⟨hfuzz, hrepair, hcrossover, hmutate⟩

/-- **Offspring are mutated and taken in.** -/
theorem gives_forall_addOffspring (hkeeps : e.Keeps P) (rate : Float)
    {offspring : List Offspring} {memory : τ} {population : List Tree} {census : Census}
    (hoffspring : ∀ o ∈ offspring, P o.tree) (h : ∀ u ∈ population, P u) :
    Attempt.Gives (addOffspring e.strategy e.grammar rate offspring memory population census)
      (fun _ => True) fun r => ∀ u ∈ r.2.1, P u := by
  let I := fun (rest : List Offspring) (_ : τ) (ts : List Tree) (_ : Census) =>
    (∀ o ∈ rest, P o.tree) ∧ ∀ u ∈ ts, P u
  refine (gives_addOffspring_of (I := I) ?_ ?_ offspring ⟨hoffspring, h⟩).mono fun r hr => hr.2
  · rintro o rest memory ts c ⟨hrest, hts⟩
    obtain ⟨ho, hrest⟩ := List.forall_mem_cons.mp hrest
    exact ⟨hrest, Census.forall_addUnique hts ho⟩
  · rintro o rest memory ts c ⟨hrest, hts⟩
    obtain ⟨ho, hrest⟩ := List.forall_mem_cons.mp hrest
    refine (hkeeps.mutate ho memory o.failing).mono fun r hr => ⟨fun _ _ => trivial, fun t ht => ?_⟩
    rcases ht with ht | rfl
    · exact ⟨hrest, Census.forall_addUnique hts (hr t ht)⟩
    · exact ⟨hrest, Census.forall_addUnique hts ho⟩

/-- **Neighbours among offspring are crossed.** -/
theorem gives_forall_crossPairs (hkeeps : e.Keeps P) (rate : Float) :
    ∀ {offspring : List Offspring}, (∀ o ∈ offspring, P o.tree) →
      Draw.Gives (crossPairs rate offspring) fun r => ∀ o ∈ r, P o.tree
  | [], h => Draw.gives_pure h
  | [_], h => Draw.gives_pure h
  | a :: b :: rest, h => by
    obtain ⟨ha, h⟩ := List.forall_mem_cons.mp h
    obtain ⟨hb, hrest⟩ := List.forall_mem_cons.mp h
    have hnext : ∀ a' b' : Offspring, P a'.tree → P b'.tree →
        Draw.Gives (do return a' :: b' :: (← crossPairs rate rest)) fun r => ∀ o ∈ r, P o.tree := by
      intro a' b' ha' hb'
      refine (gives_forall_crossPairs hkeeps rate hrest).bind fun r hr => Draw.gives_pure ?_
      exact List.forall_mem_cons.mpr ⟨ha', List.forall_mem_cons.mpr ⟨hb', hr⟩⟩
    rw [crossPairs]
    refine (Draw.gives_true _).bind fun crossed _ => ?_
    dsimp only
    split
    · refine (hkeeps.crossover ha hb a.failing).bind fun children hchildren => ?_
      split
      · rename_i s t
        obtain ⟨hs, ht⟩ := hchildren s t rfl
        exact hnext { a with tree := s } { b with tree := t } hs ht
      · exact hnext a b ha hb
    · exact hnext a b ha hb

/-- **Parents are picked from the population and repaired.** -/
theorem gives_forall_pickParents (hkeeps : e.Keeps P) (h : ∀ t ∈ e.population, P t)
    (fitness : List Float) : ∀ n, Attempt.Gives (e.pickParents fitness n) (fun _ => True)
      fun offspring => ∀ o ∈ offspring, P o.tree
  | 0 => Attempt.gives_pure fun _ ho => absurd ho List.not_mem_nil
  | n + 1 => by
    rw [pickParents]
    refine (Attempt.gives_true _).bind fun i _ => ?_
    split
    · rename_i t s ht hs
      refine (gives_forall_pickParents hkeeps h fitness n).bind fun rest hrest => ?_
      exact Attempt.gives_pure (List.forall_mem_cons.mpr
        ⟨hkeeps.repair (h t (List.mem_of_getElem? ht)) s.failing, hrest⟩)
    · exact Attempt.gives_throw trivial

/-- **Elites are kept from the population.** -/
theorem forall_kept (h : ∀ t ∈ e.population, P t) : ∀ t ∈ e.kept.1, P t := by
  have hfold : ∀ (ts : List Tree) (acc : List Tree × Census), (∀ t ∈ ts, P t) →
      (∀ u ∈ acc.1, P u) → ∀ u ∈ (ts.foldl (fun acc t => acc.2.addUnique acc.1 t) acc).1, P u := by
    intro ts
    induction ts with
    | nil => exact fun acc _ hacc => hacc
    | cons t ts ih =>
      intro acc hts hacc
      obtain ⟨ht, hts⟩ := List.forall_mem_cons.mp hts
      exact ih _ hts (Census.forall_addUnique hacc ht)
  refine hfold e.elites ([], e.census.reset) (fun t ht => ?_) fun u hu => absurd hu List.not_mem_nil
  obtain ⟨i, -, hi⟩ := List.mem_filterMap.mp ht
  exact h t (List.mem_of_getElem? hi)

/-! ### Transitions -/

theorem Keeps.populate (hkeeps : e.Keeps P) (h : ∀ t, e.Holds t → P t) :
    ∀ t, e.populate.2.Holds t → P t := by
  intro t ht
  obtain ⟨_, _, -, hp⟩ | ⟨population, census, source, hdrawn, hp⟩ := e.populate_cases
  · rw [hp] at ht
    exact h t ht
  · have hpopulation : ∀ u ∈ population, P u :=
      (Census.gives_forall_topUp hkeeps.fuzz
        fun u hu => absurd hu List.not_mem_nil).of_run_eq hdrawn
    rcases hp with hp | ⟨-, hp⟩ <;> rw [hp] at ht <;>
    · rcases ht with ht | ht
      · exact hpopulation t ht
      · exact h t (Or.inr ht)

/-- Solutions are trees of the population. -/
theorem holds_of_holds_evaluate {t : Tree} (ht : e.evaluate.Holds t) : e.Holds t := by
  rcases ht with ht | ht | ⟨s, hs, rfl⟩
  · exact Or.inl ht
  · exact Or.inr (Or.inl ht)
  · rcases mem_foldl_add _ hs with hs | ⟨p, hp, hs⟩
    · exact Or.inr (Or.inr ⟨s, hs, rfl⟩)
    · exact Or.inl (hs ▸ (List.of_mem_zip hp).1)

theorem holds_of_holds_check {t : Tree} (ht : e.check.Holds t) : e.Holds t := by
  rw [Engine.check] at ht
  split at ht
  · exact ht
  · exact ht

theorem Keeps.select (hkeeps : e.Keeps P) (h : ∀ t, e.Holds t → P t) :
    ∀ t, e.select.2.Holds t → P t := by
  have hpopulation : ∀ t ∈ e.population, P t := fun t ht => h t (Or.inl ht)
  intro t ht
  obtain ⟨picked, source, hdrawn, ⟨err, -, hp⟩ | ⟨offspring, rfl, hp⟩⟩ := e.select_cases <;>
    rw [hp] at ht
  · rcases ht with ht | ⟨o, ho, -⟩ | ht
    · exact hpopulation t ht
    · exact absurd ho List.not_mem_nil
    · exact h t (Or.inr (Or.inr ht))
  · rcases ht with ht | ⟨o, ho, rfl⟩ | ht
    · exact forall_kept hpopulation t ht
    · exact (gives_forall_pickParents hkeeps hpopulation _ _).of_run_eq hdrawn o ho
    · exact h t (Or.inr (Or.inr ht))

theorem Keeps.crossed (hkeeps : e.Keeps P) (h : ∀ t, e.Holds t → P t) :
    ∀ t, (Engine.crossover e).Holds t → P t := by
  obtain ⟨offspring, source, hdrawn, hp⟩ := e.crossover_cases
  have hoffspring : ∀ o ∈ e.offspring, P o.tree := fun o ho => h _ (Or.inr (Or.inl ⟨o, ho, rfl⟩))
  intro t ht
  rw [hp] at ht
  rcases ht with ht | ⟨o, ho, rfl⟩ | ht
  · exact h t (Or.inl ht)
  · exact (gives_forall_crossPairs hkeeps _ hoffspring).of_run_eq hdrawn o ho
  · exact h t (Or.inr (Or.inr ht))

theorem Keeps.mutated (hkeeps : e.Keeps P) (h : ∀ t, e.Holds t → P t) :
    ∀ t, (Engine.mutate e).2.Holds t → P t := by
  have hgeneration :
      Attempt.Gives e.nextGeneration (fun _ => True) fun r => ∀ u ∈ r.2.1, P u := by
    rw [nextGeneration]
    refine (gives_forall_addOffspring hkeeps e.rates.mutation
      (fun o ho => h _ (Or.inr (Or.inl ⟨o, ho, rfl⟩))) fun t ht => h t (Or.inl ht)).bind ?_
    intro added hadded
    refine (Census.gives_forall_topUp hkeeps.fuzz hadded).bind fun filled hfilled => ?_
    exact Attempt.gives_pure hfilled
  intro t ht
  obtain ⟨_, _, -, hp⟩ | ⟨memory, population, census, source, hdrawn, hp⟩ := e.mutate_cases <;>
    rw [hp] at ht
  · exact h t ht
  · rcases ht with ht | ⟨o, ho, -⟩ | ht
    · exact hgeneration.of_run_eq hdrawn t ht
    · exact absurd ho List.not_mem_nil
    · exact h t (Or.inr (Or.inr ht))

/-- **A property that is kept holds of all trees after a transition** if it did before. -/
theorem Keeps.step (hkeeps : e.Keeps P) (h : ∀ t, e.Holds t → P t) :
    ∀ t, e.step.2.Holds t → P t := by
  rw [step_snd]
  split
  · exact hkeeps.populate h
  · exact fun t ht => h t (holds_of_holds_evaluate ht)
  · exact fun t ht => h t (holds_of_holds_check ht)
  · exact hkeeps.select h
  · exact hkeeps.crossed h
  · exact hkeeps.mutated h
  · exact h

/-- **A property that is kept holds of all trees that an engine ever holds.** -/
theorem Keeps.stepped (hkeeps : e.Keeps P) (h : ∀ t, e.Holds t → P t) :
    ∀ n t, (e.stepped n).Holds t → P t
  | 0 => h
  | n + 1 => ((e.sameSetup_stepped n).keeps hkeeps).step (hkeeps.stepped h n)

/-- An engine that was just made holds no trees. -/
theorem not_holds_of_eq_ok {g : Grammar} {constraints : List Constraint} {config : Config}
    {strategy : Strategy τ} {memory : τ}
    (he : Engine.of g constraints config strategy memory = .ok e) (source : Source) (t : Tree) :
    ¬ Holds { e with source := source } t := by
  obtain ⟨-, rfl⟩ := valid_of_eq_ok he
  simp [Holds]

end Engine

end GrammarFuzzing
