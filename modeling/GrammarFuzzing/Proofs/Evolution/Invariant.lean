import GrammarFuzzing.Proofs.Evolution.Population

/-!
# The invariant of evolution

All trees that an engine holds derive from the start symbol, and whenever its population is about to
be evaluated, checked or selected from, it is not empty, not too large and without duplicates
(`GrammarFuzzing.Engine.iterate_step_sound`).

The invariant that every transition keeps (`GrammarFuzzing.Engine.Sound.step`) has to say more,
since a population is taken apart between selection and mutation. In these phases

* the census belongs to the elites that are left, so that it knows their shapes and no others;
* the elites and the offspring together are as many as a population has.

So mutation cannot make too large a population, and it makes none that is empty: there are elites,
or there are offspring, the first of which is taken in.
-/

namespace GrammarFuzzing

/-! ### Strategies -/

/-- **The usual mutator with any tuner**: its rates may follow from anything it remembers. -/
def Strategy.tuned {τ : Type} (m : SubtreeMutator)
    (tune : τ → Float → Float → List Tree → Rates Float → Rates Float × τ) : Strategy τ where
  tune := tune
  mutate memory g tree failing := do return (← (m.mutate g tree failing).run, memory)

theorem Strategy.sound_tuned {τ : Type} {g : Grammar} (hg : g.Evolvable) (m : SubtreeMutator)
    (tune : τ → Float → Float → List Tree → Rates Float → Rates Float × τ) :
    (Strategy.tuned m tune).Sound g := by
  intro memory failing t ht
  refine Draw.Gives.bind (m.gives_mutate hg ht failing) fun result hresult => Draw.gives_pure ?_
  rintro u rfl
  exact hresult

/-- A check that passes, and the checks after it. -/
theorem exists_of_bind_eq_ok {ε α β : Type} {x : Except ε α} {next : α → Except ε β} {y : β}
    (h : x >>= next = .ok y) : ∃ a, x = .ok a ∧ next a = .ok y := by
  cases x with
  | error err => exact nomatch h
  | ok a => exact ⟨a, rfl, h⟩

/-- A valid population is not empty. -/
theorem Config.populationSize_pos {c : Config} (h : c.validate = .ok ()) :
    0 < c.evolution.populationSize := by
  rw [validate] at h
  obtain ⟨_, -, h⟩ := exists_of_bind_eq_ok h
  obtain ⟨_, -, h⟩ := exists_of_bind_eq_ok h
  obtain ⟨_, -, h⟩ := exists_of_bind_eq_ok h
  obtain ⟨_, -, h⟩ := exists_of_bind_eq_ok h
  obtain ⟨_, hsize, -⟩ := exists_of_bind_eq_ok h
  unfold checkSize at hsize
  split at hsize
  · exact absurd hsize (by simp)
  · exact Nat.pos_of_ne_zero ‹_›

/-- Trees have at most so many nodes by valid settings. -/
theorem Config.maxNodes_le {c : Config} (h : c.validate = .ok ()) :
    c.evolution.maxNodes ≤ maxNodesCap := by
  rw [validate] at h
  obtain ⟨_, -, h⟩ := exists_of_bind_eq_ok h
  obtain ⟨_, -, h⟩ := exists_of_bind_eq_ok h
  obtain ⟨_, -, h⟩ := exists_of_bind_eq_ok h
  obtain ⟨_, -, h⟩ := exists_of_bind_eq_ok h
  obtain ⟨_, -, h⟩ := exists_of_bind_eq_ok h
  obtain ⟨_, -, h⟩ := exists_of_bind_eq_ok h
  split at h
  · exact nomatch h
  · exact Nat.le_of_not_lt ‹_›

namespace Engine

variable {τ : Type} {e : Engine τ}

/-! ### What the engine is asked for -/

/-- **An engine that can run**: its grammar can be evolved, its strategy mutates within the
language, and its populations are not empty. No transition changes this. -/
structure Ready (e : Engine τ) : Prop where
  grammar : e.grammar.Evolvable
  strategy : e.strategy.Sound e.grammar
  size_pos : 0 < e.settings.populationSize

theorem SameSetup.ready {e' : Engine τ} (h : e.SameSetup e') (he : e.Ready) : e'.Ready := by
  refine ⟨?_, ?_, ?_⟩
  · rw [h.grammar]
    exact he.grammar
  · rw [h.strategy, h.grammar]
    exact he.strategy
  · rw [settings, h.config]
    exact he.size_pos

/-- A population that can be evaluated. -/
structure Populated (e : Engine τ) : Prop where
  ne_nil : e.population ≠ []
  length_le : e.population.length ≤ e.settings.populationSize
  nodup : (e.population.map Tree.shapeHash).Nodup

theorem Populated.congr {e' : Engine τ} (h : e.Populated)
    (hpopulation : e'.population = e.population)
    (hconfig : e'.config = e.config) : e'.Populated := by
  refine ⟨?_, ?_, ?_⟩ <;> rw [hpopulation]
  · exact h.ne_nil
  · rw [settings, hconfig]
    exact h.length_le
  · exact h.nodup

/-- Elites and offspring that will make up a population. -/
structure Breeding (e : Engine τ) : Prop where
  holds : e.census.Holds e.grammar e.population e.population.length
  length_add : e.population.length + e.offspring.length = e.settings.populationSize

/-- What holds of the population in each phase. -/
def PhaseSound (e : Engine τ) : Prop :=
  match e.phase with
  | .start | .done => True
  | .evaluate | .check | .select => e.Populated
  | .crossover | .mutate => e.Breeding

/-- **The invariant of the engine.** -/
structure Sound (e : Engine τ) : Prop where
  population : ∀ t ∈ e.population, e.grammar.DerivesStart t
  offspring : OffspringDerives e.grammar e.offspring
  corpus : ∀ s ∈ e.corpus.entries, e.grammar.DerivesStart s.tree
  phase : e.PhaseSound

/-! ### Transitions -/

theorem Sound.populate (hready : e.Ready) (h : e.Sound) (hphase : e.phase = .start) :
    e.populate.2.Sound := by
  obtain ⟨_, _, -, hp⟩ | ⟨population, census, source, hdrawn, hp⟩ := e.populate_cases
  · rw [hp]
    refine ⟨h.population, h.offspring, h.corpus, ?_⟩
    rw [PhaseSound]
    simp only [hphase]
  · obtain ⟨hholds, -⟩ := (Census.gives_topUp hready.grammar
      (e.census.holds_reset e.grammar e.settings.populationSize)).of_run_eq hdrawn
    rcases hp with hp | ⟨hne, hp⟩ <;> rw [hp] <;> dsimp only
    · refine ⟨hholds.derives, h.offspring, h.corpus, ?_⟩
      rw [PhaseSound]
      simp only [hphase]
    · exact ⟨hholds.derives, h.offspring, h.corpus, hne, hholds.length_le, hholds.nodup⟩

theorem mem_add {c : Corpus} {t : Tree} {score : Evaluation Float} {generation : Nat} {s : Solution}
    (h : s ∈ (c.add t score generation).entries) : s ∈ c.entries ∨ s.tree = t := by
  unfold Corpus.add at h
  dsimp only at h
  split at h
  · exact Or.inl h
  · rcases List.mem_append.mp h with h | h
    · exact Or.inl h
    · rw [List.mem_singleton.mp h]
      exact Or.inr rfl

/-- Solutions are trees of the population. -/
theorem mem_foldl_add {generation : Nat} {s : Solution} :
    ∀ (scored : List (Tree × Evaluation Float)) {c : Corpus},
      s ∈ (scored.foldl (fun (c : Corpus) p => c.add p.1 p.2 generation) c).entries →
        s ∈ c.entries ∨ ∃ p ∈ scored, s.tree = p.1
  | [], _, h => Or.inl h
  | p :: scored, _, h => by
    rcases mem_foldl_add scored h with h | ⟨q, hq, hs⟩
    · exact (mem_add h).imp_right fun hs => ⟨p, List.mem_cons_self, hs⟩
    · exact Or.inr ⟨q, List.mem_cons_of_mem _ hq, hs⟩

theorem Sound.evaluate (h : e.Sound) (hphase : e.phase = .evaluate) : e.evaluate.Sound := by
  have hpopulated : e.Populated := by
    have hp := h.phase
    rwa [PhaseSound, hphase] at hp
  refine ⟨h.population, h.offspring, fun s hs => ?_, hpopulated.congr rfl rfl⟩
  rcases mem_foldl_add _ hs with hs | ⟨p, hp, hs⟩
  · exact h.corpus s hs
  · rw [hs]
    exact h.population p.1 (List.of_mem_zip hp).1

theorem Sound.check (h : e.Sound) (hphase : e.phase = .check) : e.check.Sound := by
  have hpopulated : e.Populated := by
    have hp := h.phase
    rwa [PhaseSound, hphase] at hp
  rw [Engine.check]
  split
  · exact ⟨h.population, h.offspring, h.corpus, trivial⟩
  · exact ⟨h.population, h.offspring, h.corpus, hpopulated.congr rfl rfl⟩

theorem Sound.select (hready : e.Ready) (h : e.Sound) (hphase : e.phase = .select) :
    e.select.2.Sound := by
  have hpopulated : e.Populated := by
    have hp := h.phase
    rwa [PhaseSound, hphase] at hp
  have hkept := holds_kept (e := e) h.population
  have hnone : OffspringDerives e.grammar [] := fun o ho => absurd ho List.not_mem_nil
  obtain ⟨picked, source, hdrawn, ⟨err, -, hp⟩ | ⟨offspring, rfl, hp⟩⟩ := e.select_cases <;>
    rw [hp] <;> dsimp only
  · refine ⟨h.population, hnone, h.corpus, ?_⟩
    rw [PhaseSound]
    simp only [hphase]
    exact hpopulated.congr rfl rfl
  · have hlength := (e.gives_length_pickParents _ _).of_run_eq hdrawn
    have hderives := (gives_pickParents hready.grammar h.population _ _).of_run_eq hdrawn
    have hle := hkept.length_le
    have hsum : e.kept.1.length + offspring.length = e.settings.populationSize := by omega
    exact ⟨hkept.derives, hderives, h.corpus, { hkept with length_le := Nat.le_refl _ }, hsum⟩

theorem Sound.crossover (h : e.Sound) (hphase : e.phase = .crossover) : e.crossover.Sound := by
  have hbreeding : e.Breeding := by
    have hp := h.phase
    rwa [PhaseSound, hphase] at hp
  obtain ⟨offspring, source, hdrawn, hp⟩ := e.crossover_cases
  have hlength := (gives_length_crossPairs _ _).of_run_eq hdrawn
  have hderives := (gives_crossPairs _ h.offspring).of_run_eq hdrawn
  have hsum : e.population.length + offspring.length = e.settings.populationSize := by
    rw [hlength]
    exact hbreeding.length_add
  rw [hp]
  exact ⟨h.population, hderives, h.corpus, hbreeding.holds, hsum⟩

theorem Sound.mutate (hready : e.Ready) (h : e.Sound) (hphase : e.phase = .mutate) :
    e.mutate.2.Sound := by
  have hbreeding : e.Breeding := by
    have hp := h.phase
    rwa [PhaseSound, hphase] at hp
  have hnone : OffspringDerives e.grammar [] := fun o ho => absurd ho List.not_mem_nil
  -- The next generation comes out of elites or offspring, of which there are some.
  have hsome : e.population ≠ [] ∨ e.offspring ≠ [] := by
    by_contra hempty
    rw [not_or, not_not, not_not] at hempty
    have hlength := hbreeding.length_add
    rw [hempty.1, hempty.2] at hlength
    exact absurd hready.size_pos (by rw [← hlength]; decide)
  have hgeneration : Attempt.Gives e.nextGeneration (fun _ => True) fun r =>
      r.2.2.Holds e.grammar r.2.1 e.settings.populationSize ∧ r.2.1 ≠ [] := by
    rw [nextGeneration]
    refine (gives_addOffspring hready.strategy e.rates.mutation h.offspring
      hbreeding.holds).bind fun added hadded => ?_
    rw [hbreeding.length_add] at hadded
    refine (Census.gives_topUp hready.grammar hadded.1).bind fun filled hfilled =>
      Attempt.gives_pure ⟨hfilled.1, hfilled.2 (hadded.2 hsome)⟩
  obtain ⟨_, source, -, hp⟩ | ⟨memory, population, census, source, hdrawn, hp⟩ := e.mutate_cases <;>
    rw [hp]
  · refine ⟨h.population, h.offspring, h.corpus, ?_⟩
    rw [PhaseSound]
    simp only [hphase]
    exact ⟨hbreeding.holds, hbreeding.length_add⟩
  · obtain ⟨hholds, hne⟩ := hgeneration.of_run_eq hdrawn
    exact ⟨hholds.derives, hnone, h.corpus, ⟨hne, hholds.length_le, hholds.nodup⟩⟩

/-- **Every transition keeps the invariant.** -/
theorem Sound.step (hready : e.Ready) (h : e.Sound) : e.step.2.Sound := by
  rw [step_snd]
  split
  · exact h.populate hready ‹_›
  · exact h.evaluate ‹_›
  · exact h.check ‹_›
  · exact h.select hready ‹_›
  · exact h.crossover ‹_›
  · exact h.mutate hready ‹_›
  · exact h

/-- The engine after so many transitions. -/
def stepped (e : Engine τ) : Nat → Engine τ
  | 0 => e
  | n + 1 => (e.stepped n).step.2

/-- **So does any number of transitions.** -/
theorem Sound.stepped (hready : e.Ready) (h : e.Sound) :
    ∀ n, (e.stepped n).Ready ∧ (e.stepped n).Sound
  | 0 => ⟨hready, h⟩
  | n + 1 => by
    obtain ⟨hready', h'⟩ := h.stepped hready n
    exact ⟨(e.stepped n).sameSetup_step.ready hready', h'.step hready'⟩

theorem sameSetup_stepped (e : Engine τ) : ∀ n, e.SameSetup (e.stepped n)
  | 0 => .refl e
  | n + 1 => (e.sameSetup_stepped n).trans (e.stepped n).sameSetup_step

/-- **An engine that was just made** has valid settings, and holds no trees. -/
theorem of_eq_ok {g : Grammar} {constraints : List Constraint} {config : Config}
    {strategy : Strategy τ} {memory : τ}
    (he : Engine.of g constraints config strategy memory = .ok e) :
    config.validate = .ok () ∧ e.grammar = g ∧ e.config = config ∧ e.strategy = strategy ∧
      ∀ source, Sound { e with source := source } := by
  obtain ⟨hvalid, rfl⟩ := valid_of_eq_ok he
  refine ⟨hvalid, rfl, rfl, rfl, fun source => ⟨?_, ?_, ?_, trivial⟩⟩ <;>
  · intro _ h
    exact absurd h List.not_mem_nil

end Engine

end GrammarFuzzing
