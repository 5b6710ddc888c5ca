import GrammarFuzzing.Proofs.Evolution.Fitness
import GrammarFuzzing.Proofs.Evolution.Progress
import Mathlib.Logic.Relation

/-!
# Elites survive

The best trees of a generation, the **elites**, go into the next one as they are. On their way they
pass the filter for duplicates, which is reset before, they are the start of the population that the
offspring are added to, and they are scored again. So an elite is lost neither because it is a
duplicate – no two trees of a population have the same shape, so all elites pass – nor because
something else takes its place – populations only grow at their ends until they are scored – and it
is worth what it was, since without soft constraints a score depends on the tree alone.

Two invariants make this precise.

* `GrammarFuzzing.Engine.Elitist` – for **each generation that was scored**, the population has a
  tree that is worth what the best one was worth then. It holds in every phase, also while a
  population is taken apart, so that the greatest fitness of a generation never falls below an
  earlier one.
* `GrammarFuzzing.Engine.Carries` – the elites of **one** generation are where they should be: among
  the fittest while it is current, in the population that grows after selection, and in the next
  generation.

What an engine may go through is as general as possible: transitions that succeed and that fail,
with the flag that cancels a run set and cleared at any time (`GrammarFuzzing.Engine.Moves`), and
between runs other settings and another random source (`GrammarFuzzing.Engine.Resets`).
-/

namespace GrammarFuzzing

open Relation

/-! ### Elites of a population -/

/-- **The elites of a population** by the fitness of its trees. -/
def elitesOf (fitness : List Float) (count : Nat) (population : List Tree) : List Tree :=
  (eliteIndices fitness count).filterMap fun i => population[i]?

theorem mem_of_mem_elitesOf {fitness : List Float} {count : Nat} {population : List Tree} {t : Tree}
    (h : t ∈ elitesOf fitness count population) : t ∈ population := by
  obtain ⟨i, -, hi⟩ := List.mem_filterMap.mp h
  exact List.mem_of_getElem? hi

/-- Elites have different shapes if all trees do. -/
theorem nodup_elitesOf {population : List Tree} (h : (population.map Tree.shapeHash).Nodup)
    (fitness : List Float) (count : Nat) :
    ((elitesOf fitness count population).map Tree.shapeHash).Nodup := by
  rw [elitesOf, List.map_filterMap]
  -- Different indices hold different shapes.
  refine (nodup_eliteIndices fitness count).filterMap fun i j hash hi hj => ?_
  rw [← List.getElem?_map] at hi hj
  obtain ⟨hlt, -⟩ := List.getElem?_eq_some_iff.mp hi
  exact (List.getElem?_inj hlt h).mp (hi.trans hj.symm)

/-- **One of the elites is as good as any tree.** -/
theorem exists_mem_elitesOf {population : List Tree} (hne : population ≠ []) {count : Nat}
    (hcount : 0 < count) (score : Tree → Float) :
    ∃ t ∈ elitesOf (population.map score) count population,
      ∀ u ∈ population, floatRank (score u) ≤ floatRank (score t) := by
  have hscores : population.map score ≠ [] := by simpa using hne
  obtain ⟨i, hi, x, hx, hbest⟩ := exists_mem_eliteIndices hscores hcount
  rw [List.getElem?_map] at hx
  obtain ⟨t, ht, rfl⟩ := Option.map_eq_some_iff.mp hx
  exact ⟨t, List.mem_filterMap.mpr ⟨i, hi, ht⟩, fun u hu => hbest _ (List.mem_map_of_mem hu)⟩

namespace Census

/-- **Trees of different shapes are all taken in**, in order. -/
theorem Registers.foldl_addUnique : ∀ {ts population : List Tree} {c : Census},
    c.Registers population → ((population ++ ts).map Tree.shapeHash).Nodup →
      ∃ c' : Census, c'.Registers (population ++ ts) ∧
        ts.foldl (fun (p, c) t => c.addUnique p t) (population, c) = (population ++ ts, c')
  | [], population, c, h, _ => ⟨c, by rwa [List.append_nil], by rw [List.append_nil]; rfl⟩
  | t :: ts, population, c, h, hnodup => by
    have hsplit : population ++ t :: ts = population ++ [t] ++ ts := by simp
    rw [hsplit] at hnodup ⊢
    have hnew : t.shapeHash ∉ population.map Tree.shapeHash := by
      rw [List.map_append, List.map_append] at hnodup
      intro hmem
      exact (List.nodup_append.mp (List.nodup_append.mp hnodup).1).2.2 _ hmem _
        (List.mem_singleton.mpr rfl) rfl
    rcases c.addUnique_cases population t with ⟨hknown, -⟩ | ⟨-, heq⟩
    · exact absurd ((h.known _).mp hknown) hnew
    · obtain ⟨c', hc', hfold⟩ := (h.add hnew).foldl_addUnique hnodup
      refine ⟨c', hc', ?_⟩
      rw [List.foldl_cons]
      dsimp only
      rw [heq]
      exact hfold

end Census

namespace Engine

variable {τ : Type} {e : Engine τ} {specs : List ConstraintSpec}

/-! ### Competition -/

/-- **An engine in which trees compete**: by hard constraints alone, in populations that are not
empty, and with a place for elites. -/
structure Competes (e : Engine τ) (specs : List ConstraintSpec) : Prop where
  requires : e.evaluator.Requires specs
  size_pos : 0 < e.settings.populationSize
  eliteCount_pos : 0 < e.settings.eliteCount

theorem SameSetup.competes {e' : Engine τ} (h : e.SameSetup e') (he : e.Competes specs) :
    e'.Competes specs := by
  refine ⟨he.requires.congr h.hard h.soft, ?_, ?_⟩ <;> rw [settings, h.config]
  · exact he.size_pos
  · exact he.eliteCount_pos

theorem Competes.flagged (h : e.Competes specs) (flag : Bool) : (e.flagged flag).Competes specs :=
  ⟨h.requires, h.size_pos, h.eliteCount_pos⟩

/-- The score of a tree stays the same. -/
theorem SameSetup.score_eq {e' : Engine τ} (h : e.SameSetup e') (t : Tree) :
    e'.evaluator.score t = e.evaluator.score t :=
  congrArg _ (Evaluator.rawScore_congr h.hard h.soft t)

/-- **A population that was scored.** -/
structure Scored (e : Engine τ) : Prop where
  populated : e.Populated
  fitness_eq : e.evaluations.map (·.fitness) = e.population.map e.evaluator.score

theorem Scored.congr {e' : Engine τ} (h : e.Scored) (hpopulation : e'.population = e.population)
    (hevaluations : e'.evaluations = e.evaluations) (hconfig : e'.config = e.config)
    (hscore : e'.evaluator.score = e.evaluator.score) : e'.Scored where
  populated := h.populated.congr hpopulation hconfig
  fitness_eq := by rw [hevaluations, hpopulation, hscore, h.fitness_eq]

/-- **A population to which offspring will be added**: it is registered, and there is room. -/
structure Brood (census : Census) (population : List Tree) (offspring : List Offspring)
    (size : Nat) : Prop where
  ne_nil : population ≠ []
  registers : census.Registers population
  length_add : population.length + offspring.length = size

/-- What holds of the population in a phase. -/
def PhaseElitist (e : Engine τ) : Phase → Prop
  | .start => e.stats = []
  | .evaluate => e.Populated
  | .check | .select => e.Scored
  | .crossover | .mutate => Brood e.census e.population e.offspring e.settings.populationSize
  | .done => True

/-- **The best of every generation is still there**, or a tree that is as good. -/
structure Elitist (e : Engine τ) : Prop where
  nonnegative : ∀ s ∈ e.stats, IsNonnegative s.bestFitness
  pairwise : e.stats.Pairwise fun s s' => floatRank s.bestFitness ≤ floatRank s'.bestFitness
  best : ∀ s ∈ e.stats, ∃ t ∈ e.population,
    floatRank s.bestFitness ≤ floatRank (e.evaluator.score t)
  phase : e.PhaseElitist e.phase

theorem Elitist.of_phase (h : e.Elitist) {phase : Phase} (hphase : e.phase = phase) :
    e.PhaseElitist phase :=
  hphase ▸ h.phase

/-- No tree is better than the greatest fitness of its population, and one is as good. -/
theorem Competes.bestOf_spec (hc : e.Competes specs) {population : List Tree}
    (hne : population ≠ []) :
    IsNonnegative (bestOf (population.map e.evaluator.score)) ∧
      (∀ t ∈ population, floatRank (e.evaluator.score t) ≤
        floatRank (bestOf (population.map e.evaluator.score))) ∧
      ∃ t ∈ population, floatRank (bestOf (population.map e.evaluator.score)) ≤
        floatRank (e.evaluator.score t) := by
  have hnonnegative : ∀ x ∈ population.map e.evaluator.score, IsNonnegative x := by
    intro x hx
    obtain ⟨t, -, rfl⟩ := List.mem_map.mp hx
    exact hc.requires.isNonnegative_score t
  have hbest := isNonnegative_bestOf hnonnegative
  obtain ⟨t, ht, hall⟩ := exists_mem_elitesOf hne Nat.one_pos e.evaluator.score
  refine ⟨hbest, fun u hu => ?_, t, mem_of_mem_elitesOf ht, ?_⟩
  · exact (floatRank_bestOf_le hnonnegative hbest.floatRank_nonneg).mp (Int.le_refl _) _
      (List.mem_map_of_mem hu)
  · refine (floatRank_bestOf_le hnonnegative
      (hc.requires.isNonnegative_score t).floatRank_nonneg).mpr fun x hx => ?_
    obtain ⟨u, hu, rfl⟩ := List.mem_map.mp hx
    exact hall u hu

/-! ### Transitions -/

/-- An engine without statistics has nothing to lose. -/
theorem elitist_of_stats_eq_nil (hstats : e.stats = []) (hphase : e.phase = .start) :
    e.Elitist := by
  have hnone : ∀ {P : GenerationStats → Prop}, ∀ s ∈ e.stats, P s := by
    rw [hstats]
    exact fun s hs => absurd hs List.not_mem_nil
  refine ⟨hnone, ?_, hnone, ?_⟩
  · rw [hstats]
    exact .nil
  · rw [hphase]
    exact hstats

theorem Elitist.populate (h : e.Elitist) (hphase : e.phase = .start) : e.populate.2.Elitist := by
  have hstats : e.stats = [] := h.of_phase hphase
  obtain ⟨_, _, -, hp⟩ | ⟨population, census, source, hdrawn, hp | ⟨hne, hp⟩⟩ :=
    e.populate_cases <;> rw [hp]
  · exact elitist_of_stats_eq_nil hstats hphase
  · exact elitist_of_stats_eq_nil hstats hphase
  · have hgrown := (Census.gives_grown_topUp e.grammar e.census.registers_reset
      (Nat.zero_le _)).of_run_eq hdrawn
    refine ⟨h.nonnegative, h.pairwise, fun s hs => ?_, hne, hgrown.length_le,
      hgrown.registers.nodup⟩
    exact absurd (hstats ▸ hs) List.not_mem_nil

/-- A generation that is scored is remembered with its greatest fitness. -/
theorem stats_evaluate (e : Engine τ) : ∃ s : GenerationStats,
    s.bestFitness = bestOf ((e.evaluator.evaluateAll e.population).1.map (·.fitness)) ∧
      e.evaluate.stats = e.stats ++ [s] :=
  ⟨_, rfl, rfl⟩

/-- **The greatest fitness of a generation** is not less than it was in any generation before. -/
theorem Elitist.evaluate (hc : e.Competes specs) (h : e.Elitist) (hphase : e.phase = .evaluate) :
    e.evaluate.Elitist := by
  have hpopulated : e.Populated := h.of_phase hphase
  have hfitness : (e.evaluator.evaluateAll e.population).1.map (·.fitness) =
      e.population.map e.evaluator.score :=
    Evaluator.map_fitness_evaluateAll hc.requires.soft e.population
  -- What the evaluator has seen of the population makes no difference without soft constraints.
  have hsetup : e.SameSetup e.evaluate := ⟨rfl, rfl, rfl, rfl, rfl, rfl⟩
  have hscore : e.evaluate.evaluator.score = e.evaluator.score := funext hsetup.score_eq
  obtain ⟨hnonnegative, hle, t, ht, hbest⟩ := hc.bestOf_spec hpopulated.ne_nil
  rw [← hfitness] at hnonnegative hle hbest
  obtain ⟨s, hs, hstats⟩ := e.stats_evaluate
  rw [← hs] at hnonnegative hle hbest
  refine ⟨?_, ?_, ?_, hpopulated.congr rfl rfl, ?_⟩
  · rw [hstats]
    exact List.forall_mem_append.mpr ⟨h.nonnegative, List.forall_mem_singleton.mpr hnonnegative⟩
  · rw [hstats]
    refine List.pairwise_append.mpr ⟨h.pairwise, List.pairwise_singleton _ _, fun r hr r' hr' => ?_⟩
    rw [List.mem_singleton.mp hr']
    obtain ⟨u, hu, hru⟩ := h.best r hr
    exact Int.le_trans hru (hle u hu)
  · rw [hstats, hscore]
    exact List.forall_mem_append.mpr ⟨h.best, List.forall_mem_singleton.mpr ⟨t, ht, hbest⟩⟩
  · exact hfitness.trans (congrArg (e.population.map ·) hscore.symm)

theorem Elitist.check (h : e.Elitist) (hphase : e.phase = .check) : e.check.Elitist := by
  have hscored : e.Scored := h.of_phase hphase
  rw [Engine.check]
  split
  · exact ⟨h.nonnegative, h.pairwise, h.best, trivial⟩
  · exact ⟨h.nonnegative, h.pairwise, h.best, hscored.congr rfl rfl rfl rfl⟩

/-- The best trees of the current generation, as many as are asked for. -/
def fittest (e : Engine τ) : List Tree :=
  elitesOf (e.evaluations.map (·.fitness)) e.settings.eliteCount e.population

namespace Scored

theorem length_evaluations (h : e.Scored) : e.evaluations.length = e.population.length := by
  simpa using congrArg List.length h.fitness_eq

/-- There are no more elites than the population has places. -/
theorem elites_eq (h : e.Scored) : e.elites = e.fittest := by
  rw [elites, fittest, elitesOf, eliteIndices_min]
  rw [List.length_map, h.length_evaluations]
  exact h.populated.length_le

/-- **All elites are kept.** -/
theorem kept_eq (h : e.Scored) : e.kept.1 = e.fittest ∧ e.kept.2.Registers e.fittest := by
  have hnodup : (([] ++ e.elites).map Tree.shapeHash).Nodup := nodup_elitesOf h.populated.nodup _ _
  obtain ⟨census, hregisters, hfold⟩ := e.census.registers_reset.foldl_addUnique hnodup
  have hkept : e.kept = (e.elites, census) := hfold
  rw [hkept, ← h.elites_eq]
  exact ⟨rfl, hregisters⟩

/-- Every elite is a tree. -/
theorem exists_mem_fittest (h : e.Scored) {i : Nat}
    (hi : i ∈ eliteIndices (e.evaluations.map (·.fitness)) e.settings.eliteCount) :
    ∃ t, e.population[i]? = some t ∧ t ∈ e.fittest := by
  have hlt := lt_of_mem_eliteIndices hi
  rw [List.length_map, h.length_evaluations] at hlt
  exact ⟨_, List.getElem?_eq_getElem hlt,
    List.mem_filterMap.mpr ⟨i, hi, List.getElem?_eq_getElem hlt⟩⟩

/-- **One of the elites is as good as any tree.** -/
theorem exists_best (h : e.Scored) (hcount : 0 < e.settings.eliteCount) :
    ∃ t ∈ e.fittest, ∀ u ∈ e.population,
      floatRank (e.evaluator.score u) ≤ floatRank (e.evaluator.score t) := by
  rw [fittest, h.fitness_eq]
  exact exists_mem_elitesOf h.populated.ne_nil hcount e.evaluator.score

end Scored

theorem Elitist.select (hc : e.Competes specs) (h : e.Elitist) (hphase : e.phase = .select) :
    e.select.2.Elitist := by
  have hscored : e.Scored := h.of_phase hphase
  obtain ⟨picked, source, hdrawn, ⟨err, -, hp⟩ | ⟨offspring, rfl, hp⟩⟩ := e.select_cases <;>
    rw [hp]
  · refine ⟨h.nonnegative, h.pairwise, h.best, ?_⟩
    dsimp only
    rw [hphase]
    exact hscored.congr rfl rfl rfl rfl
  · have hlength := (e.gives_length_pickParents _ _).of_run_eq hdrawn
    obtain ⟨hkept, hregisters⟩ := hscored.kept_eq
    have hroom := e.length_elites_le
    obtain ⟨t, ht, hbest⟩ := hscored.exists_best hc.eliteCount_pos
    rw [hscored.elites_eq] at hroom
    rw [hkept] at hlength ⊢
    -- What is left of the population is worth as much as all of it, as one of the best is left.
    refine ⟨h.nonnegative, h.pairwise, fun s hs => ?_, List.ne_nil_of_mem ht, hregisters, ?_⟩
    · obtain ⟨u, hu, hsu⟩ := h.best s hs
      exact ⟨t, ht, Int.le_trans hsu (hbest u hu)⟩
    · change e.fittest.length + offspring.length = e.settings.populationSize
      omega

theorem Elitist.crossover (h : e.Elitist) (hphase : e.phase = .crossover) :
    (Engine.crossover e).Elitist := by
  have hbrood : Brood e.census e.population e.offspring e.settings.populationSize :=
    h.of_phase hphase
  obtain ⟨offspring, source, hdrawn, hp⟩ := e.crossover_cases
  have hlength := (gives_length_crossPairs _ _).of_run_eq hdrawn
  rw [hp]
  exact ⟨h.nonnegative, h.pairwise, h.best, hbrood.ne_nil, hbrood.registers,
    (congrArg (_ + ·) hlength).trans hbrood.length_add⟩

/-- **The next generation grows from the elites.** -/
theorem Brood.gives_grown_nextGeneration
    (h : Brood e.census e.population e.offspring e.settings.populationSize) :
    Attempt.Gives e.nextGeneration (fun _ => True) fun r =>
      Census.Grown e.population e.settings.populationSize r.2 := by
  rw [nextGeneration]
  refine (gives_grown_addOffspring e.strategy e.grammar e.rates.mutation h.registers).bind
    fun added hadded => ?_
  rw [h.length_add] at hadded
  exact (Census.gives_grown_topUp e.grammar hadded.registers hadded.length_le).bind
    fun filled hfilled => Attempt.gives_pure (hadded.trans hfilled)

theorem Elitist.mutate (h : e.Elitist) (hphase : e.phase = .mutate) :
    (Engine.mutate e).2.Elitist := by
  have hbrood : Brood e.census e.population e.offspring e.settings.populationSize :=
    h.of_phase hphase
  obtain ⟨_, source, -, hp⟩ | ⟨memory, population, census, source, hdrawn, hp⟩ := e.mutate_cases <;>
    rw [hp]
  · refine ⟨h.nonnegative, h.pairwise, h.best, ?_⟩
    change PhaseElitist _ e.phase
    rw [hphase]
    exact hbrood
  · have hgrown := hbrood.gives_grown_nextGeneration.of_run_eq hdrawn
    refine ⟨h.nonnegative, h.pairwise, fun s hs => ?_, ?_, hgrown.length_le, hgrown.registers.nodup⟩
    · obtain ⟨t, ht, hst⟩ := h.best s hs
      exact ⟨t, hgrown.kept.subset ht, hst⟩
    · exact fun hnil => hbrood.ne_nil (List.prefix_nil.mp (hnil ▸ hgrown.kept))

/-- **Every transition keeps the best.** -/
theorem Elitist.step (hc : e.Competes specs) (h : e.Elitist) : e.step.2.Elitist := by
  rw [step_snd]
  split
  · exact h.populate ‹_›
  · exact h.evaluate hc ‹_›
  · exact h.check ‹_›
  · exact h.select hc ‹_›
  · exact h.crossover ‹_›
  · exact h.mutate ‹_›
  · exact h

/-! ### Courses of an engine -/

/-- **One transition**, whether it fails or not, with the flag that cancels the run as somebody has
set it. -/
def Moves (e e' : Engine τ) : Prop :=
  ∃ flag, e' = (e.flagged flag).step.2

/-- **What is done to an engine between runs**: another run is prepared, with valid settings that
leave a place for elites and with any random source; the settings are changed while there is no run;
or the run is given up. -/
inductive Resets (e : Engine τ) : Engine τ → Prop
  | restart {config : Config} {source : Source} (hvalid : config.validate = .ok ())
      (helites : 0 < config.evolution.eliteCount) :
      Resets e (restart { e with config := config, source := source })
  | settings {config : Config} (hphase : e.phase = .start ∨ e.phase = .done)
      (hvalid : config.validate = .ok ()) (helites : 0 < config.evolution.eliteCount) :
      Resets e { e with config := config }
  | stop : Resets e { e with phase := .done }

theorem Moves.competes {e' : Engine τ} (h : e.Moves e') (hc : e.Competes specs) :
    e'.Competes specs := by
  obtain ⟨flag, rfl⟩ := h
  exact (e.flagged flag).sameSetup_step.competes (hc.flagged flag)

theorem Resets.competes {e' : Engine τ} (h : e.Resets e') (hc : e.Competes specs) :
    e'.Competes specs := by
  cases h with
  | restart hvalid helites | settings _ hvalid helites =>
    exact ⟨hc.requires, Config.populationSize_pos hvalid, helites⟩
  | stop => exact ⟨hc.requires, hc.size_pos, hc.eliteCount_pos⟩

/-- The flag makes no difference to the trees. -/
theorem Elitist.flagged (h : e.Elitist) (flag : Bool) : (e.flagged flag).Elitist := by
  refine ⟨h.nonnegative, h.pairwise, h.best, ?_⟩
  have hphase := h.phase
  change PhaseElitist _ e.phase
  cases hcurrent : e.phase <;> rw [hcurrent] at hphase
  case start | crossover | mutate | done => exact hphase
  case evaluate => exact Populated.congr hphase rfl rfl
  case check | select => exact Scored.congr hphase rfl rfl rfl rfl

theorem Moves.elitist {e' : Engine τ} (h : e.Moves e') (hc : e.Competes specs) (he : e.Elitist) :
    e'.Elitist := by
  obtain ⟨flag, rfl⟩ := h
  exact (he.flagged flag).step (hc.flagged flag)

theorem Resets.elitist {e' : Engine τ} (h : e.Resets e') (he : e.Elitist) : e'.Elitist := by
  cases h with
  | restart hvalid helites => exact elitist_of_stats_eq_nil rfl rfl
  | settings hphase hvalid helites =>
    refine ⟨he.nonnegative, he.pairwise, he.best, ?_⟩
    dsimp only
    have hsame := he.phase
    rcases hphase with hphase | hphase <;> rw [hphase] at hsame ⊢ <;> exact hsame
  | stop => exact ⟨he.nonnegative, he.pairwise, he.best, trivial⟩

/-- **What an engine goes through keeps the best.** -/
theorem Elitist.of_reflTransGen {e' : Engine τ} (hc : e.Competes specs) (he : e.Elitist)
    (h : ReflTransGen (fun a b : Engine τ => a.Moves b ∨ a.Resets b) e e') :
    e'.Competes specs ∧ e'.Elitist := by
  induction h with
  | refl => exact ⟨hc, he⟩
  | tail _ hlast ih =>
    obtain ⟨hc', he'⟩ := ih
    rcases hlast with hlast | hlast
    · exact ⟨hlast.competes hc', hlast.elitist hc' he'⟩
    · exact ⟨hlast.competes hc', hlast.elitist he'⟩

/-! ### The elites of one generation -/

/-- Where some trees are that are elites of the current generation. -/
def Holding (e : Engine τ) (ts : List Tree) : Phase → Prop
  | .check | .select => e.fittest = ts
  | .crossover | .mutate => ts ⊆ e.population
  | .done => True
  | .start | .evaluate => False

/-- **Where the elites of a generation are** while it is current, and in the next one, once that is
complete. -/
structure Carries (generation : Nat) (ts : List Tree) (e : Engine τ) : Prop where
  phase_ne : e.phase ≠ .start
  le : generation ≤ e.generation
  current : e.generation = generation → e.Holding ts e.phase
  next : e.generation = generation + 1 → e.phase ≠ .crossover → e.phase ≠ .mutate →
    ts ⊆ e.population

namespace Carries

variable {k : Nat} {ts : List Tree}

theorem holding (h : e.Carries k ts) (hk : e.generation = k) {phase : Phase}
    (hphase : e.phase = phase) : e.Holding ts phase :=
  hphase ▸ h.current hk

/-- A transition of a population that is complete leaves the trees where they are. -/
theorem keep {e' : Engine τ} (h : e.Carries k ts) (hgeneration : e'.generation = e.generation)
    (hpopulation : e'.population = e.population) (hcrossover : e.phase ≠ .crossover)
    (hmutate : e.phase ≠ .mutate) (hphase : e'.phase ≠ .start)
    (hcurrent : e.generation = k → e'.Holding ts e'.phase) : e'.Carries k ts where
  phase_ne := hphase
  le := hgeneration ▸ h.le
  current := fun hk => hcurrent (hgeneration ▸ hk)
  next := fun hk _ _ => hpopulation ▸ h.next (hgeneration ▸ hk) hcrossover hmutate

/-- While a generation is being made, its elites are among the trees that it is made from. -/
theorem breed {e' : Engine τ} (h : e.Carries k ts) (hgeneration : e'.generation = e.generation)
    (hphase : e'.phase = .crossover ∨ e'.phase = .mutate)
    (hcurrent : e.generation = k → ts ⊆ e'.population) : e'.Carries k ts where
  phase_ne := by rcases hphase with hphase | hphase <;> rw [hphase] <;> exact Phase.noConfusion
  le := hgeneration ▸ h.le
  current := fun hk => by
    rcases hphase with hphase | hphase <;> rw [hphase] <;> exact hcurrent (hgeneration ▸ hk)
  next := fun _ hcrossover hmutate => absurd hphase (not_or.mpr ⟨hcrossover, hmutate⟩)

theorem evaluate (h : e.Carries k ts) (hphase : e.phase = .evaluate) : e.evaluate.Carries k ts :=
  h.keep rfl rfl (by simp [hphase]) (by simp [hphase]) Phase.noConfusion fun hk =>
    (h.holding hk hphase).elim

theorem check (h : e.Carries k ts) (hphase : e.phase = .check) : e.check.Carries k ts := by
  rw [Engine.check]
  split
  · exact h.keep rfl rfl (by simp [hphase]) (by simp [hphase]) Phase.noConfusion fun _ => trivial
  · exact h.keep rfl rfl (by simp [hphase]) (by simp [hphase]) Phase.noConfusion fun hk =>
      h.holding hk hphase

theorem select (he : e.Elitist) (h : e.Carries k ts) (hphase : e.phase = .select) :
    e.select.2.Carries k ts := by
  have hscored : e.Scored := he.of_phase hphase
  obtain ⟨picked, source, -, ⟨err, -, hp⟩ | ⟨offspring, -, hp⟩⟩ := e.select_cases <;> rw [hp]
  · refine h.keep rfl rfl (by simp [hphase]) (by simp [hphase]) (by simp [hphase]) fun hk => ?_
    dsimp only
    rw [hphase]
    exact h.holding hk hphase
  · refine h.breed rfl (Or.inl rfl) fun hk => ?_
    have hheld : e.fittest = ts := h.holding hk hphase
    dsimp only
    rw [hscored.kept_eq.1, hheld]
    exact List.Subset.refl ts

theorem crossover (h : e.Carries k ts) (hphase : e.phase = .crossover) :
    (Engine.crossover e).Carries k ts :=
  h.breed rfl (Or.inr rfl) fun hk => h.holding hk hphase

/-- **The next generation has all elites.** -/
theorem mutate (he : e.Elitist) (h : e.Carries k ts) (hphase : e.phase = .mutate) :
    (Engine.mutate e).2.Carries k ts := by
  have hbrood : Brood e.census e.population e.offspring e.settings.populationSize :=
    he.of_phase hphase
  obtain ⟨_, source, -, hp⟩ | ⟨memory, population, census, source, hdrawn, hp⟩ := e.mutate_cases <;>
    rw [hp]
  · exact h.breed rfl (Or.inr hphase) fun hk => h.holding hk hphase
  · have hgrown := hbrood.gives_grown_nextGeneration.of_run_eq hdrawn
    refine ⟨Phase.noConfusion, Nat.le_succ_of_le h.le, fun hk => ?_, fun hk _ _ => ?_⟩
    · exact absurd hk (Nat.succ_le_iff.mp (Nat.succ_le_succ h.le)).ne'
    · have hheld : ts ⊆ e.population := h.holding (Nat.succ.inj hk) hphase
      exact fun t ht => hgrown.kept.subset (hheld ht)

/-- **No transition loses an elite.** -/
theorem step (he : e.Elitist) (h : e.Carries k ts) : e.step.2.Carries k ts := by
  rw [step_snd]
  split
  · exact absurd ‹_› h.phase_ne
  · exact h.evaluate ‹_›
  · exact h.check ‹_›
  · exact h.select he ‹_›
  · exact h.crossover ‹_›
  · exact h.mutate he ‹_›
  · exact h

theorem flagged (h : e.Carries k ts) (flag : Bool) : (e.flagged flag).Carries k ts := by
  refine ⟨h.phase_ne, h.le, fun hk => ?_, h.next⟩
  have hheld := h.current hk
  change Holding _ ts e.phase
  cases hphase : e.phase <;> rw [hphase] at hheld <;> exact hheld

/-- **No elite is lost on the way** to the next generation. -/
theorem of_reflTransGen {e' : Engine τ} (hc : e.Competes specs) (he : e.Elitist)
    (h : e.Carries k ts) (hmoves : ReflTransGen Moves e e') :
    e'.Competes specs ∧ e'.Elitist ∧ e'.Carries k ts := by
  induction hmoves with
  | refl => exact ⟨hc, he, h⟩
  | tail _ hlast ih =>
    obtain ⟨hc', he', h'⟩ := ih
    refine ⟨hlast.competes hc', hlast.elitist hc' he', ?_⟩
    obtain ⟨flag, rfl⟩ := hlast
    exact (h'.flagged flag).step (he'.flagged flag)

end Carries

/-- Transitions without anybody else. -/
theorem reflTransGen_stepped (e : Engine τ) : ∀ n, ReflTransGen Moves e (e.stepped n)
  | 0 => .refl
  | n + 1 => (e.reflTransGen_stepped n).tail ⟨(e.stepped n).cancelled, rfl⟩

/-- The elites of a generation that was scored are where they should be. -/
theorem carries_fittest (hphase : e.phase = .check ∨ e.phase = .select) :
    e.Carries e.generation e.fittest where
  phase_ne := by rcases hphase with hphase | hphase <;> rw [hphase] <;> exact Phase.noConfusion
  le := Nat.le_refl _
  current := fun _ => by rcases hphase with hphase | hphase <;> rw [hphase] <;> rfl
  next := fun hk _ _ => absurd hk (Nat.lt_succ_self _).ne

/-- An engine that was just made is set up for the competition. -/
theorem competes_of_eq_ok {g : Grammar} {config : Config} {strategy : Strategy τ} {memory : τ}
    (hhard : ∀ c ∈ specs, c.toConstraint.isSoft = false)
    (hsize : ConstraintSpec.listSize specs < Nat.pow 2 64)
    (he : Engine.of g (specs.map ConstraintSpec.toConstraint) config strategy memory = .ok e)
    (helites : 0 < config.evolution.eliteCount) (source : Source) :
    Competes { e with source := source } specs ∧ Elitist { e with source := source } := by
  obtain ⟨hvalid, rfl⟩ := valid_of_eq_ok he
  exact ⟨⟨Evaluator.requires_ofConstraints hhard hsize, Config.populationSize_pos hvalid, helites⟩,
    elitist_of_stats_eq_nil rfl rfl⟩

/-- **Elitism never loses the best.** For every grammar, all hard constraints as they are written,
all valid settings with a place for at least one elite, every strategy – whatever it does to trees
and to rates –, every random source and every course an engine may take: the greatest fitness of a
generation is not less than it was in any generation before, and when a generation has been scored,
each of its elites is in the population of the next generation, once that is complete and until it
is taken apart.

The constraints have to be fewer than `2 ^ 64` parts, which is so of all that fit into memory. With
more than a float can count, a share would divide infinity by infinity, and what is not a number is
an elite of no use. -/
theorem elites_survive {specs : List ConstraintSpec}
    (hhard : ∀ c ∈ specs, c.toConstraint.isSoft = false)
    (hsize : ConstraintSpec.listSize specs < Nat.pow 2 64) {g : Grammar} {config : Config}
    {strategy : Strategy τ} {memory : τ} {e : Engine τ}
    (he : Engine.of g (specs.map ConstraintSpec.toConstraint) config strategy memory = .ok e)
    (helites : 0 < config.evolution.eliteCount) (source : Source) {e' : Engine τ}
    (h : ReflTransGen (fun a b : Engine τ => a.Moves b ∨ a.Resets b)
      { e with source := source } e') :
    (e'.stats.Pairwise fun s s' => s.bestFitness ≤ s'.bestFitness) ∧
      (e'.phase = .check ∨ e'.phase = .select → ∀ e'' : Engine τ, ReflTransGen Moves e' e'' →
        e''.generation = e'.generation + 1 → e''.phase ≠ .crossover → e''.phase ≠ .mutate →
          ∀ i ∈ eliteIndices (e'.evaluations.map (·.fitness)) e'.settings.eliteCount,
            ∃ t, e'.population[i]? = some t ∧ t ∈ e''.population) := by
  obtain ⟨hc, helitist⟩ := competes_of_eq_ok hhard hsize he helites source
  obtain ⟨hc', he'⟩ := helitist.of_reflTransGen hc h
  refine ⟨?_, fun hphase e'' hmoves hgeneration hcrossover hmutate i hi => ?_⟩
  · refine he'.pairwise.imp_of_mem fun hs hs' hle => ?_
    exact ((he'.nonnegative _ hs).le_iff (he'.nonnegative _ hs')).mpr hle
  · have hscored : e'.Scored := by
      rcases hphase with hphase | hphase <;> exact he'.of_phase hphase
    obtain ⟨t, ht, hfittest⟩ := hscored.exists_mem_fittest hi
    obtain ⟨-, -, hcarries⟩ := (carries_fittest hphase).of_reflTransGen hc' he' hmoves
    exact ⟨t, ht, hcarries.next hgeneration hcrossover hmutate hfittest⟩

/-- A digit of a number is at most the number. With the usual settings there are ten elites, and
where more solutions are wanted than the first population has trees, all of them go on to the next
one. The numbers only get better. -/
theorem elites_survive_binaryNumbers :
    let c := ConstraintSpec.toConstraint
      (.compare (.int (.symbol "digit")) .le (.int (.symbol "number")))
    ∃ g e, (Document.binaryNumbers []).toGrammar = .ok g ∧
      standard g [c] { evolution := { desiredSolutions := some 200 } }
        (.stagnation (.ofBase ⟨0.2, 0.8, 5⟩)) = .ok e ∧
      let run := stepped { e with source := .ofSeed 28 }
      (∀ n, (run n).stats.Pairwise fun s s' => s.bestFitness ≤ s'.bestFitness) ∧
      (run 2).phase = .check ∧ (run 6).phase = .evaluate ∧
      (run 6).generation = (run 2).generation + 1 ∧
      eliteIndices ((run 2).evaluations.map (·.fitness)) 10 ≠ [] ∧
      ∀ i ∈ eliteIndices ((run 2).evaluations.map (·.fitness)) 10,
        ∃ t, (run 2).population[i]? = some t ∧ t ∈ (run 6).population := by
  intro c
  have h : (Document.binaryNumbers []).toGrammar = .ok _ := rfl
  have hmake : ∀ g, ∃ e, standard g [c] { evolution := { desiredSolutions := some 200 } }
      (.stagnation (.ofBase ⟨0.2, 0.8, 5⟩)) = .ok e ∧ e.cancelled = false := fun g => ⟨_, rfl, rfl⟩
  obtain ⟨e, he, hcancelled⟩ := hmake _
  have hhard :
      ∀ c ∈ [ConstraintSpec.compare (.int (.symbol "digit")) .le (.int (.symbol "number"))],
        c.toConstraint.isSoft = false := by decide
  -- With tournaments all transitions succeed.
  have hproceeds : Proceeds { e with source := .ofSeed 28 } := by
    have hcoherent := Document.coherent_toDraft (Document.binaryNumbers [])
    have hbare : ∀ name ∈ ["digit", "number"], bareName name = name := by decide
    have hends := Draft.ends_of_build hcoherent h hbare (by decide)
    refine proceeds_of_eq_ok hcoherent h hbare (by decide) (by decide) ?_
      (Strategy.ends_of hends (by decide)) rfl he _
    exact Strategy.sound_tuned ⟨hcoherent.wellFormed h, hbare, by decide, by decide, by decide⟩ _ _
  have hfresh := fresh_of_eq_ok he (.ofSeed 28)
  obtain ⟨hcheck, hevaluate, hnext⟩ :=
    hproceeds.stepped_six hfresh hcancelled (by decide) (by decide)
  have hsurvive := fun n => elites_survive hhard (by decide) he (by decide) (.ofSeed 28)
    (ReflTransGen.mono (fun _ _ => Or.inl) _ _
      (reflTransGen_stepped { e with source := .ofSeed 28 } n))
  have hcount : (stepped { e with source := .ofSeed 28 } 2).settings.eliteCount = 10 := by
    rw [settings, (sameSetup_stepped _ 2).config, hfresh.config]
    decide
  have hkept := (hsurvive 2).2 (Or.inl hcheck) (stepped { e with source := .ofSeed 28 } 6)
    (reflTransGen_stepped _ 4) hnext (by simp [hevaluate]) (by simp [hevaluate])
  rw [hcount] at hkept
  refine ⟨_, e, h, he, fun n => (hsurvive n).1, hcheck, hevaluate, hnext, ?_, hkept⟩
  have hscores := (hproceeds.stepped 2).evaluations_ne_nil (Or.inl hcheck)
  obtain ⟨i, hi, -⟩ :=
    exists_mem_eliteIndices (mt List.map_eq_nil_iff.mp hscores) (by decide : 0 < 10)
  exact List.ne_nil_of_mem hi

end Engine

end GrammarFuzzing
