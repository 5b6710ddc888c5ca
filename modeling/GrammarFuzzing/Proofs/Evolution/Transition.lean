import GrammarFuzzing.Evolution.Run

/-!
# What a transition changes

The engine of `GrammarFuzzing.Evolution.Engine` threads its random source through its transitions.
Here each transition that draws is described by what it can do: something was drawn, and the fields
of the engine afterwards. Proofs about the engine speak of these fields alone and never run the
computation again.

* `GrammarFuzzing.Engine.valid_of_eq_ok` – an engine that was just made;
* `GrammarFuzzing.Engine.populate_cases`, `.select_cases`, `.crossover_cases`, `.mutate_cases` – the
  transitions over what they draw;
* `GrammarFuzzing.Engine.step_snd` – the engine after one transition, whichever it was;
* `GrammarFuzzing.Engine.leads_of_step`, `.phase_of_step_error` – the phase and the generation after
  one that succeeds, and after one that fails;
* `GrammarFuzzing.Engine.runSteps_induction` – what every transition preserves, every run does.

As a first use, no transition changes how an engine is set up (`GrammarFuzzing.Engine.SameSetup`).
-/

namespace GrammarFuzzing.Engine

variable {τ : Type} {e : Engine τ}

/-! ### Engines that were just made -/

/-- **An engine is made of valid settings**, and is as it starts. -/
theorem valid_of_eq_ok {g : Grammar} {constraints : List Constraint} {config : Config}
    {strategy : Strategy τ} {memory : τ}
    (he : Engine.of g constraints config strategy memory = .ok e) :
    config.validate = .ok () ∧ e = {
      grammar := g
      evaluator := .ofConstraints constraints
      config := config
      strategy := strategy
      memory := memory
      source := .ofSeed (UInt64.ofNat (config.evolution.seed.getD 0))
      census := { settings := config.evolution.fuzz }
      rates := config.evolution.rates } := by
  rw [Engine.of] at he
  split at he
  · exact absurd he (by simp)
  · exact ⟨‹_›, (Except.ok.inj he).symm⟩

/-! ### The transitions over what they draw -/

/-- **The first population** is there, or it is empty and the engine stays where it is. If the
expansion of a tree does not end, there is not even an empty one. -/
theorem populate_cases (e : Engine τ) :
    (∃ err source,
      (e.census.reset.topUp e.grammar [] e.settings.populationSize).run.run e.source =
        (.error err, source) ∧
      e.populate = (.error (.grammar err), { e with source := source })) ∨
    ∃ population census source,
      (e.census.reset.topUp e.grammar [] e.settings.populationSize).run.run e.source =
        (.ok (population, census), source) ∧
      (e.populate = (.error .noPopulation,
        { e with population := population, census := census, source := source }) ∨
      population ≠ [] ∧ e.populate = (.ok (), { e with
        population := population, census := census, source := source, phase := .evaluate })) := by
  unfold populate
  generalize (e.census.reset.topUp e.grammar [] e.settings.populationSize).run.run e.source = drawn
  obtain ⟨err | ⟨population, census⟩, source⟩ := drawn
  · exact Or.inl ⟨err, source, rfl, rfl⟩
  · refine Or.inr ⟨population, census, source, rfl, ?_⟩
    cases population with
    | nil => exact Or.inl rfl
    | cons t ts => exact Or.inr ⟨List.cons_ne_nil t ts, rfl⟩

/-- The individuals that stay for the next generation without changes. -/
def elites (e : Engine τ) : List Tree :=
  (eliteIndices (e.evaluations.map (·.fitness))
    (Nat.min e.settings.eliteCount e.settings.populationSize)).filterMap fun i => e.population[i]?

/-- The elites without duplicates, and the census that knows them alone. -/
def kept (e : Engine τ) : List Tree × Census :=
  e.elites.foldl (fun (p, c) t => c.addUnique p t) ([], e.census.reset)

/-- **Elites are kept and parents are picked**, or there are no parents and the engine keeps its
population. -/
theorem select_cases (e : Engine τ) : ∃ picked source,
    (e.pickParents (e.evaluations.map (·.fitness))
      (e.settings.populationSize - e.kept.1.length)).run.run e.source = (picked, source) ∧
    ((∃ err, picked = .error err ∧ e.select = (.error (.schedule err),
      { e with census := e.kept.2, source := source, offspring := [] })) ∨
    ∃ offspring, picked = .ok offspring ∧ e.select = (.ok (), { e with
      census := e.kept.2, source := source, population := e.kept.1, offspring := offspring
      phase := .crossover })) := by
  have hkept : List.foldl (fun (p, c) t => Census.addUnique c p t) ([], e.census.reset) e.elites =
    e.kept := rfl
  unfold elites at hkept
  unfold select
  dsimp only
  rw [hkept]
  generalize e.kept = k
  obtain ⟨kept, census⟩ := k
  dsimp only
  generalize (e.pickParents (e.evaluations.map (·.fitness))
    (e.settings.populationSize - kept.length)).run.run e.source = drawn
  obtain ⟨picked, source⟩ := drawn
  refine ⟨picked, source, rfl, ?_⟩
  cases picked with
  | error err => exact Or.inl ⟨err, rfl, rfl⟩
  | ok offspring => exact Or.inr ⟨offspring, rfl, rfl⟩

/-- **Offspring are crossed.** -/
theorem crossover_cases (e : Engine τ) : ∃ offspring source,
    (crossPairs e.rates.crossover e.offspring).run e.source = (offspring, source) ∧
    e.crossover = { e with offspring := offspring, source := source, phase := .mutate } :=
  ⟨_, _, rfl, rfl⟩

/-- **Offspring become the next generation**, unless the expansion of some tree does not end. -/
theorem mutate_cases (e : Engine τ) :
    (∃ err source, e.nextGeneration.run.run e.source = (.error err, source) ∧
      e.mutate = (.error (.grammar err), { e with source := source })) ∨
    ∃ memory population census source,
      e.nextGeneration.run.run e.source = (.ok (memory, population, census), source) ∧
      e.mutate = (.ok (), { e with
        memory := memory
        population := population
        census := census
        source := source
        offspring := []
        generation := e.generation + 1
        phase := .evaluate }) := by
  unfold mutate
  generalize e.nextGeneration.run.run e.source = drawn
  obtain ⟨err | ⟨memory, population, census⟩, source⟩ := drawn
  · exact Or.inl ⟨err, source, rfl, rfl⟩
  · exact Or.inr ⟨memory, population, census, source, rfl, rfl⟩

/-- **The engine after one transition.** -/
theorem step_snd (e : Engine τ) :
    e.step.2 =
      match e.phase with
      | .start => e.populate.2
      | .evaluate => e.evaluate
      | .check => e.check
      | .select => e.select.2
      | .crossover => e.crossover
      | .mutate => e.mutate.2
      | .done => e := by
  unfold step
  cases e.phase with
  | start =>
    generalize e.populate = after
    obtain ⟨r, e'⟩ := after
    rfl
  | select =>
    generalize e.select = after
    obtain ⟨r, e'⟩ := after
    rfl
  | mutate =>
    generalize e.mutate = after
    obtain ⟨r, e'⟩ := after
    rfl
  | _ => rfl

/-! ### The phases of a transition -/

/-- **Where a transition leads to**: the phase and the generation after it. -/
def Leads (e : Engine τ) (phase : Phase) (generation : Nat) : Prop :=
  match e.phase with
  | .start => phase = .evaluate ∧ generation = e.generation
  | .evaluate => phase = .check ∧ generation = e.generation
  | .check => (phase = .done ∧ e.isOver = true ∨ phase = .select ∧ e.isOver = false) ∧
      generation = e.generation
  | .select => phase = .crossover ∧ generation = e.generation
  | .crossover => phase = .mutate ∧ generation = e.generation
  | .mutate => phase = .evaluate ∧ generation = e.generation + 1
  | .done => phase = .done ∧ generation = e.generation

/-- **A transition that succeeds** leads from its phase to the next one. -/
theorem leads_of_step {phase : Phase} {after : Engine τ} (h : e.step = (.ok phase, after)) :
    after.phase = phase ∧ e.Leads phase after.generation := by
  unfold step at h
  unfold Leads
  cases hphase : e.phase with
  | start =>
    rw [hphase] at h
    dsimp only at h
    obtain ⟨err, source, -, hp⟩ | ⟨population, census, source, -, hp | ⟨-, hp⟩⟩ :=
      e.populate_cases <;> rw [hp] at h
    · exact absurd (Prod.mk.inj h).1 (by simp [Except.map])
    · exact absurd (Prod.mk.inj h).1 (by simp [Except.map])
    · obtain ⟨hok, rfl⟩ := Prod.mk.inj h
      exact ⟨Except.ok.inj hok, (Except.ok.inj hok).symm, rfl⟩
  | check =>
    rw [hphase] at h
    obtain ⟨hok, rfl⟩ := Prod.mk.inj h
    obtain rfl := Except.ok.inj hok
    refine ⟨rfl, ?_, ?_⟩ <;> rw [check] <;> split
    · exact Or.inl ⟨rfl, ‹_›⟩
    · exact Or.inr ⟨rfl, Bool.not_eq_true _ ▸ ‹_›⟩
    · rfl
    · rfl
  | select =>
    rw [hphase] at h
    dsimp only at h
    obtain ⟨picked, source, -, ⟨err, -, hp⟩ | ⟨offspring, -, hp⟩⟩ := e.select_cases <;> rw [hp] at h
    · exact absurd (Prod.mk.inj h).1 (by simp [Except.map])
    · obtain ⟨hok, rfl⟩ := Prod.mk.inj h
      exact ⟨Except.ok.inj hok, (Except.ok.inj hok).symm, rfl⟩
  | mutate =>
    rw [hphase] at h
    dsimp only at h
    obtain ⟨err, source, -, hp⟩ | ⟨memory, population, census, source, -, hp⟩ := e.mutate_cases <;>
      rw [hp] at h
    · exact absurd (Prod.mk.inj h).1 (by simp [Except.map])
    · obtain ⟨hok, rfl⟩ := Prod.mk.inj h
      exact ⟨Except.ok.inj hok, (Except.ok.inj hok).symm, rfl⟩
  | evaluate | crossover =>
    rw [hphase] at h
    obtain ⟨hok, rfl⟩ := Prod.mk.inj h
    exact ⟨Except.ok.inj hok, (Except.ok.inj hok).symm, rfl⟩
  | done =>
    rw [hphase] at h
    obtain ⟨hok, rfl⟩ := Prod.mk.inj h
    exact ⟨Except.ok.inj hok, (Except.ok.inj hok).symm.trans hphase, rfl⟩

/-- **Only a check ends a run**, and only one that finds the run over. -/
theorem isOver_of_step_done {after : Engine τ} (h : e.step = (.ok .done, after))
    (hphase : e.phase ≠ .done) : after.isOver = true := by
  obtain ⟨-, hleads⟩ := leads_of_step h
  unfold Leads at hleads
  cases hcurrent : e.phase with
  | check =>
    rw [hcurrent] at hleads
    obtain ⟨⟨-, hover⟩ | ⟨hno, -⟩, -⟩ := hleads
    · rw [step, hcurrent] at h
      obtain ⟨-, rfl⟩ := Prod.mk.inj h
      rw [check, if_pos hover]
      exact hover
    · exact absurd hno (by decide)
  | start | evaluate | select | crossover | mutate =>
    rw [hcurrent] at hleads
    exact absurd hleads.1 (by decide)
  | done => exact absurd hcurrent hphase

/-- **A transition that fails** stays in its phase. -/
theorem phase_of_step_error {err : EngineError} {after : Engine τ}
    (h : e.step = (.error err, after)) :
    after.phase = e.phase ∧ after.generation = e.generation := by
  unfold step at h
  cases hphase : e.phase with
  | start =>
    rw [hphase] at h
    dsimp only at h
    obtain ⟨err, source, -, hp⟩ | ⟨population, census, source, -, hp | ⟨-, hp⟩⟩ :=
      e.populate_cases <;> rw [hp] at h
    · obtain ⟨-, rfl⟩ := Prod.mk.inj h
      exact ⟨hphase, rfl⟩
    · obtain ⟨-, rfl⟩ := Prod.mk.inj h
      exact ⟨hphase, rfl⟩
    · exact nomatch (Prod.mk.inj h).1
  | select =>
    rw [hphase] at h
    dsimp only at h
    obtain ⟨picked, source, -, ⟨err, -, hp⟩ | ⟨offspring, -, hp⟩⟩ := e.select_cases <;> rw [hp] at h
    · obtain ⟨-, rfl⟩ := Prod.mk.inj h
      exact ⟨hphase, rfl⟩
    · exact nomatch (Prod.mk.inj h).1
  | mutate =>
    rw [hphase] at h
    dsimp only at h
    obtain ⟨err, source, -, hp⟩ | ⟨memory, population, census, source, -, hp⟩ := e.mutate_cases <;>
      rw [hp] at h
    · obtain ⟨-, rfl⟩ := Prod.mk.inj h
      exact ⟨hphase, rfl⟩
    · exact nomatch (Prod.mk.inj h).1
  | evaluate | check | crossover | done =>
    rw [hphase] at h
    exact nomatch (Prod.mk.inj h).1

/-! ### Runs -/

/-- **What every transition preserves, every run preserves.** -/
theorem runSteps_induction {P : Engine τ → Prop} (hstep : ∀ e, P e → P e.step.2) :
    ∀ n e, P e → P (runSteps n e).2
  | 0, _, h => h
  | n + 1, e, h => by
    have hnext := hstep e h
    rw [runSteps]
    split
    · rename_i heq
      rwa [heq] at hnext
    · rename_i heq
      rwa [heq] at hnext
    · rename_i heq
      rw [heq] at hnext
      exact runSteps_induction hstep n _ hnext

theorem run_snd (e : Engine τ) : e.run.2 = (runSteps e.stepsLeft e).2 := by
  rw [run]
  split <;> simp_all

/-! ### What transitions leave alone -/

/-- **Two engines are set up alike**: they have the same grammar, constraints, settings and
strategy, and both or neither are cancelled. -/
structure SameSetup (e e' : Engine τ) : Prop where
  grammar : e'.grammar = e.grammar
  hard : e'.evaluator.hard = e.evaluator.hard
  soft : e'.evaluator.soft = e.evaluator.soft
  config : e'.config = e.config
  strategy : e'.strategy = e.strategy
  cancelled : e'.cancelled = e.cancelled

theorem SameSetup.refl (e : Engine τ) : e.SameSetup e :=
  ⟨rfl, rfl, rfl, rfl, rfl, rfl⟩

theorem SameSetup.trans {e e' e'' : Engine τ} (h : e.SameSetup e') (h' : e'.SameSetup e'') :
    e.SameSetup e'' :=
  ⟨h'.grammar.trans h.grammar, h'.hard.trans h.hard, h'.soft.trans h.soft,
    h'.config.trans h.config, h'.strategy.trans h.strategy, h'.cancelled.trans h.cancelled⟩

theorem sameSetup_populate (e : Engine τ) : e.SameSetup e.populate.2 := by
  obtain ⟨_, _, -, h⟩ | ⟨_, _, _, -, h | ⟨-, h⟩⟩ := e.populate_cases <;>
  · rw [h]
    exact ⟨rfl, rfl, rfl, rfl, rfl, rfl⟩

theorem sameSetup_check (e : Engine τ) : e.SameSetup e.check := by
  rw [check]
  split <;> exact ⟨rfl, rfl, rfl, rfl, rfl, rfl⟩

theorem sameSetup_select (e : Engine τ) : e.SameSetup e.select.2 := by
  obtain ⟨picked, source, -, ⟨_, -, h⟩ | ⟨_, -, h⟩⟩ := e.select_cases <;>
  · rw [h]
    exact ⟨rfl, rfl, rfl, rfl, rfl, rfl⟩

theorem sameSetup_mutate (e : Engine τ) : e.SameSetup e.mutate.2 := by
  obtain ⟨_, _, -, h⟩ | ⟨_, _, _, _, -, h⟩ := e.mutate_cases <;>
  · rw [h]
    exact ⟨rfl, rfl, rfl, rfl, rfl, rfl⟩

/-- **A transition changes nothing of the setup.** -/
theorem sameSetup_step (e : Engine τ) : e.SameSetup e.step.2 := by
  rw [step_snd]
  split
  · exact e.sameSetup_populate
  · exact ⟨rfl, rfl, rfl, rfl, rfl, rfl⟩
  · exact e.sameSetup_check
  · exact e.sameSetup_select
  · exact ⟨rfl, rfl, rfl, rfl, rfl, rfl⟩
  · exact e.sameSetup_mutate
  · exact .refl e

theorem settings_of_step {r : Except EngineError Phase} {after : Engine τ}
    (h : e.step = (r, after)) : after.settings = e.settings := by
  have hconfig := e.sameSetup_step.config
  rw [h] at hconfig
  rw [settings, settings, hconfig]

/-- A whole run changes nothing of the setup. -/
theorem sameSetup_run (e : Engine τ) : e.SameSetup e.run.2 := by
  rw [run_snd]
  exact runSteps_induction (P := e.SameSetup) (fun e' h => h.trans e'.sameSetup_step) _ e (.refl e)

end GrammarFuzzing.Engine
