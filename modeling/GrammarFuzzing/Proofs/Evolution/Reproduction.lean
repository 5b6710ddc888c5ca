import GrammarFuzzing.Proofs.Evolution.Filling
import GrammarFuzzing.Proofs.Evolution.Transition

/-!
# Runs that repeat themselves

A run of its own (`GrammarFuzzing.Engine.evolve`) starts from its own seed and from an engine that
has forgotten the run before, so one would expect it to come out the same each time. This file says
how far that is so. An engine carries some things from run to run:

* its grammar, constraints, settings and strategy, which no transition changes
  (`GrammarFuzzing.Engine.SameSetup`);
* the memory of its strategy, which the usual strategy with constant rates never changes;
* the **ranges** of values that its soft constraints have shown so far. They survive, and since
  values are scaled by their range they have a part in the fitness of the next run.

So what a run comes to is a function of its request and of the ranges it starts with, and a run that
leaves the ranges as they were repeats itself (`GrammarFuzzing.Engine.evolve_evolve`). Without soft
constraints there are no ranges to speak of, and every run repeats itself.
-/

namespace GrammarFuzzing

namespace Evaluator

variable {α : Type} [Scalar α]

theorem observe_nil (ranges : List (ValueRange α)) : observe ranges [] = ranges := by
  rw [observe]
  all_goals simp

/-- Without soft constraints a batch shows no values. -/
theorem evaluateAll_of_soft_nil {e : Evaluator α} (h : e.soft = []) (ts : List Tree) :
    (e.evaluateAll ts).2 = e := by
  have hranges : ∀ (ts : List Tree) (rs : List (ValueRange α)),
      (ts.map e.rawScore).foldl (fun rs s => observe rs s.softValues) rs = rs := by
    intro ts
    induction ts with
    | nil => exact fun rs => rfl
    | cons t ts ih =>
      intro rs
      have hvalues : (e.rawScore t).softValues = [] := by
        rw [rawScore, h, List.map_nil]
      rw [List.map_cons, List.foldl_cons, hvalues, observe_nil, ih]
  rw [evaluateAll, hranges]

end Evaluator

namespace Engine

/-! ### What a run remembers -/

section Ranges

variable {τ : Type}

/-- Without soft constraints a transition leaves the ranges alone. -/
theorem ranges_step {e : Engine τ} (h : e.evaluator.soft = []) :
    e.step.2.evaluator.ranges = e.evaluator.ranges := by
  rw [step_snd]
  split
  · obtain ⟨_, _, -, h⟩ | ⟨_, _, _, -, h | ⟨-, h⟩⟩ := e.populate_cases <;> rw [h]
  · exact congrArg Evaluator.ranges (Evaluator.evaluateAll_of_soft_nil h e.population)
  · rw [check]
    split <;> rfl
  · obtain ⟨picked, source, -, ⟨_, -, h⟩ | ⟨_, -, h⟩⟩ := e.select_cases <;> rw [h]
  · rfl
  · obtain ⟨_, _, -, h⟩ | ⟨_, _, _, _, -, h⟩ := e.mutate_cases <;> rw [h]
  · rfl

theorem ranges_run {e : Engine τ} (h : e.evaluator.soft = []) :
    e.run.2.evaluator.ranges = e.evaluator.ranges := by
  rw [run_snd]
  refine (runSteps_induction (P := fun e' => e'.evaluator.soft = [] ∧
    e'.evaluator.ranges = e.evaluator.ranges) ?_ _ e ⟨h, rfl⟩).2
  rintro e' ⟨hsoft, hranges⟩
  exact ⟨e'.sameSetup_step.soft.trans hsoft, (ranges_step hsoft).trans hranges⟩

end Ranges

/-- **The engine has the usual strategy with constant rates.** -/
structure IsPlain (e : Engine (Tuner Float)) : Prop where
  strategy : ∃ m, e.strategy = .of m
  memory : e.memory = .constant

/-- The usual strategy keeps its memory while it mutates. -/
theorem gives_addOffspring_memory (m : SubtreeMutator) (g : Grammar) (rate : Float)
    (memory : Tuner Float) (offspring : List Offspring) (population : List Tree) (census : Census) :
    Attempt.Gives (addOffspring (.of m) g rate offspring memory population census) (fun _ => True)
      (·.1 = memory) := by
  refine gives_addOffspring_of (I := fun _ kept _ _ => kept = memory) id ?_ offspring rfl
  rintro o rest _ population c rfl
  exact (Draw.gives_true _).bind fun _ _ => Draw.gives_pure ⟨fun _ _ => trivial, fun _ _ => rfl⟩

/-- A transition keeps the strategy and its memory. -/
theorem IsPlain.step {e : Engine (Tuner Float)} (h : e.IsPlain) : e.step.2.IsPlain := by
  obtain ⟨m, hm⟩ := h.strategy
  refine ⟨⟨m, e.sameSetup_step.strategy.trans hm⟩, ?_⟩
  rw [step_snd]
  split
  · obtain ⟨_, _, -, hp⟩ | ⟨_, _, _, -, hp | ⟨-, hp⟩⟩ := e.populate_cases <;>
    · rw [hp]
      exact h.memory
  · exact h.memory
  · rw [check]
    split
    · exact h.memory
    · dsimp only
      rw [hm, h.memory]
      rfl
  · obtain ⟨picked, source, -, ⟨_, -, hp⟩ | ⟨_, -, hp⟩⟩ := e.select_cases <;>
    · rw [hp]
      exact h.memory
  · exact h.memory
  · have hgives : Attempt.Gives e.nextGeneration (fun _ => True) (·.1 = e.memory) := by
      rw [nextGeneration, hm]
      refine (gives_addOffspring_memory m _ _ _ _ _ _).bind fun added hadded => ?_
      exact (Attempt.gives_true _).bind fun _ _ => Attempt.gives_pure hadded
    obtain ⟨_, _, -, hp⟩ | ⟨_, _, _, _, hdrawn, hp⟩ := e.mutate_cases <;> rw [hp]
    · exact h.memory
    · exact (hgives.of_run_eq hdrawn).trans h.memory
  · exact h.memory

theorem IsPlain.run {e : Engine (Tuner Float)} (h : e.IsPlain) : e.run.2.IsPlain := by
  rw [run_snd]
  exact runSteps_induction (fun _ h => h.step) _ e h

/-! ### Runs of their own -/

section Fresh

variable {τ : Type}

/-- The engine at the start of a run of its own. -/
def fresh (e : Engine τ) (r : RunRequest) : Engine τ :=
  { e with config := r.apply e.config, source := .ofSeed (UInt64.ofNat r.seed) }.restart

theorem evolve_eq {e : Engine τ} {r : RunRequest} (h : (r.apply e.config).validate = .ok ()) :
    e.evolve r = ((e.fresh r).run.1, { (e.fresh r).run.2 with config := e.config }) := by
  rw [evolve]
  dsimp only
  rw [h]
  rfl

theorem evolve_eq_error {e : Engine τ} {r : RunRequest} {err : ConfigError}
    (h : (r.apply e.config).validate = .error err) : e.evolve r = (.error (.config err), e) := by
  rw [evolve]
  dsimp only
  rw [h]

/-- **A run of its own starts the same way** on engines that are set up alike, whose strategies
remember the same and whose soft constraints have shown the same ranges. -/
theorem fresh_congr {e e' : Engine τ} (h : e.SameSetup e') (hmemory : e'.memory = e.memory)
    (hranges : e'.evaluator.ranges = e.evaluator.ranges) (r : RunRequest) :
    e'.fresh r = e.fresh r := by
  have hevaluator : e'.evaluator = e.evaluator := by
    have hhard := h.hard
    have hsoft := h.soft
    cases he : e.evaluator
    cases he' : e'.evaluator
    simp_all only
  unfold fresh restart settings
  dsimp only
  rw [h.grammar, h.config, h.strategy, h.cancelled, hmemory, hevaluator]

/-- A run of its own leaves the setup as it was. -/
theorem sameSetup_evolve (e : Engine τ) (r : RunRequest) : e.SameSetup (e.evolve r).2 := by
  cases h : (r.apply e.config).validate with
  | error err =>
    rw [evolve_eq_error h]
    exact .refl e
  | ok _ =>
    have hrun := (e.fresh r).sameSetup_run
    rw [evolve_eq h]
    exact ⟨hrun.grammar, hrun.hard, hrun.soft, rfl, hrun.strategy, hrun.cancelled⟩

/-- Without soft constraints a run of its own leaves the ranges alone. -/
theorem ranges_evolve {e : Engine τ} (h : e.evaluator.soft = []) (r : RunRequest) :
    (e.evolve r).2.evaluator.ranges = e.evaluator.ranges := by
  cases hvalid : (r.apply e.config).validate with
  | error err => rw [evolve_eq_error hvalid]
  | ok _ =>
    rw [evolve_eq hvalid]
    exact ranges_run (e := e.fresh r) h

end Fresh

/-- A run of its own keeps the strategy and its memory. -/
theorem IsPlain.evolve {e : Engine (Tuner Float)} (h : e.IsPlain) (r : RunRequest) :
    (e.evolve r).2.IsPlain := by
  cases hvalid : (r.apply e.config).validate with
  | error err => rwa [evolve_eq_error hvalid]
  | ok _ =>
    have hfresh : (e.fresh r).IsPlain := ⟨h.strategy, h.memory⟩
    rw [evolve_eq hvalid]
    exact ⟨hfresh.run.strategy, hfresh.run.memory⟩

/-- **What a run of its own comes to**, on an engine with the usual strategy and constant rates.
Engines that are set up alike and whose soft constraints have shown the same ranges have the same
run, whatever was run on them before. So a run that leaves the ranges as they were can be repeated,
which is every run on an engine without soft constraints.

The ranges are the one thing that a run leaves behind for the next. -/
theorem evolve_evolve {e : Engine (Tuner Float)} (h : e.IsPlain) (r : RunRequest) :
    (∀ e' : Engine (Tuner Float), e'.IsPlain → e.SameSetup e' →
      e'.evaluator.ranges = e.evaluator.ranges → (r.apply e.config).validate = .ok () →
        e'.evolve r = e.evolve r) ∧
    (e.evaluator.soft = [] ∨ (e.evolve r).2.evaluator.ranges = e.evaluator.ranges →
      (e.evolve r).2.evolve r = e.evolve r) := by
  have hsame : ∀ e' : Engine (Tuner Float), e'.IsPlain → e.SameSetup e' →
      e'.evaluator.ranges = e.evaluator.ranges → (r.apply e.config).validate = .ok () →
        e'.evolve r = e.evolve r := by
    intro e' h' hsetup hranges hvalid
    have hmemory : e'.memory = e.memory := h'.memory.trans h.memory.symm
    have hvalid' : (r.apply e'.config).validate = .ok () := by rw [hsetup.config, hvalid]
    rw [evolve_eq hvalid', evolve_eq hvalid, fresh_congr hsetup hmemory hranges, hsetup.config]
  refine ⟨hsame, fun hkept => ?_⟩
  cases hvalid : (r.apply e.config).validate with
  | error err => rw [evolve_eq_error hvalid, evolve_eq_error hvalid]
  | ok _ =>
    refine hsame _ (h.evolve r) (e.sameSetup_evolve r) ?_ hvalid
    rcases hkept with hsoft | hranges
    · exact ranges_evolve hsoft r
    · exact hranges

/-- With the usual settings and no constraints, a run for binary numbers repeats itself. -/
theorem evolve_evolve_binaryNumbers :
    ∃ g e, (Document.binaryNumbers []).toDraft.build = .ok g ∧ standard g [] {} .constant = .ok e ∧
      (RunRequest.apply ⟨4, 100, 8, 0.5, 0.5, 28⟩ e.config).validate = .ok () ∧
      (e.evolve ⟨4, 100, 8, 0.5, 0.5, 28⟩).2.evolve ⟨4, 100, 8, 0.5, 0.5, 28⟩ =
        e.evolve ⟨4, 100, 8, 0.5, 0.5, 28⟩ := by
  refine ⟨_, _, rfl, rfl, rfl, ?_⟩
  exact (evolve_evolve ⟨⟨_, rfl⟩, rfl⟩ _).2 (Or.inl rfl)

end Engine

end GrammarFuzzing
