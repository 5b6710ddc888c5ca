import GrammarFuzzing.Constraint.Spec
import GrammarFuzzing.Proofs.Evolution.Ending
import GrammarFuzzing.Proofs.Evolution.Invariant
import GrammarFuzzing.Proofs.Evolution.Solutions

/-!
# Runs come to an end

A run is a loop without a bound of its own: transitions are made until one fails or leads to the
end, and meanwhile somebody else may set the flag that cancels it. `GrammarFuzzing.Engine.Runs` is
this loop, told as what a run has come to once it is over, for every course that the flag may take.
That there is a run, and only one, is that the loop ends (`GrammarFuzzing.Engine.exists_runs`,
`GrammarFuzzing.Engine.Runs.unique`); `GrammarFuzzing.Engine.run` is the loop when nobody touches
the flag (`GrammarFuzzing.Engine.Runs.run_eq`).

* **It ends** because a generation has five transitions, and a check begins another one only while
  generations are left: `GrammarFuzzing.Engine.transitionsLeft` decreases.
* **Its solutions are solutions**, since the corpus and the evaluator always belong together
  (`GrammarFuzzing.Corpus.Holds`), whatever becomes of the ranges.
* **It does not end early**: the last transition is a check, and a check ends a run only when the
  flag is set, there are enough solutions, or no generation is left.

All of this is put together in `GrammarFuzzing.Engine.completes`. The loop ends in any case, but its
transitions need not: the error `GrammarFuzzing.EngineError.grammar` stands in the place of a result
that there never is. So the names of the rules have to be bare, and without that a run may be caught
in its first transition (`GrammarFuzzing.Engine.runs_bracketed`).
-/

namespace GrammarFuzzing

/-- The place of a phase in a generation, counted from its end. -/
def Phase.place : Phase → Nat
  | .start => 8
  | .evaluate => 7
  | .check | .done => 6
  | .select => 5
  | .crossover => 4
  | .mutate => 3

namespace Engine

variable {τ : Type} {e : Engine τ}

/-! ### Runs under a flag -/

/-- The engine with the flag that cancels it as somebody else has set it. -/
def flagged (e : Engine τ) (flag : Bool) : Engine τ :=
  { e with cancelled := flag }

/-- **What a run has come to once it is over.** Transition `i` is the first one, and before each
transition the flag is what `flag` says; `last` is the transition that fails or ends the run. -/
inductive Runs (flag : Nat → Bool) :
    Nat → Engine τ → Nat → Except EngineError (List Tree) → Engine τ → Prop
  | fails {i : Nat} {e after : Engine τ} {err : EngineError}
      (h : (e.flagged (flag i)).step = (.error err, after)) : Runs flag i e i (.error err) after
  | done {i : Nat} {e after : Engine τ} (h : (e.flagged (flag i)).step = (.ok .done, after)) :
      Runs flag i e i
        (.ok (after.corpus.ranked after.evaluator (some after.settings.solutionsWanted))) after
  | next {i last : Nat} {e middle after : Engine τ} {phase : Phase}
      {result : Except EngineError (List Tree)}
      (h : (e.flagged (flag i)).step = (.ok phase, middle)) (hphase : phase ≠ .done)
      (hrest : Runs flag (i + 1) middle last result after) : Runs flag i e last result after

namespace Runs

variable {flag : Nat → Bool} {i last last' : Nat} {result result' : Except EngineError (List Tree)}
  {after after' : Engine τ}

/-- **A run comes to one end.** -/
theorem unique (h : Runs flag i e last result after) (h' : Runs flag i e last' result' after') :
    last' = last ∧ result' = result ∧ after' = after := by
  induction h with
  | fails h =>
    cases h' with
    | fails h' =>
      obtain ⟨herr, rfl⟩ := Prod.mk.inj (h.symm.trans h')
      exact ⟨rfl, congrArg _ (Except.error.inj herr).symm, rfl⟩
    | done h' => exact nomatch (Prod.mk.inj (h.symm.trans h')).1
    | next h' => exact nomatch (Prod.mk.inj (h.symm.trans h')).1
  | done h =>
    cases h' with
    | fails h' => exact nomatch (Prod.mk.inj (h.symm.trans h')).1
    | done h' =>
      obtain ⟨-, rfl⟩ := Prod.mk.inj (h.symm.trans h')
      exact ⟨rfl, rfl, rfl⟩
    | next h' hphase =>
      exact absurd (Except.ok.inj (Prod.mk.inj (h.symm.trans h')).1).symm hphase
  | next h hphase _ ih =>
    cases h' with
    | fails h' => exact nomatch (Prod.mk.inj (h.symm.trans h')).1
    | done h' => exact absurd (Except.ok.inj (Prod.mk.inj (h.symm.trans h')).1) hphase
    | next h' _ hrest' =>
      obtain ⟨-, rfl⟩ := Prod.mk.inj (h.symm.trans h')
      exact ih hrest'

/-- How the flag stood before the run makes no difference. -/
theorem flagged (h : Runs flag i e last result after) (cancelled : Bool) :
    Runs flag i (e.flagged cancelled) last result after := by
  cases h with
  | fails h => exact .fails h
  | done h => exact .done h
  | next h hphase hrest => exact .next h hphase hrest

/-- **What every transition preserves, whatever the flag, every run preserves.** -/
theorem preserves {P : Engine τ → Prop} (hstep : ∀ e flag, P e → P (e.flagged flag).step.2)
    (h : Runs flag i e last result after) (he : P e) : P after := by
  induction h with
  | @fails i _ _ _ h | @done i _ _ h =>
    have hnext := hstep _ (flag i) he
    rwa [h] at hnext
  | @next i _ _ _ _ _ _ h _ _ ih =>
    have hnext := hstep _ (flag i) he
    rw [h] at hnext
    exact ih hnext

theorem le_last (h : Runs flag i e last result after) : i ≤ last := by
  induction h with
  | fails _ | done _ => exact Nat.le_refl _
  | next _ _ _ ih => exact Nat.le_of_succ_le ih

end Runs

/-! ### The number of transitions -/

/-- **A run within its generations**: while the next one is being made, there is one left. -/
structure Limited (e : Engine τ) : Prop where
  le : e.generation ≤ e.settings.maxGenerations
  lt : e.phase = .select ∨ e.phase = .crossover ∨ e.phase = .mutate →
    e.generation < e.settings.maxGenerations

/-- **How many transitions a run has at most**, until it is done. -/
def transitionsLeft (e : Engine τ) : Nat :=
  5 * (e.settings.maxGenerations - e.generation) + e.phase.place - 5

theorem lt_of_isOver_eq_false (h : e.isOver = false) :
    e.generation < e.settings.maxGenerations := by
  rw [isOver, Bool.or_eq_false_iff, decide_eq_false_iff_not] at h
  exact Nat.lt_of_not_le h.2

/-- **A transition keeps to the generations**, and one that does not end the run leaves fewer. -/
theorem Limited.of_step {phase : Phase} {after : Engine τ} (h : e.Limited)
    (hstep : e.step = (.ok phase, after)) :
    after.Limited ∧ (phase ≠ .done → after.transitionsLeft < e.transitionsLeft) := by
  obtain ⟨hphase, hleads⟩ := leads_of_step hstep
  have hmost : after.settings.maxGenerations = e.settings.maxGenerations :=
    congrArg EvolutionSettings.maxGenerations (settings_of_step hstep)
  have hle := h.le
  unfold Leads at hleads
  unfold transitionsLeft
  rw [hphase]
  cases hcurrent : e.phase with
  | start | evaluate =>
    rw [hcurrent] at hleads
    obtain ⟨rfl, hgeneration⟩ := hleads
    refine ⟨⟨by omega, by simp [hphase]⟩, fun _ => ?_⟩
    simp only [Phase.place]
    omega
  | check =>
    rw [hcurrent] at hleads
    obtain ⟨⟨rfl, -⟩ | ⟨rfl, hnot⟩, hgeneration⟩ := hleads
    · exact ⟨⟨by omega, by simp [hphase]⟩, fun hno => absurd rfl hno⟩
    · have hless := lt_of_isOver_eq_false hnot
      refine ⟨⟨by omega, fun _ => by omega⟩, fun _ => ?_⟩
      simp only [Phase.place]
      omega
  | select | crossover =>
    have hless := h.lt (by simp [hcurrent])
    rw [hcurrent] at hleads
    obtain ⟨rfl, hgeneration⟩ := hleads
    refine ⟨⟨by omega, fun _ => by omega⟩, fun _ => ?_⟩
    simp only [Phase.place]
    omega
  | mutate =>
    have hless := h.lt (by simp [hcurrent])
    rw [hcurrent] at hleads
    obtain ⟨rfl, hgeneration⟩ := hleads
    refine ⟨⟨by omega, by simp [hphase]⟩, fun _ => ?_⟩
    simp only [Phase.place]
    omega
  | done =>
    rw [hcurrent] at hleads
    obtain ⟨rfl, hgeneration⟩ := hleads
    exact ⟨⟨by omega, by simp [hphase]⟩, fun hno => absurd rfl hno⟩

/-- A transition that fails keeps to the generations as well. -/
theorem Limited.of_step_error {err : EngineError} {after : Engine τ} (h : e.Limited)
    (hstep : e.step = (.error err, after)) : after.Limited := by
  obtain ⟨hphase, hgeneration⟩ := phase_of_step_error hstep
  refine ⟨?_, ?_⟩ <;> rw [settings_of_step hstep, hgeneration]
  · exact h.le
  · rw [hphase]
    exact h.lt

/-- A failure takes a transition, too. -/
theorem Limited.transitionsLeft_pos (h : e.Limited) : 0 < e.transitionsLeft := by
  unfold transitionsLeft
  cases hcurrent : e.phase with
  | select | crossover | mutate =>
    have hless := h.lt (by simp [hcurrent])
    simp only [Phase.place]
    omega
  | start | evaluate | check | done =>
    simp only [Phase.place]
    omega

theorem Limited.flagged (h : e.Limited) (flag : Bool) : (e.flagged flag).Limited :=
  ⟨h.le, h.lt⟩

/-- **Every run comes to an end**, after so many transitions at most. -/
theorem exists_runs (flag : Nat → Bool) : ∀ most {i : Nat} {e : Engine τ}, e.Limited →
    e.transitionsLeft ≤ most → ∃ last result after, Runs flag i e last result after ∧
      last < i + most
  | 0, _, _, h, hmost => absurd h.transitionsLeft_pos (Nat.not_lt_of_le hmost)
  | most + 1, i, e, h, hmost => by
    rcases hstep : (e.flagged (flag i)).step with ⟨err | phase, after⟩
    · exact ⟨i, _, after, .fails hstep, by omega⟩
    · by_cases hphase : phase = .done
      · subst hphase
        exact ⟨i, _, after, .done hstep, by omega⟩
      · obtain ⟨hlimited, hless⟩ := (h.flagged (flag i)).of_step hstep
        have hleft : (e.flagged (flag i)).transitionsLeft = e.transitionsLeft := rfl
        have hfewer := hless hphase
        obtain ⟨last, result, final, hruns, hlast⟩ :=
          exists_runs flag most (i := i + 1) hlimited (by omega)
        exact ⟨last, result, final, .next hstep hphase hruns, by omega⟩

/-! ### Runs whose flag stays as it is -/

/-- What a run has come to after its transitions. -/
def conclude : Except EngineError Unit × Engine τ → Except EngineError (List Tree) × Engine τ
  | (.error err, e) => (.error err, e)
  | (.ok (), e) => (.ok (e.corpus.ranked e.evaluator (some e.settings.solutionsWanted)), e)

theorem run_eq_conclude (e : Engine τ) : e.run = conclude (runSteps e.stepsLeft e) := by
  rw [run]
  split <;> rename_i heq <;> rw [heq, conclude]

namespace Runs

variable {flag : Nat → Bool} {i last : Nat} {result : Except EngineError (List Tree)}
  {after : Engine τ}

/-- While the flag stays as it is, enough transitions are what the loop makes. -/
theorem conclude_runSteps (h : Runs flag i e last result after) {cancelled : Bool}
    (hflag : ∀ i, flag i = cancelled) (he : e.cancelled = cancelled) : ∀ {n : Nat},
      last < i + n → conclude (runSteps n e) = (result, after) := by
  have hsame : ∀ {e : Engine τ} (i : Nat), e.cancelled = cancelled → e.flagged (flag i) = e := by
    intro e i he
    rw [hflag, ← he]
    rfl
  induction h with
  | @fails i e _ _ h | @done i e _ h =>
    intro n hn
    obtain ⟨n, rfl⟩ : ∃ m, n = m + 1 := ⟨n - 1, by omega⟩
    rw [hsame i he] at h
    rw [runSteps, h]
    rfl
  | @next i last e middle after phase result h hphase hrest ih =>
    intro n hn
    have hle := hrest.le_last
    obtain ⟨n, rfl⟩ : ∃ m, n = m + 1 := ⟨n - 1, by omega⟩
    rw [hsame i he] at h
    have hcancelled := e.sameSetup_step.cancelled
    rw [h, he] at hcancelled
    rw [runSteps, h]
    split
    · rename_i heq
      exact absurd (Prod.mk.inj heq).1 (by simp)
    · rename_i heq
      exact absurd (Except.ok.inj (Prod.mk.inj heq).1) hphase
    · rename_i heq
      obtain ⟨-, rfl⟩ := Prod.mk.inj heq
      exact ih hcancelled (by omega)

/-- **The run of an engine** is the loop under its own flag. -/
theorem run_eq (h : Runs flag 0 e last result after) (hflag : ∀ i, flag i = e.cancelled)
    (hlast : last < e.stepsLeft) : e.run = (result, after) := by
  rw [run_eq_conclude]
  exact h.conclude_runSteps hflag rfl (by omega)

end Runs

/-! ### What a run keeps -/

/-- **The corpus and the evaluator belong together** after every transition. -/
theorem holds_step (h : e.corpus.Holds e.evaluator) :
    e.step.2.corpus.Holds e.step.2.evaluator := by
  rw [step_snd]
  split
  · obtain ⟨_, _, -, hp⟩ | ⟨_, _, _, -, hp | ⟨-, hp⟩⟩ := e.populate_cases <;>
    · rw [hp]
      exact h
  · exact (h.foldl_add fun p hp => Evaluator.of_mem_zip_evaluateAll hp).congr
      (e.evaluator.hard_evaluateAll _) (e.evaluator.soft_evaluateAll _)
  · rw [check]
    split <;> exact h
  · obtain ⟨picked, source, -, ⟨err, -, hp⟩ | ⟨offspring, -, hp⟩⟩ := e.select_cases <;>
    · rw [hp]
      exact h
  · exact h
  · obtain ⟨_, _, -, hp⟩ | ⟨_, _, _, _, -, hp⟩ := e.mutate_cases <;>
    · rw [hp]
      exact h
  · exact h

namespace Runs

variable {flag : Nat → Bool} {i last : Nat} {result : Except EngineError (List Tree)}
  {after : Engine τ}

/-- A run changes nothing of the setup but the flag. -/
theorem sameSetup (h : Runs flag i e last result after) :
    e.SameSetup (after.flagged e.cancelled) :=
  h.preserves (P := fun e' => e.SameSetup (e'.flagged e.cancelled))
    (fun e' flag he' => by
      have hstep := (e'.flagged flag).sameSetup_step
      exact ⟨hstep.grammar.trans he'.grammar, hstep.hard.trans he'.hard, hstep.soft.trans he'.soft,
        hstep.config.trans he'.config, hstep.strategy.trans he'.strategy, rfl⟩)
    (.refl e)

theorem limited (h : Runs flag i e last result after) (he : e.Limited) : after.Limited :=
  h.preserves (fun e flag he => by
    rcases hstep : (e.flagged flag).step with ⟨err | phase, after⟩
    · exact (he.flagged flag).of_step_error hstep
    · exact ((he.flagged flag).of_step hstep).1) he

theorem holds (h : Runs flag i e last result after) (he : e.corpus.Holds e.evaluator) :
    after.corpus.Holds after.evaluator :=
  h.preserves (P := fun e => e.corpus.Holds e.evaluator)
    (fun e flag he => holds_step (e := e.flagged flag) he) he

/-- **No transition of a run takes for ever** if those of the engine come to an end. -/
theorem ne_error_grammar (h : Runs flag i e last result after) (he : e.Ends) (err : GrammarError) :
    result ≠ .error (.grammar err) := by
  induction h with
  | @fails i e after err' h =>
    have hstep := (he.flagged (flag i)).step.1 err
    change (e.flagged (flag i)).step.1 ≠ _ at hstep
    rw [h] at hstep
    exact fun hno => hstep (congrArg _ (Except.error.inj hno))
  | done => exact fun hno => nomatch hno
  | @next i _ e _ _ _ _ h _ _ ih =>
    have hnext := (he.flagged (flag i)).next
    change (e.flagged (flag i)).step.2.Ends at hnext
    rw [h] at hnext
    exact ih hnext

/-- **A run that does not fail ends with a check** that says so, under the flag of that time. -/
theorem isOver_after (h : Runs flag i e last result after) {ts : List Tree}
    (hresult : result = .ok ts) (hphase : e.phase ≠ .done) :
    after.isOver = true ∧ after.cancelled = flag last ∧
      ts = after.corpus.ranked after.evaluator (some after.settings.solutionsWanted) := by
  induction h with
  | fails _ => exact nomatch hresult
  | @done i e after h =>
    have hcancelled := (e.flagged (flag i)).sameSetup_step.cancelled
    rw [h] at hcancelled
    exact ⟨isOver_of_step_done h hphase, hcancelled, (Except.ok.inj hresult).symm⟩
  | next h hnext hrest ih =>
    refine ih hresult ?_
    rw [(leads_of_step h).1]
    exact hnext

end Runs

/-! ### Fresh engines -/

/-- **An engine that has not run yet.** -/
structure Fresh (e : Engine τ) (constraints : List Constraint) (config : Config) : Prop where
  config : e.config = config
  evaluator : e.evaluator = .ofConstraints constraints
  corpus : e.corpus = {}
  phase : e.phase = .start
  generation : e.generation = 0

theorem fresh_of_eq_ok {g : Grammar} {constraints : List Constraint} {config : Config}
    {strategy : Strategy τ} {memory : τ}
    (he : Engine.of g constraints config strategy memory = .ok e) (source : Source) :
    Fresh { e with source := source } constraints config := by
  obtain ⟨-, rfl⟩ := valid_of_eq_ok he
  exact ⟨rfl, rfl, rfl, rfl, rfl⟩

/-- A fresh engine makes trees within the budget of its settings, which fits into 64 bits. -/
theorem ends_of_eq_ok {g : Grammar} (hg : g.Ends) {constraints : List Constraint} {config : Config}
    {strategy : Strategy τ} (hstrategy : strategy.Ends g) {memory : τ}
    (he : Engine.of g constraints config strategy memory = .ok e) (source : Source) :
    Ends { e with source := source } := by
  obtain ⟨hvalid, rfl⟩ := valid_of_eq_ok he
  exact ⟨hg, hstrategy, (Config.maxNodes_le hvalid).trans (by decide)⟩

namespace Fresh

variable {constraints : List Constraint} {config : Config}

theorem limited (h : e.Fresh constraints config) : e.Limited :=
  ⟨h.generation ▸ Nat.zero_le _, by simp [h.phase]⟩

theorem holds (h : e.Fresh constraints config) : e.corpus.Holds e.evaluator := by
  rw [h.corpus]
  exact Corpus.holds_empty _

theorem transitionsLeft_eq (h : e.Fresh constraints config) :
    e.transitionsLeft = 5 * config.evolution.maxGenerations + 3 := by
  rw [transitionsLeft, settings, h.config, h.phase, h.generation, Phase.place]
  omega

theorem le_stepsLeft (h : e.Fresh constraints config) :
    5 * config.evolution.maxGenerations + 3 ≤ e.stepsLeft := by
  rw [stepsLeft, settings, h.config, h.generation]
  omega

end Fresh

/-- **What a run delivers that did not fail**: trees that meet the hard constraints, no two of the
same shape, the ones with the better quantities under the final ranges first. They are at most as
many as wanted, and if they are fewer, the flag was set or the generations were used up. -/
structure Delivers (constraints : List Constraint) (settings : EvolutionSettings) (cancelled : Bool)
    (after : Engine τ) (ts : List Tree) : Prop where
  length_le : ts.length ≤ settings.solutionsWanted
  nodup : (ts.map Tree.shapeHash).Nodup
  success : ∀ t ∈ ts, ∀ c ∈ constraints, c.isSoft = false → (c.evaluate t).success = true
  pairwise : ts.Pairwise fun t u =>
    floatRank (after.evaluator.quality u) ≤ floatRank (after.evaluator.quality t)
  of_length_lt : ts.length < settings.solutionsWanted →
    cancelled = true ∨ after.generation = settings.maxGenerations

namespace Runs

variable {flag : Nat → Bool} {last : Nat} {result : Except EngineError (List Tree)}
  {after : Engine τ} {constraints : List Constraint} {config : Config}

theorem settings_eq (h : Runs flag 0 e last result after) (he : e.Fresh constraints config) :
    after.settings = config.evolution := by
  rw [settings, show after.config = e.config from h.sameSetup.config, he.config]

theorem generation_le (h : Runs flag 0 e last result after) (he : e.Fresh constraints config) :
    after.generation ≤ config.evolution.maxGenerations := by
  rw [← h.settings_eq he]
  exact (h.limited he.limited).le

theorem delivers {ts : List Tree} (h : Runs flag 0 e last (.ok ts) after)
    (he : e.Fresh constraints config) :
    Delivers constraints config.evolution (flag last) after ts := by
  obtain ⟨hover, hflag, rfl⟩ := h.isOver_after rfl (by simp [he.phase])
  have hsettings := h.settings_eq he
  have hbest := (h.holds he.holds).best_ranked after.settings.solutionsWanted
  rw [hsettings] at hbest ⊢
  refine ⟨?_, hbest.nodup, fun t ht c hc hsoft => ?_, hbest.pairwise, fun hfew => ?_⟩
  · rw [hbest.length_eq]
    exact Nat.min_le_left _ _
  · refine Evaluator.success_rawScore.mp (hbest.success t ht) c ?_
    rw [show after.evaluator.hard = e.evaluator.hard from h.sameSetup.hard, he.evaluator]
    exact List.mem_filter.mpr ⟨hc, by rw [hsoft]; rfl⟩
  · rw [hbest.length_eq] at hfew
    rw [isOver, hsettings, hflag, Bool.or_eq_true, Bool.or_eq_true, decide_eq_true_iff,
      decide_eq_true_iff] at hover
    rcases hover with (hset | henough) | hlimit
    · exact Or.inl hset
    · rw [Nat.min_eq_left henough] at hfew
      exact absurd hfew (Nat.lt_irrefl _)
    · exact Or.inr (Nat.le_antisymm (h.generation_le he) hlimit)

end Runs

/-- **A run of a fresh engine comes to an end and delivers.** For every grammar without hints whose
names are bare, all constraints, all valid settings, every strategy whose mutations end, every
random source and whatever becomes of the flag that cancels the run: the loop ends, with one result,
within the generations it may have, and no transition takes for ever. If the run did not fail, its
result is what `GrammarFuzzing.Engine.Delivers` says. When nobody touches the flag, whether it is
set or not, this is what `GrammarFuzzing.Engine.run` gives.

The usual mutations end (`GrammarFuzzing.Strategy.ends_of`). -/
theorem completes {d : Draft} (hd : d.Coherent) {g : Grammar} (h : d.build = .ok g)
    (hbare : g.BareNames) (hhints : g.Unhinted) {constraints : List Constraint} {config : Config}
    {strategy : Strategy τ} (hstrategy : strategy.Ends g) {memory : τ}
    (he : Engine.of g constraints config strategy memory = .ok e) (source : Source)
    (flag : Nat → Bool) :
    ∃ last result after, Runs flag 0 { e with source := source } last result after ∧
      (∀ last' result' after', Runs flag 0 { e with source := source } last' result' after' →
        last' = last ∧ result' = result ∧ after' = after) ∧
      (∀ cancelled, (∀ i, flag i = cancelled) →
        (flagged { e with source := source } cancelled).run = (result, after)) ∧
      last < 5 * config.evolution.maxGenerations + 3 ∧
      (∀ err, result ≠ .error (.grammar err)) ∧
      after.generation ≤ config.evolution.maxGenerations ∧
      ∀ ts, result = .ok ts → Delivers constraints config.evolution (flag last) after ts := by
  have hends : Ends { e with source := source } :=
    ends_of_eq_ok (Draft.ends_of_build hd h hbare hhints) hstrategy he source
  have hfresh := fresh_of_eq_ok he source
  generalize { e with source := source } = e at hfresh hends
  obtain ⟨last, result, after, hruns, hlast⟩ :=
    exists_runs flag _ (i := 0) hfresh.limited (Nat.le_of_eq hfresh.transitionsLeft_eq)
  rw [Nat.zero_add] at hlast
  refine ⟨last, result, after, hruns, fun _ _ _ => hruns.unique, fun cancelled hflag => ?_, hlast,
    hruns.ne_error_grammar hends, hruns.generation_le hfresh, ?_⟩
  · exact (hruns.flagged cancelled).run_eq hflag (Nat.lt_of_lt_of_le hlast hfresh.le_stepsLeft)
  · rintro ts rfl
    exact hruns.delivers hfresh

/-- A digit of a number is at most the number, and when the run is cancelled after ten transitions
this holds of all numbers that were found. -/
theorem completes_binaryNumbers :
    let c := ConstraintSpec.toConstraint
      (.compare (.int (.symbol "digit")) .le (.int (.symbol "number")))
    ∃ g e last result after, (Document.binaryNumbers []).toGrammar = .ok g ∧
      standard g [c] {} (.stagnation (.ofBase ⟨0.2, 0.8, 5⟩)) = .ok e ∧
      Runs (fun i => decide (10 ≤ i)) 0 { e with source := .ofSeed 28 } last result after ∧
      (∀ err, result ≠ .error (.grammar err)) ∧ after.generation ≤ 500 ∧
      ∀ ts, result = .ok ts → ∀ t ∈ ts, (c.evaluate t).success = true := by
  intro c
  have h : (Document.binaryNumbers []).toGrammar = .ok _ := rfl
  have hbare : ∀ name ∈ ["digit", "number"], bareName name = name := by decide
  have hcoherent := Document.coherent_toDraft (Document.binaryNumbers [])
  have hmake : ∀ g, ∃ e, standard g [c] {} (.stagnation (.ofBase ⟨0.2, 0.8, 5⟩)) = .ok e :=
    fun g => ⟨_, rfl⟩
  obtain ⟨e, he⟩ := hmake _
  have hstrategy := Strategy.ends_of (m := ⟨{}, 0.9⟩)
    (Draft.ends_of_build hcoherent h hbare (by decide)) (by decide)
  obtain ⟨last, result, after, hruns, -, -, -, hends, hgeneration, hsolutions⟩ :=
    completes hcoherent h hbare (by decide) hstrategy he (.ofSeed 28) fun i => decide (10 ≤ i)
  refine ⟨_, e, last, result, after, h, he, hruns, hends, hgeneration, fun ts hts t ht => ?_⟩
  exact (hsolutions ts hts).success t ht c (List.mem_singleton.mpr rfl) rfl

/-- **With brackets in a name a run need not end**: for all constraints and valid settings, every
strategy, every random source and whatever becomes of the flag, it is caught in its first
transition. There is a rule for the name with brackets and it has a tree, but it is never
reached. -/
theorem runs_bracketed {g : Grammar} (h : Document.bracketed.toGrammar = .ok g)
    {constraints : List Constraint} {config : Config} {strategy : Strategy τ} {memory : τ}
    (he : Engine.of g constraints config strategy memory = .ok e) (source : Source)
    (flag : Nat → Bool) : ∃ name after,
      Runs flag 0 { e with source := source } 0 (.error (.grammar (.unending name))) after := by
  obtain ⟨hgrammar, hsize, hphase⟩ : e.grammar = g ∧ 0 < e.settings.populationSize ∧
      e.phase = .start := by
    obtain ⟨hvalid, rfl⟩ := valid_of_eq_ok he
    exact ⟨rfl, Config.populationSize_pos hvalid, rfl⟩
  subst hgrammar
  obtain ⟨-, -, hfuzz⟩ := Document.unending_bracketed h e.census.reset.settings
  have htopUp := Census.gives_topUp_unending hfuzz hsize
  generalize hnow : flagged { e with source := source } (flag 0) = now
  have hstep : now.step = (now.populate.1.map fun _ => now.populate.2.phase, now.populate.2) := by
    subst hnow
    unfold Engine.step
    rw [show (flagged { e with source := source } (flag 0)).phase = .start from hphase]
  obtain ⟨err, source', hdrawn, hp⟩ | ⟨population, census, source', hdrawn, -⟩ := now.populate_cases
  · subst hnow
    obtain ⟨name, rfl⟩ := Draw.Gives.of_run_eq htopUp hdrawn
    rw [hp] at hstep
    exact ⟨name, _, .fails hstep⟩
  · subst hnow
    exact (htopUp.of_run_eq hdrawn).elim

end Engine

end GrammarFuzzing
