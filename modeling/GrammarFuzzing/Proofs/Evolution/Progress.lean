import GrammarFuzzing.Proofs.Evolution.Completion

/-!
# Transitions that succeed

A transition can fail in three ways: an expansion in it does not end, there is no first population,
or no parent can be chosen. The first two do not happen where every symbol has a tree within 64
bits: then the first attempt at a tree gives one, and it is new to a census that knows no shape
(`GrammarFuzzing.Census.gives_topUp_ne_nil`). The third does not happen in tournaments, whatever the
fitness of those who take part (`GrammarFuzzing.SelectionStrategy.gives_drawTournament`); the other
ways to choose divide by sums that may overflow.

So with tournaments every transition succeeds (`GrammarFuzzing.Engine.Proceeds.exists_step`), and no
run fails (`GrammarFuzzing.Engine.Runs.exists_ok`).
-/

namespace GrammarFuzzing

open Attempt

variable {g : Grammar}

/-! ### The first population -/

/-- An attempt that cannot fail is not caught. -/
theorem Attempt.Gives.caught_some {α : Type} {P : α → Prop} {a : Attempt GrammarError α}
    (ha : Gives a Fuzzer.Never P) : Gives a.caught Fuzzer.Never fun x? => ∃ x, x? = some x := by
  intro source
  rw [run_caught]
  rcases hrun : a.run.run source with ⟨e | x, source'⟩
  · exact (Draw.Gives.of_run_eq ha hrun).elim
  · exact ⟨x, rfl⟩

namespace Census

/-- **There is a first population** if trees can be made. -/
theorem gives_topUp_ne_nil {c : Census} (h : c.Registers [])
    (hfuzz : Gives (Fuzzer.mk g c.settings).fuzz Fuzzer.Never fun _ => True)
    {target : Nat} (htarget : 0 < target) :
    Gives (c.topUp g [] target) (fun _ => True) fun r => r.1 ≠ [] := by
  obtain ⟨attempts, hattempts⟩ := exists_attempts htarget
  have hroom : ¬ ([] : List Tree).length ≥ target := Nat.not_le_of_lt htarget
  rw [topUp, hattempts, refillWithin, if_neg hroom]
  refine Gives.bind hfuzz.caught_some.forget fun x? hx => ?_
  obtain ⟨t, rfl⟩ := hx
  -- The first tree is taken in, and no tree is lost.
  have hfirst : (c.addUnique [] t).1 ≠ [] := by
    rcases c.addUnique_cases [] t with ⟨hknown, -⟩ | ⟨-, heq⟩
    · exact absurd ((h.known _).mp hknown) List.not_mem_nil
    · rw [heq]
      exact List.cons_ne_nil t []
  refine (gives_refillWithin_of (P := fun _ => True) (I := fun ts _ => ts ≠ [])
    (fun _ => gives_true _) (fun {ts c' u} hts _ _ => ?_) attempts hfirst).forget
  rcases c'.addUnique_cases ts u with ⟨-, heq⟩ | ⟨-, heq⟩ <;> rw [heq]
  · exact hts
  · exact List.append_ne_nil_of_left_ne_nil hts [u]

end Census

/-! ### Tournaments -/

namespace SelectionStrategy

/-- Somebody wins among some. -/
theorem exists_mem_bestOf? (fitness : List Float) {indices : List Nat} (h : indices ≠ []) :
    ∃ i ∈ indices, bestOf? fitness indices = some i := by
  obtain ⟨i, is, rfl⟩ := List.exists_cons_of_ne_nil h
  rw [bestOf?, List.foldl_cons]
  refine List.foldlRecOn (motive := fun best => ∃ b ∈ i :: is, best = some b) is _
    ⟨i, List.mem_cons_self, rfl⟩ fun best hbest j hj => ?_
  obtain ⟨b, hb, rfl⟩ := hbest
  dsimp only
  split
  · exact ⟨j, List.mem_cons_of_mem i hj, rfl⟩
  · exact ⟨b, hb, rfl⟩

/-- **A tournament has a winner**, if there is anybody. -/
theorem gives_drawTournament {fitness : List Float} (h : fitness ≠ []) (size : Nat) :
    Draw.Gives (drawTournament fitness size) fun r => ∃ i < fitness.length, r = .ok i := by
  have hempty : fitness.isEmpty = false := by simpa using h
  have hlength := List.length_pos_iff.mpr h
  rw [drawTournament]
  simp only [hempty, Bool.false_eq_true, if_false]
  refine (Draw.gives_sample (Nat.lt_of_lt_of_le Nat.one_pos (Nat.le_max_left _ _))
    (Nat.max_le.mpr ⟨hlength, Nat.min_le_right _ _⟩)).bind fun is his => ?_
  obtain ⟨i, hi, hbest⟩ := exists_mem_bestOf? fitness his.1
  rw [hbest]
  exact Draw.gives_pure ⟨i, his.2 i hi, rfl⟩

end SelectionStrategy

namespace Engine

variable {τ : Type} {e : Engine τ}

/-- Tournaments among those that were scored give parents. -/
theorem gives_pickParents_tournament (hselection : e.settings.selection = .tournament)
    (hne : e.population ≠ []) (hlength : e.evaluations.length = e.population.length) :
    ∀ n, Gives (e.pickParents (e.evaluations.map (·.fitness)) n) (fun _ => False) fun _ => True
  | 0 => gives_pure trivial
  | n + 1 => by
    have hfitness : e.evaluations.map (·.fitness) ≠ [] := by
      refine List.ne_nil_of_length_pos ?_
      rw [List.length_map, hlength]
      exact List.length_pos_iff.mpr hne
    have hselect : Gives (e.settings.selection.select (e.evaluations.map (·.fitness))
        e.settings.tournamentRound : Attempt ScheduleError Nat) (fun _ => False)
        (· < e.population.length) := by
      rw [hselection]
      refine (SelectionStrategy.gives_drawTournament hfitness _).mono fun r hr => ?_
      obtain ⟨i, hi, rfl⟩ := hr
      rwa [List.length_map, hlength] at hi
    rw [pickParents]
    refine hselect.bind fun i hi => ?_
    rw [List.getElem?_eq_getElem hi, List.getElem?_eq_getElem (hlength ▸ hi)]
    exact (gives_pickParents_tournament hselection hne hlength n).bind fun _ _ => gives_pure trivial

/-! ### Transitions -/

/-- **An engine whose transitions succeed**: trees can be made, and parents are chosen in
tournaments among those that were scored. -/
structure Proceeds (e : Engine τ) : Prop where
  ready : e.Ready
  ends : e.Ends
  productive : e.grammar.Productive
  tournament : e.settings.selection = .tournament
  sound : e.Sound
  scored : e.phase = .check ∨ e.phase = .select → e.evaluations.length = e.population.length

namespace Proceeds

theorem flagged (h : e.Proceeds) (flag : Bool) : (e.flagged flag).Proceeds := by
  refine ⟨⟨h.ready.grammar, h.ready.strategy, h.ready.size_pos⟩, h.ends.flagged flag, h.productive,
    h.tournament, ⟨h.sound.population, h.sound.offspring, h.sound.corpus, ?_⟩, h.scored⟩
  have hphase := h.sound.phase
  change PhaseSound { e with cancelled := flag }
  unfold PhaseSound at hphase ⊢
  cases hcurrent : e.phase <;> simp only [hcurrent] at hphase ⊢
  case evaluate | check | select => exact hphase.congr rfl rfl
  case crossover | mutate => exact ⟨hphase.holds, hphase.length_add⟩

theorem populated (h : e.Proceeds) (hphase : e.phase = .check ∨ e.phase = .select) :
    e.Populated := by
  have hp := h.sound.phase
  rcases hphase with hphase | hphase <;> rwa [PhaseSound, hphase] at hp

/-- There are scores where there should be. -/
theorem evaluations_ne_nil (h : e.Proceeds) (hphase : e.phase = .check ∨ e.phase = .select) :
    e.evaluations ≠ [] := by
  refine List.ne_nil_of_length_pos ?_
  rw [h.scored hphase]
  exact List.length_pos_iff.mpr (h.populated hphase).ne_nil

theorem populate (h : e.Proceeds) : e.populate.1 = .ok () := by
  have hgrammar := h.ready.grammar
  have hfuzz :
      Gives (Fuzzer.mk e.grammar e.census.reset.settings).fuzz Fuzzer.Never fun _ => True :=
    Fuzzer.gives_fuzzSymbol_ends (f := ⟨e.grammar, e.census.reset.settings⟩) hgrammar.wellFormed
      hgrammar.bareNames h.productive hgrammar.unhinted hgrammar.start_mem h.ends.most
  have hsome := Census.gives_topUp_ne_nil e.census.registers_reset hfuzz h.ready.size_pos
  unfold Engine.populate
  rcases hdrawn :
      (e.census.reset.topUp e.grammar [] e.settings.populationSize).run.run e.source with
    ⟨err | ⟨population, census⟩, source⟩
  · exact (Draw.Gives.of_run_eq (Census.gives_topUp_ends h.ends.grammar (c := e.census.reset)
      h.ends.most [] _) hdrawn).elim
  · have hne := hsome.of_run_eq hdrawn
    cases population with
    | nil => exact absurd rfl hne
    | cons t ts => rfl

theorem select (h : e.Proceeds) (hphase : e.phase = .select) : e.select.1 = .ok () := by
  have hparents := gives_pickParents_tournament h.tournament (h.populated (Or.inr hphase)).ne_nil
    (h.scored (Or.inr hphase)) (e.settings.populationSize - e.kept.1.length)
  obtain ⟨picked, source, hdrawn, ⟨err, rfl, -⟩ | ⟨offspring, -, hp⟩⟩ := e.select_cases
  · exact (Draw.Gives.of_run_eq hparents hdrawn).elim
  · rw [hp]

theorem mutate (h : e.Proceeds) : e.mutate.1 = .ok () := by
  obtain ⟨err, source, hdrawn, -⟩ | ⟨memory, population, census, source, -, hp⟩ := e.mutate_cases
  · exact (Draw.Gives.of_run_eq h.ends.gives_nextGeneration hdrawn).elim
  · rw [hp]

/-- **Every transition succeeds.** -/
theorem exists_step (h : e.Proceeds) : ∃ phase after, e.step = (.ok phase, after) := by
  unfold Engine.step
  cases hphase : e.phase with
  | start =>
    have hok := h.populate
    rcases hp : e.populate with ⟨r, after⟩
    obtain rfl : r = .ok () := by rwa [hp] at hok
    exact ⟨_, _, rfl⟩
  | select =>
    have hok := h.select hphase
    rcases hp : e.select with ⟨r, after⟩
    obtain rfl : r = .ok () := by rwa [hp] at hok
    exact ⟨_, _, rfl⟩
  | mutate =>
    have hok := h.mutate
    rcases hp : e.mutate with ⟨r, after⟩
    obtain rfl : r = .ok () := by rwa [hp] at hok
    exact ⟨_, _, rfl⟩
  | evaluate | check | crossover | done => exact ⟨_, _, rfl⟩

/-- **So does the next one.** -/
theorem next (h : e.Proceeds) : e.step.2.Proceeds := by
  have hsetup := e.sameSetup_step
  have hconfig : e.step.2.settings = e.settings := congrArg Config.evolution hsetup.config
  refine ⟨hsetup.ready h.ready, h.ends.next, hsetup.grammar ▸ h.productive, hconfig ▸ h.tournament,
    h.sound.step h.ready, fun hphase => ?_⟩
  -- Only an evaluation and a check lead to where there are scores.
  obtain ⟨phase, after, hstep⟩ := h.exists_step
  obtain ⟨rfl, hleads⟩ := leads_of_step hstep
  rw [step_snd]
  rw [hstep] at hphase
  unfold Leads at hleads
  cases hcurrent : e.phase <;> rw [hcurrent] at hleads
  case evaluate => simp [evaluate, Evaluator.evaluateAll]
  case check =>
    have hlength := h.scored (Or.inl hcurrent)
    dsimp only
    rw [check]
    split <;> exact hlength
  case start | select | crossover | mutate | done =>
    rw [hleads.1] at hphase
    exact absurd hphase (by simp)

theorem stepped (h : e.Proceeds) : ∀ n, (e.stepped n).Proceeds
  | 0 => h
  | n + 1 => (h.stepped n).next

end Proceeds

/-- **An engine that was just made** proceeds if its strategy does its part. -/
theorem proceeds_of_eq_ok {d : Draft} (hd : d.Coherent) (h : d.build = .ok g)
    (hbare : g.BareNames) (hchars : g.NoEmptyCharset) (hhints : g.Unhinted)
    {constraints : List Constraint} {config : Config} {strategy : Strategy τ}
    (hsound : strategy.Sound g) (hends : strategy.Ends g) {memory : τ}
    (htournament : config.evolution.selection = .tournament)
    (he : Engine.of g constraints config strategy memory = .ok e) (source : Source) :
    Proceeds { e with source := source } := by
  have hstart : g.start ∈ g.rules.keys :=
    Dictionary.has_iff_mem_keys.mp (Draft.builds_of_build h).has_start
  have hready := ends_of_eq_ok (Draft.ends_of_build hd h hbare hhints) hends he source
  obtain ⟨hvalidate, rfl, rfl, rfl, hfresh⟩ := of_eq_ok he
  have hphase : e.phase = .start := (fresh_of_eq_ok he source).phase
  refine ⟨⟨⟨hd.wellFormed h, hbare, hchars, hhints, hstart⟩, hsound,
    Config.populationSize_pos hvalidate⟩, hready, (Draft.builds_of_build h).isProductive,
    htournament, hfresh source, fun hno => ?_⟩
  change e.phase = .check ∨ e.phase = .select at hno
  rw [hphase] at hno
  exact absurd hno (by simp)

/-! ### Generations -/

/-- Each tree of a population is one solution at most. -/
theorem length_corpus_evaluate (e : Engine τ) : e.evaluate.corpus.entries.length ≤
    e.corpus.entries.length + e.population.length := by
  have hlength := Corpus.length_foldl_add_le e.generation
    (e.population.zip (e.evaluator.evaluateAll e.population).1) e.corpus
  rw [List.length_zip] at hlength
  exact hlength.trans (Nat.add_le_add_left (Nat.min_le_left _ _) _)

namespace Proceeds

theorem leads (h : e.Proceeds) : e.Leads e.step.2.phase e.step.2.generation := by
  obtain ⟨phase, after, hstep⟩ := h.exists_step
  obtain ⟨rfl, hleads⟩ := leads_of_step hstep
  rwa [hstep]

/-- **A first generation is made and scored.** Each of its trees is one solution at most. -/
theorem stepped_two (h : e.Proceeds) (hphase : e.phase = .start) :
    (e.stepped 2).phase = .check ∧ (e.stepped 2).generation = e.generation ∧
      (e.stepped 2).corpus.entries.length ≤
        e.corpus.entries.length + e.settings.populationSize := by
  have hmade := h.leads
  simp only [Leads, hphase] at hmade
  have hscored := (h.stepped 1).leads
  simp only [Leads, Engine.stepped, hmade.1] at hscored
  refine ⟨hscored.1, hscored.2.trans hmade.2, ?_⟩
  have hcorpus : (e.stepped 1).corpus = e.corpus := by
    rw [Engine.stepped, Engine.stepped, step_snd, hphase]
    obtain ⟨_, _, -, hp⟩ | ⟨_, _, _, -, hp | ⟨-, hp⟩⟩ := e.populate_cases <;> rw [hp]
  have hsize : (e.stepped 1).population.length ≤ e.settings.populationSize := by
    have hp := (h.stepped 1).sound.phase
    rw [PhaseSound, show (e.stepped 1).phase = .evaluate from hmade.1] at hp
    have hle : (e.stepped 1).population.length ≤ (e.stepped 1).settings.populationSize :=
      hp.length_le
    rwa [settings, (sameSetup_stepped e 1).config] at hle
  rw [Engine.stepped, step_snd, show (e.stepped 1).phase = .evaluate from hmade.1]
  have hfound := (e.stepped 1).length_corpus_evaluate
  rw [hcorpus] at hfound
  exact hfound.trans (Nat.add_le_add_left hsize _)

/-- **The next generation follows** one that is not the last. -/
theorem stepped_four (h : e.Proceeds) (hphase : e.phase = .check) (hover : e.isOver = false) :
    (e.stepped 4).phase = .evaluate ∧ (e.stepped 4).generation = e.generation + 1 := by
  have hselect := h.leads
  simp only [Leads, hphase, hover, Bool.false_eq_true, and_false, and_true, false_or] at hselect
  have hcrossover := (h.stepped 1).leads
  simp only [Leads, Engine.stepped, hselect.1] at hcrossover
  have hmutate := (h.stepped 2).leads
  simp only [Leads, Engine.stepped, hcrossover.1] at hmutate
  have hevaluate := (h.stepped 3).leads
  simp only [Leads, Engine.stepped, hmutate.1] at hevaluate
  refine ⟨hevaluate.1, hevaluate.2.trans ?_⟩
  rw [hmutate.2, hcrossover.2, hselect.2]

/-- **A fresh engine comes to a second generation** if more solutions are wanted than the first one
can have. -/
theorem stepped_six (h : e.Proceeds) {constraints : List Constraint} {config : Config}
    (hfresh : e.Fresh constraints config) (hcancelled : e.cancelled = false)
    (hwanted : config.evolution.populationSize < config.evolution.solutionsWanted)
    (hgenerations : 0 < config.evolution.maxGenerations) :
    (e.stepped 2).phase = .check ∧ (e.stepped 6).phase = .evaluate ∧
      (e.stepped 6).generation = (e.stepped 2).generation + 1 := by
  obtain ⟨hcheck, hgeneration, hfound⟩ := h.stepped_two hfresh.phase
  have hsetup := e.sameSetup_stepped 2
  have hover : (e.stepped 2).isOver = false := by
    rw [settings, hfresh.config, hfresh.corpus, List.length_nil, Nat.zero_add] at hfound
    rw [isOver, settings, hsetup.config, hsetup.cancelled, hgeneration, hfresh.generation,
      hfresh.config, hcancelled]
    simp only [Bool.false_or, Bool.or_eq_false_iff, decide_eq_false_iff_not]
    omega
  exact ⟨hcheck, (h.stepped 2).stepped_four hcheck hover⟩

end Proceeds

/-- **With tournaments a run does not fail**, whatever becomes of the flag. -/
theorem Runs.exists_ok {flag : Nat → Bool} {i last : Nat} {result : Except EngineError (List Tree)}
    {after : Engine τ} (h : Runs flag i e last result after) (he : e.Proceeds) :
    ∃ ts, result = .ok ts := by
  induction h with
  | @fails i e _ _ h =>
    obtain ⟨_, _, hstep⟩ := (he.flagged (flag i)).exists_step
    exact nomatch (Prod.mk.inj (h.symm.trans hstep)).1
  | done => exact ⟨_, rfl⟩
  | @next i _ e _ _ _ _ h _ _ ih =>
    have hnext := (he.flagged (flag i)).next
    rw [h] at hnext
    exact ih hnext

end Engine

end GrammarFuzzing
