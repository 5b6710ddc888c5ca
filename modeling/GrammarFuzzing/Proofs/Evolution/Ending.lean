import GrammarFuzzing.Proofs.Evolution.Filling
import GrammarFuzzing.Proofs.Evolution.Transition
import GrammarFuzzing.Proofs.Evolution.Variation
import GrammarFuzzing.Proofs.Fuzz.Ending

/-!
# Transitions come to an end

An engine fuzzes trees in two of its transitions: it fills populations, and it mutates offspring. If
an expansion there does not end, neither does the transition, and this is what an engine fails with
then (`GrammarFuzzing.EngineError.grammar`). Any other failure of a fuzzer is caught, so that the
error stands for nothing else.

Where all expansions end and the strategy does its part (`GrammarFuzzing.Engine.Ends`), no
transition fails in this way (`GrammarFuzzing.Engine.Ends.step`). What has to be kept for that is
one number: the budget of the census, which must be one of 64 bits.
-/

namespace GrammarFuzzing

open Attempt Fuzzer

variable {g : Grammar}

/-! ### Strategies -/

/-- **A strategy whose mutations come to an end**, whatever they come to. -/
def Strategy.Ends {τ : Type} (strategy : Strategy τ) (g : Grammar) : Prop :=
  ∀ memory t failing, Draw.Gives (strategy.mutate memory g t failing) fun r =>
    ∀ name, r.1 ≠ .error (.unending name)

/-- A tree that cannot be put in a place is an invalid tree. -/
theorem Tree.not_unending_of_replace {t new : Tree} {path : Path} {e : GrammarError}
    (h : t.replace path new = .error e) : ¬ Unending e := by
  rintro ⟨name, rfl⟩
  rw [replace] at h
  split at h
  · exact absurd h (by simp)
  · split at h
    · exact absurd h (by simp)
    · split at h <;> exact absurd h (by simp)

/-- **Expansions of a grammar end**, within every budget of 64 bits. -/
def Grammar.Ends (g : Grammar) : Prop :=
  ∀ (settings : FuzzSettings) (name : String) (budget : Nat), budget ≤ unreachable →
    Gives ((Fuzzer.mk g settings).fuzzSymbol name budget) (fun e => ¬ Unending e) fun _ => True

theorem Draft.ends_of_build {d : Draft} (hd : d.Coherent) (h : d.build = .ok g)
    (hbare : g.BareNames) (hhints : g.Unhinted) : g.Ends := by
  intro settings name budget hbudget
  exact gives_fuzzSymbol_settles (f := ⟨g, settings⟩) (hd.wellFormed h) hbare
    (Draft.builds_of_build h).isProductive hhints name hbudget

/-- **A mutation ends**, of whatever tree: a single node is expanded. -/
theorem SubtreeMutator.gives_mutate_ends (hg : g.Ends) {m : SubtreeMutator}
    (hmost : m.settings.maxNodes ≤ unreachable) (t : Tree) (failing : List FailingTree) :
    Gives (m.mutate g t failing) (fun e => ¬ Unending e) fun _ => True := by
  refine m.gives_mutate_of_regenerate failing fun path _ => ?_
  rw [regenerate]
  split
  · exact gives_pure trivial
  · split
    · exact gives_pure trivial
    · rename_i old _ _ name _
      have hbudget : Nat.max (m.settings.maxNodes - (t.size - old.size)) 1 ≤ unreachable :=
        Nat.max_le.mpr ⟨(Nat.sub_le _ _).trans hmost, by decide⟩
      refine (hg m.settings name _ hbudget).bind fun fresh _ => ?_
      split
      · exact gives_pure trivial
      · exact gives_throw (Tree.not_unending_of_replace ‹_›)

/-- **The usual strategy** comes to an end with every mutation. -/
theorem Strategy.ends_of (hg : g.Ends) {m : SubtreeMutator}
    (hmost : m.settings.maxNodes ≤ unreachable) : (Strategy.of m).Ends g := by
  intro memory t failing
  refine Draw.Gives.bind (m.gives_mutate_ends hg hmost t failing) fun result hresult => ?_
  refine Draw.gives_pure fun name hname => ?_
  subst hname
  exact hresult ⟨name, rfl⟩

/-! ### Budgets of a census -/

theorem Census.settings_addUnique (c : Census) (population : List Tree) (t : Tree) :
    (c.addUnique population t).2.settings = c.settings := by
  unfold addUnique
  dsimp only
  split <;> rfl

theorem Census.settings_foldl_addUnique : ∀ (ts : List Tree) (population : List Tree) (c : Census),
    (ts.foldl (fun (p, c) t => Census.addUnique c p t) (population, c)).2.settings = c.settings
  | [], _, _ => rfl
  | t :: ts, population, c =>
    (settings_foldl_addUnique ts _ _).trans (c.settings_addUnique population t)

/-- **Topping up ends** if expansions do. -/
theorem Census.gives_topUp_ends (hg : g.Ends) {c : Census}
    (hmost : c.settings.maxNodes ≤ unreachable) (population : List Tree) (target : Nat) :
    Gives (c.topUp g population target) Never fun r => r.2.settings.maxNodes ≤ unreachable := by
  refine (gives_refillWithin_of (P := fun _ => True)
    (I := fun _ c' => c'.settings.maxNodes ≤ unreachable)
    (fun hc => hg _ _ _ hc) (fun {ts c' t} hc _ _ => ?_) _ hmost).allow fun e he => he.1 he.2
  rw [settings_addUnique]
  exact hc

/-- **An empty population is never topped up** if no expansion of the start symbol ends. -/
theorem Census.gives_topUp_unending {c : Census}
    (hfuzz : Gives (Fuzzer.mk g c.settings).fuzz Unending fun _ => False) {target : Nat}
    (htarget : 0 < target) : Gives (c.topUp g [] target) Unending fun _ => False := by
  obtain ⟨attempts, hattempts⟩ := Census.exists_attempts htarget
  have hroom : ¬ ([] : List Tree).length ≥ target := Nat.not_le_of_lt htarget
  rw [topUp, hattempts, refillWithin, if_neg hroom]
  exact hfuzz.caught_unending.bind fun _ hno => hno.elim

namespace Engine

variable {τ : Type} {e : Engine τ}

/-! ### Transitions -/

/-- **An engine whose transitions come to an end.** -/
structure Ends (e : Engine τ) : Prop where
  grammar : e.grammar.Ends
  strategy : e.strategy.Ends e.grammar
  most : e.census.settings.maxNodes ≤ unreachable

theorem Ends.flagged (h : e.Ends) (flag : Bool) : Ends { e with cancelled := flag } :=
  ⟨h.grammar, h.strategy, h.most⟩

/-- **The next generation is completed.** -/
theorem Ends.gives_nextGeneration (h : e.Ends) :
    Gives e.nextGeneration Never fun r => r.2.2.settings.maxNodes ≤ unreachable := by
  rw [nextGeneration]
  refine Gives.bind (gives_addOffspring_of
    (I := fun _ _ _ c => c.settings.maxNodes ≤ unreachable) ?_ ?_ e.offspring h.most) ?_
  · intro o rest memory population c hc
    rwa [Census.settings_addUnique]
  · intro o rest memory population c hc
    refine (h.strategy memory o.tree o.failing).mono fun r hr => ⟨fun name hname => ?_, ?_⟩
    · exact hr name hname
    · intro t _
      rwa [Census.settings_addUnique]
  · rintro ⟨memory, population, c⟩ hc
    exact (Census.gives_topUp_ends h.grammar hc population _).bind fun filled hfilled =>
      gives_pure hfilled

/-- **A transition comes to an end**, and so will the next one. -/
theorem Ends.step (h : e.Ends) :
    (∀ err, e.step.1 ≠ .error (.grammar err)) ∧
      e.step.2.census.settings.maxNodes ≤ unreachable := by
  have hpopulate := Census.gives_topUp_ends h.grammar (c := e.census.reset) h.most []
    e.settings.populationSize
  unfold Engine.step
  cases hphase : e.phase with
  | start =>
    dsimp only
    obtain ⟨err, source, hdrawn, -⟩ | ⟨population, census, source, hdrawn, hp | ⟨-, hp⟩⟩ :=
      e.populate_cases
    · exact (Draw.Gives.of_run_eq hpopulate hdrawn).elim
    · rw [hp]
      exact ⟨by simp [Except.map], hpopulate.of_run_eq hdrawn⟩
    · rw [hp]
      exact ⟨by simp [Except.map], hpopulate.of_run_eq hdrawn⟩
  | check =>
    dsimp only
    rw [check]
    split <;> exact ⟨by simp [Except.map], h.most⟩
  | select =>
    have hkept : e.kept.2.settings.maxNodes ≤ unreachable := by
      rw [kept, Census.settings_foldl_addUnique]
      exact h.most
    dsimp only
    obtain ⟨picked, source, -, ⟨err, -, hp⟩ | ⟨offspring, -, hp⟩⟩ := e.select_cases <;> rw [hp]
    · exact ⟨by simp [Except.map], hkept⟩
    · exact ⟨by simp [Except.map], hkept⟩
  | mutate =>
    dsimp only
    obtain ⟨err, source, hdrawn, -⟩ | ⟨memory, population, census, source, hdrawn, hp⟩ :=
      e.mutate_cases
    · exact (Draw.Gives.of_run_eq h.gives_nextGeneration hdrawn).elim
    · rw [hp]
      exact ⟨by simp [Except.map], h.gives_nextGeneration.of_run_eq hdrawn⟩
  | evaluate | crossover | done => exact ⟨by simp [Except.map], h.most⟩

/-- What comes to an end still does after a transition. -/
theorem Ends.next (h : e.Ends) : e.step.2.Ends := by
  have hsetup := e.sameSetup_step
  refine ⟨hsetup.grammar ▸ h.grammar, ?_, h.step.2⟩
  rw [hsetup.strategy, hsetup.grammar]
  exact h.strategy

end Engine

end GrammarFuzzing
