import GrammarFuzzing.Evolution.Engine
import GrammarFuzzing.Exchange.Round

/-!
# Whole runs

* `GrammarFuzzing.Engine.run` – steps a run until it is done, and ranks its solutions;
* `GrammarFuzzing.Engine.evolve` – a run of its own, with settings and a seed given for it;
* `GrammarFuzzing.Engine.solutions` – the first solutions of a new run, as soon as they are found;
* `GrammarFuzzing.Engine.exchange` – rounds of an exchange instead of an evolution.

A generation has five transitions and there are only so many generations, which bounds a run.
-/

namespace GrammarFuzzing.Engine

variable {τ : Type}

/-- How many transitions a run can still have. -/
def stepsLeft (e : Engine τ) : Nat :=
  5 * (e.settings.maxGenerations - e.generation) + 6

/-- Transitions until the run is done. -/
def runSteps : Nat → Engine τ → Except EngineError Unit × Engine τ
  | 0, e => (.ok (), e)
  | n + 1, e =>
    match e.step with
    | (.error err, e) => (.error err, e)
    | (.ok .done, e) => (.ok (), e)
    | (.ok _, e) => runSteps n e

/-- **Steps the run until it is done.** The result is its solutions, best first. -/
def run (e : Engine τ) : Except EngineError (List Tree) × Engine τ :=
  match runSteps e.stepsLeft e with
  | (.error err, e) => (.error err, e)
  | (.ok (), e) => (.ok (e.corpus.ranked e.evaluator (some e.settings.solutionsWanted)), e)

/-- **What a run of its own is given.** -/
structure RunRequest where
  maxGenerations : Nat
  desiredSolutions : Nat
  populationSize : Nat
  mutationRate : Float
  crossoverRate : Float
  seed : Nat

/-- The settings of a run of its own. -/
def RunRequest.apply (r : RunRequest) (c : Config) : Config :=
  { c with
    evolution := { c.evolution with
      maxGenerations := r.maxGenerations
      desiredSolutions := some r.desiredSolutions
      populationSize := r.populationSize
      mutationRate := r.mutationRate
      crossoverRate := r.crossoverRate
      seed := some r.seed } }

/-- **A run of its own** from its seed on. Its settings hold for this run only. -/
def evolve (e : Engine τ) (r : RunRequest) : Except EngineError (List Tree) × Engine τ :=
  let config := r.apply e.config
  match config.validate with
  | .error err => (.error (.config err), e)
  | .ok () =>
    let fresh := { e with config := config, source := .ofSeed (UInt64.ofNat r.seed) }
    let (result, after) := fresh.restart.run
    (result, { after with config := e.config })

/-- Transitions until there are more than `known` solutions, or the run is done. -/
def stepsToSolution (known : Nat) : Nat → Engine τ → Except EngineError Unit × Engine τ
  | 0, e => (.ok (), e)
  | n + 1, e =>
    if e.corpus.entries.length > known || e.phase = .done then (.ok (), e)
    else
      match e.step with
      | (.error err, e) => (.error err, { e with phase := .done })
      | (.ok _, e) => stepsToSolution known n e

/-- The first solutions of a run that are not known yet, at most so many. -/
def solutionsFrom : Nat → Nat → Engine τ → Except EngineError (List Tree) × Engine τ
  | 0, _, e => (.ok [], e)
  | n + 1, known, e =>
    match stepsToSolution known (e.stepsLeft + 1) e with
    | (.error err, e) => (.error err, e)
    | (.ok (), e) =>
      match e.corpus.entries[known]? with
      | none => (.ok [], e)
      | some s =>
        let (rest, e) := solutionsFrom n (known + 1) e
        (rest.map fun ts => s.tree :: ts, e)

/-- **The first solutions of a new run**, at most so many, in the order in which they are found. The
run goes no further than it has to. -/
def solutions (e : Engine τ) (n : Nat) : Except EngineError (List Tree) × Engine τ :=
  solutionsFrom n 0 e.restart

/-- Rounds of an exchange, which share the evaluator and the random source of the engine. -/
def exchangeRounds {σ : Type} (t : Transport σ) :
    Nat → ExchangeFuzzer → σ → Engine τ → List (Except ExchangeError Tree) × σ × Engine τ
  | 0, _, s, e => ([], s, e)
  | n + 1, f, s, e =>
    if e.cancelled then ([], s, e)
    else
      let (((r, f), s, evaluator), source) := ((f.runRound t 0).run (s, e.evaluator)).run e.source
      let e := { e with evaluator := evaluator, source := source }
      let (rest, s, e) := exchangeRounds t n f s e
      (r :: rest, s, e)

/-- **The first rounds of an exchange.** A round that fails does not end the exchange. -/
def exchange {σ : Type} (e : Engine τ) (t : Transport σ) (s : σ) (n : Nat) :
    List (Except ExchangeError Tree) × σ × Engine τ :=
  match ExchangeFuzzer.of e.grammar e.config.exchange e.config.coverage e.settings.fuzz with
  | .error err => ((List.replicate n (Except.error err)).take 1, s, e)
  | .ok f => exchangeRounds t n f s e

end GrammarFuzzing.Engine
