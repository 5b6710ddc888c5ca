import GrammarFuzzing.Config.Basic
import GrammarFuzzing.Evolution.Corpus
import GrammarFuzzing.Evolution.Crossover
import GrammarFuzzing.Evolution.Mutation
import GrammarFuzzing.Evolution.Population
import GrammarFuzzing.Exchange.Message

/-!
# The evolution engine

A `GrammarFuzzing.Engine` evolves a population of trees towards the constraints of its evaluator. It
moves through **phases**, one transition at a time (`GrammarFuzzing.Engine.step`):

```
start → evaluate → check → select → crossover → mutate
           ↑         ↓                             |
           |        done                           |
           +---------------------------------------+
```

* **evaluate** scores the population and collects solutions;
* **check** ends the run – cancelled, enough solutions, or enough generations – or lets the tuner
  set the rates for the next generation;
* **select** keeps the elites and picks parents, repaired by their suggestions, as offspring;
* **crossover** swaps subtrees between neighbours among the offspring;
* **mutate** mutates offspring, adds those with new shapes to the elites, and fills the population
  up with random trees.

How rates are tuned and how trees are mutated is up to a `GrammarFuzzing.Strategy`, which may have a
memory of its own.
-/

namespace GrammarFuzzing

/-- **The phases of a run.** -/
inductive Phase
  | start
  | evaluate
  | check
  | select
  | crossover
  | mutate
  | done
  deriving DecidableEq

/-- **Why a run failed.** -/
inductive EngineError
  | config (error : ConfigError)
  /-- An expansion does not end; any other failure to make a tree is caught. -/
  | grammar (error : GrammarError)
  | schedule (error : ScheduleError)
  | exchange (error : ExchangeError)
  /-- There was no tree to start with. -/
  | noPopulation

/-- The error in words. -/
def EngineError.message : EngineError → String
  | .config e => e.message
  | .grammar e => e.message
  | .schedule e => e.message
  | .exchange e => e.message
  | .noPopulation => "Could not generate an initial population"

/-- **What is remembered of a generation.** -/
structure GenerationStats where
  generation : Nat
  bestFitness : Float
  meanFitness : Float
  /-- The number of solutions found so far. -/
  solutions : Nat
  populationSize : Nat
  mutationRate : Float
  crossoverRate : Float

/-- A tree on its way into the next generation, and the nodes its parent was to blame for. -/
structure Offspring where
  tree : Tree
  failing : List FailingTree

/-- **How rates are tuned and trees are mutated**, with a memory `τ`. -/
structure Strategy (τ : Type) where
  /-- The rates for the next generation, from the best fitness of the generation before and of this
  one, the population and the rates in force. -/
  tune : τ → Float → Float → List Tree → Rates Float → Rates Float × τ
  /-- A mutated copy of a tree, from the nodes to blame in it. -/
  mutate : τ → Grammar → Tree → List FailingTree → Draw (Except GrammarError Tree × τ)

/-- The strategy of a tuner, which is its own memory, and a mutator. -/
def Strategy.of (m : SubtreeMutator) : Strategy (Tuner Float) where
  tune t previous current _ rates := t.tune previous current rates
  mutate t g tree failing := do return (← (m.mutate g tree failing).run, t)

/-- **An engine** and the state of its run. -/
structure Engine (τ : Type) where
  grammar : Grammar
  evaluator : Evaluator Float
  config : Config
  strategy : Strategy τ
  memory : τ
  source : Source
  census : Census
  corpus : Corpus := {}
  population : List Tree := []
  /-- The scores of the population, if it was evaluated. -/
  evaluations : List (Evaluation Float) := []
  offspring : List Offspring := []
  phase : Phase := .start
  generation : Nat := 0
  rates : Rates Float
  /-- The best fitness of the generation before. -/
  best : Float := 0.0
  cancelled : Bool := false
  stats : List GenerationStats := []

namespace Engine

variable {τ : Type}

/-- **An engine for some constraints**, whose settings must be valid. Without a seed, the seed is
zero. -/
def of (g : Grammar) (constraints : List Constraint) (config : Config) (strategy : Strategy τ)
    (memory : τ) : Except EngineError (Engine τ) :=
  match config.validate with
  | .error e => .error (.config e)
  | .ok () => .ok {
      grammar := g
      evaluator := .ofConstraints constraints
      config := config
      strategy := strategy
      memory := memory
      source := .ofSeed (UInt64.ofNat (config.evolution.seed.getD 0))
      census := { settings := config.evolution.fuzz }
      rates := config.evolution.rates }

/-- **An engine with the usual strategy**: mutation of subtrees, and a tuner. -/
def standard (g : Grammar) (constraints : List Constraint) (config : Config) (tuner : Tuner Float) :
    Except EngineError (Engine (Tuner Float)) :=
  of g constraints config (.of ⟨config.evolution.fuzz, 0.9⟩) tuner

/-- How populations evolve. -/
def settings (e : Engine τ) : EvolutionSettings :=
  e.config.evolution

/-- The engine that has forgotten its run. The next transition makes a new population. What the
evaluator has seen and what the strategy remembers stays. -/
def restart (e : Engine τ) : Engine τ :=
  { e with
    phase := .start
    generation := 0
    population := []
    evaluations := []
    offspring := []
    corpus := {}
    stats := []
    rates := e.settings.rates
    best := 0.0
    census := { settings := e.settings.fuzz } }

/-- Makes the first population. -/
def populate (e : Engine τ) : Except EngineError Unit × Engine τ :=
  match (e.census.reset.topUp e.grammar [] e.settings.populationSize).run.run e.source with
  | (.error err, source) => (.error (.grammar err), { e with source := source })
  | (.ok (population, census), source) =>
    let e := { e with population := population, census := census, source := source }
    if population.isEmpty then (.error .noPopulation, e)
    else (.ok (), { e with phase := .evaluate })

/-- The greatest fitness, at least zero. -/
def bestOf (fitness : List Float) : Float :=
  fitness.foldl Scalar.max 0.0

/-- Scores the population and collects solutions. -/
def evaluate (e : Engine τ) : Engine τ :=
  let (evaluations, evaluator) := e.evaluator.evaluateAll e.population
  let corpus := (e.population.zip evaluations).foldl
    (fun (c : Corpus) (t, s) => c.add t s e.generation) e.corpus
  let fitness := evaluations.map (·.fitness)
  let stats : GenerationStats := {
    generation := e.generation
    bestFitness := bestOf fitness
    meanFitness := (Scalar.mean? fitness).getD 0.0
    solutions := corpus.entries.length
    populationSize := e.population.length
    mutationRate := e.rates.mutation
    crossoverRate := e.rates.crossover }
  { e with
    evaluator := evaluator
    evaluations := evaluations
    corpus := corpus
    stats := e.stats ++ [stats]
    phase := .check }

/-- Whether the run ends here. -/
def isOver (e : Engine τ) : Bool :=
  e.cancelled || e.corpus.entries.length ≥ e.settings.solutionsWanted ||
    e.generation ≥ e.settings.maxGenerations

/-- Ends the run or sets the rates for the next generation. -/
def check (e : Engine τ) : Engine τ :=
  if e.isOver then { e with phase := .done }
  else
    let current := ((e.stats.getLast?).map (·.bestFitness)).getD 0.0
    let (rates, memory) := e.strategy.tune e.memory e.best current e.population e.rates
    { e with
      rates := rates
      memory := memory
      best := current
      census := e.census.withMaxRepetitions rates.maxRepetitions
      phase := .select }

/-- The offspring of an individual: the individual itself, repaired if that is possible. -/
def offspringOf (g : Grammar) (t : Tree) (s : Evaluation Float) : Offspring :=
  let (tree, repaired) := repair g t s.failing
  ⟨tree, if repaired then [] else s.failing⟩

/-- Picks so many parents. -/
def pickParents (e : Engine τ) (fitness : List Float) :
    Nat → Attempt ScheduleError (List Offspring)
  | 0 => return []
  | n + 1 => do
    let i ← (e.settings.selection.select fitness e.settings.tournamentRound : Draw _)
    match e.population[i]?, e.evaluations[i]? with
    | some t, some s => return offspringOf e.grammar t s :: (← pickParents e fitness n)
    | _, _ => throw .noCandidates

/-- Keeps the elites and picks parents for the rest of the next generation. -/
def select (e : Engine τ) : Except EngineError Unit × Engine τ :=
  let fitness := e.evaluations.map (·.fitness)
  let target := e.settings.populationSize
  let elites := (eliteIndices fitness (Nat.min e.settings.eliteCount target)).filterMap fun i =>
    e.population[i]?
  let (kept, census) := elites.foldl (fun (p, c) t => c.addUnique p t) ([], e.census.reset)
  let (r, source) := (e.pickParents fitness (target - kept.length)).run.run e.source
  let e := { e with census := census, source := source, offspring := [] }
  match r with
  | .error err => (.error (.schedule err), e)
  | .ok offspring =>
    (.ok (), { e with population := kept, offspring := offspring, phase := .crossover })

/-- The offspring after crossover of each pair of neighbours, with a probability. -/
def crossPairs (rate : Float) : List Offspring → Draw (List Offspring)
  | a :: b :: rest => do
    let (a, b) ←
      if ← Draw.chance rate then
        match ← GrammarFuzzing.crossover a.tree b.tree a.failing with
        | some (s, t) => pure ({ a with tree := s }, { b with tree := t })
        | none => pure (a, b)
      else pure (a, b)
    return a :: b :: (← crossPairs rate rest)
  | rest => return rest

/-- Swaps subtrees between neighbours among the offspring. -/
def crossover (e : Engine τ) : Engine τ :=
  let (offspring, source) := (crossPairs e.rates.crossover e.offspring).run e.source
  { e with offspring := offspring, source := source, phase := .mutate }

/-- Mutates offspring with a probability and adds them to a population. An offspring that cannot be
mutated stays as it is. -/
def addOffspring (strategy : Strategy τ) (g : Grammar) (rate : Float) :
    List Offspring → τ → List Tree → Census → Attempt GrammarError (τ × List Tree × Census)
  | [], memory, population, census => return (memory, population, census)
  | o :: rest, memory, population, census => do
    let (tree, memory) ←
      if ← Attempt.lift (Draw.chance rate) then
        let (r, memory) ← Attempt.lift (strategy.mutate memory g o.tree o.failing)
        pure ((← Attempt.settle r).getD o.tree, memory)
      else pure (o.tree, memory)
    let (population, census) := census.addUnique population tree
    addOffspring strategy g rate rest memory population census

/-- Completes the next generation. -/
def nextGeneration (e : Engine τ) : Attempt GrammarError (τ × List Tree × Census) := do
  let (memory, population, census) ←
    addOffspring e.strategy e.grammar e.rates.mutation e.offspring e.memory e.population e.census
  return (memory, ← census.topUp e.grammar population e.settings.populationSize)

/-- Mutates the offspring and completes the next generation. -/
def mutate (e : Engine τ) : Except EngineError Unit × Engine τ :=
  match e.nextGeneration.run.run e.source with
  | (.error err, source) => (.error (.grammar err), { e with source := source })
  | (.ok (memory, population, census), source) =>
    (.ok (), { e with
      memory := memory
      population := population
      census := census
      source := source
      offspring := []
      generation := e.generation + 1
      phase := .evaluate })

/-- **One transition.** One that fails leaves the engine in its phase. -/
def step (e : Engine τ) : Except EngineError Phase × Engine τ :=
  let (r, e) := match e.phase with
    | .start => e.populate
    | .evaluate => (.ok (), e.evaluate)
    | .check => (.ok (), e.check)
    | .select => e.select
    | .crossover => (.ok (), e.crossover)
    | .mutate => e.mutate
    | .done => (.ok (), e)
  (r.map fun _ => e.phase, e)

end Engine

end GrammarFuzzing
