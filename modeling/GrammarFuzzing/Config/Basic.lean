import GrammarFuzzing.Evolution.Selection
import GrammarFuzzing.Evolution.Tuning
import GrammarFuzzing.Exchange.Coverage
import GrammarFuzzing.Fuzz.Expand

/-!
# Settings of a run

A `GrammarFuzzing.Config` has three sections: how populations evolve, how messages are exchanged,
and how coverage is measured. Every setting has a default. `GrammarFuzzing.Config.validate` refuses
settings that no run could use and tells why.
-/

namespace GrammarFuzzing

/-- **How populations evolve.** -/
structure EvolutionSettings where
  populationSize : Nat := 100
  maxGenerations : Nat := 500
  /-- How many solutions end a run; none means the population size. -/
  desiredSolutions : Option Nat := none
  mutationRate : Float := 0.2
  crossoverRate : Float := 0.8
  elitismRate : Float := 0.1
  selection : SelectionStrategy := .tournament
  /-- How many individuals take part in a tournament; none means a tenth of the population, at least
  ten. -/
  tournamentSize : Option Nat := none
  maxNodes : Nat := 50
  maxRepetitions : Nat := 5
  seed : Option Nat := none
  /-- How many threads evaluate a population; it makes no difference to the result. -/
  threads : Nat := 0

namespace EvolutionSettings

/-- How many solutions end a run. -/
def solutionsWanted (s : EvolutionSettings) : Nat :=
  s.desiredSolutions.getD s.populationSize

/-- How many individuals take part in a tournament. -/
def tournamentRound (s : EvolutionSettings) : Nat :=
  s.tournamentSize.getD (Nat.max (s.populationSize / 10) 10)

/-- How many of the fittest stay in the population. -/
def eliteCount (s : EvolutionSettings) : Nat :=
  (s.elitismRate * Float.ofNat s.populationSize).toUInt64.toNat

/-- The limits of random trees. -/
def fuzz (s : EvolutionSettings) : FuzzSettings :=
  ⟨s.maxNodes, s.maxRepetitions⟩

/-- The rates that a run starts with. -/
def rates (s : EvolutionSettings) : Rates Float :=
  ⟨s.mutationRate, s.crossoverRate, s.maxRepetitions⟩

end EvolutionSettings

/-- **How messages are exchanged.** -/
structure ExchangeSettings where
  /-- The parties that this side plays; none means all of them. -/
  localParties : List String := []
  timeoutMs : Nat := 2000
  /-- How many messages an exchange may have before it is cut off. -/
  maxMessages : Nat := 32
  /-- How likely an exchange goes on that could end. -/
  continueProbability : Float := 0.5
  /-- How many random trees are tried for a message. -/
  candidatesPerPacket : Nat := 20

/-- **How coverage is measured.** -/
structure CoverageSettings where
  goal : CoverageGoal := .states
  logIntervalMs : Nat := 1000

/-- **The settings of a run.** -/
structure Config where
  evolution : EvolutionSettings := {}
  exchange : ExchangeSettings := {}
  coverage : CoverageSettings := {}

/-- **Why settings are refused.** -/
inductive ConfigError
  /-- A rate outside the unit interval. -/
  | invalidRate (name : String) (value : Float)
  /-- A size that must not be zero. -/
  | zero (name : String)
  /-- Anything else that no run could use. -/
  | invalid (reason : String)
  /-- The file could not be read. -/
  | unreadable (path : String)
  /-- The file does not write settings. -/
  | malformed (path : String)

/-- The error in words. -/
def ConfigError.message : ConfigError → String
  | .invalidRate name value => name ++ " must be within [0, 1], got " ++ showFloat value
  | .zero name => name ++ " must be greater than zero"
  | .invalid reason => "Invalid configuration: " ++ reason
  | .unreadable path => "Failed to read config file at " ++ quote path
  | .malformed path => "Failed to parse TOML from config file " ++ quote path

namespace Config

/-- The greatest number of nodes that a tree may be allowed to have. -/
def maxNodesCap : Nat := 5000

/-- Refuses a rate outside the unit interval. -/
def checkRate (name : String) (value : Float) : Except ConfigError Unit :=
  if 0.0 ≤ value && value ≤ 1.0 then .ok () else .error (.invalidRate name value)

/-- Refuses a size of zero. -/
def checkSize (name : String) (size : Nat) : Except ConfigError Unit :=
  if size = 0 then .error (.zero name) else .ok ()

/-- **What is wrong with the settings**, the first thing of several. -/
def validate (c : Config) : Except ConfigError Unit := do
  checkRate "mutation-rate" c.evolution.mutationRate
  checkRate "crossover-rate" c.evolution.crossoverRate
  checkRate "elitism-rate" c.evolution.elitismRate
  checkRate "continue-probability" c.exchange.continueProbability
  checkSize "population-size" c.evolution.populationSize
  checkSize "max-nodes" c.evolution.maxNodes
  if c.evolution.maxNodes > maxNodesCap then
    throw (.invalid ("max-nodes " ++ toString c.evolution.maxNodes ++ " exceeds the cap of " ++
      toString maxNodesCap))
  checkSize "desired-solutions" (c.evolution.desiredSolutions.getD 1)
  checkSize "tournament-size" (c.evolution.tournamentSize.getD 1)
  checkSize "timeout-ms" c.exchange.timeoutMs
  checkSize "candidates-per-packet" c.exchange.candidatesPerPacket
  checkSize "log-interval-ms" c.coverage.logIntervalMs

end Config

end GrammarFuzzing
