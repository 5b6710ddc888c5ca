import GrammarFuzzing.Config.Basic
import GrammarFuzzing.Json.Decode
import GrammarFuzzing.Toml.Reader

/-!
# Reading settings

Settings are written in JSON or TOML, with the same names. A section that is missing, or a setting
that is missing in its section, has its default; a name that is no setting is refused.
`GrammarFuzzing.Config.load` reads the text of a settings file and checks what it says.
-/

namespace GrammarFuzzing

namespace Json

/-- The members of a record, which may be written as the array of its fields from the first one
on. Other names are refused. -/
def recordMembers? (names : List String) : Json → Option (List (String × Json))
  | .object ms => if onlyNames ms names then some ms else none
  | .array xs => if xs.length ≤ names.length then some (names.zip xs) else none
  | _ => none

/-- A value out of a few, by its name. -/
def choice? {α : Type} (ofName? : String → Option α) : Json → Option α
  | .string s => ofName? s
  | .object [(s, .null)] => ofName? s
  | _ => none

end Json

namespace EvolutionSettings

/-- The names of the settings. -/
def names : List String :=
  ["population-size", "max-generations", "desired-solutions", "mutation-rate", "crossover-rate",
    "elitism-rate", "selection", "tournament-size", "max-nodes", "max-repetitions", "seed",
    "threads"]

/-- The section that a record writes. -/
def ofJson? (x : Json) : Option EvolutionSettings := do
  let ms ← x.recordMembers? names
  let d : EvolutionSettings := {}
  some {
    populationSize := ← Json.fieldOr? ms "population-size" d.populationSize Json.nat?
    maxGenerations := ← Json.fieldOr? ms "max-generations" d.maxGenerations Json.nat?
    desiredSolutions := ← Json.optional? ms "desired-solutions" Json.nat?
    mutationRate := ← Json.fieldOr? ms "mutation-rate" d.mutationRate Json.float?
    crossoverRate := ← Json.fieldOr? ms "crossover-rate" d.crossoverRate Json.float?
    elitismRate := ← Json.fieldOr? ms "elitism-rate" d.elitismRate Json.float?
    selection := ← Json.fieldOr? ms "selection" d.selection (Json.choice? SelectionStrategy.ofName?)
    tournamentSize := ← Json.optional? ms "tournament-size" Json.nat?
    maxNodes := ← Json.fieldOr? ms "max-nodes" d.maxNodes Json.nat?
    maxRepetitions := ← Json.fieldOr? ms "max-repetitions" d.maxRepetitions Json.nat?
    seed := ← Json.optional? ms "seed" Json.nat?
    threads := ← Json.fieldOr? ms "threads" d.threads Json.nat? }

end EvolutionSettings

namespace ExchangeSettings

/-- The names of the settings. -/
def names : List String :=
  ["local-parties", "timeout-ms", "max-messages", "continue-probability", "candidates-per-packet"]

/-- The section that a record writes. -/
def ofJson? (x : Json) : Option ExchangeSettings := do
  let ms ← x.recordMembers? names
  let d : ExchangeSettings := {}
  some {
    localParties := ← Json.fieldOr? ms "local-parties" d.localParties (Json.list? Json.string?)
    timeoutMs := ← Json.fieldOr? ms "timeout-ms" d.timeoutMs Json.nat?
    maxMessages := ← Json.fieldOr? ms "max-messages" d.maxMessages Json.nat?
    continueProbability :=
      ← Json.fieldOr? ms "continue-probability" d.continueProbability Json.float?
    candidatesPerPacket :=
      ← Json.fieldOr? ms "candidates-per-packet" d.candidatesPerPacket Json.nat? }

end ExchangeSettings

namespace CoverageSettings

/-- The names of the settings. -/
def names : List String :=
  ["goal", "log-interval-ms"]

/-- The section that a record writes. -/
def ofJson? (x : Json) : Option CoverageSettings := do
  let ms ← x.recordMembers? names
  let d : CoverageSettings := {}
  some {
    goal := ← Json.fieldOr? ms "goal" d.goal (Json.choice? CoverageGoal.ofName?)
    logIntervalMs := ← Json.fieldOr? ms "log-interval-ms" d.logIntervalMs Json.nat? }

end CoverageSettings

namespace Config

/-- The names of the sections. -/
def names : List String :=
  ["evolution", "io", "coverage"]

/-- **The settings that a record writes.** -/
def ofJson? (x : Json) : Option Config := do
  let ms ← x.recordMembers? names
  some {
    evolution := ← Json.fieldOr? ms "evolution" {} EvolutionSettings.ofJson?
    exchange := ← Json.fieldOr? ms "io" {} ExchangeSettings.ofJson?
    coverage := ← Json.fieldOr? ms "coverage" {} CoverageSettings.ofJson? }

/-- **The settings that a TOML text writes.** -/
def ofToml? (text : String) : Option Config :=
  (Toml.parse? text).bind fun ms => ofJson? (.object (Toml.membersToJson ms))

/-- **The settings of a file**, from its text if it could be read. -/
def load (path : String) (text : Option String) : Except ConfigError Config :=
  match text with
  | none => .error (.unreadable path)
  | some text =>
    match ofToml? text with
    | none => .error (.malformed path)
    | some c => c.validate.map fun _ => c

end Config

end GrammarFuzzing
