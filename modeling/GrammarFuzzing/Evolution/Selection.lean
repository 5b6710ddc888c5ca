import GrammarFuzzing.Exchange.Schedule

/-!
# Choosing parents

* `GrammarFuzzing.eliteIndices` – the fittest of a population, best first;
* `GrammarFuzzing.SelectionStrategy.select` – one parent, by a tournament, in proportion to fitness,
  or in proportion to rank.
-/

namespace GrammarFuzzing

/-- All indices of a population, the fittest first. Equally fit ones keep their order. -/
def byFitness (fitness : List Float) : List Nat :=
  ((fitness.zipIdx).mergeSort fun a b => floatRank b.1 ≤ floatRank a.1).map (·.2)

/-- **The indices of the fittest**, best first. -/
def eliteIndices (fitness : List Float) (count : Nat) : List Nat :=
  (byFitness fitness).take count

/-- How a parent is chosen. -/
inductive SelectionStrategy
  /-- The best of some that are drawn alike. -/
  | tournament
  /-- In proportion to fitness. -/
  | roulette
  /-- In proportion to rank: of `n`, the best has weight `n` and the worst has weight one. -/
  | rank
  deriving DecidableEq

namespace SelectionStrategy

/-- All strategies with their names. -/
def names : List (SelectionStrategy × String) :=
  [(.tournament, "tournament"), (.roulette, "roulette"), (.rank, "rank")]

/-- The strategy with a name. -/
def ofName? (s : String) : Option SelectionStrategy :=
  (names.find? fun p => p.2 = s).map (·.1)

/-- The name of a strategy. -/
def name (strategy : SelectionStrategy) : String :=
  ((names.find? fun p => p.1 = strategy).map (·.2)).getD ""

/-- The first index with the greatest fitness. -/
def bestOf? (fitness : List Float) (indices : List Nat) : Option Nat :=
  indices.foldl (fun best i =>
    match best with
    | none => some i
    | some b => if fitness.getD i 0.0 > fitness.getD b 0.0 then some i else some b) none

/-- The best of `size` different individuals. -/
def drawTournament (fitness : List Float) (size : Nat) : Draw (Except ScheduleError Nat) := do
  if fitness.isEmpty then return .error .noCandidates
  let size := Nat.max 1 (Nat.min size fitness.length)
  match bestOf? fitness (← Draw.sample fitness.length size) with
  | some i => return .ok i
  | none => return .error .noCandidates

/-- An individual in proportion to its fitness; every one alike when there is no fitness. -/
def drawRoulette (fitness : List Float) : Draw (Except ScheduleError Nat) :=
  weightedIndex (fitness.map fun f => Scalar.max f 0.0)

/-- An individual in proportion to its rank. -/
def drawRank (fitness : List Float) : Draw (Except ScheduleError Nat) := do
  if fitness.isEmpty then return .error .noCandidates
  let order := byFitness fitness
  let n := order.length
  match ← weightedIndex ((List.range n).map fun i => Float.ofNat (n - i)) with
  | .ok i => return .ok (order.getD i 0)
  | .error e => return .error e

/-- **One parent**, by its index. -/
def select (strategy : SelectionStrategy) (fitness : List Float) (tournamentSize : Nat) :
    Draw (Except ScheduleError Nat) :=
  match strategy with
  | .tournament => drawTournament fitness tournamentSize
  | .roulette => drawRoulette fitness
  | .rank => drawRank fitness

end SelectionStrategy

end GrammarFuzzing
