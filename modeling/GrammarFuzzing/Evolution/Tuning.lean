import GrammarFuzzing.Number.Scalar

/-!
# Rates that adapt

Between generations a `GrammarFuzzing.Tuner` may change the rates of mutation and crossover and the
number of copies that stands for no upper bound. The **stagnation** tuner explores more after some
generations without improvement, and drifts back to the base rates once there is some.
-/

namespace GrammarFuzzing

/-- **What a tuner sets.** -/
structure Rates (α : Type) where
  mutation : α
  crossover : α
  maxRepetitions : Nat

/-- A tuner that explores more when nothing improves. -/
structure StagnationTuner (α : Type) where
  base : Rates α
  /-- How many generations without improvement it waits for. -/
  patience : Nat
  /-- How much a rate changes at a time. -/
  step : α
  maxMutation : α
  minCrossover : α
  maxRepetitionsCap : Nat
  /-- The generations without improvement since the last change. -/
  stagnant : Nat := 0

namespace StagnationTuner

variable {α : Type} [Scalar α]

/-- The tuner around some base rates. -/
def ofBase (base : Rates α) : StagnationTuner α where
  base := base
  patience := 5
  step := Scalar.ratio 1 20
  maxMutation := Scalar.ratio 9 10
  minCrossover := Scalar.ratio 1 10
  maxRepetitionsCap := Nat.max (Nat.min (base.maxRepetitions * 2) (Nat.pow 2 64 - 1)) 1

/-- The least difference that counts as an improvement. -/
def threshold : α :=
  Scalar.ratio 1 (Nat.pow 2 52)

/-- Rates one step back towards the base. -/
def relax (t : StagnationTuner α) (r : Rates α) : Rates α where
  mutation := Scalar.max (r.mutation - t.step) t.base.mutation
  crossover := Scalar.min (r.crossover + t.step) t.base.crossover
  maxRepetitions := Nat.max (Nat.min r.maxRepetitions t.base.maxRepetitions) 1

/-- Rates one step towards more exploration. -/
def explore (t : StagnationTuner α) (r : Rates α) : Rates α where
  mutation := Scalar.min (r.mutation + t.step) t.maxMutation
  crossover := Scalar.max (r.crossover - t.step) t.minCrossover
  maxRepetitions := Nat.min (r.maxRepetitions + 1) t.maxRepetitionsCap

/-- **The rates for the next generation**, from the best fitness of the last one and of the one
before, and the rates in force. -/
def tune (t : StagnationTuner α) (previous current : α) (r : Rates α) :
    Rates α × StagnationTuner α :=
  if Scalar.lt (previous + threshold) current then (t.relax r, { t with stagnant := 0 })
  else if t.stagnant + 1 < t.patience then (r, { t with stagnant := t.stagnant + 1 })
  else (t.explore r, { t with stagnant := 0 })

end StagnationTuner

/-- **A tuner.** -/
inductive Tuner (α : Type)
  /-- Keeps the rates as they are. -/
  | constant
  | stagnation (tuner : StagnationTuner α)

/-- The rates for the next generation. -/
def Tuner.tune {α : Type} [Scalar α] (t : Tuner α) (previous current : α) (r : Rates α) :
    Rates α × Tuner α :=
  match t with
  | .constant => (r, .constant)
  | .stagnation s => let (r, s) := s.tune previous current r; (r, .stagnation s)

end GrammarFuzzing
