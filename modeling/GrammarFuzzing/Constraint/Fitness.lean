import GrammarFuzzing.Constraint.Value
import GrammarFuzzing.Number.Scalar
import GrammarFuzzing.Tree.Path

/-!
# How well a tree meets a constraint

* `GrammarFuzzing.FailingTree` – a node to blame, with what would mend it;
* `GrammarFuzzing.ClauseFitness` – how many of the checks of a required constraint hold;
* `GrammarFuzzing.ValueFitness` – the values of a quantity to optimise.
-/

namespace GrammarFuzzing

/-- **A way to mend a node**: to make it compare to the value as the comparison demands. -/
structure Suggestion where
  op : Comparison
  value : Value

/-- **A node to blame** for a clause that does not hold, by its path in the tree. -/
structure FailingTree where
  path : Path
  symbol : Symbol
  clause : String
  suggestions : List Suggestion := []

/-- The values of a quantity to optimise, one for each binding where it has one. -/
structure ValueFitness where
  values : List Float
  failing : List FailingTree := []

namespace ValueFitness

variable {α : Type} [Scalar α]

/-- The mean of the values; none if there are no values. -/
def mean? (v : ValueFitness) : Option α :=
  Scalar.mean? (v.values.map Scalar.ofFloat)

/-- The mean of the values, zero if there are none. -/
def fitness (v : ValueFitness) : α :=
  v.mean?.getD (Scalar.ofNat 0)

end ValueFitness

/-- How many checks of a required constraint hold, and whether the constraint does. -/
structure ClauseFitness where
  solved : Nat
  total : Nat
  success : Bool
  failing : List FailingTree

namespace ClauseFitness

/-- The fitness of checks that all have to hold. -/
def ofCounts (solved total : Nat) (failing : List FailingTree) : ClauseFitness :=
  ⟨solved, total, solved = total, failing⟩

/-- The share of the checks that hold, zero if there are none. -/
def fitness {α : Type} [Scalar α] (c : ClauseFitness) : α :=
  if c.total = 0 then Scalar.ofNat 0 else Scalar.ratio c.solved c.total

end ClauseFitness

/-- **How well a tree meets a constraint.** -/
inductive Fitness
  | values (fitness : ValueFitness)
  | clauses (fitness : ClauseFitness)

namespace Fitness

/-- The fitness as a number. -/
def score {α : Type} [Scalar α] : Fitness → α
  | .values v => v.fitness
  | .clauses c => c.fitness

/-- Whether the constraint holds; a quantity to optimise always does. -/
def success : Fitness → Bool
  | .values _ => true
  | .clauses c => c.success

/-- The nodes to blame. -/
def failing : Fitness → List FailingTree
  | .values v => v.failing
  | .clauses c => c.failing

end Fitness

end GrammarFuzzing
