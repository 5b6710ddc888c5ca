import GrammarFuzzing.Dictionary
import GrammarFuzzing.Grammar.Node

/-!
# How many nodes an expansion needs

The **distance** of a node of a grammar is the least number of tree nodes that it expands to. Of the
rules it is the solution of a system of equations, one for each rule, and it is found by iterating
the equations from the greatest distance downwards: a least expansion never passes through one rule
twice on the way down, so as many rounds as there are rules are enough.

Distances are counted up to `GrammarFuzzing.unreachable`, where they stay: a node at that distance
has no finite expansion, or none that could be made.
-/

namespace GrammarFuzzing

/-- The greatest distance: that of a node which derives no finite tree. -/
def unreachable : Nat := Nat.pow 2 64 - 1

/-- Distances add up to at most `unreachable`. -/
def satAdd (a b : Nat) : Nat :=
  min (a + b) unreachable

/-- So many times a distance, at most `unreachable`. -/
def satMul (a b : Nat) : Nat :=
  min (a * b) unreachable

namespace Node

mutual

/-- **The distance of a node**, when the distances of the bodies of the rules are given. -/
def distanceWith (rule : String → Nat) : Node → Nat
  | .terminal _ _ => 1
  | .charset _ _ => 1
  | .reference _ name _ _ => satAdd (rule name) 1
  | .sequence _ parts => totalDistance rule parts
  | .choice _ options => leastDistance rule options
  | .repetition _ body min _ _ => if min = 0 then 0 else satMul (body.distanceWith rule) min

/-- The distance of several nodes together. -/
def totalDistance (rule : String → Nat) : List Node → Nat
  | [] => 0
  | n :: rest => satAdd (n.distanceWith rule) (totalDistance rule rest)

/-- The distance of the nearest of several nodes. -/
def leastDistance (rule : String → Nat) : List Node → Nat
  | [] => unreachable
  | n :: rest => min (n.distanceWith rule) (leastDistance rule rest)

end

end Node

/-- The distance of the body of a rule in a table; a name without a rule is unreachable. -/
def distanceIn (table : Dictionary String Nat) (name : String) : Nat :=
  (table.find? name).getD unreachable

/-- One round of the equations. -/
def distanceRound (rules : Dictionary String Node) (table : Dictionary String Nat) :
    Dictionary String Nat :=
  rules.map fun (name, body) => (name, body.distanceWith (distanceIn table))

/-- **The distances of the bodies of all rules.** -/
def ruleDistances (rules : Dictionary String Node) : Dictionary String Nat :=
  Nat.repeat (distanceRound rules) (rules.length + 1)
    (rules.map fun (name, _) => (name, unreachable))

end GrammarFuzzing
