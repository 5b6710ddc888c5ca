import GrammarFuzzing.Evolution.Crossover
import GrammarFuzzing.Fuzz.Expand
import GrammarFuzzing.Tree.Shape

/-!
# Populations without duplicates

A population is a list of trees of which no two have the same shape. A `GrammarFuzzing.Census` knows
the shapes that were taken in, by their digests; it keeps knowing them when trees leave the
population, until it is reset.

* `GrammarFuzzing.Census.addUnique` – takes in a tree with a new shape;
* `GrammarFuzzing.Census.topUp` – tops a population up with random trees; `.refill` and `.generate`
  are what there is of the population then;
* `GrammarFuzzing.repair` – mends a tree by the suggestions of the nodes to blame.
-/

namespace GrammarFuzzing

/-- **A census**: the shapes that were taken in, and the limits of the trees it makes. -/
structure Census where
  settings : FuzzSettings
  known : Std.HashSet Bytes := {}

namespace Census

/-- How many random trees may be tried for each one that is missing. -/
def attemptsPerTree : Nat := 10

/-- The census with another number of copies in place of no upper bound, at least one. -/
def withMaxRepetitions (c : Census) (n : Nat) : Census :=
  { c with settings := { c.settings with maxRepetitions := Nat.max n 1 } }

/-- The census that knows no shape. -/
def reset (c : Census) : Census :=
  { c with known := {} }

/-- **The population with one more tree**, unless its shape is known. -/
def addUnique (c : Census) (population : List Tree) (t : Tree) : List Tree × Census :=
  let hash := t.shapeHash
  if c.known.contains hash then (population, c)
  else (population ++ [t], { c with known := c.known.insert hash })

/-- Adds random trees until the population is large enough or the attempts are used up. An attempt
may fail, but it has to end. -/
def refillWithin (g : Grammar) (target : Nat) :
    Nat → Census → List Tree → Attempt GrammarError (List Tree × Census)
  | 0, c, population => return (population, c)
  | attempts + 1, c, population => do
    if population.length ≥ target then return (population, c)
    match ← (Fuzzer.mk g c.settings).fuzz.caught with
    | some t =>
      let (population, c) := c.addUnique population t
      refillWithin g target attempts c population
    | none => refillWithin g target attempts c population

/-- **Tops a population up** with random trees of new shapes. It may stay smaller than asked for,
where a grammar has too few trees. -/
def topUp (c : Census) (g : Grammar) (population : List Tree) (target : Nat) :
    Attempt GrammarError (List Tree × Census) :=
  refillWithin g target ((target - population.length) * attemptsPerTree) c population

/-- The population topped up, for whoever only asks for what there is: the population as it was, if
the expansion of some tree does not end. -/
def refill (c : Census) (g : Grammar) (population : List Tree) (target : Nat) :
    Draw (List Tree × Census) := do
  return (← (c.topUp g population target).run).toOption.getD (population, c)

/-- A new population of random trees. -/
def generate (c : Census) (g : Grammar) (size : Nat) : Draw (List Tree × Census) :=
  c.reset.refill g [] size

end Census

/-- The suggestion of a node to blame that says what it should be equal to. -/
def FailingTree.equalitySuggestion? (f : FailingTree) : Option Suggestion :=
  f.suggestions.find? fun s => s.op = .eq

/-- The tree with the suggested value at a node to blame, if the node is still there and may be
replaced, and the value derives from its symbol. -/
def applySuggestion? (g : Grammar) (t : Tree) (f : FailingTree) : Option Tree := do
  let suggestion ← f.equalitySuggestion?
  let name ← f.symbol.name?
  let node ← t.get? f.path
  if node.symbol ≠ f.symbol || node.readOnly then none
  else
    let parsed ← (g.parse (Utf8.encode suggestion.value.describe) name .complete).toOption
    (t.replace f.path parsed).toOption

/-- The tree after one more suggestion, and whether any was applied. -/
def repairStep (g : Grammar) (acc : Tree × Bool) (f : FailingTree) : Tree × Bool :=
  match applySuggestion? g acc.1 f with
  | some t => (t, true)
  | none => acc

/-- **Mends a tree** by the suggestions of the nodes to blame, the deepest first. The second result
tells whether any was applied. -/
def repair (g : Grammar) (t : Tree) (failing : List FailingTree) : Tree × Bool :=
  let ordered := failing.mergeSort fun a b => b.path.length ≤ a.path.length
  let (t, applied) := ordered.foldl (repairStep g) (t, false)
  (if applied then t.stripNestedParties else t, applied)

end GrammarFuzzing
