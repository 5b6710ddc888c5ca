import Std.Data.HashSet
import GrammarFuzzing.Constraint.Fitness
import GrammarFuzzing.Constraint.Operand
import GrammarFuzzing.Grammar.Distance
import GrammarFuzzing.Number.Sum

/-!
# Constraints

A `GrammarFuzzing.Constraint` asks something of a tree. A **comparison** is checked for every
combination of occurrences of the symbols it mentions, a **predicate** for every occurrence of its
symbol or for the tree; `allOf` and `anyOf` combine constraints, and `optimize` names a quantity
that should become large or small without requiring anything.

`GrammarFuzzing.Constraint.evaluate` counts the checks that hold and blames nodes for the others. At
most `GrammarFuzzing.maxBindings` combinations are checked for one comparison; those beyond count as
checks that do not hold.
-/

namespace GrammarFuzzing

/-- Whether a quantity should become large or small. -/
inductive Goodness
  | maximize
  | minimize
  deriving DecidableEq

/-- **A demand on a tree.** -/
inductive Constraint
  | compare (left : Operand) (op : Comparison) (right : Operand)
  | predicate (name : String) (symbol : Option String) (holds : Tree → Bool)
  | allOf (members : List Constraint)
  | anyOf (members : List Constraint)
  | optimize (goal : Goodness) (operand : Operand)

/-- How many combinations of occurrences are checked for one comparison. -/
def maxBindings : Nat := 10000

/-- Combinations of occurrences to check, and how many more there are. -/
structure Bindings where
  checked : List Binding
  skipped : Nat

namespace Bindings

/-- Each combination with each occurrence of one more symbol, as far as there is room. -/
def extend (name : String) (occurrences : List Path) : Nat → List Binding → List Binding
  | _, [] => []
  | room, b :: rest =>
    let here := (occurrences.take room).map fun p => b.put name p
    here ++ if here.length < room then extend name occurrences (room - here.length) rest else []

/-- Adds the occurrences of one more symbol. The number counts all combinations so far. -/
def addSymbol (t : Tree) (acc : List Binding × Nat) (name : String) : List Binding × Nat :=
  let occurrences := t.findAll (.named name)
  (extend name occurrences maxBindings acc.1, satMul acc.2 occurrences.length)

/-- **All combinations of occurrences** of some symbols. Without symbols there is one, and with a
symbol that does not occur there is none. -/
def of (t : Tree) (names : List String) : Bindings :=
  let (checked, possible) := names.foldl (addSymbol t) ([[]], 1)
  ⟨checked, possible - checked.length⟩

end Bindings

namespace Constraint

/-- Whether two operands compare as demanded under a binding. -/
def comparisonHolds (t : Tree) (left : Operand) (op : Comparison) (right : Operand) (b : Binding) :
    Bool :=
  match left.eval? t b, right.eval? t b with
  | some x, some y =>
    match x.compare? y with
    | some o => op.holds o
    | none => false
  | _, _ => false

/-- Whether a literal on the other side of an equality says what the occurrences of a symbol should
be. -/
def mend? (name : String) : Operand → Operand → Option Suggestion
  | .text (.symbol n), .literal value => if n = name then some ⟨.eq, value⟩ else none
  | .int (.symbol n), .literal value => if n = name then some ⟨.eq, value⟩ else none
  | .float (.symbol n), .literal value => if n = name then some ⟨.eq, value⟩ else none
  | _, _ => none

/-- What would mend an occurrence of a symbol in a comparison. -/
def suggestions (left : Operand) (op : Comparison) (right : Operand) (name : String) :
    List Suggestion :=
  if op = .eq then ((mend? name left right).or (mend? name right left)).toList else []

/-- The nodes to blame for a comparison without bound symbols: what it counts, or the root. -/
def culprits (t : Tree) (left right : Operand) : List (Path × Symbol) :=
  let counted := [left, right].flatMap fun
    | .count _ symbol => (t.findAll (.named symbol)).map fun p => (p, Symbol.named symbol)
    | _ => []
  if counted.isEmpty then [([], t.symbol)] else counted

/-- The nodes to blame for a comparison that does not hold under a binding. -/
def blamed (t : Tree) (left : Operand) (op : Comparison) (right : Operand) (clause : String)
    (b : Binding) : List FailingTree :=
  if b.isEmpty then
    (culprits t left right).map fun (p, s) => ⟨p, s, clause, []⟩
  else
    b.map fun (name, p) => ⟨p, .named name, clause, suggestions left op right name⟩

/-- Failing trees in order, only the first for each path. -/
def distinctPaths (fs : List FailingTree) : List FailingTree :=
  (fs.foldl (fun (acc : List FailingTree × Std.HashSet Path) f =>
    if acc.2.contains f.path then acc else (f :: acc.1, acc.2.insert f.path)) ([], {})).1.reverse

/-- The symbols that a comparison is checked for, in increasing order. -/
def boundNames (left right : Operand) : List String :=
  SortedSet.ofList (left.bound?.toList ++ right.bound?.toList)

/-- The fitness of a comparison. -/
def evaluateComparison (t : Tree) (left : Operand) (op : Comparison) (right : Operand)
    (clause : String) : ClauseFitness :=
  let bindings := Bindings.of t (boundNames left right)
  let failed := bindings.checked.filter fun b => !comparisonHolds t left op right b
  .ofCounts (bindings.checked.length - failed.length)
    (satAdd bindings.checked.length bindings.skipped)
    (distinctPaths (failed.flatMap (blamed t left op right clause)))

/-- The fitness of a predicate. -/
def evaluatePredicate (t : Tree) (name : String) (symbol : Option String) (holds : Tree → Bool) :
    ClauseFitness :=
  let targets := match symbol with
    | some s => t.findAll (.named s)
    | none => [[]]
  let found := targets.filterMap fun p => (t.get? p).map fun n => (p, n)
  let failed := found.filter fun n => !holds n.2
  .ofCounts (found.length - failed.length) targets.length
    (failed.map fun (p, n) => ⟨p, n.symbol, name, []⟩)

/-- The values of a quantity to optimise. -/
def evaluateQuantity (t : Tree) (o : Operand) : ValueFitness :=
  let bindings := Bindings.of t (SortedSet.ofList o.bound?.toList)
  ⟨bindings.checked.filterMap fun b => (o.eval? t b).bind Value.toFloat?, []⟩

/-- A member of a combination: a quantity counts as one check that holds. -/
def asClauses : Fitness → ClauseFitness
  | .clauses c => c
  | .values v => .ofCounts 1 1 v.failing

/-- The fitness of a conjunction. With several members the conjunction itself is one more check. The
sums are bounded by the sizes of the tree and of the constraint. -/
def conjunction (parts : List ClauseFitness) : ClauseFitness :=
  let all := parts.all (·.success)
  let more := if parts.length > 1 then 1 else 0
  ⟨sumOf (parts.map (·.solved)) + (if all then more else 0),
    sumOf (parts.map (·.total)) + more, all,
    parts.flatMap (·.failing)⟩

/-- The fitness of a disjunction. With several members the disjunction itself is one more check; if
it holds, all checks count as holding and nothing is to blame. -/
def disjunction (parts : List ClauseFitness) : ClauseFitness :=
  let total := sumOf (parts.map (·.total)) + if parts.length > 1 then 1 else 0
  if parts.any (·.success) then ⟨total, total, true, []⟩
  else ⟨sumOf (parts.map (·.solved)), total, false, parts.flatMap (·.failing)⟩

/-- A comparison in words. -/
def showComparison (left : Operand) (op : Comparison) (right : Operand) : String :=
  left.describe ++ " " ++ op.sign ++ " " ++ right.describe

mutual

/-- **The fitness of a tree** under a constraint. -/
def evaluate (t : Tree) : Constraint → Fitness
  | .compare left op right =>
    .clauses (evaluateComparison t left op right (showComparison left op right))
  | .predicate name symbol holds => .clauses (evaluatePredicate t name symbol holds)
  | .allOf members => .clauses (conjunction (evaluateParts t members))
  | .anyOf members => .clauses (disjunction (evaluateParts t members))
  | .optimize _ operand => .values (evaluateQuantity t operand)

/-- The fitness of a tree under each member of a combination. -/
def evaluateParts (t : Tree) : List Constraint → List ClauseFitness
  | [] => []
  | c :: rest => asClauses (evaluate t c) :: evaluateParts t rest

end

/-- Whether the constraint only names a quantity to optimise. -/
def isSoft : Constraint → Bool
  | .optimize _ _ => true
  | _ => false

/-- Whether the quantity should become large or small. -/
def goal? : Constraint → Option Goodness
  | .optimize goal _ => some goal
  | _ => none

mutual

/-- **The constraint in words.** -/
def describe : Constraint → String
  | .compare left op right => showComparison left op right
  | .predicate name _ _ => name
  | .allOf members => " and ".intercalate (describeEach members)
  | .anyOf members => " or ".intercalate (describeEach members)
  | .optimize .maximize operand => "maximizing " ++ operand.describe
  | .optimize .minimize operand => "minimizing " ++ operand.describe

/-- Several constraints in words, each between parentheses. -/
def describeEach : List Constraint → List String
  | [] => []
  | c :: rest => ("(" ++ describe c ++ ")") :: describeEach rest

end

/-- A list without repetitions of the element just before. -/
def dropRepeats : List String → List String
  | a :: b :: rest => if a = b then dropRepeats (b :: rest) else a :: dropRepeats (b :: rest)
  | xs => xs

mutual

/-- The symbols that the constraint is about. -/
def symbols : Constraint → List String
  | .compare left _ right => dropRepeats (left.symbols ++ right.symbols)
  | .predicate _ symbol _ => symbol.toList
  | .allOf members => SortedSet.ofList (symbolsOfEach members)
  | .anyOf members => SortedSet.ofList (symbolsOfEach members)
  | .optimize _ operand => operand.symbols

/-- The symbols that several constraints are about. -/
def symbolsOfEach : List Constraint → List String
  | [] => []
  | c :: rest => symbols c ++ symbolsOfEach rest

end

end Constraint

end GrammarFuzzing
