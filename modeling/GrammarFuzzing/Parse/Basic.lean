import GrammarFuzzing.Grammar.Basic
import GrammarFuzzing.Parse.Search

/-!
# Parsing

`GrammarFuzzing.Grammar.parse` reads bytes as a tree with a given symbol at its root, and
`GrammarFuzzing.Grammar.recognize` only tells whether that is possible. In **complete** mode all of
the input must derive from the symbol; in **incomplete** mode it must be the beginning of something
that does, and the tree covers what is there, the last terminal possibly cut short.
-/

namespace GrammarFuzzing

/-- How much of a derivation the input has to be. -/
inductive ParseMode
  | complete
  | incomplete
  deriving DecidableEq

/-- **Why an input was not parsed.** -/
inductive ParseError
  /-- There is no derivation; `position` is the furthest one that a derivation reached. -/
  | noMatch (symbol : String) (position length : Nat)
  /-- There is no such symbol. -/
  | grammar (error : GrammarError)

/-- The error in words. -/
def ParseError.message : ParseError → String
  | .noMatch symbol position length =>
    "Input does not match " ++ angled symbol ++ " (stuck at byte " ++ toString position ++ " of " ++
      toString length ++ ")"
  | .grammar e => e.message

/-- The position of a mismatch. -/
def ParseError.position? : ParseError → Option Nat
  | .noMatch _ position _ => some position
  | .grammar _ => none

namespace FlatGrammar

/-- A bound on how deeply different goals at different places can be nested. -/
def nestingBound (f : FlatGrammar) (length : Nat) : Nat :=
  f.ofGoal.size * (length + 1) * (length + 1) + 1

/-- The children that a goal derives from the whole input, or from as much as is there. -/
def children? (f : FlatGrammar) (chart : Chart) (input : Array UInt8) (goal : Goal)
    (mode : ParseMode) : Option (List Tree) :=
  let n := input.size
  let depth := f.nestingBound n
  let whole := Search.goalChildren f chart input depth
  match mode with
  | .complete => ((whole goal 0 n).run {}).1
  | .incomplete =>
    if chart.viable f input then
      ((Search.otherwise (whole goal 0 n)
        (Search.partialGoal f chart input whole depth goal 0)).run {}).1
    else none

end FlatGrammar

namespace Grammar

/-- **The tree that bytes write**, with a symbol at its root. Of several derivations the first one
in the order of the grammar is taken; only outermost messages keep their parties. -/
def parse (g : Grammar) (input : Bytes) (symbol : String) (mode : ParseMode) :
    Except ParseError Tree :=
  let name := bareName symbol
  match g.rule name with
  | .error e => .error (.grammar e)
  | .ok _ =>
    let f := FlatGrammar.of g
    let bytes := input.toArray
    let chart := Chart.of f bytes (.named name)
    match f.children? chart bytes (.named name) mode with
    | some children => .ok (Tree.stripNestedParties ⟨.named name, children, [], none, none, false⟩)
    | none => .error (.noMatch name chart.furthest bytes.size)

/-- **Whether bytes can be parsed.** -/
def recognize (g : Grammar) (input : Bytes) (symbol : String) (mode : ParseMode) : Bool :=
  let name := bareName symbol
  if !g.hasRule name then false
  else
    let f := FlatGrammar.of g
    let bytes := input.toArray
    let chart := Chart.of f bytes (.named name)
    match mode with
    | .complete => chart.spans (.named name) 0 bytes.size
    | .incomplete => chart.viable f bytes

end Grammar

end GrammarFuzzing
