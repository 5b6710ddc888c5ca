import GrammarFuzzing.Symbol

/-!
# What can be wrong with a grammar or a tree

`GrammarFuzzing.GrammarError` lists the causes for which a grammar is refused or a tree does not fit
a grammar; `GrammarFuzzing.GrammarError.message` says each in words.
-/

namespace GrammarFuzzing

/-- The way from a root down to a node: the index of a child at each level. -/
abbrev Path := List Nat

/-- **Why a grammar is refused, or a tree by a grammar.** -/
inductive GrammarError
  /-- A rule refers to a non-terminal without a rule. -/
  | undefinedSymbol (name : String)
  /-- A rule derives no finite tree. -/
  | unproductive (name : String)
  /-- The bounds of a repetition admit no count, or only zero. -/
  | invalidRepetition (min : Nat) (max : Option Nat)
  /-- An alternative without options, in the body of a rule. -/
  | emptyAlternative (rule : String)
  /-- A party that the grammar does not mention; the second field lists those it does. -/
  | unknownParty (party : String) (known : List String)
  /-- A node of a tree does not derive from its rule. -/
  | invalidTree (path : Path) (symbol : String) (reason : String)
  /-- A text that selects no nodes. -/
  | invalidSelector (text : String)
  /-- An expansion that does not end. This is no failure, and nobody can go on after it: the symbol
  is named in the place of a result that there never is. -/
  | unending (name : String)
  deriving DecidableEq

namespace GrammarError

/-- An optional count, as messages show it. -/
def showOption : Option Nat → String
  | none => "None"
  | some n => "Some(" ++ toString n ++ ")"

/-- A path, as messages show it. -/
def showPath (path : Path) : String :=
  bracketed (path.map toString)

/-- The error in words. -/
def message : GrammarError → String
  | .undefinedSymbol name => "Undefined symbol " ++ angled name
  | .unproductive name =>
    "Rule " ++ angled name ++ " is unproductive: it cannot derive a finite tree"
  | .invalidRepetition min max =>
    "Invalid repetition bounds \x7b" ++ toString min ++ "," ++ showOption max ++ "\x7d"
  | .emptyAlternative rule => "Empty alternative in rule " ++ angled rule
  | .unknownParty party known =>
    "Unknown party '" ++ party ++ "'; known parties: " ++ quoteList known
  | .invalidTree path symbol reason =>
    "Tree node " ++ symbol ++ " at " ++ showPath path ++ " does not derive from its rule: " ++
      reason
  | .invalidSelector text => "Invalid setting selector '" ++ text ++ "'"
  | .unending name => "The expansion of " ++ angled name ++ " does not end"

end GrammarError

end GrammarFuzzing
