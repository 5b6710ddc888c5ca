import GrammarFuzzing.Grammar.Basic

/-!
# Grammars as specification text

`GrammarFuzzing.Grammar.toSpec` writes a grammar as one rule a line, the start rule first and the
others in the order of their names. Choices are written between parentheses; the body of a
repetition is, if it is a sequence of several parts.
-/

namespace GrammarFuzzing

namespace Node

/-- Whether a node must stand between parentheses under a repetition. -/
def needsGroup : Node → Bool
  | .sequence _ parts => parts.length > 1
  | _ => false

/-- What follows the body of a repetition. -/
def quantifier (min : Nat) (max : Option Nat) : RepetitionForm → String
  | .star => "*"
  | .plus => "+"
  | .optional => "?"
  | .bounded =>
    match max with
    | some max =>
      if max = min then "\x7b" ++ toString min ++ "\x7d"
      else "\x7b" ++ toString min ++ "," ++ toString max ++ "\x7d"
    | none => "\x7b" ++ toString min ++ ",\x7d"

/-- A character inside square brackets. -/
def setChar (c : Char) : List Char :=
  if c = ']' ∨ c = '\\' ∨ c = '-' then ['\\', c] else [c]

/-- A reference, with the parties of the message before the name. -/
def referenceSpec (name : String) (sender recipient : Option String) : String :=
  match sender, recipient with
  | some s, some r => angled (s ++ ":" ++ r ++ ":" ++ name)
  | some s, none => angled (s ++ ":" ++ name)
  | none, _ => angled name

mutual

/-- **A node as specification text.** -/
def toSpec : Node → String
  | .terminal _ value => value.toSpec
  | .charset _ chars => "[" ++ String.ofList (chars.flatMap setChar) ++ "]"
  | .reference _ name sender recipient => referenceSpec name sender recipient
  | .sequence _ parts => " ".intercalate (listToSpec parts)
  | .choice _ options => "(" ++ " | ".intercalate (listToSpec options) ++ ")"
  | .repetition _ body min max form =>
    (if body.needsGroup then "(" ++ body.toSpec ++ ")" else body.toSpec) ++ quantifier min max form

/-- Several nodes as specification text. -/
def listToSpec : List Node → List String
  | [] => []
  | n :: rest => n.toSpec :: listToSpec rest

end

end Node

namespace Grammar

/-- A rule as specification text. -/
def ruleSpec (name : String) (body : Node) : String :=
  angled name ++ " ::= " ++ body.toSpec

/-- **The grammar as specification text.** -/
def toSpec (g : Grammar) : String :=
  let first := (g.body? g.start).toList.map fun body => ruleSpec g.start body
  let others := (g.rules.filter fun r => r.1 ≠ g.start).map fun r => ruleSpec r.1 r.2
  "\n".intercalate (first ++ others)

end Grammar

end GrammarFuzzing
