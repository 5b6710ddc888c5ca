import GrammarFuzzing.Constraint.Basic

/-!
# Predicates to choose from

Some predicates on trees by name, each with an argument.
-/

namespace GrammarFuzzing

/-- The argument of a predicate. -/
inductive PredicateArgument
  | none
  | number (n : Int)
  | text (s : String)

/-- The number that the argument is, zero if it is none. -/
def PredicateArgument.asNumber : PredicateArgument → Int
  | .number n => n
  | _ => 0

/-- The text that the argument is, empty if it is none. -/
def PredicateArgument.asText : PredicateArgument → String
  | .text s => s
  | _ => ""

namespace Constraint

/-- The predicate with a name: `always` holds; `len` compares the number of bytes; `prefix` the
beginning of the text; `even` holds of even integers, and `bytes` of trees with byte terminals. Any
other name never holds. -/
def predicateNamed (name : String) (arg : PredicateArgument) (t : Tree) : Bool :=
  match name with
  | "always" => true
  | "len" => t.toBytes.length = arg.asNumber
  | "prefix" => arg.asText.toList.isPrefixOf t.text.toList
  | "even" => t.toInt?.any fun n => n % 2 = 0
  | "bytes" => t.containsBytes
  | _ => false

end Constraint

end GrammarFuzzing
