import GrammarFuzzing.Grammar.Basic
import GrammarFuzzing.Tree.Numeric

/-!
# Generators to choose from

Some generators by name, each a simple function of the trees of its dependencies.
-/

namespace GrammarFuzzing.Generator

/-- An integer reduced to 64 bits. -/
def wrapInt64 (n : Int) : Int :=
  n.bmod (Nat.pow 2 64)

/-- What several trees render as, one after the other. -/
def joined (params : List Tree) : Bytes :=
  params.flatMap Tree.toBytes

/-- The computation with a name: `const` is the value, `mul` the first parameter times the factor,
`concat` the parameters one after the other, `reverse` the same backwards, and `len` their length.
Any other name always fails. -/
def compute (name : String) (value : Bytes) (factor : Int) (params : List Tree) : Option Bytes :=
  match name with
  | "const" => some value
  | "mul" =>
    let n := (params.head?.bind Tree.toInt?).getD 1
    some (Utf8.encode (toString (wrapInt64 (n * factor))))
  | "concat" => some (joined params)
  | "reverse" => some (joined params).reverse
  | "len" => some (Utf8.encode (toString (joined params).length))
  | _ => none

/-- A generator with a named computation. -/
def named (name : String) (dependencies : List String) (value : Bytes) (factor : Int) : Generator :=
  ⟨dependencies.map bareName, fun params => return compute name value factor params⟩

end GrammarFuzzing.Generator
