import GrammarFuzzing.Number.Reading
import GrammarFuzzing.Text.Blank
import GrammarFuzzing.Tree.Basic

/-!
# Trees as numbers

What a tree renders as, without blanks around it, may be read as an integer, as a floating-point
number or as a complex number such as `1.5-2j`.
-/

namespace GrammarFuzzing

/-- A complex number. -/
structure Complex where
  re : Float
  im : Float

namespace Complex

/-- Cuts characters, given in reverse, at the last sign that is neither the first character nor the
sign of an exponent. The second result starts with the sign. -/
def splitAtSign? : List Char → List Char → Option (List Char × List Char)
  | c :: before :: rest, after =>
    if (c == '+' || c == '-') && !(before == 'e' || before == 'E') then
      some ((before :: rest).reverse, c :: after)
    else splitAtSign? (before :: rest) (c :: after)
  | _, _ => none

/-- The factor of the imaginary unit: a number, or a sign alone. -/
def readFactor? (cs : List Char) : Option Float :=
  match cs with
  | ['+'] => some 1.0
  | ['-'] => some (-1.0)
  | cs => readFloat? (String.ofList cs)

/-- **The complex number that a text writes**: a real number, or a sum with an imaginary part marked
by a final `j` or `i`. -/
def read? (s : String) : Option Complex :=
  match readFloat? s with
  | some re => some ⟨re, 0.0⟩
  | none =>
    match s.toList.reverse with
    | unit :: body =>
      if unit == 'j' || unit == 'i' then
        match splitAtSign? body [] with
        | some (re, im) =>
          match readFloat? (String.ofList re), readFactor? im with
          | some re, some im => some ⟨re, im⟩
          | _, _ => none
        | none =>
          if body.isEmpty then some ⟨0.0, 1.0⟩
          else (readFactor? body.reverse).map fun im => ⟨0.0, im⟩
      else none
    | [] => none

end Complex

namespace Tree

/-- The integer that a tree renders. -/
def toInt? (t : Tree) : Option Int :=
  readInt64? (trim t.text)

/-- The floating-point number that a tree renders. -/
def toFloat? (t : Tree) : Option Float :=
  readFloat? (trim t.text)

/-- The complex number that a tree renders. -/
def toComplex? (t : Tree) : Option Complex :=
  Complex.read? (trim t.text)

end Tree

end GrammarFuzzing
