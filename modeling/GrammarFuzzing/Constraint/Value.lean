import GrammarFuzzing.Json.Decode
import GrammarFuzzing.Number.Reading
import GrammarFuzzing.Text.Blank

/-!
# Values and how they compare

The operands of a constraint have **values**: integers, floating-point numbers and texts. Texts
compare with texts and numbers with numbers; nothing else compares.
-/

namespace GrammarFuzzing

/-- **What an operand can be worth.** -/
inductive Value
  | int (n : Int)
  | float (x : Float)
  | text (s : String)

namespace Value

/-- The value as a floating-point number; of a text the number that it writes. -/
def toFloat? : Value → Option Float
  | .int n => some (Float.ofInt n)
  | .float x => some x
  | .text s => readFloat? (trim s)

/-- The order of two floating-point numbers; what is no number has none. -/
def compareFloats (a b : Float) : Option Ordering :=
  if a < b then some .lt else if b < a then some .gt else if a == b then some .eq else none

/-- **The order of two values**, if they have one. -/
def compare? : Value → Value → Option Ordering
  | .text a, .text b => some (compare a b)
  | .int a, .int b => some (compare a b)
  | .text _, _ => none
  | _, .text _ => none
  | a, b =>
    match a.toFloat?, b.toFloat? with
    | some x, some y => compareFloats x y
    | _, _ => none

/-- The value in words. -/
def describe : Value → String
  | .int n => toString n
  | .float x => showFloat x
  | .text s => s

/-- The value as JSON. -/
def toJson : Value → Json
  | .int n => .int n
  | .float x => .float x
  | .text s => .string s

/-- The value that JSON writes: a whole number of 64 bits with sign is an integer, any other number
a float. -/
def ofJson? : Json → Option Value
  | .int n => if int64Min ≤ n ∧ n ≤ int64Max then some (.int n) else some (.float (Float.ofInt n))
  | .float x => some (.float x)
  | .string s => some (.text s)
  | _ => none

end Value

/-- **A comparison** of two values. -/
inductive Comparison
  | eq
  | ne
  | lt
  | le
  | gt
  | ge
  deriving DecidableEq

namespace Comparison

/-- All comparisons with the signs they are written with. -/
def signs : List (Comparison × String) :=
  [(.eq, "=="), (.ne, "!="), (.lt, "<"), (.le, "<="), (.gt, ">"), (.ge, ">=")]

/-- The sign of a comparison. -/
def sign (c : Comparison) : String :=
  ((signs.find? fun p => p.1 = c).map (·.2)).getD ""

/-- The comparison that a sign stands for. -/
def ofSign? (s : String) : Option Comparison :=
  (signs.find? fun p => p.2 = s).map (·.1)

/-- Whether the comparison holds of two values in this order. -/
def holds : Comparison → Ordering → Bool
  | .eq, o => o == .eq
  | .ne, o => o != .eq
  | .lt, o => o == .lt
  | .le, o => o != .gt
  | .gt, o => o == .gt
  | .ge, o => o != .lt

end Comparison

end GrammarFuzzing
