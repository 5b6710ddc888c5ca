import GrammarFuzzing.Number.Decimal

/-!
# JSON values

`GrammarFuzzing.Json` is the data that documents, trees and settings are exchanged as. Whole numbers
and other numbers are told apart, because a count must have been written as a whole number. An
object keeps its members in the order they were written, repeated names included: whether a
repetition is an error is decided by what the object is read as.
-/

namespace GrammarFuzzing

/-- **A JSON value.** -/
inductive Json
  | null
  | bool (value : Bool)
  /-- A number written without point and exponent that fits into 64 bits, with or without sign. -/
  | int (value : Int)
  /-- Any other number. -/
  | float (value : Float)
  | string (value : String)
  | array (items : List Json)
  | object (members : List (String × Json))

namespace Json

instance : Inhabited Json := ⟨.null⟩

/-- An array of whole numbers. -/
def ofNats (ns : List Nat) : Json :=
  .array (ns.map fun (n : Nat) => .int n)

end Json

end GrammarFuzzing
