import GrammarFuzzing.Json.Basic

/-!
# Reading domain values out of JSON

Small readers from which the readers of documents, trees and settings are put together. All of them
answer `none` for a value of the wrong shape.

* **Records** are objects; a name that is asked for must not be written twice.
  `GrammarFuzzing.Json.onlyNames` refuses names a record does not have.
* **Choices** (`GrammarFuzzing.Json.tagged?`) are objects with exactly one member, whose name is
  the choice.
-/

namespace GrammarFuzzing.Json

/-- The members of an object. -/
def members? : Json → Option (List (String × Json))
  | .object ms => some ms
  | _ => none

/-- The items of an array. -/
def items? : Json → Option (List Json)
  | .array xs => some xs
  | _ => none

/-- A text. -/
def string? : Json → Option String
  | .string s => some s
  | _ => none

/-- A truth value. -/
def bool? : Json → Option Bool
  | .bool b => some b
  | _ => none

/-- A whole number that is not negative, below `bound`. -/
def natBelow? (bound : Nat) : Json → Option Nat
  | .int n => if 0 ≤ n ∧ n < bound then some n.toNat else none
  | _ => none

/-- A whole number that is not negative. -/
def nat? : Json → Option Nat :=
  natBelow? (Nat.pow 2 64)

/-- A whole number of 64 bits with sign. -/
def int64? : Json → Option Int
  | .int n => if -(Nat.pow 2 63 : Int) ≤ n ∧ n < Nat.pow 2 63 then some n else none
  | _ => none

/-- A number; a whole one is taken as a float too. -/
def float? : Json → Option Float
  | .int n => some (Float.ofInt n)
  | .float x => some x
  | _ => none

/-- A value that may be left out by writing `null`. -/
def nullable? {α : Type} (read : Json → Option α) : Json → Option (Option α)
  | .null => some none
  | x => (read x).map some

/-- All items of an array. -/
def list? {α : Type} (read : Json → Option α) (x : Json) : Option (List α) :=
  x.items?.bind fun xs => xs.mapM read

/-- The values of all members with a name. -/
def named (ms : List (String × Json)) (name : String) : List Json :=
  (ms.filter fun m => m.1 == name).map (·.2)

/-- A member that must be there, once. -/
def field? {α : Type} (ms : List (String × Json)) (name : String) (read : Json → Option α) :
    Option α :=
  match named ms name with
  | [x] => read x
  | _ => none

/-- A member that may be missing, but not be there twice. -/
def fieldOr? {α : Type} (ms : List (String × Json)) (name : String) (default : α)
    (read : Json → Option α) : Option α :=
  match named ms name with
  | [] => some default
  | [x] => read x
  | _ => none

/-- A member that may be missing or `null`. -/
def optional? {α : Type} (ms : List (String × Json)) (name : String) (read : Json → Option α) :
    Option (Option α) :=
  fieldOr? ms name none (nullable? read)

/-- Whether all names of an object are among the given ones. -/
def onlyNames (ms : List (String × Json)) (names : List String) : Bool :=
  ms.all fun m => names.contains m.1

/-- The name and the content of a choice. -/
def tagged? : Json → Option (String × Json)
  | .object [m] => some m
  | _ => none

/-- The value of the last member with a name, for readers that overlook repetitions. -/
def get? (x : Json) (name : String) : Option Json :=
  match x with
  | .object ms => (named ms name).getLast?
  | _ => none

end GrammarFuzzing.Json
