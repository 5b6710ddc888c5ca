import GrammarFuzzing.Json.Basic

/-!
# TOML values

A TOML document is a table, which its lines fill step by step: `GrammarFuzzing.Toml.putPair` adds a
value, `.openTable` and `.openArrayTable` are headers. What may be added where depends on how a
table came about, its **origin**: a table is defined once.

Dates are left out, since no setting is one.
-/

namespace GrammarFuzzing

/-- **How a table came about.** -/
inductive TableOrigin
  /-- By a header of a table inside it. -/
  | implied
  /-- By a dotted key. -/
  | dotted
  /-- By its own header. -/
  | header
  /-- Between braces. -/
  | braces
  deriving DecidableEq

/-- **A TOML value.** -/
inductive Toml
  | string (value : String)
  | int (value : Int)
  | float (value : Float)
  | bool (value : Bool)
  | array (items : List Toml)
  | table (origin : TableOrigin) (members : List (String × Toml))
  /-- Tables that were opened one after the other with the same name. -/
  | tables (items : List (List (String × Toml)))

namespace Toml

/-- The pairs of a table, in the order in which they were added. -/
abbrev Members := List (String × Toml)

/-- The value of a key. -/
def get? (ms : Members) (key : String) : Option Toml :=
  (ms.find? fun m => m.1 = key).map (·.2)

/-- The pairs with another value for a key. -/
def set (ms : Members) (key : String) (value : Toml) : Members :=
  ms.map fun m => if m.1 = key then (key, value) else m

/-- **Changes the table at a path** below a table, by a function of its origin and its pairs. Tables
that are missing on the way are made. A dotted key may not pass through a table that has a header of
its own. -/
def changeAt (dotted : Bool) (change : TableOrigin → Members → Option Members) :
    List String → TableOrigin → Members → Option Members
  | [], origin, ms => change origin ms
  | key :: path, _, ms =>
    match get? ms key with
    | none =>
      let origin := if dotted then TableOrigin.dotted else .implied
      (changeAt dotted change path origin []).map fun inner => ms ++ [(key, .table origin inner)]
    | some (.table origin inner) =>
      if origin = .braces || (dotted && origin = .header) then none
      else (changeAt dotted change path origin inner).map fun inner =>
        set ms key (.table origin inner)
    | some (.tables items) =>
      match items.getLast? with
      | none => none
      | some last => (changeAt dotted change path .header last).map fun last =>
        set ms key (.tables (items.dropLast ++ [last]))
    | some _ => none

/-- Adds a value under a dotted key, which must be new. -/
def putDotted (path : List String) (key : String) (value : Toml) (ms : Members) : Option Members :=
  changeAt true (fun origin ms =>
    if (!path.isEmpty && origin ≠ .dotted) || (get? ms key).isSome then none
    else some (ms ++ [(key, value)])) path .header ms

/-- **Adds a value** under a dotted key to the table at a path. -/
def putPair (table path : List String) (key : String) (value : Toml) (ms : Members) :
    Option Members :=
  changeAt false (fun _ ms => putDotted path key value ms) table .header ms

/-- **Opens a table** by its header. -/
def openTable (path : List String) (key : String) (ms : Members) : Option Members :=
  changeAt false (fun _ ms =>
    match get? ms key with
    | none => some (ms ++ [(key, .table .header [])])
    | some (.table .implied inner) => some (set ms key (.table .header inner))
    | some _ => none) path .header ms

/-- Opens one more of the tables with a name. -/
def openArrayTable (path : List String) (key : String) (ms : Members) : Option Members :=
  changeAt false (fun _ ms =>
    match get? ms key with
    | none => some (ms ++ [(key, .tables [[]])])
    | some (.tables items) => some (set ms key (.tables (items ++ [[]])))
    | some _ => none) path .header ms

mutual

/-- **The value as JSON.** -/
def toJson : Toml → Json
  | .string s => .string s
  | .int n => .int n
  | .float x => .float x
  | .bool b => .bool b
  | .array items => .array (itemsToJson items)
  | .table _ members => .object (membersToJson members)
  | .tables items => .array (tablesToJson items)

/-- Several values as JSON. -/
def itemsToJson : List Toml → List Json
  | [] => []
  | x :: rest => x.toJson :: itemsToJson rest

/-- The pairs of a table as the members of an object. -/
def membersToJson : List (String × Toml) → List (String × Json)
  | [] => []
  | (key, x) :: rest => (key, x.toJson) :: membersToJson rest

/-- Several tables as JSON. -/
def tablesToJson : List (List (String × Toml)) → List Json
  | [] => []
  | ms :: rest => .object (membersToJson ms) :: tablesToJson rest

end

end Toml

end GrammarFuzzing
