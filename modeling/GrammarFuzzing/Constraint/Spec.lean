import GrammarFuzzing.Constraint.Basic
import GrammarFuzzing.Grammar.Basic

/-!
# Constraints as they are written

A `GrammarFuzzing.ConstraintSpec` is a constraint as it is exchanged in JSON, made of comparisons,
quantities and their combinations. `GrammarFuzzing.ConstraintSpec.build` turns it into a constraint
after checking that every symbol it mentions has a rule.
-/

namespace GrammarFuzzing

/-- **A constraint as it is written.** -/
inductive ConstraintSpec
  | compare (left : Operand) (op : Comparison) (right : Operand)
  | allOf (members : List ConstraintSpec)
  | anyOf (members : List ConstraintSpec)
  | maximize (operand : Operand)
  | minimize (operand : Operand)

namespace ConstraintSpec

mutual

/-- The constraint, its symbols unchecked. -/
def toConstraint : ConstraintSpec → Constraint
  | .compare left op right => .compare left op right
  | .allOf members => .allOf (listToConstraint members)
  | .anyOf members => .anyOf (listToConstraint members)
  | .maximize operand => .optimize .maximize operand
  | .minimize operand => .optimize .minimize operand

/-- Several constraints, their symbols unchecked. -/
def listToConstraint : List ConstraintSpec → List Constraint
  | [] => []
  | c :: rest => c.toConstraint :: listToConstraint rest

end

mutual

/-- All symbols that are mentioned, from left to right. -/
def mentioned : ConstraintSpec → List String
  | .compare left _ right => left.symbols ++ right.symbols
  | .allOf members => listMentioned members
  | .anyOf members => listMentioned members
  | .maximize operand => operand.symbols
  | .minimize operand => operand.symbols

/-- All symbols that are mentioned in several constraints. -/
def listMentioned : List ConstraintSpec → List String
  | [] => []
  | c :: rest => c.mentioned ++ listMentioned rest

end

/-- **The constraint**, if every symbol in it has a rule; otherwise the first that has none. -/
def build (g : Grammar) (spec : ConstraintSpec) : Except GrammarError Constraint :=
  match spec.mentioned.find? fun name => !g.hasRule name with
  | some name => .error (.undefinedSymbol name)
  | none => .ok spec.toConstraint

mutual

/-- The specification as a JSON choice. -/
def toJson : ConstraintSpec → Json
  | .compare left op right =>
    .object [("compare", .object [("left", left.toJson), ("op", .string op.sign),
      ("right", right.toJson)])]
  | .allOf members => .object [("all-of", .array (listToJson members))]
  | .anyOf members => .object [("any-of", .array (listToJson members))]
  | .maximize operand => .object [("maximize", operand.toJson)]
  | .minimize operand => .object [("minimize", operand.toJson)]

/-- Several specifications as JSON. -/
def listToJson : List ConstraintSpec → List Json
  | [] => []
  | c :: rest => c.toJson :: listToJson rest

end

/-- The sides of a comparison, as a record or as the array of its fields. -/
def comparisonOfJson? : Json → Option ConstraintSpec
  | .object ms => do
    let left ← Json.field? ms "left" Operand.ofJson?
    let op ← Json.field? ms "op" opOfJson?
    let right ← Json.field? ms "right" Operand.ofJson?
    some (.compare left op right)
  | .array [left, op, right] => do
    some (.compare (← Operand.ofJson? left) (← opOfJson? op) (← Operand.ofJson? right))
  | _ => none
where
  /-- The comparison that JSON writes by its sign. -/
  opOfJson? : Json → Option Comparison
    | .string s => Comparison.ofSign? s
    | .object [(s, .null)] => Comparison.ofSign? s
    | _ => none

mutual

/-- **The specification that a JSON choice writes.** -/
def ofJson? : Json → Option ConstraintSpec
  | .object [(tag, x)] =>
    match tag with
    | "compare" => comparisonOfJson? x
    | "all-of" => (arrayOfJson? x).map .allOf
    | "any-of" => (arrayOfJson? x).map .anyOf
    | "maximize" => (Operand.ofJson? x).map .maximize
    | "minimize" => (Operand.ofJson? x).map .minimize
    | _ => none
  | _ => none

/-- Several specifications out of an array. -/
def arrayOfJson? : Json → Option (List ConstraintSpec)
  | .array xs => listOfJson? xs
  | _ => none

/-- Several specifications out of JSON. -/
def listOfJson? : List Json → Option (List ConstraintSpec)
  | [] => some []
  | x :: rest =>
    match ofJson? x, listOfJson? rest with
    | some c, some cs => some (c :: cs)
    | _, _ => none

end

end ConstraintSpec

end GrammarFuzzing
