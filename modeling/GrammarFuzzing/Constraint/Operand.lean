import GrammarFuzzing.Constraint.Value
import GrammarFuzzing.Dictionary
import GrammarFuzzing.Grammar.Setting
import GrammarFuzzing.Tree.Numeric
import GrammarFuzzing.Tree.Path

/-!
# Operands

An **operand** is one side of a comparison, or a quantity to optimise. It reads a node: the whole
tree, or whichever occurrence of a symbol is being looked at (`GrammarFuzzing.Scope`). Which
occurrence that is, a **binding** tells for every symbol.
-/

namespace GrammarFuzzing

/-- The node that an operand reads. -/
inductive Scope
  /-- The whole tree. -/
  | root
  /-- An occurrence of a symbol. -/
  | symbol (name : String)
  deriving DecidableEq

namespace Scope

/-- The symbol whose occurrence is read. -/
def bound? : Scope → Option String
  | .root => none
  | .symbol name => some name

/-- The scope in words. -/
def describe : Scope → String
  | .root => "root"
  | .symbol name => angled name

/-- The scope that a text writes: `root`, or a name between angle brackets. -/
def read (s : String) : Except GrammarError Scope :=
  let s := trim s
  if s = "root" then .ok .root
  else if SettingSelector.isAngled s then .ok (.symbol (bareName s))
  else .error (.invalidSelector s)

/-- The scope as JSON. -/
def toJson (s : Scope) : Json :=
  .string s.describe

/-- The scope that JSON writes. -/
def ofJson? (x : Json) : Option Scope :=
  x.string?.bind fun s => (read s).toOption

end Scope

/-- **One side of a comparison.** -/
inductive Operand
  /-- A fixed value. -/
  | literal (value : Value)
  /-- The text of a node. -/
  | text (scope : Scope)
  /-- The integer that a node renders. -/
  | int (scope : Scope)
  /-- The floating-point number that a node renders. -/
  | float (scope : Scope)
  /-- The number of bytes that a node renders. -/
  | length (scope : Scope)
  /-- The number of occurrences of a symbol in a node, the node itself included. -/
  | count (within : Scope) (symbol : String)

/-- The occurrence chosen for each symbol. -/
abbrev Binding := Dictionary String Path

namespace Operand

/-- The node that the operand reads, if it reads one. -/
def scope? : Operand → Option Scope
  | .literal _ => none
  | .text s | .int s | .float s | .length s => some s
  | .count within _ => some within

/-- The symbol whose occurrences the operand reads. -/
def bound? (o : Operand) : Option String :=
  o.scope?.bind Scope.bound?

/-- All symbols that the operand mentions. -/
def symbols (o : Operand) : List String :=
  o.bound?.toList ++
    match o with
    | .count _ symbol => [bareName symbol]
    | _ => []

/-- The node that a scope means under a binding. -/
def node? (t : Tree) (b : Binding) : Scope → Option Tree
  | .root => some t
  | .symbol name => (b.find? name).bind t.get?

/-- **The value of an operand** on a tree under a binding, if it has one. -/
def eval? (t : Tree) (b : Binding) : Operand → Option Value
  | .literal value => some value
  | .text s => (node? t b s).map fun n => .text n.text
  | .int s => (node? t b s).bind fun n => n.toInt?.map .int
  | .float s => (node? t b s).bind fun n => n.toFloat?.map .float
  | .length s => (node? t b s).map fun n => .int n.toBytes.length
  | .count s symbol => (node? t b s).map fun n => .int (n.count (.named symbol))

/-- The operand in words. -/
def describe : Operand → String
  | .literal (.text s) => quote s
  | .literal value => value.describe
  | .text s => "str(" ++ s.describe ++ ")"
  | .int s => "int(" ++ s.describe ++ ")"
  | .float s => "float(" ++ s.describe ++ ")"
  | .length s => "len(" ++ s.describe ++ ")"
  | .count .root symbol => "count(" ++ angled (bareName symbol) ++ ")"
  | .count within symbol => "count(" ++ within.describe ++ ", " ++ angled (bareName symbol) ++ ")"

/-- The operand as a JSON choice. -/
def toJson : Operand → Json
  | .literal value => .object [("literal", value.toJson)]
  | .text s => .object [("text", s.toJson)]
  | .int s => .object [("int", s.toJson)]
  | .float s => .object [("float", s.toJson)]
  | .length s => .object [("len", s.toJson)]
  | .count within symbol =>
    .object [("count", .object [("within", within.toJson), ("symbol", .string symbol)])]

/-- The scope and the symbol of a count, as a record or as the array of its fields. -/
def countOfJson? : Json → Option Operand
  | .object ms => do
    let within ← Json.fieldOr? ms "within" Scope.root Scope.ofJson?
    let symbol ← Json.field? ms "symbol" Json.string?
    some (.count within symbol)
  | .array [within, .string symbol] => (Scope.ofJson? within).map fun w => .count w symbol
  | _ => none

/-- The operand that a JSON choice writes. -/
def ofJson? (x : Json) : Option Operand :=
  match x.tagged? with
  | some ("literal", x) => (Value.ofJson? x).map .literal
  | some ("text", x) => (Scope.ofJson? x).map .text
  | some ("int", x) => (Scope.ofJson? x).map .int
  | some ("float", x) => (Scope.ofJson? x).map .float
  | some ("len", x) => (Scope.ofJson? x).map .length
  | some ("count", x) => countOfJson? x
  | _ => none

end Operand

end GrammarFuzzing
