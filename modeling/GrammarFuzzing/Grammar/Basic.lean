import GrammarFuzzing.Grammar.Distance
import GrammarFuzzing.Grammar.Setting
import GrammarFuzzing.Random.Source
import GrammarFuzzing.Tree.Basic

/-!
# Grammars

A `GrammarFuzzing.Grammar` is a dictionary of rules with a start symbol, settings of its nodes and
generators for some of its symbols. It is made from a `GrammarFuzzing.Draft`, to which nodes, rules,
settings and generators are added one by one and which `GrammarFuzzing.Draft.build` checks as a
whole:

* the start symbol, every reference and every symbol of a generator has a rule;
* the bounds of every repetition admit a positive count, and every choice has options;
* every rule is **productive**: it derives some finite tree.

A grammar knows the distances of its rules; that they are the distances is part of its type.
-/

namespace GrammarFuzzing

/-- **A generator** computes the value of a symbol from expansions of other symbols. It may fail,
and it may make choices of its own, so that it need not compute the same value from the same
trees. -/
structure Generator where
  dependencies : List String
  generate : List Tree → Draw (Option Bytes)

/-- **A grammar.** `nodes` holds all its nodes by their numbers, `distances` the distances of the
bodies of its rules. -/
structure Grammar where
  nodes : Array Node
  rules : Dictionary String Node
  start : String
  settings : List GrammarSetting
  generators : Dictionary String Generator
  distances : Dictionary String Nat
  distances_eq : distances = ruleDistances rules

/-- A grammar in the making. -/
structure Draft where
  nodes : Array Node := #[]
  rules : Dictionary String Node := []
  start : Option String := none
  settings : List GrammarSetting := []
  generators : Dictionary String Generator := []

/-- The characters between two, which belong to them, in increasing order. -/
def charsBetween (low high : Char) : List Char :=
  ((List.range (high.toNat + 1 - low.toNat)).map (low.toNat + ·)).filterMap fun n =>
    if n.isValidChar then some (Char.ofNat n) else none

namespace Draft

/-- The draft with a new node, which is made from its number, and the node. -/
def add (d : Draft) (make : Nat → Node) : Node × Draft :=
  let n := make d.nodes.size
  (n, { d with nodes := d.nodes.push n })

/-! ### Making nodes

Each of these returns the new node with the draft that has it. -/

/-- A text as it stands. -/
def text (d : Draft) (value : String) : Node × Draft :=
  d.add fun id => .terminal id (.text value)

/-- Bytes as they stand. -/
def bytes (d : Draft) (value : Bytes) : Node × Draft :=
  d.add fun id => .terminal id (.bytes value)

/-- Whatever a rule derives. -/
def reference (d : Draft) (name : String) : Node × Draft :=
  d.add fun id => .reference id (bareName name) none none

/-- Whatever a rule derives, as a message from one party, possibly to another. -/
def message (d : Draft) (name sender : String) (recipient : Option String) : Node × Draft :=
  d.add fun id => .reference id (bareName name) (some sender) recipient

/-- One node after the other. -/
def sequence (d : Draft) (parts : List Node) : Node × Draft :=
  d.add fun id => .sequence id parts

/-- One of several nodes. -/
def choice (d : Draft) (options : List Node) : Node × Draft :=
  d.add fun id => .choice id options

/-- Any number of copies. -/
def star (d : Draft) (body : Node) : Node × Draft :=
  d.add fun id => .repetition id body 0 none .star

/-- At least one copy. -/
def plus (d : Draft) (body : Node) : Node × Draft :=
  d.add fun id => .repetition id body 1 none .plus

/-- At most one copy. -/
def optional (d : Draft) (body : Node) : Node × Draft :=
  d.add fun id => .repetition id body 0 (some 1) .optional

/-- A number of copies between bounds. -/
def repeated (d : Draft) (body : Node) (min : Nat) (max : Option Nat) : Node × Draft :=
  d.add fun id => .repetition id body min max .bounded

/-- One of some characters. They are kept in increasing order, each once. -/
def chars (d : Draft) (cs : List Char) : Node × Draft :=
  d.add fun id => .charset id (SortedSet.ofList cs)

/-- One of the characters between two, which belong to them. -/
def range (d : Draft) (low high : Char) : Node × Draft :=
  d.add fun id => .charset id (charsBetween low high)

/-! ### Rules and the rest -/

/-- The draft with a rule, in place of an earlier one of the same name. -/
def rule (d : Draft) (name : String) (body : Node) : Draft :=
  { d with rules := d.rules.put (bareName name) body }

/-- The draft with a start symbol. -/
def withStart (d : Draft) (name : String) : Draft :=
  { d with start := some (bareName name) }

/-- The draft with a generator, in place of an earlier one for the same symbol. -/
def generator (d : Draft) (name : String) (g : Generator) : Draft :=
  { d with generators := d.generators.put (bareName name) g }

/-- The rule that a node belongs to: the first whose body contains it. -/
def owner (d : Draft) (id : Nat) : String :=
  ((List.find? (fun r => r.2.ids.contains id) d.rules).map (·.1)).getD ""

/-- What is wrong with a node, its references and bounds. -/
def checkNode (d : Draft) : Node → Except GrammarError Unit
  | .reference _ name _ _ =>
    if d.rules.has name then .ok () else .error (.undefinedSymbol name)
  | .repetition _ _ min (some max) _ =>
    if max = 0 ∨ max < min then .error (.invalidRepetition min (some max)) else .ok ()
  | .choice id [] => .error (.emptyAlternative (d.owner id))
  | _ => .ok ()

/-- What is wrong with a generator. -/
def checkGenerator (d : Draft) (name : String) (g : Generator) : Except GrammarError Unit := do
  if !d.rules.has name then throw (.undefinedSymbol name)
  g.dependencies.forM fun dep =>
    if d.rules.has dep then pure () else throw (.undefinedSymbol dep)

/-- **The grammar of a draft**, or the first thing that is wrong with it. -/
def build (d : Draft) : Except GrammarError Grammar := do
  let start := d.start.getD "start"
  if !d.rules.has start then throw (.undefinedSymbol start)
  d.nodes.toList.forM d.checkNode
  d.generators.forM fun (name, g) => d.checkGenerator name g
  let distances := ruleDistances d.rules
  distances.forM fun (name, distance) =>
    if distance = unreachable then throw (.unproductive name) else pure ()
  return ⟨d.nodes, d.rules, start, d.settings, d.generators, ruleDistances d.rules, rfl⟩

end Draft

namespace Grammar

/-- The draft that makes the grammar again. -/
def toDraft (g : Grammar) : Draft :=
  ⟨g.nodes, g.rules, some g.start, g.settings, g.generators⟩

/-- The body of the rule of a name. -/
def body? (g : Grammar) (name : String) : Option Node :=
  g.rules.find? name

/-- Whether a name, with or without brackets, has a rule. -/
def hasRule (g : Grammar) (name : String) : Bool :=
  g.rules.has (bareName name)

/-- The body of the rule of a name, with or without brackets. -/
def rule (g : Grammar) (name : String) : Except GrammarError Node :=
  match g.body? (bareName name) with
  | some body => .ok body
  | none => .error (.undefinedSymbol (bareName name))

/-- The least number of tree nodes that a node expands to. -/
def distance (g : Grammar) (n : Node) : Nat :=
  n.distanceWith (distanceIn g.distances)

/-- The least number of nodes of a tree with a symbol at its root. -/
def symbolDistance (g : Grammar) (name : String) : Except GrammarError Nat :=
  (g.rule name).map fun body => satAdd (g.distance body) 1

/-- The knobs of a node. -/
def settingsOf (g : Grammar) (n : Node) : NodeSettings :=
  resolveSettings g.settings n

/-- The generator of a symbol. -/
def generator? (g : Grammar) (name : String) : Option Generator :=
  g.generators.find? name

/-- A summary of the grammar: its start symbol, its rules, the number of its nodes and its
generators. -/
def summary (g : Grammar) : String :=
  "Grammar \x7b start: " ++ quote g.start ++ ", rules: " ++ quoteList g.rules.keys ++ ", nodes: " ++
    toString g.nodes.size ++ ", generators: " ++ quoteList g.generators.keys ++ " \x7d"

end Grammar

end GrammarFuzzing
