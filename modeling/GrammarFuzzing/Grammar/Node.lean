import GrammarFuzzing.Symbol

/-!
# The bodies of rules

The body of a rule is a `GrammarFuzzing.Node`: a terminal, a set of characters, a reference to
another rule, or a sequence, a choice or a repetition of nodes. A reference may name the parties of
a message.

Every node has a **number**. Numbers are given out in the order in which the nodes of a grammar are
made, and two occurrences with the same number are one node that is used twice.

* `Node.kind` – what selectors call the node;
* `Node.leaves` – the terminals, character sets and references in it, from left to right;
* `Node.references` – the names that it refers to.
-/

namespace GrammarFuzzing

/-- How a repetition is written. -/
inductive RepetitionForm
  | star
  | plus
  | optional
  | bounded
  deriving DecidableEq

/-- **A node of a rule body.** -/
inductive Node
  /-- A terminal. -/
  | terminal (id : Nat) (value : Literal)
  /-- One character of a set; the set is in increasing order. -/
  | charset (id : Nat) (chars : List Char)
  /-- Whatever the rule of the name derives. With a sender it is a message. -/
  | reference (id : Nat) (name : String) (sender recipient : Option String)
  /-- All parts, one after the other. -/
  | sequence (id : Nat) (parts : List Node)
  /-- One of the options. -/
  | choice (id : Nat) (options : List Node)
  /-- At least `min` and at most `max` copies of the body; `none` means any number. -/
  | repetition (id : Nat) (body : Node) (min : Nat) (max : Option Nat) (form : RepetitionForm)

instance : Inhabited Node := ⟨.sequence 0 []⟩

/-- What selectors call a node. -/
inductive NodeKind
  | terminal
  | nonTerminal
  | concatenation
  | alternative
  | star
  | plus
  | option
  | repetition
  | charSet
  deriving DecidableEq

namespace NodeKind

/-- All kinds with their names. -/
def names : List (NodeKind × String) :=
  [(.terminal, "Terminal"), (.nonTerminal, "NonTerminal"), (.concatenation, "Concatenation"),
    (.alternative, "Alternative"), (.star, "Star"), (.plus, "Plus"), (.option, "Option"),
    (.repetition, "Repetition"), (.charSet, "CharSet")]

/-- The name of a kind. -/
def name (k : NodeKind) : String :=
  ((names.find? fun p => p.1 = k).map (·.2)).getD ""

/-- The kind with a name. -/
def ofName? (s : String) : Option NodeKind :=
  (names.find? fun p => p.2 = s).map (·.1)

end NodeKind

namespace Node

/-- The number of a node. -/
def id : Node → Nat
  | .terminal id _ | .charset id _ | .reference id _ _ _ | .sequence id _ | .choice id _
  | .repetition id _ _ _ _ => id

/-- The kind of a node. -/
def kind : Node → NodeKind
  | .terminal .. => .terminal
  | .charset .. => .charSet
  | .reference .. => .nonTerminal
  | .sequence .. => .concatenation
  | .choice .. => .alternative
  | .repetition _ _ _ _ .star => .star
  | .repetition _ _ _ _ .plus => .plus
  | .repetition _ _ _ _ .optional => .option
  | .repetition _ _ _ _ .bounded => .repetition

/-- The sender of a message reference. -/
def sender? : Node → Option String
  | .reference _ _ sender _ => sender
  | _ => none

mutual

/-- **The leaves of a node** within its rule, from left to right. -/
def leaves : Node → List Node
  | .terminal id value => [.terminal id value]
  | .charset id chars => [.charset id chars]
  | .reference id name sender recipient => [.reference id name sender recipient]
  | .sequence _ parts => listLeaves parts
  | .choice _ options => listLeaves options
  | .repetition _ body _ _ _ => body.leaves

/-- The leaves of several nodes. -/
def listLeaves : List Node → List Node
  | [] => []
  | n :: rest => n.leaves ++ listLeaves rest

end

/-- The names a node refers to, in the order of its leaves. -/
def references (n : Node) : List String :=
  n.leaves.filterMap fun
    | .reference _ name _ _ => some name
    | _ => none

mutual

/-- The numbers of a node and of everything in it. -/
def ids : Node → List Nat
  | .terminal id _ => [id]
  | .charset id _ => [id]
  | .reference id _ _ _ => [id]
  | .sequence id parts => id :: listIds parts
  | .choice id options => id :: listIds options
  | .repetition id body _ _ _ => id :: body.ids

/-- The numbers of several nodes and of everything in them. -/
def listIds : List Node → List Nat
  | [] => []
  | n :: rest => n.ids ++ listIds rest

end

end Node

end GrammarFuzzing
