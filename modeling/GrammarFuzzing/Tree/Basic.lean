import GrammarFuzzing.Symbol

/-!
# Derivation trees

A `GrammarFuzzing.Tree` is a concrete expansion of a symbol. Besides its children a node can hold

* its **parties**: the sender and the recipient of the message that the node is;
* its **sources**: the trees from which a generator computed the value below the node. Sources are
  kept for export, and are never rendered, counted or searched;
* whether it is **read-only**, because a generator computed it.

Main definitions: `Tree.toBytes` and `Tree.text` render a tree, `Tree.size` and `Tree.depth` measure
it, `Tree.asReadOnly` and `Tree.stripNestedParties` change the marks of a whole tree.

Functions on trees come in pairs, one for a tree and one for a list of trees; the function on lists
always is the function on trees applied to each.
-/

namespace GrammarFuzzing

/-- **A derivation tree.** -/
structure Tree where
  symbol : Symbol
  children : List Tree := []
  sources : List Tree := []
  sender : Option String := none
  recipient : Option String := none
  readOnly : Bool := false

instance : Inhabited Tree := ⟨⟨.slice, [], [], none, none, false⟩⟩

namespace Tree

/-- A leaf. -/
def leaf (value : Literal) : Tree :=
  { symbol := .terminal value }

/-- A node without marks. -/
def branch (name : String) (children : List Tree) : Tree :=
  { symbol := .nonTerminal name, children := children }

/-- The tree as a message between two parties. -/
def withParty (t : Tree) (sender recipient : Option String) : Tree :=
  { t with sender := sender, recipient := recipient }

/-- The tree with the trees its value was computed from. -/
def withSources (t : Tree) (sources : List Tree) : Tree :=
  { t with sources := sources }

mutual

/-- **What a tree renders as**: its terminals from left to right. -/
def toBytes : Tree → Bytes
  | ⟨symbol, children, _, _, _, _⟩ => symbol.toBytes ++ listToBytes children

/-- What trees render as, one after the other. -/
def listToBytes : List Tree → Bytes
  | [] => []
  | t :: rest => t.toBytes ++ listToBytes rest

end

/-- What a tree renders as, read as text. -/
def text (t : Tree) : String :=
  Utf8.decodeLossy t.toBytes

mutual

/-- The number of nodes. -/
def size : Tree → Nat
  | ⟨_, children, _, _, _, _⟩ => 1 + listSize children

/-- The number of nodes of several trees. -/
def listSize : List Tree → Nat
  | [] => 0
  | t :: rest => t.size + listSize rest

end

mutual

/-- The number of nodes on a longest way down. -/
def depth : Tree → Nat
  | ⟨_, children, _, _, _, _⟩ => 1 + listDepth children

/-- The depth of the deepest of several trees. -/
def listDepth : List Tree → Nat
  | [] => 0
  | t :: rest => max t.depth (listDepth rest)

end

mutual

/-- Whether some terminal holds bytes rather than text. -/
def containsBytes : Tree → Bool
  | ⟨symbol, children, _, _, _, _⟩ =>
    (match symbol with
      | .terminal l => l.isBytes
      | _ => false) || listContainsBytes children

/-- Whether one of several trees contains bytes. -/
def listContainsBytes : List Tree → Bool
  | [] => false
  | t :: rest => t.containsBytes || listContainsBytes rest

end

mutual

/-- How many nodes carry a symbol. -/
def count (s : Symbol) : Tree → Nat
  | ⟨symbol, children, _, _, _, _⟩ => (if symbol = s then 1 else 0) + listCount s children

/-- How many nodes of several trees carry a symbol. -/
def listCount (s : Symbol) : List Tree → Nat
  | [] => 0
  | t :: rest => t.count s + listCount s rest

end

mutual

/-- **The tree with every node marked as read-only.** Sources stay as they are. -/
def asReadOnly : Tree → Tree
  | ⟨symbol, children, sources, sender, recipient, _⟩ =>
    ⟨symbol, listAsReadOnly children, sources, sender, recipient, true⟩

/-- Several trees with every node marked as read-only. -/
def listAsReadOnly : List Tree → List Tree
  | [] => []
  | t :: rest => t.asReadOnly :: listAsReadOnly rest

end

mutual

/-- The tree without parties below its outermost messages, or without any when it lies `inside` a
message already. -/
def stripParties (inside : Bool) : Tree → Tree
  | ⟨symbol, children, sources, sender, recipient, readOnly⟩ =>
    ⟨symbol, listStripParties (inside || sender.isSome) children, sources,
      if inside then none else sender, if inside then none else recipient, readOnly⟩

/-- Several trees without parties below their outermost messages. -/
def listStripParties (inside : Bool) : List Tree → List Tree
  | [] => []
  | t :: rest => t.stripParties inside :: listStripParties inside rest

end

/-- **The tree with parties on its outermost messages only.** -/
def stripNestedParties (t : Tree) : Tree :=
  t.stripParties false

end Tree

end GrammarFuzzing
