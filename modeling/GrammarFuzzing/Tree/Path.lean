import GrammarFuzzing.Grammar.Error
import GrammarFuzzing.Tree.Basic

/-!
# Nodes of a tree by their paths

* `GrammarFuzzing.Tree.get?` – the node at a path;
* `GrammarFuzzing.Tree.modify?`, `.replace` – the tree with another node there;
* `GrammarFuzzing.Tree.nodes` – all nodes with their paths, each node before its children;
* `GrammarFuzzing.Tree.findAll`, `.nonTerminalPaths` – the paths of some of them.
-/

namespace GrammarFuzzing.Tree

/-- **The node at a path.** -/
def get? : Tree → Path → Option Tree
  | t, [] => some t
  | t, i :: path =>
    match t.children[i]? with
    | some c => c.get? path
    | none => none

/-- The tree with the node at a path changed; `none` if there is no such node. -/
def modify? (f : Tree → Tree) : Tree → Path → Option Tree
  | t, [] => some (f t)
  | t, i :: path =>
    match t.children[i]? with
    | some c =>
      match c.modify? f path with
      | some c => some { t with children := t.children.set i c }
      | none => none
    | none => none

/-- **The tree with another subtree at a path.** The new subtree must carry the symbol of the old
one, so that the children of the node above stay derivable, and takes over its parties. -/
def replace (t : Tree) (path : Path) (new : Tree) : Except GrammarError Tree :=
  match t.get? path with
  | none => .error (.invalidTree path new.symbol.toSpec "no node at path")
  | some old =>
    if old.symbol ≠ new.symbol then
      .error (.invalidTree path new.symbol.toSpec ("slot holds " ++ old.symbol.toSpec))
    else
      match t.modify? (fun old => new.withParty old.sender old.recipient) path with
      | some t => .ok t
      | none => .error (.invalidTree path new.symbol.toSpec "no node at path")

mutual

/-- **All nodes with their paths**, each node before its children. -/
def nodes : Tree → List (Path × Tree)
  | ⟨symbol, children, sources, sender, recipient, readOnly⟩ =>
    ([], ⟨symbol, children, sources, sender, recipient, readOnly⟩) :: listNodes 0 children

/-- All nodes of the children from index `i` on. -/
def listNodes (i : Nat) : List Tree → List (Path × Tree)
  | [] => []
  | t :: rest => (t.nodes.map fun n => (i :: n.1, n.2)) ++ listNodes (i + 1) rest

end

/-- The paths of all nodes with a symbol. -/
def findAll (t : Tree) (s : Symbol) : List Path :=
  (t.nodes.filter fun n => n.2.symbol = s).map (·.1)

/-- The paths of all non-terminal nodes. -/
def nonTerminalPaths (t : Tree) : List Path :=
  (t.nodes.filter fun n => n.2.symbol.isNonTerminal).map (·.1)

end GrammarFuzzing.Tree
