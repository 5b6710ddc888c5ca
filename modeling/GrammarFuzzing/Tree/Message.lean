import GrammarFuzzing.Tree.Path

/-!
# The messages of a tree

A node with a sender is a **message**. Messages inside messages do not count: a tree is the sequence
of its outermost ones, `GrammarFuzzing.Tree.messages`.
-/

namespace GrammarFuzzing

/-- A message of a tree and where it stands. -/
structure TreeMessage where
  sender : String
  recipient : Option String
  symbol : Symbol
  payload : Bytes
  path : Path

namespace Tree

mutual

/-- **The outermost messages** of a tree, from left to right. -/
def messages : Tree → List TreeMessage
  | ⟨symbol, children, sources, sender, recipient, readOnly⟩ =>
    match sender with
    | some s =>
      let payload := toBytes ⟨symbol, children, sources, sender, recipient, readOnly⟩
      [⟨s, recipient, symbol, payload, []⟩]
    | none => listMessages 0 children

/-- The outermost messages of the children from index `i` on. -/
def listMessages (i : Nat) : List Tree → List TreeMessage
  | [] => []
  | t :: rest =>
    (t.messages.map fun m => { m with path := i :: m.path }) ++ listMessages (i + 1) rest

end

end Tree

end GrammarFuzzing
