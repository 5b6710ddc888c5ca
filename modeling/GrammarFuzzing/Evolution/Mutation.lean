import GrammarFuzzing.Evolution.Crossover
import GrammarFuzzing.Fuzz.Expand

/-!
# Mutation

A `GrammarFuzzing.SubtreeMutator` replaces one subtree of a tree by a fresh random expansion of its
symbol. It prefers nodes that are to blame. Terminals and read-only nodes are never replaced; the
nearest node above them that may be is replaced instead, at last the root.
-/

namespace GrammarFuzzing

/-- **A mutator**: the limits of fresh expansions, and how likely a node to blame is chosen. -/
structure SubtreeMutator where
  settings : FuzzSettings
  failingBias : Float := 0.9

namespace SubtreeMutator

/-- The paths to blame that still lead to the blamed symbol. -/
def livePaths (t : Tree) (failing : List FailingTree) : List Path :=
  (failing.filter fun f => (t.get? f.path).any fun n => n.symbol = f.symbol).map (·.path)

/-- The path of the node to mutate. -/
def pickTarget (m : SubtreeMutator) (t : Tree) (failing : List FailingTree) : Draw Path := do
  let live := livePaths t failing
  if !live.isEmpty then
    if ← Draw.chance m.failingBias then
      if let some p ← Draw.pick? live then return p
  return (← Draw.pick? t.nonTerminalPaths).getD []

/-- The longest part of a path that leads to a node which may be replaced; the root at last. -/
def writableAncestor (t : Tree) (path : Path) : Path :=
  let parts := ((List.range path.length).map fun i => path.take (i + 1)).reverse
  (parts.find? fun p => (t.get? p).any Tree.isWritable).getD []

/-- The tree with a fresh expansion at a path, within the budget that the rest of it leaves. -/
def regenerate (m : SubtreeMutator) (g : Grammar) (t : Tree) (path : Path) :
    Attempt GrammarError Tree := do
  match t.get? path with
  | none => return t
  | some old =>
    match old.symbol.name? with
    | none => return t
    | some name =>
      let budget := Nat.max (m.settings.maxNodes - (t.size - old.size)) 1
      let fresh ← (Fuzzer.mk g m.settings).fuzzSymbol name budget
      match t.replace path fresh with
      | .ok t => return t.stripNestedParties
      | .error e => throw e

/-- **A mutated copy of a tree.** Nodes to blame that are no longer there are overlooked. -/
def mutate (m : SubtreeMutator) (g : Grammar) (t : Tree) (failing : List FailingTree) :
    Attempt GrammarError Tree := do
  let target ← Attempt.lift (m.pickTarget t failing)
  m.regenerate g t (writableAncestor t target)

end SubtreeMutator

end GrammarFuzzing
