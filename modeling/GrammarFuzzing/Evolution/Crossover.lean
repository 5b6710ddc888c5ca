import GrammarFuzzing.Constraint.Fitness
import GrammarFuzzing.Dictionary
import GrammarFuzzing.Random.Draw

/-!
# Crossover

`GrammarFuzzing.crossover` swaps two subtrees with the same symbol between two trees, so that both
results derive from every grammar that the parents derive from. Roots and read-only subtrees are
never swapped. Nodes to blame in the first parent are tried first.
-/

namespace GrammarFuzzing

/-- Whether a node may be replaced by another with its symbol. -/
def Tree.isWritable (t : Tree) : Bool :=
  t.symbol.isNonTerminal && !t.readOnly

/-- The paths below the root where a subtree may be swapped, by symbol. -/
def swapPoints (t : Tree) : Dictionary Symbol (List Path) :=
  (t.nodes.filter fun n => !n.1.isEmpty && n.2.isWritable).foldl
    (fun d n => d.put n.2.symbol ((d.find? n.2.symbol).getD [] ++ [n.1])) []

/-- The swap points of the first parent that are to blame and have a partner in the second. -/
def blamedPoints (a b : Dictionary Symbol (List Path)) (failing : List FailingTree) : List Path :=
  (failing.filter fun f =>
    f.symbol.isNonTerminal && b.has f.symbol &&
      ((a.find? f.symbol).getD []).contains f.path).map (·.path)

/-- All swap points of the first parent that have a partner in the second, by symbol. -/
def sharedPoints (a b : Dictionary Symbol (List Path)) : List Path :=
  (a.filter fun p => b.has p.1).flatMap (·.2)

/-- The two trees with the subtrees at two paths swapped. -/
def swapAt (a b : Tree) (pathA pathB : Path) : Option (Tree × Tree) := do
  let subA ← a.get? pathA
  let subB ← b.get? pathB
  let childA ← (a.replace pathA subB).toOption
  let childB ← (b.replace pathB subA).toOption
  return (childA.stripNestedParties, childB.stripNestedParties)

/-- **Two children of two parents**, or none when the parents share no symbol to swap. -/
def crossover (a b : Tree) (failing : List FailingTree) : Draw (Option (Tree × Tree)) := do
  let pointsA := swapPoints a
  let pointsB := swapPoints b
  let chosen ← match ← Draw.pick? (blamedPoints pointsA pointsB failing) with
    | some p => pure (some p)
    | none => Draw.pick? (sharedPoints pointsA pointsB)
  match chosen with
  | none => return none
  | some pathA =>
    match (a.get? pathA).bind fun n => pointsB.find? n.symbol with
    | none => return none
    | some partners =>
      match ← Draw.pick? partners with
      | none => return none
      | some pathB => return swapAt a b pathA pathB

end GrammarFuzzing
