import GrammarFuzzing.Evolution.Evaluation
import GrammarFuzzing.Json.Writer
import GrammarFuzzing.Tree.Export
import GrammarFuzzing.Tree.Shape

/-!
# Solutions

A `GrammarFuzzing.Corpus` collects the **solutions** of a run: trees that met all hard constraints,
no two of the same shape, in the order in which they were found. `GrammarFuzzing.Corpus.ranked`
orders them by how good their quantities are, and `GrammarFuzzing.solutionFiles` lays them out as
files.
-/

namespace GrammarFuzzing

/-- **A tree that met all hard constraints**, the means of its quantities, and the generation in
which it was found. -/
structure Solution where
  tree : Tree
  softValues : List (Option Float)
  generation : Nat

/-- **Solutions** in the order in which they were found, and the digests of their shapes. -/
structure Corpus where
  entries : List Solution := []
  known : Std.HashSet Bytes := {}

namespace Corpus

/-- **Takes in a tree** if it met all hard constraints and its shape is new. -/
def add (c : Corpus) (t : Tree) (e : Evaluation Float) (generation : Nat) : Corpus :=
  let hash := t.shapeHash
  if !e.success || c.known.contains hash then c
  else ⟨c.entries ++ [⟨t, e.softValues, generation⟩], c.known.insert hash⟩

/-- **The solutions, best first**, at most so many. Equally good ones keep the order in which they
were found. -/
def ranked (c : Corpus) (e : Evaluator Float) (limit : Option Nat) : List Tree :=
  let scored := c.entries.map fun s => (floatRank (e.softScore s.softValues), s.tree)
  let sorted := (scored.mergeSort fun a b => b.1 ≤ a.1).map (·.2)
  match limit with
  | some n => sorted.take n
  | none => sorted

end Corpus

/-- The name of the files of a solution: its number with at least four digits. -/
def solutionName (i : Nat) : String :=
  let digits := toString i
  "solution_" ++ String.ofList (List.replicate (4 - digits.length) '0') ++ digits

/-- **The files of some solutions**: for each one what it renders as, and the tree as JSON. -/
def solutionFiles (ts : List Tree) : List (String × Bytes) :=
  ts.zipIdx.flatMap fun (t, i) =>
    [(solutionName i ++ ".bin", t.toBytes),
      (solutionName i ++ ".json", Utf8.encode t.toJson.pretty)]

end GrammarFuzzing
