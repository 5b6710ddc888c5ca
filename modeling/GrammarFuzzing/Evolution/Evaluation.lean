import GrammarFuzzing.Constraint.Basic

/-!
# Scoring a population

A `GrammarFuzzing.Evaluator` holds the constraints of a run: the **hard** ones, which a solution
must meet, and the **soft** ones, which name quantities to optimise. It scores a tree in two parts:

* the mean fitness over the hard constraints, where one that is met counts as one;
* once all of them are met, the quantities, each scaled to the unit interval by the range of values
  seen so far.

Trees are scored in batches: the ranges take in the whole batch before any tree of it is scaled, so
the order within a batch does not matter.
-/

namespace GrammarFuzzing

/-- The smallest and the greatest value seen, if any was. -/
abbrev ValueRange (α : Type) := Option (α × α)

namespace ValueRange

variable {α : Type} [Scalar α]

/-- The range with one more value. Infinities and what is no number are not seen. -/
def observe (r : ValueRange α) (value : α) : ValueRange α :=
  if !Scalar.isFinite value then r
  else
    match r with
    | none => some (value, value)
    | some (lo, hi) => some (Scalar.min lo value, Scalar.max hi value)

/-- The place of a value in the range, between zero and one. While the range is a point it says
nothing, and every value is in the middle. -/
def place (r : ValueRange α) (value : α) : α :=
  match r with
  | some (lo, hi) =>
    if Scalar.lt lo hi then Scalar.clamp01 ((value - lo) / (hi - lo)) else Scalar.ratio 1 2
  | none => Scalar.ratio 1 2

/-- **How good a value is**, between zero and one. No value is the worst, whatever the goal. -/
def scale (r : ValueRange α) (value : Option α) (goal : Goodness) : α :=
  match value with
  | none => Scalar.ofNat 0
  | some value =>
    if !Scalar.isFinite value then Scalar.ofNat 0
    else
      match goal with
      | .maximize => r.place value
      | .minimize => Scalar.ofNat 1 - r.place value

end ValueRange

/-- **The score of a tree.** -/
structure Evaluation (α : Type) where
  /-- The blended score, between zero and one. -/
  fitness : α
  /-- The mean over the hard constraints. -/
  hardFitness : α
  /-- Whether all hard constraints are met. -/
  success : Bool
  /-- The nodes to blame for those that are not. -/
  failing : List FailingTree
  /-- The mean of each quantity, if it has a value. -/
  softValues : List (Option α)

/-- What a tree is worth before it is compared with others. -/
structure RawScore (α : Type) where
  hardFitness : α
  success : Bool
  failing : List FailingTree
  softValues : List (Option α)

/-- **The constraints of a run**, and the range of values of each soft one. -/
structure Evaluator (α : Type) where
  hard : List Constraint
  soft : List Constraint
  ranges : List (ValueRange α)

namespace Evaluator

variable {α : Type} [Scalar α]

/-- The evaluator of constraints, which has seen no values. -/
def ofConstraints (cs : List Constraint) : Evaluator α :=
  let soft := cs.filter Constraint.isSoft
  ⟨cs.filter fun c => !c.isSoft, soft, soft.map fun _ => none⟩

/-- All constraints in words, the hard ones first. -/
def describe (e : Evaluator α) : List String :=
  (e.hard ++ e.soft).map Constraint.describe

/-- The fitness of one hard constraint; one that is met counts as one. -/
def hardScore (f : Fitness) : α :=
  if f.success then Scalar.ofNat 1 else f.score

/-- The mean of a quantity on a tree. -/
def softValue? : Fitness → Option α
  | .values v => v.mean?
  | .clauses c => some c.fitness

/-- **The raw score of a tree**, which no other tree has a part in. -/
def rawScore (e : Evaluator α) (t : Tree) : RawScore α :=
  let fs := e.hard.map fun c => c.evaluate t
  let total := fs.foldl (fun sum f => sum + hardScore f) (Scalar.ofNat 0)
  { hardFitness := if fs.isEmpty then Scalar.ofNat 1 else total / Scalar.ofNat fs.length
    success := fs.all Fitness.success
    failing := (fs.filter fun f => !f.success).flatMap Fitness.failing
    softValues := e.soft.map fun c => softValue? (c.evaluate t) }

/-- The ranges with the values of one more tree. -/
def observe (ranges : List (ValueRange α)) (values : List (Option α)) : List (ValueRange α) :=
  match ranges, values with
  | r :: ranges, some v :: values => r.observe v :: observe ranges values
  | r :: ranges, none :: values => r :: observe ranges values
  | ranges, _ => ranges

/-- How good each value is. -/
def scaled (e : Evaluator α) (values : List (Option α)) : List α :=
  ((e.soft.zip e.ranges).zip values).map fun ((c, r), v) => r.scale v (c.goal?.getD .maximize)

/-- **How good the values of the soft constraints are** on the whole, zero without soft constraints.
It moves as long as the ranges do. -/
def softScore (e : Evaluator α) (values : List (Option α)) : α :=
  if e.soft.isEmpty then Scalar.ofNat 0
  else Scalar.sum (e.scaled values) / Scalar.ofNat e.soft.length

/-- The blended score: the quantities have a part in it only when all hard constraints are met. -/
def blend (e : Evaluator α) (s : RawScore α) : Evaluation α :=
  let hardCount : α := Scalar.ofNat e.hard.length
  let softCount : α := Scalar.ofNat e.soft.length
  let fitness :=
    if e.soft.isEmpty then s.hardFitness
    else if s.success then
      (s.hardFitness * hardCount + e.softScore s.softValues * softCount) / (hardCount + softCount)
    else s.hardFitness * hardCount / (hardCount + softCount)
  ⟨fitness, s.hardFitness, s.success, s.failing, s.softValues⟩

/-- **Scores a batch of trees**, in order, after its values were taken into the ranges. -/
def evaluateAll (e : Evaluator α) (ts : List Tree) : List (Evaluation α) × Evaluator α :=
  let raw := ts.map e.rawScore
  let e := { e with ranges := raw.foldl (fun rs s => observe rs s.softValues) e.ranges }
  (raw.map e.blend, e)

/-- Scores one tree as a batch of its own. -/
def evaluate (e : Evaluator α) (t : Tree) : Evaluation α × Evaluator α :=
  let s := e.rawScore t
  let e := { e with ranges := observe e.ranges s.softValues }
  (e.blend s, e)

end Evaluator

end GrammarFuzzing
