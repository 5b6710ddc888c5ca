import GrammarFuzzing.Number.Scalar
import GrammarFuzzing.Random.Source

/-!
# Random choices

The choices the library makes, each by a fixed rule on the words of the source, so that a seed
determines a run:

* `GrammarFuzzing.Draw.below` – a number below a bound, by multiplying a word with the bound and
  keeping the high half; a second word corrects most of the bias. A bound that does not fit into a
  word is multiplied with as many words as it takes up;
* `GrammarFuzzing.Draw.between` – a number between two inclusive bounds;
* `GrammarFuzzing.Draw.bool`, `.chance` – true with a probability;
* `GrammarFuzzing.Draw.pick?` – an element of a list;
* `GrammarFuzzing.Draw.weighted?` – an index, with given weights;
* `GrammarFuzzing.Draw.sample` – several different indices.
-/

namespace GrammarFuzzing.Draw

/-- Several words as one number; the first word is the lowest part. -/
def words : Nat → Draw Nat
  | 0 => return 0
  | k + 1 => do
    let low ← word
    return low.toNat + Nat.pow 2 32 * (← words k)

/-- The number of words that a number takes up. -/
def wordCount (n : Nat) : Nat :=
  Nat.log2 n / 32 + 1

/-- A number below `bound`, from numbers of `k` words. Words are used up even if there is only one
such number. -/
def scaled (k bound : Nat) : Draw Nat := do
  let span := Nat.pow 2 (32 * k)
  let m := (← words k) * bound
  let high := m / span
  let low := m % span
  if low > span - bound then
    let m := (← words k) * bound
    return if low + m / span ≥ span then high + 1 else high
  return high

/-- **A number below `bound`**, from as many words as the bound takes up. -/
def below (bound : Nat) : Draw Nat :=
  scaled (wordCount bound) bound

/-- A number from `low` to `high`, both included, from as many words as `high` takes up. -/
def between (low high : Nat) : Draw Nat := do
  return low + (← scaled (wordCount high) (high - low + 1))

/-- **True with probability `p`.** Certainty draws nothing. -/
def bool (p : Float) : Draw Bool := do
  if p == 1.0 then return true
  let limit := (p * 18446744073709551616.0).toUInt64
  return (← doubleWord) < limit

/-- True with probability `p`, where a value outside the unit interval means the nearer end. -/
def chance (p : Float) : Draw Bool :=
  bool (Scalar.clamp01 p)

/-- An element of a list; nothing is drawn for the empty one. -/
def pick? {α : Type} (xs : List α) : Draw (Option α) := do
  if xs.isEmpty then return none
  return xs[← below xs.length]?

/-- The running sums `w₀, w₀ + w₁, …` without the last one, after a first sum, and the total. -/
def runningSums {α : Type} [Scalar α] (total : α) : List α → List α × α
  | [] => ([], total)
  | w :: rest =>
    let (sums, last) := runningSums (total + w) rest
    (total :: sums, last)

/-- The running sums and the total of weights that can be drawn from: at least one weight, none
negative or no number, and the total above zero. -/
def cumulative? {α : Type} [Scalar α] (weights : List α) : Option (List α × α) :=
  match weights with
  | [] => none
  | w :: rest =>
    if weights.any fun w => Scalar.lt w (Scalar.ofNat 0) || !Scalar.isNumber w then none
    else
      let (sums, total) := runningSums w rest
      if Scalar.lt (Scalar.ofNat 0) total then some (sums, total) else none

/-- **An index drawn by weight**; `none`, and no word used, for weights that cannot be drawn from.
A number of 52 bits scales the total, and the index is the number of running sums it reaches. -/
def weighted? {α : Type} [Scalar α] (weights : List α) : Draw (Option Nat) := do
  match cumulative? weights with
  | none => return none
  | some (sums, total) =>
    let bits := (← doubleWord).toNat / Nat.pow 2 12
    let x := Scalar.ratio bits (Nat.pow 2 52) * total + Scalar.ofNat 0
    return some (sums.takeWhile fun s => !Scalar.lt x s).length

/-- An index below `length`, uniformly; `none` if there is none. -/
def index? (length : Nat) : Draw (Option Nat) := do
  if length = 0 then return none
  return some (← below length)

/-- A step of Floyd's sample: an index below the next one or that itself is drawn, and where the
drawn one is already in the sample, the next one takes its place. -/
def floydStep (length amount : Nat) (chosen : List Nat) (k : Nat) : Draw (List Nat) := do
  let j := length - amount + k
  let t ← between 0 j
  let chosen := match chosen.idxOf? t with
    | some pos => chosen.set pos j
    | none => chosen
  return chosen ++ [t]

/-- Floyd's sample: a step for each of the last indices. -/
def sampleFloyd (length amount : Nat) : Draw (List Nat) :=
  (List.range amount).foldlM (floydStep length amount) []

/-- The front of a shuffle of all indices. -/
def sampleShuffled (length amount : Nat) : Draw (List Nat) := do
  let all ← (List.range amount).foldlM (fun (xs : Array Nat) i => do
    let j ← between i (length - 1)
    return xs.swapIfInBounds i j) (Array.range length)
  return all.toList.take amount

/-- Whether a sample is cheaper to take as the front of a shuffle. -/
def prefersShuffle (length amount : Nat) : Bool :=
  let a := Float32.ofNat amount
  let n := Float32.ofNat length
  if amount < 163 then amount > 11 && n < (10.0 + 1.6 * a) * a else n < 270.0 * a

/-- **Different indices below `length`**, so many as asked for. -/
def sample (length amount : Nat) : Draw (List Nat) :=
  if prefersShuffle length amount then sampleShuffled length amount else sampleFloyd length amount

end GrammarFuzzing.Draw
