import GrammarFuzzing.Number.Decimal

/-!
# The numbers that scores are made of

Fitness, energies, rates and coverage are computed with floating-point numbers, but what they are
*meant* to be is ordinary arithmetic. Every such computation of the library is therefore written
once, over any type of **scalars**, and can be run with floats and reasoned about with rationals.

* `GrammarFuzzing.Scalar` – the operations the computations use;
* `GrammarFuzzing.Scalar.sum`, `.clamp01`, `.pow` – what is built from them;
* the instance on `Float`.
-/

namespace GrammarFuzzing

/-- **Scalars**: a type with the arithmetic, the order and the constants that scoring uses. -/
class Scalar (α : Type) extends Add α, Sub α, Mul α, Div α where
  /-- A count as a scalar. -/
  ofNat : Nat → α
  /-- A measured value as a scalar. -/
  ofFloat : Float → α
  /-- What a sum starts from; adding to it changes nothing. -/
  sumStart : α
  /-- Strictly less. -/
  lt : α → α → Bool
  /-- Whether the value is a number, and not an infinite one. -/
  isFinite : α → Bool
  /-- Whether the value is a number at all. -/
  isNumber : α → Bool

namespace Scalar

variable {α : Type} [Scalar α]

/-- The scalar `a / b`. -/
def ratio (a b : Nat) : α :=
  ofNat a / ofNat b

/-- The greater of two scalars; one that is no number is ignored. -/
def max (a b : α) : α :=
  if !isNumber a then b else if lt a b then b else a

/-- The smaller of two scalars; one that is no number is ignored. -/
def min (a b : α) : α :=
  if !isNumber a then b else if lt b a then b else a

/-- The nearest scalar between zero and one. -/
def clamp01 (a : α) : α :=
  if lt a (ofNat 0) then ofNat 0 else if lt (ofNat 1) a then ofNat 1 else a

/-- The sum of a list, from left to right. -/
def sum (xs : List α) : α :=
  xs.foldl (· + ·) sumStart

/-- A power, by repeated multiplication. -/
def pow (a : α) : Nat → α
  | 0 => ofNat 1
  | n + 1 => pow a n * a

/-- The mean of a list; `none` for an empty one. -/
def mean? (xs : List α) : Option α :=
  if xs.isEmpty then none else some (sum xs / ofNat xs.length)

end Scalar

/-- Floating-point scalars. Minus zero is the value that every sum leaves as it is, minus zero
included. -/
instance : Scalar Float where
  ofNat := Float.ofNat
  ofFloat := id
  sumStart := -0.0
  lt a b := a < b
  isFinite := Float.isFinite
  isNumber a := !a.isNaN

/-- The position of a float in the total order of all floats: negative ones first, from the largest
magnitude on, then the positive ones. Minus zero comes before zero, and values that are no numbers
come at the two ends, by their sign. -/
def floatRank (x : Float) : Int :=
  let bits : Int := x.toBits.toNat
  if bits < Nat.pow 2 63 then bits else (Nat.pow 2 63 : Int) - 1 - bits

end GrammarFuzzing
