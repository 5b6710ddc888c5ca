/-!
# The shortest decimal of a floating-point number

A binary floating-point number stands for an interval of real numbers, those that round to it.
This file finds the decimal with the **fewest digits** in that interval – of two such decimals the
nearer – and lays it out in the two forms the library writes.

* `GrammarFuzzing.Dyadic` – a number `m · 2 ^ q`;
* `GrammarFuzzing.Dyadic.shortest` – its shortest decimal, found by exact arithmetic on natural
  numbers: the grids `10 ^ k` are tried from the coarsest on, and on each grid only the two
  neighbours of the number can lie in the interval;
* `GrammarFuzzing.showFloat` – **plain** layout: never an exponent, and no point on whole numbers;
* `GrammarFuzzing.showFloatJson` – **JSON** layout: a point always, and an exponent outside
  `10 ^ -5 ≤ |x| < 10 ^ 16`.
-/

namespace GrammarFuzzing

/-- The number `mantissa · 2 ^ exponent`. The gap below it is half the gap above it when `narrow`
holds, as at a power of two. -/
structure Dyadic where
  mantissa : Nat
  exponent : Int
  narrow : Bool

/-- The number `digits · 10 ^ exponent`. -/
structure Decimal where
  digits : Nat
  exponent : Int

namespace Dyadic

/-- The comparison of `a · 10 ^ k` with `b · 2 ^ e`. -/
def compareScaled (a : Nat) (k : Int) (b : Nat) (e : Int) : Ordering :=
  compare (a * Nat.pow 10 k.toNat * Nat.pow 2 (-e).toNat)
    (b * Nat.pow 2 e.toNat * Nat.pow 10 (-k).toNat)

/-- Whether `d · 10 ^ k` rounds to the number. The two ends of the interval do exactly when the
mantissa is even. -/
def rounds (x : Dyadic) (d : Nat) (k : Int) : Bool :=
  let low := if x.narrow then 4 * x.mantissa - 1 else 4 * x.mantissa - 2
  let high := 4 * x.mantissa + 2
  let below := compareScaled d k low (x.exponent - 2)
  let above := compareScaled d k high (x.exponent - 2)
  if x.mantissa % 2 = 0 then below != .lt && above != .gt else below == .gt && above == .lt

/-- The greatest `d` with `d · 10 ^ k` at most the number. -/
def floorAt (x : Dyadic) (k : Int) : Nat :=
  x.mantissa * Nat.pow 2 x.exponent.toNat * Nat.pow 10 (-k).toNat /
    (Nat.pow 2 (-x.exponent).toNat * Nat.pow 10 k.toNat)

/-- Whether the point `d · 10 ^ k` just below the number is no farther from it than the next one:
twice the number is at most `(2 · d + 1) · 10 ^ k`. -/
def lowerNearer (x : Dyadic) (d : Nat) (k : Int) : Bool :=
  compareScaled (2 * d + 1) k (2 * x.mantissa) x.exponent != .lt

/-- The first grid, from `10 ^ k` on downwards, with a point in the interval, and that point. -/
def search (x : Dyadic) : Nat → Int → Decimal
  | 0, k => ⟨floorAt x k, k⟩
  | tries + 1, k =>
    let d := floorAt x k
    match rounds x d k && d != 0, rounds x (d + 1) k with
    | true, false => ⟨d, k⟩
    | false, true => ⟨d + 1, k⟩
    | true, true => if lowerNearer x d k then ⟨d, k⟩ else ⟨d + 1, k⟩
    | false, false => search x tries (k - 1)

/-- A power of ten that is at least the number: `30103 / 100000` is a little more than the
logarithm of two to base ten. -/
def startGrid (x : Dyadic) : Int :=
  let bits := (x.mantissa.log2 : Int) + 1 + x.exponent
  (bits * 30103).fdiv 100000 + 1

/-- **The shortest decimal** in the interval of a number other than zero. -/
def shortest (x : Dyadic) : Decimal :=
  search x 40 (startGrid x)

end Dyadic

namespace Decimal

/-- The same number without trailing zeros among the digits. -/
def dropZeros : Nat → Decimal → Decimal
  | 0, x => x
  | tries + 1, x =>
    if x.digits % 10 = 0 && x.digits != 0 then dropZeros tries ⟨x.digits / 10, x.exponent + 1⟩
    else x

/-- So many zeros. -/
def zeros (n : Nat) : List Char :=
  List.replicate n '0'

/-- The layout without an exponent. A whole number is followed by `whole`. -/
def positional (x : Decimal) (whole : String) : String :=
  let ds := (Nat.toDigits 10 x.digits)
  let point := ds.length + x.exponent
  if 0 ≤ x.exponent then String.ofList (ds ++ zeros x.exponent.toNat) ++ whole
  else if 0 < point then
    String.ofList (ds.take point.toNat ++ '.' :: ds.drop point.toNat)
  else String.ofList ('0' :: '.' :: zeros (-point).toNat ++ ds)

/-- The layout with one digit before the point and a signed exponent. -/
def scientific (x : Decimal) : String :=
  let ds := Nat.toDigits 10 x.digits
  let e : Int := ds.length + x.exponent - 1
  let mantissa := if ds.length ≤ 1 then ds else ds.take 1 ++ '.' :: ds.drop 1
  String.ofList mantissa ++ (if e < 0 then "e-" else "e+") ++ toString e.natAbs

end Decimal

/-- What the bits of a floating-point number mean. -/
inductive FloatClass
  | nan
  | infinite (negative : Bool)
  | zero (negative : Bool)
  | finite (negative : Bool) (magnitude : Dyadic)

/-- The meaning of the 64 bits: a sign, eleven bits of exponent, 52 bits of fraction. -/
def FloatClass.ofBits (bits : Nat) : FloatClass :=
  let negative : Bool := bits / Nat.pow 2 63 % 2 = 1
  let biased : Nat := bits / Nat.pow 2 52 % Nat.pow 2 11
  let fraction : Nat := bits % Nat.pow 2 52
  if biased = 2047 then if fraction = 0 then .infinite negative else .nan
  else if biased = 0 then
    if fraction = 0 then .zero negative else .finite negative ⟨fraction, -1074, false⟩
  else
    .finite negative
      ⟨Nat.pow 2 52 + fraction, (biased : Int) - 1075, fraction = 0 && biased != 1⟩

/-- The meaning of a floating-point number. -/
def FloatClass.of (x : Float) : FloatClass :=
  .ofBits x.toBits.toNat

/-- A minus sign, or nothing. -/
def signText (negative : Bool) : String :=
  if negative then "-" else ""

/-- The plain layout: the shortest digits, never an exponent, whole numbers without a point. -/
def showFloat (x : Float) : String :=
  match FloatClass.of x with
  | .nan => "NaN"
  | .infinite negative => signText negative ++ "inf"
  | .zero negative => signText negative ++ "0"
  | .finite negative m => signText negative ++ ((m.shortest.dropZeros 20).positional "")

/-- The JSON layout: the shortest digits, with an exponent for very small and very large numbers
and a point everywhere else. What is no number is written as `null`. -/
def showFloatJson (x : Float) : String :=
  match FloatClass.of x with
  | .nan | .infinite _ => "null"
  | .zero negative => signText negative ++ "0.0"
  | .finite negative m =>
    let d := m.shortest.dropZeros 20
    let magnitude := (Nat.toDigits 10 d.digits).length + d.exponent
    signText negative ++
      if -5 < magnitude && magnitude ≤ 16 then d.positional ".0" else d.scientific

end GrammarFuzzing
