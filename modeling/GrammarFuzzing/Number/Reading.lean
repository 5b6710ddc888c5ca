/-!
# Numbers in text

* `GrammarFuzzing.readInt64?` – an integer of 64 bits: an optional sign and decimal digits;
* `GrammarFuzzing.readFloat?` – a floating-point number: an optional sign, then a word for infinity
  or for no number in any case, or digits with an optional point and an optional exponent. The
  result is the float nearest to the decimal.
-/

namespace GrammarFuzzing

/-- The least integer of 64 bits. -/
def int64Min : Int := -(Nat.pow 2 63 : Int)

/-- The greatest integer of 64 bits. -/
def int64Max : Int := (Nat.pow 2 63 : Int) - 1

/-- The value of a decimal digit. -/
def decimalDigit? (c : Char) : Option Nat :=
  if '0' ≤ c && c ≤ '9' then some (c.toNat - '0'.toNat) else none

/-- The value of a run of decimal digits, continuing `acc`; `none` if a character is no digit. -/
def digitsValueFrom? (acc : Nat) : List Char → Option Nat
  | [] => some acc
  | c :: rest =>
    match decimalDigit? c with
    | some d => digitsValueFrom? (10 * acc + d) rest
    | none => none

/-- The value of a run of at least one decimal digit. -/
def digitsValue? : List Char → Option Nat
  | [] => none
  | cs => digitsValueFrom? 0 cs

/-- An optional sign and what follows it; `true` is minus. -/
def splitSign : List Char → Bool × List Char
  | '+' :: rest => (false, rest)
  | '-' :: rest => (true, rest)
  | cs => (false, cs)

/-- The integer that a text writes, if it fits into 64 bits. -/
def readInt64? (s : String) : Option Int :=
  let (negative, ds) := splitSign s.toList
  match digitsValue? ds with
  | none => none
  | some n =>
    let value : Int := if negative then -(n : Int) else n
    if int64Min ≤ value ∧ value ≤ int64Max then some value else none

/-- Lower case, within ASCII. -/
def lowerAscii (s : List Char) : List Char :=
  s.map Char.toLower

/-- The float nearest to `digits · 10 ^ exponent`. Exponents far outside the range of floats are
answered without computing the power. -/
def floatOfDecimal (digits : Nat) (exponent : Int) : Float :=
  let size : Int := (Nat.toDigits 10 digits).length + exponent
  if digits = 0 then 0.0
  else if size > 310 then 1.0 / 0.0
  else if size < -330 then 0.0
  else if 0 ≤ exponent then Float.ofScientific (digits * Nat.pow 10 exponent.toNat) false 0
  else Float.ofScientific digits true (-exponent).toNat

/-- The exponent after the digits: nothing, or a letter, an optional sign and digits. -/
def readExponent? : List Char → Option Int
  | [] => some 0
  | c :: rest =>
    if c = 'e' || c = 'E' then
      let (negative, ds) := splitSign rest
      (digitsValue? ds).map fun n => if negative then -(n : Int) else n
    else none

/-- The unsigned decimal numeral that the characters write. -/
def readDecimal? (cs : List Char) : Option Float :=
  let whole := cs.takeWhile Char.isDigit
  let rest := cs.dropWhile Char.isDigit
  let (fraction, rest) :=
    match rest with
    | '.' :: rest => (rest.takeWhile Char.isDigit, rest.dropWhile Char.isDigit)
    | rest => ([], rest)
  match digitsValue? (whole ++ fraction), readExponent? rest with
  | some n, some e => some (floatOfDecimal n (e - fraction.length))
  | _, _ => none

/-- **The floating-point number that a text writes.** -/
def readFloat? (s : String) : Option Float :=
  let (negative, cs) := splitSign s.toList
  let magnitude :=
    if lowerAscii cs = "inf".toList || lowerAscii cs = "infinity".toList then some (1.0 / 0.0)
    else if lowerAscii cs = "nan".toList then some (0.0 / 0.0)
    else readDecimal? cs
  magnitude.map fun x => if negative then -x else x

end GrammarFuzzing
