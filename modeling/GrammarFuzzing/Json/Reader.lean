import GrammarFuzzing.Json.Basic
import GrammarFuzzing.Number.Reading

/-!
# Reading JSON

`GrammarFuzzing.Json.parse?` reads a whole text as one value. Each part of the grammar is a function
from the characters that are left to a value and what is left after it; `none` refuses the text.
Nesting is limited: a value may lie inside at most `depth` arrays and objects.

**Numbers** are read in floating-point arithmetic, which is not always the nearest float:
`GrammarFuzzing.Json.Number` holds as many leading digits as fit into 64 bits and multiplies or
divides once by the power of ten that is left.
-/

namespace GrammarFuzzing.Json

namespace Number

/-- The greatest value of the held digits. -/
def digitLimit : Nat := Nat.pow 2 64 - 1

/-- Appends digits to the held ones as long as they fit. The result is what is held, how many
digits were appended, and the digits left over. -/
def hold (held : Nat) : List Nat → Nat × Nat × List Nat
  | [] => (held, 0, [])
  | d :: rest =>
    if held * 10 + d ≤ digitLimit then
      let (held, count, surplus) := hold (held * 10 + d) rest
      (held, count + 1, surplus)
    else (held, 0, d :: rest)

/-- The power `10 ^ n` as a float. -/
def powerOfTen (n : Nat) : Float :=
  Float.ofScientific (Nat.pow 10 n) false 0

/-- The value `x · 10 ^ exponent`: one multiplication, or divisions by at most `10 ^ 308` each.
There is no value above the range of floats. -/
def scale (x : Float) (exponent : Int) : Option Float :=
  if 0 ≤ exponent then
    if exponent ≤ 308 then
      let y := x * powerOfTen exponent.toNat
      if y.isInf then none else some y
    else if x == 0.0 then some x else none
  else
    let n := (-exponent).toNat
    if n ≤ 308 then some (x / powerOfTen n)
    else if n ≤ 616 then some (x / powerOfTen 308 / powerOfTen (n - 308))
    else if n ≤ 924 then some (x / powerOfTen 308 / powerOfTen 308 / powerOfTen (n - 616))
    else some 0.0

/-- The greatest exponent that is read; a larger one is taken as unbounded. -/
def exponentLimit : Nat := Nat.pow 2 31 - 1

/-- The float that whole digits, fraction digits and an exponent write. -/
def toFloat (negative : Bool) (whole fraction : List Nat) (exponent : Option (Bool × Nat)) :
    Option Float :=
  let (held, _, surplus) := hold 0 whole
  let (held, count, _) := hold held fraction
  let point : Int := (surplus.length : Int) - count
  let magnitude :=
    match exponent with
    | none => scale (Float.ofNat held) point
    | some (down, e) =>
      if e ≤ exponentLimit then
        scale (Float.ofNat held) (if down then point - e else point + e)
      else if held ≠ 0 && !down then none else some 0.0
  magnitude.map fun x => if negative then -x else x

/-- The number that whole digits write, when there is neither fraction nor exponent. Minus zero and
what does not fit into 64 bits is not whole. -/
def ofWhole (negative : Bool) (whole : List Nat) : Option Json :=
  let n := whole.foldl (fun n d => 10 * n + d) 0
  if !negative && n ≤ digitLimit then some (.int n)
  else if negative && n ≠ 0 && n ≤ Nat.pow 2 63 then some (.int (-(n : Int)))
  else (toFloat negative whole [] none).map .float

end Number

/-- What is left after blanks. -/
def skipBlanks (cs : List Char) : List Char :=
  cs.dropWhile fun c => c == ' ' || c == '\t' || c == '\n' || c == '\r'

/-- The leading decimal digits. -/
def takeDigits (cs : List Char) : List Nat × List Char :=
  ((cs.takeWhile Char.isDigit).map fun c => c.toNat - '0'.toNat, cs.dropWhile Char.isDigit)

/-- The exponent of a number: whether it is negative, and its digits. -/
def readExponent? (cs : List Char) : Option (Option (Bool × Nat) × List Char) :=
  match cs with
  | c :: rest =>
    if c == 'e' || c == 'E' then
      let (negative, rest) := splitSign rest
      match takeDigits rest with
      | ([], _) => none
      | (ds, rest) => some (some (negative, ds.foldl (fun n d => 10 * n + d) 0), rest)
    else some (none, cs)
  | [] => some (none, [])

/-- A number after its sign. -/
def readNumber? (negative : Bool) (cs : List Char) : Option (Json × List Char) :=
  let (whole, rest) := takeDigits cs
  if whole.isEmpty || (whole.head? == some 0 && whole.length ≠ 1) then none
  else
    match rest with
    | '.' :: rest =>
      match takeDigits rest with
      | ([], _) => none
      | (fraction, rest) => do
        let (exponent, rest) ← readExponent? rest
        let x ← Number.toFloat negative whole fraction exponent
        some (.float x, rest)
    | rest => do
      let (exponent, rest) ← readExponent? rest
      match exponent with
      | none => some (← Number.ofWhole negative whole, rest)
      | some e => some (.float (← Number.toFloat negative whole [] (some e)), rest)

/-- The value of a hexadecimal digit. -/
def hexValue? (c : Char) : Option Nat :=
  if c.isDigit then some (c.toNat - '0'.toNat)
  else if 'a' ≤ c && c ≤ 'f' then some (c.toNat - 'a'.toNat + 10)
  else if 'A' ≤ c && c ≤ 'F' then some (c.toNat - 'A'.toNat + 10)
  else none

/-- Four hexadecimal digits. -/
def readHex4? : List Char → Option (Nat × List Char)
  | a :: b :: c :: d :: rest => do
    let a ← hexValue? a
    let b ← hexValue? b
    let c ← hexValue? c
    let d ← hexValue? d
    some (((a * 16 + b) * 16 + c) * 16 + d, rest)
  | _ => none

/-- The character after a backslash and `u`. A high surrogate must be followed by a low one. -/
def readUnicode? (cs : List Char) : Option (Char × List Char) := do
  let (high, rest) ← readHex4? cs
  if 0xd800 ≤ high && high ≤ 0xdbff then
    match rest with
    | '\\' :: 'u' :: rest =>
      let (low, rest) ← readHex4? rest
      if 0xdc00 ≤ low && low ≤ 0xdfff then
        some (Char.ofNat (0x10000 + (high - 0xd800) * 0x400 + (low - 0xdc00)), rest)
      else none
    | _ => none
  else if 0xdc00 ≤ high && high ≤ 0xdfff then none
  else some (Char.ofNat high, rest)

/-- The character that a backslash and this one stand for. -/
def simpleEscape? : Char → Option Char
  | '"' => some '"'
  | '\\' => some '\\'
  | '/' => some '/'
  | 'b' => some '\x08'
  | 'f' => some '\x0c'
  | 'n' => some '\n'
  | 'r' => some '\r'
  | 't' => some '\t'
  | _ => none

/-- The rest of a string after its opening quote. The number bounds how many characters are read. -/
def readString? : Nat → List Char → List Char → Option (String × List Char)
  | 0, _, _ => none
  | fuel + 1, done, cs =>
    match cs with
    | '"' :: rest => some (String.ofList done.reverse, rest)
    | '\\' :: 'u' :: rest => do
      let (c, rest) ← readUnicode? rest
      readString? fuel (c :: done) rest
    | '\\' :: c :: rest => do
      let c ← simpleEscape? c
      readString? fuel (c :: done) rest
    | c :: rest => if c.toNat < 0x20 then none else readString? fuel (c :: done) rest
    | [] => none

mutual

/-- A value at the front of the text, inside at most `depth` more arrays and objects. The first
number bounds the recursion. -/
def readValue? : Nat → Nat → List Char → Option (Json × List Char)
  | 0, _, _ => none
  | fuel + 1, depth, cs =>
    match skipBlanks cs with
    | 'n' :: 'u' :: 'l' :: 'l' :: rest => some (.null, rest)
    | 't' :: 'r' :: 'u' :: 'e' :: rest => some (.bool true, rest)
    | 'f' :: 'a' :: 'l' :: 's' :: 'e' :: rest => some (.bool false, rest)
    | '"' :: rest => do
      let (s, rest) ← readString? (rest.length + 1) [] rest
      some (.string s, rest)
    | '[' :: rest =>
      match depth with
      | 0 => none
      | depth + 1 =>
        match skipBlanks rest with
        | ']' :: rest => some (.array [], rest)
        | rest => do
          let (items, rest) ← readItems? fuel depth [] rest
          some (.array items, rest)
    | '\x7b' :: rest =>
      match depth with
      | 0 => none
      | depth + 1 =>
        match skipBlanks rest with
        | '\x7d' :: rest => some (.object [], rest)
        | rest => do
          let (members, rest) ← readMembers? fuel depth [] rest
          some (.object members, rest)
    | '-' :: rest => readNumber? true rest
    | rest => readNumber? false rest

/-- The items of an array after its opening bracket, at least one. -/
def readItems? : Nat → Nat → List Json → List Char → Option (List Json × List Char)
  | 0, _, _, _ => none
  | fuel + 1, depth, done, cs =>
    match readValue? fuel depth cs with
    | none => none
    | some (x, rest) =>
      match skipBlanks rest with
      | ',' :: rest => readItems? fuel depth (x :: done) rest
      | ']' :: rest => some ((x :: done).reverse, rest)
      | _ => none

/-- The members of an object after its opening brace, at least one. -/
def readMembers? : Nat → Nat → List (String × Json) → List Char →
    Option (List (String × Json) × List Char)
  | 0, _, _, _ => none
  | fuel + 1, depth, done, cs =>
    match skipBlanks cs with
    | '"' :: rest =>
      match readString? (rest.length + 1) [] rest with
      | none => none
      | some (name, rest) =>
        match skipBlanks rest with
        | ':' :: rest =>
          match readValue? fuel depth rest with
          | none => none
          | some (x, rest) =>
            match skipBlanks rest with
            | ',' :: rest => readMembers? fuel depth ((name, x) :: done) rest
            | '\x7d' :: rest => some (((name, x) :: done).reverse, rest)
            | _ => none
        | _ => none
    | _ => none

end

/-- **The value that a text writes**, with nothing but blanks around it. -/
def parse? (depth : Nat) (s : String) : Option Json :=
  let cs := s.toList
  match readValue? (2 * cs.length + 2) depth cs with
  | none => none
  | some (x, rest) => if (skipBlanks rest).isEmpty then some x else none

end GrammarFuzzing.Json
