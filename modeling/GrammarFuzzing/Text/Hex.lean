import GrammarFuzzing.Text.Utf8

/-!
# Bytes as pairs of hexadecimal digits
-/

namespace GrammarFuzzing.Hex

/-- The lower-case digit of a value below sixteen. -/
def digit (n : Nat) : Char :=
  if n < 10 then Char.ofNat (0x30 + n) else Char.ofNat (0x57 + n)

/-- The value of a digit of either case. -/
def digitValue? (c : Char) : Option Nat :=
  let n := c.toNat
  if 0x30 ≤ n && n ≤ 0x39 then some (n - 0x30)
  else if 0x61 ≤ n && n ≤ 0x66 then some (n - 0x57)
  else if 0x41 ≤ n && n ≤ 0x46 then some (n - 0x37)
  else none

/-- The two digits of a byte. -/
def pair (b : UInt8) : List Char :=
  [digit (b.toNat / 16), digit (b.toNat % 16)]

/-- Two lower-case digits for each byte. -/
def encode (bytes : Bytes) : String :=
  String.ofList (bytes.flatMap pair)

/-- The bytes that pairs of digits stand for. -/
def decodeChars? : List Char → Option Bytes
  | [] => some []
  | a :: b :: rest =>
    match digitValue? a, digitValue? b, decodeChars? rest with
    | some a, some b, some bytes => some (UInt8.ofNat (16 * a + b) :: bytes)
    | _, _, _ => none
  | [_] => none

/-- The bytes of a text of digits; `none` for an odd count or anything but digits. -/
def decode? (s : String) : Option Bytes :=
  decodeChars? s.toList

end GrammarFuzzing.Hex
