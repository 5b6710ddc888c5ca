/-!
# Bytes and text

Everything the library renders is a sequence of bytes; text is read out of it as UTF-8.

* `GrammarFuzzing.Utf8.encode` – the bytes of a text;
* `GrammarFuzzing.Utf8.decode?` – the text of bytes that are well-formed UTF-8;
* `GrammarFuzzing.Utf8.decodeLossy` – the text of any bytes, with one replacement character for each
  **maximal ill-formed part**: the longest run that could still have become a character.

Both readers run the same machine, `GrammarFuzzing.Utf8.feed`, which takes one byte at a time and
knows how many continuation bytes are owed and in which range the next one must lie. The range is
what refuses overlong forms, surrogates and code points beyond the last one.
-/

namespace GrammarFuzzing

/-- A sequence of bytes. -/
abbrev Bytes := List UInt8

namespace Utf8

/-- The bytes of a text. -/
def encode (s : String) : Bytes :=
  s.toList.flatMap String.utf8EncodeChar

/-- Where the machine stands between two bytes. -/
inductive State
  /-- Between characters. -/
  | idle
  /-- Inside a character: the bits read so far, how many continuation bytes are owed after the next
  one, and the least and greatest value the next one may have. -/
  | inside (bits owed lo hi : Nat)

/-- What one byte does to the machine. -/
inductive Step
  /-- More bytes are needed. -/
  | wait (next : State)
  /-- The byte completes a character. -/
  | emit (c : Char)
  /-- The byte cannot stand here. -/
  | reject

/-- The machine on the first byte of a character. -/
def lead (b : Nat) : Step :=
  if b < 0x80 then .emit (Char.ofNat b)
  else if b < 0xc2 then .reject
  else if b < 0xe0 then .wait (.inside (b - 0xc0) 0 0x80 0xbf)
  else if b = 0xe0 then .wait (.inside 0 1 0xa0 0xbf)
  else if b = 0xed then .wait (.inside 0xd 1 0x80 0x9f)
  else if b < 0xf0 then .wait (.inside (b - 0xe0) 1 0x80 0xbf)
  else if b = 0xf0 then .wait (.inside 0 2 0x90 0xbf)
  else if b < 0xf4 then .wait (.inside (b - 0xf0) 2 0x80 0xbf)
  else if b = 0xf4 then .wait (.inside 4 2 0x80 0x8f)
  else .reject

/-- **One step of the machine.** -/
def feed : State → UInt8 → Step
  | .idle, b => lead b.toNat
  | .inside bits owed lo hi, b =>
    if lo ≤ b.toNat && b.toNat ≤ hi then
      let bits := bits * 64 + (b.toNat - 0x80)
      match owed with
      | 0 => .emit (Char.ofNat bits)
      | owed + 1 => .wait (.inside bits owed 0x80 0xbf)
    else .reject

/-- The characters of well-formed bytes, from a state of the machine on. -/
def charsFrom? : State → Bytes → Option (List Char)
  | .idle, [] => some []
  | .inside .., [] => none
  | s, b :: rest =>
    match feed s b with
    | .wait s => charsFrom? s rest
    | .emit c => (charsFrom? .idle rest).map (c :: ·)
    | .reject => none

/-- The text of well-formed bytes; `none` where they are not well-formed. -/
def decode? (bytes : Bytes) : Option String :=
  (charsFrom? .idle bytes).map String.ofList

/-- What stands for an ill-formed part. -/
def replacement : Char := '\ufffd'

/-- The characters of any bytes, from a state of the machine on. A byte that cannot continue a
character ends the ill-formed part before it and is read again as a first byte. -/
def charsLossyFrom : State → Bytes → List Char
  | .idle, [] => []
  | .inside .., [] => [replacement]
  | s, b :: rest =>
    match feed s b, s with
    | .wait s, _ => charsLossyFrom s rest
    | .emit c, _ => c :: charsLossyFrom .idle rest
    | .reject, .idle => replacement :: charsLossyFrom .idle rest
    | .reject, .inside .. =>
      match lead b.toNat with
      | .wait s => replacement :: charsLossyFrom s rest
      | .emit c => replacement :: c :: charsLossyFrom .idle rest
      | .reject => replacement :: replacement :: charsLossyFrom .idle rest

/-- **The text of any bytes**, with a replacement character for each maximal ill-formed part. -/
def decodeLossy (bytes : Bytes) : String :=
  String.ofList (charsLossyFrom .idle bytes)

end Utf8

end GrammarFuzzing
