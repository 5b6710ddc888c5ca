import GrammarFuzzing.Text.Hex
import GrammarFuzzing.Text.Quoted
import GrammarFuzzing.Json.Decode

/-!
# Symbols

What the nodes of a derivation tree carry:

* `GrammarFuzzing.Literal` – what a terminal renders as, either text or bytes;
* `GrammarFuzzing.Symbol` – a terminal, a non-terminal, or the **slice** marker, which has no
  content and never occurs in a grammar.

Names of non-terminals are kept bare. They are written between angle brackets, and wherever a name
is taken from outside one surrounding pair of brackets is accepted (`GrammarFuzzing.bareName`).
-/

namespace GrammarFuzzing

/-- What a terminal renders as. Text and bytes differ even where they render the same. -/
inductive Literal
  | text (value : String)
  | bytes (value : Bytes)
  deriving DecidableEq, Ord

/-- **A symbol** of a grammar or a tree. -/
inductive Symbol
  | terminal (value : Literal)
  | nonTerminal (name : String)
  | slice
  deriving DecidableEq, Ord

/-- A name without one surrounding pair of angle brackets. -/
def bareName (name : String) : String :=
  match name.toList with
  | '<' :: rest =>
    match rest.getLast? with
    | some '>' => String.ofList rest.dropLast
    | _ => name
  | _ => name

/-- A name between angle brackets. -/
def angled (name : String) : String :=
  "<" ++ name ++ ">"

namespace Literal

/-- What the terminal renders as. -/
def toBytes : Literal → Bytes
  | .text s => Utf8.encode s
  | .bytes b => b

/-- Whether these are bytes rather than text. -/
def isBytes : Literal → Bool
  | .text _ => false
  | .bytes _ => true

/-- The number of bytes. -/
def size (l : Literal) : Nat :=
  l.toBytes.length

/-- A byte inside quotes: visible ASCII as it is, anything else in hexadecimal. -/
def showByte (b : UInt8) : String :=
  if b = 0x22 then "\\\""
  else if b = 0x5c then "\\\\"
  else if 0x20 ≤ b ∧ b ≤ 0x7e then (Char.ofNat b.toNat).toString
  else "\\x" ++ String.ofList (Hex.pair b)

/-- The literal as a specification writes it: quoted text, or quoted bytes after a `b`. -/
def toSpec : Literal → String
  | .text s => quote s
  | .bytes b => "b\"" ++ String.join (b.map showByte) ++ "\""

/-- The literal as a JSON choice. -/
def toJson : Literal → Json
  | .text s => .object [("text", .string s)]
  | .bytes b => .object [("bytes", .ofNats (b.map UInt8.toNat))]

/-- Bytes out of an array of numbers. -/
def bytesOfJson? (x : Json) : Option Bytes :=
  x.list? fun b => (b.natBelow? 256).map UInt8.ofNat

/-- The literal that a JSON choice writes. -/
def ofJson? (x : Json) : Option Literal :=
  match x.tagged? with
  | some ("text", x) => x.string?.map .text
  | some ("bytes", x) => (bytesOfJson? x).map .bytes
  | _ => none

end Literal

namespace Symbol

/-- The non-terminal with a name from outside. -/
def named (name : String) : Symbol :=
  .nonTerminal (bareName name)

/-- Whether this is a terminal. -/
def isTerminal : Symbol → Bool
  | .terminal _ => true
  | _ => false

/-- Whether this is a non-terminal. -/
def isNonTerminal : Symbol → Bool
  | .nonTerminal _ => true
  | _ => false

/-- The bare name of a non-terminal. -/
def name? : Symbol → Option String
  | .nonTerminal name => some name
  | _ => none

/-- What a terminal renders as. -/
def literal? : Symbol → Option Literal
  | .terminal value => some value
  | _ => none

/-- What the symbol itself renders as: only terminals render. -/
def toBytes : Symbol → Bytes
  | .terminal value => value.toBytes
  | _ => []

/-- The symbol as a specification writes it. -/
def toSpec : Symbol → String
  | .terminal value => value.toSpec
  | .nonTerminal name => angled name
  | .slice => "<|slice|>"

/-- The symbol as a JSON choice. -/
def toJson : Symbol → Json
  | .terminal value => .object [("terminal", value.toJson)]
  | .nonTerminal name => .object [("non-terminal", .string name)]
  | .slice => .string "slice"

/-- The symbol that a JSON choice writes. -/
def ofJson? (x : Json) : Option Symbol :=
  match x with
  | .string "slice" => some .slice
  | x =>
    match x.tagged? with
    | some ("terminal", x) => (Literal.ofJson? x).map .terminal
    | some ("non-terminal", x) => x.string?.map .nonTerminal
    | some ("slice", .null) => some .slice
    | _ => none

end Symbol

end GrammarFuzzing
