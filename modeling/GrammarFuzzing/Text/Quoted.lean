import GrammarFuzzing.Text.Printable

/-!
# Quoted text

Specifications and error messages show a text between double quotes, with everything a reader could
not see written as an escape:

* `GrammarFuzzing.quote` – the quoted form of a text;
* `GrammarFuzzing.quoteList` – the same for a list of texts, in square brackets.
-/

namespace GrammarFuzzing

/-- A number in lower-case base sixteen, without leading zeros. -/
def hexDigits (n : Nat) : String :=
  String.ofList (Nat.toDigits 16 n)

/-- One character inside double quotes. The single quote needs no escape there. -/
def quoteChar (c : Char) : String :=
  match c with
  | '\x00' => "\\0"
  | '\t' => "\\t"
  | '\r' => "\\r"
  | '\n' => "\\n"
  | '"' => "\\\""
  | '\\' => "\\\\"
  | c => if isPlain c then c.toString else "\\u\x7b" ++ hexDigits c.toNat ++ "\x7d"

/-- **Quoted text**: the characters between double quotes, each escaped where it has to be. -/
def quote (s : String) : String :=
  "\"" ++ String.join (s.toList.map quoteChar) ++ "\""

/-- Texts between square brackets, separated by commas. -/
def bracketed (items : List String) : String :=
  "[" ++ ", ".intercalate items ++ "]"

/-- Quoted texts between square brackets. -/
def quoteList (items : List String) : String :=
  bracketed (items.map quote)

end GrammarFuzzing
