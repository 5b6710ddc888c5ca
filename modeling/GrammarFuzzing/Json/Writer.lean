import GrammarFuzzing.Json.Basic
import GrammarFuzzing.Text.Quoted

/-!
# Writing JSON

* `GrammarFuzzing.Json.compact` – without any space;
* `GrammarFuzzing.Json.pretty` – one item a line, two spaces for each level.

Both write only the escapes that JSON demands; every other character stands for itself.
-/

namespace GrammarFuzzing.Json

/-- One character of a string. -/
def escapeChar (c : Char) : String :=
  match c with
  | '"' => "\\\""
  | '\\' => "\\\\"
  | '\x08' => "\\b"
  | '\t' => "\\t"
  | '\n' => "\\n"
  | '\x0c' => "\\f"
  | '\r' => "\\r"
  | c =>
    if c.toNat < 0x10 then "\\u000" ++ hexDigits c.toNat
    else if c.toNat < 0x20 then "\\u00" ++ hexDigits c.toNat
    else c.toString

/-- A string between double quotes. -/
def escape (s : String) : String :=
  "\"" ++ String.join (s.toList.map escapeChar) ++ "\""

mutual

/-- **The compact form** of a value. -/
def compact : Json → String
  | .null => "null"
  | .bool true => "true"
  | .bool false => "false"
  | .int n => toString n
  | .float x => showFloatJson x
  | .string s => escape s
  | .array items => "[" ++ ",".intercalate (compactItems items) ++ "]"
  | .object members => "\x7b" ++ ",".intercalate (compactMembers members) ++ "\x7d"

/-- The compact forms of the items of an array. -/
def compactItems : List Json → List String
  | [] => []
  | x :: rest => compact x :: compactItems rest

/-- The compact forms of the members of an object. -/
def compactMembers : List (String × Json) → List String
  | [] => []
  | (name, x) :: rest => (escape name ++ ":" ++ compact x) :: compactMembers rest

end

/-- Lines between brackets, indented by one level more than the closing bracket. -/
def block (opening closing indent : String) (lines : List String) : String :=
  if lines.isEmpty then opening ++ closing
  else
    opening ++ "\n" ++ ",\n".intercalate (lines.map fun l => indent ++ "  " ++ l) ++ "\n" ++ indent
      ++ closing

mutual

/-- The indented form of a value whose line starts with the given blanks. -/
def prettyAt (indent : String) : Json → String
  | .array items => block "[" "]" indent (prettyItems (indent ++ "  ") items)
  | .object members => block "\x7b" "\x7d" indent (prettyMembers (indent ++ "  ") members)
  | x => compact x

/-- The indented forms of the items of an array. -/
def prettyItems (indent : String) : List Json → List String
  | [] => []
  | x :: rest => prettyAt indent x :: prettyItems indent rest

/-- The indented forms of the members of an object. -/
def prettyMembers (indent : String) : List (String × Json) → List String
  | [] => []
  | (name, x) :: rest => (escape name ++ ": " ++ prettyAt indent x) :: prettyMembers indent rest

end

/-- **The indented form** of a value. -/
def pretty (x : Json) : String :=
  prettyAt "" x

end GrammarFuzzing.Json
