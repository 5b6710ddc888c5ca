import GrammarFuzzing.Text.Hex

/-!
# Bytes in ASCII

`GrammarFuzzing.escapeBytes` shows any bytes in printable ASCII characters alone. A byte that is one
stands for itself; the quotes and the backslash follow a backslash; three control characters have a
letter; all other bytes are written in base sixteen. So bytes can be told from what is shown.
-/

namespace GrammarFuzzing

/-- One byte. -/
def escapeByte (b : UInt8) : String :=
  if b = 0x09 then "\\t"
  else if b = 0x0a then "\\n"
  else if b = 0x0d then "\\r"
  else if b = 0x22 then "\\\""
  else if b = 0x27 then "\\'"
  else if b = 0x5c then "\\\\"
  else if 0x20 ≤ b ∧ b < 0x7f then (Char.ofNat b.toNat).toString
  else "\\x" ++ Hex.encode [b]

/-- **Bytes as printable text.** -/
def escapeBytes (bytes : Bytes) : String :=
  String.join (bytes.map escapeByte)

end GrammarFuzzing
