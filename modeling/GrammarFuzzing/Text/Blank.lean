/-!
# Blank space

`GrammarFuzzing.trim` removes blank characters at both ends of a text. Blank means the Unicode
property *White_Space*, which is larger than the ASCII blanks.
-/

namespace GrammarFuzzing

/-- The characters with the property *White_Space*. -/
def isBlank (c : Char) : Bool :=
  let n := c.toNat
  (0x9 ≤ n && n ≤ 0xd) || n == 0x20 || n == 0x85 || n == 0xa0 || n == 0x1680 ||
    (0x2000 ≤ n && n ≤ 0x200a) || n == 0x2028 || n == 0x2029 || n == 0x202f || n == 0x205f ||
    n == 0x3000

/-- A text without the blanks at its two ends. -/
def trim (s : String) : String :=
  String.ofList (((s.toList.dropWhile isBlank).reverse.dropWhile isBlank).reverse)

end GrammarFuzzing
