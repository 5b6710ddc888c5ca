import GrammarFuzzing.Digest.Md5
import GrammarFuzzing.Tree.Basic

/-!
# The shape of a tree

Two trees have the same **shape** if they carry the same symbols at the same places; parties,
sources and marks do not matter. `GrammarFuzzing.Tree.encodeShape` writes the shape as bytes that
can be read back – every text is preceded by its length, every list of children by its number – and
`GrammarFuzzing.Tree.shapeHash` is the digest of those bytes, by which trees are told apart.
-/

namespace GrammarFuzzing.Tree

/-- A number of 64 bits, the low byte first. -/
def encodeCount (n : Nat) : Bytes :=
  Md5.lowFirst 8 n

/-- Bytes preceded by their number. -/
def encodeSized (bytes : Bytes) : Bytes :=
  encodeCount bytes.length ++ bytes

/-- A symbol as bytes: a letter for its kind and its content. -/
def encodeSymbol : Symbol → Bytes
  | .terminal (.text s) => 0x54 :: encodeSized (Utf8.encode s)
  | .terminal (.bytes b) => 0x42 :: encodeSized b
  | .nonTerminal name => 0x4e :: encodeSized (Utf8.encode name)
  | .slice => [0x53]

mutual

/-- **The shape of a tree as bytes.** -/
def encodeShape : Tree → Bytes
  | ⟨symbol, children, _, _, _, _⟩ =>
    encodeSymbol symbol ++ encodeCount children.length ++ listEncodeShape children

/-- The shapes of several trees, one after the other. -/
def listEncodeShape : List Tree → Bytes
  | [] => []
  | t :: rest => t.encodeShape ++ listEncodeShape rest

end

/-- The digest of the shape. -/
def shapeHash (t : Tree) : Bytes :=
  Md5.digest t.encodeShape

end GrammarFuzzing.Tree
