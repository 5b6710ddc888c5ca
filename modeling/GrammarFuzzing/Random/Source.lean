import GrammarFuzzing.Random.ChaCha

/-!
# Sources of random words

A `GrammarFuzzing.Source` is an unending stream of 32-bit words. Everything random in the library
is a computation in `GrammarFuzzing.Draw`, which threads one source: what a run does is a function
of its source, and a source of repeated words makes a run do anything that some source could.
-/

namespace GrammarFuzzing

/-- **A source of random words.** -/
inductive Source
  /-- The stream of a cipher. -/
  | chacha (stream : ChaCha)
  /-- A list of words repeated for ever, and what is left of the current repetition. -/
  | cycle (words left : List UInt32)

namespace Source

/-- The stream of a seed. -/
def ofSeed (seed : UInt64) : Source :=
  .chacha (.ofSeed seed)

/-- The stream of a key of 32 bytes. -/
def ofKey (key : List UInt8) : Source :=
  .chacha (.ofKey (ChaCha.wordsOfBytes key))

/-- The words repeated for ever; no words at all stand for zeros. -/
def ofWords (words : List UInt32) : Source :=
  .cycle words words

/-- The next word and the source after it. -/
def next : Source → UInt32 × Source
  | .chacha s => let (w, s) := s.next; (w, .chacha s)
  | .cycle words (w :: left) => (w, .cycle words left)
  | .cycle [] [] => (0, .cycle [] [])
  | .cycle (w :: rest) [] => (w, .cycle (w :: rest) rest)

end Source

/-- **A computation with randomness.** -/
abbrev Draw (α : Type) : Type :=
  StateM Source α

namespace Draw

/-- One word. -/
def word : Draw UInt32 :=
  fun s => s.next

/-- Two words as one number of 64 bits; the first word is the low half. -/
def doubleWord : Draw UInt64 := do
  let low ← word
  let high ← word
  return low.toUInt64 ||| (high.toUInt64 <<< 32)

end Draw

end GrammarFuzzing
