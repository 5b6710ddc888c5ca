/-!
# The ChaCha stream of words

The ChaCha permutation with **eight rounds** and a 64-bit block counter, as a source of 32-bit
words: block `n` is the permuted state with the counter at `n`, added to the state itself, and the
stream is the sixteen words of block zero, of block one, and so on.

* `GrammarFuzzing.ChaCha.block` – one block of the stream;
* `GrammarFuzzing.ChaCha.next` – the next word, which computes a block when the last one is used up;
* `GrammarFuzzing.ChaCha.ofSeed` – the stream of a 64-bit seed: a linear congruential generator
  fills the key, with a permuted output word for each word of the key.
-/

namespace GrammarFuzzing

/-- A ChaCha stream: the eight words of the key, the number of the next block and the words of the
last one that are left. -/
structure ChaCha where
  key : List UInt32
  counter : UInt64
  left : List UInt32

namespace ChaCha

/-- A bit rotation to the left. -/
def rotateLeft (x k : UInt32) : UInt32 :=
  (x <<< k) ||| (x >>> (32 - k))

/-- The quarter round on four positions of the state. -/
def quarter (v : Vector UInt32 16) (a b c d : Fin 16) : Vector UInt32 16 :=
  let v := v.set a (v.get a + v.get b)
  let v := v.set d (rotateLeft (v.get d ^^^ v.get a) 16)
  let v := v.set c (v.get c + v.get d)
  let v := v.set b (rotateLeft (v.get b ^^^ v.get c) 12)
  let v := v.set a (v.get a + v.get b)
  let v := v.set d (rotateLeft (v.get d ^^^ v.get a) 8)
  let v := v.set c (v.get c + v.get d)
  v.set b (rotateLeft (v.get b ^^^ v.get c) 7)

/-- A round on the columns followed by a round on the diagonals. -/
def doubleRound (v : Vector UInt32 16) : Vector UInt32 16 :=
  let v := quarter v 0 4 8 12
  let v := quarter v 1 5 9 13
  let v := quarter v 2 6 10 14
  let v := quarter v 3 7 11 15
  let v := quarter v 0 5 10 15
  let v := quarter v 1 6 11 12
  let v := quarter v 2 7 8 13
  quarter v 3 4 9 14

/-- The state before the permutation: four constants, the key, the counter and two zeros. -/
def state (key : List UInt32) (counter : UInt64) : Vector UInt32 16 :=
  let words := ([0x61707865, 0x3320646e, 0x79622d32, 0x6b206574] : List UInt32) ++ key ++
    [counter.toUInt32, (counter >>> 32).toUInt32, 0, 0]
  Vector.ofFn fun i => words.getD i.val 0

/-- **One block of the stream**: four double rounds, added to the state they started from. -/
def block (key : List UInt32) (counter : UInt64) : List UInt32 :=
  let start := state key counter
  (Vector.zipWith (· + ·) (Nat.repeat doubleRound 4 start) start).toList

/-- The stream of a key, from its beginning. -/
def ofKey (key : List UInt32) : ChaCha :=
  ⟨key, 0, []⟩

/-- The next word. -/
def next (s : ChaCha) : UInt32 × ChaCha :=
  match s.left with
  | w :: rest => (w, { s with left := rest })
  | [] =>
    match block s.key s.counter with
    | w :: rest => (w, ⟨s.key, s.counter + 1, rest⟩)
    | [] => (0, s)

/-- The words that four bytes each write, the low byte first. -/
def wordsOfBytes : List UInt8 → List UInt32
  | a :: b :: c :: d :: rest =>
    (a.toUInt32 ||| (b.toUInt32 <<< 8) ||| (c.toUInt32 <<< 16) ||| (d.toUInt32 <<< 24)) ::
      wordsOfBytes rest
  | _ => []

/-- One step of the congruential generator that fills keys. -/
def seedStep (s : UInt64) : UInt64 :=
  s * 6364136223846793005 + 11634580027462260723

/-- The output word of a generator state: some of its bits, rotated by its five highest. -/
def seedWord (s : UInt64) : UInt32 :=
  let mixed := (((s >>> 18) ^^^ s) >>> 27).toUInt32
  let turn := (s >>> 59).toUInt32
  (mixed >>> turn) ||| (mixed <<< ((32 - turn) % 32))

/-- The first `n` words that fill a key. -/
def seedWords : Nat → UInt64 → List UInt32
  | 0, _ => []
  | n + 1, s => seedWord (seedStep s) :: seedWords n (seedStep s)

/-- **The stream of a seed.** -/
def ofSeed (seed : UInt64) : ChaCha :=
  ofKey (seedWords 8 seed)

end ChaCha

end GrammarFuzzing
