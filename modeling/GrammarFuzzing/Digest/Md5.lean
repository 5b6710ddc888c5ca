import GrammarFuzzing.Text.Utf8

/-!
# The MD5 digest

`GrammarFuzzing.Md5.digest` maps any bytes to sixteen bytes. The message is padded to whole blocks
of 64 bytes – one bit, zeros, and the length in bits – and each block stirs four 32-bit words in
64 steps.
-/

namespace GrammarFuzzing.Md5

/-- The four words that the blocks stir. -/
structure State where
  a : UInt32
  b : UInt32
  c : UInt32
  d : UInt32

/-- The state before the first block. -/
def State.start : State :=
  ⟨0x67452301, 0xefcdab89, 0x98badcfe, 0x10325476⟩

/-- The additive constant of each step: the first 32 bits of the fraction of a sine. -/
def constants : Array UInt32 := #[
  0xd76aa478, 0xe8c7b756, 0x242070db, 0xc1bdceee, 0xf57c0faf, 0x4787c62a, 0xa8304613, 0xfd469501,
  0x698098d8, 0x8b44f7af, 0xffff5bb1, 0x895cd7be, 0x6b901122, 0xfd987193, 0xa679438e, 0x49b40821,
  0xf61e2562, 0xc040b340, 0x265e5a51, 0xe9b6c7aa, 0xd62f105d, 0x02441453, 0xd8a1e681, 0xe7d3fbc8,
  0x21e1cde6, 0xc33707d6, 0xf4d50d87, 0x455a14ed, 0xa9e3e905, 0xfcefa3f8, 0x676f02d9, 0x8d2a4c8a,
  0xfffa3942, 0x8771f681, 0x6d9d6122, 0xfde5380c, 0xa4beea44, 0x4bdecfa9, 0xf6bb4b60, 0xbebfbc70,
  0x289b7ec6, 0xeaa127fa, 0xd4ef3085, 0x04881d05, 0xd9d4d039, 0xe6db99e5, 0x1fa27cf8, 0xc4ac5665,
  0xf4292244, 0x432aff97, 0xab9423a7, 0xfc93a039, 0x655b59c3, 0x8f0ccc92, 0xffeff47d, 0x85845dd1,
  0x6fa87e4f, 0xfe2ce6e0, 0xa3014314, 0x4e0811a1, 0xf7537e82, 0xbd3af235, 0x2ad7d2bb, 0xeb86d391]

/-- How far each step rotates: four amounts for each of the four rounds. -/
def turns : Array UInt32 := #[7, 12, 17, 22, 5, 9, 14, 20, 4, 11, 16, 23, 6, 10, 15, 21]

/-- A bit rotation to the left. -/
def rotate (x k : UInt32) : UInt32 :=
  (x <<< k) ||| (x >>> (32 - k))

/-- One of the 64 steps on a block of sixteen words. -/
def step (block : Array UInt32) (s : State) (i : Nat) : State :=
  let (f, word) :=
    match i / 16 with
    | 0 => ((s.b &&& s.c) ||| (~~~s.b &&& s.d), i)
    | 1 => ((s.d &&& s.b) ||| (~~~s.d &&& s.c), (5 * i + 1) % 16)
    | 2 => (s.b ^^^ s.c ^^^ s.d, (3 * i + 5) % 16)
    | _ => (s.c ^^^ (s.b ||| ~~~s.d), 7 * i % 16)
  let sum := s.a + f + constants.getD i 0 + block.getD word 0
  ⟨s.d, s.b + rotate sum (turns.getD (i / 16 * 4 + i % 4) 0), s.b, s.c⟩

/-- All steps on a block, added to the state they started from. -/
def stir (s : State) (block : Array UInt32) : State :=
  let t := (List.range 64).foldl (step block) s
  ⟨s.a + t.a, s.b + t.b, s.c + t.c, s.d + t.d⟩

/-- So many bytes of a number, the low one first. -/
def lowFirst : Nat → Nat → Bytes
  | 0, _ => []
  | k + 1, n => UInt8.ofNat n :: lowFirst k (n / 256)

/-- The message, a one bit, zeros, and the length in bits as eight bytes: whole blocks. -/
def pad (message : Bytes) : Bytes :=
  let n := message.length
  message ++ 0x80 :: List.replicate ((119 - n % 64) % 64) 0 ++ lowFirst 8 (8 * n)

/-- The words that four bytes each write, the low byte first. -/
def words : Bytes → List UInt32
  | a :: b :: c :: d :: rest =>
    (a.toUInt32 ||| (b.toUInt32 <<< 8) ||| (c.toUInt32 <<< 16) ||| (d.toUInt32 <<< 24)) ::
      words rest
  | _ => []

/-- Stirs so many blocks of sixteen words. -/
def stirAll : Nat → State → List UInt32 → State
  | 0, s, _ => s
  | blocks + 1, s, ws => stirAll blocks (stir s (ws.take 16).toArray) (ws.drop 16)

/-- **The digest** of a message. -/
def digest (message : Bytes) : Bytes :=
  let ws := words (pad message)
  let s := stirAll (ws.length / 16) .start ws
  [s.a, s.b, s.c, s.d].flatMap fun w => lowFirst 4 w.toNat

end GrammarFuzzing.Md5
