import DecisionWalk.Text

/-!
# The MD5 digest

The message is padded to whole blocks of 64 bytes, and each block is mixed into
four words in 64 steps.
-/

set_option autoImplicit false

namespace DecisionWalk.Md5

def sines : Array UInt32 := #[
  0xd76aa478, 0xe8c7b756, 0x242070db, 0xc1bdceee, 0xf57c0faf, 0x4787c62a, 0xa8304613, 0xfd469501,
  0x698098d8, 0x8b44f7af, 0xffff5bb1, 0x895cd7be, 0x6b901122, 0xfd987193, 0xa679438e, 0x49b40821,
  0xf61e2562, 0xc040b340, 0x265e5a51, 0xe9b6c7aa, 0xd62f105d, 0x02441453, 0xd8a1e681, 0xe7d3fbc8,
  0x21e1cde6, 0xc33707d6, 0xf4d50d87, 0x455a14ed, 0xa9e3e905, 0xfcefa3f8, 0x676f02d9, 0x8d2a4c8a,
  0xfffa3942, 0x8771f681, 0x6d9d6122, 0xfde5380c, 0xa4beea44, 0x4bdecfa9, 0xf6bb4b60, 0xbebfbc70,
  0x289b7ec6, 0xeaa127fa, 0xd4ef3085, 0x04881d05, 0xd9d4d039, 0xe6db99e5, 0x1fa27cf8, 0xc4ac5665,
  0xf4292244, 0x432aff97, 0xab9423a7, 0xfc93a039, 0x655b59c3, 0x8f0ccc92, 0xffeff47d, 0x85845dd1,
  0x6fa87e4f, 0xfe2ce6e0, 0xa3014314, 0x4e0811a1, 0xf7537e82, 0xbd3af235, 0x2ad7d2bb, 0xeb86d391]

def turns : Array UInt32 := #[7, 12, 17, 22, 5, 9, 14, 20, 4, 11, 16, 23, 6, 10, 15, 21]

structure Words where
  (a b c d : UInt32)
  deriving DecidableEq, Repr

def start : Words := ⟨0x67452301, 0xefcdab89, 0x98badcfe, 0x10325476⟩

def select (w : Words) (i : Nat) : UInt32 × Nat :=
  if i < 16 then ((w.b &&& w.c) ||| (~~~w.b &&& w.d), i)
  else if i < 32 then ((w.d &&& w.b) ||| (~~~w.d &&& w.c), (5 * i + 1) % 16)
  else if i < 48 then (w.b ^^^ w.c ^^^ w.d, (3 * i + 5) % 16)
  else (w.c ^^^ (w.b ||| ~~~w.d), (7 * i) % 16)

def step (message : Array UInt32) (w : Words) (i : Nat) : Words :=
  let (f, g) := select w i
  let x := w.a + f + sines.getD i 0 + message.getD g 0
  let n := turns.getD (4 * (i / 16) + i % 4) 0
  ⟨w.d, w.b + ((x <<< n) ||| (x >>> (32 - n))), w.b, w.c⟩

def mixBlock (w : Words) (message : Array UInt32) : Words :=
  let v := (List.range 64).foldl (step message) w
  ⟨w.a + v.a, w.b + v.b, w.c + v.c, w.d + v.d⟩

def pad (message : Bytes) : Bytes :=
  let zeros := (119 - message.length % 64) % 64
  message ++ 0x80 :: List.replicate zeros 0 ++ leBytes 8 (8 * message.length)

def wordsOf (block : Bytes) : Array UInt32 :=
  ((List.range 16).map fun i => UInt32.ofNat (leValue ((block.drop (4 * i)).take 4))).toArray

def mixBlocks : Nat → Bytes → Words → Words
  | 0, _, w => w
  | n + 1, bytes, w => mixBlocks n (bytes.drop 64) (mixBlock w (wordsOf (bytes.take 64)))

def digest (message : Bytes) : Bytes :=
  let padded := pad message
  let w := mixBlocks (padded.length / 64) padded start
  [w.a, w.b, w.c, w.d].flatMap fun x => leBytes 4 x.toNat

def hexDigest (message : Bytes) : String := Text.hex (digest message)

end DecisionWalk.Md5
