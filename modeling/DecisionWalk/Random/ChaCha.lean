import DecisionWalk.Random.Source

/-!
# The ChaCha stream with eight rounds

The key is expanded from a 64-bit seed. Blocks are numbered from zero, and the
words of all blocks form one endless sequence.
-/

set_option autoImplicit false

namespace DecisionWalk

namespace ChaCha

structure Block where
  (w0 w1 w2 w3 w4 w5 w6 w7 w8 w9 w10 w11 w12 w13 w14 w15 : UInt32)
  deriving DecidableEq, Repr

namespace Block

def toList (b : Block) : List UInt32 :=
  [b.w0, b.w1, b.w2, b.w3, b.w4, b.w5, b.w6, b.w7, b.w8, b.w9, b.w10, b.w11, b.w12, b.w13, b.w14,
    b.w15]

def add (a b : Block) : Block :=
  ⟨a.w0 + b.w0, a.w1 + b.w1, a.w2 + b.w2, a.w3 + b.w3, a.w4 + b.w4, a.w5 + b.w5, a.w6 + b.w6,
    a.w7 + b.w7, a.w8 + b.w8, a.w9 + b.w9, a.w10 + b.w10, a.w11 + b.w11, a.w12 + b.w12,
    a.w13 + b.w13, a.w14 + b.w14, a.w15 + b.w15⟩

end Block

@[inline] def rotateLeft (x : UInt32) (n : UInt32) : UInt32 := (x <<< n) ||| (x >>> (32 - n))

@[inline] def quarterRound (a b c d : UInt32) : UInt32 × UInt32 × UInt32 × UInt32 :=
  let a := a + b
  let d := rotateLeft (d ^^^ a) 16
  let c := c + d
  let b := rotateLeft (b ^^^ c) 12
  let a := a + b
  let d := rotateLeft (d ^^^ a) 8
  let c := c + d
  let b := rotateLeft (b ^^^ c) 7
  (a, b, c, d)

def doubleRound (b : Block) : Block :=
  let (x0, x4, x8, x12) := quarterRound b.w0 b.w4 b.w8 b.w12
  let (x1, x5, x9, x13) := quarterRound b.w1 b.w5 b.w9 b.w13
  let (x2, x6, x10, x14) := quarterRound b.w2 b.w6 b.w10 b.w14
  let (x3, x7, x11, x15) := quarterRound b.w3 b.w7 b.w11 b.w15
  let (x0, x5, x10, x15) := quarterRound x0 x5 x10 x15
  let (x1, x6, x11, x12) := quarterRound x1 x6 x11 x12
  let (x2, x7, x8, x13) := quarterRound x2 x7 x8 x13
  let (x3, x4, x9, x14) := quarterRound x3 x4 x9 x14
  ⟨x0, x1, x2, x3, x4, x5, x6, x7, x8, x9, x10, x11, x12, x13, x14, x15⟩

structure Key where
  (k0 k1 k2 k3 k4 k5 k6 k7 : UInt32)
  deriving DecidableEq, Repr

def block (key : Key) (counter : UInt64) : Block :=
  let start : Block :=
    ⟨0x61707865, 0x3320646e, 0x79622d32, 0x6b206574, key.k0, key.k1, key.k2, key.k3, key.k4,
      key.k5, key.k6, key.k7, counter.toUInt32, (counter >>> 32).toUInt32, 0, 0⟩
  (doubleRound (doubleRound (doubleRound (doubleRound start)))).add start

def expandStep (state : UInt64) : UInt64 × UInt32 :=
  let state := state * 6364136223846793005 + 11634580027462260723
  let x := (((state >>> 18) ^^^ state) >>> 27).toUInt32
  let turn := (state >>> 59).toUInt32
  (state, (x >>> turn) ||| (x <<< ((32 - turn) % 32)))

def expandKey (seed : UInt64) : Key :=
  let (s, k0) := expandStep seed
  let (s, k1) := expandStep s
  let (s, k2) := expandStep s
  let (s, k3) := expandStep s
  let (s, k4) := expandStep s
  let (s, k5) := expandStep s
  let (s, k6) := expandStep s
  let (_, k7) := expandStep s
  ⟨k0, k1, k2, k3, k4, k5, k6, k7⟩

end ChaCha

structure ChaCha where
  key : ChaCha.Key
  counter : UInt64
  pending : List UInt32
  deriving DecidableEq, Repr

namespace ChaCha

def ofSeed (seed : Nat) : ChaCha := ⟨expandKey (UInt64.ofNat seed), 0, []⟩

def word (r : ChaCha) : UInt32 × ChaCha :=
  match r.pending with
  | w :: rest => (w, { r with pending := rest })
  | [] =>
    let b := block r.key r.counter
    (b.w0, { r with counter := r.counter + 1, pending := b.toList.tail })

def wordBytes (w : UInt32) : Bytes := leBytes 4 w.toNat

def collect : Nat → ChaCha → List UInt32 → List UInt32 × ChaCha
  | 0, r, found => (found, r)
  | n + 1, r, found =>
    let (w, r) := r.word
    collect n r (w :: found)

theorem length_collect (n : Nat) (r : ChaCha) (found : List UInt32) :
    (collect n r found).1.length = n + found.length := by
  induction n generalizing r found with
  | zero => simp [collect]
  | succ n ih =>
    rw [collect, ih]
    simp
    omega

def fill (r : ChaCha) (n : Nat) : Bytes × ChaCha :=
  let (words, r) := collect ((n + 3) / 4) r []
  ((words.reverse.flatMap wordBytes).take n, r)

theorem length_flatMap_wordBytes (ws : List UInt32) :
    (ws.flatMap wordBytes).length = 4 * ws.length := by
  induction ws with
  | nil => rfl
  | cons w ws ih =>
    rw [List.flatMap_cons, List.length_append, ih, wordBytes, length_leBytes, List.length_cons]
    omega

theorem length_fill (r : ChaCha) (n : Nat) : (r.fill n).1.length = n := by
  rw [fill, List.length_take, length_flatMap_wordBytes, List.length_reverse, length_collect]
  simp
  omega

instance : RandomSource ChaCha where
  word := word
  fill := fill
  length_fill := length_fill

end ChaCha

end DecisionWalk
