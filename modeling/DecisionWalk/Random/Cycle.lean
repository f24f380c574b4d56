import DecisionWalk.Random.Source

/-!
# A repeated byte string as a random source

A fixed string of bytes is repeated for ever. The empty string gives zeros.
-/

set_option autoImplicit false

namespace DecisionWalk

structure Cycle where
  unit : Array UInt8
  position : Nat := 0
  deriving DecidableEq, Repr

namespace Cycle

def byteAt (c : Cycle) (i : Nat) : UInt8 := c.unit.getD ((c.position + i) % c.unit.size) 0

def advance (c : Cycle) (n : Nat) : Cycle :=
  { c with position := (c.position + n) % c.unit.size }

def fill (c : Cycle) (n : Nat) : Bytes × Cycle := ((List.range n).map c.byteAt, c.advance n)

def word (c : Cycle) : UInt32 × Cycle :=
  (UInt32.ofNat (leValue ((List.range 4).map c.byteAt)), c.advance 4)

instance : RandomSource Cycle where
  word := word
  fill := fill
  length_fill := by simp [fill]

end Cycle

end DecisionWalk
