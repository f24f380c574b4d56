/-!
# The evil bit

While the bit is set, a draw from a set of known values may now and then give a
value outside the set. A coin byte decides: one in 128 is evil.
-/

set_option autoImplicit false

namespace DecisionWalk

structure EvilBit where
  allowed : Bool := true
  deriving DecidableEq, Repr

namespace EvilBit

def oneIn : Nat := 128

def goodCoin : Nat := 1

def evilCoin : Nat := 0

def isEvil (e : EvilBit) (coin : Nat) : Bool :=
  e.allowed && coin % oneIn == 0

def exchange (e : EvilBit) (allowed : Bool) : Bool × EvilBit :=
  (e.allowed, ⟨allowed⟩)

end EvilBit

end DecisionWalk
