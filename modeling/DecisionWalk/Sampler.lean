/-!
# The biased value sampler

An unconstrained integer is drawn in two steps: a selector byte chooses a tier,
then the tier says how many raw bytes follow. Small values are favoured: 224 of
the 256 selectors give one of the values 1 to 16. A value found in a file
determines one selector and one raw draw that give it back, so every value has
a recorded form.
-/

set_option autoImplicit false

namespace DecisionWalk

namespace Sampler

def fullBelow : Nat := 2

def wideBelow : Nat := 8

def byteBelow : Nat := 32

def tinyValues : Nat := 16

def valuesOf (width : Nat) : Nat := Nat.pow 256 (min width 8)

def widthMask (width : Nat) : Nat := valuesOf width - 1

def decisionWidth (bound : Nat) : Nat :=
  if bound ≤ 1 then 0 else Nat.log2 (bound - 1) / 8 + 1

def selectorFor (value : Nat) : Nat :=
  if 1 ≤ value ∧ value ≤ tinyValues then byteBelow
  else if value < 0x100 then wideBelow
  else if value < 0x10000 then fullBelow
  else 0

end Sampler

open Sampler

inductive Tier where
  | full
  | wide
  | byte
  | tiny
  deriving DecidableEq, Repr

namespace Tier

def ofSelector (selector : Nat) : Tier :=
  if selector < fullBelow then .full
  else if selector < wideBelow then .wide
  else if selector < byteBelow then .byte
  else .tiny

def rawWidth : Tier → Nat → Nat
  | .full, width => width
  | .wide, width => min width 2
  | .byte, _ => 1
  | .tiny, _ => 0

def decode : Tier → Nat → Nat → Nat
  | .tiny, _, raw => raw % tinyValues + 1
  | tier, width, raw => raw % valuesOf (tier.rawWidth width)

end Tier

namespace Sampler

def encode (value : Nat) : Tier × Nat :=
  match Tier.ofSelector (selectorFor value) with
  | .tiny => (.tiny, value - 1)
  | tier => (tier, value)

end Sampler

end DecisionWalk
