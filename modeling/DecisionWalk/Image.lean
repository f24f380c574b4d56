import DecisionWalk.Error

/-!
# The file image

An image holds the bytes of a file and, byte by byte, whether the walk has
fixed them. While generating, bytes appear as they are fixed; while parsing,
the input is there from the start and gets fixed as it is read. `size` is the
end of the last fixed range.
-/

set_option autoImplicit false

namespace DecisionWalk

def overwrite {α : Type} (a : Array α) (i : Nat) : List α → Array α
  | [] => a
  | x :: xs => overwrite (if i < a.size then a.setIfInBounds i x else a.push x) (i + 1) xs

def extend {α : Type} (a : Array α) (n : Nat) (x : α) : Array α :=
  a ++ Array.replicate (n - a.size) x

inductive Region where
  | fresh
  | fixed
  | mixed
  deriving DecidableEq, Repr

structure Image where
  bytes : Array UInt8
  fixed : Array Bool
  cursor : Nat
  size : Nat
  capacity : Nat
  inputLength? : Option Nat
  deriving DecidableEq, Repr

namespace Image

def empty (capacity : Nat) : Image := ⟨#[], #[], 0, 0, capacity, none⟩

def forOutput (im : Image) : Image := empty im.capacity

def forInput (im : Image) (input : Bytes) : Image :=
  ⟨input.toArray, Array.replicate input.length false, 0, 0, im.capacity,
    some input.length⟩

def moveTo (im : Image) (position : Nat) : Image := { im with cursor := position }

def limit (im : Image) : Nat := im.inputLength?.getD im.capacity

def fixedCount (im : Image) (position length : Nat) : Nat :=
  (im.fixed.extract position (position + length)).toList.count true

def region (im : Image) (position length : Nat) : Region :=
  if length = 0 then .fixed
  else
    let n := im.fixedCount position length
    if n = 0 then .fresh else if n = length then .fixed else .mixed

def fixedFrom (im : Image) (position : Nat) : Bool := im.size > position

def slice? (im : Image) (start stop : Nat) : Option Bytes :=
  if start ≤ stop ∧ stop ≤ im.bytes.size then some (im.bytes.extract start stop).toList else none

def mark (im : Image) (position length : Nat) : Image :=
  let stop := position + length
  { im with
    bytes := extend im.bytes stop 0
    fixed := overwrite (extend im.fixed stop false) position (List.replicate length true)
    size := max im.size stop }

def store (im : Image) (position : Nat) (data : Bytes) : Image :=
  let stop := position + data.length
  { im with
    bytes := overwrite (extend im.bytes stop 0) position data
    fixed := overwrite (extend im.fixed stop false) position (List.replicate data.length true)
    size := max im.size stop }

def write (im : Image) (position : Nat) (data : Bytes) : Except WalkError Image :=
  if position + data.length ≤ im.capacity then .ok (im.store position data)
  else .error (.capacityExceeded .file im.capacity)

def output (im : Image) : Bytes :=
  match im.inputLength? with
  | none => im.bytes.toList.take im.size
  | some _ => im.bytes.toList

end Image

end DecisionWalk
