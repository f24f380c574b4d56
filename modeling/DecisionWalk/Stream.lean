import DecisionWalk.Error

/-!
# The decision stream

A stream is split at its position: `past` holds the decisions consumed so far,
`ahead` those still to come. Reading moves bytes from `ahead` to `past`.
Recording appends bytes to `past` and drops as many from `ahead`, so both
directions move the position alike and nothing already consumed ever changes.
-/

set_option autoImplicit false

namespace DecisionWalk

structure Stream where
  past : Array UInt8
  ahead : Bytes
  capacity : Nat
  deriving DecidableEq, Repr

namespace Stream

def empty (capacity : Nat) : Stream := ⟨#[], [], capacity⟩

def position (s : Stream) : Nat := s.past.size

def length (s : Stream) : Nat := s.past.size + s.ahead.length

def consumed (s : Stream) : Bytes := s.past.toList

def bytes (s : Stream) : Bytes := s.past.toList ++ s.ahead

def seed (s : Stream) (bytes : Bytes) : Except WalkError Stream :=
  if bytes.length ≤ s.capacity then .ok ⟨#[], bytes, s.capacity⟩
  else .error (.capacityExceeded .stream s.capacity)

def peek? (s : Stream) (n : Nat) : Option Nat :=
  let next := s.ahead.take n
  if next.length < n then none else some (leValue next)

def advance (s : Stream) (n : Nat) : Stream :=
  { s with past := s.past ++ s.ahead.take n, ahead := s.ahead.drop n }

def take (s : Stream) (n : Nat) : Except WalkError (Nat × Stream) :=
  match s.peek? n with
  | some v => .ok (v, s.advance n)
  | none => .error (.capacityExceeded .stream s.length)

def record (s : Stream) (value n : Nat) : Stream :=
  { s with past := s.past ++ leBytes n value, ahead := s.ahead.drop n }

def put (s : Stream) (value n : Nat) : Except WalkError Stream :=
  if s.position + n ≤ s.capacity then .ok (s.record value n)
  else .error (.capacityExceeded .stream s.capacity)

def replaceTail (s : Stream) (start : Nat) (tail : Bytes) : Stream :=
  let all := s.bytes.take start ++ tail.take (s.capacity - start)
  { s with past := (all.take s.position).toArray, ahead := all.drop s.position }

end Stream

end DecisionWalk
