import DecisionWalk.Walker.Field

/-!
# Productions and watches

A production is a pair of actions around its body. Opening one arms the watches
placed at its start; closing it lets them see where it stopped.
-/

set_option autoImplicit false

namespace DecisionWalk

variable {K : Type} [DecidableEq K]

def Watch.awaits (w : Watch K) (start : Nat) (kind : K) (depth : Nat) : Bool :=
  w.armed.isNone && w.observedStop.isNone && w.start == start &&
    w.kind.all (· == kind) && w.depth.all (· + 1 == depth)

def Watch.arm (w : Watch K) (start : Nat) (kind : K) (depth : Nat) : Watch K :=
  if w.awaits start kind depth then { w with armed := some depth } else w

def closeWatches (depth : Nat) : List (Watch K) → Stream → List (Watch K) × Stream
  | [], stream => ([], stream)
  | w :: rest, stream =>
    if w.armed = some depth then
      let stop := stream.position
      let stream := match w.restore with
        | some tail => stream.replaceTail stop tail
        | none => stream
      let (rest, stream) := closeWatches depth rest stream
      ({ w with armed := none, observedStop := some stop, restore := none } :: rest, stream)
    else
      let (rest, stream) := closeWatches depth rest stream
      (w :: rest, stream)

namespace Walker

def openScope (name : String) (kind : K) : Walker K Nat := fun s =>
  if s.tracker.depth < s.tracker.maxDepth then
    let entered := s.tracker.entering s.stream.position
    let depth := s.tracker.depth + 1
    .ok depth { s with
      tracker := s.tracker.opened name kind s.stream.position s.image.cursor
      watches := s.watches.map (·.arm entered.start kind depth) }
  else .error (.capacityExceeded .depth s.tracker.maxDepth) s

def closeScope (depth : Nat) : Walker K Unit := fun s =>
  let tracker := s.tracker.closed s.stream.position s.image.cursor
  let (watches, stream) := closeWatches depth s.watches s.stream
  .ok () { s with tracker := tracker, watches := watches, stream := stream }

def withEvil {α : Type} (allowed : Bool) (x : Walker K α) : Walker K α := fun s =>
  let before := s.evil
  match x { s with evil := ⟨allowed⟩ } with
  | .ok a t => .ok a { t with evil := before }
  | .error e t => .error e { t with evil := before }

end Walker

end DecisionWalk
