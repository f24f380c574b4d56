import DecisionWalk.EvilBit
import DecisionWalk.Image
import DecisionWalk.Stream
import DecisionWalk.Tracker

/-!
# The state of a walk

One state serves both directions. Generating reads the decision stream and
builds the file image; parsing reads the image and records the stream. A
`Walker` action keeps the state also when it fails, so that a caller can see how
far it came.
-/

set_option autoImplicit false

namespace DecisionWalk

inductive Mode where
  | generate
  | parse
  deriving DecidableEq, Repr

structure Limits where
  streamCapacity : Nat := 65536
  fileCapacity : Nat := 4096
  maxDepth : Nat := 256
  allowEvil : Bool := true
  deriving DecidableEq, Repr

structure Reserved where
  position : Nat
  width : Nat
  parsed : Option Nat
  deriving DecidableEq, Repr

/-- A place in the decisions that a replayed walk is watched at: the production that starts
there, of the given kind and depth, is expected to stop at `expectedStop`. When it closes,
`restore` becomes the rest of the stream. -/
structure Watch (K : Type) where
  start : Nat
  kind : Option K := none
  depth : Option Nat := none
  expectedStop : Option Nat := none
  restore : Option Bytes := none
  armed : Option Nat := none
  observedStop : Option Nat := none
  deriving Repr

inductive Value where
  | nothing
  | number (n : Nat)
  | bytes (bs : Bytes)
  | truth (b : Bool)
  | order (e : Endian)
  | field (r : Reserved)
  deriving DecidableEq, Repr

structure Observation where
  label : String
  value : Value
  cursor : Nat
  size : Nat
  evil : Bool
  deriving DecidableEq, Repr

structure State (K : Type) where
  mode : Mode
  stream : Stream
  image : Image
  endian : Endian
  evil : EvilBit
  allowEvil : Bool
  tracker : Tracker K
  watches : List (Watch K)
  log : Array Observation
  deriving Repr

abbrev Walker (K : Type) := EStateM WalkError (State K)

namespace State

variable {K : Type}

def empty (limits : Limits) : State K where
  mode := .generate
  stream := .empty limits.streamCapacity
  image := .empty limits.fileCapacity
  endian := .little
  evil := ⟨limits.allowEvil⟩
  allowEvil := limits.allowEvil
  tracker := .empty limits.maxDepth
  watches := []
  log := #[]

def started (s : State K) (stream : Stream) (image : Image) : State K :=
  { s with
    stream := stream
    image := image
    endian := .little
    evil := ⟨s.allowEvil⟩
    tracker := s.tracker.reset
    watches := []
    log := #[] }

def remaining (s : State K) : Nat := s.image.limit - s.image.cursor

end State

namespace Walker

variable {K : Type}

def seedGenerate (decisions : Bytes) : Walker K Unit := fun s =>
  match s.stream.seed decisions with
  | .ok stream => .ok () ({ s with mode := .generate }.started stream s.image.forOutput)
  | .error e => .error e { s with mode := .generate }

def seedParse (input : Bytes) : Walker K Unit := fun s =>
  .ok () ({ s with mode := .parse }.started (.empty s.stream.capacity) (s.image.forInput input))

def violation {α : Type} (v : Violation) : Walker K α := fun s =>
  .error (.structural s.image.size s.tracker.path v) s

def tell : Walker K Nat := fun s => .ok s.image.cursor s

def fileSize : Walker K Nat := fun s => .ok s.image.size s

def remaining : Walker K Nat := fun s => .ok s.remaining s

def position : Walker K Nat := fun s => .ok s.stream.position s

def moveTo (position : Nat) : Walker K Unit :=
  modify fun s => { s with image := s.image.moveTo position }

def setEndian (e : Endian) : Walker K Unit :=
  modify fun s => { s with endian := e }

def setEvil (allowed : Bool) : Walker K Bool := fun s =>
  .ok s.evil.allowed { s with evil := ⟨allowed⟩ }

def note (label : String) (value : Value) : Walker K Unit :=
  modify fun s =>
    { s with log := s.log.push ⟨label, value, s.image.cursor, s.image.size, s.evil.allowed⟩ }

end Walker

end DecisionWalk
