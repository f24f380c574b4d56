import DecisionWalk.Chunk
import DecisionWalk.Error

/-!
# The chunk tracker

The tracker watches productions open and close and derives the chunks of a walk
from what it sees. A production entered right after a lookahead is optional and
takes the lookahead's decisions as its own; one that closed right before a
lookahead is appendable.
-/

set_option autoImplicit false

namespace DecisionWalk

abbrev NameCounts := List (String × Nat)

namespace NameCounts

def count (counts : NameCounts) (name : String) : Nat := (counts.lookup name).getD 0

def bump : NameCounts → String → NameCounts
  | [], name => [(name, 1)]
  | (n, k) :: rest, name => if n = name then (n, k + 1) :: rest else (n, k) :: bump rest name

end NameCounts

def instanceName (name : String) (count : Nat) : String :=
  if count = 0 then name else name ++ "[" ++ toString count ++ "]"

structure OpenProduction where
  path : String
  slot : Nat
  start : Nat
  touched : Option Span
  children : NameCounts
  deriving DecidableEq, Repr

structure Tracker (K : Type) where
  stack : List OpenProduction
  chunks : Array (Chunk K)
  lastExit : Option Nat
  points : List (InsertionPoint K)
  gate : Option Span
  roots : NameCounts
  maxDepth : Nat
  deriving Repr

structure Entered where
  slot : Nat
  start : Nat
  optional : Bool
  deriving DecidableEq, Repr

namespace Tracker

variable {K : Type}

def empty (maxDepth : Nat) : Tracker K := ⟨[], #[], none, [], none, [], maxDepth⟩

def reset (t : Tracker K) : Tracker K := empty t.maxDepth

def depth (t : Tracker K) : Nat := t.stack.length

def path (t : Tracker K) : String :=
  match t.stack with
  | [] => "<root>"
  | top :: _ => top.path

def siblings (t : Tracker K) : NameCounts :=
  match t.stack with
  | [] => t.roots
  | top :: _ => top.children

def childPath (t : Tracker K) (name : String) : String :=
  let own := instanceName name (t.siblings.count name)
  match t.stack with
  | [] => own
  | top :: _ => top.path ++ "." ++ own

def gateAt (t : Tracker K) (position : Nat) : Option Span :=
  t.gate.filter (·.stop == position)

def countChild (t : Tracker K) (name : String) : Tracker K :=
  match t.stack with
  | [] => { t with roots := t.roots.bump name }
  | top :: rest => { t with stack := { top with children := top.children.bump name } :: rest }

def entering (t : Tracker K) (position : Nat) : Entered where
  slot := t.chunks.size
  start := ((t.gateAt position).map Span.start).getD position
  optional := (t.gateAt position).isSome

def opened (t : Tracker K) (name : String) (kind : K) (position cursor : Nat) : Tracker K :=
  let path := t.childPath name
  let entered := t.entering position
  let parent := t.stack.head?.map OpenProduction.slot
  let depth := t.stack.length
  let gate := if entered.optional then none else t.gate
  let t := t.countChild name
  { t with
    stack := ⟨path, entered.slot, entered.start, none, []⟩ :: t.stack
    chunks := t.chunks.push
      { name := path, kind := kind, file := ⟨cursor, cursor⟩,
        decisions := ⟨entered.start, entered.start⟩, optional := entered.optional,
        appendable := false, depth := depth, parent := parent }
    lastExit := none
    gate := gate
    points :=
      if entered.optional then ⟨entered.start, cursor, kind, path, .beforeOptional⟩ :: t.points
      else t.points }

def enter (t : Tracker K) (name : String) (kind : K) (position cursor : Nat) :
    Except WalkError (Entered × Tracker K) :=
  if t.depth < t.maxDepth then .ok (t.entering position, t.opened name kind position cursor)
  else .error (.capacityExceeded .depth t.maxDepth)

def joinTouched (touched : Option Span) (other : Span) : Option Span :=
  some ((touched.map (·.hull other)).getD other)

def absorb (touched : Option Span) : List OpenProduction → List OpenProduction
  | [] => []
  | parent :: rest =>
    match touched with
    | none => parent :: rest
    | some span => { parent with touched := joinTouched parent.touched span } :: rest

def closed (t : Tracker K) (position cursor : Nat) : Tracker K :=
  match t.stack with
  | [] => t
  | top :: rest =>
    { t with
      stack := absorb top.touched rest
      chunks := t.chunks.modify top.slot fun c =>
        { c with file := top.touched.getD ⟨cursor, cursor⟩, decisions := ⟨top.start, position⟩ }
      lastExit := some top.slot }

def exit (t : Tracker K) (position cursor : Nat) : Option Nat × Tracker K :=
  (t.stack.head?.map OpenProduction.slot, t.closed position cursor)

def touch (t : Tracker K) (span : Span) : Tracker K :=
  if span.isEmpty then t
  else match t.stack with
    | [] => t
    | top :: rest =>
      { t with stack := { top with touched := joinTouched top.touched span } :: rest }

def appendableAt (t : Tracker K) (start : Nat) : Option (Nat × Chunk K) :=
  t.lastExit.bind fun slot =>
    (t.chunks[slot]?.filter fun c => c.decisions.stop == start && !c.appendable).map (slot, ·)

def lookahead (t : Tracker K) (decisions : Span) : Tracker K :=
  match t.appendableAt decisions.start with
  | none => { t with lastExit := none, gate := some decisions }
  | some (slot, c) =>
    { t with
      chunks := t.chunks.modify slot fun c => { c with appendable := true }
      points := ⟨decisions.start, c.file.stop, c.kind, c.name, .afterAppendable⟩ :: t.points
      lastExit := none
      gate := some decisions }

def closeAll (t : Tracker K) (position cursor : Nat) : Tracker K :=
  Nat.repeat (·.closed position cursor) t.depth t

def finish (t : Tracker K) (position cursor : Nat) : List (Chunk K) × List (InsertionPoint K) :=
  let t := t.closeAll position cursor
  (t.chunks.toList, t.points.reverse.mergeSort InsertionPoint.notAfter)

end Tracker

end DecisionWalk
