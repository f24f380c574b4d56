import DecisionWalk.Word

/-!
# Chunks and insertion points

A chunk is one completed instance of a named production, with the file bytes it
touched and the decisions it consumed. An insertion point is a place in the
decisions where an optional chunk may be put.
-/

set_option autoImplicit false

namespace DecisionWalk

class ProductionKind (K : Type) where
  name : K → String

structure Span where
  start : Nat
  stop : Nat
  deriving DecidableEq, Repr, Inhabited

namespace Span

def length (s : Span) : Nat := s.stop - s.start

def isEmpty (s : Span) : Bool := s.stop ≤ s.start

def hull (s t : Span) : Span := ⟨min s.start t.start, max s.stop t.stop⟩

def within (s t : Span) : Bool := t.start ≤ s.start && s.stop ≤ t.stop

def of {α : Type} (s : Span) (xs : List α) : List α := (xs.take s.stop).drop s.start

end Span

structure Chunk (K : Type) where
  fileIndex : Nat := 0
  name : String
  kind : K
  file : Span
  decisions : Span
  optional : Bool
  appendable : Bool
  depth : Nat
  parent : Option Nat
  deriving DecidableEq, Repr

namespace Chunk

variable {K : Type}

def decisionLength (c : Chunk K) : Nat := c.decisions.length

def containsDecisionsOf (c other : Chunk K) : Bool := other.decisions.within c.decisions

end Chunk

inductive Placement where
  | beforeOptional
  | afterAppendable
  deriving DecidableEq, Repr

structure InsertionPoint (K : Type) where
  decisionOffset : Nat
  fileOffset : Nat
  kind : K
  name : String
  placement : Placement
  deriving DecidableEq, Repr

def InsertionPoint.notAfter {K : Type} (p q : InsertionPoint K) : Bool :=
  p.decisionOffset < q.decisionOffset ||
    (p.decisionOffset == q.decisionOffset &&
      (p.placement == .afterAppendable || q.placement == .beforeOptional))

structure ChunkSummary where
  name : String
  kind : String
  file : Span
  decisions : Span
  optional : Bool
  appendable : Bool
  deriving DecidableEq, Repr

def Chunk.summary {K : Type} [ProductionKind K] (c : Chunk K) : ChunkSummary where
  name := c.name
  kind := ProductionKind.name c.kind
  file := c.file
  decisions := c.decisions
  optional := c.optional
  appendable := c.appendable

end DecisionWalk
