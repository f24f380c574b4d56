import DecisionWalk.Grammar

/-!
# Walks

A completed walk holds the file, the decisions that regenerate it, and the
chunks found on the way. `generate` goes from decisions to a file, `parse` from
a file to decisions, and `replay` generates while some splice points are
watched.
-/

set_option autoImplicit false

namespace DecisionWalk

structure Walk (K : Type) where
  mode : Mode
  file : Bytes
  decisions : Bytes
  chunks : List (Chunk K)
  points : List (InsertionPoint K)
  deriving Repr

namespace Walk

variable {K : Type}

def findChunk? (w : Walk K) (first last : Nat) : Option (Chunk K) :=
  w.chunks.find? fun c => c.file.start == first && c.file.stop == last + 1

def chunksOf [DecidableEq K] (w : Walk K) (kind : K) : List (Chunk K) :=
  w.chunks.filter (·.kind == kind)

def pointAt? (w : Walk K) (fileOffset : Nat) : Option (InsertionPoint K) :=
  w.points.find? (·.fileOffset == fileOffset)

def decisionsOf (w : Walk K) (c : Chunk K) : Bytes := c.decisions.of w.decisions

def summaries [ProductionKind K] (w : Walk K) : List ChunkSummary := w.chunks.map Chunk.summary

end Walk

inductive Origin where
  | decisions (bytes : Bytes)
  | input (bytes : Bytes)
  deriving DecidableEq, Repr

variable {K : Type}

structure Run (K : Type) where
  outcome : Except WalkError (Walk K × List (Watch K))
  log : Array Observation

namespace State

/-- The walk that ends in this state. A parse must have covered the whole input. -/
def finish (s : State K) : Except WalkError (Walk K × List (Watch K)) :=
  let uncovered := s.image.inputLength?.getD 0 - s.image.size
  if uncovered > 0 then
    .error (.structural s.image.size s.tracker.path (.uncovered uncovered))
  else
    let (chunks, points) := s.tracker.finish s.stream.position s.image.cursor
    .ok (⟨s.mode, s.image.output, s.stream.consumed, chunks, points⟩, s.watches)

end State

namespace Grammar

variable [DecidableEq K]

def conclude : EStateM.Result WalkError (State K) Unit → Run K
  | .ok () s => ⟨s.finish, s.log⟩
  | .error (.grammarStop 0 _) s => ⟨s.finish, s.log⟩
  | .error e s => ⟨.error e, s.log⟩

def seed : Origin → Walker K Unit
  | .decisions bytes => Walker.seedGenerate bytes
  | .input bytes => Walker.seedParse bytes

def runFrom (g : Grammar K Unit) (limits : Limits) (origin : Origin) (watches : List (Watch K)) :
    Run K :=
  match seed origin (State.empty limits) with
  | .error e s => ⟨.error e, s.log⟩
  | .ok () s => conclude (g.run { s with watches := watches })

def generate (g : Grammar K Unit) (limits : Limits) (decisions : Bytes) :
    Except WalkError (Walk K) :=
  (g.runFrom limits (.decisions decisions) []).outcome.map Prod.fst

def parse (g : Grammar K Unit) (limits : Limits) (input : Bytes) : Except WalkError (Walk K) :=
  (g.runFrom limits (.input input) []).outcome.map Prod.fst

def replay (g : Grammar K Unit) (limits : Limits) (decisions : Bytes) (watches : List (Watch K)) :
    Except WalkError (Walk K × List (Watch K)) :=
  (g.runFrom limits (.decisions decisions) watches).outcome

end Grammar

end DecisionWalk
