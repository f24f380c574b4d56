import DecisionWalk.Mutation.Basic
import DecisionWalk.Random.Source

/-!
# Splicing decisions

A mutation never edits file bytes. It puts together the decisions of a new file
from pieces of old ones, adds random decisions behind them, and regenerates, so
that every length and checksum comes out right again. Watches see whether the
spliced chunks stop where they should.
-/

set_option autoImplicit false

namespace DecisionWalk

abbrev Mutating (ρ : Type) := EStateM MutationError ρ

structure Mutator (K : Type) where
  grammar : Grammar K Unit
  limits : Limits

namespace Mutator

variable {K ρ : Type} [DecidableEq K] [ProductionKind K] [RandomSource ρ]

def refuse {α : Type} (cause : Precondition) : Mutating ρ α := throw (.precondition cause)

def randomBytes (n : Nat) : Mutating ρ Bytes := modifyGet fun r => RandomSource.fill r n

def compatible (a b : Chunk K) : Bool :=
  match a.optional, b.optional with
  | true, true => true
  | false, false => a.kind == b.kind
  | _, _ => false

def splice (m : Mutator K) (parts : List Bytes) : Mutating ρ Bytes := do
  let joined := parts.flatten
  let capacity := m.limits.streamCapacity
  if capacity < joined.length then
    throw (.capacityExceeded joined.length capacity)
  let rest ← randomBytes (capacity - joined.length)
  pure (joined ++ rest)

def verdict : List (Watch K) → SpliceOutcome → Except MutationError SpliceOutcome
  | [], outcome => .ok outcome
  | w :: rest, outcome =>
    match w.observedStop with
    | none => .error (.chunkNotCreated w.start)
    | some observed =>
      match w.expectedStop with
      | none => verdict rest outcome
      | some expected =>
        let difference := (observed : Int) - (expected : Int)
        if difference ≠ 0 ∧ outcome = .exact then verdict rest (.mismatch difference)
        else verdict rest outcome

def regenerate (m : Mutator K) (operation : Operation) (decisions : Bytes)
    (watches : List (Watch K)) : Except MutationError (Mutation K) :=
  match m.grammar.replay m.limits decisions watches with
  | .error e => .error (.walk e)
  | .ok (walk, watches) =>
    match verdict watches .exact with
    | .error e => .error e
    | .ok outcome => .ok ⟨operation, walk, outcome⟩

def checkDonor (donor : Chunk K) (decisions : Bytes) : Mutating ρ Unit :=
  if decisions.length = donor.decisionLength then pure ()
  else refuse (.donorLength donor.label donor.decisionLength decisions.length)

def replace (m : Mutator K) (target : Walk K) (chunk donor : Chunk K) (donorDecisions : Bytes) :
    Mutating ρ (Mutation K) := do
  if !compatible chunk donor then refuse (.cannotReplace chunk.label donor.label)
  checkDonor donor donorDecisions
  let start := chunk.decisions.start
  let decisions ← m.splice
    [target.decisions.take start, donorDecisions, target.decisions.drop chunk.decisions.stop]
  MonadExcept.ofExcept (m.regenerate .replace decisions
    [{ start := start, kind := some donor.kind, depth := some chunk.depth,
       expectedStop := some (start + donorDecisions.length) }])

def insert (m : Mutator K) (target : Walk K) (point : InsertionPoint K) (donor : Chunk K)
    (donorDecisions : Bytes) : Mutating ρ (Mutation K) := do
  if !donor.optional then refuse (.notInsertable donor.label)
  if !target.points.contains point then refuse (.noSuchPoint point.decisionOffset)
  checkDonor donor donorDecisions
  let start := point.decisionOffset
  let decisions ← m.splice
    [target.decisions.take start, donorDecisions, target.decisions.drop start]
  MonadExcept.ofExcept (m.regenerate .insert decisions
    [{ start := start, kind := some donor.kind,
       expectedStop := some (start + donorDecisions.length) }])

def successor? (target : Walk K) (chunk : Chunk K) : Option (Chunk K) :=
  target.chunks.find? fun next =>
    next.decisions.start == chunk.decisions.stop && !next.decisions.isEmpty

/-- Removes an optional chunk. It must be appendable or have an optional chunk behind it, so
that the walk can go on past the gap. -/
def delete (m : Mutator K) (target : Walk K) (chunk : Chunk K) : Mutating ρ (Mutation K) := do
  if !chunk.optional then refuse (.mandatory chunk.label)
  let successor := successor? target chunk
  if !chunk.appendable && !successor.any (·.optional) then
    refuse (.notDeletable chunk.label (successor.map Chunk.label))
  let start := chunk.decisions.start
  let decisions ← m.splice
    [target.decisions.take start, target.decisions.drop chunk.decisions.stop]
  MonadExcept.ofExcept (m.regenerate .delete decisions
    (successor.toList.map fun next =>
      { start := start, kind := some next.kind,
        expectedStop := some (start + next.decisionLength) }))

def abstractChunk (m : Mutator K) (target : Walk K) (chunk : Chunk K) :
    Mutating ρ (Mutation K) := do
  let start := chunk.decisions.start
  let decisions ← m.splice [target.decisions.take start]
  let kept := target.decisions.drop chunk.decisions.stop
  let rest ← randomBytes (max m.limits.streamCapacity kept.length - kept.length)
  MonadExcept.ofExcept (m.regenerate .abstract decisions
    [{ start := start, kind := if chunk.optional then none else some chunk.kind,
       depth := some chunk.depth, restore := some (kept ++ rest) }])

def swapOrdered (m : Mutator K) (target : Walk K) (first second : Chunk K) :
    Mutating ρ (Mutation K) := do
  if second.decisions.start < first.decisions.stop then
    refuse (.overlapping first.label second.label)
  let all := target.decisions
  let movedSecond := second.decisions.of all
  let middle := Span.of ⟨first.decisions.stop, second.decisions.start⟩ all
  let movedFirst := first.decisions.of all
  let start := first.decisions.start
  let decisions ← m.splice
    [all.take start, movedSecond, middle, movedFirst, all.drop second.decisions.stop]
  let secondStart := start + movedSecond.length + middle.length
  MonadExcept.ofExcept (m.regenerate .swap decisions
    [{ start := start, kind := some second.kind,
       expectedStop := some (start + movedSecond.length) },
     { start := secondStart, kind := some first.kind,
       expectedStop := some (secondStart + movedFirst.length) }])

def swap (m : Mutator K) (target : Walk K) (a b : Chunk K) : Mutating ρ (Mutation K) := do
  if !compatible a b then refuse (.cannotSwap a.label b.label)
  if a.decisions.start ≤ b.decisions.start then m.swapOrdered target a b
  else m.swapOrdered target b a

end Mutator

end DecisionWalk
