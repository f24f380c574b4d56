import DecisionWalk.Mutation.Random
import DecisionWalk.Proofs.Machine
import DecisionWalk.Proofs.Ranges

/-!
# Mutations on a machine

On a machine the parts of a splice are slices of the decisions of a walk, and what
is picked is found by its index. A slice that leaves what it is taken from traps, as
does an index, and as may the replay of what was spliced. Everything else is as the
mutator has it.
-/

set_option autoImplicit false

namespace DecisionWalk

inductive MutationHalt where
  | failed (error : MutationError)
  | trapped (trap : Trap)
  deriving DecidableEq, Repr

abbrev MutatingMachine (ρ : Type) := EStateM MutationHalt ρ

namespace MutatingMachine

variable {ρ α : Type}

def lifted : EStateM.Result MutationError ρ α → EStateM.Result MutationHalt ρ α
  | .ok a r => .ok a r
  | .error e r => .error (.failed e) r

def plain (y : Mutating ρ α) : MutatingMachine ρ α := fun r => lifted (y r)

def refuse (cause : Precondition) : MutatingMachine ρ α := throw (.failed (.precondition cause))

def trap (cause : Trap) : MutatingMachine ρ α := throw (.trapped cause)

def slice (s : Span) (xs : List α) : MutatingMachine ρ (List α) :=
  if s.start ≤ s.stop ∧ s.stop ≤ xs.length then pure (s.of xs) else trap .outOfRange

def front (xs : List α) (n : Nat) : MutatingMachine ρ (List α) := slice ⟨0, n⟩ xs

def back (xs : List α) (n : Nat) : MutatingMachine ρ (List α) := slice ⟨n, xs.length⟩ xs

def item (xs : List α) (i : Nat) : MutatingMachine ρ α :=
  match xs[i]? with
  | some x => pure x
  | none => trap .outOfRange

variable [RandomSource ρ]

def fillFrom (n size : Nat) : MutatingMachine ρ Bytes :=
  if n ≤ size then plain (Mutator.randomBytes (size - n)) else trap .outOfRange

def choose (items : List α) : MutatingMachine ρ (Option α) := do
  if items.isEmpty then pure none
  else
    let i ← modifyGet fun r => Random.below r items.length
    let a ← item items i
    pure (some a)

def pick (pool : Pool) (items : List α) : MutatingMachine ρ α := do
  match ← choose items with
  | some a => pure a
  | none => refuse (.emptyPool pool)

end MutatingMachine

structure MachineMutator (K : Type) where
  replay : Bytes → List (Watch K) → Except Halt (Walk K × List (Watch K))
  limits : Limits

namespace MachineMutator

open MutatingMachine

variable {K ρ : Type} [DecidableEq K] [ProductionKind K] [RandomSource ρ]

def ofMutator (m : Mutator K) : MachineMutator K where
  replay decisions watches := (m.grammar.replay m.limits decisions watches).mapError .failed
  limits := m.limits

def ofProgram (walk : Machine K Unit) (limits : Limits) : MachineMutator K where
  replay decisions watches := Machine.runFrom walk limits (.decisions decisions) watches
  limits := limits

def regenerate (x : MachineMutator K) (operation : Operation) (decisions : Bytes)
    (watches : List (Watch K)) : MutatingMachine ρ (Mutation K) :=
  match x.replay decisions watches with
  | .error (.failed e) => throw (.failed (.walk e))
  | .error (.trapped cause) => trap cause
  | .ok (walk, watches) =>
    match Mutator.verdict watches .exact with
    | .error e => throw (.failed e)
    | .ok outcome => pure ⟨operation, walk, outcome⟩

def splice (x : MachineMutator K) (parts : List Bytes) : MutatingMachine ρ Bytes := do
  let joined := parts.flatten
  let capacity := x.limits.streamCapacity
  if capacity < joined.length then
    throw (.failed (.capacityExceeded joined.length capacity))
  let rest ← fillFrom joined.length capacity
  pure (joined ++ rest)

def replace (x : MachineMutator K) (target : Walk K) (chunk donor : Chunk K)
    (donorDecisions : Bytes) : MutatingMachine ρ (Mutation K) := do
  if !Mutator.compatible chunk donor then refuse (.cannotReplace chunk.label donor.label)
  plain (Mutator.checkDonor donor donorDecisions)
  let start := chunk.decisions.start
  let before ← front target.decisions start
  let behind ← back target.decisions chunk.decisions.stop
  let decisions ← x.splice [before, donorDecisions, behind]
  x.regenerate .replace decisions
    [{ start := start, kind := some donor.kind, depth := some chunk.depth,
       expectedStop := some (start + donorDecisions.length) }]

def insert (x : MachineMutator K) (target : Walk K) (point : InsertionPoint K) (donor : Chunk K)
    (donorDecisions : Bytes) : MutatingMachine ρ (Mutation K) := do
  if !donor.optional then refuse (.notInsertable donor.label)
  if !target.points.contains point then refuse (.noSuchPoint point.decisionOffset)
  plain (Mutator.checkDonor donor donorDecisions)
  let start := point.decisionOffset
  let before ← front target.decisions start
  let behind ← back target.decisions start
  let decisions ← x.splice [before, donorDecisions, behind]
  x.regenerate .insert decisions
    [{ start := start, kind := some donor.kind,
       expectedStop := some (start + donorDecisions.length) }]

def delete (x : MachineMutator K) (target : Walk K) (chunk : Chunk K) :
    MutatingMachine ρ (Mutation K) := do
  if !chunk.optional then refuse (.mandatory chunk.label)
  let successor := Mutator.successor? target chunk
  if !chunk.appendable && !successor.any (·.optional) then
    refuse (.notDeletable chunk.label (successor.map Chunk.label))
  let start := chunk.decisions.start
  let before ← front target.decisions start
  let behind ← back target.decisions chunk.decisions.stop
  let decisions ← x.splice [before, behind]
  x.regenerate .delete decisions
    (successor.toList.map fun next =>
      { start := start, kind := some next.kind,
        expectedStop := some (start + next.decisionLength) })

def abstractChunk (x : MachineMutator K) (target : Walk K) (chunk : Chunk K) :
    MutatingMachine ρ (Mutation K) := do
  let start := chunk.decisions.start
  let before ← front target.decisions start
  let decisions ← x.splice [before]
  let kept ← back target.decisions chunk.decisions.stop
  let rest ← fillFrom kept.length (max x.limits.streamCapacity kept.length)
  x.regenerate .abstract decisions
    [{ start := start, kind := if chunk.optional then none else some chunk.kind,
       depth := some chunk.depth, restore := some (kept ++ rest) }]

def swapOrdered (x : MachineMutator K) (target : Walk K) (first second : Chunk K) :
    MutatingMachine ρ (Mutation K) := do
  if second.decisions.start < first.decisions.stop then
    refuse (.overlapping first.label second.label)
  let all := target.decisions
  let movedSecond ← slice second.decisions all
  let middle ← slice ⟨first.decisions.stop, second.decisions.start⟩ all
  let movedFirst ← slice first.decisions all
  let start := first.decisions.start
  let before ← front all start
  let behind ← back all second.decisions.stop
  let decisions ← x.splice [before, movedSecond, middle, movedFirst, behind]
  let secondStart := start + movedSecond.length + middle.length
  x.regenerate .swap decisions
    [{ start := start, kind := some second.kind,
       expectedStop := some (start + movedSecond.length) },
     { start := secondStart, kind := some first.kind,
       expectedStop := some (secondStart + movedFirst.length) }]

def swap (x : MachineMutator K) (target : Walk K) (a b : Chunk K) :
    MutatingMachine ρ (Mutation K) := do
  if !Mutator.compatible a b then refuse (.cannotSwap a.label b.label)
  if a.decisions.start ≤ b.decisions.start then x.swapOrdered target a b
  else x.swapOrdered target b a

def donorDecisions (corpus : Corpus K) (donor : Chunk K) : MutatingMachine ρ Bytes :=
  match corpus.file donor.fileIndex with
  | .ok f => slice donor.decisions f.walk.decisions
  | .error _ => refuse (.unknownFile donor.fileIndex)

def randomReplace (x : MachineMutator K) (corpus : Corpus K) (walk : Walk K) :
    MutatingMachine ρ (Mutation K) := do
  let chunk ← pick .chunks walk.chunks
  match ← choose (corpus.donors chunk) with
  | none => refuse (.noDonor chunk.label)
  | some donor => x.replace walk chunk donor (← donorDecisions corpus donor)

def randomInsert (x : MachineMutator K) (corpus : Corpus K) (walk : Walk K) :
    MutatingMachine ρ (Mutation K) := do
  let point ← pick .insertionPoints walk.points
  match ← choose corpus.optionalChunks with
  | none => refuse .noOptionalDonor
  | some donor => x.insert walk point donor (← donorDecisions corpus donor)

def randomDelete (x : MachineMutator K) (walk : Walk K) : MutatingMachine ρ (Mutation K) := do
  let chunk ← pick .optionalChunks (walk.chunks.filter (·.optional))
  x.delete walk chunk

def randomAbstract (x : MachineMutator K) (walk : Walk K) : MutatingMachine ρ (Mutation K) := do
  let chunk ← pick .chunks walk.chunks
  x.abstractChunk walk chunk

def randomSwap (x : MachineMutator K) (walk : Walk K) : MutatingMachine ρ (Mutation K) := do
  let a ← pick .chunks walk.chunks
  let b ← pick .swapPartners (Mutator.partners walk a)
  x.swap walk a b

def mutate (x : MachineMutator K) (corpus : Corpus K) (target : Nat) :
    MutatingMachine ρ (Mutation K) := do
  match corpus.file target with
  | .error _ => refuse (.unknownFile target)
  | .ok file =>
    match ← modifyGet fun r => Random.below r 5 with
    | 0 => x.randomReplace corpus file.walk
    | 1 => x.randomInsert corpus file.walk
    | 2 => x.randomDelete file.walk
    | 3 => x.randomAbstract file.walk
    | _ => x.randomSwap file.walk

end MachineMutator

end DecisionWalk
