import DecisionWalk.Corpus.Basic
import DecisionWalk.Mutation.Splice

/-!
# Random mutations

A random mutation draws an operation, then what it works on: chunks of the
target, and donors from the whole corpus.
-/

set_option autoImplicit false

namespace DecisionWalk.Mutator

variable {K ρ : Type} [DecidableEq K] [ProductionKind K] [RandomSource ρ]

def pick {α : Type} (pool : Pool) (items : List α) : Mutating ρ α := do
  match ← modifyGet fun r => Random.pick? r items with
  | some x => pure x
  | none => refuse (.emptyPool pool)

def partners (walk : Walk K) (a : Chunk K) : List (Chunk K) :=
  walk.chunks.filter fun b =>
    compatible a b &&
      (a.decisions.stop ≤ b.decisions.start || b.decisions.stop ≤ a.decisions.start)

def donorDecisions (corpus : Corpus K) (donor : Chunk K) : Mutating ρ Bytes :=
  match corpus.decisionsOf donor with
  | .ok bytes => pure bytes
  | .error _ => refuse (.unknownFile donor.fileIndex)

def randomReplace (m : Mutator K) (corpus : Corpus K) (walk : Walk K) :
    Mutating ρ (Mutation K) := do
  let chunk ← pick .chunks walk.chunks
  match ← modifyGet fun r => corpus.randomDonor? chunk r with
  | none => refuse (.noDonor chunk.label)
  | some donor => m.replace walk chunk donor (← donorDecisions corpus donor)

def randomInsert (m : Mutator K) (corpus : Corpus K) (walk : Walk K) :
    Mutating ρ (Mutation K) := do
  let point ← pick .insertionPoints walk.points
  match ← modifyGet fun r => corpus.randomOptional? r with
  | none => refuse .noOptionalDonor
  | some donor => m.insert walk point donor (← donorDecisions corpus donor)

def randomDelete (m : Mutator K) (walk : Walk K) : Mutating ρ (Mutation K) := do
  let chunk ← pick .optionalChunks (walk.chunks.filter (·.optional))
  m.delete walk chunk

def randomAbstract (m : Mutator K) (walk : Walk K) : Mutating ρ (Mutation K) := do
  let chunk ← pick .chunks walk.chunks
  m.abstractChunk walk chunk

def randomSwap (m : Mutator K) (walk : Walk K) : Mutating ρ (Mutation K) := do
  let a ← pick .chunks walk.chunks
  let b ← pick .swapPartners (partners walk a)
  m.swap walk a b

def mutate (m : Mutator K) (corpus : Corpus K) (target : Nat) : Mutating ρ (Mutation K) := do
  match corpus.file target with
  | .error _ => refuse (.unknownFile target)
  | .ok file =>
    match ← modifyGet fun r => Random.below r 5 with
    | 0 => m.randomReplace corpus file.walk
    | 1 => m.randomInsert corpus file.walk
    | 2 => m.randomDelete file.walk
    | 3 => m.randomAbstract file.walk
    | _ => m.randomSwap file.walk

end DecisionWalk.Mutator
