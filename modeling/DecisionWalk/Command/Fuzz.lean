import DecisionWalk.Command.Error
import DecisionWalk.Corpus.Seeds
import DecisionWalk.Mutation.Random
import DecisionWalk.Random.ChaCha

/-!
# The fuzz loop

Every round makes one file: from random decisions, or by mutating a file of the
seed corpus. New files are saved under the digest of their bytes, next to the
decisions that regenerate them.
-/

set_option autoImplicit false

namespace DecisionWalk.Command

variable {m : Type → Type} [Monad m] [Disk m]

abbrev Task (m : Type → Type) := ExceptT Failure (StateT String m)

def say (text : String) : Task m Unit := modify (· ++ text)

def orFail {α : Type} (x : m (Except DiskError α)) (failure : DiskError → Failure) : Task m α := do
  match ← (x : m _) with
  | .ok a => pure a
  | .error e => throw (failure e)

structure ArtifactStore where
  dir : String
  extension : String
  seen : List String := []
  deriving DecidableEq, Repr

namespace ArtifactStore

def create (dir extension : String) : Task m ArtifactStore := do
  orFail (Disk.createDirs dir) (.createDirs dir)
  pure { dir := dir, extension := extension }

def distinct (s : ArtifactStore) : Nat := s.seen.length

def save (digest : Bytes → String) (s : ArtifactStore) (file decisions : Bytes) :
    Task m ArtifactStore := do
  let stem := digest file
  if s.seen.contains stem then return s
  let s := { s with seen := stem :: s.seen }
  let path := Disk.join s.dir (stem ++ "." ++ s.extension)
  if ← (Disk.holds path : m Bool) then return s
  orFail (Disk.write path file) (.write path)
  let decisionsPath := Disk.join s.dir (stem ++ ".dec")
  orFail (Disk.write decisionsPath decisions) (.write decisionsPath)
  return s

end ArtifactStore

structure Campaign where
  store : ArtifactStore
  source : ChaCha
  failures : Nat := 0

section Rounds

variable {K : Type} [DecidableEq K] [ProductionKind K]

def produce (mutator : Mutator K) (corpus : Corpus K) (r : ChaCha) : Option (Walk K) × ChaCha :=
  if corpus.isEmpty then
    let (decisions, r) := r.fill mutator.limits.streamCapacity
    ((mutator.grammar.generate mutator.limits decisions).toOption, r)
  else
    match corpus.randomFile? r with
    | (none, r) => (none, r)
    | (some target, r) =>
      match mutator.mutate corpus target r with
      | .ok mutation r => (some mutation.walk, r)
      | .error _ r => (none, r)

def progress (i total distinct failures : Nat) : String :=
  if 0 < i ∧ i % max (total / 100) 1 = 0 then
    s!"\rIter: {i}/{total}, Distinct: {distinct}, Failed: {failures}   "
  else ""

def fuzzRound (digest : Bytes → String) (mutator : Mutator K) (corpus : Corpus K)
    (total i : Nat) (c : Campaign) : Task m Campaign := do
  let (produced, source) := produce mutator corpus c.source
  let c := { c with source := source }
  let c ← match produced with
    | some walk => do
      let store ← c.store.save digest walk.file walk.decisions
      pure { c with store := store }
    | none => pure { c with failures := c.failures + 1 }
  say (progress i total c.store.distinct c.failures)
  pure c

def fuzzRounds (digest : Bytes → String) (mutator : Mutator K) (corpus : Corpus K) (total : Nat) :
    Nat → Campaign → Task m Campaign
  | 0, c => pure c
  | left + 1, c => do
    let c ← fuzzRound digest mutator corpus total (total - (left + 1)) c
    fuzzRounds digest mutator corpus total left c

end Rounds

structure FuzzPlan where
  iterations : Nat
  outDir : String
  seed : Nat
  seedPaths : List String
  deriving DecidableEq, Repr

structure Host (m : Type → Type) where
  entropy : Nat
  elapsed : m String

def fuzzSummary (plan : FuzzPlan) (elapsed : String) (c : Campaign) : String :=
  let distinct := c.store.distinct
  let failures := c.failures
  let attempts := plan.iterations
  let seed := plan.seed
  s!"\nFuzz loop finished in {elapsed}.\n" ++
    s!"Attempts: {attempts}, Distinct outputs: {distinct}, " ++
      s!"Failed attempts: {failures}, Seed: {seed}\n"

def loadPlanSeeds {K : Type} [DecidableEq K] (format : Format K) (limits : Limits)
    (paths : List String) : Task m (Corpus K) := do
  match ← (Corpus.loadSeeds format.grammar limits paths 0 Corpus.empty : m _) with
  | .error e => throw (.corpus e)
  | .ok (count, corpus) =>
    if paths ≠ [] ∧ count = 0 then throw (.noSeed paths format.name)
    pure corpus

def fuzz {K : Type} [DecidableEq K] [ProductionKind K] (digest : Bytes → String)
    (format : Format K) (limits : Limits) (host : Host m) (plan : FuzzPlan) : Task m Unit := do
  let store ← ArtifactStore.create plan.outDir format.extension
  let corpus ← loadPlanSeeds format limits plan.seedPaths
  let c ← fuzzRounds digest ⟨format.grammar, limits⟩ corpus plan.iterations plan.iterations
    { store := store, source := ChaCha.ofSeed plan.seed }
  say (fuzzSummary plan (← (host.elapsed : m String)) c)

end DecisionWalk.Command
