import DecisionWalk.Walk

/-!
# Mutations and why they fail
-/

set_option autoImplicit false

namespace DecisionWalk

inductive Operation where
  | replace
  | insert
  | delete
  | abstract
  | swap
  deriving DecidableEq, Repr

def Operation.name : Operation → String
  | .replace => "replace"
  | .insert => "insert"
  | .delete => "delete"
  | .abstract => "abstract"
  | .swap => "swap"

inductive SpliceOutcome where
  | exact
  | mismatch (difference : Int)
  deriving DecidableEq, Repr

def SpliceOutcome.exitCode : SpliceOutcome → Int
  | .exact => 0
  | .mismatch d => max (-2147483648) (min d 2147483647)

structure Mutation (K : Type) where
  operation : Operation
  walk : Walk K
  outcome : SpliceOutcome
  deriving Repr

structure ChunkLabel where
  name : String
  kind : String
  optional : Bool
  deriving DecidableEq, Repr

def ChunkLabel.describe (c : ChunkLabel) : String :=
  let status := if c.optional then "optional" else "mandatory"
  "`" ++ c.name ++ "` (" ++ c.kind ++ ", " ++ status ++ ")"

def Chunk.label {K : Type} [ProductionKind K] (c : Chunk K) : ChunkLabel :=
  ⟨c.name, ProductionKind.name c.kind, c.optional⟩

inductive Pool where
  | chunks
  | insertionPoints
  | optionalChunks
  | swapPartners
  deriving DecidableEq, Repr

def Pool.describe : Pool → String
  | .chunks => "chunk"
  | .insertionPoints => "insertion point"
  | .optionalChunks => "optional chunk"
  | .swapPartners => "swap partner"

inductive Precondition where
  | cannotReplace (chunk donor : ChunkLabel)
  | donorLength (donor : ChunkLabel) (spans supplied : Nat)
  | notInsertable (donor : ChunkLabel)
  | noSuchPoint (offset : Nat)
  | mandatory (chunk : ChunkLabel)
  | notDeletable (chunk : ChunkLabel) (follower : Option ChunkLabel)
  | cannotSwap (a b : ChunkLabel)
  | overlapping (first second : ChunkLabel)
  | emptyPool (pool : Pool)
  | noDonor (chunk : ChunkLabel)
  | noOptionalDonor
  | unknownFile (index : Nat)
  | noChunkAt (path : String) (first last : Nat)
  | noPointAt (path : String) (offset : Nat)
  | stated (reason : String)
  deriving DecidableEq, Repr

def Precondition.message : Precondition → String
  | .cannotReplace chunk donor =>
    "cannot replace " ++ chunk.describe ++ " with " ++ donor.describe
  | .donorLength donor spans supplied =>
    "donor " ++ donor.describe ++ s!" spans {spans} decision bytes, {supplied} were supplied"
  | .notInsertable donor =>
    "cannot insert " ++ donor.describe ++ ": only optional chunks can be inserted"
  | .noSuchPoint offset => s!"decision offset {offset} is not an insertion point of the target"
  | .mandatory chunk => "cannot delete mandatory chunk " ++ chunk.describe
  | .notDeletable chunk follower =>
    "cannot delete " ++ chunk.describe ++ ": it is not appendable and " ++
      (follower.map ChunkLabel.describe).getD "no optional chunk" ++ " follows it"
  | .cannotSwap a b => "cannot swap " ++ a.describe ++ " with " ++ b.describe
  | .overlapping first second =>
    "cannot swap overlapping chunks " ++ first.describe ++ " and " ++ second.describe
  | .emptyPool pool => "no " ++ pool.describe ++ " available"
  | .noDonor chunk => "no donor for " ++ chunk.describe
  | .noOptionalDonor => "no optional donor"
  | .unknownFile index => s!"File index {index} not found in corpus"
  | .noChunkAt path first last =>
    let shown := Text.quoted path
    s!"no chunk of {shown} spans bytes {first}..={last}"
  | .noPointAt path offset =>
    let shown := Text.quoted path
    s!"{shown} has no insertion point at byte {offset}"
  | .stated reason => reason

inductive MutationError where
  | precondition (cause : Precondition)
  | capacityExceeded (length capacity : Nat)
  | chunkNotCreated (offset : Nat)
  | walk (error : WalkError)
  deriving DecidableEq, Repr

namespace MutationError

def message : MutationError → String
  | .precondition cause => "mutation precondition failed: " ++ cause.message
  | .capacityExceeded length capacity =>
    s!"spliced decision stream of {length} bytes exceeds capacity {capacity}"
  | .chunkNotCreated offset =>
    s!"chunk expected at decision offset {offset} was not created by the replayed walk"
  | .walk error => "replayed walk failed: " ++ error.message

def exitCode : MutationError → Int
  | .precondition _ => -1
  | .chunkNotCreated _ => -2
  | .capacityExceeded _ _ => -3
  | .walk error => error.exitCode

end MutationError

end DecisionWalk
