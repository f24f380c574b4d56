import DecisionWalk.Random.Source
import DecisionWalk.Walk

/-!
# A corpus of walked files

A corpus indexes the chunks of its files once, when a file is added: optional
chunks in one list, all others by kind. Every indexed chunk is stamped with the
number of its file, so its decisions can be found again.
-/

set_option autoImplicit false

namespace DecisionWalk

structure CorpusFile (K : Type) where
  label : String
  walk : Walk K
  deriving Repr

structure Share (K : Type) where
  kind : K
  span : Span
  deriving DecidableEq, Repr

structure Corpus (K : Type) where
  files : Array (CorpusFile K)
  optional : Array (Chunk K)
  optionalShares : Array Span
  mandatory : List (K × Array (Chunk K))
  mandatoryShares : Array (List (Share K))
  deriving Repr

inductive CorpusError where
  | io (reason : String)
  | fileNotFound (index : Nat)
  deriving DecidableEq, Repr

def CorpusError.message : CorpusError → String
  | .io reason => s!"Corpus I/O error: {reason}"
  | .fileNotFound index => s!"File index {index} not found in corpus"

namespace Corpus

variable {K : Type}

def empty : Corpus K := ⟨#[], #[], #[], [], #[]⟩

def size (c : Corpus K) : Nat := c.files.size

def isEmpty (c : Corpus K) : Bool := c.files.isEmpty

def file (c : Corpus K) (index : Nat) : Except CorpusError (CorpusFile K) :=
  match c.files[index]? with
  | some f => .ok f
  | none => .error (.fileNotFound index)

section Kinds

variable [DecidableEq K]

def appendKind (kind : K) (chunks : List (Chunk K)) :
    List (K × Array (Chunk K)) → Span × List (K × Array (Chunk K))
  | [] => (⟨0, chunks.length⟩, [(kind, chunks.toArray)])
  | (k, old) :: rest =>
    if k = kind then (⟨old.size, old.size + chunks.length⟩, (k, old ++ chunks) :: rest)
    else
      let (span, rest) := appendKind kind chunks rest
      (span, (k, old) :: rest)

def appendKinds (chunks : List (Chunk K)) :
    List K → List (K × Array (Chunk K)) → List (Share K) × List (K × Array (Chunk K))
  | [], index => ([], index)
  | kind :: kinds, index =>
    let (span, index) := appendKind kind (chunks.filter (·.kind == kind)) index
    let (shares, index) := appendKinds chunks kinds index
    (⟨kind, span⟩ :: shares, index)

def add (c : Corpus K) (label : String) (walk : Walk K) : Nat × Corpus K :=
  let number := c.files.size
  let stamped := walk.chunks.map fun chunk => { chunk with fileIndex := number }
  let optional := stamped.filter (·.optional)
  let mandatory := stamped.filter (!·.optional)
  let kinds := (mandatory.map Chunk.kind).eraseDups
  let (shares, index) := appendKinds mandatory kinds c.mandatory
  (number,
    { files := c.files.push ⟨label, walk⟩
      optional := c.optional ++ optional
      optionalShares := c.optionalShares.push ⟨c.optional.size, c.optional.size + optional.length⟩
      mandatory := index
      mandatoryShares := c.mandatoryShares.push shares })

def optionalChunks (c : Corpus K) : List (Chunk K) := c.optional.toList

def optionalIn (c : Corpus K) (index : Nat) : List (Chunk K) :=
  match c.optionalShares[index]? with
  | some span => span.of c.optional.toList
  | none => []

def chunksOfKind (c : Corpus K) (kind : K) : List (Chunk K) :=
  match c.mandatory.lookup kind with
  | some chunks => chunks.toList
  | none => []

def chunksOfKindIn (c : Corpus K) (index : Nat) (kind : K) : List (Chunk K) :=
  match (c.mandatoryShares.getD index []).find? (·.kind == kind) with
  | some share => share.span.of (c.chunksOfKind kind)
  | none => []

end Kinds

def insertionPoints (c : Corpus K) (index : Nat) : List (InsertionPoint K) :=
  match c.files[index]? with
  | some f => f.walk.points
  | none => []

def decisionsOf (c : Corpus K) (chunk : Chunk K) : Except CorpusError Bytes :=
  match c.file chunk.fileIndex with
  | .ok f => .ok (f.walk.decisionsOf chunk)
  | .error e => .error e

section Choices

variable {ρ : Type} [RandomSource ρ]

def randomFile? (c : Corpus K) (r : ρ) : Option Nat × ρ :=
  Random.pick? r (List.range c.files.size)

def donors [DecidableEq K] (c : Corpus K) (chunk : Chunk K) : List (Chunk K) :=
  if chunk.optional then c.optionalChunks else c.chunksOfKind chunk.kind

def randomDonor? [DecidableEq K] (c : Corpus K) (chunk : Chunk K) (r : ρ) : Option (Chunk K) × ρ :=
  Random.pick? r (c.donors chunk)

def randomOptional? (c : Corpus K) (r : ρ) : Option (Chunk K) × ρ :=
  Random.pick? r c.optional.toList

end Choices

end Corpus

end DecisionWalk
