import DecisionWalk.Corpus.Basic
import DecisionWalk.Disk.Basic

/-!
# Seed files

A corpus is filled from seed paths. A directory stands for the files directly in
it, in the order of their names, without hidden ones. Files that do not parse
are passed over.
-/

set_option autoImplicit false

namespace DecisionWalk.Corpus

variable {K : Type} [DecidableEq K] {m : Type → Type} [Monad m] [Disk m]

def loadSeed (grammar : Grammar K Unit) (limits : Limits) (c : Corpus K) (path : String) :
    m (Except CorpusError (Bool × Corpus K)) := do
  match ← Disk.read path with
  | .error e =>
    pure (.error (.io ("Failed to read seed file " ++ Text.quoted path ++ ": " ++ e.message)))
  | .ok bytes =>
    match grammar.parse limits bytes with
    | .ok walk => pure (.ok (true, (c.add path walk).2))
    | .error _ => pure (.ok (false, c))

def loadFiles (grammar : Grammar K Unit) (limits : Limits) :
    List String → Nat → Corpus K → m (Except CorpusError (Nat × Corpus K))
  | [], count, c => pure (.ok (count, c))
  | path :: rest, count, c => do
    if ← Disk.isFile path then
      match ← loadSeed grammar limits c path with
      | .error e => pure (.error e)
      | .ok (added, c) => loadFiles grammar limits rest (if added then count + 1 else count) c
    else loadFiles grammar limits rest count c

def visibleIn (dir : String) (names : List String) : List String :=
  ((names.filter (!·.startsWith ".")).mergeSort fun a b => decide (a ≤ b)).map (Disk.join dir)

def seedFiles (path : String) : m (Except CorpusError (List String)) := do
  if ← Disk.isFile path then pure (.ok [path])
  else if ← Disk.isDir path then
    match ← Disk.children path with
    | .ok names => pure (.ok (visibleIn path names))
    | .error e =>
      pure (.error (.io
        ("Failed to read seed directory " ++ Text.quoted path ++ ": " ++ e.message)))
  else pure (.ok [])

def loadSeeds (grammar : Grammar K Unit) (limits : Limits) :
    List String → Nat → Corpus K → m (Except CorpusError (Nat × Corpus K))
  | [], count, c => pure (.ok (count, c))
  | path :: rest, count, c => do
    match ← seedFiles path with
    | .error e => pure (.error e)
    | .ok files =>
      match ← loadFiles grammar limits files count c with
      | .error e => pure (.error e)
      | .ok (count, c) => loadSeeds grammar limits rest count c

end DecisionWalk.Corpus
