import DecisionWalk.Toml.Document
import DecisionWalk.Walker.State

/-!
# Settings

The settings file has three sections. Every setting has a default, unknown names
are refused, and a section may also be written as a list of its values in order.
-/

set_option autoImplicit false

namespace DecisionWalk

structure FuzzSettings where
  iterations : Nat := 100
  seed : Option Nat := none
  outputDir : String := "./strata_out"
  deriving DecidableEq, Repr

structure CorpusSettings where
  initialSeedPaths : Option (List String) := none
  deriving DecidableEq, Repr

structure Settings where
  engine : Limits := {}
  fuzzer : FuzzSettings := {}
  corpus : Option CorpusSettings := none
  deriving DecidableEq, Repr

namespace Settings

open Toml

def defaultFile : String := "strata.toml"

def seedPaths (s : Settings) : List String := (s.corpus.bind (·.initialSeedPaths)).getD []

def natural? : Datum → Option Nat
  | .integer n => if 0 ≤ n then some n.toNat else none
  | _ => none

def truth? : Datum → Option Bool
  | .boolean b => some b
  | _ => none

def text? : Datum → Option String
  | .text s => some s
  | _ => none

def texts? : Datum → Option (List String)
  | .list items => items.mapM text?
  | _ => none

def lookup? (names : List String) : Datum → Option (String → Option Datum)
  | .record _ fields =>
    if fields.all (names.contains ·.1) then some fun name => fields.lookup name else none
  | .list items => some fun name => (names.findIdx? (· == name)).bind (items[·]?)
  | _ => none

def settingOr {α : Type} (value : Option Datum) (read : Datum → Option α) (default : α) :
    Option α :=
  match value with
  | none => some default
  | some v => read v

def readEngine (v : Datum) : Option Limits := do
  let get ← lookup? ["stream-capacity", "file-capacity", "max-depth", "allow-evil"] v
  let defaults : Limits := {}
  let streamCapacity ← settingOr (get "stream-capacity") natural? defaults.streamCapacity
  let fileCapacity ← settingOr (get "file-capacity") natural? defaults.fileCapacity
  let maxDepth ← settingOr (get "max-depth") natural? defaults.maxDepth
  let allowEvil ← settingOr (get "allow-evil") truth? defaults.allowEvil
  some ⟨streamCapacity, fileCapacity, maxDepth, allowEvil⟩

def readFuzzer (v : Datum) : Option FuzzSettings := do
  let get ← lookup? ["iterations", "seed", "output-dir"] v
  let defaults : FuzzSettings := {}
  let iterations ← settingOr (get "iterations") natural? defaults.iterations
  let seed ← settingOr (get "seed") (fun v => (natural? v).map some) defaults.seed
  let outputDir ← settingOr (get "output-dir") text? defaults.outputDir
  some ⟨iterations, seed, outputDir⟩

def readCorpus (v : Datum) : Option CorpusSettings :=
  match v with
  | .list [] => none
  | v => do
    let get ← lookup? ["initial-seed-paths"] v
    let paths ← settingOr (get "initial-seed-paths") (fun v => (texts? v).map some) none
    some ⟨paths⟩

def readSection (s : Settings) : String × Datum → Option Settings
  | ("engine", value) => (readEngine value).map fun engine => { s with engine := engine }
  | ("fuzzer", value) => (readFuzzer value).map fun fuzzer => { s with fuzzer := fuzzer }
  | ("corpus", value) => (readCorpus value).map fun corpus => { s with corpus := some corpus }
  | _ => none

def ofText? (text : String) : Option Settings := do
  let document ← Document.ofText? text
  document.sections.foldlM readSection {}

end Settings

end DecisionWalk
