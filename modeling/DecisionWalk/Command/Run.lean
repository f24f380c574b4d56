import DecisionWalk.Command.Arguments
import DecisionWalk.Command.Fuzz
import DecisionWalk.Command.LogFilter
import DecisionWalk.Command.Report
import DecisionWalk.Digest.Md5
import DecisionWalk.Format.Png
import DecisionWalk.Format.Riff
import DecisionWalk.Settings

/-!
# Commands

A command reads its settings, does its work on a disk, and ends with a status,
the text it printed, and perhaps the message of what went wrong.
-/

set_option autoImplicit false

namespace DecisionWalk.Command

structure Outcome where
  code : Int
  output : String
  message : Option String
  deriving DecidableEq, Repr

def Outcome.status (o : Outcome) : Nat := (o.code % 256).toNat

variable {m : Type → Type} [Monad m] [Disk m]

def readFile (path : String) : Task m Bytes := orFail (Disk.read path) (.read path)

def writeFile (path : String) (bytes : Bytes) : Task m Unit :=
  orFail (Disk.write path bytes) (.write path)

def readSettings (path : String) : Task m Settings := do
  let bytes ← orFail (Disk.read path) (.readSettings path)
  match String.fromUTF8? bytes.toByteArray with
  | none => throw (.readSettings path .notText)
  | some text =>
    match Settings.ofText? text with
    | none => throw (.malformedSettings path)
    | some settings => pure settings

def loadSettings (path : Option String) : Task m Settings := do
  match path with
  | some path => readSettings path
  | none =>
    if ← (Disk.holds Settings.defaultFile : m Bool) then readSettings Settings.defaultFile
    else pure {}

section Actions

variable {K : Type} [DecidableEq K] [ProductionKind K]

def loadWalk (format : Format K) (limits : Limits) (path : String) : Task m (Walk K) := do
  let bytes ← readFile path
  match format.grammar.parse limits bytes with
  | .ok walk => pure walk
  | .error e => throw (.invalidFile path format.name e)

def chunkAt (walk : Walk K) (first last : Nat) (path : String) : Task m (Chunk K) :=
  match walk.findChunk? first last with
  | some chunk => pure chunk
  | none => throw (.mutation (.precondition (.noChunkAt path first last)))

def pointAt (walk : Walk K) (offset : Nat) (path : String) : Task m (InsertionPoint K) :=
  match walk.pointAt? offset with
  | some point => pure point
  | none => throw (.mutation (.precondition (.noPointAt path offset)))

def writeMutation (r : ChaCha) (x : Mutating ChaCha (Mutation K)) (output : String) :
    Task m Int := do
  match x r with
  | .error e _ => throw (.mutation e)
  | .ok mutation _ =>
    writeFile output mutation.walk.file
    pure mutation.outcome.exitCode

def fuzzPlan (settings : Settings) (entropy : Nat) (count : Option Nat) (outDir : Option String)
    (seed : Option Nat) (seeds : List String) : FuzzPlan where
  iterations := count.getD settings.fuzzer.iterations
  outDir := outDir.getD settings.fuzzer.outputDir
  seed := (seed.or settings.fuzzer.seed).getD entropy
  seedPaths := if seeds.isEmpty then settings.seedPaths else seeds

def perform (host : Host m) (format : Format K) (settings : Settings) : Action → Task m Int
  | .fuzz count outDir seed seeds => do
    fuzz Md5.hexDigest format settings.engine host
      (fuzzPlan settings host.entropy count outDir seed seeds)
    pure 0
  | .generate decisions output => do
    let bytes ← readFile decisions
    match format.grammar.generate settings.engine bytes with
    | .error e => throw (.invalidDecisions decisions e)
    | .ok walk =>
      writeFile output walk.file
      pure 0
  | .parse file decisions json => do
    let walk ← loadWalk format settings.engine file
    match decisions with
    | some path => writeFile path walk.decisions
    | none => pure ()
    say (if json then Report.json walk.summaries else Report.lines walk.summaries)
    pure 0
  | .replace target first last donor donorFirst donorLast output => do
    let targetWalk ← loadWalk format settings.engine target
    let donorWalk ← loadWalk format settings.engine donor
    let chunk ← chunkAt targetWalk first last target
    let donorChunk ← chunkAt donorWalk donorFirst donorLast donor
    writeMutation source
      (mutator.replace targetWalk chunk donorChunk (donorWalk.decisionsOf donorChunk)) output
  | .delete target first last output => do
    let walk ← loadWalk format settings.engine target
    let chunk ← chunkAt walk first last target
    writeMutation source (mutator.delete walk chunk) output
  | .insert target position donor donorFirst donorLast output => do
    let targetWalk ← loadWalk format settings.engine target
    let donorWalk ← loadWalk format settings.engine donor
    let point ← pointAt targetWalk position target
    let donorChunk ← chunkAt donorWalk donorFirst donorLast donor
    writeMutation source
      (mutator.insert targetWalk point donorChunk (donorWalk.decisionsOf donorChunk)) output
  | .abstract target first last output => do
    let walk ← loadWalk format settings.engine target
    let chunk ← chunkAt walk first last target
    writeMutation source (mutator.abstractChunk walk chunk) output
  | .swap target first₁ last₁ first₂ last₂ output => do
    let walk ← loadWalk format settings.engine target
    let a ← chunkAt walk first₁ last₁ target
    let b ← chunkAt walk first₂ last₂ target
    writeMutation source (mutator.swap walk a b) output
where
  mutator : Mutator K := ⟨format.grammar, settings.engine⟩
  source : ChaCha := ChaCha.ofSeed (settings.fuzzer.seed.getD host.entropy)

end Actions

def performIn (host : Host m) (invocation : Invocation) : Task m Int := do
  let settings ← loadSettings invocation.config
  match invocation.format with
  | .png => perform host png settings invocation.action
  | .riff => perform host riff settings invocation.action

def logTarget : String := "strata"

def logFields : List String := ["message"]

def firstLine (s : String) : String := String.ofList (s.toList.takeWhile (· != '\n'))

def run (host : Host m) (args : List String) : m Outcome := do
  match request args with
  | .misuse => pure ⟨2, "", none⟩
  | .help => pure ⟨0, "", none⟩
  | .version => pure ⟨0, "strata_cli 0.1.0\n", none⟩
  | .run invocation =>
    match ← ((performIn host invocation).run.run "" : m _) with
    | (.ok code, output) => pure ⟨code, output, none⟩
    | (.error failure, output) =>
      let shown := LogFilter.showsErrors invocation.logLevel logTarget logFields
      pure ⟨failure.exitCode, output, if shown then some (firstLine failure.message) else none⟩

end DecisionWalk.Command
