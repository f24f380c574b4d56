import DecisionWalk.Disk.FileTree
import DecisionWalk.Proofs.Tasks

/-!
# Statuses of mutating commands

A command that mutates a file ends with status zero only when the splice was
exact and its file was written. An inexact splice is written too, and its
difference is the status. No failure has status zero, and a command that fails
leaves its disk alone.
-/

set_option autoImplicit false

namespace DecisionWalk

variable {K : Type}

theorem WalkError.exitCode_ne_zero {e : WalkError} (h : ∀ reason, e ≠ .grammarStop 0 reason) :
    e.exitCode ≠ 0 := by
  cases e with
  | grammarStop code reason =>
    intro hcode
    exact h reason (congrArg (WalkError.grammarStop · reason) hcode)
  | structural | capacityExceeded | defect => simp [exitCode]

theorem State.finish_error {s : State K} {e : WalkError} (h : s.finish = .error e) :
    e.exitCode ≠ 0 := by
  rw [State.finish] at h
  split at h
  · cases h
    simp [WalkError.exitCode]
  · cases h

namespace Grammar

theorem seed_error {origin : Origin} {limits : Limits} {e : WalkError} {s : State K}
    (h : seed origin (State.empty limits) = .error e s) : e.exitCode ≠ 0 := by
  cases origin with
  | input bytes => cases h
  | decisions bytes =>
    rw [seed, Walker.seedGenerate, Stream.seed] at h
    split at h
    case h_1 => cases h
    case h_2 e' hseed =>
      cases h
      split at hseed <;> cases hseed
      simp [WalkError.exitCode]

variable [DecidableEq K]

/-- A walk that ended without a result has a status, since a stop with status zero counts as
success. -/
theorem runFrom_error {g : Grammar K Unit} {limits : Limits} {origin : Origin}
    {watches : List (Watch K)} {e : WalkError}
    (h : (g.runFrom limits origin watches).outcome = .error e) : e.exitCode ≠ 0 := by
  rw [runFrom] at h
  split at h
  case h_1 e' s hseed =>
    cases h
    exact seed_error hseed
  case h_2 s hseed =>
    rw [conclude.eq_def] at h
    split at h
    case h_1 => exact State.finish_error h
    case h_2 => exact State.finish_error h
    case h_3 e' t hstop hrun =>
      cases h
      exact WalkError.exitCode_ne_zero fun reason he => hstop reason he

theorem parse_error {g : Grammar K Unit} {limits : Limits} {input : Bytes} {e : WalkError}
    (h : g.parse limits input = .error e) : e.exitCode ≠ 0 := by
  rw [parse] at h
  cases hrun : (g.runFrom limits (.input input) []).outcome with
  | ok v =>
    rw [hrun] at h
    cases h
  | error e' =>
    rw [hrun] at h
    cases h
    exact runFrom_error hrun

end Grammar

theorem MutationError.exitCode_walk {e : WalkError} (h : e.exitCode ≠ 0) :
    (MutationError.walk e).exitCode ≠ 0 := h

theorem SpliceOutcome.exitCode_eq_zero {o : SpliceOutcome}
    (h : ∀ d, o = .mismatch d → d ≠ 0) : o.exitCode = 0 ↔ o = .exact := by
  cases o with
  | exact => simp [exitCode]
  | mismatch d =>
    have hd := h d rfl
    simp only [exitCode, reduceCtorEq, iff_false]
    omega

namespace Mutator

variable {α β ρ : Type}

def Candid (p : α → Prop) (x : Mutating ρ α) : Prop :=
  ∀ r, match x r with
    | .ok a _ => p a
    | .error e _ => e.exitCode ≠ 0

def Differs (result : Mutation K) : Prop := ∀ d, result.outcome = .mismatch d → d ≠ 0

theorem verdict_candid (watches : List (Watch K)) {before : SpliceOutcome}
    (hb : ∀ d, before = .mismatch d → d ≠ 0) :
    match verdict watches before with
    | .ok outcome => ∀ d, outcome = .mismatch d → d ≠ 0
    | .error e => e.exitCode ≠ 0 := by
  induction watches generalizing before with
  | nil => exact hb
  | cons w rest ih =>
    rw [verdict]
    cases w.observedStop with
    | none => simp [MutationError.exitCode]
    | some observed =>
      cases w.expectedStop with
      | none => exact ih hb
      | some expected =>
        dsimp only
        by_cases hne : (observed : Int) - (expected : Int) ≠ 0 ∧ before = .exact
        · rw [if_pos hne]
          refine ih ?_
          intro d hd
          cases hd
          exact hne.1
        · rw [if_neg hne]
          exact ih hb

namespace Candid

variable {p : β → Prop}

theorem refuse (cause : Precondition) : Candid p (refuse cause : Mutating ρ β) := by
  intro r
  show (-1 : Int) ≠ 0
  decide

theorem bind {x : Mutating ρ α} {f : α → Mutating ρ β} (hx : Candid (fun _ => True) x)
    (hf : ∀ a, Candid p (f a)) : Candid p (x >>= f) := by
  intro r
  have hr := hx r
  show match EStateM.bind x f r with
    | .ok a _ => p a
    | .error e _ => e.exitCode ≠ 0
  rw [EStateM.bind]
  cases h : x r with
  | ok a s => exact hf a s
  | error e s =>
    rw [h] at hr
    exact hr

theorem guarded {c : Prop} [Decidable c] (cause : Precondition) {y : Mutating ρ β}
    (hy : Candid p y) :
    Candid p (if c then (Mutator.refuse cause : Mutating ρ PUnit) >>= fun _ => y else y) := by
  split
  · exact bind (refuse cause) fun _ => hy
  · exact hy

theorem regenerate [DecidableEq K] (m : Mutator K) (operation : Operation) (decisions : Bytes)
    (watches : List (Watch K)) :
    Candid Differs (MonadExcept.ofExcept (m.regenerate operation decisions watches) :
      Mutating ρ (Mutation K)) := by
  intro r
  rw [Mutator.regenerate]
  cases hw : m.grammar.replay m.limits decisions watches with
  | error e => exact MutationError.exitCode_walk (Grammar.runFrom_error hw)
  | ok v =>
    obtain ⟨walk, seen⟩ := v
    have hv := verdict_candid seen (show ∀ d, SpliceOutcome.exact = .mismatch d → d ≠ 0 by simp)
    dsimp only
    cases h : verdict seen .exact with
    | error e =>
      rw [h] at hv
      exact hv
    | ok outcome =>
      rw [h] at hv
      exact hv

section Sources

variable [RandomSource ρ]

theorem randomBytes (n : Nat) : Candid (fun _ => True) (randomBytes n : Mutating ρ Bytes) :=
  fun _ => trivial

theorem splice (m : Mutator K) (parts : List Bytes) :
    Candid (fun _ => True) (m.splice parts : Mutating ρ Bytes) := by
  rw [Mutator.splice]
  dsimp only
  split
  · intro r
    show (-3 : Int) ≠ 0
    decide
  · exact bind (randomBytes _) fun _ _ => trivial

end Sources

variable [ProductionKind K]

theorem checkDonor (donor : Chunk K) (decisions : Bytes) :
    Candid (fun _ => True) (checkDonor donor decisions : Mutating ρ Unit) := by
  rw [Mutator.checkDonor]
  split
  · exact fun _ => trivial
  · exact refuse _

variable [DecidableEq K] [RandomSource ρ]

theorem replace (m : Mutator K) (target : Walk K) (chunk donor : Chunk K) (decisions : Bytes) :
    Candid Differs (m.replace target chunk donor decisions : Mutating ρ (Mutation K)) :=
  guarded _ (bind (checkDonor _ _) fun _ => bind (splice _ _) fun _ => regenerate _ _ _ _)

theorem insert (m : Mutator K) (target : Walk K) (point : InsertionPoint K) (donor : Chunk K)
    (decisions : Bytes) :
    Candid Differs (m.insert target point donor decisions : Mutating ρ (Mutation K)) :=
  guarded _ (guarded _ (bind (checkDonor _ _) fun _ => bind (splice _ _) fun _ =>
    regenerate _ _ _ _))

theorem delete (m : Mutator K) (target : Walk K) (chunk : Chunk K) :
    Candid Differs (m.delete target chunk : Mutating ρ (Mutation K)) :=
  guarded _ (guarded _ (bind (splice _ _) fun _ => regenerate _ _ _ _))

omit [ProductionKind K] in
theorem abstractChunk (m : Mutator K) (target : Walk K) (chunk : Chunk K) :
    Candid Differs (m.abstractChunk target chunk : Mutating ρ (Mutation K)) :=
  bind (splice _ _) fun _ => bind (randomBytes _) fun _ => regenerate _ _ _ _

theorem swap (m : Mutator K) (target : Walk K) (a b : Chunk K) :
    Candid Differs (m.swap target a b : Mutating ρ (Mutation K)) := by
  have hordered : ∀ first second,
      Candid Differs (m.swapOrdered target first second : Mutating ρ (Mutation K)) := fun _ _ =>
    guarded _ (bind (splice _ _) fun _ => regenerate _ _ _ _)
  apply guarded
  split
  · exact hordered a b
  · exact hordered b a

end Candid

end Mutator

namespace Command

structure Made where
  file : Bytes
  outcome : SpliceOutcome

def Made.Differs (made : Made) : Prop := ∀ d, made.outcome = .mismatch d → d ≠ 0

inductive Edit where
  | replace (first last : Nat) (donor : String) (donorFirst donorLast : Nat)
  | delete (first last : Nat)
  | insert (position : Nat) (donor : String) (donorFirst donorLast : Nat)
  | abstract (first last : Nat)
  | swap (first₁ last₁ first₂ last₂ : Nat)
  deriving DecidableEq, Repr

def Edit.action (target output : String) : Edit → Action
  | .replace first last donor donorFirst donorLast =>
    .replace target first last donor donorFirst donorLast output
  | .delete first last => .delete target first last output
  | .insert position donor donorFirst donorLast =>
    .insert target position donor donorFirst donorLast output
  | .abstract first last => .abstract target first last output
  | .swap first₁ last₁ first₂ last₂ => .swap target first₁ last₁ first₂ last₂ output

section Looking

def settingsIn (t : FileTree) : Option String → Except Failure Settings
  | some path => named path
  | none => if (t.lookup? Settings.defaultFile).isSome then named Settings.defaultFile else .ok {}
where
  named (path : String) : Except Failure Settings := do
    let bytes ← (t.read path).mapError (.readSettings path)
    match String.fromUTF8? bytes.toByteArray with
    | none => .error (.readSettings path .notText)
    | some text =>
      match Settings.ofText? text with
      | none => .error (.malformedSettings path)
      | some settings => .ok settings

def walkIn [DecidableEq K] (t : FileTree) (format : Format K) (limits : Limits) (path : String) :
    Except Failure (Walk K) := do
  let bytes ← (t.read path).mapError (.read path)
  (format.grammar.parse limits bytes).mapError (.invalidFile path format.name)

def chunkIn (walk : Walk K) (first last : Nat) (path : String) : Except Failure (Chunk K) :=
  match walk.findChunk? first last with
  | some chunk => .ok chunk
  | none => .error (.mutation (.precondition (.noChunkAt path first last)))

def pointIn (walk : Walk K) (offset : Nat) (path : String) : Except Failure (InsertionPoint K) :=
  match walk.pointAt? offset with
  | some point => .ok point
  | none => .error (.mutation (.precondition (.noPointAt path offset)))

def madeBy (r : ChaCha) (x : Mutating ChaCha (Mutation K)) : Except Failure Made :=
  match x r with
  | .error e _ => .error (.mutation e)
  | .ok mutation _ => .ok ⟨mutation.walk.file, mutation.outcome⟩

variable [DecidableEq K] [ProductionKind K]

def Edit.made (t : FileTree) (format : Format K) (limits : Limits) (r : ChaCha) (target : String) :
    Edit → Except Failure Made
  | .replace first last donor donorFirst donorLast => do
    let targetWalk ← walkIn t format limits target
    let donorWalk ← walkIn t format limits donor
    let chunk ← chunkIn targetWalk first last target
    let donorChunk ← chunkIn donorWalk donorFirst donorLast donor
    madeBy r (m.replace targetWalk chunk donorChunk (donorWalk.decisionsOf donorChunk))
  | .delete first last => do
    let walk ← walkIn t format limits target
    let chunk ← chunkIn walk first last target
    madeBy r (m.delete walk chunk)
  | .insert position donor donorFirst donorLast => do
    let targetWalk ← walkIn t format limits target
    let donorWalk ← walkIn t format limits donor
    let point ← pointIn targetWalk position target
    let donorChunk ← chunkIn donorWalk donorFirst donorLast donor
    madeBy r (m.insert targetWalk point donorChunk (donorWalk.decisionsOf donorChunk))
  | .abstract first last => do
    let walk ← walkIn t format limits target
    let chunk ← chunkIn walk first last target
    madeBy r (m.abstractChunk walk chunk)
  | .swap first₁ last₁ first₂ last₂ => do
    let walk ← walkIn t format limits target
    let a ← chunkIn walk first₁ last₁ target
    let b ← chunkIn walk first₂ last₂ target
    madeBy r (m.swap walk a b)
where
  m : Mutator K := ⟨format.grammar, limits⟩

end Looking

def edited (t : FileTree) (entropy : Nat) (format : FormatName) (config : Option String)
    (target : String) (edit : Edit) : Except Failure Made := do
  let settings ← settingsIn t config
  let source := ChaCha.ofSeed (settings.fuzzer.seed.getD entropy)
  match format with
  | .png => edit.made t png settings.engine source target
  | .riff => edit.made t riff settings.engine source target

section Running

variable {α : Type} {t : FileTree} {output : String}

def Delivers (x : Task (StateM FileTree) Int) (t : FileTree) (output : String)
    (result : Except Failure Made) : Prop :=
  ∀ out, after x out t =
    match result with
    | .error e => ((.error e, out), t)
    | .ok made =>
      match t.write output made.file with
      | .error e => ((.error (.write output e), out), t)
      | .ok written => ((.ok made.outcome.exitCode, out), written)

theorem Delivers.bind {x : Task (StateM FileTree) α} {f : α → Task (StateM FileTree) Int}
    {r : Except Failure α} {k : α → Except Failure Made} (hx : Reads x t r)
    (hf : ∀ a, Delivers (f a) t output (k a)) : Delivers (x >>= f) t output (r >>= k) := by
  intro out
  cases r with
  | error e => exact after_bind_error (hx out)
  | ok a => exact (after_bind_ok (hx out)).trans (hf a out)

theorem write_error {path : String} {bytes : Bytes} {e : DiskError}
    (h : t.write path bytes = .error e) :
    (Disk.write path bytes : StateM FileTree _).run t = (.error e, t) := by
  show tryUpdate (·.write path bytes) t = _
  rw [tryUpdate, h]

theorem write_ok {path : String} {bytes : Bytes} {written : FileTree}
    (h : t.write path bytes = .ok written) :
    (Disk.write path bytes : StateM FileTree _).run t = (.ok (), written) := by
  show tryUpdate (·.write path bytes) t = _
  rw [tryUpdate, h]

theorem Delivers.writeMutation (r : ChaCha) (x : Mutating ChaCha (Mutation K)) :
    Delivers (writeMutation r x output) t output (madeBy r x) := by
  intro out
  rw [Command.writeMutation, madeBy]
  cases x r with
  | error e r' => rfl
  | ok mutation r' =>
    have hwrite := after_orFail (Disk.write output mutation.walk.file : StateM FileTree _)
      (.write output) out t
    dsimp only
    cases h : t.write output mutation.walk.file with
    | error e =>
      rw [write_error h] at hwrite
      exact after_bind_error hwrite
    | ok written =>
      rw [write_ok h] at hwrite
      exact (after_bind_ok hwrite).trans (after_pure _ out written)

section Looks

theorem read_reads (t : FileTree) (path : String) (failure : DiskError → Failure) :
    Reads (orFail (Disk.read path) failure) t ((t.read path).mapError failure) :=
  Reads.orFail (y := Disk.read path) (a := t.read path) rfl failure

theorem settingsIn_reads (config : Option String) :
    Reads (loadSettings config) t (settingsIn t config) := by
  have hnamed : ∀ path, Reads (readSettings path) t (settingsIn.named t path) := by
    intro path
    refine (read_reads t path _).bind fun bytes => ?_
    cases String.fromUTF8? bytes.toByteArray with
    | none => exact .throw _ t
    | some text =>
      dsimp only
      cases Settings.ofText? text with
      | none => exact .throw _ t
      | some settings => exact .pure _ t
  cases config with
  | some path => exact hnamed path
  | none =>
    intro out
    refine (after_bind_ok (after_lift _ out t)).trans ?_
    show after (if (t.lookup? Settings.defaultFile).isSome then _ else _) out t = _
    rw [settingsIn]
    split
    · exact hnamed _ out
    · exact after_pure _ out t

theorem walkIn_reads [DecidableEq K] (format : Format K) (limits : Limits) (path : String) :
    Reads (loadWalk format limits path) t (walkIn t format limits path) := by
  refine (read_reads t path _).bind fun bytes => ?_
  cases format.grammar.parse limits bytes with
  | ok walk => exact .pure _ t
  | error e => exact .throw _ t

theorem chunkIn_reads (walk : Walk K) (first last : Nat) (path : String) :
    Reads (chunkAt walk first last path) t (chunkIn walk first last path) := by
  rw [chunkAt, chunkIn]
  cases walk.findChunk? first last with
  | some chunk => exact .pure _ t
  | none => exact .throw _ t

theorem pointIn_reads (walk : Walk K) (offset : Nat) (path : String) :
    Reads (pointAt walk offset path) t (pointIn walk offset path) := by
  rw [pointAt, pointIn]
  cases walk.pointAt? offset with
  | some point => exact .pure _ t
  | none => exact .throw _ t

end Looks

theorem Delivers.perform [DecidableEq K] [ProductionKind K] (host : Host (StateM FileTree))
    (format : Format K) (settings : Settings) (target : String) (edit : Edit) :
    Delivers (perform host format settings (edit.action target output)) t output
      (edit.made t format settings.engine
        (ChaCha.ofSeed (settings.fuzzer.seed.getD host.entropy)) target) := by
  cases edit with
  | replace first last donor donorFirst donorLast =>
    exact .bind (walkIn_reads _ _ _) fun _ => .bind (walkIn_reads _ _ _) fun _ =>
      .bind (chunkIn_reads _ _ _ _) fun _ => .bind (chunkIn_reads _ _ _ _) fun _ =>
        .writeMutation _ _
  | delete first last =>
    exact .bind (walkIn_reads _ _ _) fun _ => .bind (chunkIn_reads _ _ _ _) fun _ =>
      .writeMutation _ _
  | insert position donor donorFirst donorLast =>
    exact .bind (walkIn_reads _ _ _) fun _ => .bind (walkIn_reads _ _ _) fun _ =>
      .bind (pointIn_reads _ _ _) fun _ => .bind (chunkIn_reads _ _ _ _) fun _ => .writeMutation _ _
  | abstract first last =>
    exact .bind (walkIn_reads _ _ _) fun _ => .bind (chunkIn_reads _ _ _ _) fun _ =>
      .writeMutation _ _
  | swap first₁ last₁ first₂ last₂ =>
    exact .bind (walkIn_reads _ _ _) fun _ => .bind (chunkIn_reads _ _ _ _) fun _ =>
      .bind (chunkIn_reads _ _ _ _) fun _ => .writeMutation _ _

theorem Delivers.performIn (host : Host (StateM FileTree)) (format : FormatName)
    (config : Option String) (logLevel target : String) (edit : Edit) :
    Delivers (performIn host ⟨format, config, logLevel, edit.action target output⟩) t output
      (edited t host.entropy format config target edit) := by
  refine .bind (settingsIn_reads config) fun settings => ?_
  cases format with
  | png => exact .perform host png settings target edit
  | riff => exact .perform host riff settings target edit

end Running

section Telling

variable {α β : Type}

def Telling (p : α → Prop) : Except Failure α → Prop
  | .ok a => p a
  | .error e => e.exitCode ≠ 0

namespace Telling

variable {p : β → Prop} {r : Except Failure α}

theorem bind {k : α → Except Failure β} (hr : Telling (fun _ => True) r)
    (hk : ∀ a, Telling p (k a)) : Telling p (r >>= k) := by
  cases r with
  | error e => exact hr
  | ok a => exact hk a

theorem mapError {ε : Type} (r : Except ε α) {failure : ε → Failure}
    (h : ∀ e, r = .error e → (failure e).exitCode ≠ 0) :
    Telling (fun _ => True) (r.mapError failure) := by
  cases r with
  | error e => exact h e rfl
  | ok a => trivial

theorem settingsIn (t : FileTree) (config : Option String) :
    Telling (fun _ => True) (settingsIn t config) := by
  have hnamed : ∀ path, Telling (fun _ => True) (settingsIn.named t path) := by
    intro path
    refine bind (mapError _ fun e _ => ?_) fun bytes => ?_
    · simp [Failure.exitCode]
    · split
      · simp [Telling, Failure.exitCode]
      · split <;> simp [Telling, Failure.exitCode]
  cases config with
  | some path => exact hnamed path
  | none =>
    rw [Command.settingsIn]
    split
    · exact hnamed _
    · trivial

theorem walkIn [DecidableEq K] (t : FileTree) (format : Format K) (limits : Limits)
    (path : String) : Telling (fun _ => True) (walkIn t format limits path) := by
  refine bind (mapError _ fun e _ => ?_) fun bytes => mapError _ fun e he => ?_
  · simp [Failure.exitCode]
  · exact Grammar.parse_error he

theorem chunkIn (walk : Walk K) (first last : Nat) (path : String) :
    Telling (fun _ => True) (chunkIn walk first last path) := by
  rw [Command.chunkIn]
  cases walk.findChunk? first last <;> simp [Telling, Failure.exitCode, MutationError.exitCode]

theorem pointIn (walk : Walk K) (offset : Nat) (path : String) :
    Telling (fun _ => True) (pointIn walk offset path) := by
  rw [Command.pointIn]
  cases walk.pointAt? offset <;> simp [Telling, Failure.exitCode, MutationError.exitCode]

theorem madeBy {x : Mutating ChaCha (Mutation K)} (hx : Mutator.Candid Mutator.Differs x)
    (r : ChaCha) : Telling Made.Differs (madeBy r x) := by
  have h := hx r
  rw [Command.madeBy]
  cases hr : x r with
  | error e r' =>
    rw [hr] at h
    exact h
  | ok mutation r' =>
    rw [hr] at h
    exact h

theorem made [DecidableEq K] [ProductionKind K] (t : FileTree) (format : Format K)
    (limits : Limits) (r : ChaCha) (target : String) (edit : Edit) :
    Telling Made.Differs (edit.made t format limits r target) := by
  cases edit with
  | replace first last donor donorFirst donorLast =>
    exact bind (walkIn _ _ _ _) fun _ => bind (walkIn _ _ _ _) fun _ =>
      bind (chunkIn _ _ _ _) fun _ => bind (chunkIn _ _ _ _) fun _ => madeBy (.replace _ _ _ _ _) r
  | delete first last =>
    exact bind (walkIn _ _ _ _) fun _ => bind (chunkIn _ _ _ _) fun _ => madeBy (.delete _ _ _) r
  | insert position donor donorFirst donorLast =>
    exact bind (walkIn _ _ _ _) fun _ => bind (walkIn _ _ _ _) fun _ =>
      bind (pointIn _ _ _) fun _ => bind (chunkIn _ _ _ _) fun _ => madeBy (.insert _ _ _ _ _) r
  | abstract first last =>
    exact bind (walkIn _ _ _ _) fun _ => bind (chunkIn _ _ _ _) fun _ =>
      madeBy (.abstractChunk _ _ _) r
  | swap first₁ last₁ first₂ last₂ =>
    exact bind (walkIn _ _ _ _) fun _ => bind (chunkIn _ _ _ _) fun _ =>
      bind (chunkIn _ _ _ _) fun _ => madeBy (.swap _ _ _ _) r

theorem edited (t : FileTree) (entropy : Nat) (format : FormatName) (config : Option String)
    (target : String) (edit : Edit) :
    Telling Made.Differs (edited t entropy format config target edit) := by
  refine bind (settingsIn t config) fun settings => ?_
  cases format with
  | png => exact made _ _ _ _ _ _
  | riff => exact made _ _ _ _ _ _

end Telling

end Telling

structure Reported (t : FileTree) (output : String) (result : Except Failure Made) (code : Int)
    (left : FileTree) : Prop where
  zero_iff : code = 0 ↔ ∃ made, result = .ok made ∧ made.outcome = .exact ∧
    t.write output made.file = .ok left
  inexact : ∀ made d written, result = .ok made → made.outcome = .mismatch d →
    t.write output made.file = .ok written →
    left = written ∧ d ≠ 0 ∧ code = max (-0x80000000) (min d 0x7FFFFFFF) ∧ code ≠ 0
  failed : ∀ e, result = .error e → code = e.exitCode ∧ code ≠ 0 ∧ left = t
  unwritten : ∀ made e, result = .ok made → t.write output made.file = .error e →
    code ≠ 0 ∧ left = t

namespace Reported

variable {t written : FileTree} {output : String}

theorem error {e : Failure} (h : e.exitCode ≠ 0) :
    Reported t output (.error e) e.exitCode t := by
  refine ⟨?_, ?_, ?_, ?_⟩
  · simp [h]
  · rintro made d written ⟨⟩
  · rintro e' ⟨⟩
    exact ⟨rfl, h, rfl⟩
  · rintro made e' ⟨⟩

theorem unwrittenMade {made : Made} {e : DiskError} (h : t.write output made.file = .error e) :
    Reported t output (.ok made) (Failure.write output e).exitCode t := by
  have hcode : (Failure.write output e).exitCode ≠ 0 := by simp [Failure.exitCode]
  refine ⟨?_, ?_, ?_, ?_⟩
  · simp [h, hcode]
  · rintro made' d written ⟨⟩ _ hw
    rw [h] at hw
    cases hw
  · rintro e' ⟨⟩
  · intro made' e' _ _
    exact ⟨hcode, rfl⟩

theorem ok {made : Made} (hd : made.Differs) (h : t.write output made.file = .ok written) :
    Reported t output (.ok made) made.outcome.exitCode written := by
  have hzero := SpliceOutcome.exitCode_eq_zero hd
  refine ⟨?_, ?_, ?_, ?_⟩
  · rw [hzero]
    constructor
    · exact fun hexact => ⟨made, rfl, hexact, h⟩
    · rintro ⟨made', ⟨⟩, hexact, -⟩
      exact hexact
  · rintro made' d written' ⟨⟩ hmismatch hw
    rw [h] at hw
    cases hw
    refine ⟨rfl, hd d hmismatch, by rw [hmismatch]; rfl, ?_⟩
    rw [Ne, hzero, hmismatch]
    simp
  · rintro e' ⟨⟩
  · rintro made' e' ⟨⟩ hw
    rw [h] at hw
    cases hw

end Reported

/-- A command line that asks for an action ends as its task does. -/
theorem run_code {host : Host (StateM FileTree)} {t : FileTree} {args : List String}
    {invocation : Invocation} (h : request args = .run invocation) :
    ((run host args).run t).1.code =
        (match (after (performIn host invocation) "" t).1.1 with
        | .ok code => code
        | .error failure => failure.exitCode) ∧
      ((run host args).run t).2 = (after (performIn host invocation) "" t).2 := by
  have hrun : (run host args).run t =
      match after (performIn host invocation) "" t with
      | ((.ok code, output), left) => (⟨code, output, none⟩, left)
      | ((.error failure, output), left) =>
        (⟨failure.exitCode, output,
          if LogFilter.showsErrors invocation.logLevel logTarget logFields then
            some (firstLine failure.message) else none⟩, left) := by
    rw [run, h, after]
    dsimp only [StateT.run_bind]
    rcases ((performIn host invocation).run.run "").run t with ⟨⟨r, output⟩, left⟩
    cases r <;> rfl
  rw [hrun]
  rcases after (performIn host invocation) "" t with ⟨⟨r, output⟩, left⟩
  cases r <;> exact ⟨rfl, rfl⟩

/-- A command that mutates a file has status zero exactly when the splice was exact and the file
was written. An inexact one is written too and gives its difference, and whatever fails gives a
status of its own and leaves the tree as it was. -/
theorem run_reported {host : Host (StateM FileTree)} {t : FileTree} {args : List String}
    {format : FormatName} {config : Option String} {logLevel target output : String} {edit : Edit}
    (h : request args = .run ⟨format, config, logLevel, edit.action target output⟩) :
    Reported t output (edited t host.entropy format config target edit)
      ((run host args).run t).1.code ((run host args).run t).2 := by
  have hrun : Delivers (performIn host ⟨format, config, logLevel, edit.action target output⟩) t
      output (edited t host.entropy format config target edit) :=
    .performIn host format config logLevel target edit
  have htold := Telling.edited t host.entropy format config target edit
  have hended := @run_code host t args _ h
  rw [hended.1, hended.2, hrun ""]
  generalize edited t host.entropy format config target edit = result at htold ⊢
  cases result with
  | error e => exact .error htold
  | ok made =>
    dsimp only
    cases hw : t.write output made.file with
    | error e => exact .unwrittenMade hw
    | ok written => exact .ok htold hw

def studio : FileTree :=
  (FileTree.empty.plant "a.png"
    [137, 80, 78, 71, 13, 10, 26, 10, 0, 0, 0, 13, 73, 72, 68, 82, 0, 0, 0, 1, 0, 0, 0, 1, 8, 0, 0,
      0, 0, 58, 126, 155, 85, 0, 0, 0, 0, 73, 69, 78, 68, 174, 66, 96, 130]).plant "c.toml"
    "[engine]\nstream-capacity = 32".toUTF8.data.toList

def studioHost : Host (StateM FileTree) := ⟨5, pure ""⟩

def renewHeader : List String :=
  ["replace", "a.png", "8", "32", "a.png", "8", "32", "b.png", "-c", "c.toml"]

def missHeader : List String := ["abstract", "a.png", "8", "33", "b.png", "-c", "c.toml"]

/-- The first command is exact, and the second one is refused. -/
theorem run_reported_studio :
    (Reported studio "b.png"
        (edited studio studioHost.entropy .png (some "c.toml") "a.png"
          (.replace 8 32 "a.png" 8 32))
        ((run studioHost renewHeader).run studio).1.code
        ((run studioHost renewHeader).run studio).2 ∧
      ((run studioHost renewHeader).run studio).1.code = 0) ∧
    Reported studio "b.png"
        (edited studio studioHost.entropy .png (some "c.toml") "a.png" (.abstract 8 33))
        ((run studioHost missHeader).run studio).1.code
        ((run studioHost missHeader).run studio).2 ∧
      ((run studioHost missHeader).run studio).1.code = -1 := by
  have hrenew : request renewHeader = .run ⟨.png, some "c.toml", "info",
      (Edit.replace 8 32 "a.png" 8 32).action "a.png" "b.png"⟩ := by decide +kernel
  have hmiss : request missHeader = .run ⟨.png, some "c.toml", "info",
      (Edit.abstract 8 33).action "a.png" "b.png"⟩ := by decide +kernel
  exact ⟨⟨run_reported hrenew, by decide +kernel⟩, run_reported hmiss, by decide +kernel⟩

end Command

end DecisionWalk
