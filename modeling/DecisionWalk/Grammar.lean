import DecisionWalk.Walker.Scope

/-!
# Grammars

A grammar is a tree of requests to the walker. Each request has one answer type,
and the rest of the grammar depends on the answer. The same tree is walked in
both directions. A grammar cannot catch a failure.

`Grammar.run` walks a tree. A loop takes at most as many rounds with a decision
as the stream holds decisions. One that goes on and on without a decision is a
defect.
-/

set_option autoImplicit false

namespace DecisionWalk

inductive Request : Type → Type where
  | uint (width : Nat) : Request Nat
  | uintFull (width : Nat) : Request Nat
  | uintKnown (width : Nat) (known : List Nat) : Request Nat
  | bytes (length : Nat) : Request Bytes
  | bytesKnown (length : Nat) (known : List Bytes) : Request Bytes
  | string (length : Nat) : Request Bytes
  | cstring (most : Nat) : Request Bytes
  | count (most : Nat) (derived : Option Nat) : Request Nat
  | seek (position : Nat) : Request Unit
  | skip (n : Nat) : Request Unit
  | reserve (width : Nat) : Request Reserved
  | patch (field : Reserved) (value : Nat) : Request Unit
  | endOfFile (threshold : Nat) : Request Bool
  | lookUInt (offset width : Nat) (known : List Nat) : Request Nat
  | lookBytes (offset length : Nat) (known : List Bytes) : Request Bytes
  | checksum32 (start stop : Nat) : Request Nat
  | checksum16 (start stop : Nat) : Request Nat
  | emit (data : Bytes) : Request Unit
  | setEvil (allowed : Bool) : Request Bool
  | setEndian (order : Endian) : Request Unit
  | tell : Request Nat
  | fileSize : Request Nat
  | remaining : Request Nat
  | note (label : String) (value : Value) : Request Unit

def Request.answer {K : Type} : {α : Type} → Request α → Walker K α
  | _, .uint width => Walker.readUInt width
  | _, .uintFull width => Walker.readUIntFull width
  | _, .uintKnown width known => Walker.readUIntKnown width known
  | _, .bytes length => Walker.readBytes length
  | _, .bytesKnown length known => Walker.readBytesKnown length known
  | _, .string length => Walker.readString length
  | _, .cstring most => Walker.readCString most
  | _, .count most derived => Walker.decideCount most derived
  | _, .seek position => Walker.seek position
  | _, .skip n => Walker.skip n
  | _, .reserve width => Walker.reserve width
  | _, .patch field value => Walker.patch field value
  | _, .endOfFile threshold => Walker.endOfFile threshold
  | _, .lookUInt offset width known => Walker.lookUIntKnown offset width known
  | _, .lookBytes offset length known => Walker.lookBytesKnown offset length known
  | _, .checksum32 start stop => Walker.checksum32 start stop
  | _, .checksum16 start stop => Walker.checksum16 start stop
  | _, .emit data => Walker.emit data
  | _, .setEvil allowed => Walker.setEvil allowed
  | _, .setEndian order => Walker.setEndian order
  | _, .tell => Walker.tell
  | _, .fileSize => Walker.fileSize
  | _, .remaining => Walker.remaining
  | _, .note label value => Walker.note label value

inductive Grammar (K : Type) : Type → Type 1 where
  | done {α : Type} (a : α) : Grammar K α
  | ask {α β : Type} (request : Request β) (next : β → Grammar K α) : Grammar K α
  | scope {α β : Type} (name : String) (kind : K) (body : Grammar K β) (next : β → Grammar K α) :
      Grammar K α
  | withEvil {α β : Type} (allowed : Bool) (body : Grammar K β) (next : β → Grammar K α) :
      Grammar K α
  | loop {α β σ : Type} (body : σ → Grammar K (σ ⊕ β)) (init : σ) (next : β → Grammar K α) :
      Grammar K α
  | stop {α : Type} (code : Int) (reason : String) : Grammar K α

namespace Grammar

variable {K : Type}

def bind {α β : Type} : Grammar K α → (α → Grammar K β) → Grammar K β
  | .done a, f => f a
  | .ask request next, f => .ask request fun b => (next b).bind f
  | .scope name kind body next, f => .scope name kind body fun b => (next b).bind f
  | .withEvil allowed body next, f => .withEvil allowed body fun b => (next b).bind f
  | .loop body init next, f => .loop body init fun b => (next b).bind f
  | .stop code reason, _ => .stop code reason

instance : Monad (Grammar K) where
  pure := .done
  bind := bind

def request {α : Type} (r : Request α) : Grammar K α := .ask r .done

def inScope {α : Type} (name : String) (kind : K) (body : Grammar K α) : Grammar K α :=
  .scope name kind body .done

def underEvil {α : Type} (allowed : Bool) (body : Grammar K α) : Grammar K α :=
  .withEvil allowed body .done

def repeatFrom {σ β : Type} (init : σ) (body : σ → Grammar K (σ ⊕ β)) : Grammar K β :=
  .loop body init .done

def idleRounds : Nat := 0x4000000000000000

/-- Repeats a step until the stream has moved past `start` or there is a result, for at most
the given number of rounds. -/
def settle {σ β : Type} (step : σ → Walker K (σ ⊕ β)) (start : Nat) :
    Nat → σ → Walker K (σ ⊕ β)
  | 0, _ => throw (.defect .stalled)
  | idle + 1, init => fun s =>
    match step init s with
    | .ok (.inl again) t =>
      if start < t.stream.position then .ok (.inl again) t else settle step start idle again t
    | .ok (.inr result) t => .ok (.inr result) t
    | .error e t => .error e t

def iterate {σ β : Type} (step : σ → Walker K (σ ⊕ β)) : Nat → σ → Walker K β
  | 0, _ => throw (.defect .stalled)
  | left + 1, init => fun s =>
    match settle step s.stream.position idleRounds init s with
    | .ok (.inl again) t => iterate step left again t
    | .ok (.inr result) t => .ok result t
    | .error e t => .error e t

def run [DecidableEq K] : {α : Type} → Grammar K α → Walker K α
  | _, .done a => pure a
  | _, .ask request next => do
    let b ← request.answer
    (next b).run
  | _, .scope name kind body next => do
    let depth ← Walker.openScope name kind
    let b ← body.run
    Walker.closeScope depth
    (next b).run
  | _, .withEvil allowed body next => do
    let b ← Walker.withEvil allowed body.run
    (next b).run
  | _, .loop body init next => do
    let b ← iterate (fun a => (body a).run) ((← get).stream.capacity + 1) init
    (next b).run
  | _, .stop code reason => throw (.grammarStop code reason)

end Grammar

structure Format (K : Type) where
  name : String
  extension : String
  grammar : Grammar K Unit

end DecisionWalk
