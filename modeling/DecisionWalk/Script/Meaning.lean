import DecisionWalk.Script.Statement

/-!
# What a script walks

A script denotes a grammar whose production kinds are names. Variables live in
an environment that is threaded through the requests. A `leave` travels outward
as a signal and closes scopes on the way like any other end of a body.
-/

set_option autoImplicit false

namespace DecisionWalk

instance : ProductionKind String where
  name := id

namespace Script

abbrev Env := List (String × Value)

inductive Flow where
  | next
  | left
  deriving DecidableEq, Repr

def Env.assign (env : Env) (name : String) (value : Value) : Env :=
  (name, value) :: env.filter (·.1 != name)

def Env.number (env : Env) (name : String) : Nat :=
  match env.lookup name with
  | some (.number n) => n
  | some (.bytes bs) => bs.length
  | some (.truth b) => if b then 1 else 0
  | some (.field r) => r.position
  | _ => 0

def Env.field? (env : Env) (name : String) : Option Reserved :=
  match env.lookup name with
  | some (.field r) => some r
  | _ => none

def Expr.meaning (env : Env) : Expr → Grammar String Nat
  | .literal n => pure n
  | .named name => pure (env.number name)
  | .sum a b => do
    let x ← a.meaning env
    let y ← b.meaning env
    pure ((x + y) % 0x10000000000000000)
  | .difference a b => do
    let x ← a.meaning env
    let y ← b.meaning env
    pure (x - y)
  | .tell => .request .tell
  | .fileSize => .request .fileSize
  | .remaining => .request .remaining

def Derivation.meaning (env : Env) : Derivation → Grammar String (Option Nat)
  | .nowhere => pure none
  | .computed e => do
    let x ← e.meaning env
    pure (some x)
  | .fromField name less => do
    let x ← less.meaning env
    pure (((env.field? name).bind Reserved.parsed).map (· - x))

def Call.meaning (env : Env) : Call → Grammar String Value
  | .uint width => do
    let w ← width.meaning env
    pure (.number (← Grammar.request (.uint w)))
  | .uintFull width => do
    let w ← width.meaning env
    pure (.number (← Grammar.request (.uintFull w)))
  | .uintKnown width known => do
    let w ← width.meaning env
    pure (.number (← Grammar.request (.uintKnown w known)))
  | .uintComputed width value => do
    let w ← width.meaning env
    let v ← value.meaning env
    pure (.number (← Grammar.request (.uintKnown w [v])))
  | .bytes length => do
    let n ← length.meaning env
    pure (.bytes (← Grammar.request (.bytes n)))
  | .bytesKnown length known => do
    let n ← length.meaning env
    pure (.bytes (← Grammar.request (.bytesKnown n known)))
  | .string length => do
    let n ← length.meaning env
    pure (.bytes (← Grammar.request (.string n)))
  | .cstring most => do
    let n ← most.meaning env
    pure (.bytes (← Grammar.request (.cstring n)))
  | .count most derivation => do
    let n ← most.meaning env
    let d ← derivation.meaning env
    pure (.number (← Grammar.request (.count n d)))
  | .seek position => do
    let p ← position.meaning env
    Grammar.request (.seek p)
    pure .nothing
  | .skip n => do
    let k ← n.meaning env
    Grammar.request (.skip k)
    pure .nothing
  | .reserve width => do
    let w ← width.meaning env
    pure (.field (← Grammar.request (.reserve w)))
  | .patch field value => do
    let v ← value.meaning env
    match env.field? field with
    | some r => Grammar.request (.patch r v)
    | none => pure ()
    pure .nothing
  | .endOfFile threshold => do
    pure (.truth (← Grammar.request (.endOfFile threshold)))
  | .lookUInt offset width known => do
    let o ← offset.meaning env
    let w ← width.meaning env
    pure (.number (← Grammar.request (.lookUInt o w known)))
  | .lookBytes offset length known => do
    let o ← offset.meaning env
    let n ← length.meaning env
    pure (.bytes (← Grammar.request (.lookBytes o n known)))
  | .setEvil allowed => do
    pure (.truth (← Grammar.request (.setEvil allowed)))
  | .checksum32 start stop => do
    let a ← start.meaning env
    let b ← stop.meaning env
    pure (.number (← Grammar.request (.checksum32 a b)))
  | .checksum16 start stop => do
    let a ← start.meaning env
    let b ← stop.meaning env
    pure (.number (← Grammar.request (.checksum16 a b)))
  | .emit data => do
    Grammar.request (.emit data)
    pure .nothing
  | .setEndian order => do
    Grammar.request (.setEndian order)
    pure (.order order)

def repeated (body : Env → Grammar String (Env × Flow)) : Nat → Env → Grammar String Env
  | 0, env => pure env
  | n + 1, env => do
    match ← body env with
    | (env, .next) => repeated body n env
    | (env, .left) => pure env

def Block.meaning : Block → Env → Grammar String (Env × Flow)
  | .done, env => pure (env, .next)
  | .call label command store rest, env => do
    let value ← command.meaning env
    Grammar.request (.note label value)
    rest.meaning (match store with
      | some name => env.assign name value
      | none => env)
  | .scope name kind body rest, env =>
    .scope name kind (body.meaning env) fun
      | (env, .next) => rest.meaning env
      | (env, .left) => pure (env, .left)
  | .withEvil allowed body rest, env =>
    .withEvil allowed (body.meaning env) fun
      | (env, .next) => rest.meaning env
      | (env, .left) => pure (env, .left)
  | .stop code reason, _ => .stop code reason
  | .loop body rest, env =>
    .loop (fun env => do
        match ← body.meaning env with
        | (env, .next) => pure (.inl env)
        | (env, .left) => pure (.inr env))
      env rest.meaning
  | .times count body rest, env => do
    let n ← count.meaning env
    let env ← repeated body.meaning n env
    rest.meaning env
  | .branch subject constant yes no rest, env => do
    let chosen := (env.lookup subject).any constant.agrees
    match ← (if chosen then yes.meaning env else no.meaning env) with
    | (env, .next) => rest.meaning env
    | (env, .left) => pure (env, .left)
  | .leave, env => pure (env, .left)

def Block.grammar (b : Block) : Grammar String Unit := do
  let _ ← b.meaning []
  pure ()

end Script

end DecisionWalk
