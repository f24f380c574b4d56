import DecisionWalk.Walk

/-!
# Scripts

A script is a small imperative program of walker calls with variables, scopes,
loops and branches. A block of statements is a chain: every statement holds the
block that follows it.
-/

set_option autoImplicit false

namespace DecisionWalk.Script

inductive Expr where
  | literal (n : Nat)
  | named (name : String)
  | sum (a b : Expr)
  | difference (a b : Expr)
  | tell
  | fileSize
  | remaining
  deriving DecidableEq, Repr, Inhabited

inductive Derivation where
  | nowhere
  | computed (e : Expr)
  | fromField (name : String) (less : Expr)
  deriving DecidableEq, Repr

inductive Call where
  | uint (width : Expr)
  | uintFull (width : Expr)
  | uintKnown (width : Expr) (known : List Nat)
  | uintComputed (width value : Expr)
  | bytes (length : Expr)
  | bytesKnown (length : Expr) (known : List Bytes)
  | string (length : Expr)
  | cstring (most : Expr)
  | count (most : Expr) (derivation : Derivation)
  | seek (position : Expr)
  | skip (n : Expr)
  | reserve (width : Expr)
  | patch (field : String) (value : Expr)
  | endOfFile (threshold : Nat)
  | lookUInt (offset width : Expr) (known : List Nat)
  | lookBytes (offset length : Expr) (known : List Bytes)
  | setEvil (allowed : Bool)
  | checksum32 (start stop : Expr)
  | checksum16 (start stop : Expr)
  | emit (data : Bytes)
  | setEndian (order : Endian)
  deriving DecidableEq, Repr

structure Constant where
  number : Option Nat
  bytes : Option Bytes
  truth : Option Bool
  deriving DecidableEq, Repr

def Constant.agrees (c : Constant) : Value → Bool
  | .number n => c.number == some n
  | .bytes bs => c.bytes == some bs
  | .truth b => c.truth == some b
  | _ => false

inductive Block where
  | done
  | call (label : String) (command : Call) (store : Option String) (rest : Block)
  | scope (name kind : String) (body rest : Block)
  | withEvil (allowed : Bool) (body rest : Block)
  | stop (code : Int) (reason : String)
  | loop (body rest : Block)
  | times (count : Expr) (body rest : Block)
  | branch (subject : String) (constant : Constant) (yes no rest : Block)
  | leave
  deriving DecidableEq, Repr, Inhabited

/-- The end of a threshold coin's range for a probability: 256 times it, rounded half away
from zero, and never less than 1 or more than 255. -/
def threshold (probability : Float) : Nat :=
  let scaled := (probability * 256).round
  if scaled ≥ 255 then 255 else if scaled ≥ 1 then scaled.toUInt8.toNat else 1

end DecisionWalk.Script
