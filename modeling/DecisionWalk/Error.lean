import DecisionWalk.Text

/-!
# Why a walk ends early

A walk fails for one of four reasons: the bytes and the grammar disagree, the
grammar itself gives up, a bounded resource runs out, or the walk breaks a rule
of its own. The last kind is a `Defect`; no grammar of this library raises one.
-/

set_option autoImplicit false

namespace DecisionWalk

inductive Resource where
  | stream
  | file
  | depth
  deriving DecidableEq, Repr

def Resource.describe : Resource → String
  | .stream => "decision stream"
  | .file => "file buffer"
  | .depth => "recursion depth"

inductive Violation where
  | endOfInput (length position : Nat)
  | straddles (length position : Nat)
  | differs (expected : Bytes) (position : Nat) (found : Bytes)
  | badWidth (width : Nat)
  | nothingKnown
  | notKnown
  | knownLength (value : Bytes) (length : Nat)
  | stringStraddles
  | unterminated (within position : Nat)
  | underivedCount
  | countExceeds (value most : Nat)
  | seekPastInput (position : Nat)
  | fieldDiffers (position : Nat) (held : Option Nat) (computed : Nat)
  | checksumUnfixed (start stop : Nat)
  | checksumOutside (start stop : Nat)
  | uncovered (count : Nat)
  | stated (reason : String)
  deriving DecidableEq, Repr

def Violation.message : Violation → String
  | .endOfInput length position =>
    s!"unexpected end of input: {length} bytes needed at offset {position}"
  | .straddles length position =>
    s!"{length} bytes at offset {position} straddle already materialized data"
  | .differs expected position found =>
    let wanted := Text.hexList expected
    let seen := Text.hexList found
    s!"expected {wanted} at offset {position}, found {seen}"
  | .badWidth width => s!"integer width {width} is outside 1..=8"
  | .nothingKnown => "known-value set is empty"
  | .notKnown => "value is not in the known-value set"
  | .knownLength value length =>
    let shown := Text.hexList value
    s!"known value {shown} does not have length {length}"
  | .stringStraddles => "C string straddles materialized data"
  | .unterminated within position =>
    s!"no NUL terminator within {within} bytes of offset {position}"
  | .underivedCount => "a count must be derivable while parsing"
  | .countExceeds value most => s!"count {value} exceeds maximum {most}"
  | .seekPastInput position => s!"seek to {position} past end of input"
  | .fieldDiffers position held computed =>
    let shown := Text.optional held
    s!"field at offset {position} holds {shown}, the walk computed {computed}"
  | .checksumUnfixed start stop =>
    let shown := Text.range start stop
    s!"checksum over {shown} covers bytes that are not materialized"
  | .checksumOutside start stop =>
    let shown := Text.range start stop
    s!"checksum range {shown} is out of bounds"
  | .uncovered count => s!"{count} trailing bytes are not covered by the grammar"
  | .stated reason => reason

inductive Defect where
  | choice
  | stalled
  deriving DecidableEq, Repr

inductive WalkError where
  | structural (offset : Nat) (path : String) (violation : Violation)
  | grammarStop (code : Int) (reason : String)
  | capacityExceeded (resource : Resource) (limit : Nat)
  | defect (cause : Defect)
  deriving DecidableEq, Repr

namespace WalkError

def message : WalkError → String
  | .structural offset path violation =>
    let reason := violation.message
    s!"structural violation at file offset {offset} in `{path}`: {reason}"
  | .grammarStop code reason => s!"grammar stopped with status {code}: {reason}"
  | .capacityExceeded resource limit =>
    let name := resource.describe
    s!"{name} capacity of {limit} exceeded"
  | .defect .choice => "a recorded choice is out of range"
  | .defect .stalled => "a loop made no progress"

def exitCode : WalkError → Int
  | .grammarStop code _ => code
  | .capacityExceeded _ _ => -3
  | .structural _ _ _ => -4
  | .defect _ => 101

def validity? : WalkError → Nat → Option Float
  | .structural offset _ _, length =>
    if length = 0 then none
    else some ((UInt64.ofNat (min offset length)).toFloat / (UInt64.ofNat length).toFloat)
  | _, _ => none

end WalkError

end DecisionWalk
