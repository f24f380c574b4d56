import DecisionWalk.Pattern.Flags
import DecisionWalk.Text

/-!
# Characters and escapes of a pattern

A pattern is matched without tables of character properties. So what needs one
is refused: shorthands for classes and edges of words where the pattern is about
characters, and every character there if case is to be ignored. Where the
pattern is about bytes, what could match a part of a character is refused.
-/

set_option autoImplicit false

namespace DecisionWalk.Pattern

inductive Atom where
  | literal (c : Char) (byte : Bool)
  | shorthand (negated : Bool)
  | place (word : Bool)
  deriving DecidableEq, Repr

namespace Atom

def allowed (f : Flags) : Atom → Bool
  | .literal c byte => if f.unicode then !f.ignoreCase else !byte || c.toNat < 0x80
  | .shorthand negated => !f.unicode && !negated
  | .place word => !(word && f.unicode)

def allowedInSet (f : Flags) : Atom → Bool
  | .literal c _ => if f.unicode then !f.ignoreCase else decide (c.toNat < 0x80)
  | .shorthand negated => !f.unicode && !negated
  | .place _ => false

end Atom

def readHex (f : Flags) : Nat → Nat → List Char → Option (Nat × List Char)
  | 0, value, cs => some (value, cs)
  | n + 1, value, cs =>
    match f.skip cs with
    | [] => none
    | c :: rest => (Text.hexValue? c).bind fun d => readHex f n (16 * value + d) rest

def readCode (f : Flags) (digits : Nat) (cs : List Char) : Option (Atom × List Char) := do
  let (code, rest) ← readHex f digits 0 cs
  if code.isValidChar then some (.literal (Char.ofNat code) (digits = 2), rest) else none

def control? : Char → Option Char
  | 'a' => some '\x07'
  | 'f' => some '\x0c'
  | 't' => some '\t'
  | 'n' => some '\n'
  | 'r' => some '\r'
  | 'v' => some '\x0b'
  | _ => none

def escape? (c : Char) : Option Atom :=
  if ['d', 's', 'w'].contains c then some (.shorthand false)
  else if ['D', 'S', 'W'].contains c then some (.shorthand true)
  else if ['A', 'z'].contains c then some (.place false)
  else if ['b', 'B', '<', '>'].contains c then some (.place true)
  else if 0x80 ≤ c.toNat then none
  else if c.isAlphanum then (control? c).map (.literal · false)
  else some (.literal c false)

def readEscape (f : Flags) : List Char → Option (Atom × List Char)
  | [] => none
  | 'x' :: rest => readCode f 2 rest
  | 'u' :: rest => readCode f 4 rest
  | 'U' :: rest => readCode f 8 rest
  | c :: rest => (escape? c).map (·, rest)

end DecisionWalk.Pattern
