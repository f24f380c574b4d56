import DecisionWalk.Text.Hidden
import DecisionWalk.Word

/-!
# How bytes, numbers, ranges and names are spelled
-/

set_option autoImplicit false

namespace DecisionWalk.Text

def hexDigit (n : Nat) : Char :=
  if n < 10 then Char.ofNat (48 + n) else Char.ofNat (87 + n)

def hexValue? (c : Char) : Option Nat :=
  if '0' ≤ c ∧ c ≤ '9' then some (c.toNat - 48)
  else if 'a' ≤ c ∧ c ≤ 'f' then some (c.toNat - 87)
  else if 'A' ≤ c ∧ c ≤ 'F' then some (c.toNat - 55)
  else none

def hexByte (b : UInt8) : String :=
  String.ofList [hexDigit (b.toNat / 16), hexDigit (b.toNat % 16)]

def hex (bs : Bytes) : String :=
  String.ofList (bs.flatMap fun b => [hexDigit (b.toNat / 16), hexDigit (b.toNat % 16)])

def hexList (bs : Bytes) : String :=
  "[" ++ String.intercalate ", " (bs.map hexByte) ++ "]"

def number? (s : String) : Option Nat :=
  let digits := match s.toList with
    | '+' :: rest => rest
    | cs => cs
  if digits.isEmpty ∨ !digits.all Char.isDigit then none
  else
    let n := digits.foldl (fun n c => 10 * n + (c.toNat - 48)) 0
    if n < 0x10000000000000000 then some n else none

def range (start stop : Nat) : String :=
  toString start ++ ".." ++ toString stop

def optional : Option Nat → String
  | some n => "Some(" ++ toString n ++ ")"
  | none => "None"

def escaped (c : Char) : List Char :=
  if c = '"' then ['\\', '"']
  else if c = '\\' then ['\\', '\\']
  else if c = '\n' then ['\\', 'n']
  else if c = '\r' then ['\\', 'r']
  else if c = '\t' then ['\\', 't']
  else if c.toNat = 0 then ['\\', '0']
  else if isHidden c then
    ['\\', 'u', '\x7b'] ++ Nat.toDigits 16 c.toNat ++ ['\x7d']
  else [c]

def quoted (s : String) : String :=
  "\"" ++ String.ofList (s.toList.flatMap escaped) ++ "\""

def padLeft (width : Nat) (s : String) : String :=
  String.ofList (List.replicate (width - s.length) ' ') ++ s

def padRight (width : Nat) (s : String) : String :=
  s ++ String.ofList (List.replicate (width - s.length) ' ')

def hundredths (n unit : Nat) (name : String) : String :=
  let h := (100 * n + unit / 2) / unit
  toString (h / 100) ++ "." ++ String.ofList [hexDigit (h / 10 % 10), hexDigit (h % 10)] ++ name

def duration (nanoseconds : Nat) : String :=
  if 1000000000 ≤ nanoseconds then hundredths nanoseconds 1000000000 "s"
  else if 1000000 ≤ nanoseconds then hundredths nanoseconds 1000000 "ms"
  else if 1000 ≤ nanoseconds then hundredths nanoseconds 1000 "µs"
  else hundredths nanoseconds 1 "ns"

end DecisionWalk.Text
