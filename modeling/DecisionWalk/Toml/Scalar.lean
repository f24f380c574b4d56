import DecisionWalk.Toml.Lexeme

/-!
# Numbers, points in time and truth values

A reader here takes the longest beginning that it can. What may follow a value
is for others to say, so a number with a letter behind it is refused there.
-/

set_option autoImplicit false

namespace DecisionWalk.Toml

open Text (hexValue?)

def digit? (base : Nat) (c : Char) : Option Nat := (hexValue? c).filter (· < base)

def readMoreDigits (base : Nat) : List Char → List Nat × List Char
  | [] => ([], [])
  | '_' :: c :: rest =>
    match digit? base c with
    | some d =>
      let (ds, rest) := readMoreDigits base rest
      (d :: ds, rest)
    | none => ([], '_' :: c :: rest)
  | c :: rest =>
    match digit? base c with
    | some d =>
      let (ds, rest) := readMoreDigits base rest
      (d :: ds, rest)
    | none => ([], c :: rest)

def readDigits (base : Nat) : Reader (List Nat)
  | [] => none
  | c :: rest => (digit? base c).map fun d =>
    let (ds, rest) := readMoreDigits base rest
    (d :: ds, rest)

def valueOfDigits (base : Nat) (digits : List Nat) : Nat :=
  digits.foldl (fun n d => base * n + d) 0

def readSign : List Char → Bool × List Char
  | '-' :: rest => (true, rest)
  | '+' :: rest => (false, rest)
  | cs => (false, cs)

def readWhole : Reader (List Nat)
  | '0' :: rest => some ([0], rest)
  | cs => readDigits 10 cs

def signed (negative : Bool) (n : Nat) : Int := if negative then -(n : Int) else n

def integer? (n : Int) : Option Datum :=
  if -0x8000000000000000 ≤ n ∧ n < 0x8000000000000000 then some (.integer n) else none

def readInteger : Reader Datum := fun cs => do
  let (n, rest) ← match cs with
    | '0' :: 'x' :: rest => (readDigits 16 rest).map fun (ds, rest) => (valueOfDigits 16 ds, rest)
    | '0' :: 'o' :: rest => (readDigits 8 rest).map fun (ds, rest) => (valueOfDigits 8 ds, rest)
    | '0' :: 'b' :: rest => (readDigits 2 rest).map fun (ds, rest) => (valueOfDigits 2 ds, rest)
    | cs => (readWhole (readSign cs).2).map fun (ds, rest) => (valueOfDigits 10 ds, rest)
  let value ← integer? (signed (readSign cs).1 n)
  some (value, rest)

def doubleLimit : Nat := (1 <<< 1024) - (1 <<< 970)

def isTooLarge (digits : List Nat) (exponent : Int) : Bool :=
  let digits := digits.dropWhile (· = 0)
  let places := digits.length + exponent
  if digits.isEmpty ∨ places < 309 then false
  else if 309 < places then true
  else
    let n := valueOfDigits 10 digits
    if 0 ≤ exponent then decide (doubleLimit ≤ n * Nat.pow 10 exponent.toNat)
    else decide (doubleLimit * Nat.pow 10 (-exponent).toNat ≤ n)

def readFraction : Reader (List Nat)
  | '.' :: rest => readDigits 10 rest
  | _ => none

def readExponent : Reader Int
  | c :: rest =>
    if c = 'e' ∨ c = 'E' then
      let (negative, rest) := readSign rest
      (readDigits 10 rest).map fun (ds, rest) => (signed negative (valueOfDigits 10 ds), rest)
    else none
  | [] => none

def afterWord? (word : String) (cs : List Char) : Option (List Char) :=
  if word.toList.isPrefixOf cs then some (cs.drop word.length) else none

def readFinite : Reader Datum := fun cs => do
  let (negative, rest) := readSign cs
  let (whole, rest) ← readWhole rest
  let (fraction, rest) := (readFraction rest).getD ([], rest)
  let (exponent, rest) ← match readExponent rest with
    | some (exponent, rest) => some (exponent, rest)
    | none => if fraction.isEmpty then none else some (0, rest)
  if !negative && isTooLarge (whole ++ fraction) (exponent - fraction.length) then none
  else some (.float, rest)

def readFloat : Reader Datum := fun cs =>
  match readFinite cs with
  | some found => some found
  | none =>
    let rest := (readSign cs).2
    ((afterWord? "inf" rest).or (afterWord? "nan" rest)).map (.float, ·)

def readWithin (places low high : Nat) : Reader Nat := fun cs => do
  let ds ← (cs.take places).mapM (digit? 10)
  let n := valueOfDigits 10 ds
  if ds.length = places ∧ low ≤ n ∧ n ≤ high then some (n, cs.drop places) else none

def readChar (expected : Char) : List Char → Option (List Char)
  | c :: rest => if c = expected then some rest else none
  | [] => none

def isLeapYear (year : Nat) : Bool := year % 4 = 0 ∧ (year % 100 ≠ 0 ∨ year % 400 = 0)

def daysIn (year month : Nat) : Nat :=
  if month = 2 then if isLeapYear year then 29 else 28
  else if [4, 6, 9, 11].contains month then 30
  else 31

def skipDate (cs : List Char) : Option (List Char) := do
  let (year, rest) ← readWithin 4 0 9999 cs
  let (month, rest) ← readWithin 2 1 12 (← readChar '-' rest)
  let (_, rest) ← readWithin 2 1 (daysIn year month) (← readChar '-' rest)
  some rest

def skipTime (cs : List Char) : Option (List Char) := do
  let (_, rest) ← readWithin 2 0 23 cs
  let (_, rest) ← readWithin 2 0 59 (← readChar ':' rest)
  let (_, rest) ← readWithin 2 0 60 (← readChar ':' rest)
  match rest with
  | '.' :: c :: fraction => some (if c.isDigit then fraction.dropWhile Char.isDigit else rest)
  | rest => some rest

def skipOffset (cs : List Char) : List Char :=
  let offset := do
    let (_, rest) ← readWithin 2 0 23 cs.tail
    let (_, rest) ← readWithin 2 0 59 (← readChar ':' rest)
    some rest
  match cs with
  | 'Z' :: rest | 'z' :: rest => rest
  | '+' :: _ | '-' :: _ => offset.getD cs
  | cs => cs

def readMoment : Reader Datum := fun cs =>
  match skipDate cs with
  | none => (skipTime cs).map (.moment, ·)
  | some rest =>
    let time := match rest with
      | 'T' :: rest | 't' :: rest | ' ' :: rest => (skipTime rest).map skipOffset
      | _ => none
    some (.moment, time.getD rest)

def readScalar : Reader Datum := fun cs =>
  match afterWord? "true" cs, afterWord? "false" cs with
  | some rest, _ => some (.boolean true, rest)
  | none, some rest => some (.boolean false, rest)
  | none, none => ((readMoment cs).or (readFloat cs)).or (readInteger cs)

end DecisionWalk.Toml
