import DecisionWalk.Pattern.Basic

/-!
# Directives of a log filter

A directive has the form `target[span{field=value}]=level`, and most of it may
be missing: `level`, `target` and `[span]` are directives too. It is read
character by character. Spaces at its ends are passed over, but the places of
its parts are counted from the first character that is not a space and then
applied to the whole text, so a space in front shifts every part.
-/

set_option autoImplicit false

namespace DecisionWalk.Command

structure FieldTest where
  name : String
  valued : Bool
  deriving DecidableEq, Repr

structure Directive where
  target : Option String := none
  span : Option String := none
  fields : List FieldTest := []
  level : Nat := 5
  deriving DecidableEq, Repr

namespace Directive

def level? (s : String) : Option Nat :=
  match (Text.number? s).filter (· ≤ 5) with
  | some n => some n
  | none => ["off", "error", "warn", "info", "debug", "trace"].findIdx? (· == s.toLower)

def isPlainNumber (cs : List Char) : Bool :=
  match cs.span (· != '.') with
  | (whole, []) => !whole.isEmpty && whole.all Char.isDigit
  | (whole, _ :: fraction) => !(whole ++ fraction).isEmpty && (whole ++ fraction).all Char.isDigit

def withoutSign : List Char → List Char
  | '+' :: rest => rest
  | '-' :: rest => rest
  | cs => cs

def isNumber (s : String) : Bool :=
  let cs := withoutSign s.toLower.toList
  match cs.span (· != 'e') with
  | (number, []) =>
    isPlainNumber number || ["inf", "infinity", "nan"].contains (String.ofList cs)
  | (number, _ :: exponent) =>
    let exponent := withoutSign exponent
    isPlainNumber number && !exponent.isEmpty && exponent.all Char.isDigit

def isValue (s : String) : Bool :=
  s == "true" || s == "false" || isNumber s || Pattern.isPattern s

def field? (s : String) : Option FieldTest :=
  match s.splitOn "=" with
  | name :: value :: _ => if s.isEmpty ∨ !isValue value then none else some ⟨name, true⟩
  | _ => if s.isEmpty then none else some ⟨s, false⟩

inductive Stage where
  | start
  | target (since : Nat)
  | span (since : Nat)
  | field (since : Nat)
  | fieldDone
  | spanDone
  | level (since : Nat)
  deriving DecidableEq, Repr

def canBegin (c : Char) : Bool :=
  ['-', ':', '_'].contains c || Text.isLetter c || Text.isNumeral c

def cut (s : String) (start stop : Nat) : Option String :=
  String.fromUTF8? (s.toUTF8.extract start stop)

def step (s : String) : Stage × Directive → Nat × Char → Option (Stage × Directive)
  | (.start, d), (i, c) =>
    if c = '[' then some (.span (i + 1), d)
    else if canBegin c then some (.target i, d)
    else none
  | (.target since, d), (i, c) =>
    if c = '=' then (cut s since i).map fun t => (.level (i + 1), { d with target := some t })
    else if c = '[' then (cut s since i).map fun t => (.span (i + 1), { d with target := some t })
    else some (.target since, d)
  | (.span since, d), (i, c) =>
    if c = ']' then (cut s since i).map fun name => (.spanDone, { d with span := some name })
    else if c = '\x7b' then
      (cut s since i).map fun name =>
        (.field (i + 1), { d with span := if name.isEmpty then none else some name })
    else some (.span since, d)
  | (.field since, d), (i, c) =>
    if c = '\x7d' then
      ((cut s since i).bind field?).map fun field =>
        (.fieldDone, { d with fields := d.fields ++ [field] })
    else some (.field since, d)
  | (.fieldDone, d), (_, c) => if c = ']' then some (.spanDone, d) else none
  | (.spanDone, d), (i, c) => if c = '=' then some (.level (i + 1), d) else none
  | (.level since, d), _ => some (.level since, d)

def finish (s : String) : Stage × Directive → Option Directive
  | (.target since, d) => (cut s since s.utf8ByteSize).map fun text =>
    match level? text with
    | some level => { d with level := level }
    | none => { d with target := some text }
  | (.level since, d) => do
    let text ← cut s since s.utf8ByteSize
    if text.isEmpty then some d
    else (level? text).map fun level => { d with level := level }
  | (.spanDone, d) => some d
  | _ => none

def placed (place : Nat) : List Char → List (Nat × Char)
  | [] => []
  | c :: rest => (place, c) :: placed (place + c.utf8Size) rest

def ofText? (s : String) : Option Directive := do
  let last ← (placed 0 (Text.trim s.toList)).foldlM (step s) (.start, {})
  finish s last

def isForSpans (d : Directive) : Bool := d.span.isSome || d.fields.any (·.valued)

def covers (d : Directive) (target : String) (fields : List String) : Bool :=
  !d.isForSpans && d.target.all (fun start => target.startsWith start) &&
    d.fields.all (fields.contains ·.name)

def rank (d : Directive) : Nat × Nat :=
  ((d.target.map (·.utf8ByteSize + 1)).getD 0, d.fields.length)

def rankLE (a b : Directive) : Bool :=
  a.rank.1 < b.rank.1 || a.rank.1 == b.rank.1 && a.rank.2 ≤ b.rank.2

end Directive

end DecisionWalk.Command
