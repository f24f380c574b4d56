import DecisionWalk.Pattern.Atom

/-!
# Sets of characters in brackets

A set holds characters, ranges, named classes and further sets, and two sets may
be joined by an operator. Reading a set gives its height, which is how deep its
parts are nested.
-/

set_option autoImplicit false

namespace DecisionWalk.Pattern

def sideBySide : List Nat → Nat
  | [] => 0
  | [height] => height
  | heights => heights.foldl max 0 + 1

structure OpenSet where
  left : Option Nat := none
  parts : List Nat := []
  deriving DecidableEq, Repr

namespace OpenSet

def add (s : OpenSet) (height : Nat) : OpenSet := { s with parts := height :: s.parts }

def height (s : OpenSet) : Nat :=
  match s.left with
  | none => sideBySide s.parts
  | some left => max left (sideBySide s.parts) + 1

def operator (s : OpenSet) : OpenSet := ⟨some s.height, []⟩

end OpenSet

def classNames : List String :=
  ["alnum", "alpha", "ascii", "blank", "cntrl", "digit", "graph", "lower", "print", "punct",
    "space", "upper", "word", "xdigit"]

def readNamedClass : List Char → Option (Bool × List Char)
  | ':' :: cs =>
    let (negated, cs) := match cs with
      | '^' :: rest => (true, rest)
      | cs => (false, cs)
    match cs.dropWhile (· != ':') with
    | ':' :: ']' :: rest =>
      if classNames.contains (String.ofList (cs.takeWhile (· != ':'))) then some (negated, rest)
      else none
    | _ => none
  | _ => none

def readDashes (f : Flags) : Nat → OpenSet → List Char → OpenSet × List Char
  | n + 1, s, '-' :: rest => readDashes f n (s.add 0) (f.skip rest)
  | _, s, cs => (s, cs)

def openSet (f : Flags) (cs : List Char) : Option (OpenSet × List Char) := do
  let cs := f.skip cs
  let (negated, cs) := match cs with
    | '^' :: rest => (true, f.skip rest)
    | cs => (false, cs)
  let (s, cs) := match readDashes f cs.length {} cs with
    | (⟨left, []⟩, ']' :: rest) => (OpenSet.add ⟨left, []⟩ 0, f.skip rest)
    | found => found
  if negated && !f.unicode || !s.parts.isEmpty && !(Atom.literal '-' false).allowedInSet f then none
  else some (s, cs)

def readMember (f : Flags) : List Char → Option (Atom × List Char)
  | [] => none
  | '\\' :: rest => readEscape f rest
  | c :: rest => some (.literal c false, rest)

def isRange : Atom → Atom → Bool
  | .literal first _, .literal last _ => decide (first ≤ last)
  | _, _ => false

def skipMembers (f : Flags) (cs : List Char) : Option (List Char) := do
  let (first, rest) ← readMember f cs
  if !first.allowedInSet f then none
  else match f.skip rest with
    | '-' :: rest =>
      if f.peek? rest = some ']' ∨ f.peek? rest = some '-' then some ('-' :: rest)
      else do
        let (last, rest) ← readMember f (f.skip rest)
        if last.allowedInSet f && isRange first last then some rest else none
    | rest => some rest

def readSets (f : Flags) : Nat → OpenSet → List OpenSet → List Char → Option (Nat × List Char)
  | 0, _, _, _ => none
  | n + 1, s, outer, cs =>
    match f.skip cs with
    | [] => none
    | '[' :: rest =>
      match readNamedClass rest with
      | some (negated, rest) =>
        if f.unicode && f.ignoreCase || !f.unicode && negated then none
        else readSets f n (s.add 0) outer rest
      | none => (openSet f rest).bind fun (inner, rest) => readSets f n inner (s :: outer) rest
    | ']' :: rest =>
      match outer with
      | [] => some (s.height + 1, rest)
      | above :: outer => readSets f n (above.add (s.height + 1)) outer rest
    | '&' :: '&' :: rest => readSets f n s.operator outer rest
    | '-' :: '-' :: rest => readSets f n s.operator outer rest
    | '~' :: '~' :: rest => readSets f n s.operator outer rest
    | cs => (skipMembers f cs).bind fun rest => readSets f n (s.add 0) outer rest

def readSet (f : Flags) (cs : List Char) : Option (Nat × List Char) :=
  (openSet f cs).bind fun (s, rest) => readSets f (cs.length + 1) s [] rest

end DecisionWalk.Pattern
