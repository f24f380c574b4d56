import DecisionWalk.Pattern.CharSet

/-!
# Patterns

A pattern is a regular expression. Here it is only read, to see whether it is
well formed: groups are closed, names of groups differ, repetitions have
something to repeat, and nothing is nested too deep.
-/

set_option autoImplicit false

namespace DecisionWalk.Pattern

structure Part where
  height : Nat
  repeatable : Bool
  deriving DecidableEq, Repr

structure Body where
  branches : List Nat := []
  parts : List Part := []
  deriving DecidableEq, Repr

namespace Body

def add (b : Body) (p : Part) : Body := { b with parts := p :: b.parts }

def branchHeight (b : Body) : Nat := sideBySide (b.parts.map (·.height))

def alternate (b : Body) : Body := ⟨b.branchHeight :: b.branches, []⟩

def height (b : Body) : Nat := sideBySide (b.branchHeight :: b.branches)

def repeat? (b : Body) : Option Body :=
  match b.parts with
  | ⟨height, true⟩ :: rest => some { b with parts := ⟨height + 1, true⟩ :: rest }
  | _ => none

end Body

inductive Opening where
  | setFlags (flags : Flags)
  | group (flags : Flags) (name : Option String)
  deriving DecidableEq, Repr

def isName : List Char → Bool
  | [] => false
  | c :: rest => (c == '_' || Text.isLetter c) &&
    rest.all fun c => ['_', '.', '[', ']'].contains c || Text.isLetter c || Text.isNumeral c

def readName (cs : List Char) : Option (String × List Char) :=
  match cs.dropWhile (· != '>') with
  | '>' :: rest =>
    let name := cs.takeWhile (· != '>')
    if isName name then some (String.ofList name, rest) else none
  | _ => none

def readOpening (f : Flags) (cs : List Char) : Option (Opening × List Char) :=
  match f.skip cs with
  | '?' :: 'P' :: '<' :: rest =>
    (readName rest).map fun (name, rest) => (.group f (some name), rest)
  | '?' :: '<' :: rest => (readName rest).map fun (name, rest) => (.group f (some name), rest)
  | '?' :: cs => do
    let items := cs.takeWhile fun c => c != ':' && c != ')'
    let changed ← f.change? items
    match cs.drop items.length with
    | ':' :: rest => some (.group changed none, rest)
    | ')' :: rest => if items.isEmpty then none else some (.setFlags changed, rest)
    | _ => none
  | cs => some (.group f none, cs)

/-- Reads a whole pattern and gives its height. What is read are the flags and the body of the
innermost group, those of the groups around it, and the names of all groups so far; the number
bounds the steps. -/
def readPattern :
    Nat → Flags → Body → List (Flags × Body) → List String → List Char → Option Nat
  | 0, _, _, _, _, _ => none
  | n + 1, f, body, outer, names, cs =>
    let part (p : Part) (rest : List Char) := readPattern n f (body.add p) outer names rest
    let atom (a : Atom) (rest : List Char) :=
      if a.allowed f then part ⟨0, true⟩ rest else none
    let repetition (rest : List Char) := body.repeat?.bind fun body =>
      readPattern n f body outer names (if rest.head? = some '?' then rest.tail else rest)
    match f.skip cs with
    | [] => if outer.isEmpty then some body.height else none
    | '(' :: rest =>
      match readOpening f rest with
      | none => none
      | some (.setFlags f, rest) => readPattern n f (body.add ⟨0, false⟩) outer names rest
      | some (.group inner none, rest) => readPattern n inner {} ((f, body) :: outer) names rest
      | some (.group inner (some name), rest) =>
        if names.contains name then none
        else readPattern n inner {} ((f, body) :: outer) (name :: names) rest
    | ')' :: rest =>
      match outer with
      | [] => none
      | (f, around) :: outer =>
        readPattern n f (around.add ⟨body.height + 1, true⟩) outer names rest
    | '|' :: rest => readPattern n f body.alternate outer names rest
    | '[' :: rest => (readSet f rest).bind fun (height, rest) => part ⟨height, true⟩ rest
    | '?' :: rest => repetition rest
    | '*' :: rest => repetition rest
    | '+' :: rest => repetition rest
    -- A count of repetitions is never complete, for its closing brace ends the text before.
    | '\x7b' :: _ => none
    | '\\' :: rest => (readEscape f rest).bind fun (a, rest) => atom a rest
    | '.' :: rest => if f.unicode then part ⟨0, true⟩ rest else none
    | '^' :: rest => part ⟨0, true⟩ rest
    | '$' :: rest => part ⟨0, true⟩ rest
    | c :: rest => atom (.literal c false) rest

def heightLimit : Nat := 250

def isPattern (text : String) : Bool :=
  (readPattern (text.length + 1) {} {} [] [] text.toList).any (· ≤ heightLimit)

end DecisionWalk.Pattern
