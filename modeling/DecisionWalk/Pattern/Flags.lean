import DecisionWalk.Text.Letter

/-!
# Flags of a pattern

Flags are set for the rest of a group. Of those that can be set three change
what a pattern may hold.
-/

set_option autoImplicit false

namespace DecisionWalk.Pattern

structure Flags where
  ignoreCase : Bool := false
  unicode : Bool := true
  verbose : Bool := false
  deriving DecidableEq, Repr

def skipSpace (inComment : Bool) : List Char → List Char
  | [] => []
  | c :: rest =>
    if inComment then skipSpace (c != '\n') rest
    else if Text.isSpace c then skipSpace false rest
    else if c = '#' then skipSpace true rest
    else c :: rest

namespace Flags

def letters : List Char := ['i', 'm', 's', 'U', 'u', 'R', 'x', '-']

def change? (f : Flags) (items : List Char) : Option Flags :=
  if items.all letters.contains ∧ items.Nodup ∧ items.getLast? ≠ some '-' then
    let on := items.takeWhile (· != '-')
    let off := items.dropWhile (· != '-')
    let now (letter : Char) (before : Bool) := on.contains letter || before && !off.contains letter
    some ⟨now 'i' f.ignoreCase, now 'u' f.unicode, now 'x' f.verbose⟩
  else none

def skip (f : Flags) (cs : List Char) : List Char := if f.verbose then skipSpace false cs else cs

def peek? (f : Flags) (cs : List Char) : Option Char :=
  if f.verbose then
    match cs.dropWhile Text.isSpace with
    | '#' :: rest => (rest.dropWhile Text.isSpace).head?
    | rest => rest.head?
  else cs.head?

end Flags

end DecisionWalk.Pattern
