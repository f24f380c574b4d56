import DecisionWalk.Alphabet
import DecisionWalk.Sampler
import DecisionWalk.Walker.State

/-!
# Decisions

Every draw takes an optional forced value. Without one it reads the stream; with
one it records the bytes that would have been read to draw that value.
-/

set_option autoImplicit false

namespace DecisionWalk.Walker

variable {K : Type}

def takeDecision (n : Nat) : Walker K Nat := fun s =>
  match s.stream.peek? n with
  | some v => .ok v { s with stream := s.stream.advance n }
  | none => .error (.capacityExceeded .stream s.stream.length) s

def putDecision (value n : Nat) : Walker K Unit := fun s =>
  if s.stream.position + n ≤ s.stream.capacity then
    .ok () { s with stream := s.stream.record value n }
  else .error (.capacityExceeded .stream s.stream.capacity) s

def decideBelow (bound : Nat) (forced : Option Nat) : Walker K Nat :=
  let width := Sampler.decisionWidth bound
  if width = 0 then pure 0
  else match forced with
    | some value =>
      if value < bound then do
        putDecision value width
        pure value
      else throw (.defect .choice)
    | none => do
      let drawn ← takeDecision width
      pure (drawn % bound)

def decideRaw (width : Nat) (forced : Option Nat) : Walker K Nat :=
  if width = 0 then pure 0
  else match forced with
    | some value => do
      let value := value % Sampler.valuesOf width
      putDecision value width
      pure value
    | none => takeDecision width

def sampleSmall (width : Nat) (forced : Option Nat) : Walker K Nat := do
  let selector ← decideBelow 256 (forced.map Sampler.selectorFor)
  let tier := Tier.ofSelector selector
  let rawForced := forced.map fun value => (Sampler.encode value).2
  let raw ← match tier with
    | .tiny => decideBelow Sampler.tinyValues rawForced
    | other => decideRaw (other.rawWidth width) rawForced
  pure (tier.decode width raw)

def chooseKnown {α : Type} [DecidableEq α] (found : Option α) (known : List α)
    (evilDraw : Option α → Walker K α) : Walker K α := do
  if known.isEmpty then violation .nothingKnown
  let index := found.map fun value => known.findIdx? (· == value)
  if index = some none ∧ (← get).evil.allowed = false then violation .notKnown
  let forcedCoin := index.map fun i => if i.isSome then EvilBit.goodCoin else EvilBit.evilCoin
  let coin ← decideBelow 256 forcedCoin
  if (← get).evil.isEvil coin then evilDraw found
  else
    let choice ← decideBelow known.length index.join
    match known[choice]? with
    | some value => pure value
    | none => throw (.defect .choice)

def drawSymbol (a : Alphabet) : Option UInt8 → Walker K UInt8
  | none => do
    let i ← decideBelow a.size none
    pure (a.symbol i)
  | some b =>
    match a.index? b with
    | some i => do
      let i ← decideBelow a.size (some i)
      pure (a.symbol i)
    | none => throw (.defect .choice)

def drawFresh (a : Alphabet) : Nat → Bytes → Walker K Bytes
  | 0, drawn => pure drawn.reverse
  | n + 1, drawn => do
    let b ← drawSymbol a none
    drawFresh a n (b :: drawn)

def drawSymbols (a : Alphabet) (length : Nat) : Option Bytes → Walker K Bytes
  | none => drawFresh a length []
  | some bs => bs.mapM fun b => drawSymbol a (some b)

def printableFrom : Nat := 64

def stringCoin (found : Option Bytes) : Walker K Bool := do
  let coin ← decideBelow 256
    (found.map fun bs => if bs.all Alphabet.printable.contains then 255 else 0)
  pure (printableFrom ≤ coin)

end DecisionWalk.Walker
