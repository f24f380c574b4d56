import DecisionWalk.Walk

/-!
# Walks on a machine

A machine has words instead of numbers. It traps where a sum does not fit in a
word, where an index or a range leaves what it points into, where an assertion
fails, and where a loop goes on for too long. Every action of the walker is given
here once more, with these demands in front of what it does. Some demands are made
earlier than need be, or where the walker would get by without: a machine that
demands more only traps more often.
-/

set_option autoImplicit false

namespace DecisionWalk

inductive Trap where
  | overflow
  | underflow
  | outOfRange
  | assertion
  | endless
  deriving DecidableEq, Repr

inductive Halt where
  | failed (error : WalkError)
  | trapped (trap : Trap)
  deriving DecidableEq, Repr

def wordValues : Nat := 0x10000000000000000

def wordBytes : Nat := 8

def allocationBound : Nat := 0x8000000000000000

abbrev Machine (K : Type) := EStateM Halt (State K)

namespace Machine

variable {K α β σ : Type}

section Demands

def lifted : EStateM.Result WalkError (State K) α → EStateM.Result Halt (State K) α
  | .ok a s => .ok a s
  | .error e s => .error (.failed e) s

def plain (x : Walker K α) : Machine K α := fun s => lifted (x s)

def trap (cause : Trap) : Machine K α := throw (.trapped cause)

def demand (p : Prop) [Decidable p] (cause : Trap) : Machine K Unit :=
  if p then pure () else trap cause

def addable (a b : Nat) : Machine K Unit := demand (a + b < wordValues) .overflow

def sum (a b : Nat) : Machine K Nat := do
  addable a b
  pure (a + b)

def difference (a b : Nat) : Machine K Nat := do
  demand (b ≤ a) .underflow
  pure (a - b)

def range (start stop size : Nat) : Machine K Unit :=
  demand (start ≤ stop ∧ stop ≤ size) .outOfRange

def item (xs : List α) (i : Nat) : Machine K α :=
  match xs[i]? with
  | some x => pure x
  | none => trap .outOfRange

end Demands

section Draws

def takeDecision (n : Nat) : Machine K Nat := do
  demand (n ≤ wordBytes) .assertion
  let stream := (← get).stream
  let stop ← sum stream.position n
  if stop ≤ stream.length then
    range stream.position stop stream.length
  plain (Walker.takeDecision n)

def putDecision (value n : Nat) : Machine K Unit := do
  demand (n ≤ wordBytes) .assertion
  let stream := (← get).stream
  let stop ← sum stream.position n
  if stop ≤ stream.capacity then
    -- By now the stream was extended up to `stop`.
    range stream.position stop (max stream.length stop)
    range 0 n wordBytes
  plain (Walker.putDecision value n)

def decideBelow (bound : Nat) (forced : Option Nat) : Machine K Nat :=
  let width := Sampler.decisionWidth bound
  if width = 0 then pure 0
  else match forced with
    | some value => do
      demand (value < bound) .assertion
      putDecision value width
      pure value
    | none => do
      let drawn ← takeDecision width
      pure (drawn % bound)

def decideRaw (width : Nat) (forced : Option Nat) : Machine K Nat :=
  if width = 0 then pure 0
  else match forced with
    | some value => do
      let value := value % Sampler.valuesOf width
      putDecision value width
      pure value
    | none => takeDecision width

def encode (value : Nat) : Machine K Nat :=
  match Tier.ofSelector (Sampler.selectorFor value) with
  | .tiny => difference value 1
  | _ => pure value

def sampleSmall (width : Nat) (forced : Option Nat) : Machine K Nat := do
  let selector ← decideBelow 256 (forced.map Sampler.selectorFor)
  let tier := Tier.ofSelector selector
  let rawForced ← forced.mapM encode
  let raw ← match tier with
    | .tiny => decideBelow Sampler.tinyValues rawForced
    | other => decideRaw (other.rawWidth width) rawForced
  pure (tier.decode width raw)

def chooseKnown [DecidableEq α] (found : Option α) (known : List α)
    (evilDraw : Option α → Machine K α) : Machine K α := do
  if known.isEmpty then plain (Walker.violation .nothingKnown)
  let index := found.map fun value => known.findIdx? (· == value)
  if index = some none ∧ (← get).evil.allowed = false then plain (Walker.violation .notKnown)
  let forcedCoin := index.map fun i => if i.isSome then EvilBit.goodCoin else EvilBit.evilCoin
  let coin ← decideBelow 256 forcedCoin
  if (← get).evil.isEvil coin then evilDraw found
  else
    let choice ← decideBelow known.length index.join
    item known choice

def drawSymbol (a : Alphabet) (old : Option UInt8) : Machine K UInt8 := do
  demand (old.all a.contains) .underflow
  let i ← decideBelow a.size (old.bind a.index?)
  demand (i < a.size) .outOfRange
  pure (a.symbol i)

def drawFrom (a : Alphabet) (found : Option Bytes) : Nat → Nat → Bytes → Machine K Bytes
  | 0, _, drawn => pure drawn.reverse
  | left + 1, i, drawn => do
    let old ← found.mapM (item · i)
    let b ← drawSymbol a old
    drawFrom a found left (i + 1) (b :: drawn)

def drawSymbols (a : Alphabet) (length : Nat) (found : Option Bytes) : Machine K Bytes := do
  demand (length < allocationBound) .overflow
  drawFrom a found length 0 []

def stringCoin (found : Option Bytes) : Machine K Bool := do
  let coin ← decideBelow 256
    (found.map fun bs => if bs.all Alphabet.printable.contains then 255 else 0)
  pure (Walker.printableFrom ≤ coin)

end Draws

section Fields

def inspect (position length : Nat) : Machine K Unit := do
  let stop ← sum position length
  let size := (← get).image.fixed.size
  if position < min stop size then
    range position (min stop size) size

def found (position length : Nat) : Machine K (Option Bytes) := do
  inspect position length
  plain (Walker.found position length)

def emit (bytes : Bytes) : Machine K Unit := do
  let im := (← get).image
  let stop ← sum im.cursor bytes.length
  -- Whatever is written to reaches up to `stop` by then.
  range im.cursor stop (max im.bytes.size stop)
  range im.cursor stop (max im.fixed.size stop)
  plain (Walker.emit bytes)

def checkWidth (width : Nat) : Machine K Unit := plain (Walker.checkWidth width)

def tell : Machine K Nat := plain Walker.tell

def fileSize : Machine K Nat := plain Walker.fileSize

def setEndian (order : Endian) : Machine K Unit := plain (Walker.setEndian order)

def remaining : Machine K Nat := plain Walker.remaining

def foundInteger (width : Nat) : Machine K (Option Nat) := do
  let s ← get
  let bytes ← found s.image.cursor width
  pure (bytes.map s.endian.decode)

def emitInteger (width value : Nat) : Machine K Unit := do
  let s ← get
  range 0 width wordBytes
  emit (s.endian.encode width value)

def readUInt (width : Nat) : Machine K Nat := do
  checkWidth width
  let there ← foundInteger width
  let value ← sampleSmall width there
  emitInteger width value
  pure value

def readUIntFull (width : Nat) : Machine K Nat := do
  checkWidth width
  let there ← foundInteger width
  let value ← decideRaw width there
  emitInteger width value
  pure value

def readUIntKnown (width : Nat) (known : List Nat) : Machine K Nat := do
  checkWidth width
  let there ← foundInteger width
  let value ← chooseKnown there known (sampleSmall width)
  emitInteger width value
  pure value

def readBytes (length : Nat) : Machine K Bytes := do
  let there ← found (← tell) length
  let bytes ← drawSymbols .plain length there
  emit bytes
  pure bytes

def readBytesKnown (length : Nat) (known : List Bytes) : Machine K Bytes := do
  match known.find? (·.length != length) with
  | some bad => plain (Walker.violation (.knownLength bad length))
  | none => pure ()
  let there ← found (← tell) length
  let bytes ← chooseKnown there known (drawSymbols .plain length)
  emit bytes
  pure bytes

def readString (length : Nat) : Machine K Bytes := do
  let there ← found (← tell) length
  let restricted ← stringCoin there
  let bytes ← drawSymbols (if restricted then .printable else .plain) length there
  emit bytes
  pure bytes

def foundCString (most : Nat) : Machine K (Option Bytes) := do
  let im := (← get).image
  inspect im.cursor 1
  let last ← sum im.cursor most
  let stop ← sum last 1
  let window := (im.slice? im.cursor (min stop im.limit)).getD []
  match window.findIdx? (· == 0) with
  | some length => do
    let taken ← sum length 1
    inspect im.cursor taken
    range 0 length window.length
  | none => addable most 1
  plain (Walker.foundCString most)

def readCString (most : Nat) : Machine K Bytes := do
  let there ← foundCString most
  let bound ← sum most 1
  let width := max (Sampler.decisionWidth bound) 1
  let drawn ← sampleSmall width (there.map List.length)
  let length := drawn % bound
  let restricted ← stringCoin there
  let bytes ← drawSymbols (if restricted then .printable else .nonNul) length there
  addable length 1
  emit (bytes ++ [0])
  pure bytes

def decideCount (most : Nat) (derived : Option Nat) : Machine K Nat := do
  match derived with
  | none => if (← get).mode = .parse then plain (Walker.violation .underivedCount)
  | some value => if most < value then plain (Walker.violation (.countExceeds value most))
  let value ← sampleSmall 8 derived
  pure (value % (most + 1))

def fillUpTo (position : Nat) : Nat → Machine K Unit
  | 0 => do demand (position ≤ (← get).image.cursor) .endless
  | rounds + 1 => do
    if (← get).image.cursor < position then
      let _ ← readUIntFull 1
      fillUpTo position rounds

def seek (position : Nat) : Machine K Unit := do
  let s ← get
  if s.image.limit < position then
    match s.mode with
    | .parse => plain (Walker.violation (.seekPastInput position))
    | .generate => throw (.failed (.capacityExceeded .file s.image.capacity))
  if s.image.size < position then
    plain (Walker.moveTo s.image.size)
    fillUpTo position (position - s.image.size)
  plain (Walker.moveTo position)

def skip (n : Nat) : Machine K Unit := do
  seek (← sum (← tell) n)

def reserve (width : Nat) : Machine K Reserved := do
  checkWidth width
  let position ← tell
  let there ← found position width
  let parsed := there.map (← get).endian.decode
  emit (there.getD (List.replicate width 0))
  pure ⟨position, width, parsed⟩

def patch (field : Reserved) (value : Nat) : Machine K Unit := do
  if (← get).mode = .parse ∧ field.parsed ≠ some value then
    plain (Walker.violation (.fieldDiffers field.position field.parsed value))
  let back ← tell
  seek field.position
  emitInteger field.width value
  seek back

def markLookahead (start : Nat) : Machine K Unit := do
  let t := (← get).tracker
  demand (t.lastExit.all (· < t.chunks.size)) .outOfRange
  plain (Walker.markLookahead start)

def endOfFile (threshold : Nat) : Machine K Bool := do
  let start ← plain Walker.position
  let forced ← plain Walker.knownEnd
  let coin ← decideBelow 256 (forced.map fun ends => if ends then 0 else 255)
  markLookahead start
  pure (coin < threshold)

def returning (back : Nat) (x : Machine K α) : Machine K α := fun s =>
  match x s with
  | .ok a t => .ok a { t with image := t.image.moveTo back }
  | .error h t => .error h { t with image := t.image.moveTo back }

def ahead (offset : Nat) (read : Machine K α) : Machine K α := do
  let s ← get
  let there ← sum s.image.cursor offset
  let a ← returning s.image.cursor do
    plain (Walker.moveTo there)
    read
  markLookahead s.stream.position
  pure a

def lookBytesKnown (offset length : Nat) (known : List Bytes) : Machine K Bytes :=
  ahead offset (readBytesKnown length known)

def fixedSlice (start stop : Nat) : Machine K Bytes := do
  inspect start (stop - start)
  plain (Walker.fixedSlice start stop)

def checksum32 (start stop : Nat) : Machine K Nat := do
  pure (crc32 (← fixedSlice start stop)).toNat

def checksum16 (start stop : Nat) : Machine K Nat := do
  pure (crc16 (← fixedSlice start stop)).toNat

end Fields

section Productions

variable [DecidableEq K]

def openScope (name : String) (kind : K) : Machine K Nat := do
  let s ← get
  addable (s.tracker.siblings.count name) 1
  demand (∀ w ∈ s.watches, w.depth.all (· + 1 < wordValues)) .overflow
  plain (Walker.openScope name kind)

def closeScope (depth : Nat) (kind : K) (optional : Bool) : Machine K Unit := do
  let t := (← get).tracker
  match t.stack with
  | [] => pure ()
  | top :: _ =>
    let chunk ← item t.chunks.toList top.slot
    demand (chunk.kind = kind ∧ chunk.optional = optional) .assertion
  plain (Walker.closeScope depth)

def inScope (name : String) (kind : K) (body : Machine K α) : Machine K α := do
  let s ← get
  let depth ← openScope name kind
  let a ← body
  closeScope depth kind (s.tracker.entering s.stream.position).optional
  pure a

def underEvil (allowed : Bool) (x : Machine K α) : Machine K α := fun s =>
  match x { s with evil := ⟨allowed⟩ } with
  | .ok a t => .ok a { t with evil := s.evil }
  | .error h t => .error h { t with evil := s.evil }

def stop (code : Int) (reason : String) : Machine K α :=
  throw (.failed (.grammarStop code reason))

def iterate (step : σ → Machine K (σ ⊕ β)) : Nat → σ → Machine K β
  | 0, _ => trap .endless
  | rounds + 1, a => do
    match ← step a with
    | .inl a => iterate step rounds a
    | .inr b => pure b

def repeatFrom (init : σ) (step : σ → Machine K (σ ⊕ β)) : Machine K β := do
  iterate step ((← get).stream.capacity + 1) init

def finish (s : State K) : Except Halt (Walk K × List (Watch K)) :=
  if s.tracker.stack = [] ∧ s.stream.position ≤ s.stream.length then s.finish.mapError .failed
  else .error (.trapped .assertion)

def runFrom (walk : Machine K Unit) (limits : Limits) (origin : Origin)
    (watches : List (Watch K)) : Except Halt (Walk K × List (Watch K)) :=
  match Grammar.seed origin (State.empty limits) with
  | .error e _ => .error (.failed e)
  | .ok () s =>
    match walk { s with watches := watches } with
    | .ok () t => finish t
    | .error (.failed (.grammarStop 0 _)) t => finish t
    | .error h _ => .error h

end Productions

end Machine

end DecisionWalk
