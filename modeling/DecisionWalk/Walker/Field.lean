import DecisionWalk.Checksum
import DecisionWalk.Walker.Draw

/-!
# Fields of a file

A field is read where the cursor stands. If its bytes are there already (in the
input of a parse, or fixed by an earlier lookahead or reservation), its value is
decoded from them and the decisions for it are recorded; otherwise the value is
drawn. Either way the bytes then pass through `emit`.
-/

set_option autoImplicit false

namespace DecisionWalk.Walker

variable {K : Type}

def found (position length : Nat) : Walker K (Option Bytes) := fun s =>
  match s.mode with
  | .parse =>
    match s.image.slice? position (position + length) with
    | some bs =>
      if s.image.inputLength?.any (position + length ≤ ·) then .ok (some bs) s
      else violation (.endOfInput length position) s
    | none => violation (.endOfInput length position) s
  | .generate =>
    match s.image.region position length with
    | .fresh => .ok none s
    | .fixed => .ok (s.image.slice? position (position + length)) s
    | .mixed => violation (.straddles length position) s

def emit (bytes : Bytes) : Walker K Unit := fun s =>
  let position := s.image.cursor
  let stop := position + bytes.length
  match s.mode with
  | .generate =>
    if stop ≤ s.image.capacity then
      .ok () { s with
        image := (s.image.store position bytes).moveTo stop
        tracker := s.tracker.touch ⟨position, stop⟩ }
    else .error (.capacityExceeded .file s.image.capacity) s
  | .parse =>
    if s.image.limit < stop then violation (.endOfInput bytes.length position) s
    else if s.image.slice? position stop = some bytes then
      .ok () { s with
        image := (s.image.mark position bytes.length).moveTo stop
        tracker := s.tracker.touch ⟨position, stop⟩ }
    else violation (.differs bytes position ((s.image.slice? position stop).getD [])) s

def checkWidth (width : Nat) : Walker K Unit :=
  if 1 ≤ width ∧ width ≤ 8 then pure () else violation (.badWidth width)

def foundInteger (width : Nat) : Walker K (Option Nat) := do
  let s ← get
  let bytes ← found s.image.cursor width
  pure (bytes.map s.endian.decode)

def emitInteger (width value : Nat) : Walker K Unit := do
  let s ← get
  emit (s.endian.encode width value)

def readUInt (width : Nat) : Walker K Nat := do
  checkWidth width
  let there ← foundInteger width
  let value ← sampleSmall width there
  emitInteger width value
  pure value

def readUIntFull (width : Nat) : Walker K Nat := do
  checkWidth width
  let there ← foundInteger width
  let value ← decideRaw width there
  emitInteger width value
  pure value

def readUIntKnown (width : Nat) (known : List Nat) : Walker K Nat := do
  checkWidth width
  let there ← foundInteger width
  let value ← chooseKnown there known (sampleSmall width)
  emitInteger width value
  pure value

def readBytes (length : Nat) : Walker K Bytes := do
  let there ← found (← tell) length
  let bytes ← drawSymbols .plain length there
  emit bytes
  pure bytes

def readBytesKnown (length : Nat) (known : List Bytes) : Walker K Bytes := do
  match known.find? (·.length != length) with
  | some bad => violation (.knownLength bad length)
  | none => pure ()
  let there ← found (← tell) length
  let bytes ← chooseKnown there known (drawSymbols .plain length)
  emit bytes
  pure bytes

def readString (length : Nat) : Walker K Bytes := do
  let there ← found (← tell) length
  let restricted ← stringCoin there
  let bytes ← drawSymbols (if restricted then .printable else .plain) length there
  emit bytes
  pure bytes

def foundCString (most : Nat) : Walker K (Option Bytes) := fun s =>
  let position := s.image.cursor
  if s.mode = .generate ∧ s.image.region position 1 = .fresh then .ok none s
  else
    let stop := min (position + most + 1) s.image.limit
    let window := (s.image.slice? position stop).getD []
    match window.findIdx? (· == 0) with
    | some length =>
      if s.mode = .generate ∧ s.image.region position (length + 1) ≠ .fixed then
        violation .stringStraddles s
      else .ok (some (window.take length)) s
    | none => violation (.unterminated (most + 1) position) s

/-- A string of at most `most` symbols that ends at a zero byte, which is not part of the
result. -/
def readCString (most : Nat) : Walker K Bytes := do
  let there ← foundCString most
  let width := max (Sampler.decisionWidth (most + 1)) 1
  let drawn ← sampleSmall width (there.map List.length)
  let length := drawn % (most + 1)
  let restricted ← stringCoin there
  let bytes ← drawSymbols (if restricted then .printable else .nonNul) length there
  emit (bytes ++ [0])
  pure bytes

def decideCount (most : Nat) (derived : Option Nat) : Walker K Nat := do
  match derived with
  | none => if (← get).mode = .parse then violation .underivedCount
  | some value => if most < value then violation (.countExceeds value most)
  let value ← sampleSmall 8 derived
  pure (value % (most + 1))

def fillGap : Nat → Walker K Unit
  | 0 => pure ()
  | n + 1 => do
    let _ ← readUIntFull 1
    fillGap n

def seek (position : Nat) : Walker K Unit := do
  let s ← get
  if s.image.limit < position then
    match s.mode with
    | .parse => violation (.seekPastInput position)
    | .generate => throw (.capacityExceeded .file s.image.capacity)
  if s.image.size < position then
    moveTo s.image.size
    fillGap (position - s.image.size)
  moveTo position

def skip (n : Nat) : Walker K Unit := do
  seek ((← tell) + n)

def reserve (width : Nat) : Walker K Reserved := do
  checkWidth width
  let position ← tell
  let there ← found position width
  let parsed := there.map (← get).endian.decode
  emit (there.getD (List.replicate width 0))
  pure ⟨position, width, parsed⟩

def patch (field : Reserved) (value : Nat) : Walker K Unit := do
  if (← get).mode = .parse ∧ field.parsed ≠ some value then
    violation (.fieldDiffers field.position field.parsed value)
  let back ← tell
  seek field.position
  emitInteger field.width value
  seek back

def knownEnd : Walker K (Option Bool) := fun s =>
  match s.mode with
  | .parse => .ok (some (decide (s.image.limit ≤ s.image.cursor))) s
  | .generate => .ok (if s.image.fixedFrom s.image.cursor then some false else none) s

def markLookahead (start : Nat) : Walker K Unit :=
  modify fun s => { s with tracker := s.tracker.lookahead ⟨start, s.stream.position⟩ }

def endOfFile (threshold : Nat) : Walker K Bool := do
  let start ← position
  let forced ← knownEnd
  let coin ← decideBelow 256 (forced.map fun ends => if ends then 0 else 255)
  markLookahead start
  pure (coin < threshold)

def ahead {α : Type} (offset : Nat) (read : Walker K α) : Walker K α := fun s =>
  let back := s.image.cursor
  let start := s.stream.position
  match read { s with image := s.image.moveTo (back + offset) } with
  | .ok a t =>
    .ok a { t with
      image := t.image.moveTo back
      tracker := t.tracker.lookahead ⟨start, t.stream.position⟩ }
  | .error e t => .error e { t with image := t.image.moveTo back }

def lookUIntKnown (offset width : Nat) (known : List Nat) : Walker K Nat :=
  ahead offset (readUIntKnown width known)

def lookBytesKnown (offset length : Nat) (known : List Bytes) : Walker K Bytes :=
  ahead offset (readBytesKnown length known)

def fixedSlice (start stop : Nat) : Walker K Bytes := fun s =>
  if s.image.region start (stop - start) ≠ .fixed then
    violation (.checksumUnfixed start stop) s
  else match s.image.slice? start stop with
    | some bs => .ok bs s
    | none => violation (.checksumOutside start stop) s

def checksum32 (start stop : Nat) : Walker K Nat := do
  pure (crc32 (← fixedSlice start stop)).toNat

def checksum16 (start stop : Nat) : Walker K Nat := do
  pure (crc16 (← fixedSlice start stop)).toNat

end DecisionWalk.Walker
