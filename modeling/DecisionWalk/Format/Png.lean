import DecisionWalk.Walk

/-!
# A PNG subset

The signature, a header chunk, then data, text, dimension and time chunks up to
the end chunk. Every chunk carries its big-endian length in front and the CRC of
type and body behind, so whole chunks can be exchanged freely.
-/

set_option autoImplicit false

namespace DecisionWalk

namespace Png

inductive Kind where
  | file
  | signature
  | header
  | data
  | text
  | physicalDims
  | time
  | finish
  deriving DecidableEq, Repr

def Kind.name : Kind → String
  | .file => "png"
  | .signature => "signature"
  | .header => "ihdr"
  | .data => "idat"
  | .text => "text"
  | .physicalDims => "phys"
  | .time => "time"
  | .finish => "iend"

instance : ProductionKind Kind where
  name := Kind.name

def signatureBytes : Bytes := [0x89, 0x50, 0x4E, 0x47, 0x0D, 0x0A, 0x1A, 0x0A]

def ihdr : Bytes := [0x49, 0x48, 0x44, 0x52]

def idat : Bytes := [0x49, 0x44, 0x41, 0x54]

def text : Bytes := [0x74, 0x45, 0x58, 0x74]

def phys : Bytes := [0x70, 0x48, 0x59, 0x73]

def time : Bytes := [0x74, 0x49, 0x4D, 0x45]

def iend : Bytes := [0x49, 0x45, 0x4E, 0x44]

def followingTypes : List Bytes := [idat, text, phys, time, iend]

def keywordMost : Nat := 79

abbrev Rule := Grammar Kind Unit

def between (low high : Nat) : List Nat := (List.range (high + 1 - low)).map (low + ·)

def skipUInt (width : Nat) : Rule := discard (Grammar.request (.uint width))

def oneOf (width : Nat) (known : List Nat) : Rule :=
  discard (Grammar.request (.uintKnown width known))

def framed (type : Bytes) (body : Rule) : Rule := do
  let start ← Grammar.request .tell
  discard (Grammar.underEvil false (Grammar.request (.bytesKnown 4 [type])))
  body
  let stop ← Grammar.request .tell
  let crc ← Grammar.request (.checksum32 start stop)
  oneOf 4 [crc]

def sized (length : Nat) (type : Bytes) (body : Rule) : Rule := do
  oneOf 4 [length]
  framed type body

def headerRule : Rule :=
  sized 13 ihdr do
    skipUInt 4
    skipUInt 4
    oneOf 1 [1, 2, 4, 8, 16]
    oneOf 1 [0, 2, 3, 4, 6]
    oneOf 1 [0]
    oneOf 1 [0]
    oneOf 1 [0, 1]

def dataRule : Rule := do
  let length ← Grammar.request (.uint 4)
  let room ← Grammar.request .remaining
  if room < length + 8 then
    .stop 1 s!"IDAT length {length} runs past the end of the file"
  else
    framed idat (discard (Grammar.request (.bytes length)))

def textRule : Rule := do
  let length ← Grammar.request (.reserve 4)
  framed text do
    let keyword ← Grammar.request (.cstring keywordMost)
    let used := keyword.length + 1
    let room ← Grammar.request .remaining
    let count ← Grammar.request (.count (room - 4) (length.parsed.map (· - used)))
    discard (Grammar.request (.string count))
    Grammar.request (.patch length (used + count))

def physicalDimsRule : Rule :=
  sized 9 phys do
    skipUInt 4
    skipUInt 4
    oneOf 1 [0, 1]

def timeRule : Rule :=
  sized 7 time do
    skipUInt 2
    oneOf 1 (between 1 12)
    oneOf 1 (between 1 31)
    oneOf 1 (between 0 23)
    oneOf 1 (between 0 59)
    oneOf 1 (between 0 60)

def endRule : Rule := sized 0 iend (pure ())

def chunkOf (type : Bytes) : Grammar Kind (Unit ⊕ Unit) :=
  if type = idat then do
    Grammar.inScope "idat" .data dataRule
    pure (.inl ())
  else if type = text then do
    Grammar.inScope "text" .text textRule
    pure (.inl ())
  else if type = phys then do
    Grammar.inScope "phys" .physicalDims physicalDimsRule
    pure (.inl ())
  else if type = time then do
    Grammar.inScope "time" .time timeRule
    pure (.inl ())
  else do
    Grammar.inScope "iend" .finish endRule
    pure (.inr ())

def following : Grammar Kind (Unit ⊕ Unit) := do
  let type ← Grammar.underEvil false (Grammar.request (.lookBytes 4 4 followingTypes))
  chunkOf type

def fileRule : Rule := do
  Grammar.inScope "signature" .signature
    (discard (Grammar.underEvil false (Grammar.request (.bytesKnown 8 [signatureBytes]))))
  Grammar.inScope "ihdr" .header headerRule
  Grammar.repeatFrom () fun _ => following

end Png

def png : Format Png.Kind where
  name := "png"
  extension := "png"
  grammar := do
    Grammar.request (.setEndian .big)
    Grammar.inScope "png" .file Png.fileRule

end DecisionWalk
