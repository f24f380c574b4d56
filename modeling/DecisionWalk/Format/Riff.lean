import DecisionWalk.Walk

/-!
# A RIFF/WAVE subset

A container whose size field counts all that follows it: the form type, a format
chunk, an optional list, the samples with a CRC behind them, and any number of
junk chunks. Payloads of odd size are followed by one byte of padding.
-/

set_option autoImplicit false

namespace DecisionWalk

namespace Riff

inductive Kind where
  | container
  | format
  | list
  | data
  | junk
  deriving DecidableEq, Repr

def Kind.name : Kind → String
  | .container => "riff"
  | .format => "fmt"
  | .list => "list"
  | .data => "data"
  | .junk => "junk"

instance : ProductionKind Kind where
  name := Kind.name

def riffTag : Bytes := [0x52, 0x49, 0x46, 0x46]

def fmtTag : Bytes := [0x66, 0x6D, 0x74, 0x20]

def listTag : Bytes := [0x4C, 0x49, 0x53, 0x54]

def dataTag : Bytes := [0x64, 0x61, 0x74, 0x61]

def junkTag : Bytes := [0x4A, 0x55, 0x4E, 0x4B]

def infoTag : Bytes := [0x49, 0x4E, 0x46, 0x4F]

def formTypes : List Bytes := [[0x57, 0x41, 0x56, 0x45], [0x41, 0x56, 0x49, 0x20]]

def sampleRates : List Nat := [8000, 11025, 22050, 44100, 48000]

def endThreshold : Nat := 128

abbrev Rule := Grammar Kind Unit

def skipUInt (width : Nat) : Rule := discard (Grammar.request (.uint width))

def oneOf (width : Nat) (known : List Nat) : Rule :=
  discard (Grammar.request (.uintKnown width known))

def tag (expected : Bytes) : Rule :=
  discard (Grammar.underEvil false (Grammar.request (.bytesKnown 4 [expected])))

def payloadSize (what : String) : Grammar Kind Nat := do
  let size ← Grammar.request (.uint 4)
  let room ← Grammar.request .remaining
  if room < size then .stop 1 s!"{what} size {size} runs past the end of the file"
  else pure size

def pad (size : Nat) : Rule :=
  if size % 2 = 1 then Grammar.request (.skip 1) else pure ()

def formatRule : Rule := do
  tag fmtTag
  oneOf 4 [16]
  oneOf 2 [1, 3]
  skipUInt 2
  oneOf 4 sampleRates
  skipUInt 4
  skipUInt 2
  oneOf 2 [8, 16, 24, 32]

def listRule : Rule := do
  tag listTag
  let size ← payloadSize "LIST"
  if size < 4 then .stop 1 s!"LIST size {size} cannot hold its list type"
  else do
    discard (Grammar.request (.bytesKnown 4 [infoTag]))
    discard (Grammar.request (.string (size - 4)))
    pad size

def dataRule : Rule := do
  tag dataTag
  let size ← payloadSize "data"
  let start ← Grammar.request .tell
  discard (Grammar.request (.bytes size))
  let stop ← Grammar.request .tell
  let crc ← Grammar.request (.checksum16 start stop)
  oneOf 2 [crc]
  pad size

def junkRule : Rule := do
  tag junkTag
  let size ← payloadSize "JUNK"
  discard (Grammar.request (.bytes size))
  pad size

def trailing : Grammar Kind (Unit ⊕ Unit) := do
  let ends ← Grammar.request (.endOfFile endThreshold)
  if ends then pure (.inr ())
  else do
    Grammar.inScope "junk" .junk junkRule
    pure (.inl ())

def containerRule : Rule := do
  tag riffTag
  let total ← Grammar.request (.reserve 4)
  discard (Grammar.request (.bytesKnown 4 formTypes))
  Grammar.inScope "fmt" .format formatRule
  let next ← Grammar.underEvil false (Grammar.request (.lookBytes 0 4 [listTag, dataTag]))
  if next = listTag then
    Grammar.inScope "list" .list listRule
  Grammar.inScope "data" .data dataRule
  Grammar.repeatFrom () fun _ => trailing
  let size ← Grammar.request .fileSize
  Grammar.request (.patch total (size - 8))

end Riff

def riff : Format Riff.Kind where
  name := "riff"
  extension := "wav"
  grammar := do
    Grammar.request (.setEndian .little)
    Grammar.inScope "riff" .container Riff.containerRule

end DecisionWalk
