import DecisionWalk.Word

/-!
# Checksums over file bytes

Both checksums shift a register one bit at a time and fold the generator
polynomial in whenever a one falls out. The 32-bit register is reflected: it
shifts right and takes each byte at its low end. The 16-bit register shifts
left and takes each byte at its high end.
-/

set_option autoImplicit false

namespace DecisionWalk

namespace Crc32

def polynomial : UInt32 := 0xEDB88320

def shiftBit (r : UInt32) : UInt32 :=
  if r &&& 1 = 1 then (r >>> 1) ^^^ polynomial else r >>> 1

def shiftByte (r : UInt32) : UInt32 :=
  Nat.repeat shiftBit 8 r

def absorb (r : UInt32) (b : UInt8) : UInt32 :=
  shiftByte (r ^^^ b.toUInt32)

end Crc32

def crc32 (data : Bytes) : UInt32 :=
  ~~~(data.foldl Crc32.absorb 0xFFFFFFFF)

namespace Crc16

def polynomial : UInt16 := 0x1021

def shiftBit (r : UInt16) : UInt16 :=
  if r &&& 0x8000 = 0x8000 then (r <<< 1) ^^^ polynomial else r <<< 1

def shiftByte (r : UInt16) : UInt16 :=
  Nat.repeat shiftBit 8 r

def absorb (r : UInt16) (b : UInt8) : UInt16 :=
  shiftByte (r ^^^ (b.toUInt16 <<< 8))

end Crc16

def crc16 (data : Bytes) : UInt16 :=
  data.foldl Crc16.absorb 0xFFFF

end DecisionWalk
