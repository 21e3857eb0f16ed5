/-
# Reading bits

A reader stands at a bit of a run of bytes and counts bits from the most significant bit of the
first byte on.  Its position is one number: the bits already read.

| request | needs | then moves by |
| --- | --- | ---: |
| a field of `n` bits | `n` at most the width of its type, `n` bits left | `n` |
| a look at `n` bits | the same | 0 |
| to skip `n` bits | `n` bits left | `n` |
| to skip or to take `n` bytes | a byte boundary, `n` bytes left | `8 n` |

A request that cannot be served leaves the reader where it stands.
-/

import AnnexB.ByteBuffer

namespace AnnexB

/-- The integer types that a field is read into. -/
inductive FieldType where
  | u8
  | u16
  | u32
  | u64
  deriving DecidableEq, Repr, Inhabited

namespace FieldType

/-- The most bits a field of the type has. -/
def width : FieldType → Nat
  | u8 => 8
  | u16 => 16
  | u32 => 32
  | u64 => 64

/-- The name under which an error message speaks of the type's reader. -/
def readerName : FieldType → String
  | u8 => "read_u8"
  | u16 => "read_u16"
  | u32 => "read_bits"
  | u64 => "read_bits_u64"

end FieldType

/-- A run of bytes and the number of its bits already read. -/
structure BitReader where
  data : List UInt8 := []
  position : Nat := 0
  deriving DecidableEq, Repr, Inhabited

namespace BitReader

/-- A read: an answer, or an error, and the reader after it. -/
abbrev Read (α : Type) := ExceptT Error (StateM BitReader) α

/-- A reader at the first bit of some bytes. -/
def ofList (data : List UInt8) : BitReader := ⟨data, 0⟩

/-- A reader at the first bit of the data of a buffer. -/
def ofBuffer (buffer : ByteBuffer) : BitReader := ofList buffer.toList

/-- The byte in which the reader stands. -/
def bytePosition (r : BitReader) : Nat := r.position / 8

def bitsLeft (r : BitReader) : Nat := 8 * r.data.length - r.position

/-- The number of whole bytes among the bits left. -/
def bytesLeft (r : BitReader) : Nat := r.bitsLeft / 8

/-- The number of bits of the current byte that are not read yet, from 1 to 8. -/
def bitsLeftInByte (r : BitReader) : Nat := 8 - r.position % 8

def atEnd (r : BitReader) : Bool := r.bitsLeft == 0

def isAligned (r : BitReader) : Bool := r.position % 8 == 0

/-- The `n` bits from bit `pos` of the data on, appended to the binary digits of `acc`.  Each step
takes as many bits as are wanted and the byte still has. -/
def fieldAt (data : List UInt8) (pos n acc : Nat) : Nat :=
  if n = 0 then acc
  else
    let free := 8 - pos % 8
    let count := min n free
    let byte := (data[pos / 8]?.getD 0).toNat
    let bits := (byte >>> (free - count)) % (1 <<< count)
    fieldAt data (pos + count) (n - count) ((acc <<< count) + bits)
termination_by n
decreasing_by omega

/-- Reads a field of `n` bits, most significant bit first. -/
def readField (type : FieldType) (n : Nat) : Read Nat := fun r =>
  if n > type.width then (.error (.fieldTooWide type.readerName n type.width), r)
  else if n > r.bitsLeft then (.error .endOfData, r)
  else (.ok (fieldAt r.data r.position n 0), { r with position := r.position + n })

/-- Reads one bit. -/
def readBit : Read Nat := readField .u32 1

/-- Reads one bit as a truth value. -/
def readFlag : Read Bool := return (← readBit) != 0

/-- The next `n` bits as a field of at most 32 bits, without moving on. -/
def peekBits (n : Nat) : Read Nat := fun r => ((readField .u32 n r).1, r)

/-- The byte in which the reader stands, whatever is read of it. -/
def peekByte : Read UInt8 := fun r =>
  match r.data[r.bytePosition]? with
  | some byte => (.ok byte, r)
  | none => (.error .endOfData, r)

def skipBits (n : Nat) : Read Unit := fun r =>
  if n > r.bitsLeft then (.error .endOfData, r)
  else (.ok (), { r with position := r.position + n })

def skipBytes (n : Nat) : Read Unit := fun r =>
  if !r.isAligned then (.error (.unaligned "skip_bytes"), r)
  else if n > r.bytesLeft then (.error .endOfData, r)
  else (.ok (), { r with position := r.position + 8 * n })

/-- Moves on to the next byte boundary, if the reader is not at one. -/
def align (r : BitReader) : BitReader := { r with position := (r.position + 7) / 8 * 8 }

/-- The next `n` whole bytes, and the reader behind them. -/
def takeBytes (r : BitReader) (n : Nat) : List UInt8 × BitReader :=
  ((r.data.drop r.bytePosition).take n, { r with position := r.position + 8 * n })

/-- Takes the next `n` bytes.  The end of the run is computed in 64 bits: one that wraps round to
a position before its start is no run of bytes, and the program faults on it. -/
def readBytes (n : UInt64) (r : BitReader) : Except Halt (List UInt8) × BitReader :=
  if !r.isAligned then (.error (.error (.unaligned "read_bytes")), r)
  else
    let stop := (UInt64.ofNat r.bytePosition + n).toNat
    if stop > r.data.length then (.error (.error .endOfData), r)
    else if stop < r.bytePosition then (.error .fault, r)
    else
      let (bytes, r) := r.takeBytes n.toNat
      (.ok bytes, r)

end BitReader

end AnnexB
