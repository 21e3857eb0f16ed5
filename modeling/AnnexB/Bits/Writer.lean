/-
# Writing bits

A writer appends fields, most significant bit first, to storage that grows when it is full.  A
reserve of zeros in front of the written bytes goes over to the finished buffer, where a header
can be put into it.

The storage that a writer begins with has at most 2^63 - 1 bytes; to ask for more is a fault.  It
grows as far as there is memory.

Fields that fill whole bytes from a byte boundary on overwrite those bytes; every other field is
put bit by bit over the zeros that stand behind the position.  Growth appends zeros, so that the
storage behind the position stays zero.
-/

import AnnexB.Bits.Reader

namespace AnnexB

/-- Storage, of which the first `front` bytes are in reserve, and the number of bits written
behind the reserve. -/
structure BitWriter where
  storage : List UInt8
  front : Nat
  position : Nat
  deriving DecidableEq, Repr, Inhabited

namespace BitWriter

/-- The bytes that a writer has room for when nothing else is said. -/
def defaultCapacity : Nat := 1024

/-- The most bytes of storage that a writer begins with, 2^63 - 1. -/
def maxSize : Nat := Int64.maxValue.toNatClampNeg

/-- A writer with `capacity` zeros behind a reserve of `front` zeros. -/
def blank (capacity front : Nat) : BitWriter :=
  ⟨List.replicate (front + capacity) 0, front, 0⟩

/-- A writer with room for `capacity` bytes behind a reserve of `front` bytes.  It faults where the
two numbers leave 64 bits together, and where storage cannot have as many bytes. -/
def withFront (capacity front : Nat) : Except Halt BitWriter :=
  if front + capacity ≤ maxSize then .ok (blank capacity front) else .error .fault

def withCapacity (capacity : Nat) : Except Halt BitWriter := withFront capacity 0

def empty : BitWriter := blank defaultCapacity 0

/-- The number of bytes behind the reserve that need no growth. -/
def capacity (w : BitWriter) : Nat := w.storage.length - w.front

/-- The number of bytes begun. -/
def bytesUsed (w : BitWriter) : Nat := (w.position + 7) / 8

def isAligned (w : BitWriter) : Bool := w.position % 8 == 0

/-- The bytes written, the last one filled up with zeros. -/
def toList (w : BitWriter) : List UInt8 := (w.storage.drop w.front).take w.bytesUsed

/-- The bytes `bytes` in place of those from position `start` of `storage` on. -/
def overwrite (storage : List UInt8) (start : Nat) (bytes : List UInt8) : List UInt8 :=
  storage.take start ++ bytes ++ storage.drop (start + bytes.length)

/-- Room for `bits` more bits.  Growth at least doubles the capacity. -/
def reserve (w : BitWriter) (bits : Nat) : BitWriter :=
  let needed := (w.position % 8 + bits + 7) / 8
  if w.position / 8 + needed ≤ w.capacity then w
  else
    let capacity := max (2 * w.capacity) (2 * (w.capacity + needed))
    { w with storage := w.storage ++ List.replicate (capacity - w.capacity) 0 }

/-- The low `8 n` bits of `value` as `n` bytes, most significant first. -/
def bigEndian (value : Nat) : Nat → List UInt8
  | 0 => []
  | n + 1 => UInt8.ofNat (value >>> (8 * n)) :: bigEndian value n

/-- Puts the low `n` bits of `value` over the zeros from bit `pos` behind the reserve on.  Each
step fills as much of a byte as bits are left for. -/
def putBits (storage : List UInt8) (front pos value n : Nat) : List UInt8 :=
  if n = 0 then storage
  else
    let free := 8 - pos % 8
    let count := min n free
    let bits := (value >>> (n - count)) % (1 <<< count)
    let mask := UInt8.ofNat (bits <<< (free - count))
    putBits (storage.modify (front + pos / 8) (· ||| mask)) front (pos + count) value (n - count)
termination_by n
decreasing_by omega

/-- Appends the low `n` bits of `value`, at most 32 of them. -/
def writeBits (w : BitWriter) (value n : Nat) : BitWriter :=
  let n := min n 32
  if n = 0 then w
  else
    let w := w.reserve n
    if w.isAligned && n % 8 == 0 then
      let bytes := bigEndian value (n / 8)
      { w with storage := overwrite w.storage (w.front + w.position / 8) bytes,
               position := w.position + n }
    else
      { w with storage := putBits w.storage w.front w.position value n,
               position := w.position + n }

def writeBit (w : BitWriter) (bit : Nat) : BitWriter := w.writeBits (bit % 2) 1

def writeFlag (w : BitWriter) (flag : Bool) : BitWriter := w.writeBits flag.toNat 1

/-- Appends the low `n` bits of `value`, at most 64 of them: the part above 32 bits first. -/
def writeBits64 (w : BitWriter) (value n : Nat) : BitWriter :=
  if n ≤ 32 then w.writeBits value n
  else (w.writeBits (value >>> 32) (min n 64 - 32)).writeBits value 32

/-- Appends whole bytes at a byte boundary. -/
def writeBytes (w : BitWriter) (bytes : List UInt8) : Except Error Unit × BitWriter :=
  if !w.isAligned then (.error (.unaligned "write_bytes"), w)
  else
    let w := w.reserve (8 * bytes.length)
    (.ok (), { w with storage := overwrite w.storage (w.front + w.position / 8) bytes,
                      position := w.position + 8 * bytes.length })

/-- Moves `n` bytes from a reader to the writer, both at a byte boundary. -/
def transferBytes (w : BitWriter) (r : BitReader) (n : Nat) :
    Except Error Unit × BitWriter × BitReader :=
  if !w.isAligned then (.error .writerUnaligned, w, r)
  else if r.bitsLeft % 8 != 0 then (.error .readerUnaligned, w, r)
  else if r.bytesLeft < n then (.error .endOfData, w, r)
  else
    let (bytes, r) := r.takeBytes n
    let (answer, w) := w.writeBytes bytes
    (answer, w, r)

/-- Moves all bytes that a reader has left to the writer. -/
def transfer (w : BitWriter) (r : BitReader) : Except Error Unit × BitWriter × BitReader :=
  w.transferBytes r r.bytesLeft

/-- Fills the current byte up with zeros. -/
def align (w : BitWriter) : BitWriter := { w with position := (w.position + 7) / 8 * 8 }

/-- Forgets what is written and keeps the storage. -/
def reset (w : BitWriter) : BitWriter :=
  { w with storage := overwrite w.storage w.front (List.replicate w.bytesUsed 0), position := 0 }

/-- The bytes written as a buffer with the writer's reserve in front.  It is the same whether the
writer is kept or given up for it. -/
def toBuffer (w : BitWriter) : ByteBuffer :=
  .ofListWithFront (w.storage.take (w.front + w.bytesUsed)) w.front

end BitWriter

end AnnexB
