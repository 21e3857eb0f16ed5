/-
# Byte buffers with reserves

The storage of a buffer falls into three regions, `front reserve | data | back reserve`.  Bytes can
be put in front of the data, and bytes behind it taken over, without moving it; only replacing the
storage changes its size.  Positions count from the start of the data.

`ByteBuffer.toList` is the data, `ByteBuffer.frontReserve` and `ByteBuffer.backReserve` are the two
other regions.
-/

import AnnexB.Error

namespace AnnexB

/-- Bytes in storage, of which the first `front` and the last `back` are held in reserve. -/
structure ByteBuffer where
  storage : List UInt8 := []
  front : Nat := 0
  back : Nat := 0
  deriving DecidableEq, Repr, Inhabited

namespace ByteBuffer

/-- A buffer without reserves. -/
def ofList (bytes : List UInt8) : ByteBuffer :=
  ⟨bytes, 0, 0⟩

/-- The buffer without bytes. -/
def empty : ByteBuffer := ofList []

/-- `size` zeros, none in reserve. -/
def zeros (size : Nat) : ByteBuffer :=
  ofList (List.replicate size 0)

/-- Whether two reserves fit into `size` bytes.  Their sum is computed in 64 bits; one that is too
large for them stays at the largest number they have. -/
def reservesFit (front back size : Nat) : Bool := min (front + back) (UInt64.size - 1) ≤ size

/-- The bytes `bytes` with both reserves cut out of them. -/
def ofListWithReserves (bytes : List UInt8) (front back : Nat) : Except Error ByteBuffer :=
  if reservesFit front back bytes.length then .ok ⟨bytes, front, back⟩
  else .error (.reservesTooLarge front back bytes.length)

/-- `size` zeros with both reserves cut out of them. -/
def withReserves (size front back : Nat) : Except Error ByteBuffer :=
  ofListWithReserves (List.replicate size 0) front back

/-- The bytes `bytes`, the first `front` of them, or all if there are fewer, in reserve. -/
def ofListWithFront (bytes : List UInt8) (front : Nat) : ByteBuffer :=
  ⟨bytes, min front bytes.length, 0⟩

/-- The number of bytes in storage. -/
def storageSize (b : ByteBuffer) : Nat := b.storage.length

/-- The number of bytes of data. -/
def size (b : ByteBuffer) : Nat := b.storage.length - b.front - b.back

def isEmpty (b : ByteBuffer) : Bool := b.size == 0

/-- The data. -/
def toList (b : ByteBuffer) : List UInt8 := (b.storage.drop b.front).take b.size

/-- The reserve in front of the data. -/
def frontReserve (b : ByteBuffer) : List UInt8 := b.storage.take b.front

/-- The reserve behind the data. -/
def backReserve (b : ByteBuffer) : List UInt8 := b.storage.drop (b.storage.length - b.back)

/-- Puts bytes in front of the data, in the end of the front reserve. -/
def prepend (b : ByteBuffer) (bytes : List UInt8) : Except Error ByteBuffer :=
  if bytes.length > b.front then .error (.frontReserveTooSmall bytes.length b.front)
  else
    let start := b.front - bytes.length
    let storage := b.storage.take start ++ bytes ++ b.storage.drop b.front
    .ok { b with storage, front := start }

/-- Takes over the first `n` bytes of the back reserve, with the values they have. -/
def extend (b : ByteBuffer) (n : Nat) : Except Error ByteBuffer :=
  if n > b.back then .error (.backReserveTooSmall n b.back)
  else .ok { b with back := b.back - n }

/-- The byte of the data at position `i`. -/
def get? (b : ByteBuffer) (i : Nat) : Option UInt8 :=
  if i < b.size then b.storage[b.front + i]? else none

/-- Replaces the byte of the data at position `i`; there is none beyond the data. -/
def set? (b : ByteBuffer) (i : Nat) (value : UInt8) : Option ByteBuffer :=
  if i < b.size then some { b with storage := b.storage.set (b.front + i) value } else none

/-- Gives every byte of the data one value. -/
def fill (b : ByteBuffer) (value : UInt8) : ByteBuffer :=
  { b with storage := b.frontReserve ++ List.replicate b.size value ++ b.backReserve }

end ByteBuffer

end AnnexB
