/-
# Storage in memory

The position may stand behind the end.  A read there delivers nothing; a write there appends at the
end, and moves the position by the number of bytes written.

The position is computed in 64 bits with a sign.  A target that is negative there is refused, and
so is one of 2^63 or more, which wraps round to a negative number (`MemoryStore.seek`).  A program that
checks its sums faults instead where a relative target leaves the 64 bits (`MemoryStore.targetChecked`).
-/

import AnnexB.Storage.Basic

namespace AnnexB

/-- Bytes in memory and a position. -/
structure MemoryStore where
  data : Array UInt8 := #[]
  position : Nat := 0
  deriving DecidableEq, Repr, Inhabited

namespace MemoryStore

def ofList (bytes : List UInt8) : MemoryStore := ⟨bytes.toArray, 0⟩

def read (n : Nat) (s : MemoryStore) : Array UInt8 × MemoryStore :=
  let bytes := s.data.extract s.position (s.position + n)
  (bytes, { s with position := s.position + bytes.size })

/-- Replaces bytes from the position on, and appends those that reach over the end. -/
def write (bytes : List UInt8) (s : MemoryStore) : MemoryStore :=
  let data :=
    if s.position ≥ s.data.size then s.data.appendList bytes
    else (s.data.extract 0 s.position).appendList bytes
      ++ s.data.extract (s.position + bytes.length) s.data.size
  ⟨data, s.position + bytes.length⟩

/-- The new position in 64 bits with a sign. -/
def target (s : MemoryStore) : SeekTarget → Int64
  | .start offset => offset.toInt64
  | .current offset => Int64.ofNat s.position + offset
  | .stop offset => Int64.ofNat s.data.size + offset

/-- A place and an offset, added in 64 bits with a sign if their sum does not leave them. -/
def sumChecked (place : Nat) (offset : Int64) : Except Halt Int64 :=
  let place := Int64.ofNat place
  Halt.checked Int64.toInt (place + offset) (place.toInt + offset.toInt)

/-- The new position, if its sum does not leave 64 bits. -/
def targetChecked (s : MemoryStore) : SeekTarget → Except Halt Int64
  | .start offset => .ok offset.toInt64
  | .current offset => sumChecked s.position offset
  | .stop offset => sumChecked s.data.size offset

def seek (place : SeekTarget) (s : MemoryStore) : Except StorageFailure Nat × MemoryStore :=
  let target := s.target place
  if target < 0 then (.error (.custom "seek 位置不能为负"), s)
  else (.ok target.toNatClampNeg, { s with position := target.toNatClampNeg })

instance : Storage MemoryStore where
  read n s := let (bytes, s) := s.read n; (.ok bytes, s)
  write bytes s := (.ok (), s.write bytes)
  seek := seek
  position s := (.ok s.position, s)
  size s := some s.data.size
  contents s := some s.data.toList
  remaining s := s.data.size - s.position

end MemoryStore

end AnnexB
