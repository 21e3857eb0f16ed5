/-
# Storage

Storage is a sequence of bytes with a position in it, reached by five calls.  Each call answers, or
fails, and leaves the storage in a new state.

`remaining` bounds the bytes that reads can still deliver from a state on, before the position is
moved by other means; a loop that reads to the end needs no more reads than that to get there.
-/

import AnnexB.Error

namespace AnnexB

/-- Where to move the position to. -/
inductive SeekTarget where
  | start (offset : UInt64)
  | current (offset : Int64)
  | stop (offset : Int64)
  deriving DecidableEq, Repr

/-- A kind of storage with states `σ`. -/
class Storage (σ : Type) where
  /-- At most so many bytes from the position on; none only at the end. -/
  read : Nat → σ → Except StorageFailure (Array UInt8) × σ
  /-- All the bytes, at the position. -/
  write : List UInt8 → σ → Except StorageFailure Unit × σ
  /-- Moves the position, and says where it is then. -/
  seek : SeekTarget → σ → Except StorageFailure Nat × σ
  position : σ → Except StorageFailure Nat × σ
  /-- The number of bytes held, where it is known. -/
  size : σ → Option Nat
  /-- The bytes held, where they are in memory. -/
  contents : σ → Option (List UInt8)
  /-- A bound on the bytes that reads can still deliver. -/
  remaining : σ → Nat

end AnnexB
