/-
# Media sources

A source hands out access units, one at a time, as long as it is good.  One that is at its end, or
that has failed, hands out empty access units.
-/

import AnnexB.Sample
import AnnexB.Source.Replay

namespace AnnexB

/-- A kind of source with states `α`. -/
class MediaSource (α : Type) where
  /-- What the source calls its format. -/
  name : α → String
  /-- Whether there may be another access unit. -/
  isGood : α → Bool
  /-- The next access unit, empty if there is none. -/
  next : α → AccessUnit × α
  /-- A bound on the access units still to come, if there is one. -/
  bound : α → Option Nat

/-- The access units of a source while it is good, up to the first empty one and at most `limit` of
them. -/
def MediaSource.units {α : Type} [MediaSource α] (s : α) : (limit : Nat) → List AccessUnit × α
  | 0 => ([], s)
  | limit + 1 =>
    if !MediaSource.isGood s then ([], s)
    else
      match MediaSource.next s with
      | ([], s) => ([], s)
      | (unit, s) =>
        let (later, s) := units s limit
        (unit :: later, s)

/-- How a stream is to be played. -/
structure SourceConfig where
  mediaType : MediaType
  replay : Replay := .disabled
  mode : TimestampMode := default
  deriving DecidableEq, Repr, Inhabited

/-- How raw frames are to be played. -/
structure YuvConfig where
  width : UInt32
  height : UInt32
  replay : Replay := .disabled
  mode : TimestampMode := default
  deriving DecidableEq, Repr, Inhabited

/-- The number of bytes of a 4:2:0 frame, computed in 64 bits.  A product that leaves them is a
fault. -/
def YuvConfig.frameSize (c : YuvConfig) : Except Halt UInt64 := do
  let width := c.width.toUInt64
  let height := c.height.toUInt64
  let pixels ← Halt.checked (·.toNat) (width * height) (width.toNat * height.toNat)
  let product ← Halt.checked (·.toNat) (pixels * 3) (pixels.toNat * 3)
  return product / 2

end AnnexB
