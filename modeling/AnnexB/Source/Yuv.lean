/-
# Raw frames

A file of raw 4:2:0 frames is frame after frame, all of one size.  Each is served as an access unit
of one sample.  Bytes behind the last whole frame are left out.

A source needs storage of known size and a frame of at least one byte.  Where the size of a frame
leaves 64 bits, the program faults before there is a source.
-/

import AnnexB.Source.Basic
import AnnexB.Storage.Channel

namespace AnnexB

/-- The frames of some storage. -/
structure YuvSource (σ : Type) where
  config : YuvConfig
  channel : Option (Channel σ)
  /-- The number of bytes of a frame, or 0 without input. -/
  frameSize : Nat
  frameCount : Nat
  cursor : ReplayCursor
  intact : Bool
  deriving Repr, Inhabited

namespace YuvSource

variable {σ : Type} [Storage σ]

/-- The number of whole frames of `frameSize` bytes that a channel holds. -/
def countFrames (c : Channel σ) (config : YuvConfig) (frameSize : Nat) : Except Error Nat :=
  if frameSize = 0 then .error (.emptyFrame config.width config.height)
  else
    match c.size with
    | none => .error .unknownSize
    | some size => .ok (size / frameSize)

/-- A source without input. -/
def failed (config : YuvConfig) : YuvSource σ :=
  { config, channel := none, frameSize := 0, frameCount := 0, cursor := .start config.replay 0
    intact := false }

/-- A source over the frames of a channel. -/
def ofFrames (c : Channel σ) (config : YuvConfig) (frameSize : Nat) : YuvSource σ :=
  match countFrames c config frameSize with
  | .error _ => failed config
  | .ok frameCount =>
    { config, channel := some c, frameSize, frameCount
      cursor := .start config.replay frameCount, intact := true }

/-- A source over the frames of a channel, of the size that the configuration says. -/
def ofChannel (c : Channel σ) (config : YuvConfig) : Except Halt (YuvSource σ) := do
  let frameSize ← config.frameSize
  return ofFrames c config frameSize.toNat

/-- Reads a frame of a pass as a sample. -/
def readFrame (s : YuvSource σ) (index : Nat) : Except Error Sample × YuvSource σ :=
  match s.channel with
  | none => (.error .noStorage, s)
  | some c =>
    match c.seek (.start (UInt64.ofNat (index * s.frameSize))) with
    | (.error e, c) => (.error e, { s with channel := some c })
    | (.ok _, c) =>
      match c.readExact s.frameSize with
      | (.error e, c) => (.error e, { s with channel := some c })
      | (.ok bytes, c) =>
        let time := s.config.mode.stamp s.cursor.served.toNat
        (.ok { Sample.ofPayload bytes with time, marker := true }, { s with channel := some c })

def isGood (s : YuvSource σ) : Bool := s.intact && !s.cursor.atEnd

/-- The next frame.  A read that fails ends the source. -/
def next (s : YuvSource σ) : AccessUnit × YuvSource σ :=
  if !s.isGood then ([], s)
  else
    match s.readFrame s.cursor.position with
    | (.ok sample, s) => ([sample], { s with cursor := s.cursor.advance })
    | (.error _, s) => ([], { s with intact := false })

instance : MediaSource (YuvSource σ) where
  name _ := "YUV420"
  isGood := isGood
  next := next
  bound s := s.cursor.left

end YuvSource

end AnnexB
