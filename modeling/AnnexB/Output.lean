/-
# Writing Annex B streams

A writer puts access units into a channel, each NAL unit behind a start code.

| NAL unit | start code |
| --- | --- |
| a parameter set written ahead of the stream | long |
| a delimiter put in front of an access unit that has none | long |
| a sample that had a start code in its stream | the same |
| another sample that begins the access unit, is a delimiter or a parameter set | long |
| any other sample | short |

The parameter sets go in front of the first access unit that is not empty.  They leave the writer's
queue before the first of them is written.
-/

import AnnexB.Bits.Writer
import AnnexB.Sample
import AnnexB.Storage.Channel

namespace AnnexB

/-- An access unit delimiter that allows every slice type, without start code. -/
def delimiter (codec : VideoCodec) : ByteBuffer :=
  let w := BitWriter.blank 4 0
  let w := match codec with
    | .h264 => (((w.writeBit 0).writeBits 0 2).writeBits 9 5).writeBits 7 3
    | .h265 => ((((w.writeBit 0).writeBits 35 6).writeBits 0 6).writeBits 1 3).writeBits 2 3
  (w.writeBit 1).align.toBuffer

/-- A channel, what is written besides the samples, and what was written so far. -/
structure StreamWriter (σ : Type) where
  channel : Channel σ
  codec : VideoCodec
  /-- Whether an access unit without delimiter gets one. -/
  insertDelimiter : Bool := false
  /-- The parameter sets to be written ahead of the stream. -/
  parameterSets : List ByteBuffer := []
  unitsWritten : Nat := 0
  bytesWritten : Nat := 0
  deriving Repr, Inhabited

namespace StreamWriter

variable {σ : Type}

def ofChannel (channel : Channel σ) (codec : VideoCodec) : StreamWriter σ := { channel, codec }

/-- The start code of a sample, which `leads` its access unit or does not. -/
def startCodeOf (codec : VideoCodec) (leads : Bool) (s : Sample) : StartCode :=
  let header := s.header codec
  s.startCode.getD (if leads || header.isAud || header.isParameterSet then .long else .short)

/-- What an access unit is written as: its NAL units with their start codes. -/
def unitsOf (codec : VideoCodec) (insertDelimiter : Bool) :
    AccessUnit → List (StartCode × List UInt8)
  | [] => []
  | first :: rest =>
    let inserted := insertDelimiter && !(first.header codec).isAud
    let ahead := if inserted then [(StartCode.long, (delimiter codec).toList)] else []
    ahead ++ (startCodeOf codec (!inserted) first, first.payload)
      :: rest.map fun s => (startCodeOf codec false s, s.payload)

variable [Storage σ]

/-- Writes a NAL unit behind its start code.  Its bytes are counted when both are written. -/
def writeUnit (w : StreamWriter σ) (startCode : StartCode) (payload : List UInt8) :
    Except Error Unit × StreamWriter σ :=
  match w.channel.write startCode.bytes with
  | (.error e, channel) => (.error e, { w with channel })
  | (.ok _, channel) =>
    match channel.write payload with
    | (.error e, channel) => (.error e, { w with channel })
    | (.ok _, channel) =>
      (.ok (), { w with channel, bytesWritten := w.bytesWritten + startCode.size + payload.length })

/-- Writes NAL units up to the first that fails. -/
def writeUnits (w : StreamWriter σ) :
    List (StartCode × List UInt8) → Except Error Unit × StreamWriter σ
  | [] => (.ok (), w)
  | (startCode, payload) :: rest =>
    match w.writeUnit startCode payload with
    | (.error e, w) => (.error e, w)
    | (.ok _, w) => writeUnits w rest

/-- Writes an access unit; an empty one is nothing to write. -/
def writeAccessUnit (w : StreamWriter σ) (unit : AccessUnit) : Except Error Unit × StreamWriter σ :=
  if unit.isEmpty then (.ok (), w)
  else
    let isFirst := w.unitsWritten == 0
    let ahead := if isFirst then w.parameterSets.map fun p => (StartCode.long, p.toList) else []
    let units := ahead ++ unitsOf w.codec w.insertDelimiter unit
    let w := if isFirst then { w with parameterSets := [] } else w
    match w.writeUnits units with
    | (.error e, w) => (.error e, w)
    | (.ok _, w) => (.ok (), { w with unitsWritten := w.unitsWritten + 1 })

end StreamWriter

end AnnexB
