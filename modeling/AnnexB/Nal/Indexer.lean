/-
# Finding the NAL units of a stream

An indexer takes a stream in chunks of any size and notes where each NAL unit lies.  It keeps the
last three bytes, in which a start code may have begun, and whether a zero stands before them, which
tells the two start codes apart.

A pattern `00 00 01` opens a unit when at least one byte follows it in the data seen so far.  A unit
ends where the start code of the next one begins, and the last one at the end of the stream.  A last
unit of fewer than `minUnitSize` bytes, with its start code, is dropped; the unit before it still
ends at the dropped unit's start code.

The header of a unit is read from the first three bytes of the stream behind its start code, even
where the unit ends before them.
-/

import AnnexB.StartCode
import AnnexB.Nal.Header

namespace AnnexB

/-- Where a NAL unit lies in its stream, and the bytes that its header is read from. -/
structure NalSpan where
  startCodeOffset : Nat
  startCode : StartCode
  payloadOffset : Nat
  payloadLength : Nat
  headerBytes : List UInt8
  deriving DecidableEq, Repr, Inhabited

namespace NalSpan

/-- The position of the first byte behind the unit. -/
def stop (u : NalSpan) : Nat := u.payloadOffset + u.payloadLength

/-- The length of start code and payload together. -/
def totalLength (u : NalSpan) : Nat := u.stop - u.startCodeOffset

def header (u : NalSpan) (codec : VideoCodec) : NalHeader := .ofPayload codec u.headerBytes

/-- The number of header bytes a span keeps. -/
def headerSize : Nat := 3

/-- The unit opened by a pattern at position `i`, behind a zero or not, with the data `rest` behind
it. -/
def ofPattern (afterZero : Bool) (i : Nat) (rest : List UInt8) : NalSpan :=
  let m := StartCodeMatch.ofPattern afterZero i
  ⟨m.offset, m.startCode, i + 3, 0, rest.take headerSize⟩

/-- The unit, ended at position `stop`. -/
def endAt (u : NalSpan) (stop : Nat) : NalSpan := { u with payloadLength := stop - u.payloadOffset }

/-- The unit with the header bytes that the window of the stream from position `base` on has for
it, as far as they follow on those it already has. -/
def fillHeader (base : Nat) (window : List UInt8) (u : NalSpan) : NalSpan :=
  let next := u.payloadOffset + u.headerBytes.length
  if next < base then u
  else
    let bytes := (window.drop (next - base)).take (headerSize - u.headerBytes.length)
    { u with headerBytes := u.headerBytes ++ bytes }

end NalSpan

/-- The state of indexing a stream: the last bytes seen and where they stand, whether a zero stands
before them, and the units opened so far, latest first. -/
structure StartCodeIndexer where
  carry : List UInt8 := []
  carryOffset : Nat := 0
  afterZero : Bool := false
  units : List NalSpan := []
  deriving DecidableEq, Repr, Inhabited

namespace StartCodeIndexer

/-- The indexer of an empty stream. -/
def empty : StartCodeIndexer := {}

/-- The units, latest first, with one more; it ends the unit before it. -/
def addUnit (unit : NalSpan) : List NalSpan → List NalSpan
  | [] => [unit]
  | last :: earlier => unit :: last.endAt unit.startCodeOffset :: earlier

/-- Opens a unit at each pattern of the data that stands from position `i` on, behind a zero or not.
The last three positions are left for later: at them a pattern has no byte behind it. -/
def openUnits (afterZero : Bool) (i : Nat) (units : List NalSpan) : List UInt8 → List NalSpan
  | [] => units
  | byte :: rest =>
    if StartCodeMatch.hasPattern 1 (byte :: rest) then
      let unit := NalSpan.ofPattern afterZero i (rest.drop 2)
      openUnits (byte == 0) (i + 1) (addUnit unit units) rest
    else openUnits (byte == 0) (i + 1) units rest

/-- Completes the headers of the latest units, back to the first that is complete already. -/
def fillHeaders (base : Nat) (window : List UInt8) : List NalSpan → List NalSpan
  | [] => []
  | u :: earlier =>
    if u.headerBytes.length = NalSpan.headerSize then u :: earlier
    else u.fillHeader base window :: fillHeaders base window earlier

/-- Takes the next chunk of the stream: first for the headers of the units that are open, then for
new units. -/
def push (x : StartCodeIndexer) (chunk : List UInt8) : StartCodeIndexer :=
  let window := x.carry ++ chunk
  let kept := min window.length 3
  let dropped := window.length - kept
  { carry := window.drop dropped
    carryOffset := x.carryOffset + dropped
    afterZero := if dropped = 0 then x.afterZero else StartCodeMatch.followsZero window dropped
    units := openUnits x.afterZero x.carryOffset (fillHeaders x.carryOffset window x.units) window }

/-- The units of a stream of `size` bytes, in order. -/
def finish (x : StartCodeIndexer) (size : Nat) : List NalSpan :=
  match x.units with
  | [] => []
  | last :: earlier =>
    if size - last.startCodeOffset < minUnitSize then earlier.reverse
    else (last.endAt size :: earlier).reverse

end StartCodeIndexer

/-- The first start code at position `start` or later of data that may grow, and the header behind
it. -/
def findNal? (codec : VideoCodec) (data : List UInt8) (start : Nat) :
    Option (StartCodeMatch × NalHeader) :=
  (StartCodeMatch.find? .growing data start).map fun found =>
    (found, .ofPayload codec (data.drop found.payloadOffset))

/-- The NAL units of a whole stream, in order. -/
def nalSpans (data : List UInt8) : List NalSpan :=
  (StartCodeIndexer.empty.push data).finish data.length

end AnnexB
