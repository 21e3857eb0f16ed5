/-
# Extracting access units

An extractor turns an Annex B stream into samples, either as the stream arrives or from all of it
at once.

In a stream that arrives, each call looks at the unit at the front of the buffer.  Whether a sample
ends its access unit depends on the unit behind it, so that the extractor always holds back one
sample, and a call gives out the one before.

| answer | meaning |
| --- | --- |
| `consumed n` | drop the first `n` bytes of the buffer and call again |
| `needMoreData` | append data to the buffer and call again |
| `endOfStream` | the last sample is given out |

All at once, the units are those of `nalSpans`, grouped by `Boundary.group`.
-/

import AnnexB.Sample
import AnnexB.AccessUnit.Boundary
import AnnexB.Nal.Indexer

namespace AnnexB

/-- What a call asks its caller to do. -/
inductive ExtractStatus where
  | consumed (n : Nat)
  | needMoreData
  | endOfStream
  deriving DecidableEq, Repr, Inhabited

/-- The status as one number. -/
def ExtractStatus.toInt : ExtractStatus → Int
  | consumed n => n
  | needMoreData => 0
  | endOfStream => -1

/-- The answer to a call: a sample, if one is complete, and the status. -/
structure Extraction where
  sample : Option Sample
  status : ExtractStatus
  deriving DecidableEq, Repr, Inhabited

/-- The state of extracting a stream. -/
structure Extractor where
  mediaType : MediaType
  mode : TimestampMode
  boundary : Boundary
  /-- The sample held back. -/
  pending : Option Sample := none
  /-- Whether the unit at the front of the buffer begins an access unit. -/
  startsUnit : Bool := true
  /-- Whether the boundary has seen the first unit. -/
  primed : Bool := false
  /-- The number of access units begun. -/
  unitCount : Nat := 0
  /-- The time of the current access unit. -/
  time : Timestamp := .zero
  deriving DecidableEq, Repr, Inhabited

namespace Extractor

/-- An extractor with the boundary in its given state. -/
def withBoundary (mediaType : MediaType) (boundary : Boundary) (mode : TimestampMode) :
    Extractor :=
  { mediaType, mode, boundary }

def ofMediaType (mediaType : MediaType) (mode : TimestampMode) : Extractor :=
  withBoundary mediaType (.ofCodec mediaType.codec) mode

def codec (e : Extractor) : VideoCodec := e.mediaType.codec

/-- Gives out the sample held back, as the end of its access unit. -/
def flush (e : Extractor) : Option Sample × Extractor :=
  (e.pending.map (·.withMarker true), { e with pending := none })

/-- The position from which the next start code is sought: behind the shortest one. -/
def nextSearchOffset : Nat := 3

/-- The unit behind the one at the front of a buffer. -/
inductive Next where
  | unit (found : StartCodeMatch) (header : NalHeader)
  /-- The unit at the front is the last. -/
  | last
  /-- What follows has not arrived. -/
  | unknown
  deriving DecidableEq, Repr, Inhabited

/-- Looks for the unit behind the one at the front of a buffer.  While more data may follow, the
header of that unit must have arrived in full. -/
def findNext (codec : VideoCodec) (buffer : List UInt8) (extent : Extent) : Next :=
  match StartCodeMatch.find? extent buffer nextSearchOffset, extent with
  | none, .growing => .unknown
  | none, .complete => .last
  | some found, .growing =>
    match NalHeader.ofPayload? codec (buffer.drop found.payloadOffset) with
    | some header => .unit found header
    | none => .unknown
  | some found, .complete =>
    .unit found (.ofPayload codec (buffer.drop found.payloadOffset))

/-- Shows the boundary the first unit of the stream, which begins an access unit in any case. -/
def prime (e : Extractor) (payload : List UInt8) : Extractor :=
  if e.primed then e
  else
    { e with boundary := (e.boundary.observe (.ofPayload e.codec payload)).2
             primed := true
             startsUnit := true }

/-- Stamps and counts an access unit, if the unit at the front begins one. -/
def beginUnit (e : Extractor) : Extractor :=
  if e.startsUnit then { e with time := e.mode.stamp e.unitCount, unitCount := e.unitCount + 1 }
  else e

/-- Holds back the unit at the front, in front of the unit `next`, and gives out the sample held
back before. -/
def step (e : Extractor) (startCode : StartCode) (payload : List UInt8) (next : Option NalHeader) :
    Option Sample × Extractor :=
  let given := e.pending.map (·.withMarker e.startsUnit)
  let e := e.beginUnit
  let (number, boundary) := e.boundary.takeNumber
  let sample := { Sample.ofPayload payload with
    time := e.time, startCode := some startCode, decodingOrder := number }
  match next with
  | some header =>
    let (starts, boundary) := boundary.observe header
    (given, { e with boundary, pending := some sample, startsUnit := starts })
  | none =>
    (given, { e with boundary, pending := some (sample.withMarker true), startsUnit := true })

/-- Takes the unit at the front of the buffer, which must begin with a start code. -/
def extract (e : Extractor) (buffer : List UInt8) (extent : Extent) :
    Except Error Extraction × Extractor :=
  if (buffer.take minUnitSize).length < minUnitSize then
    match extent with
    | .growing => (.ok ⟨none, .needMoreData⟩, e)
    | .complete =>
      let (sample, e) := e.flush
      (.ok ⟨sample, .endOfStream⟩, e)
  else
    match StartCode.leading? buffer with
    | none => (.error .noLeadingStartCode, e)
    | some startCode =>
      let take (stop : Nat) (header : Option NalHeader) : Except Error Extraction × Extractor :=
        let e := e.prime (buffer.drop startCode.size)
        let payload := (buffer.take stop).drop startCode.size
        let (sample, e) := e.step startCode payload header
        (.ok ⟨sample, .consumed stop⟩, e)
      match findNext e.codec buffer extent with
      | .unknown => (.ok ⟨none, .needMoreData⟩, e)
      | .unit found header => take (max found.offset startCode.size) (some header)
      | .last => take buffer.length none

/-- The extractor before the first unit, its boundary numbering from 0. -/
def reset (e : Extractor) : Extractor := withBoundary e.mediaType e.boundary.reset e.mode

/-- The sample of a unit found in some data. -/
def sampleOfSpan (data : Array UInt8) (time : Timestamp) (u : NalSpan) : Sample :=
  { Sample.ofPayload (data.extract u.payloadOffset u.stop).toList with
    time, startCode := some u.startCode }

/-- Numbers the samples of an access unit in decoding order. -/
def numberSamples (b : Boundary) : AccessUnit → AccessUnit × Boundary
  | [] => ([], b)
  | s :: rest =>
    let (number, b) := b.takeNumber
    let (rest, b) := numberSamples b rest
    ({ s with decodingOrder := number } :: rest, b)

/-- Numbers the samples of several access units. -/
def numberUnits (b : Boundary) : List AccessUnit → List AccessUnit
  | [] => []
  | unit :: rest =>
    let (unit, b) := numberSamples b unit
    unit :: numberUnits b rest

/-- The access units of a whole stream, all with one time.  What an extractor has seen of another
stream plays no part. -/
def extractAll (mediaType : MediaType) (data : List UInt8) (time : Timestamp) :
    Except Error (List AccessUnit) :=
  if data.length < minUnitSize then .ok []
  else if (StartCode.leading? data).isNone then .error .noLeadingStartCode
  else
    let codec := mediaType.codec
    let boundary := Boundary.ofCodec codec
    let bytes := data.toArray
    let units := (nalSpans data).map fun u => (u.header codec, sampleOfSpan bytes time u)
    .ok (numberUnits boundary ((boundary.group units).map AccessUnit.markLast))

end Extractor

end AnnexB
