/-
# Samples

A sample is one NAL unit with what a consumer needs to know of it.  The samples of an access unit
form a list; its last one, and no other, is marked.
-/

import AnnexB.ByteBuffer
import AnnexB.StartCode
import AnnexB.Timestamp
import AnnexB.Nal.Header

namespace AnnexB

/-- One NAL unit: its bytes, its time, whether it ends an access unit, its place in decoding order,
the start code it had in its stream, and the marks that a transport may put on it. -/
structure Sample where
  data : ByteBuffer
  time : Timestamp := .zero
  marker : Bool := false
  rtpTime : Option UInt32 := none
  decodingOrder : Option UInt16 := none
  flowId : Option UInt32 := none
  startCode : Option StartCode := none
  /-- Whether the data may begin with a start code that is not part of the payload. -/
  containsStartCode : Bool := false
  deriving DecidableEq, Repr, Inhabited

/-- The samples of one coded picture. -/
abbrev AccessUnit := List Sample

namespace Sample

/-- A sample of some payload. -/
def ofPayload (payload : List UInt8) : Sample := { data := .ofList payload }

/-- The NAL unit without its start code. -/
def payload (s : Sample) : List UInt8 :=
  let data := s.data.toList
  match StartCode.leading? data with
  | some startCode => if s.containsStartCode then data.drop startCode.size else data
  | none => data

def payloadSize (s : Sample) : Nat := s.payload.length

def header (s : Sample) (codec : VideoCodec) : NalHeader := .ofPayload codec s.payload

/-- The sample with its marker set or cleared. -/
def withMarker (s : Sample) (marker : Bool) : Sample := { s with marker := marker }

end Sample

/-- The samples with the last one marked, and only that. -/
def AccessUnit.markLast : AccessUnit → AccessUnit
  | [] => []
  | [s] => [s.withMarker true]
  | s :: rest => s.withMarker false :: markLast rest

end AnnexB
