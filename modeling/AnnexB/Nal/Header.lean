/-
# NAL unit headers

What a decision on access units needs of a NAL unit, in one form for both codecs.  Bytes that the
payload does not have count as zero.

| field | H.264 | H.265 |
| --- | --- | --- |
| `nalType` | low 5 bits of byte 0 | bits 1 to 6 of byte 0 |
| `layerId` | 0 | lowest bit of byte 0, then high 5 bits of byte 1 |
| `temporalIdPlus1` | 0 | low 3 bits of byte 1 |
| `firstSliceSegment` | no | top bit of byte 2, where the type allows it |
-/

import AnnexB.MediaType
import AnnexB.Nal.AvcType
import AnnexB.Nal.HevcType

namespace AnnexB

/-- The header of a NAL unit. -/
structure NalHeader where
  codec : VideoCodec
  nalType : UInt8
  layerId : UInt8
  temporalIdPlus1 : UInt8
  firstSliceSegment : Bool
  deriving DecidableEq, Repr, Inhabited

namespace NalHeader

/-- The header of a payload, with zeros for the bytes that it lacks. -/
def ofPayload (codec : VideoCodec) (payload : List UInt8) : NalHeader :=
  let byte (i : Nat) : UInt8 := payload[i]?.getD 0
  match codec with
  | .h264 => ⟨.h264, byte 0 &&& 0x1F, 0, 0, false⟩
  | .h265 =>
    let nalType := (byte 0 &&& 0x7E) >>> 1
    { codec := .h265
      nalType := nalType
      layerId := ((byte 0 &&& 0x01) <<< 5) ||| ((byte 1 &&& 0xF8) >>> 3)
      temporalIdPlus1 := byte 1 &&& 0x07
      firstSliceSegment := byte 2 &&& 0x80 != 0 && (HevcNalType.ofId nalType).mayStartPicture }

/-- The header of a payload that has all the bytes which it depends on. -/
def ofPayload? (codec : VideoCodec) (payload : List UInt8) : Option NalHeader :=
  if (payload.take codec.probeLength).length < codec.probeLength then none
  else some (ofPayload codec payload)

/-- The type read as one of H.264. -/
def avcType (h : NalHeader) : AvcNalType := .ofId h.nalType

/-- The type read as one of H.265. -/
def hevcType (h : NalHeader) : HevcNalType := .ofId h.nalType

def isAud (h : NalHeader) : Bool :=
  match h.codec with
  | .h264 => h.avcType == .aud
  | .h265 => h.hevcType == .aud

def isParameterSet (h : NalHeader) : Bool :=
  match h.codec with
  | .h264 => h.avcType.isParameterSet
  | .h265 => h.hevcType.isParameterSet

def isVcl (h : NalHeader) : Bool :=
  match h.codec with
  | .h264 => h.avcType.isVcl
  | .h265 => h.hevcType.isVcl

/-- Whether decoding can start at the unit's picture. -/
def isRandomAccess (h : NalHeader) : Bool :=
  match h.codec with
  | .h264 => h.avcType.isIdr
  | .h265 => h.hevcType.isIrap

def typeName (h : NalHeader) : String :=
  match h.codec with
  | .h264 => h.avcType.name
  | .h265 => h.hevcType.name

end NalHeader

end AnnexB
