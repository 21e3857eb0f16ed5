/-
# The layers of an H.264 stream

Behind the header byte of the types 14 and 20 stand three bytes of extension header:

| bits | field |
| ---: | --- |
| 1 | extension flag; 0 announces another extension than this one |
| 1, 6 | `idr`, `priorityId` |
| 1, 3, 4 | `noInterLayerPrediction`, `dependencyId`, `qualityId` |
| 3, 1, 1 | `temporalId`, `useRefBasePicture`, `discardable` |
| 1, 2 | `output`, `reserved` |

An access unit splits into the samples of the base layer and those that only enhancement layers
need.
-/

import AnnexB.Bits.Reader
import AnnexB.Sample

namespace AnnexB

/-- The extension header of a scalable stream. -/
structure SvcHeader where
  idr : Bool
  priorityId : Nat
  noInterLayerPrediction : Bool
  dependencyId : Nat
  qualityId : Nat
  temporalId : Nat
  useRefBasePicture : Bool
  discardable : Bool
  output : Bool
  reserved : Nat
  deriving DecidableEq, Repr, Inhabited

namespace SvcHeader

open BitReader in
/-- Reads the fields behind the extension flag. -/
def read : BitReader.Read SvcHeader := do
  let idr ← readFlag
  let priorityId ← readField .u8 6
  let noInterLayerPrediction ← readFlag
  let dependencyId ← readField .u8 3
  let qualityId ← readField .u8 4
  let temporalId ← readField .u8 3
  let useRefBasePicture ← readFlag
  let discardable ← readFlag
  let output ← readFlag
  let reserved ← readField .u8 2
  return { idr, priorityId, noInterLayerPrediction, dependencyId, qualityId, temporalId,
           useRefBasePicture, discardable, output, reserved }

open BitReader in
/-- Reads the extension flag and, where it is set, the fields behind it. -/
def readExtension : BitReader.Read (Option SvcHeader) := do
  skipBits 8
  if ← readFlag then return some (← read) else return none

/-- The extension header of a NAL unit, if its type has one and the extension is this one. -/
def ofNal (nal : List UInt8) : Except Error (Option SvcHeader) :=
  match nal with
  | [] => .error .emptyNalUnit
  | first :: _ =>
    match AvcNalType.ofHeaderByte first with
    | .prefixNal | .sliceExtension => (readExtension (BitReader.ofList nal)).1
    | _ => .ok none

/-- Whether the unit belongs to the base layer. -/
def isBaseLayer (h : SvcHeader) : Bool := h.dependencyId == 0 && h.qualityId == 0

end SvcHeader

/-- Whether only enhancement layers need a sample.  A sample without payload is kept in the base
layer. -/
def Sample.isEnhancement (s : Sample) : Bool :=
  match s.payload with
  | [] => false
  | first :: _ => (AvcNalType.ofHeaderByte first).isEnhancement

/-- The samples of the base layer and the others, in order, each part marked as an access unit of
its own. -/
def AccessUnit.splitLayers (unit : AccessUnit) : AccessUnit × AccessUnit :=
  let (base, enhancement) := unit.partition fun s => !s.isEnhancement
  (AccessUnit.markLast base, AccessUnit.markLast enhancement)

end AnnexB
