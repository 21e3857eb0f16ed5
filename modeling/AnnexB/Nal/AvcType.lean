/-
# NAL unit types of H.264

The header is one byte, `forbidden(1) ref_idc(2) type(5)`.  Types 14 and 20 carry a header
extension of three bytes more.

| types | role |
| --- | --- |
| 1 to 5 | slices of the picture (`isVcl`), 5 of an IDR picture |
| 7, 8, 15 | parameter sets |
| 20, 21 | slices of an enhancement layer (`isSliceExtension`) |
| 14, 15, 20, 21 | needed to decode enhancement layers only (`isEnhancement`) |
-/

namespace AnnexB

/-- What an H.264 NAL unit holds. -/
inductive AvcNalType where
  | slice
  | sliceDpa
  | sliceDpb
  | sliceDpc
  | idr
  | sei
  | sps
  | pps
  | aud
  | endOfSequence
  | endOfStream
  | filler
  | spsExtension
  | prefixNal
  | subsetSps
  | auxiliarySlice
  | sliceExtension
  | depthSliceExtension
  | unknown (id : UInt8)
  deriving DecidableEq, Repr, Inhabited

namespace AvcNalType

def ofId (id : UInt8) : AvcNalType :=
  match id.toNat with
  | 1 => slice
  | 2 => sliceDpa
  | 3 => sliceDpb
  | 4 => sliceDpc
  | 5 => idr
  | 6 => sei
  | 7 => sps
  | 8 => pps
  | 9 => aud
  | 10 => endOfSequence
  | 11 => endOfStream
  | 12 => filler
  | 13 => spsExtension
  | 14 => prefixNal
  | 15 => subsetSps
  | 19 => auxiliarySlice
  | 20 => sliceExtension
  | 21 => depthSliceExtension
  | _ => unknown id

/-- The type field of a header byte. -/
def ofHeaderByte (byte : UInt8) : AvcNalType := ofId (byte &&& 0x1F)

def id : AvcNalType → UInt8
  | slice => 1
  | sliceDpa => 2
  | sliceDpb => 3
  | sliceDpc => 4
  | idr => 5
  | sei => 6
  | sps => 7
  | pps => 8
  | aud => 9
  | endOfSequence => 10
  | endOfStream => 11
  | filler => 12
  | spsExtension => 13
  | prefixNal => 14
  | subsetSps => 15
  | auxiliarySlice => 19
  | sliceExtension => 20
  | depthSliceExtension => 21
  | unknown id => id

def name : AvcNalType → String
  | slice => "Slice"
  | sliceDpa => "SliceDPA"
  | sliceDpb => "SliceDPB"
  | sliceDpc => "SliceDPC"
  | idr => "IDR"
  | sei => "SEI"
  | sps => "SPS"
  | pps => "PPS"
  | aud => "AUD"
  | endOfSequence => "EndOfSeq"
  | endOfStream => "EndOfStream"
  | filler => "Filler"
  | spsExtension => "SPSExt"
  | prefixNal => "Prefix"
  | subsetSps => "SubsetSPS"
  | auxiliarySlice => "AuxSlice"
  | sliceExtension => "SliceExt"
  | depthSliceExtension => "SliceExtDepth"
  | unknown id => let n := id.toNat; s!"Unknown({n})"

/-- Whether the unit holds slice data of the base layer. -/
def isVcl : AvcNalType → Bool
  | slice | sliceDpa | sliceDpb | sliceDpc | idr => true
  | _ => false

def isIdr (t : AvcNalType) : Bool := t == idr

def isParameterSet : AvcNalType → Bool
  | sps | pps | subsetSps => true
  | _ => false

/-- Whether the unit holds a slice of an enhancement layer. -/
def isSliceExtension : AvcNalType → Bool
  | sliceExtension | depthSliceExtension => true
  | _ => false

/-- Whether only enhancement layers need the unit. -/
def isEnhancement : AvcNalType → Bool
  | prefixNal | subsetSps => true
  | t => t.isSliceExtension

end AvcNalType

end AnnexB
