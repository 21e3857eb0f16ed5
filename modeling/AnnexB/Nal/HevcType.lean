/-
# NAL unit types of H.265

The header is two bytes, `forbidden(1) type(6) layer_id(6) temporal_id_plus1(3)`.

| types | role |
| --- | --- |
| 0 to 31 | slices (`isVcl`), 16 to 21 of random access pictures (`isIrap`) |
| 32, 33, 34 | parameter sets |
| 35 | access unit delimiter |
| 38, 39, 40 | filler data and the two SEI types |

The first bit behind the header of a slice says whether the slice is the first of its picture;
behind the header of a parameter set, of SEI or of filler data that bit means something else.
-/

namespace AnnexB

/-- What an H.265 NAL unit holds. -/
inductive HevcNalType where
  | trailN
  | trailR
  | tsaN
  | tsaR
  | stsaN
  | stsaR
  | radlN
  | radlR
  | raslN
  | raslR
  | blaWLp
  | blaWRadl
  | blaNLp
  | idrWRadl
  | idrNLp
  | cra
  | vps
  | sps
  | pps
  | aud
  | eos
  | eob
  | filler
  | prefixSei
  | suffixSei
  | unknown (id : UInt8)
  deriving DecidableEq, Repr, Inhabited

namespace HevcNalType

def ofId (id : UInt8) : HevcNalType :=
  match id.toNat with
  | 0 => trailN
  | 1 => trailR
  | 2 => tsaN
  | 3 => tsaR
  | 4 => stsaN
  | 5 => stsaR
  | 6 => radlN
  | 7 => radlR
  | 8 => raslN
  | 9 => raslR
  | 16 => blaWLp
  | 17 => blaWRadl
  | 18 => blaNLp
  | 19 => idrWRadl
  | 20 => idrNLp
  | 21 => cra
  | 32 => vps
  | 33 => sps
  | 34 => pps
  | 35 => aud
  | 36 => eos
  | 37 => eob
  | 38 => filler
  | 39 => prefixSei
  | 40 => suffixSei
  | _ => unknown id

/-- The type field of the first header byte. -/
def ofHeaderByte (byte : UInt8) : HevcNalType := ofId ((byte &&& 0x7E) >>> 1)

def id : HevcNalType → UInt8
  | trailN => 0
  | trailR => 1
  | tsaN => 2
  | tsaR => 3
  | stsaN => 4
  | stsaR => 5
  | radlN => 6
  | radlR => 7
  | raslN => 8
  | raslR => 9
  | blaWLp => 16
  | blaWRadl => 17
  | blaNLp => 18
  | idrWRadl => 19
  | idrNLp => 20
  | cra => 21
  | vps => 32
  | sps => 33
  | pps => 34
  | aud => 35
  | eos => 36
  | eob => 37
  | filler => 38
  | prefixSei => 39
  | suffixSei => 40
  | unknown id => id

def name : HevcNalType → String
  | trailN => "TrailN"
  | trailR => "TrailR"
  | tsaN => "TsaN"
  | tsaR => "TsaR"
  | stsaN => "StsaN"
  | stsaR => "StsaR"
  | radlN => "RadlN"
  | radlR => "RadlR"
  | raslN => "RaslN"
  | raslR => "RaslR"
  | blaWLp => "BlaWLp"
  | blaWRadl => "BlaWRadl"
  | blaNLp => "BlaNLp"
  | idrWRadl => "IdrWRadl"
  | idrNLp => "IdrNLp"
  | cra => "Cra"
  | vps => "VPS"
  | sps => "SPS"
  | pps => "PPS"
  | aud => "AUD"
  | eos => "Eos"
  | eob => "Eob"
  | filler => "FillerData"
  | prefixSei => "PrefixSEI"
  | suffixSei => "SuffixSEI"
  | unknown id => let n := id.toNat; s!"Unknown({n})"

/-- Whether the unit holds slice data. -/
def isVcl (t : HevcNalType) : Bool := t.id < 32

/-- Whether decoding can start at the unit's picture. -/
def isIrap (t : HevcNalType) : Bool := 16 ≤ t.id && t.id ≤ 21

def isParameterSet : HevcNalType → Bool
  | vps | sps | pps => true
  | _ => false

/-- Whether the bit behind the header can be the flag of a picture's first slice. -/
def mayStartPicture : HevcNalType → Bool
  | prefixSei | suffixSei | filler => false
  | t => !t.isParameterSet

end HevcNalType

end AnnexB
