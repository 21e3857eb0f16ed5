/-
# Where access units begin

A boundary watches the headers of a stream in order and says of each whether it begins an access
unit.

| codec | a unit begins an access unit when |
| --- | --- |
| H.264 | it is a delimiter, or the base layer comes back after slices of an enhancement layer |
| H.265 | it is a delimiter, or the first slice of a base-layer picture, not behind a parameter set |

For H.265 a boundary also numbers the units in decoding order, modulo 2^16.

`Boundary.group` cuts a sequence of units into access units.  The first unit begins one whatever
the boundary says of it, but the boundary watches it like the others.
-/

import AnnexB.Nal.Header

namespace AnnexB

/-- The state for H.264: whether the unit before belonged to the base layer. -/
structure AvcBoundary where
  baseLayer : Bool := true
  deriving DecidableEq, Repr, Inhabited

/-- Whether a unit begins an access unit, and the state after it. -/
def AvcBoundary.observe (b : AvcBoundary) (h : NalHeader) : Bool × AvcBoundary :=
  if h.avcType == .aud || (!b.baseLayer && !h.avcType.isSliceExtension) then (true, ⟨true⟩)
  else (false, ⟨b.baseLayer && !h.avcType.isSliceExtension⟩)

/-- The state for H.265: the type of the unit before, and the next number in decoding order. -/
structure HevcBoundary where
  previous : Option HevcNalType := none
  nextNumber : UInt16 := 0
  deriving DecidableEq, Repr, Inhabited

/-- Whether a unit begins an access unit, and the state after it. -/
def HevcBoundary.observe (b : HevcBoundary) (h : NalHeader) : Bool × HevcBoundary :=
  let afterParameterSet := b.previous.any HevcNalType.isParameterSet
  (h.hevcType == .aud || (h.firstSliceSegment && h.layerId == 0 && !afterParameterSet),
    { b with previous := some h.hevcType })

/-- The state of watching a stream. -/
inductive Boundary where
  | avc (state : AvcBoundary)
  | hevc (state : HevcBoundary)
  deriving DecidableEq, Repr, Inhabited

namespace Boundary

/-- The state before the first unit of a stream. -/
def ofCodec : VideoCodec → Boundary
  | .h264 => .avc {}
  | .h265 => .hevc {}

/-- The state before the first unit, with the number that the first unit of an H.265 stream gets. -/
def withNumber (codec : VideoCodec) (number : UInt16) : Boundary :=
  match codec with
  | .h264 => .avc {}
  | .h265 => .hevc { nextNumber := number }

/-- Whether a unit begins an access unit, and the state after it. -/
def observe (b : Boundary) (h : NalHeader) : Bool × Boundary :=
  match b with
  | avc state => let (starts, state) := state.observe h; (starts, avc state)
  | hevc state => let (starts, state) := state.observe h; (starts, hevc state)

/-- The number of the next unit in decoding order, where the codec has one. -/
def takeNumber : Boundary → Option UInt16 × Boundary
  | avc state => (none, avc state)
  | hevc state => (some state.nextNumber, hevc { state with nextNumber := state.nextNumber + 1 })

/-- The state before the first unit; numbering begins at 0 again. -/
def reset : Boundary → Boundary
  | avc _ => avc {}
  | hevc _ => hevc {}

/-- The units up to the next one that begins an access unit, and the access units from there on. -/
def cut {α : Type} (b : Boundary) : List (NalHeader × α) → List α × List (List α)
  | [] => ([], [])
  | (h, unit) :: rest =>
    let (starts, b) := b.observe h
    let (current, later) := cut b rest
    if starts then ([], (unit :: current) :: later) else (unit :: current, later)

/-- Cuts the units into access units. -/
def group {α : Type} (b : Boundary) : List (NalHeader × α) → List (List α)
  | [] => []
  | (h, unit) :: rest =>
    let (current, later) := cut (b.observe h).2 rest
    (unit :: current) :: later

end Boundary

end AnnexB
