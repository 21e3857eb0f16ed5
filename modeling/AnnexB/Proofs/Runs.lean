/-
# Access units as runs

What opens an access unit is a relation of two units that stand side by side.  So the access units
of a stream are its runs: cutting by a boundary is `List.splitBy`, whatever state the boundary is in
(`Boundary.group_eq_splitBy`).

For H.265 that settles what an access unit may hold of the pictures of the base layer.  The first
slice of a picture does not open an access unit behind a parameter set, wherever that parameter set
stands.  Behind a picture that is complete, it joins the next picture to it
(`Boundary.two_pictures_in_group`).  Nothing else does: of two first slices in an access unit, the
later one stands directly behind a parameter set (`Boundary.parameterSet_ahead_of_picture`).
-/

import AnnexB.Proofs.Opening
import Mathlib.Data.List.SplitBy

namespace AnnexB

namespace NalHeader

instance (codec : VideoCodec) (h before : NalHeader) : Decidable (h.OpensBehind codec before) :=
  match codec with
  | .h264 => inferInstanceAs (Decidable (_ ∨ _ ∧ _))
  | .h265 => inferInstanceAs (Decidable (_ ∨ _ ∧ _ ∧ _))

/-- Whether a unit stays in the access unit of the unit `before`. -/
def continues (codec : VideoCodec) (before h : NalHeader) : Bool :=
  !decide (h.OpensBehind codec before)

theorem continues_eq_true_iff {codec : VideoCodec} {before h : NalHeader} :
    continues codec before h = true ↔ ¬ h.OpensBehind codec before := by
  simp [continues]

theorem continues_eq_false_iff {codec : VideoCodec} {before h : NalHeader} :
    continues codec before h = false ↔ h.OpensBehind codec before := by
  simp [continues]

/-- The header of the first slice of a base-layer picture. -/
def StartsPicture (h : NalHeader) : Prop := h.firstSliceSegment = true ∧ h.layerId = 0

instance (h : NalHeader) : Decidable h.StartsPicture := inferInstanceAs (Decidable (_ ∧ _))

end NalHeader

namespace Boundary

variable {α : Type}

/-- An element in front of a list joins its first run, if it is related to the first element. -/
theorem splitBy_cons_cons {r : α → α → Bool} {x y : α} {rest run : List α} {runs : List (List α)}
    (hxy : r x y = true) (h : (y :: rest).splitBy r = (y :: run) :: runs) :
    (x :: y :: rest).splitBy r = (x :: y :: run) :: runs := by
  obtain ⟨hflatten, hnil, hinside, hacross⟩ := List.splitBy_eq_iff.1 h
  refine List.splitBy_eq_iff.2 ⟨?_, ?_, ?_, ?_⟩
  · rw [hflatten]
    rfl
  · simpa using hnil
  · intro unit hunit
    rcases List.mem_cons.1 hunit with rfl | hunit
    · exact .cons_cons hxy (hinside _ (List.mem_cons_self ..))
    · exact hinside unit (List.mem_cons_of_mem _ hunit)
  · rw [List.isChain_cons] at hacross ⊢
    refine ⟨fun unit hunit => ?_, hacross.2⟩
    obtain ⟨_, hne, hopens⟩ := hacross.1 unit hunit
    exact ⟨List.cons_ne_nil _ _, hne, hopens⟩

/-- **Access units are runs** of units that each stay in the access unit of the one before. -/
theorem group_eq_splitBy (b : Boundary) (header : α → NalHeader) (units : List α) :
    b.group (units.map fun u => (header u, u)) =
      units.splitBy fun before u => NalHeader.continues b.codec (header before) (header u) := by
  induction units generalizing b with
  | nil => rfl
  | cons x rest ih =>
    rcases rest with _ | ⟨y, rest⟩
    · rfl
    · have hrest := ih (b.observe (header x)).2
      have hrule := observe_observe b (header x) (header y)
      rw [codec_observe] at hrest
      simp only [List.map_cons, group_cons] at hrest ⊢
      rw [cut_cons]
      split
      · rename_i hstarts
        have hopens := NalHeader.continues_eq_false_iff.2 (hrule.1 hstarts)
        rw [hrest]
        exact (List.splitBy_append_cons (l := [x]) rest (by simpa using hopens)).symm
      · rename_i hstarts
        have hstays := NalHeader.continues_eq_true_iff.2 (mt hrule.2 hstarts)
        refine (splitBy_cons_cons ?_ hrest.symm).symm
        exact hstays

/-- The units of an access unit each stay in the access unit of the one before. -/
theorem isChain_of_mem_group (header : α → NalHeader) {b : Boundary} {units unit : List α}
    (h : unit ∈ b.group (units.map fun u => (header u, u))) :
    unit.IsChain fun before u => ¬ (header u).OpensBehind b.codec (header before) := by
  rw [group_eq_splitBy] at h
  exact (List.isChain_of_mem_splitBy h).imp fun _ _ => NalHeader.continues_eq_true_iff.1

/-- **The first slice of a base-layer picture opens its access unit, or stands directly behind a
parameter set** of that access unit.  So of two of them in an access unit, the later one does. -/
theorem parameterSet_ahead_of_picture (state : HevcBoundary) {headers unit : List NalHeader}
    (hunit : unit ∈ (hevc state).group (headers.map fun h => (h, h))) {j : Nat} {h : NalHeader}
    (hj : unit[j + 1]? = some h) (hstarts : h.StartsPicture) :
    ∃ before ∈ unit[j]?, before.hevcType.isParameterSet = true := by
  obtain ⟨hlt, rfl⟩ := List.getElem?_eq_some_iff.1 hj
  have hstays := List.isChain_iff_getElem.1 (isChain_of_mem_group id hunit) j hlt
  refine ⟨unit[j], List.getElem?_eq_getElem _, ?_⟩
  by_contra hnot
  exact hstays (.inr ⟨hstarts.1, hstarts.2, Bool.eq_false_iff.2 hnot⟩)

/-- A parameter set joins the pictures in front of it and behind it. -/
theorem parameterSet_ahead_of_picture_joined :
    let slice : NalHeader := .ofPayload .h265 [2, 1, 208]
    let parameterSet : NalHeader := .ofPayload .h265 [68, 1, 193]
    let unit := [slice, parameterSet, slice]
    unit ∈ (hevc {}).group (unit.map fun h => (h, h)) ∧ unit[2]? = some slice ∧
      slice.StartsPicture ∧ ∃ before ∈ unit[1]?, before.hevcType.isParameterSet = true := by
  intro slice parameterSet unit
  have hunit : unit ∈ (hevc {}).group (unit.map fun h => (h, h)) := List.mem_singleton_self _
  have hstarts : slice.StartsPicture := by decide
  exact ⟨hunit, rfl, hstarts, parameterSet_ahead_of_picture {} hunit rfl hstarts⟩

/-- **An access unit may hold two pictures of the base layer,** with a parameter set in between. -/
theorem two_pictures_in_group :
    ¬ ∀ headers : List NalHeader,
      ∀ unit ∈ (ofCodec .h265).group (headers.map fun h => (h, h)),
        (unit.filter fun h => h.StartsPicture).length ≤ 1 := by
  intro hone
  let slice : NalHeader := .ofPayload .h265 [2, 1, 208]
  let parameterSet : NalHeader := .ofPayload .h265 [68, 1, 193]
  have hle := hone [slice, parameterSet, slice] [slice, parameterSet, slice]
    (List.mem_singleton_self _)
  exact absurd hle (by decide)

end Boundary
end AnnexB
