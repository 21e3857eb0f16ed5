/-
# Which units open an access unit

A boundary keeps a state, but what it says of a unit depends on that unit and the one before it
only: for H.264 on whether the unit before was a slice of an enhancement layer
(`AvcBoundary.baseLayer_after`), for H.265 on its type.  `NalHeader.OpensBehind` is that rule, and
`Boundary.opensGroup_iff` says that units are cut by it.

The headers can be read from the samples.  The three bytes of the stream that a span keeps may reach
over the end of a unit, into the start code behind it; a header does not tell those bytes from the
zeros that it takes for missing ones (`NalHeader.ofPayload_startCode`).
-/

import AnnexB.Proofs.Drain

namespace AnnexB

/-! ### Positions that open a group -/

section

variable {α β : Type} {g : List α} {gs : List (List α)} {k : Nat}

/-- Position `k` of the elements of some groups, counted through, is the first of a group. -/
def OpensGroup (groups : List (List α)) (k : Nat) : Prop :=
  ∃ earlier group later, groups = earlier ++ group :: later ∧ earlier.flatten.length = k

theorem not_opensGroup_nil : ¬ OpensGroup ([] : List (List α)) k := by
  rintro ⟨earlier, group, later, h, -⟩
  simp at h

theorem opensGroup_cons :
    OpensGroup (g :: gs) k ↔ k = 0 ∨ ∃ m, OpensGroup gs m ∧ k = g.length + m := by
  constructor
  · rintro ⟨earlier, group, later, h, rfl⟩
    rcases earlier with _ | ⟨first, earlier⟩
    · exact .inl rfl
    · obtain ⟨rfl, hgs⟩ := List.cons.inj h
      refine .inr ⟨_, ⟨earlier, group, later, hgs, rfl⟩, ?_⟩
      rw [List.flatten_cons, List.length_append]
  · rintro (rfl | ⟨m, ⟨earlier, group, later, rfl, rfl⟩, rfl⟩)
    · exact ⟨[], g, gs, rfl, rfl⟩
    · refine ⟨g :: earlier, group, later, rfl, ?_⟩
      rw [List.flatten_cons, List.length_append]

theorem opensGroup_zero_iff : OpensGroup gs 0 ↔ gs ≠ [] := by
  rcases gs with _ | ⟨g, gs⟩
  · exact iff_of_false not_opensGroup_nil (by simp)
  · exact iff_of_true (opensGroup_cons.2 (.inl rfl)) (by simp)

/-- A first group of one element, taken away. -/
theorem opensGroup_singleton_cons {x : α} :
    OpensGroup ([x] :: gs) (k + 1) ↔ OpensGroup gs k := by
  rw [opensGroup_cons]
  constructor
  · rintro (hzero | ⟨m, hm, hk⟩)
    · simp at hzero
    · obtain rfl : k = m := by simpa [Nat.add_comm] using hk
      exact hm
  · intro h
    exact .inr ⟨k, h, Nat.add_comm k 1⟩

/-- The first element of a longer group, taken away. -/
theorem opensGroup_cons_cons {x y : α} :
    OpensGroup ((x :: y :: g) :: gs) (k + 1) ↔ OpensGroup ((y :: g) :: gs) k ∧ k ≠ 0 := by
  have hlength : (x :: y :: g).length = (y :: g).length + 1 := rfl
  have hpos : 0 < (y :: g).length := Nat.zero_lt_succ _
  rw [opensGroup_cons, opensGroup_cons, hlength]
  constructor
  · rintro (hzero | ⟨m, hm, hk⟩)
    · simp at hzero
    · exact ⟨.inr ⟨m, hm, by omega⟩, by omega⟩
  · rintro ⟨hzero | ⟨m, hm, hk⟩, hne⟩
    · exact absurd hzero hne
    · exact .inr ⟨m, hm, by omega⟩

/-- Only the lengths of the groups matter. -/
theorem opensGroup_congr {xs : List (List α)} {ys : List (List β)}
    (h : xs.map List.length = ys.map List.length) : OpensGroup xs k ↔ OpensGroup ys k := by
  induction xs generalizing ys k with
  | nil =>
    obtain rfl : ys = [] := List.map_eq_nil_iff.1 h.symm
    exact iff_of_false not_opensGroup_nil not_opensGroup_nil
  | cons x xs ih =>
    rcases ys with _ | ⟨y, ys⟩
    · simp at h
    · obtain ⟨hlength, hrest⟩ := List.cons.inj h
      rw [opensGroup_cons, opensGroup_cons, hlength]
      simp only [ih hrest]

end

/-! ### The rule -/

/-- Whether a unit opens an access unit behind the unit `before`. -/
def NalHeader.OpensBehind (codec : VideoCodec) (h before : NalHeader) : Prop :=
  match codec with
  | .h264 =>
    h.avcType = .aud ∨
      before.avcType.isSliceExtension = true ∧ h.avcType.isSliceExtension = false
  | .h265 =>
    h.hevcType = .aud ∨
      h.firstSliceSegment = true ∧ h.layerId = 0 ∧ before.hevcType.isParameterSet = false

namespace AvcBoundary

/-- The state after some units. -/
def after (headers : List NalHeader) : AvcBoundary :=
  headers.foldl (fun b h => (b.observe h).2) {}

/-- Whatever the state before a unit, the one after it tells what the unit was. -/
theorem baseLayer_observe (b : AvcBoundary) (h : NalHeader) :
    (b.observe h).2.baseLayer = !h.avcType.isSliceExtension := by
  rw [observe]
  by_cases haud : h.avcType = .aud
  · rw [haud]
    rfl
  · rcases b.baseLayer <;> rcases h.avcType.isSliceExtension <;> simp [haud]

/-- **The layer flag is down exactly behind a slice of an enhancement layer.** -/
theorem baseLayer_after (headers : List NalHeader) :
    (after headers).baseLayer = false ↔
      ∃ h ∈ headers.getLast?, h.avcType.isSliceExtension = true := by
  rcases List.eq_nil_or_concat headers with rfl | ⟨earlier, last, rfl⟩
  · simp [after]
  · rw [after, List.concat_eq_append, List.foldl_append, List.foldl_cons, List.foldl_nil,
      baseLayer_observe, List.getLast?_concat]
    simp

end AvcBoundary

namespace Boundary

variable {α : Type} {b : Boundary} {k : Nat}

def codec : Boundary → VideoCodec
  | avc _ => .h264
  | hevc _ => .h265

@[simp] theorem codec_ofCodec (codec : VideoCodec) : (ofCodec codec).codec = codec := by
  cases codec <;> rfl

@[simp] theorem codec_observe (b : Boundary) (h : NalHeader) : (b.observe h).2.codec = b.codec := by
  cases b <;> rfl

/-- From the second unit on, a boundary follows the rule, whatever its state at the start. -/
theorem observe_observe (b : Boundary) (before h : NalHeader) :
    ((b.observe before).2.observe h).1 = true ↔ h.OpensBehind b.codec before := by
  cases b with
  | avc state =>
    have hafter := state.baseLayer_observe before
    have hstarts : (((avc state).observe before).2.observe h).1 =
        ((state.observe before).2.observe h).1 := rfl
    rw [hstarts, AvcBoundary.observe, hafter, Bool.not_not, codec, NalHeader.OpensBehind]
    split <;> simp_all
  | hevc state =>
    have hstarts : (((hevc state).observe before).2.observe h).1 =
        (h.hevcType == .aud ||
          (h.firstSliceSegment && h.layerId == 0 && !before.hevcType.isParameterSet)) := rfl
    rw [hstarts, codec, NalHeader.OpensBehind]
    simp [and_assoc]

/-- The second unit may open a group.  The later ones open groups as they do without the first. -/
theorem opensGroup_group_succ (b : Boundary) (first second : NalHeader × α)
    (rest : List (NalHeader × α)) (k : Nat) :
    OpensGroup (b.group (first :: second :: rest)) (k + 1) ↔
      OpensGroup ((b.observe first.1).2.group (second :: rest)) k ∧
        (k = 0 → second.1.OpensBehind b.codec first.1) := by
  rw [← observe_observe]
  obtain ⟨h, x⟩ := first
  obtain ⟨h', y⟩ := second
  rw [group_cons, cut_cons, group_cons]
  split
  · rename_i hstarts
    rw [opensGroup_singleton_cons, iff_self_and]
    exact fun _ _ => hstarts
  · rename_i hstarts
    rw [opensGroup_cons_cons]
    constructor
    · rintro ⟨hopens, hne⟩
      exact ⟨hopens, fun hzero => absurd hzero hne⟩
    · rintro ⟨hopens, hrule⟩
      exact ⟨hopens, fun hzero => hstarts (hrule hzero)⟩

theorem group_ne_nil_iff {units : List (NalHeader × α)} : b.group units ≠ [] ↔ units ≠ [] := by
  rcases units with _ | ⟨first, rest⟩ <;> simp [group]

/-- **The first unit opens a group, and each later one that the rule says opens one behind the unit
before it.** -/
theorem opensGroup_iff (units : List (NalHeader × α)) (k : Nat) :
    OpensGroup (b.group units) k ↔
      ∃ h, (units.map Prod.fst)[k]? = some h ∧
        (k = 0 ∨ ∃ before, (units.map Prod.fst)[k - 1]? = some before ∧
          h.OpensBehind b.codec before) := by
  induction k generalizing units b with
  | zero =>
    rw [opensGroup_zero_iff, group_ne_nil_iff]
    rcases units with _ | ⟨first, rest⟩ <;> simp
  | succ k ih =>
    rcases units with _ | ⟨first, _ | ⟨second, rest⟩⟩
    · exact iff_of_false not_opensGroup_nil (by simp)
    · have hgroup : b.group [first] = [[first.2]] := rfl
      rw [hgroup, opensGroup_singleton_cons]
      exact iff_of_false not_opensGroup_nil (by simp)
    · rw [opensGroup_group_succ, ih, codec_observe]
      cases k <;> simp

end Boundary

/-! ### Headers of payloads -/

namespace NalHeader

/-- Behind a unit, a header reads the bytes of a start code as zeros. -/
theorem ofPayload_startCode (codec : VideoCodec) (payload : List UInt8) (c : StartCode)
    (rest : List UInt8) :
    ofPayload codec (payload ++ (c.bytes ++ rest)) = ofPayload codec payload := by
  rcases Nat.lt_or_ge payload.length NalSpan.headerSize with hshort | hlong
  · rw [NalSpan.headerSize] at hshort
    rcases payload with _ | ⟨x, _ | ⟨y, _ | ⟨z, payload⟩⟩⟩
    · -- The one of a short start code stands in byte 2, of which only the top bit counts.
      have hbit : (1 &&& 0x80 : UInt8) = 0 := rfl
      cases codec <;> cases c <;> simp [ofPayload, StartCode.bytes, hbit]
    · cases codec <;> cases c <;> rfl
    · cases codec <;> cases c <;> rfl
    · simp only [List.length_cons] at hshort
      omega
  · exact ofPayload_append (Nat.le_trans (probeLength_le codec) hlong) _

end NalHeader

namespace NalSpan

open StartCodeMatch

variable {data : List UInt8} {u : NalSpan}

/-- **The header of a unit is that of its own payload.** -/
theorem header_of_isCut (codec : VideoCodec) (h : IsCut data u) :
    u.header codec = .ofPayload codec (u.payload data) := by
  cases h with
  | @next i j hi hj hle =>
    set u := (atPattern data i).endAt (codeOffset data j)
    have hbehind : (data.drop (i + 3)).drop (codeOffset data j - (i + 3)) =
        (codeAt data j).bytes ++ data.drop (j + 3) := by
      rw [List.drop_drop, Nat.add_sub_cancel' hle, drop_codeOffset hj]
    calc u.header codec
      _ = .ofPayload codec (data.drop (i + 3)) := Extractor.header_endAt_atPattern codec _
      _ = .ofPayload codec (u.payload data ++ ((codeAt data j).bytes ++ data.drop (j + 3))) := by
        rw [← hbehind, payload_endAt, payloadOffset_atPattern, List.take_append_drop]
      _ = .ofPayload codec (u.payload data) := NalHeader.ofPayload_startCode ..
  | last hi =>
    rw [Extractor.header_endAt_atPattern, payload_endAt, payloadOffset_atPattern,
      List.take_of_length_le (Nat.le_of_eq List.length_drop)]

theorem header_of_mem_nalSpans (codec : VideoCodec) (hu : u ∈ nalSpans data) :
    u.header codec = .ofPayload codec (u.payload data) := by
  rw [nalSpans_eq_spans] at hu
  exact header_of_isCut codec (isCut_of_mem_spans (arePatterns data 0) u hu)

end NalSpan

/-! ### The access units of a stream -/

namespace Extractor

variable {mediaType : MediaType} {codec : VideoCodec} {stamp : Nat → Timestamp} {b : Boundary}
  {data : List UInt8} {time : Timestamp} {units : List AccessUnit}

/-- The headers of the samples are those by which the units were grouped. -/
theorem map_header_accessUnits :
    (accessUnits codec stamp b data).flatten.map (·.header codec) =
      (nalSpans data).map (·.header codec) := by
  rw [map_flatten_accessUnits_spans (fun _ _ => rfl) (fun _ _ => rfl) fun _ _ => rfl]
  refine List.map_congr_left fun u hu => ?_
  rw [Sample.header, payload_sampleOfSpan, NalSpan.header_of_mem_nalSpans codec hu]

theorem map_payload_accessUnits :
    (accessUnits codec stamp b data).flatten.map (fun s => (s.payload, s.startCode)) =
      (nalSpans data).map fun u => (u.payload data, some u.startCode) := by
  rw [map_flatten_accessUnits_spans (fun _ _ => rfl) (fun _ _ => rfl) fun _ _ => rfl]
  refine List.map_congr_left fun u _ => ?_
  rw [payload_sampleOfSpan, sampleOfSpan_eq]

/-- What is given at once is always the access units of the stream. -/
theorem eq_accessUnits_of_extractAll (h : extractAll mediaType data time = .ok units) :
    units =
      accessUnits mediaType.codec (fun _ => time) (.ofCodec mediaType.codec) data := by
  rw [extractAll_eq] at h
  split at h
  · rename_i hshort
    rw [accessUnits_of_nalSpans_nil (nalSpans_of_short hshort)]
    exact (Except.ok.inj h).symm
  · split at h
    · simp at h
    · exact (Except.ok.inj h).symm

/-- **Which units of a stream open an access unit** is a rule on each unit and the one before it.
All samples are there once, in order, none of their access units is empty, and the last of each is
marked, and no other.  The layer flag of an H.264 boundary is down exactly behind a slice of an
enhancement layer. -/
theorem extractAll_opens_iff (h : extractAll mediaType data time = .ok units) :
    let headers := units.flatten.map (·.header mediaType.codec)
    units.flatten.map (fun s => (s.payload, s.startCode)) =
        (nalSpans data).map (fun u => (u.payload data, some u.startCode)) ∧
      (∀ unit ∈ units, unit ≠ [] ∧ IsMarked unit) ∧
      (∀ k, OpensGroup units k ↔
        ∃ h, headers[k]? = some h ∧
          (k = 0 ∨ ∃ before, headers[k - 1]? = some before ∧
            h.OpensBehind mediaType.codec before)) ∧
      ∀ seen : List NalHeader, (AvcBoundary.after seen).baseLayer = false ↔
        ∃ h ∈ seen.getLast?, h.avcType.isSliceExtension = true := by
  intro headers
  obtain rfl := eq_accessUnits_of_extractAll h
  refine ⟨map_payload_accessUnits, ?_, ?_, AvcBoundary.baseLayer_after⟩
  · intro unit hunit
    exact ⟨ne_nil_of_mem_accessUnits unit hunit, isMarked_of_mem_accessUnits unit hunit⟩
  · intro k
    have hheaders : headers = ((nalSpans data).map fun u => (u.header mediaType.codec, u)).map
        Prod.fst := by
      rw [List.map_map]
      exact map_header_accessUnits
    rw [opensGroup_congr map_length_accessUnits, groupedSpans, Boundary.opensGroup_iff,
      Boundary.codec_ofCodec, hheaders]

/-- A stream may begin with a slice of an enhancement layer.  The boundary has seen it, so that the
base layer behind it opens an access unit. -/
theorem extractAll_opens_iff_layers :
    let units : List AccessUnit :=
      [[{ data := .ofList [116, 1], startCode := some .short, marker := true }],
        [{ data := .ofList [101, 2], startCode := some .short, marker := true }]]
    extractAll .h264Svc [0, 0, 1, 116, 1, 0, 0, 1, 101, 2] .zero = .ok units ∧
      OpensGroup units 1 := by
  intro units
  have hunits : extractAll .h264Svc [0, 0, 1, 116, 1, 0, 0, 1, 101, 2] .zero = .ok units := rfl
  obtain ⟨-, -, hopens, -⟩ := extractAll_opens_iff hunits
  refine ⟨hunits, (hopens 1).2 ?_⟩
  exact ⟨_, rfl, .inr ⟨_, rfl, .inr ⟨rfl, rfl⟩⟩⟩

end Extractor
end AnnexB
