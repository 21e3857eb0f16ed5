/-
# Access units are read back as they were written

What is extracted from a stream is the units that it is read as, cut by their own headers
(`Extractor.map_coded_of_extractAll`).  So of separable units one knows what will be extracted
before they are written (`Extractor.extractAll_written`).

The units that an encoder makes are separable whatever start codes they get, if the last one is not
too short (`separable_of_isNalUnit`).  Written as access units that end where the rule of the codec
lets them end, they come back in the same access units (`StreamWriter.extractAll_writeAll`).
-/

import AnnexB.Proofs.Opening
import AnnexB.Proofs.Writing
import Mathlib.Data.List.Infix

namespace AnnexB

open StartCodeMatch NalSpan

/-- The start code and the payload of a sample. -/
def Sample.coded (s : Sample) : Option StartCode × List UInt8 := (s.startCode, s.payload)

namespace Boundary

variable {α β : Type} {b : Boundary}

/-- How long the groups are depends on the headers only. -/
theorem map_length_group {xs : List (NalHeader × α)} {ys : List (NalHeader × β)}
    (h : xs.map Prod.fst = ys.map Prod.fst) :
    (b.group xs).map List.length = (b.group ys).map List.length := by
  have hunits : xs.map (fun x => (x.1, ())) = ys.map fun y => (y.1, ()) := by
    have hpair := congrArg (List.map fun h => (h, ())) h
    rwa [List.map_map, List.map_map] at hpair
  have hxs := group_map (b := b) (fun _ => ()) xs
  have hys := group_map (b := b) (fun _ => ()) ys
  rw [hunits, hys] at hxs
  have hlength := congrArg (List.map List.length) hxs
  simp only [List.map_map, Function.comp_def, List.length_map] at hlength
  exact hlength.symm

/-- Groups of the right units that are as long as the headers say are the groups. -/
theorem group_eq_of_headers {xs : List (NalHeader × α)} (ys : List (NalHeader × β))
    {groups : List (List α)} (hheaders : xs.map Prod.fst = ys.map Prod.fst)
    (hflatten : groups.flatten = xs.map Prod.snd)
    (hlength : groups.map List.length = (b.group ys).map List.length) : b.group xs = groups := by
  refine List.eq_iff_flatten_eq.2 ⟨?_, ?_⟩
  · rw [flatten_group, hflatten]
  · rw [hlength, map_length_group hheaders]

end Boundary

namespace Extractor

variable {mediaType : MediaType} {codec : VideoCodec} {stamp : Nat → Timestamp} {b : Boundary}
  {data : List UInt8} {time : Timestamp} {units : List CodedUnit}

/-- Units cut into access units by their own headers. -/
def groupUnits (codec : VideoCodec) (units : List CodedUnit) : List (List CodedUnit) :=
  (Boundary.ofCodec codec).group (units.map fun u => (NalHeader.ofPayload codec u.2, u))

theorem flatten_groupUnits (codec : VideoCodec) (units : List CodedUnit) :
    (groupUnits codec units).flatten = units := by
  rw [groupUnits, Boundary.flatten_group, List.map_map]
  exact List.map_id _

theorem map_length_groupUnits :
    (groupUnits codec (unitsIn data)).map List.length =
      (groupedSpans codec data).map List.length := by
  refine Boundary.map_length_group ?_
  rw [unitsIn, List.map_map, List.map_map, List.map_map]
  exact List.map_congr_left fun u hu => (header_of_mem_nalSpans codec hu).symm

/-- The access units of a stream are the units that it is read as, cut by their own headers. -/
theorem map_coded_accessUnits :
    (accessUnits codec stamp b data).map (List.map Sample.coded) =
      (groupUnits codec (unitsIn data)).map (List.map (Prod.map some id)) := by
  have hlength := @map_length_accessUnits codec stamp b data
  rw [← map_length_groupUnits] at hlength
  refine List.eq_iff_flatten_eq.2 ⟨?_, ?_⟩
  · rw [← List.map_flatten, ← List.map_flatten, flatten_groupUnits,
      map_flatten_accessUnits_spans (fun _ _ => rfl) (fun _ _ => rfl) fun _ _ => rfl, unitsIn,
      List.map_map]
    refine List.map_congr_left fun u _ => ?_
    rw [Sample.coded, payload_sampleOfSpan, sampleOfSpan_eq]
    rfl
  · simpa [List.map_map, Function.comp_def] using hlength

theorem map_coded_of_extractAll {read : List AccessUnit}
    (h : extractAll mediaType data time = .ok read) :
    read.map (List.map Sample.coded) =
      (groupUnits mediaType.codec (unitsIn data)).map (List.map (Prod.map some id)) := by
  rw [eq_accessUnits_of_extractAll h, map_coded_accessUnits]

theorem map_coded_flatten_of_extractAll {read : List AccessUnit}
    (h : extractAll mediaType data time = .ok read) :
    read.flatten.map Sample.coded = (unitsIn data).map (Prod.map some id) := by
  rw [List.map_flatten, map_coded_of_extractAll h, ← List.map_flatten, flatten_groupUnits]

/-- What is written begins with a start code, so it is extracted from if it is long enough. -/
theorem extractAll_of_written (mediaType : MediaType) (time : Timestamp) (hne : units ≠ [])
    (hlong : minUnitSize ≤ (written units).length) :
    extractAll mediaType (written units) time =
      .ok (accessUnits mediaType.codec (fun _ => time) (.ofCodec mediaType.codec)
        (written units)) := by
  obtain ⟨c, hleading⟩ := exists_leading?_written hne
  rw [extractAll_eq, if_neg (Nat.not_lt.2 hlong), hleading]
  rfl

/-- **From separable units, the same units are extracted,** cut by their own headers. -/
theorem extractAll_written (mediaType : MediaType) (time : Timestamp) (h : Separable units) :
    ∃ read, extractAll mediaType (written units) time = .ok read ∧
      read.map (List.map Sample.coded) =
        (groupUnits mediaType.codec units).map (List.map (Prod.map some id)) ∧
      ∀ unit ∈ read, IsMarked unit := by
  refine ⟨_, extractAll_of_written mediaType time h.ne_nil h.length_written, ?_,
    isMarked_of_mem_accessUnits⟩
  rw [map_coded_accessUnits, unitsIn_written h]

/-- **Units are extracted as they were written exactly if they are separable,** and then behind the
same start codes. -/
theorem extractAll_written_iff (mediaType : MediaType) (time : Timestamp) (hne : units ≠ []) :
    ∃ read, extractAll mediaType (written units) time = .ok read ∧
      (read.flatten.map Sample.payload = units.map Prod.snd ↔ Separable units) ∧
      (Separable units → read.flatten.map Sample.coded = units.map (Prod.map some id)) := by
  rcases Nat.lt_or_ge (written units).length minUnitSize with hshort | hlong
  · have hnot : ¬ Separable units := fun h => Nat.not_lt.2 h.length_written hshort
    have hnone : [] ≠ units.map Prod.snd := fun hnil => hne (List.map_eq_nil_iff.1 hnil.symm)
    refine ⟨[], by rw [extractAll_eq, if_pos hshort], ?_, fun h => absurd h hnot⟩
    exact ⟨fun h => absurd h hnone, fun h => absurd h hnot⟩
  · have hread := extractAll_of_written mediaType time hne hlong
    have hcoded := map_coded_flatten_of_extractAll hread
    have hpayloads := congrArg (List.map Prod.snd) hcoded
    rw [List.map_map, List.map_map] at hpayloads
    refine ⟨_, hread, ?_, fun h => by rw [hcoded, unitsIn_written h]⟩
    constructor
    · exact fun h => separable_of_reread hne hlong (hpayloads.symm.trans h)
    · exact fun h => hpayloads.trans (congrArg (List.map Prod.snd) (unitsIn_written h))

end Extractor

/-! ### Units of an encoder -/

/-- A NAL unit as encoders make them. -/
structure IsNalUnit (payload : List UInt8) : Prop where
  ne_nil : payload ≠ []
  no_pattern : ¬ [0, 0, 1] <:+: payload
  last_ne_zero : payload.getLast? ≠ some 0

namespace IsNalUnit

variable {payload : List UInt8}

instance : Decidable (IsNalUnit payload) :=
  decidable_of_iff (payload ≠ [] ∧ ¬ [0, 0, 1] <:+: payload ∧ payload.getLast? ≠ some 0)
    ⟨fun ⟨hne, hpattern, hlast⟩ => ⟨hne, hpattern, hlast⟩,
      fun h => ⟨h.ne_nil, h.no_pattern, h.last_ne_zero⟩⟩

theorem hasPattern_drop (h : IsNalUnit payload) (needed k : Nat) :
    hasPattern needed (payload.drop k) = false := by
  rw [← Bool.not_eq_true]
  intro hp
  have htake : (payload.drop k).take 3 = [0, 0, 1] :=
    take_three_drop_iff.2 ⟨(hasPattern_drop_iff.1 hp).1, (hasPattern_drop_iff.1 hp).2.1,
      (hasPattern_drop_iff.1 hp).2.2.1⟩
  refine h.no_pattern ?_
  rw [← htake]
  exact (List.take_prefix ..).isInfix.trans (List.drop_suffix ..).isInfix

end IsNalUnit

theorem separable_of_isNalUnit {units : List CodedUnit} (hne : units ≠ [])
    (hvalid : ∀ u ∈ units, IsNalUnit u.2)
    (hlast : ∀ u ∈ units.getLast?, minUnitSize ≤ u.1.size + u.2.length) : Separable units := by
  induction units with
  | nil => exact absurd rfl hne
  | cons u rest ih =>
    have hu := hvalid u (List.mem_cons_self ..)
    rcases rest with _ | ⟨v, rest⟩
    · exact .last (hlast u rfl) (hu.hasPattern_drop 1)
    · refine .cons (hu.hasPattern_drop 0) (fun _ => hu.last_ne_zero) (ih (by simp) ?_ ?_)
      · exact fun w hw => hvalid w (List.mem_cons_of_mem _ hw)
      · exact hlast

namespace StreamWriter

/-- What is written of an access unit without delimiter is its samples. -/
theorem map_snd_unitsOf (codec : VideoCodec) (unit : AccessUnit) :
    (unitsOf codec false unit).map Prod.snd = unit.map Sample.payload := by
  rcases unit with _ | ⟨s, rest⟩
  · rfl
  · simp [unitsOf]

theorem map_snd_flatMap_unitsOf (codec : VideoCodec) (units : List AccessUnit) :
    (units.flatMap (unitsOf codec false)).map Prod.snd = units.flatten.map Sample.payload := by
  rw [List.map_flatMap, List.map_flatten, List.flatMap_def]
  exact congrArg List.flatten (List.map_congr_left fun unit _ => map_snd_unitsOf codec unit)

/-- What is written of access units that end where the rule of the codec lets them end is cut into
the same access units. -/
theorem groupUnits_flatMap_unitsOf {codec : VideoCodec} {units : List AccessUnit}
    (hgroup : (Boundary.ofCodec codec).group (units.flatten.map fun s => (s.header codec, s)) =
      units) :
    Extractor.groupUnits codec (units.flatMap (unitsOf codec false)) =
      units.map (unitsOf codec false) := by
  have hpayloads := congrArg (List.map (NalHeader.ofPayload codec))
    (map_snd_flatMap_unitsOf codec units)
  rw [List.map_map, List.map_map] at hpayloads
  refine Boundary.group_eq_of_headers (units.flatten.map fun s => (s.header codec, s)) ?_ ?_ ?_
  · rw [List.map_map, List.map_map]
    exact hpayloads
  · rw [List.map_map, ← List.flatMap_def]
    exact (List.map_id _).symm
  · rw [hgroup, List.map_map]
    refine List.map_congr_left fun unit _ => ?_
    have hlength := congrArg List.length (map_snd_unitsOf codec unit)
    rwa [List.length_map, List.length_map] at hlength

/-- **Access units are read back as they were written:** the same access units with the same
payloads, behind the start codes that were written, the last sample of each marked, and no other.
Their units are those of an encoder, the last one not too short to be kept, and they end where the
rule of the codec lets access units end. -/
theorem extractAll_writeAll {mediaType : MediaType} {units : List AccessUnit} (time : Timestamp)
    (hne : units ≠ []) (hvalid : ∀ s ∈ units.flatten, IsNalUnit s.payload)
    (hlast : ∀ u ∈ (units.flatMap (unitsOf mediaType.codec false)).getLast?,
      5 ≤ u.1.size + u.2.length)
    (hgroup : (Boundary.ofCodec mediaType.codec).group
      (units.flatten.map fun s => (s.header mediaType.codec, s)) = units) :
    ∃ w out read,
      (ofChannel (.ofStorage (MemoryStore.ofList [])) mediaType.codec).writeAll units =
        (.ok (), w) ∧
      w.channel.contents = some out ∧
      out = written (units.flatMap (unitsOf mediaType.codec false)) ∧
      Extractor.extractAll mediaType out time = .ok read ∧
      read.map (List.map Sample.payload) = units.map (List.map Sample.payload) ∧
      read.map (List.map Sample.startCode) =
        units.map (fun unit => (unitsOf mediaType.codec false unit).map fun u => some u.1) ∧
      ∀ unit ∈ read, Extractor.IsMarked unit := by
  have hunits : ∀ unit ∈ units, unit ≠ [] := by
    rw [← hgroup]
    exact Boundary.ne_nil_of_mem_group _
  have hsnd := map_snd_flatMap_unitsOf mediaType.codec units
  have hseparable : Separable (units.flatMap (unitsOf mediaType.codec false)) := by
    refine separable_of_isNalUnit ?_ (fun u hu => ?_) hlast
    · intro hnil
      rw [hnil, List.map_nil] at hsnd
      obtain ⟨unit, hunit⟩ := List.exists_mem_of_ne_nil units hne
      exact hunits unit hunit
        (List.flatten_eq_nil_iff.1 (List.map_eq_nil_iff.1 hsnd.symm) unit hunit)
    · have hpayload : u.2 ∈ units.flatten.map Sample.payload := hsnd ▸ List.mem_map_of_mem hu
      obtain ⟨s, hs, hpayload⟩ := List.mem_map.1 hpayload
      exact hpayload ▸ hvalid s hs
  obtain ⟨read, hread, hcoded, hmarked⟩ :=
    Extractor.extractAll_written mediaType time hseparable
  rw [groupUnits_flatMap_unitsOf hgroup] at hcoded
  have hpayloads := congrArg (List.map (List.map Prod.snd)) hcoded
  have hcodes := congrArg (List.map (List.map Prod.fst)) hcoded
  simp only [List.map_map, Function.comp_def, Sample.coded, Prod.map_fst, Prod.map_snd, id_eq]
    at hpayloads hcodes
  refine ⟨_, _, read, @writeAll_inserting mediaType.codec false [] 0 units hunits, rfl,
    List.nil_append _, hread, ?_, hcodes, hmarked⟩
  exact hpayloads.trans (List.map_congr_left fun unit _ => map_snd_unitsOf _ unit)

/-- Start codes that are given, short and long, and start codes that are not.  One sample has
another start code in its data than the one it gets.  The second access unit begins where the base
layer comes back. -/
theorem extractAll_writeAll_layers :
    let units : List AccessUnit :=
      [[{ data := .ofList [9, 240] },
        { data := .ofList [0, 0, 0, 1, 101, 136], startCode := some .short,
          containsStartCode := true },
        { data := .ofList [116, 1] }],
        [{ data := .ofList [65, 154], startCode := some .long }]]
    (∀ s ∈ units.flatten, IsNalUnit s.payload) ∧
      (Boundary.ofCodec .h264).group (units.flatten.map fun s => (s.header .h264, s)) = units ∧
      ∃ w out read,
        (ofChannel (.ofStorage (MemoryStore.ofList [])) .h264).writeAll units = (.ok (), w) ∧
        w.channel.contents = some out ∧
        out = written (units.flatMap (unitsOf .h264 false)) ∧
        Extractor.extractAll .h264Svc out .zero = .ok read ∧
        read.map (List.map Sample.payload) = units.map (List.map Sample.payload) ∧
        read.map (List.map Sample.startCode) =
          units.map (fun unit => (unitsOf .h264 false unit).map fun u => some u.1) ∧
        ∀ unit ∈ read, Extractor.IsMarked unit := by
  intro units
  have hvalid : ∀ s ∈ units.flatten, IsNalUnit s.payload := by decide
  have hgroup : (Boundary.ofCodec .h264).group (units.flatten.map fun s => (s.header .h264, s)) =
      units := rfl
  exact ⟨hvalid, hgroup,
    @extractAll_writeAll .h264Svc units .zero (by decide) hvalid (by decide) hgroup⟩

end StreamWriter

end AnnexB
