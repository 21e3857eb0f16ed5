/-
# Access units written with delimiters and read again

The access units of a stream, written with delimiters, come back as `reread` says
(`StreamWriter.writeAll_delimited`).  What that is depends on the codec.

| codec | behind a delimiter |
| --- | --- |
| H.264 | no other unit opens an access unit |
| H.265 | the first slice of a base-layer picture opens one, and the delimiter stands alone |

So for H.264 the access units stay as they were, and delimiters are inserted once
(`StreamWriter.extractAll_delimited`).  For H.265 that holds exactly of streams in which no access
unit without a delimiter begins with the first slice of a base-layer picture
(`StreamWriter.extractAll_delimited_iff`).  A picture on its own gets another delimiter each time
that it is written (`StreamWriter.extractAll_delimited_iff_alone`).
-/

import AnnexB.Proofs.Delimiters

namespace AnnexB

open NalHeader

/-- The payload of a sample behind its start code. -/
def Sample.codedUnit (s : Sample) : CodedUnit := (s.startCode.getD .long, s.payload)

/-- Access units that can be written and read again: none is empty or goes on where it should end,
and their units are separable. -/
structure AreReadable (codec : VideoCodec) (groups : List (List CodedUnit)) : Prop where
  ne_nil : ∀ unit ∈ groups, unit ≠ []
  isChain : ∀ unit ∈ groups, unit.IsChain fun before u =>
    ¬ (ofPayload codec u.2).OpensBehind codec (ofPayload codec before.2)
  separable : Separable groups.flatten

namespace Extractor

variable {mediaType : MediaType} {data : List UInt8} {time : Timestamp} {units : List AccessUnit}

theorem startCode_of_extractAll (h : extractAll mediaType data time = .ok units) :
    ∀ s ∈ units.flatten, s.startCode.isSome := by
  rw [eq_accessUnits_of_extractAll h]
  exact StreamWriter.startCode_of_mem_accessUnits

theorem map_some_codedUnit_of_extractAll (h : extractAll mediaType data time = .ok units) :
    ∀ unit ∈ units, (unit.map Sample.codedUnit).map (Prod.map some id) = unit.map Sample.coded := by
  intro unit hunit
  rw [List.map_map]
  refine List.map_congr_left fun s hs => ?_
  obtain ⟨c, hc⟩ := Option.isSome_iff_exists.1
    (startCode_of_extractAll h s (List.mem_flatten_of_mem hunit hs))
  rw [Function.comp_apply, Sample.codedUnit, Sample.coded, hc]
  rfl

theorem map_codedUnit_of_extractAll (h : extractAll mediaType data time = .ok units) :
    units.map (List.map Sample.codedUnit) = groupUnits mediaType.codec (unitsIn data) := by
  have hcoded := congrArg (List.map (List.map (Prod.map (Option.getD · StartCode.long) id)))
    (map_coded_of_extractAll h)
  have hid : Prod.map (Option.getD · StartCode.long) id ∘ Prod.map some id =
      (id : CodedUnit → CodedUnit) := rfl
  rw [List.map_map, List.map_map, List.map_comp_map, List.map_comp_map, hid, List.map_id_fun,
    List.map_id] at hcoded
  exact hcoded

/-- The access units of a stream can be read again, if no unit is dropped. -/
theorem areReadable_of_extractAll (h : extractAll mediaType data time = .ok units)
    (hkept : nalSpans data = wholeSpans data) (hne : units ≠ []) :
    AreReadable mediaType.codec (units.map (List.map Sample.codedUnit)) := by
  have hunits := map_codedUnit_of_extractAll h
  rw [hunits]
  refine ⟨Boundary.ne_nil_of_mem_group _, fun unit hunit => ?_, ?_⟩
  · have hrun := Boundary.isChain_of_mem_group _ hunit
    rwa [Boundary.codec_ofCodec] at hrun
  · rw [flatten_groupUnits]
    refine separable_unitsIn hkept fun hnil => hne ?_
    rw [unitsIn, hnil] at hunits
    exact List.map_eq_nil_iff.1 hunits

end Extractor

namespace AreReadable

variable {codec : VideoCodec} {groups : List (List CodedUnit)}

theorem separable_withDelimiter (h : AreReadable codec groups) :
    Separable (groups.flatMap (withDelimiter .long codec)) :=
  @Separable.flatMap_withDelimiter codec [] groups h.ne_nil h.separable

/-- What they are read as can be put behind delimiters again. -/
theorem separable_withDelimiter_reread (h : AreReadable codec groups) :
    Separable ((groups.flatMap (reread .long codec)).flatMap (withDelimiter .long codec)) := by
  refine @Separable.flatMap_withDelimiter codec [] _ (ne_nil_of_mem_flatMap_reread h.ne_nil) ?_
  rw [List.nil_append, flatten_flatMap_reread]
  exact h.separable_withDelimiter

/-- **Written behind delimiters, access units are read as `reread` says.** -/
theorem extractAll_withDelimiter {mediaType : MediaType} (h : AreReadable mediaType.codec groups)
    (time : Timestamp) :
    ∃ again,
      Extractor.extractAll mediaType (written (groups.flatMap (withDelimiter .long mediaType.codec)))
        time = .ok again ∧
      again.map (List.map Sample.codedUnit) = groups.flatMap (reread .long mediaType.codec) := by
  obtain ⟨again, hagain, -⟩ :=
    Extractor.extractAll_written mediaType time h.separable_withDelimiter
  refine ⟨again, hagain, ?_⟩
  rw [Extractor.map_codedUnit_of_extractAll hagain, unitsIn_written h.separable_withDelimiter,
    Extractor.groupUnits_flatMap_withDelimiter h.ne_nil h.isChain]

end AreReadable

namespace StreamWriter

variable {mediaType : MediaType} {codec : VideoCodec} {data : List UInt8} {time : Timestamp}
  {units : List AccessUnit}

/-- A writer over empty storage in memory that inserts delimiters. -/
def delimiting (codec : VideoCodec) : StreamWriter MemoryStore :=
  { ofChannel (.ofStorage (MemoryStore.ofList [])) codec with insertDelimiter := true }

theorem unitsOf_inserting {unit : AccessUnit} (hne : unit ≠ [])
    (h : ∀ s ∈ unit, s.startCode.isSome) :
    unitsOf codec true unit = withDelimiter .long codec (unit.map Sample.codedUnit) := by
  have hcode : ∀ leads, ∀ s ∈ unit,
      (startCodeOf codec leads s, s.payload) = s.codedUnit := by
    intro leads s hs
    rw [Sample.codedUnit, @startCodeOf_of_isSome codec s leads (h s hs)]
    rfl
  obtain ⟨first, rest, rfl⟩ := List.exists_cons_of_ne_nil hne
  have hrest : rest.map (fun s => (startCodeOf codec false s, s.payload)) =
      rest.map Sample.codedUnit :=
    List.map_congr_left fun s hs => hcode false s (List.mem_cons_of_mem _ hs)
  rw [unitsOf, hrest, hcode _ first (List.mem_cons_self ..), withDelimiter]
  have hhas : hasDelimiter codec (((first :: rest).map Sample.codedUnit).map Prod.snd) =
    (first.header codec).isAud := rfl
  rw [hhas]
  cases (first.header codec).isAud <;> rfl

/-- What is written of the access units of a stream, with delimiters. -/
theorem writeAll_inserting_of_extractAll (codec : VideoCodec)
    (h : Extractor.extractAll mediaType data time = .ok units) :
    ∃ w, (delimiting codec).writeAll units = (.ok (), w) ∧
      w.channel.contents =
        some (written ((units.map (List.map Sample.codedUnit)).flatMap
          (withDelimiter .long codec))) := by
  have hfilled : ∀ unit ∈ units, unit ≠ [] := by
    rw [Extractor.eq_accessUnits_of_extractAll h]
    exact Extractor.ne_nil_of_mem_accessUnits
  have hunits : units.flatMap (unitsOf codec true) =
      (units.map (List.map Sample.codedUnit)).flatMap (withDelimiter .long codec) := by
    rw [List.flatMap_map]
    refine List.flatMap_congr fun unit hunit => unitsOf_inserting (hfilled unit hunit) ?_
    exact fun s hs =>
      Extractor.startCode_of_extractAll h s (List.mem_flatten_of_mem hunit hs)
  rw [← hunits]
  exact ⟨_, @writeAll_inserting codec true [] 0 units hfilled, rfl⟩

/-- **Access units of a stream, written with delimiters and read again.**  Each comes back as
`reread` says.  They stay as many, and are written again as they are, exactly if no delimiter stands
alone. -/
theorem writeAll_delimited (hread : Extractor.extractAll mediaType data time = .ok units)
    (hkept : nalSpans data = wholeSpans data) (hne : units ≠ []) (time' : Timestamp) :
    ∃ w out again w' out',
      (delimiting mediaType.codec).writeAll units = (.ok (), w) ∧
      w.channel.contents = some out ∧
      Extractor.extractAll mediaType out time' = .ok again ∧
      again.map (List.map Sample.coded) =
        units.flatMap (fun unit => reread (some .long) mediaType.codec (unit.map Sample.coded)) ∧
      (delimiting mediaType.codec).writeAll again = (.ok (), w') ∧
      w'.channel.contents = some out' ∧
      (again.length = units.length ↔ ∀ unit ∈ units,
        delimiterStandsAlone mediaType.codec (unit.map Sample.payload) = false) ∧
      (out' = out ↔ ∀ unit ∈ units,
        delimiterStandsAlone mediaType.codec (unit.map Sample.payload) = false) := by
  have hreadable := Extractor.areReadable_of_extractAll hread hkept hne
  obtain ⟨w, hw, hout⟩ := writeAll_inserting_of_extractAll mediaType.codec hread
  obtain ⟨again, hagain, hunits⟩ := hreadable.extractAll_withDelimiter time'
  obtain ⟨w', hw', hout'⟩ := writeAll_inserting_of_extractAll mediaType.codec hagain
  rw [hunits] at hout'
  refine ⟨w, _, again, w', _, hw, hout, hagain, ?_, hw', hout', ?_, ?_⟩
  · calc again.map (List.map Sample.coded)
      _ = (again.map (List.map Sample.codedUnit)).map (List.map (Prod.map some id)) := by
        rw [List.map_map]
        exact List.map_congr_left fun unit hunit =>
          (Extractor.map_some_codedUnit_of_extractAll hagain unit hunit).symm
      _ = (units.map (List.map Sample.codedUnit)).flatMap fun unit =>
          reread (some .long) mediaType.codec (unit.map (Prod.map some id)) := by
        rw [hunits, List.map_flatMap]
        exact List.flatMap_congr fun unit _ => map_reread some
      _ = units.flatMap fun unit =>
          reread (some .long) mediaType.codec (unit.map Sample.coded) := by
        rw [List.flatMap_map]
        exact List.flatMap_congr fun unit hunit => congrArg _
          (Extractor.map_some_codedUnit_of_extractAll hread unit hunit)
  · have hlength := congrArg List.length hunits
    rw [List.length_map] at hlength
    rw [hlength, ← List.length_map (List.map Sample.codedUnit), length_flatMap_reread_eq_iff,
      List.forall_mem_map]
    simp only [List.map_map]
    rfl
  · rw [written_inj hreadable.separable_withDelimiter_reread hreadable.separable_withDelimiter,
      flatMap_withDelimiter_reread_eq_iff, List.forall_mem_map]
    simp only [List.map_map]
    rfl

/-- Behind a delimiter, no other unit of H.264 opens an access unit. -/
theorem delimiterStandsAlone_avc (payloads : List (List UInt8)) :
    delimiterStandsAlone .h264 payloads = false := by
  rcases payloads with _ | ⟨payload, rest⟩
  · rfl
  · have hstays : (ofPayload .h264 payload).isAud = true ∨
        ¬ (ofPayload .h264 payload).OpensBehind .h264 (ofPayload .h264 [0x09, 0xF0]) := by
      rw [or_iff_not_imp_left]
      rintro hother (haud | ⟨hlayer, -⟩)
      · exact hother (beq_iff_eq.2 haud)
      · exact absurd hlayer (by decide)
    rw [← continues_eq_true_iff] at hstays
    rw [delimiterStandsAlone, toList_delimiter_avc]
    simpa using hstays.resolve_left

/-- **For H.264, delimiters are inserted once, and leave the access units as they were.**  What was
written with delimiters is read as the same access units, each with a delimiter in front of it if it
had none, and is written again as it is. -/
theorem extractAll_delimited (hcodec : mediaType.codec = .h264) (time' : Timestamp)
    (hread : Extractor.extractAll mediaType data time = .ok units)
    (hkept : nalSpans data = wholeSpans data) (hne : units ≠ []) :
    ∃ w out again w',
      (delimiting .h264).writeAll units = (.ok (), w) ∧
      w.channel.contents = some out ∧
      Extractor.extractAll mediaType out time' = .ok again ∧
      again.map (List.map Sample.coded) =
        units.map (fun unit =>
          if hasDelimiter .h264 (unit.map Sample.payload) then unit.map Sample.coded
          else (some .long, [0x09, 0xF0]) :: unit.map Sample.coded) ∧
      (delimiting .h264).writeAll again = (.ok (), w') ∧
      w'.channel.contents = some out := by
  obtain ⟨w, out, again, w', out', hw, hout, hagain, hcoded, hw', hout', -, heq⟩ :=
    writeAll_delimited hread hkept hne time'
  rw [hcodec] at hw hcoded hw' heq
  obtain rfl : out' = out := heq.2 fun unit _ => delimiterStandsAlone_avc _
  refine ⟨w, out', again, w', hw, hout, hagain, hcoded.trans ?_, hw', hout'⟩
  rw [List.map_eq_flatMap]
  refine List.flatMap_congr fun unit _ => ?_
  rw [reread_of_not_standsAlone (delimiterStandsAlone_avc _), withDelimiter, toList_delimiter_avc,
    List.map_map]
  rfl

/-- The first access unit is a slice of an enhancement layer, with a zero behind it that stays where
it is.  The last one has a delimiter. -/
theorem extractAll_delimited_layers :
    let data : List UInt8 :=
      [0, 0, 1, 116, 1, 0, 0, 0, 0, 1, 101, 136, 0, 0, 1, 9, 16, 0, 0, 1, 65, 154]
    ∃ units, MediaType.h264Svc.codec = .h264 ∧
      Extractor.extractAll .h264Svc data .zero = .ok units ∧
      nalSpans data = wholeSpans data ∧ units ≠ [] ∧
      ∃ w out again w',
        (delimiting .h264).writeAll units = (.ok (), w) ∧
        w.channel.contents = some out ∧
        Extractor.extractAll .h264Svc out .zero = .ok again ∧
        again.map (List.map Sample.coded) =
          [[(some .long, [0x09, 0xF0]), (some .short, [116, 1, 0])],
            [(some .long, [0x09, 0xF0]), (some .long, [101, 136])],
            [(some .short, [9, 16]), (some .short, [65, 154])]] ∧
        (delimiting .h264).writeAll again = (.ok (), w') ∧
        w'.channel.contents = some out := by
  intro data
  let units : List AccessUnit :=
    [[{ data := .ofList [116, 1, 0], startCode := some .short, marker := true }],
      [{ data := .ofList [101, 136], startCode := some .long, marker := true }],
      [{ data := .ofList [9, 16], startCode := some .short },
        { data := .ofList [65, 154], startCode := some .short, marker := true }]]
  have hread : Extractor.extractAll .h264Svc
      [0, 0, 1, 116, 1, 0, 0, 0, 0, 1, 101, 136, 0, 0, 1, 9, 16, 0, 0, 1, 65, 154] .zero =
    .ok units := rfl
  have hkept : nalSpans data = wholeSpans data := rfl
  have hne : units ≠ [] := List.cons_ne_nil _ _
  exact ⟨units, rfl, hread, hkept, hne, extractAll_delimited rfl .zero hread hkept hne⟩

/-- A delimiter stands alone in front of the first slice of a base-layer picture. -/
theorem delimiterStandsAlone_hevc_eq_false_iff {unit : AccessUnit} :
    delimiterStandsAlone .h265 (unit.map Sample.payload) = false ↔
      ∀ s ∈ unit.head?, (s.header .h265).StartsPicture → (s.header .h265).isAud = true := by
  rcases unit with _ | ⟨first, rest⟩
  · simp [delimiterStandsAlone]
  · have hstays : (first.header .h265).OpensBehind .h265 (ofPayload .h265 [0x46, 0x01, 0x50]) ↔
        (first.header .h265).isAud = true ∨ (first.header .h265).StartsPicture := by
      constructor
      · rintro (haud | ⟨hslice, hlayer, -⟩)
        · exact .inl (beq_iff_eq.2 haud)
        · exact .inr ⟨hslice, hlayer⟩
      · rintro (haud | ⟨hslice, hlayer⟩)
        · exact .inl (beq_iff_eq.1 haud)
        · exact .inr ⟨hslice, hlayer, rfl⟩
    have hhead : delimiterStandsAlone .h265 ((first :: rest).map Sample.payload) =
        (!(first.header .h265).isAud && !continues .h265 (ofPayload .h265 [0x46, 0x01, 0x50])
          (first.header .h265)) := by
      rw [delimiterStandsAlone, toList_delimiter_hevc]
      rfl
    rw [hhead, List.head?_cons, Bool.and_eq_false_iff, Bool.not_eq_false', Bool.not_eq_false',
      continues_eq_true_iff, hstays]
    simp only [Option.mem_some_iff, forall_eq']
    tauto

/-- **For H.265, delimiters are inserted once exactly if no delimiter is put in front of the first
slice of a base-layer picture.**  Otherwise that picture is left without delimiter again, and the
access units are more than they were. -/
theorem extractAll_delimited_iff (time' : Timestamp)
    (hread : Extractor.extractAll .h265 data time = .ok units)
    (hkept : nalSpans data = wholeSpans data) (hne : units ≠ []) :
    ∃ w out again w' out',
      (delimiting .h265).writeAll units = (.ok (), w) ∧
      w.channel.contents = some out ∧
      Extractor.extractAll .h265 out time' = .ok again ∧
      again.map (List.map Sample.coded) =
        units.flatMap (fun unit => reread (some .long) .h265 (unit.map Sample.coded)) ∧
      (delimiting .h265).writeAll again = (.ok (), w') ∧
      w'.channel.contents = some out' ∧
      (again.length = units.length ↔ ∀ unit ∈ units, ∀ s ∈ unit.head?,
        (s.header .h265).StartsPicture → (s.header .h265).isAud = true) ∧
      (out' = out ↔ ∀ unit ∈ units, ∀ s ∈ unit.head?,
        (s.header .h265).StartsPicture → (s.header .h265).isAud = true) := by
  simp only [← delimiterStandsAlone_hevc_eq_false_iff]
  exact writeAll_delimited hread hkept hne time'

/-- A picture without delimiter gets one that is an access unit of its own, and gets another one
when it is written again. -/
theorem extractAll_delimited_iff_alone :
    let data : List UInt8 := [0, 0, 0, 1, 2, 1, 208, 34]
    ∃ units, Extractor.extractAll .h265 data .zero = .ok units ∧
      nalSpans data = wholeSpans data ∧ units ≠ [] ∧ units.length = 1 ∧
      ∃ w out again w' out',
        (delimiting .h265).writeAll units = (.ok (), w) ∧
        w.channel.contents = some out ∧
        Extractor.extractAll .h265 out .zero = .ok again ∧
        again.map (List.map Sample.coded) =
          [[(some .long, [0x46, 0x01, 0x50])], [(some .long, [2, 1, 208, 34])]] ∧
        (delimiting .h265).writeAll again = (.ok (), w') ∧
        w'.channel.contents = some out' ∧ out' ≠ out := by
  intro data
  let slice : Sample :=
    { data := .ofList [2, 1, 208, 34], startCode := some .long, marker := true,
      decodingOrder := some 0 }
  have hread : Extractor.extractAll .h265 data .zero = .ok [[slice]] := rfl
  have hkept : nalSpans data = wholeSpans data := rfl
  have hbare : ¬ ∀ unit ∈ [[slice]], ∀ s ∈ unit.head?,
      (s.header .h265).StartsPicture → (s.header .h265).isAud = true := by decide
  have halone : delimiterStandsAlone .h265 [[2, 1, 208, 34]] = true := by
    rw [delimiterStandsAlone, toList_delimiter_hevc]
    rfl
  obtain ⟨w, out, again, w', out', hw, hout, hagain, hcoded, hw', hout', -, heq⟩ :=
    extractAll_delimited_iff .zero hread hkept (List.cons_ne_nil _ _)
  refine ⟨[[slice]], hread, hkept, List.cons_ne_nil _ _, rfl, w, out, again, w', out', hw, hout,
    hagain, hcoded.trans ?_, hw', hout', mt heq.1 hbare⟩
  rw [List.flatMap_singleton, ← toList_delimiter_hevc]
  exact reread_of_standsAlone halone

end StreamWriter

end AnnexB
