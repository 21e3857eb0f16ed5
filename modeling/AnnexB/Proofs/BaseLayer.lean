/-
# Keeping the base layer only

A stream is split into layers, and the samples of its base layer are written again, each behind the
start code that it had.  That is all that is written (`writeAll_splitLayers`), but it need not be
read as the same samples.  Where samples were left out, a payload gets to stand in front of a start
code that was not behind it, and the sample that is last now need not have been last before.  No
pattern comes about by that (`PatternFree.sublist`).  So two things can go wrong, and no other: a
zero at the end of a payload becomes part of a short start code behind it, or the last sample is too
short to be kept (`extractAll_restored`).  The types are those of H.264, but nothing else here hangs
on the codec.
-/

import AnnexB.AccessUnit.Layers
import AnnexB.Proofs.ReadBack
import Mathlib.Data.List.Chain

namespace AnnexB

/-! ### The layers of an access unit -/

theorem AvcNalType.isEnhancement_ofId (id : UInt8) :
    (ofId id).isEnhancement = decide (id ∈ [14, 15, 20, 21]) := by
  have hmem : id ∈ ([14, 15, 20, 21] : List UInt8) ↔ id.toNat ∈ [14, 15, 20, 21] := by
    simp [← UInt8.toNat_inj]
  rw [Bool.eq_iff_iff, decide_eq_true_iff, hmem, ofId]
  split <;> simp_all [isEnhancement, isSliceExtension]

/-- The type field says whether only enhancement layers need a sample. -/
theorem Sample.isEnhancement_eq (s : Sample) :
    s.isEnhancement = decide ((s.header .h264).nalType ∈ [14, 15, 20, 21]) := by
  rw [isEnhancement, header, NalHeader.ofPayload]
  rcases s.payload with _ | ⟨first, rest⟩
  · rfl
  · exact AvcNalType.isEnhancement_ofId _

namespace AccessUnit

/-- The samples of the base layer, in their order. -/
def baseLayer (samples : List Sample) : List Sample :=
  samples.filter fun s => (s.header .h264).nalType ∉ [14, 15, 20, 21]

variable {β : Type} {view : Sample → β}

theorem map_splitLayers (hmarker : ∀ s m, view (s.withMarker m) = view s) (unit : AccessUnit) :
    unit.splitLayers.1.map view = (baseLayer unit).map view := by
  rw [splitLayers, List.partition_eq_filter_filter, Extractor.map_markLast hmarker, baseLayer]
  simp only [Sample.isEnhancement_eq, decide_not]

/-- Up to their marks, the samples of the base parts are those of the base layer. -/
theorem map_flatten_splitLayers (hmarker : ∀ s m, view (s.withMarker m) = view s)
    (units : List AccessUnit) :
    (units.map fun unit => unit.splitLayers.1).flatten.map view =
      (baseLayer units.flatten).map view := by
  rw [baseLayer, List.filter_flatten, List.map_flatten, List.map_flatten, List.map_map, List.map_map]
  exact congrArg List.flatten (List.map_congr_left fun unit _ => map_splitLayers hmarker unit)

end AccessUnit

open AccessUnit

/-! ### Writing the base layer -/

namespace StreamWriter

variable {codec : VideoCodec} {out : List UInt8} {n : Nat} {samples : List Sample}
  {units : List AccessUnit}

/-- **What is written of the base parts** is the samples of the base layer, each behind the start
code that it had. -/
theorem writeAll_splitLayers (h : ∀ s ∈ units.flatten, s.startCode.isSome) :
    ∃ m, (appended codec out n).writeAll (units.map fun unit => unit.splitLayers.1) =
      (.ok (), appended codec (out ++ (baseLayer units.flatten).flatMap restored) m) := by
  set bases := units.map fun unit => unit.splitLayers.1 with hbases
  have hflatten : (bases.filter (· ≠ [])).flatten = bases.flatten := List.flatten_filter_ne_nil
  have hcodes : ∀ s ∈ (bases.filter (· ≠ [])).flatten, s.startCode.isSome := by
    intro s hs
    rw [hflatten] at hs
    have hview : s.startCode.isSome ∈ bases.flatten.map fun s => s.startCode.isSome :=
      List.mem_map_of_mem hs
    rw [hbases, map_flatten_splitLayers fun _ _ => rfl] at hview
    obtain ⟨t, ht, hcode⟩ := List.mem_map.1 hview
    exact hcode ▸ h t (List.mem_of_mem_filter ht)
  have hbytes : bases.flatten.flatMap restored = (baseLayer units.flatten).flatMap restored := by
    rw [List.flatMap_def, map_flatten_splitLayers (fun _ _ => rfl), ← List.flatMap_def]
  have hwrite := @writeAll_appended codec out n (bases.filter (· ≠ []))
    (fun unit hunit => by simpa using (List.mem_filter.1 hunit).2) hcodes
  rw [writeAll_filter_ne_nil, hflatten, hbytes] at hwrite
  exact ⟨_, hwrite⟩

theorem writeAll_splitLayers_of_extractAll {mediaType : MediaType} {data : List UInt8}
    {time : Timestamp} (codec : VideoCodec)
    (h : Extractor.extractAll mediaType data time = .ok units) :
    ∃ w, (ofChannel (.ofStorage (MemoryStore.ofList [])) codec).writeAll
        (units.map fun unit => unit.splitLayers.1) = (.ok (), w) ∧
      w.channel.contents = some ((baseLayer units.flatten).flatMap restored) := by
  have hcodes : ∀ s ∈ units.flatten, s.startCode.isSome := by
    rw [Extractor.eq_accessUnits_of_extractAll h]
    exact startCode_of_mem_accessUnits
  obtain ⟨m, hwrite⟩ := @writeAll_splitLayers codec [] 0 units hcodes
  exact ⟨_, hwrite, rfl⟩

/-! ### Reading the base layer -/

/-- Samples that can be read again behind the start codes that they have. -/
structure Rereadable (samples : List Sample) : Prop where
  /-- No zero comes to stand before a short start code. -/
  apart : samples.IsChain fun s t => t.startCode = some .short → s.payload.getLast? ≠ some 0
  long : ∀ s ∈ samples.getLast?, 5 ≤ (restored s).length

theorem restored_of_coded {s : Sample} {u : CodedUnit} (h : s.coded = Prod.map some id u) :
    restored s = u.1.bytes ++ u.2 := by
  have hcode : s.startCode = some u.1 := congrArg Prod.fst h
  have hpayload : s.payload = u.2 := congrArg Prod.snd h
  rw [restored, hcode, hpayload]
  rfl

theorem flatMap_restored_of_coded {units : List CodedUnit}
    (h : samples.map Sample.coded = units.map (Prod.map some id)) :
    samples.flatMap restored = written units := by
  have hbytes := congrArg (List.flatMap fun c => c.1.elim [] StartCode.bytes ++ c.2) h
  rw [List.flatMap_map, List.flatMap_map] at hbytes
  exact hbytes

/-- Samples of units without patterns can be read again exactly if the units are separable. -/
theorem rereadable_iff_separable {units : List CodedUnit} (hfree : PatternFree units)
    (hne : units ≠ []) (h : samples.map Sample.coded = units.map (Prod.map some id)) :
    Rereadable samples ↔ Separable units := by
  have hchain : (samples.IsChain fun s t => t.startCode = some .short →
      s.payload.getLast? ≠ some 0) ↔
      units.IsChain fun u v => v.1 = .short → u.2.getLast? ≠ some 0 := by
    have hmap := congrArg (List.IsChain fun a b => b.1 = some .short → a.2.getLast? ≠ some 0) h
    rw [List.isChain_map, List.isChain_map] at hmap
    simpa [Sample.coded] using iff_of_eq hmap
  have hlong : (∀ s ∈ samples.getLast?, 5 ≤ (restored s).length) ↔
      ∀ u ∈ units.getLast?, minUnitSize ≤ u.1.size + u.2.length := by
    have hmap := congrArg List.getLast? h
    rw [List.getLast?_map, List.getLast?_map] at hmap
    generalize samples.getLast? = s at hmap ⊢
    generalize units.getLast? = u at hmap ⊢
    rcases s with _ | s <;> rcases u with _ | u
    · simp
    · simp at hmap
    · simp at hmap
    · have hbytes := restored_of_coded (Option.some.inj hmap)
      simp [hbytes, StartCode.length_bytes, minUnitSize]
  rw [hfree.separable_iff hne, ← hchain, ← hlong]
  constructor
  · exact fun hre => ⟨hre.apart, hre.long⟩
  · rintro ⟨hapart, hlong⟩
    exact ⟨hapart, hlong⟩

/-- Samples of units without patterns, written one behind the other, are read as they were exactly
if they can be read again. -/
theorem extractAll_restored {units : List CodedUnit} (mediaType : MediaType) (time : Timestamp)
    (hfree : PatternFree units) (h : samples.map Sample.coded = units.map (Prod.map some id)) :
    ∃ read, Extractor.extractAll mediaType (samples.flatMap restored) time = .ok read ∧
      (read.flatten.map Sample.payload = samples.map Sample.payload ↔ Rereadable samples) ∧
      (Rereadable samples →
        read.flatten.map Sample.startCode = samples.map Sample.startCode) := by
  rcases eq_or_ne units [] with rfl | hne
  · obtain rfl : samples = [] := List.map_eq_nil_iff.1 h
    exact ⟨[], rfl, ⟨fun _ => ⟨.nil, by simp⟩, fun _ => rfl⟩, fun _ => rfl⟩
  · obtain ⟨read, hread, hiff, hcodes⟩ := Extractor.extractAll_written_iff mediaType time hne
    have hseparable := rereadable_iff_separable hfree hne h
    have hpayloads := congrArg (List.map Prod.snd) h
    rw [List.map_map, List.map_map] at hpayloads
    refine ⟨read, by rw [flatMap_restored_of_coded h, hread], ?_, fun hre => ?_⟩
    · rw [hseparable, ← hiff]
      exact Eq.congr_right hpayloads
    · have hsame := congrArg (List.map Prod.fst) ((hcodes (hseparable.1 hre)).trans h.symm)
      rw [List.map_map, List.map_map] at hsame
      exact hsame

/-- The samples of the base layer come from units without patterns. -/
theorem exists_patternFree_baseLayer {mediaType : MediaType} {data : List UInt8} {time : Timestamp}
    (h : Extractor.extractAll mediaType data time = .ok units) :
    ∃ kept, PatternFree kept ∧
      (baseLayer units.flatten).map Sample.coded = kept.map (Prod.map some id) := by
  have hsub : ((baseLayer units.flatten).map Sample.coded).Sublist
      ((unitsIn data).map (Prod.map some id)) := by
    rw [← Extractor.map_coded_flatten_of_extractAll h]
    exact List.filter_sublist.map _
  obtain ⟨kept, hkept, hcoded⟩ := List.sublist_map_iff.1 hsub
  exact ⟨kept, (patternFree_unitsIn data).sublist hkept, hcoded⟩

/-- **The base layer of a stream is written as it was, and read as it was exactly if it can be.**
What is written is the samples of the base layer, each behind its own start code, and samples are
extracted from it.  They are those of the base layer, with the same payloads, exactly if no payload
that ends in a zero comes to stand before a short start code and the last sample has at least five
bytes with its start code.  Then they have the same start codes, too. -/
theorem extractAll_writeAll_splitLayers {mediaType : MediaType} {data : List UInt8}
    {time : Timestamp} (later : Timestamp)
    (h : Extractor.extractAll mediaType data time = .ok units) :
    ∃ w out read,
      (ofChannel (.ofStorage (MemoryStore.ofList [])) mediaType.codec).writeAll
        (units.map fun unit => unit.splitLayers.1) = (.ok (), w) ∧
      w.channel.contents = some out ∧
      out = (baseLayer units.flatten).flatMap restored ∧
      Extractor.extractAll mediaType out later = .ok read ∧
      (read.flatten.map Sample.payload = (baseLayer units.flatten).map Sample.payload ↔
        Rereadable (baseLayer units.flatten)) ∧
      (Rereadable (baseLayer units.flatten) →
        read.flatten.map Sample.startCode = (baseLayer units.flatten).map Sample.startCode) := by
  obtain ⟨w, hwrite, hcontents⟩ := writeAll_splitLayers_of_extractAll mediaType.codec h
  obtain ⟨kept, hfree, hcoded⟩ := exists_patternFree_baseLayer h
  obtain ⟨read, hread, hpayloads, hcodes⟩ := extractAll_restored mediaType later hfree hcoded
  exact ⟨w, _, read, hwrite, hcontents, rfl, hread, hpayloads, hcodes⟩

/-- A prefix unit and a slice of an enhancement layer are left out.  What stood around them can be
read again. -/
theorem extractAll_writeAll_splitLayers_rereadable :
    ∃ units w out read,
      Extractor.extractAll .h264Svc
        [0, 0, 0, 1, 103, 66, 0, 0, 1, 110, 64, 0, 0, 1, 101, 136, 0, 0, 1, 116, 1, 0, 0, 1, 65, 154]
        .zero = .ok units ∧
      (ofChannel (.ofStorage (MemoryStore.ofList [])) .h264).writeAll
        (units.map fun unit => unit.splitLayers.1) = (.ok (), w) ∧
      w.channel.contents = some out ∧
      Extractor.extractAll .h264Svc out .zero = .ok read ∧
      read.flatten.map Sample.payload = [[103, 66], [101, 136], [65, 154]] := by
  have hunits : Extractor.extractAll .h264Svc
      [0, 0, 0, 1, 103, 66, 0, 0, 1, 110, 64, 0, 0, 1, 101, 136, 0, 0, 1, 116, 1, 0, 0, 1, 65, 154]
      .zero = .ok [[{ data := .ofList [103, 66], startCode := some .long },
        { data := .ofList [110, 64], startCode := some .short },
        { data := .ofList [101, 136], startCode := some .short },
        { data := .ofList [116, 1], startCode := some .short, marker := true }],
      [{ data := .ofList [65, 154], startCode := some .short, marker := true }]] := rfl
  obtain ⟨w, out, read, hwrite, hcontents, -, hread, hpayloads, -⟩ :=
    extractAll_writeAll_splitLayers .zero hunits
  refine ⟨_, w, out, read, hunits, hwrite, hcontents, hread, hpayloads.2 ?_⟩
  constructor
  · decide
  · decide

/-- **Payloads of the base layer can be lost.**  In the first stream, a unit of an enhancement layer
stands between a payload that ends in a zero and a short start code, which takes the zero once that
unit is left out.  In the second one, leaving out the last unit makes one of four bytes the last. -/
theorem writeAll_splitLayers_not_reread :
    let RereadAs (data : List UInt8) (before after : List (List UInt8)) : Prop :=
      ∃ units w out read,
        Extractor.extractAll .h264 data .zero = .ok units ∧
        nalSpans data = wholeSpans data ∧
        (ofChannel (.ofStorage (MemoryStore.ofList [])) .h264).writeAll
          (units.map fun unit => unit.splitLayers.1) = (.ok (), w) ∧
        w.channel.contents = some out ∧
        Extractor.extractAll .h264 out .zero = .ok read ∧
        (baseLayer units.flatten).map Sample.payload = before ∧
        read.flatten.map Sample.payload = after
    RereadAs [0, 0, 0, 1, 101, 136, 0, 0, 0, 0, 1, 116, 1, 0, 0, 1, 65, 154]
        [[101, 136, 0], [65, 154]] [[101, 136], [65, 154]] ∧
      RereadAs [0, 0, 0, 1, 9, 240, 0, 0, 1, 65, 0, 0, 1, 116, 1] [[9, 240], [65]] [[9, 240]] := by
  intro RereadAs
  constructor
  · have hunits : Extractor.extractAll .h264
        [0, 0, 0, 1, 101, 136, 0, 0, 0, 0, 1, 116, 1, 0, 0, 1, 65, 154] .zero =
        .ok [[{ data := .ofList [101, 136, 0], startCode := some .long },
            { data := .ofList [116, 1], startCode := some .long, marker := true }],
          [{ data := .ofList [65, 154], startCode := some .short, marker := true }]] := rfl
    have hread : Extractor.extractAll .h264 [0, 0, 0, 1, 101, 136, 0, 0, 0, 1, 65, 154] .zero =
        .ok [[{ data := .ofList [101, 136], startCode := some .long },
          { data := .ofList [65, 154], startCode := some .long, marker := true }]] := rfl
    obtain ⟨w, hwrite, hcontents⟩ := writeAll_splitLayers_of_extractAll .h264 hunits
    exact ⟨_, w, _, _, hunits, rfl, hwrite, hcontents, hread, rfl, rfl⟩
  · have hunits : Extractor.extractAll .h264 [0, 0, 0, 1, 9, 240, 0, 0, 1, 65, 0, 0, 1, 116, 1]
        .zero =
        .ok [[{ data := .ofList [9, 240], startCode := some .long },
          { data := .ofList [65], startCode := some .short },
          { data := .ofList [116, 1], startCode := some .short, marker := true }]] := rfl
    have hread : Extractor.extractAll .h264 [0, 0, 0, 1, 9, 240, 0, 0, 1, 65] .zero =
        .ok [[{ data := .ofList [9, 240], startCode := some .long, marker := true }]] := rfl
    obtain ⟨w, hwrite, hcontents⟩ := writeAll_splitLayers_of_extractAll .h264 hunits
    exact ⟨_, w, _, _, hunits, rfl, hwrite, hcontents, hread, rfl, rfl⟩

end StreamWriter

end AnnexB
