/-
# A stream in chunks gives what it gives at once

Whoever follows the answers of an extractor passes on the chunks of a stream as they are asked for.
Up to the next answer, that changes nothing: some chunks later, the extractor answers as it would
with the whole rest of the stream before it (`follow_settles`).

So the chunks play no part in what is given out (`follow_of_drains`), which is what the stream gives
at once (`drive_eq_extractAll`).
-/

import AnnexB.AccessUnit.Drive
import AnnexB.Proofs.Drain

namespace AnnexB

open StartCodeMatch

/-- The samples that some answers give out. -/
def emitted (steps : List DriveStep) : List Sample :=
  steps.filterMap fun step =>
    match step.answer with
    | .ok extraction => extraction.sample
    | .error _ => none

/-- The answer at which following stops. -/
def finalAnswer (steps : List DriveStep) : Option (Except Error Extraction) :=
  steps.getLast?.map DriveStep.answer

theorem emitted_cons (fed : Nat) (sample : Option Sample) (status : ExtractStatus)
    (steps : List DriveStep) :
    emitted (⟨fed, .ok ⟨sample, status⟩⟩ :: steps) = sample.toList ++ emitted steps := by
  cases sample <;> rfl

theorem finalAnswer_cons (step : DriveStep) {steps : List DriveStep}
    {answer : Except Error Extraction} (h : finalAnswer steps = some answer) :
    finalAnswer (step :: steps) = some answer := by
  rcases steps with _ | ⟨next, steps⟩
  · simp [finalAnswer] at h
  · rwa [finalAnswer, List.getLast?_cons_cons]

namespace Extractor

variable {e e' : Extractor} {buffer : List UInt8} {chunks : List (List UInt8)}

/-- Some chunks later, the extractor answers as it would with the whole rest of the stream. -/
theorem follow_settles (e : Extractor) (buffer : List UInt8) (fed : Nat)
    (chunks : List (List UInt8)) :
    ∃ taken left fed', chunks = taken ++ left ∧
      e.extract (buffer ++ taken.flatten) (if left.isEmpty then .complete else .growing) =
        e.extract (buffer ++ chunks.flatten) .complete ∧
      ∀ calls, follow e buffer fed chunks (taken.length + calls) =
        follow e (buffer ++ taken.flatten) fed' left calls := by
  induction chunks generalizing buffer fed with
  | nil => exact ⟨[], [], fed, rfl, rfl, fun calls => by simp⟩
  | cons chunk rest ih =>
    rcases e.extract_growing buffer .complete (chunk :: rest).flatten with hmore | hfinal
    · obtain ⟨taken, left, fed', hchunks, hanswer, hfollow⟩ :=
        ih (buffer ++ chunk) (fed + chunk.length)
      refine ⟨chunk :: taken, left, fed', by rw [hchunks, List.cons_append], ?_, fun calls => ?_⟩
      · rw [List.flatten_cons, List.flatten_cons, ← List.append_assoc, ← List.append_assoc, hanswer]
      · rw [List.length_cons, List.flatten_cons, ← List.append_assoc, ← hfollow,
          show taken.length + 1 + calls = taken.length + calls + 1 by omega, follow]
        simp only [List.isEmpty_cons, Bool.false_eq_true, if_false, hmore]
    · exact ⟨[], chunk :: rest, fed, rfl, by simpa using hfinal, fun calls => by simp⟩

/-- **Chunks play no part:** an extractor gives what its calls on the whole rest of the stream
give. -/
theorem follow_of_drains {samples : List Sample}
    (h : Drains e (buffer ++ chunks.flatten) samples e') (fed : Nat) {calls : Nat}
    (hcalls : chunks.length + (buffer ++ chunks.flatten).length < calls) :
    ∃ sample, emitted (follow e buffer fed chunks calls).1 = samples ∧
      finalAnswer (follow e buffer fed chunks calls).1 = some (.ok ⟨sample, .endOfStream⟩) ∧
      (follow e buffer fed chunks calls).2 = e' := by
  generalize hdata : buffer ++ chunks.flatten = data at h hcalls
  induction h generalizing buffer fed chunks calls with
  | @stop e e' data sample answer =>
    obtain ⟨taken, left, fed', hchunks, hanswer, hfollow⟩ := follow_settles e buffer fed chunks
    rw [hdata, answer] at hanswer
    have hlength := congrArg List.length hchunks
    rw [List.length_append] at hlength
    obtain ⟨k, rfl⟩ : ∃ k, calls = taken.length + (k + 1) := ⟨calls - taken.length - 1, by omega⟩
    rw [hfollow, follow, hanswer]
    refine ⟨sample, ?_, rfl, rfl⟩
    rw [emitted_cons]
    exact List.append_nil _
  | @consume e e₁ e' data sample n samples answer later ih =>
    obtain ⟨taken, left, fed', hchunks, hanswer, hfollow⟩ := follow_settles e buffer fed chunks
    rw [hdata, answer] at hanswer
    have hlength := congrArg List.length hchunks
    rw [List.length_append] at hlength
    obtain ⟨k, rfl⟩ : ∃ k, calls = taken.length + (k + 1) := ⟨calls - taken.length - 1, by omega⟩
    obtain ⟨hthree, hn⟩ := bounds_of_extract hanswer
    have hrest : (buffer ++ taken.flatten).drop n ++ left.flatten = data.drop n := by
      rw [← hdata, hchunks, List.flatten_append, ← List.append_assoc,
        List.drop_append_of_le_length hn]
    have hle := (bounds_of_extract answer).2
    have hk : left.length + (data.drop n).length < k := by
      rw [List.length_drop]
      omega
    obtain ⟨last, hemitted, hfinal, hstate⟩ := ih fed' hrest hk
    rw [hfollow, follow, hanswer]
    exact ⟨last, by rw [emitted_cons, hemitted], finalAnswer_cons _ hfinal, hstate⟩

/-- What of a sample is in its stream: the payload, the marker and the start code. -/
def content (s : Sample) : List UInt8 × Bool × Option StartCode :=
  (s.payload, s.marker, s.startCode)

/-- The number of sample `k` in decoding order: none for H.264, the first number plus `k` modulo
2^16 for H.265. -/
def decodingOrderAt (codec : VideoCodec) (first : UInt16) (k : Nat) : Option UInt16 :=
  match codec with
  | .h264 => none
  | .h265 => some (UInt16.ofNat (first.toNat + k))

theorem number_withNumber_add (codec : VideoCodec) (first : UInt16) (k : Nat) :
    (Boundary.withNumber codec first).number.map (· + UInt16.ofNat k) =
      decodingOrderAt codec first k := by
  rw [Boundary.number_withNumber]
  cases codec
  · rfl
  · rw [decodingOrderAt, UInt16.ofNat_add, UInt16.ofNat_toNat]
    rfl

theorem decodingOrderAt_ofNat (codec : VideoCodec) (first k : Nat) :
    decodingOrderAt codec (UInt16.ofNat first) k = decodingOrderAt codec 0 (first + k) := by
  cases codec
  · rfl
  · rw [decodingOrderAt, decodingOrderAt, UInt16.ofNat_add, UInt16.ofNat_toNat, ← UInt16.ofNat_add,
      UInt16.toNat_zero, Nat.zero_add]

/-- Calls on a whole stream that is valid give what it gives at once. -/
theorem drains_extractAll (mediaType : MediaType) (mode : TimestampMode) (time : Timestamp)
    (first : UInt16) (data : List UInt8)
    (hvalid : data.length < minUnitSize ∨ StartCode.leading? data ≠ none) :
    ∃ units samples e', extractAll mediaType data time = .ok units ∧
      Drains (withBoundary mediaType (.withNumber mediaType.codec first) mode) data samples e' ∧
      samples.map content = units.flatten.map content ∧
      samples.map Sample.decodingOrder =
        (List.range units.flatten.length).map (decodingOrderAt mediaType.codec first) ∧
      e'.unitCount = units.length := by
  obtain ⟨e', hdrains, hcount⟩ := drains_of_valid mediaType mode first hvalid
  have hcontent := @map_flatten_accessUnits _ content (fun _ _ => rfl) (fun _ _ => rfl)
    mediaType.codec mode.stamp (fun _ => time) (.withNumber mediaType.codec first)
    (.ofCodec mediaType.codec) data
  have hlength := congrArg List.length hcontent
  rw [List.length_map, List.length_map] at hlength
  refine ⟨_, _, e', extractAll_of_valid mediaType time hvalid, hdrains, hcontent, ?_, ?_⟩
  · rw [← hlength, flatten_accessUnits, map_decodingOrder_numbered, length_numbered]
    exact List.map_congr_left fun k _ => number_withNumber_add ..
  · rw [hcount, length_accessUnits, length_accessUnits]

theorem drive_of_drains {samples : List Sample} (h : Drains e chunks.flatten samples e') :
    ∃ sample, emitted (e.drive chunks).1 = samples ∧
      finalAnswer (e.drive chunks).1 = some (.ok ⟨sample, .endOfStream⟩) ∧
      (e.drive chunks).2 = e' :=
  follow_of_drains (by rwa [List.nil_append]) 0 (by rw [List.nil_append]; omega)

/-- An invalid stream gives one answer, and the extractor stays as it was. -/
theorem drive_eq_of_invalid (hlong : minUnitSize ≤ chunks.flatten.length)
    (hc : StartCode.leading? chunks.flatten = none) :
    ∃ fed, e.drive chunks = ([⟨fed, .error .noLeadingStartCode⟩], e) := by
  obtain ⟨taken, left, fed', hchunks, hanswer, hfollow⟩ := follow_settles e [] 0 chunks
  have hlength := congrArg List.length hchunks
  rw [List.length_append] at hlength
  rw [List.nil_append, List.nil_append, extract_of_leading?_none hlong hc] at hanswer
  refine ⟨fed', ?_⟩
  rw [drive, show chunks.length + chunks.flatten.length + 1 =
    taken.length + (left.length + chunks.flatten.length + 1) by omega, hfollow, follow,
    List.nil_append, hanswer]

theorem drive_of_invalid (hlong : minUnitSize ≤ chunks.flatten.length)
    (hc : StartCode.leading? chunks.flatten = none) :
    finalAnswer (e.drive chunks).1 = some (.error .noLeadingStartCode) := by
  obtain ⟨fed, hdrive⟩ := drive_eq_of_invalid (e := e) hlong hc
  rw [hdrive]
  rfl

/-- **A stream in chunks gives what it gives at once.**  Following the answers of a fresh extractor
ends in an invalid stream exactly when the stream at once is one.  Otherwise it gives out the same
samples up to their times, numbered from the first number on, and counts the access units. -/
theorem drive_eq_extractAll (mediaType : MediaType) (mode : TimestampMode) (time : Timestamp)
    (first : UInt16) (chunks : List (List UInt8)) :
    let run := (withBoundary mediaType (.withNumber mediaType.codec first) mode).drive chunks
    let batch := extractAll mediaType chunks.flatten time
    (∀ detail, finalAnswer run.1 = some (.error (.invalidData detail)) ↔
        batch = .error (.invalidData detail)) ∧
      ((∃ detail, batch = .error (.invalidData detail)) ∨ ∃ units sample, batch = .ok units ∧
        finalAnswer run.1 = some (.ok ⟨sample, .endOfStream⟩) ∧
        (emitted run.1).map content = units.flatten.map content ∧
        (emitted run.1).map Sample.decodingOrder =
          (List.range units.flatten.length).map (decodingOrderAt mediaType.codec first) ∧
        run.2.unitCount = units.length) := by
  intro run batch
  by_cases hvalid : chunks.flatten.length < minUnitSize ∨ StartCode.leading? chunks.flatten ≠ none
  · obtain ⟨units, samples, e', hbatch, hdrains, hcontent, horder, hcount⟩ :=
      drains_extractAll mediaType mode time first chunks.flatten hvalid
    obtain ⟨sample, hemitted, hfinal, hstate⟩ := drive_of_drains hdrains
    refine ⟨fun detail => ?_, .inr ⟨units, sample, hbatch, hfinal, ?_, ?_, ?_⟩⟩
    · rw [hfinal, show batch = .ok units from hbatch]
      simp
    · rw [hemitted, hcontent]
    · rw [hemitted, horder]
    · rw [hstate, hcount]
  · obtain ⟨hlong, hnone⟩ := not_or.1 hvalid
    have hc := not_ne_iff.1 hnone
    have hbatch : batch = .error .noLeadingStartCode := by
      rw [show batch = _ from extractAll_eq .., if_neg hlong, if_pos (by rw [hc]; rfl)]
    rw [hbatch, drive_of_invalid (by omega) hc]
    exact ⟨fun detail => by simp, .inl ⟨_, rfl⟩⟩

/-- A start code that comes in two chunks. -/
example : (emitted ((ofMediaType .h264 .untimed).drive [[0, 0], [0, 1, 9], [240]]).1).map content =
    [([9, 240], true, some .long)] := by
  decide

end Extractor
end AnnexB
