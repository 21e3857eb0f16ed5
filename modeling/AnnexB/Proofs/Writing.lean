/-
# What is extracted can be written back

A writer over storage in memory that was empty appends each NAL unit behind its start code, so that
what it has written is the storage (`appended`), with delimiters or without (`writeAll_inserting`).
The units of a stream tile it, so writing what a stream gives at once gives back the stream, up to a
last unit of one byte that extracting drops (`writeAll_extractAll`).
-/

import AnnexB.Output
import AnnexB.Storage.Memory
import AnnexB.Proofs.Grouping
import AnnexB.Proofs.Written

namespace AnnexB

/-- A write at the end appends. -/
theorem MemoryStore.write_at_end (out bytes : List UInt8) :
    (⟨out.toArray, out.length⟩ : MemoryStore).write bytes =
      ⟨(out ++ bytes).toArray, (out ++ bytes).length⟩ := by
  simp [MemoryStore.write]

namespace StreamWriter

section

variable {σ : Type}

/-- The parameter sets, each behind a long start code. -/
def setUnits (sets : List ByteBuffer) : List CodedUnit :=
  sets.map fun p => (StartCode.long, p.toList)

/-- The writer with its queue empty. -/
def withoutSets (w : StreamWriter σ) : StreamWriter σ := { w with parameterSets := [] }

/-- The access unit counts, if it was written. -/
def counted : Except Error Unit × StreamWriter σ → Except Error Unit × StreamWriter σ
  | (.error e, w) => (.error e, w)
  | (.ok _, w) => (.ok (), { w with unitsWritten := w.unitsWritten + 1 })

/-- What goes in front of the next access unit: the queue, if it is the first one. -/
def aheadUnits (w : StreamWriter σ) : List CodedUnit :=
  if w.unitsWritten = 0 then setUnits w.parameterSets else []

/-- The writer that writes the next access unit has taken out of its queue what goes in front of it. -/
def dequeued (w : StreamWriter σ) : StreamWriter σ :=
  if w.unitsWritten = 0 then w.withoutSets else w

variable [Storage σ]

theorem writeAccessUnit_of_ne_nil (w : StreamWriter σ) {unit : AccessUnit} (hne : unit ≠ []) :
    w.writeAccessUnit unit = counted (w.dequeued.writeUnits
      (w.aheadUnits ++ unitsOf w.codec w.insertDelimiter unit)) := by
  rw [writeAccessUnit, if_neg (by simpa using hne), dequeued, aheadUnits]
  simp only [beq_iff_eq]
  rfl

/-- An access unit is written behind the whole queue, if it is the first one or if the queue is
empty. -/
theorem writeAccessUnit_eq {w : StreamWriter σ}
    (hqueue : w.unitsWritten = 0 ∨ w.parameterSets = []) {unit : AccessUnit} (hne : unit ≠ []) :
    w.writeAccessUnit unit = counted (w.withoutSets.writeUnits
      (setUnits w.parameterSets ++ unitsOf w.codec w.insertDelimiter unit)) := by
  have hahead : w.aheadUnits = setUnits w.parameterSets := by
    rcases hqueue with hfirst | hnone
    · rw [aheadUnits, if_pos hfirst]
    · rw [aheadUnits, hnone]; split <;> rfl
  have htaken : w.dequeued = w.withoutSets := by
    rcases hqueue with hfirst | hnone
    · rw [dequeued, if_pos hfirst]
    · rw [dequeued, withoutSets, ← hnone]; split <;> rfl
  rw [writeAccessUnit_of_ne_nil w hne, hahead, htaken]

/-- Writes access units up to the first that fails. -/
def writeAll (w : StreamWriter σ) : List AccessUnit → Except Error Unit × StreamWriter σ
  | [] => (.ok (), w)
  | unit :: rest =>
    match w.writeAccessUnit unit with
    | (.error e, w) => (.error e, w)
    | (.ok _, w) => writeAll w rest

/-- Access units that are empty are nothing to write. -/
theorem writeAll_filter_ne_nil (w : StreamWriter σ) (units : List AccessUnit) :
    w.writeAll (units.filter (· ≠ [])) = w.writeAll units := by
  induction units generalizing w with
  | nil => rfl
  | cons unit rest ih =>
    rcases unit with _ | ⟨s, unit⟩
    · rw [List.filter_cons_of_neg (by simp), ih]
      rfl
    · rw [List.filter_cons_of_pos (by simp), writeAll, writeAll]
      split <;> simp only [ih]

end

/-- The writer, with or without delimiters in front of access units that have none. -/
def inserting {σ : Type} (w : StreamWriter σ) (insert : Bool) : StreamWriter σ :=
  { w with insertDelimiter := insert }

variable {codec : VideoCodec} {insert : Bool} {out : List UInt8} {n : Nat}

/-- The writer over storage in memory after the bytes `out` and `n` access units. -/
def appended (codec : VideoCodec) (out : List UInt8) (n : Nat) : StreamWriter MemoryStore :=
  { channel := .ofStorage ⟨out.toArray, out.length⟩, codec, unitsWritten := n,
    bytesWritten := out.length }

theorem write_appended (out bytes : List UInt8) :
    (Channel.ofStorage (⟨out.toArray, out.length⟩ : MemoryStore)).write bytes =
      (.ok (), .ofStorage ⟨(out ++ bytes).toArray, (out ++ bytes).length⟩) := by
  rw [Channel.write, ← MemoryStore.write_at_end]
  rfl

theorem writeUnit_appended (c : StartCode) (payload : List UInt8) :
    ((appended codec out n).inserting insert).writeUnit c payload =
      (.ok (), (appended codec (out ++ (c.bytes ++ payload)) n).inserting insert) := by
  have hcount : out.length + c.size + payload.length = (out ++ (c.bytes ++ payload)).length := by
    rw [List.length_append, List.length_append, StartCode.length_bytes, Nat.add_assoc]
  simp only [writeUnit, inserting, appended, write_appended, hcount, List.append_assoc]

theorem writeUnits_appended (units : List (StartCode × List UInt8)) :
    ((appended codec out n).inserting insert).writeUnits units =
      (.ok (), (appended codec (out ++ written units) n).inserting insert) := by
  induction units generalizing out with
  | nil => rw [written, List.flatMap_nil, List.append_nil, writeUnits]
  | cons u rest ih =>
    obtain ⟨c, payload⟩ := u
    simp only [writeUnits, writeUnit_appended, ih, written_cons, List.append_assoc]

theorem writeAccessUnit_appended {unit : AccessUnit} (hne : unit ≠ []) :
    ((appended codec out n).inserting insert).writeAccessUnit unit =
      (.ok (), (appended codec (out ++ written (unitsOf codec insert unit)) (n + 1)).inserting
        insert) := by
  rw [writeAccessUnit_eq (.inr rfl) hne]
  exact congrArg counted (writeUnits_appended _)

/-- **What is written of access units** is each of their NAL units behind its start code, with
delimiters or without. -/
theorem writeAll_inserting {units : List AccessUnit} (hne : ∀ unit ∈ units, unit ≠ []) :
    ((appended codec out n).inserting insert).writeAll units =
      (.ok (), (appended codec (out ++ written (units.flatMap (unitsOf codec insert)))
        (n + units.length)).inserting insert) := by
  induction units generalizing out n with
  | nil =>
    rw [List.flatMap_nil, written, List.flatMap_nil, List.append_nil]
    rfl
  | cons unit rest ih =>
    have hrest := @ih (out ++ written (unitsOf codec insert unit)) (n + 1)
      fun u hu => hne u (List.mem_cons_of_mem _ hu)
    rw [writeAll, writeAccessUnit_appended (hne unit (List.mem_cons_self ..))]
    simp only [hrest, List.flatMap_cons, written_append, List.append_assoc, List.length_cons,
      Nat.add_assoc, Nat.add_comm 1]

/-- What is written of a sample that had a start code in its stream. -/
def restored (s : Sample) : List UInt8 := (s.startCode.elim [] StartCode.bytes) ++ s.payload

/-- A start code that a sample had in its stream is written as it was. -/
theorem startCodeOf_of_isSome {s : Sample} (leads : Bool) (h : s.startCode.isSome) :
    s.startCode = some (startCodeOf codec leads s) := by
  obtain ⟨c, hc⟩ := Option.isSome_iff_exists.1 h
  rw [startCodeOf, hc]
  rfl

theorem flatMap_unitsOf {unit : AccessUnit} (h : ∀ s ∈ unit, s.startCode.isSome) :
    ((unitsOf codec false unit).flatMap fun u => u.1.bytes ++ u.2) = unit.flatMap restored := by
  have hcode : ∀ leads, ∀ s ∈ unit,
      (startCodeOf codec leads s).bytes ++ s.payload = restored s := by
    intro leads s hs
    rw [restored, @startCodeOf_of_isSome codec s leads (h s hs)]
    rfl
  rcases unit with _ | ⟨s, rest⟩
  · rfl
  · rw [unitsOf]
    simp only [Bool.false_and, Bool.false_eq_true, if_false, List.nil_append, List.flatMap_cons,
      List.flatMap_map]
    rw [hcode _ s (List.mem_cons_self ..)]
    congr 1
    exact List.flatMap_congr fun t ht => hcode _ t (List.mem_cons_of_mem _ ht)

theorem writeAll_appended {units : List AccessUnit} (hne : ∀ unit ∈ units, unit ≠ [])
    (h : ∀ s ∈ units.flatten, s.startCode.isSome) :
    (appended codec out n).writeAll units =
      (.ok (), appended codec (out ++ units.flatten.flatMap restored) (n + units.length)) := by
  have hunits : written (units.flatMap (unitsOf codec false)) =
      units.flatten.flatMap restored := by
    rw [written, List.flatMap_assoc, ← List.flatMap_id, List.flatMap_assoc]
    exact List.flatMap_congr fun unit hunit =>
      flatMap_unitsOf fun s hs => h s (List.mem_flatten_of_mem hunit hs)
  rw [← hunits]
  exact @writeAll_inserting codec false out n units hne

section

variable {stamp : Nat → Timestamp} {b : Boundary} {data : List UInt8}

theorem startCode_of_mem_accessUnits :
    ∀ s ∈ (Extractor.accessUnits codec stamp b data).flatten, s.startCode.isSome := by
  intro s hs
  have hview := @Extractor.map_flatten_accessUnits_spans codec stamp b data _
    (fun s : Sample => s.startCode.isSome) (fun _ _ => rfl) (fun _ _ => rfl) fun _ _ => rfl
  have hmem : s.startCode.isSome ∈
      (Extractor.accessUnits codec stamp b data).flatten.map fun s => s.startCode.isSome :=
    List.mem_map_of_mem hs
  rw [hview] at hmem
  obtain ⟨u, -, hu⟩ := List.mem_map.1 hmem
  exact hu.symm

theorem restored_sampleOfSpan (u : NalSpan) :
    restored (Extractor.sampleOfSpan data.toArray .zero u) = u.bytes data := by
  rw [restored, Extractor.payload_sampleOfSpan, Extractor.sampleOfSpan_eq]
  rfl

theorem flatMap_restored :
    (Extractor.accessUnits codec stamp b data).flatten.flatMap restored =
      (nalSpans data).flatMap (NalSpan.bytes data) := by
  have hview := @Extractor.map_flatten_accessUnits_spans codec stamp b data _ restored
    (fun _ _ => rfl) (fun _ _ => rfl) fun _ _ => rfl
  rw [List.flatMap_def, hview, List.flatMap_def]
  exact congrArg List.flatten (List.map_congr_left fun u _ => restored_sampleOfSpan u)

end

/-- **Writing what a stream gives at once gives the stream back**, up to a last unit of one byte
behind a short start code. -/
theorem writeAll_extractAll {mediaType : MediaType} {data : List UInt8} {time : Timestamp}
    {units : List AccessUnit} (codec : VideoCodec) (hlong : 5 ≤ data.length)
    (h : Extractor.extractAll mediaType data time = .ok units) :
    ∃ w out suffix,
      (ofChannel (.ofStorage (MemoryStore.ofList [])) codec).writeAll units = (.ok (), w) ∧
      w.channel.contents = some out ∧ data = out ++ suffix ∧
      (suffix = [] ∨ ∃ x, suffix = [0, 0, 1, x]) ∧
      w.bytesWritten = out.length ∧ w.unitsWritten = units.length := by
  have hmin : minUnitSize = 5 := rfl
  rw [Extractor.extractAll_eq, if_neg (by omega)] at h
  rcases hc : StartCode.leading? data with _ | c <;> rw [hc] at h
  · simp at h
  · simp only [Option.isNone_some, Bool.false_eq_true, if_false, Except.ok.injEq] at h
    subst h
    obtain ⟨i, hi, hzero, -⟩ := StartCode.patterns_of_leading? hc hlong
    obtain ⟨rest, hpatterns⟩ := List.head?_eq_some_iff.1 hi
    have harr := hpatterns ▸ NalSpan.arePatterns data 0
    obtain ⟨tail, htile, htail⟩ := NalSpan.flatMap_bytes_spans harr
    rw [hzero, List.drop_zero, ← hpatterns, ← nalSpans_eq_spans] at htile
    refine ⟨_, (nalSpans data).flatMap (NalSpan.bytes data), tail,
      writeAll_appended Extractor.ne_nil_of_mem_accessUnits startCode_of_mem_accessUnits,
      ?_, htile, htail, ?_, ?_⟩
    · rw [List.nil_append, flatMap_restored]
      rfl
    · rw [List.nil_append, flatMap_restored]
      rfl
    · exact Nat.zero_add _

/-- A last unit of one byte is dropped. -/
theorem writeAll_extractAll_dropped :
    ∃ units w out suffix,
      Extractor.extractAll .h264 [0, 0, 0, 1, 9, 0, 0, 1, 101] .zero = .ok units ∧
      (ofChannel (.ofStorage (MemoryStore.ofList [])) .h264).writeAll units = (.ok (), w) ∧
      w.channel.contents = some out ∧ [0, 0, 0, 1, 9, 0, 0, 1, 101] = out ++ suffix ∧
      (suffix = [] ∨ ∃ x, suffix = [0, 0, 1, x]) ∧
      w.bytesWritten = out.length ∧ w.unitsWritten = units.length := by
  have hunits : Extractor.extractAll .h264 [0, 0, 0, 1, 9, 0, 0, 1, 101] .zero =
      .ok [[{ data := .ofList [9], startCode := some .long, marker := true }]] := rfl
  obtain ⟨w, out, suffix, h⟩ := writeAll_extractAll .h264 (by decide) hunits
  exact ⟨_, w, out, suffix, hunits, h⟩

end StreamWriter
end AnnexB
