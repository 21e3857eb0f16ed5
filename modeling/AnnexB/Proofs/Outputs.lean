/-
# What access units are written as

A writer over storage in memory that was empty is given access units, one after the other.

| written | when |
| --- | --- |
| the parameter sets, each behind a long start code | in front of the first access unit that is not empty |
| a delimiter behind a long start code | if one is wanted, and the access unit does not begin with one |
| each sample behind its start code | always |

So empty access units leave no trace, and do not use the parameter sets up (`writeAll_starting`).

The start code of a sample is the one that it had.  Without that it is a long one for a delimiter, for
a parameter set, and for a sample with which its access unit begins, and a short one for the others
(`placedCode`).

What is written hangs on the start codes and on the payloads alone.  So a sample may as well carry a
start code in its data (`writeAll_of_restated`).
-/

import AnnexB.Proofs.Remuxing

namespace AnnexB

/-! ### Samples that carry a start code in their data -/

namespace Sample

/-- The sample `s'` stands for `s`: it is the same one, or it carries the payload of `s` behind some
start code in its data, and says so. -/
inductive Restates (s s' : Sample) : Prop
  | same (same : s' = s)
  | inside (code : StartCode) (data : s'.data.toList = code.bytes ++ s.payload)
      (containsStartCode : s'.containsStartCode = true) (startCode : s'.startCode = s.startCode)

/-- It has the same payload and the same start code. -/
theorem Restates.coded_eq {s s' : Sample} (h : Restates s s') : s'.coded = s.coded := by
  cases h with
  | same same => rw [same]
  | inside code data containsStartCode startCode =>
    have hpayload : s'.payload = s.payload := by
      rw [payload, data, StartCode.leading?_bytes_append]
      simp only [containsStartCode, if_true]
      rw [← StartCode.length_bytes, List.drop_left]
    rw [coded, coded, hpayload, startCode]

end Sample

namespace StreamWriter

variable {codec : VideoCodec} {insert : Bool}

/-- The unit that a sample is written as is made from its payload and its start code. -/
theorem unit_eq_of_coded {s s' : Sample} (h : s'.coded = s.coded) (leads : Bool) :
    (startCodeOf codec leads s', s'.payload) = (startCodeOf codec leads s, s.payload) := by
  obtain ⟨hstart, hpayload⟩ := Prod.ext_iff.1 h
  change s'.startCode = s.startCode at hstart
  change s'.payload = s.payload at hpayload
  rw [startCodeOf, startCodeOf, Sample.header, Sample.header, hstart, hpayload]

theorem unitsOf_congr {unit unit' : AccessUnit}
    (h : List.Forall₂ (fun s s' : Sample => s'.coded = s.coded) unit unit') :
    unitsOf codec insert unit' = unitsOf codec insert unit := by
  cases h with
  | nil => rfl
  | @cons s s' rest rest' hfirst hrest =>
    have hpayload : s'.payload = s.payload := congrArg Prod.snd hfirst
    have hheader : s'.header codec = s.header codec := by
      rw [Sample.header, Sample.header, hpayload]
    have hlater : (rest'.map fun s => (startCodeOf codec false s, s.payload)) =
        rest.map fun s => (startCodeOf codec false s, s.payload) := by
      induction hrest with
      | nil => rfl
      | cons hnext _ ih => rw [List.map_cons, List.map_cons, unit_eq_of_coded hnext, ih]
    rw [unitsOf, unitsOf, hheader, unit_eq_of_coded hfirst, hlater]

/-- **A sample may carry a start code in its data** without a difference to what is written. -/
theorem writeAll_of_restated {σ : Type} [Storage σ] {units units' : List AccessUnit}
    (h : List.Forall₂ (List.Forall₂ Sample.Restates) units units') (w : StreamWriter σ) :
    w.writeAll units' = w.writeAll units := by
  induction h generalizing w with
  | nil => rfl
  | @cons unit unit' rest rest' hunit _ ih =>
    have hempty : unit'.isEmpty = unit.isEmpty := by cases hunit <;> rfl
    have hunits : unitsOf w.codec w.insertDelimiter unit' = unitsOf w.codec w.insertDelimiter unit :=
      unitsOf_congr (hunit.imp fun _ _ hsame => hsame.coded_eq)
    have hstep : w.writeAccessUnit unit' = w.writeAccessUnit unit := by
      simp only [writeAccessUnit, hempty, hunits]
    rw [writeAll, writeAll, hstep]
    split
    · rfl
    · exact ih _

/-! ### One access unit -/

/-- Whether a delimiter is put in front of an access unit. -/
def getsDelimiter (codec : VideoCodec) (insert : Bool) (unit : AccessUnit) : Bool :=
  insert && !hasDelimiter codec (unit.map Sample.payload)

/-- The start code of the sample at place `i` of its access unit, with a delimiter in front or
without. -/
def placedCode (codec : VideoCodec) (delimited : Bool) (i : Nat) (s : Sample) : StartCode :=
  match s.startCode with
  | some code => code
  | none =>
    if (i = 0 ∧ delimited = false) ∨ (s.header codec).isAud ∨ (s.header codec).isParameterSet then
      .long
    else .short

/-- The bytes of an access unit: a delimiter, if it gets one, and each sample behind its start
code. -/
def unitBytes (codec : VideoCodec) (insert : Bool) (unit : AccessUnit) : List UInt8 :=
  let delimited := getsDelimiter codec insert unit
  (if delimited then StartCode.long.bytes ++ (delimiter codec).toList else []) ++
    (unit.mapIdx fun i s => (placedCode codec delimited i s).bytes ++ s.payload).flatten

theorem placedCode_zero (delimited : Bool) (s : Sample) :
    placedCode codec delimited 0 s = startCodeOf codec (!delimited) s := by
  rw [placedCode, startCodeOf]
  cases s.startCode <;> simp [or_assoc]

theorem placedCode_succ (delimited : Bool) (i : Nat) (s : Sample) :
    placedCode codec delimited (i + 1) s = startCodeOf codec false s := by
  rw [placedCode, startCodeOf]
  cases s.startCode <;> simp

theorem written_unitsOf {unit : AccessUnit} (hne : unit ≠ []) :
    written (unitsOf codec insert unit) = unitBytes codec insert unit := by
  obtain ⟨s, rest, rfl⟩ := List.exists_cons_of_ne_nil hne
  have hdelimited : getsDelimiter codec insert (s :: rest) =
      (insert && !(s.header codec).isAud) := rfl
  have hrest : (rest.mapIdx fun i t =>
      (placedCode codec (insert && !(s.header codec).isAud) (i + 1) t).bytes ++ t.payload) =
      rest.map fun t => (startCodeOf codec false t).bytes ++ t.payload := by
    simp only [placedCode_succ]
    exact List.ext_getElem? fun i => by simp
  have hlater : written (rest.map fun t => (startCodeOf codec false t, t.payload)) =
      (rest.map fun t => (startCodeOf codec false t).bytes ++ t.payload).flatten := by
    rw [written, List.flatMap_map, List.flatMap_def]
  rw [unitsOf, unitBytes, hdelimited, List.mapIdx_cons, hrest, placedCode_zero, List.flatten_cons,
    written_append, written_cons, hlater, List.append_assoc]
  congr 1
  cases insert && !(s.header codec).isAud
  · rfl
  · exact List.append_nil _

/-! ### A run -/

/-- A writer over empty storage in memory, with parameter sets to write ahead. -/
def starting (codec : VideoCodec) (insert : Bool) (sets : List ByteBuffer) :
    StreamWriter MemoryStore :=
  { ofChannel (.ofStorage (MemoryStore.ofList [])) codec with
    insertDelimiter := insert, parameterSets := sets }

/-- The first access unit that is not empty is written behind the parameter sets, and uses them
up. -/
theorem writeAccessUnit_starting (sets : List ByteBuffer) {unit : AccessUnit} (hne : unit ≠ []) :
    (starting codec insert sets).writeAccessUnit unit =
      (.ok (), (appended codec (written (setUnits sets) ++ unitBytes codec insert unit) 1).inserting
        insert) := by
  have hunits := @writeUnits_appended codec insert [] 0
    (setUnits sets ++ unitsOf codec insert unit)
  rw [List.nil_append, written_append, written_unitsOf hne] at hunits
  rw [writeAccessUnit_eq (.inl rfl) hne]
  exact congrArg counted hunits

/-- **What a run of a writer writes**, whatever is in the samples: the parameter sets once, at the very
beginning, and each access unit that is not empty.  Empty ones leave no trace, and do not use the
parameter sets up.  A sample may as well carry a start code in its data. -/
theorem writeAll_starting (codec : VideoCodec) (insert : Bool) (sets : List ByteBuffer)
    (units : List AccessUnit) :
    let kept := units.filter (· ≠ [])
    ∃ w, (starting codec insert sets).writeAll units = (.ok (), w) ∧
      w.channel.contents = some
        ((if kept.isEmpty then [] else sets.flatMap fun p => StartCode.long.bytes ++ p.toList) ++
          kept.flatMap (unitBytes codec insert)) ∧
      w.parameterSets = (if kept.isEmpty then sets else []) ∧ w.unitsWritten = kept.length ∧
      ∀ units', List.Forall₂ (List.Forall₂ Sample.Restates) units units' →
        (starting codec insert sets).writeAll units' = (.ok (), w) := by
  intro kept
  have hkept : (starting codec insert sets).writeAll units =
      (starting codec insert sets).writeAll kept :=
    (writeAll_filter_ne_nil ..).symm
  have hne : ∀ unit ∈ kept, unit ≠ [] := fun unit hunit =>
    of_decide_eq_true (List.mem_filter.1 hunit).2
  rcases hcases : kept with _ | ⟨first, rest⟩
  · rw [hcases] at hkept
    refine ⟨starting codec insert sets, hkept, rfl, rfl, rfl, fun units' hrestated => ?_⟩
    rw [writeAll_of_restated hrestated, hkept]
    rfl
  · rw [hcases] at hkept hne
    have hrest : ∀ unit ∈ rest, unit ≠ [] :=
      fun unit hunit => hne unit (List.mem_cons_of_mem _ hunit)
    have hbytes : written (rest.flatMap (unitsOf codec insert)) =
        rest.flatMap (unitBytes codec insert) := by
      rw [written, List.flatMap_assoc]
      exact List.flatMap_congr fun unit hunit => written_unitsOf (hrest unit hunit)
    have hsets : written (setUnits sets) =
        sets.flatMap fun p => StartCode.long.bytes ++ p.toList := by
      rw [written, setUnits, List.flatMap_map]
    have hrun : (starting codec insert sets).writeAll units =
        (.ok (), (appended codec ((written (setUnits sets) ++ unitBytes codec insert first) ++
          rest.flatMap (unitBytes codec insert)) (1 + rest.length)).inserting insert) := by
      rw [hkept, writeAll, writeAccessUnit_starting sets (hne first (List.mem_cons_self ..)),
        ← hbytes]
      exact writeAll_inserting hrest
    refine ⟨_, hrun, ?_, rfl, Nat.add_comm .., fun units' hrestated => ?_⟩
    · rw [hsets, List.append_assoc, ← List.flatMap_cons]
      rfl
    · rw [writeAll_of_restated hrestated, hrun]

/-- A slice, and a picture that begins with a delimiter, with an empty access unit around each: the
slice gets the parameter set and a delimiter in front of it, and may as well be given with a start
code in its data. -/
theorem writeAll_starting_two :
    let slice : Sample := .ofPayload [0x65, 0x88]
    let picture : AccessUnit := [.ofPayload [0x09, 0xF0], .ofPayload [0x41, 0x9A]]
    let inside : Sample :=
      { slice with data := .ofList [0, 0, 0, 1, 0x65, 0x88], containsStartCode := true }
    let w := starting .h264 true [.ofList [0x67, 0x42]]
    ∃ w', w.writeAll [[], [slice], [], picture] = (.ok (), w') ∧
      w.writeAll [[], [inside], [], picture] = (.ok (), w') ∧
      w'.channel.contents = some
        [0, 0, 0, 1, 0x67, 0x42, 0, 0, 0, 1, 0x09, 0xF0, 0, 0, 1, 0x65, 0x88,
          0, 0, 0, 1, 0x09, 0xF0, 0, 0, 1, 0x41, 0x9A] ∧
      w'.parameterSets = [] ∧ w'.unitsWritten = 2 := by
  intro slice picture inside w
  obtain ⟨w', hrun, hcontents, hsets, hcount, hrestated⟩ :=
    writeAll_starting .h264 true [.ofList [0x67, 0x42]] [[], [slice], [], picture]
  have hslice : Sample.Restates slice inside := .inside .long rfl rfl rfl
  have hpicture : List.Forall₂ Sample.Restates picture picture :=
    .cons (.same rfl) (.cons (.same rfl) .nil)
  refine ⟨w', hrun, hrestated _ ?_, hcontents.trans (by decide +kernel), hsets, hcount⟩
  exact .cons .nil (.cons (.cons hslice .nil) (.cons .nil (.cons hpicture .nil)))

end StreamWriter
end AnnexB
