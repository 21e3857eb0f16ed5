/-
# Parameter sets that a failed write loses

A writer takes its parameter sets out of the queue, then writes them, and then counts the access unit
that they go in front of.  So this is what a failure in between leaves (`writeAccessUnit_of_appends`):

| | before | after |
| --- | --- | --- |
| queue | the parameter sets | empty |
| access units counted | none | none |
| storage | some bytes | the same, and a prefix of what was to be written |

The next access unit is the first one again, but what it gets in front of it is the queue, which is
empty now.  No attempt brings a parameter set any more (`attempts_of_appends`).  So the parameter sets
that are not written are kept if and only if there are none: if the failure comes behind the last of
them (`failed_first_write_keeps_sets_iff`).

The storage may be of any kind whose writes append, may fail at any write, may take a part of the bytes
of a write that fails, and may work again afterwards (`Appends`).
-/

import AnnexB.Proofs.Failures.Storage
import AnnexB.Proofs.Outputs
import AnnexB.Proofs.Steps

namespace AnnexB

/-- Storage whose writes append, `At s out` where the bytes written so far are `out`.  Of a write some
first part comes through, and all of it if the write does not fail. -/
structure Appends {σ : Type} [Storage σ] (At : σ → List UInt8 → Prop) : Prop where
  write {s : σ} {out : List UInt8} (bytes : List UInt8) (place : At s out) :
    ∃ through, through <+: bytes ∧ ((Storage.write bytes s).1 = .ok () → through = bytes) ∧
      At (Storage.write bytes s).2 (out ++ through)

/-- Storage whose writes append, and of a write that fails nothing comes through. -/
structure AppendsWhole {σ : Type} [Storage σ] (At : σ → List UInt8 → Prop) : Prop where
  write {s : σ} {out : List UInt8} (bytes : List UInt8) (place : At s out) :
    ((Storage.write bytes s).1 = .ok () ∧ At (Storage.write bytes s).2 (out ++ bytes)) ∨
      ∃ failure, (Storage.write bytes s).1 = .error failure ∧ At (Storage.write bytes s).2 out

theorem AppendsWhole.appends {σ : Type} [Storage σ] {At : σ → List UInt8 → Prop}
    (h : AppendsWhole At) : Appends At where
  write := by
    intro s out bytes place
    rcases h.write bytes place with ⟨-, hat⟩ | ⟨failure, hfails, hat⟩
    · exact ⟨bytes, List.prefix_refl _, fun _ => rfl, hat⟩
    · refine ⟨[], List.nil_prefix, fun hok => ?_, by rwa [List.append_nil]⟩
      rw [hfails] at hok
      cases hok

namespace StreamWriter

variable {σ : Type} {At : σ → List UInt8 → Prop} {w : StreamWriter σ} {out : List UInt8}

/-- What a writer is to write, and what is to go in front of it. -/
def setting (w : StreamWriter σ) : VideoCodec × Bool × List ByteBuffer :=
  (w.codec, w.insertDelimiter, w.parameterSets)

theorem setting_eq_iff {codec : VideoCodec} {insert : Bool} {sets : List ByteBuffer} :
    w.setting = (codec, insert, sets) ↔
      w.codec = codec ∧ w.insertDelimiter = insert ∧ w.parameterSets = sets := by
  rw [setting, Prod.mk.injEq, Prod.mk.injEq]

/-- What an attempt to write some bytes makes of a writer: a first part of the bytes comes through, all
of them if it does not fail, and but for the channel and the count of bytes the writer is what it
was. -/
structure Puts (At : σ → List UInt8 → Prop) (w : StreamWriter σ) (out bytes : List UInt8)
    (outcome : Except Error Unit × StreamWriter σ) : Prop where
  through : ∃ through, through <+: bytes ∧ (outcome.1 = .ok () → through = bytes) ∧
    At outcome.2.channel.storage (out ++ through)
  setting : outcome.2.setting = w.setting
  count : outcome.2.unitsWritten = w.unitsWritten

/-- One write behind another, which is not made where the first fails. -/
theorem Puts.append {bytes later : List UInt8} {w₁ : StreamWriter σ}
    {outcome : Except Error Unit × StreamWriter σ} (h : Puts At w out bytes (.ok (), w₁))
    (hlater : At w₁.channel.storage (out ++ bytes) → Puts At w₁ (out ++ bytes) later outcome) :
    Puts At w out (bytes ++ later) outcome := by
  obtain ⟨first, -, hall, hat⟩ := h.through
  obtain rfl := hall rfl
  obtain ⟨⟨part, hprefix, hpart, hat'⟩, hsetting, hcount⟩ := hlater hat
  refine ⟨⟨first ++ part, (List.prefix_append_right_inj _).2 hprefix, fun hok => ?_, ?_⟩,
    hsetting.trans h.setting, hcount.trans h.count⟩
  · rw [hpart hok]
  · rwa [← List.append_assoc]

/-- A write that fails, with others that are not made behind it. -/
theorem Puts.stop {bytes : List UInt8} {e : Error} {w₁ : StreamWriter σ}
    (h : Puts At w out bytes (.error e, w₁)) (later : List UInt8) :
    Puts At w out (bytes ++ later) (.error e, w₁) := by
  obtain ⟨part, hprefix, -, hat⟩ := h.through
  exact ⟨⟨part, hprefix.trans (List.prefix_append ..), nofun, hat⟩, h.setting, h.count⟩

/-! ### What a writer puts into its storage -/

variable [Storage σ]

theorem puts_write (happends : Appends At) (hat : At w.channel.storage out) (bytes : List UInt8) :
    Puts At w out bytes
      ((w.channel.write bytes).1, { w with channel := (w.channel.write bytes).2 }) := by
  obtain ⟨through, hprefix, hall, hat'⟩ := happends.write bytes hat
  refine ⟨⟨through, hprefix, fun hok => hall ?_, hat'⟩, rfl, rfl⟩
  change (Storage.write bytes w.channel.storage).1.mapError Error.storage = .ok () at hok
  cases hanswer : (Storage.write bytes w.channel.storage).1 with
  | error failure => rw [hanswer] at hok; cases hok
  | ok => rfl

theorem puts_writeUnit (happends : Appends At) (hat : At w.channel.storage out) (c : StartCode)
    (payload : List UInt8) :
    Puts At w out (c.bytes ++ payload) (w.writeUnit c payload) := by
  have hcode := puts_write happends hat c.bytes
  rw [writeUnit]
  rcases hwrite : w.channel.write c.bytes with ⟨e | _, channel⟩ <;> rw [hwrite] at hcode
  · exact hcode.stop payload
  · refine hcode.append fun hat' => ?_
    have hpayload := puts_write happends hat' payload
    simp only
    rcases hwrite' : channel.write payload with ⟨e | _, channel'⟩ <;>
      simp only [hwrite'] at hpayload ⊢
    · exact hpayload
    · exact ⟨hpayload.through, hpayload.setting, hpayload.count⟩

theorem puts_writeUnits (happends : Appends At) (hat : At w.channel.storage out)
    (units : List CodedUnit) : Puts At w out (written units) (w.writeUnits units) := by
  induction units generalizing w out with
  | nil => exact ⟨⟨[], List.nil_prefix, fun _ => rfl, by rwa [List.append_nil]⟩, rfl, rfl⟩
  | cons u rest ih =>
    obtain ⟨c, payload⟩ := u
    have hunit := puts_writeUnit happends hat c payload
    rw [writeUnits, written_cons, ← List.append_assoc]
    rcases hwrite : w.writeUnit c payload with ⟨e | _, w₁⟩ <;> rw [hwrite] at hunit
    · exact hunit.stop _
    · exact hunit.append fun hat' => ih hat'

/-- **What an attempt to write an access unit leaves.**  A first part of the queue and of the access
unit is written, all of it if the attempt does not fail.  The queue is empty in either case, but the
access unit counts only if the attempt does not fail. -/
theorem writeAccessUnit_of_appends (happends : Appends At) (hat : At w.channel.storage out)
    (hqueue : w.unitsWritten = 0 ∨ w.parameterSets = []) {unit : AccessUnit} (hne : unit ≠ []) :
    let bytes := written (setUnits w.parameterSets ++ unitsOf w.codec w.insertDelimiter unit)
    let outcome := w.writeAccessUnit unit
    ∃ through, through <+: bytes ∧ (outcome.1 = .ok () → through = bytes) ∧
      At outcome.2.channel.storage (out ++ through) ∧
      outcome.2.setting = (w.codec, w.insertDelimiter, []) ∧
      ((∃ e, outcome.1 = .error e) → outcome.2.unitsWritten = w.unitsWritten) := by
  intro bytes outcome
  have hplace : At w.withoutSets.channel.storage out := hat
  have hputs := puts_writeUnits happends hplace
    (setUnits w.parameterSets ++ unitsOf w.codec w.insertDelimiter unit)
  rw [show outcome = counted _ from writeAccessUnit_eq hqueue hne]
  rcases hwrite : w.withoutSets.writeUnits
    (setUnits w.parameterSets ++ unitsOf w.codec w.insertDelimiter unit) with ⟨e | _, w'⟩ <;>
    rw [hwrite] at hputs <;>
    obtain ⟨⟨through, hprefix, hall, hat'⟩, hsetting, hcount⟩ := hputs
  · exact ⟨through, hprefix, nofun, hat', hsetting, fun _ => hcount⟩
  · exact ⟨through, hprefix, fun _ => hall rfl, hat', hsetting, nofun⟩

/-- An attempt to write an access unit, as a step. -/
def attempt (unit : AccessUnit) : StateM (StreamWriter σ) (Except Error Unit) :=
  fun w => w.writeAccessUnit unit

/-- Once the queue is empty, an attempt brings nothing but a first part of its access unit. -/
theorem attempt_of_appends (happends : Appends At) (hat : At w.channel.storage out)
    (hnone : w.parameterSets = []) (unit : AccessUnit) :
    let bytes := written (unitsOf w.codec w.insertDelimiter unit)
    let outcome := attempt unit w
    ∃ through, through <+: bytes ∧ (outcome.1 = .ok () → through = bytes) ∧
      At outcome.2.channel.storage (out ++ through) ∧
      outcome.2.setting = (w.codec, w.insertDelimiter, []) := by
  intro bytes outcome
  rcases eq_or_ne unit [] with rfl | hne
  · exact ⟨[], List.nil_prefix, fun _ => rfl, by rwa [List.append_nil], by rw [← hnone]; rfl⟩
  · obtain ⟨through, hprefix, hall, hat', hsetting, -⟩ :=
      writeAccessUnit_of_appends happends hat (.inr hnone) hne
    rw [hnone] at hprefix hall
    exact ⟨through, hprefix, hall, hat', hsetting⟩

/-- Once the queue is empty, attempts bring nothing but first parts of their access units. -/
theorem attempts_of_appends (happends : Appends At) (hat : At w.channel.storage out)
    (hnone : w.parameterSets = []) (tries : List AccessUnit) :
    let w' := ((tries.mapM attempt).run w).2
    ∃ parts, List.Forall₂
        (fun unit part => part <+: written (unitsOf w.codec w.insertDelimiter unit)) tries parts ∧
      At w'.channel.storage (out ++ parts.flatten) ∧
      w'.setting = (w.codec, w.insertDelimiter, []) := by
  induction tries generalizing w out with
  | nil => exact ⟨[], .nil, by rwa [List.flatten_nil, List.append_nil], by rw [← hnone]; rfl⟩
  | cons unit tries ih =>
    obtain ⟨part, hprefix, -, hat', hsetting⟩ := attempt_of_appends happends hat hnone unit
    obtain ⟨hcodec, hinsert, hnone'⟩ := setting_eq_iff.1 hsetting
    obtain ⟨parts, hparts, hat'', hsetting'⟩ := ih hat' hnone'
    rw [hcodec, hinsert] at hparts hsetting'
    rw [run_mapM_cons]
    refine ⟨part :: parts, .cons hprefix hparts, ?_, hsetting'⟩
    rwa [List.flatten_cons, ← List.append_assoc]

/-! ### Whether the parameter sets are kept -/

/-- Of the parameter sets `sets`, those are in the queue of which not every byte came through. -/
def Keeps (sets queue : List ByteBuffer) (through : List UInt8) : Prop :=
  ∀ i p, sets[i]? = some p → ¬written (setUnits (sets.take (i + 1))) <+: through → p ∈ queue

/-- An empty queue keeps the parameter sets that did not come through, if there are none. -/
theorem keeps_nil_iff (sets : List ByteBuffer) (through : List UInt8) :
    Keeps sets [] through ↔ written (setUnits sets) <+: through := by
  constructor
  · intro hkeeps
    rcases hlast : sets.length with _ | n
    · rw [List.length_eq_zero_iff.1 hlast]
      exact List.nil_prefix
    · -- the last one came through, and so did all those ahead of it
      have hlt : n < sets.length := by omega
      have hcame := not_not.1 fun hnot => List.not_mem_nil
        (hkeeps n sets[n] (List.getElem?_eq_getElem hlt) hnot)
      rwa [List.take_of_length_le (by omega)] at hcame
  · intro hall i p _ hnot
    refine absurd (List.IsPrefix.trans ?_ hall) hnot
    have hsplit :=
      congrArg (fun sets => written (setUnits sets)) (List.take_append_drop (i + 1) sets)
    rw [setUnits, List.map_append, written_append] at hsplit
    exact ⟨_, hsplit⟩

/-- **A failed first access unit keeps the parameter sets that are not written if and only if there
are none.**  Over storage whose writes append, and any of whose writes may fail, a writer that has
written no access unit yet fails to write one.  Then a first part of the parameter sets and of the access
unit is in the storage, and still no access unit counts.  Every parameter set of which not every byte
came through is queued if and only if all of them came through.  Nothing queues them again: of the
attempts made after that, each brings a first part of its own access unit, and one that does not fail
brings its access unit, without a parameter set in front of it. -/
theorem failed_first_write_keeps_sets_iff (happends : Appends At) (hat : At w.channel.storage out)
    (hfirst : w.unitsWritten = 0) {unit : AccessUnit} {e : Error} {w' : StreamWriter σ}
    (hfails : w.writeAccessUnit unit = (.error e, w')) :
    let sets := written (setUnits w.parameterSets)
    let bytesOf := fun unit => written (unitsOf w.codec w.insertDelimiter unit)
    ∃ through, through <+: sets ++ bytesOf unit ∧ At w'.channel.storage (out ++ through) ∧
      w'.unitsWritten = 0 ∧
      (Keeps w.parameterSets w'.parameterSets through ↔ sets <+: through) ∧
      ∀ tries : List AccessUnit, ∃ parts,
        let w₁ := ((tries.mapM attempt).run w').2
        List.Forall₂ (fun unit part => part <+: bytesOf unit) tries parts ∧
        At w₁.channel.storage (out ++ through ++ parts.flatten) ∧
        ∀ later w₂, w₁.writeAccessUnit later = (.ok (), w₂) →
          At w₂.channel.storage (out ++ through ++ parts.flatten ++ bytesOf later) := by
  intro sets bytesOf
  have hne : unit ≠ [] := by
    rintro rfl
    cases hfails
  obtain ⟨through, hprefix, -, hat', hsetting, hcount⟩ :=
    writeAccessUnit_of_appends happends hat (.inl hfirst) hne
  rw [hfails] at hat' hsetting hcount
  rw [written_append] at hprefix
  obtain ⟨hcodec, hinsert, hnone⟩ := setting_eq_iff.1 hsetting
  refine ⟨through, hprefix, hat', (hcount ⟨e, rfl⟩).trans hfirst, ?_, fun tries => ?_⟩
  · rw [hnone]
    exact keeps_nil_iff ..
  · obtain ⟨parts, hparts, hat₁, hsetting₁⟩ := attempts_of_appends happends hat' hnone tries
    rw [hcodec, hinsert] at hparts hsetting₁
    obtain ⟨hcodec₁, hinsert₁, hnone₁⟩ := setting_eq_iff.1 hsetting₁
    refine ⟨parts, hparts, hat₁, fun later w₂ hdone => ?_⟩
    obtain ⟨last, -, hall, hat₂, -⟩ := attempt_of_appends happends hat₁ hnone₁ later
    rw [attempt, hdone] at hall hat₂
    rwa [hall rfl, hcodec₁, hinsert₁] at hat₂

end StreamWriter

/-! ### Storage with a script -/

namespace ScriptedStore

/-- The storage below holds some bytes, and stands at their end. -/
def Holds (s : ScriptedStore) (out : List UInt8) : Prop :=
  s.store = ⟨out.toArray, out.length⟩

/-- **To storage with any script, writes append,** and of one that fails nothing comes through. -/
theorem appendsWhole : AppendsWhole Holds where
  write := by
    intro s out bytes hplace
    rcases follow_eq (fun _ => Storage.write bytes) s with hfails | ⟨portion, hmade⟩
    · refine .inr ⟨_, congrArg Prod.fst hfails, ?_⟩
      change Holds (follow (fun _ => Storage.write bytes) s).2 _
      rw [hfails]
      exact hplace
    · refine .inl ⟨congrArg Prod.fst hmade, ?_⟩
      change (follow (fun _ => Storage.write bytes) s).2.store = _
      rw [hmade]
      change s.store.write bytes = _
      rw [hplace, MemoryStore.write_at_end]

theorem appends : Appends Holds := appendsWhole.appends

end ScriptedStore

namespace StreamWriter

/-- Of two parameter sets the first is written, and the write of the second fails.  The second attempt
writes the slice behind the first parameter set, and the second one is lost. -/
theorem failed_first_write_keeps_sets_iff_two :
    let storage : ScriptedStore := ⟨.ofList [], [some 0, some 0, none]⟩
    let sets : List ByteBuffer := [.ofList [0x67, 0x42], .ofList [0x68, 0xCE]]
    let w : StreamWriter ScriptedStore :=
      { ofChannel (.ofStorage storage) .h264 with parameterSets := sets }
    let unit : AccessUnit := [.ofPayload [0x65, 0x88]]
    Appends ScriptedStore.Holds ∧ storage.Holds [] ∧ w.unitsWritten = 0 ∧
      ∃ w', w.writeAccessUnit unit = (.error (.storage .system), w') ∧
        ¬Keeps sets w'.parameterSets [0, 0, 0, 1, 0x67, 0x42] ∧ w'.unitsWritten = 0 ∧
        ∃ w₂, w'.writeAccessUnit unit = (.ok (), w₂) ∧
          w₂.channel.storage.Holds [0, 0, 0, 1, 0x67, 0x42, 0, 0, 0, 1, 0x65, 0x88] := by
  intro storage sets w unit
  have hfails : w.writeAccessUnit unit =
      (.error (.storage .system), (w.writeAccessUnit unit).2) := Prod.ext (by decide +kernel) rfl
  obtain ⟨through, -, hat, hcount, hkeeps, hlater⟩ :=
    failed_first_write_keeps_sets_iff ScriptedStore.appends
      (show ScriptedStore.Holds w.channel.storage [] from rfl) rfl hfails
  have hstore : (w.writeAccessUnit unit).2.channel.storage.store =
      ⟨#[0, 0, 0, 1, 0x67, 0x42], 6⟩ := by decide +kernel
  obtain rfl : through = [0, 0, 0, 1, 0x67, 0x42] := by
    have hdata := congrArg (fun store => store.data.toList) (hat.symm.trans hstore)
    simpa using hdata
  obtain ⟨parts, hparts, -, hdone⟩ := hlater []
  cases hparts
  refine ⟨ScriptedStore.appends, rfl, rfl, _, hfails, ?_, hcount, _,
    Prod.ext (by decide +kernel) rfl, hdone unit _ (Prod.ext (by decide +kernel) rfl)⟩
  rw [show sets = w.parameterSets from rfl, hkeeps]
  decide +kernel

end StreamWriter
end AnnexB
