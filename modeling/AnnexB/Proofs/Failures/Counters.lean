/-
# Bytes that the count of written bytes leaves out

A NAL unit takes two writes, one of its start code and one of its payload.  Its bytes are counted behind
the second one.  Over storage of which each write takes all of its bytes or none, a NAL unit has one of
three fates:

| writes | taken by the storage | counted |
| --- | --- | --- |
| both succeed | start code and payload | start code and payload |
| that of the start code fails | nothing | nothing |
| that of the payload fails | start code | nothing |

A call writes NAL units up to the first that fails, so its last one may leave a start code that stands
alone (`Progress`).  What the writer counts, and these start codes, are what the storage has taken.  So
the count is exact if and only if there is no such start code (`bytesWritten_eq_taken_iff`).
-/

import AnnexB.Proofs.Failures.ParameterSets

namespace AnnexB

/-- How far a call comes: the units that it writes, and a start code whose payload it does not write. -/
structure Progress where
  units : List CodedUnit
  stray : Option StartCode

namespace Progress

/-- The bytes of the start code that stands alone. -/
def strayBytes (p : Progress) : List UInt8 := p.stray.elim [] StartCode.bytes

/-- What the storage takes. -/
def taken (p : Progress) : List UInt8 := written p.units ++ p.strayBytes

/-- How far a call can come with some units, and what it answers. -/
inductive Of : List CodedUnit → Progress → Except Error Unit → Prop
  | done (units : List CodedUnit) : Of units ⟨units, none⟩ (.ok ())
  | refused (units : List CodedUnit) (next : CodedUnit) (later : List CodedUnit) (e : Error) :
      Of (units ++ next :: later) ⟨units, none⟩ (.error e)
  | cut (units : List CodedUnit) (next : CodedUnit) (later : List CodedUnit) (e : Error) :
      Of (units ++ next :: later) ⟨units, some next.1⟩ (.error e)

variable {units : List CodedUnit} {p : Progress} {answer : Except Error Unit}

theorem Of.cons (h : Of units p answer) (u : CodedUnit) :
    Of (u :: units) ⟨u :: p.units, p.stray⟩ answer := by
  cases h with
  | done => exact .done _
  | refused whole next later e => exact .refused (u :: whole) next later e
  | cut whole next later e => exact .cut (u :: whole) next later e

/-- Behind a unit that fails, no other is written. -/
theorem Of.append {e : Error} (h : Of units p (.error e)) (later : List CodedUnit) :
    Of (units ++ later) p (.error e) := by
  cases h with
  | refused whole next rest =>
    rw [List.append_assoc]
    exact .refused whole next (rest ++ later) e
  | cut whole next rest =>
    rw [List.append_assoc]
    exact .cut whole next (rest ++ later) e

theorem Of.eq_of_ok (h : Of units p (.ok ())) : p = ⟨units, none⟩ := by
  cases h with
  | done => rfl

theorem taken_none (units : List CodedUnit) : taken ⟨units, none⟩ = written units :=
  List.append_nil _

theorem taken_cons (u : CodedUnit) (p : Progress) :
    taken ⟨u :: p.units, p.stray⟩ = written [u] ++ p.taken := by
  rw [taken, taken, ← List.append_assoc, ← written_append]
  rfl

theorem strayBytes_eq_nil_iff : p.strayBytes = [] ↔ p.stray = none := by
  rcases p with ⟨units, _ | c⟩
  · exact iff_of_true rfl rfl
  · have hne : c.bytes ≠ [] := by cases c <;> decide
    exact iff_of_false hne nofun

/-- Of what the storage takes, the start codes that stand alone are the rest. -/
theorem length_flatMap_taken (calls : List Progress) :
    (calls.flatMap taken).length =
      (calls.flatMap fun p => written p.units).length + (calls.flatMap strayBytes).length := by
  induction calls with
  | nil => rfl
  | cons p calls ih =>
    simp only [List.flatMap_cons, List.length_append, ih, taken]
    omega

theorem length_flatMap_strayBytes_eq_zero_iff {calls : List Progress} :
    (calls.flatMap strayBytes).length = 0 ↔ ∀ p ∈ calls, p.stray = none := by
  rw [List.length_eq_zero_iff, List.flatMap_eq_nil_iff]
  exact forall₂_congr fun p _ => strayBytes_eq_nil_iff

end Progress

namespace StreamWriter

variable {σ : Type} {At : σ → List UInt8 → Prop} {w w' : StreamWriter σ} {out : List UInt8}

/-- After `p` the storage has taken its bytes, and the writer has counted those of its units. -/
structure Comes (At : σ → List UInt8 → Prop) (w : StreamWriter σ) (out : List UInt8) (p : Progress)
    (w' : StreamWriter σ) : Prop where
  place : At w'.channel.storage (out ++ p.taken)
  bytesWritten : w'.bytesWritten = w.bytesWritten + (written p.units).length

theorem comes_nowhere (hat : At w'.channel.storage out) (hcount : w'.bytesWritten = w.bytesWritten) :
    Comes At w out ⟨[], none⟩ w' := by
  refine ⟨?_, hcount⟩
  rw [Progress.taken_none]
  exact (List.append_nil out).symm ▸ hat

/-- A unit that is written, and what comes behind it. -/
theorem Comes.cons {u : CodedUnit} {p : Progress} {w₁ : StreamWriter σ}
    (h : Comes At w out ⟨[u], none⟩ w₁) (hlater : Comes At w₁ (out ++ written [u]) p w') :
    Comes At w out ⟨u :: p.units, p.stray⟩ w' := by
  constructor
  · rw [Progress.taken_cons, ← List.append_assoc]
    exact hlater.place
  · rw [hlater.bytesWritten, h.bytesWritten, Nat.add_assoc, ← List.length_append, ← written_append]
    rfl

/-- The units of a call: what goes in front of the access unit, and the access unit, if it is not
empty. -/
def callUnits (w : StreamWriter σ) (unit : AccessUnit) : List CodedUnit :=
  if unit = [] then [] else w.aheadUnits ++ unitsOf w.codec w.insertDelimiter unit

theorem dequeued_keeps (w : StreamWriter σ) :
    w.dequeued.channel = w.channel ∧ w.dequeued.bytesWritten = w.bytesWritten := by
  rw [dequeued]
  split <;> exact ⟨rfl, rfl⟩

/-- That an access unit counts changes neither the answer nor the bytes. -/
theorem counted_keeps (outcome : Except Error Unit × StreamWriter σ) :
    (counted outcome).1 = outcome.1 ∧ (counted outcome).2.channel = outcome.2.channel ∧
      (counted outcome).2.bytesWritten = outcome.2.bytesWritten := by
  rcases outcome with ⟨e | _, w⟩ <;> exact ⟨rfl, rfl, rfl⟩

variable [Storage σ]

/-- Calls of a writer come as far as `calls`, one after the other, each from where the one before has
left the writer. -/
inductive Proceeds : StreamWriter σ → List AccessUnit → List Progress → Prop
  | nil (w : StreamWriter σ) : Proceeds w [] []
  | cons {w : StreamWriter σ} {unit : AccessUnit} {p : Progress} {tries : List AccessUnit}
      {calls : List Progress} (of : Progress.Of (w.callUnits unit) p (attempt unit w).1)
      (later : Proceeds (attempt unit w).2 tries calls) : Proceeds w (unit :: tries) (p :: calls)

theorem write_of_appendsWhole (hwhole : AppendsWhole At) {c : Channel σ} (hat : At c.storage out)
    (bytes : List UInt8) :
    (∃ c', c.write bytes = (.ok (), c') ∧ At c'.storage (out ++ bytes)) ∨
      ∃ e c', c.write bytes = (.error e, c') ∧ At c'.storage out := by
  rcases hwhole.write bytes hat with ⟨hok, hat'⟩ | ⟨failure, hfails, hat'⟩
  · exact .inl ⟨_, Prod.ext (congrArg (Except.mapError Error.storage) hok) rfl, hat'⟩
  · exact .inr ⟨_, _, Prod.ext (congrArg (Except.mapError Error.storage) hfails) rfl, hat'⟩

/-- **The three fates of a NAL unit.** -/
theorem exists_progress_writeUnit (hwhole : AppendsWhole At) (hat : At w.channel.storage out)
    (c : StartCode) (payload : List UInt8) :
    ∃ p, Progress.Of [(c, payload)] p (w.writeUnit c payload).1 ∧
      Comes At w out p (w.writeUnit c payload).2 := by
  rw [writeUnit]
  rcases write_of_appendsWhole hwhole hat c.bytes with
    ⟨channel, hcode, hat'⟩ | ⟨e, channel, hcode, hat'⟩ <;> rw [hcode]
  · rcases write_of_appendsWhole hwhole hat' payload with
      ⟨channel', hpayload, hat''⟩ | ⟨e, channel', hpayload, hat''⟩ <;> simp only [hpayload]
    · refine ⟨⟨[(c, payload)], none⟩, .done _, ?_, ?_⟩
      · rw [Progress.taken_none, written_cons, written, List.flatMap_nil, List.append_nil,
          ← List.append_assoc]
        exact hat''
      · rw [written_cons, written, List.flatMap_nil, List.append_nil, List.length_append,
          StartCode.length_bytes, ← Nat.add_assoc]
    · exact ⟨⟨[], some c⟩, .cut [] (c, payload) [] e, hat'', rfl⟩
  · exact ⟨⟨[], none⟩, .refused [] (c, payload) [] e, comes_nowhere hat' rfl⟩

/-- A call that fails writes a first part of its units. -/
theorem exists_progress_writeUnits (hwhole : AppendsWhole At) (hat : At w.channel.storage out)
    (units : List CodedUnit) :
    ∃ p, Progress.Of units p (w.writeUnits units).1 ∧ Comes At w out p (w.writeUnits units).2 := by
  induction units generalizing w out with
  | nil => exact ⟨⟨[], none⟩, .done [], comes_nowhere hat rfl⟩
  | cons u rest ih =>
    obtain ⟨c, payload⟩ := u
    obtain ⟨p, hof, hcomes⟩ := exists_progress_writeUnit hwhole hat c payload
    rw [writeUnits]
    rcases hwrite : w.writeUnit c payload with ⟨e | _, w₁⟩ <;> rw [hwrite] at hof hcomes
    · exact ⟨p, hof.append rest, hcomes⟩
    · obtain rfl := hof.eq_of_ok
      have hat' := hcomes.place
      rw [Progress.taken_none] at hat'
      obtain ⟨p, hof', hcomes'⟩ := ih hat'
      exact ⟨_, hof'.cons _, hcomes.cons hcomes'⟩

/-- **A call of the writer** comes some way with its units. -/
theorem exists_progress_attempt (hwhole : AppendsWhole At) (hat : At w.channel.storage out)
    (unit : AccessUnit) :
    ∃ p, Progress.Of (w.callUnits unit) p (attempt unit w).1 ∧
      Comes At w out p (attempt unit w).2 := by
  rw [attempt, callUnits]
  rcases eq_or_ne unit [] with rfl | hne
  · exact ⟨⟨[], none⟩, .done [], comes_nowhere hat rfl⟩
  obtain ⟨hchannel, hcount⟩ := w.dequeued_keeps
  have hat' : At w.dequeued.channel.storage out := hchannel ▸ hat
  rw [if_neg hne, writeAccessUnit_of_ne_nil w hne]
  generalize w.aheadUnits ++ unitsOf w.codec w.insertDelimiter unit = units
  obtain ⟨p, hof, hplace, hbytes⟩ := exists_progress_writeUnits hwhole hat' units
  obtain ⟨hanswer, hchannel', hcount'⟩ := counted_keeps (w.dequeued.writeUnits units)
  refine ⟨p, ?_, ?_, ?_⟩
  · rw [hanswer]
    exact hof
  · rw [hchannel']
    exact hplace
  · rw [hcount', hbytes, hcount]

theorem exists_proceeds (hwhole : AppendsWhole At) (hat : At w.channel.storage out)
    (tries : List AccessUnit) :
    let w' := ((tries.mapM attempt).run w).2
    ∃ calls : List Progress, Proceeds w tries calls ∧
      At w'.channel.storage (out ++ calls.flatMap Progress.taken) ∧
      w'.bytesWritten = w.bytesWritten + (calls.flatMap fun p => written p.units).length := by
  induction tries generalizing w out with
  | nil => exact ⟨[], .nil w, by rwa [List.flatMap_nil, List.append_nil], rfl⟩
  | cons unit tries ih =>
    obtain ⟨p, hof, hplace, hbytes⟩ := exists_progress_attempt hwhole hat unit
    obtain ⟨calls, hlater, hplace', hbytes'⟩ := ih hplace
    rw [run_mapM_cons]
    refine ⟨p :: calls, .cons hof hlater, ?_, ?_⟩
    · rwa [List.flatMap_cons, ← List.append_assoc]
    · rw [hbytes', hbytes, List.flatMap_cons, List.length_append, Nat.add_assoc]

/-- **The count of written bytes is exact if and only if no start code stands alone.**  Over storage of
which each write takes all of its bytes or none, calls of a writer are made, and any of them may fail.
Each comes some way with its units, and the storage has taken what they wrote, one behind the other.
What the writer has counted of it lacks the start codes whose payload was not written, and nothing
else. -/
theorem bytesWritten_eq_taken_iff (hwhole : AppendsWhole At) (hat : At w.channel.storage out)
    (tries : List AccessUnit) :
    let w' := ((tries.mapM attempt).run w).2
    ∃ calls : List Progress, Proceeds w tries calls ∧
      let taken := calls.flatMap Progress.taken
      At w'.channel.storage (out ++ taken) ∧
      w'.bytesWritten + (calls.flatMap Progress.strayBytes).length =
        w.bytesWritten + taken.length ∧
      (w'.bytesWritten = w.bytesWritten + taken.length ↔ ∀ p ∈ calls, p.stray = none) := by
  intro w'
  obtain ⟨calls, hcalls, hplace, hbytes⟩ := exists_proceeds hwhole hat tries
  have hlength := Progress.length_flatMap_taken calls
  refine ⟨calls, hcalls, hplace, ?_, ?_⟩
  · rw [show w'.bytesWritten = _ from hbytes, hlength]
    omega
  · rw [show w'.bytesWritten = _ from hbytes, hlength,
      ← Progress.length_flatMap_strayBytes_eq_zero_iff]
    omega

/-- The start code of a slice is written and its payload is not; the second attempt writes both. -/
theorem bytesWritten_eq_taken_iff_stray :
    let storage : ScriptedStore := ⟨.ofList [], [some 0, none]⟩
    let w : StreamWriter ScriptedStore := ofChannel (.ofStorage storage) .h264
    let unit : AccessUnit := [.ofPayload [0x65, 0x88]]
    let run := ([unit, unit].mapM attempt).run w
    AppendsWhole ScriptedStore.Holds ∧ w.channel.storage.Holds [] ∧
      run.1 = [.error (.storage .system), .ok ()] ∧
      run.2.channel.storage.Holds [0, 0, 0, 1, 0, 0, 0, 1, 0x65, 0x88] ∧
      run.2.bytesWritten = 6 ∧
      ∃ calls : List Progress, Proceeds w [unit, unit] calls ∧ ¬∀ p ∈ calls, p.stray = none := by
  intro storage w unit run
  obtain ⟨calls, hcalls, hplace, -, hiff⟩ := bytesWritten_eq_taken_iff ScriptedStore.appendsWhole
    (show ScriptedStore.Holds w.channel.storage [] from rfl) [unit, unit]
  have hstore : run.2.channel.storage.store =
      ⟨#[0, 0, 0, 1, 0, 0, 0, 1, 0x65, 0x88], 10⟩ := by decide +kernel
  have hcount : run.2.bytesWritten = 6 := by decide +kernel
  have htaken : (calls.flatMap Progress.taken).length = 10 :=
    congrArg MemoryStore.position (hplace.symm.trans hstore)
  refine ⟨ScriptedStore.appendsWhole, rfl, by decide +kernel, hstore, hcount, calls, hcalls, ?_⟩
  rw [← hiff, htaken, show ((([unit, unit].mapM attempt).run w).2).bytesWritten = 6 from hcount]
  decide

end StreamWriter
end AnnexB
