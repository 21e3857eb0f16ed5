/-
# How a stream reader ends

A sample is only given out when the next one takes its place, or when the stream ends (`Holds`).  Over
storage that delivers its bytes, a sample that is held back is one of those to come.  So once a reader
has handed out an access unit, it is good if and only if another one comes (`Lives.isGood_iff`), and the
call that hands out the last one also meets the end of the stream (`isGood_iff_next_ne_nil`).
-/

import AnnexB.Proofs.Begun

namespace AnnexB

namespace StreamReader

variable {σ : Type} {r r' r₁ : StreamReader σ}

/-! ### The sample that comes next -/

/-- The reader holds back a sample, or has met the end of the stream. -/
def Holds (r : StreamReader σ) : Prop := r.finished = true ∨ r.extractor.pending.isSome = true

section

variable [Storage σ] {s : Sample} {unit : AccessUnit}

/-- A sample is given out where the next one is held back, or at the end of the stream. -/
theorem holds_of_round (h : r.round = (some (.ok (some s)), r')) : Holds r' := by
  have hextracts := r.extracts_round
  generalize hround : r.round = answer at hextracts
  rw [h] at hround
  cases hextracts with
  | keeps nothing =>
    cases hround
    exact absurd nothing (List.cons_ne_nil _ _)
  | stops _ _ finished =>
    cases hround
    exact .inl finished
  | @takes _ _ sample _ e' r₁ _ call extractor _ =>
    obtain ⟨-, rfl⟩ := Prod.mk.inj hround
    right
    rw [extractor]
    exact (Extractor.isSome_of_extract call).2

/-- An error leaves the extractor as it was. -/
theorem extractor_of_round_error {e : Error} (h : r.round = (some (.error e), r')) :
    r'.extractor = r.extractor := by
  have hextracts := r.extracts_round
  generalize hround : r.round = answer at hextracts
  rw [h] at hround
  cases hextracts with
  | keeps _ extractor =>
    cases hround
    exact extractor
  | stops => cases hround
  | @takes _ _ sample => cases sample <;> cases hround

theorem holds_of_nextSample (h : r.nextSample = (.ok (some s), r')) : Holds r' := by
  rw [nextSample] at h
  generalize r.roundsLeft + 1 = limit at h
  induction limit generalizing r with
  | zero => cases h
  | succ limit ih =>
    rw [rounds] at h
    rcases hr : r.round with ⟨_ | answer, r₁⟩ <;> rw [hr] at h
    · exact ih h
    · cases h
      exact holds_of_round hr

/-- Samples that end with a marked one were collected up to that one. -/
theorem holds_of_collect {earlier samples : List Sample} {limit : Nat}
    (hearlier : ∀ t ∈ earlier.head?, t.marker = false)
    (h : r.collect earlier limit = (.ok samples, r'))
    (hlast : ∃ t ∈ samples.getLast?, t.marker = true) : Holds r' := by
  obtain ⟨t, ht, hmarked⟩ := hlast
  have hother : ¬samples = earlier.reverse := by
    rintro rfl
    rw [List.getLast?_reverse] at ht
    rw [hearlier t ht] at hmarked
    cases hmarked
  induction limit generalizing r earlier with
  | zero => cases h; exact absurd rfl hother
  | succ limit ih =>
    rw [collect] at h
    rcases hnext : r.nextSample with ⟨e | _ | s, r₁⟩ <;> rw [hnext] at h
    · cases h
    · cases h; exact absurd rfl hother
    · cases hmarker : s.marker with
      | true =>
        simp only [hmarker, if_true] at h
        cases h
        exact holds_of_nextSample hnext
      | false =>
        simp only [hmarker, Bool.false_eq_true, if_false] at h
        refine @ih _ (s :: earlier) (by simpa using hmarker) h ?_
        rintro rfl
        rw [List.getLast?_reverse, List.head?_cons, Option.mem_def, Option.some.injEq] at ht
        rw [← ht, hmarker] at hmarked
        cases hmarked

/-- Once a reader has handed out an access unit, it holds back a sample, or the stream is at its
end. -/
theorem holds_of_next (hunit : Extractor.IsMarked unit) (h : r.next = (unit, r')) : Holds r' := by
  rw [next, readUnit] at h
  split at h
  · cases h
    exact hunit.elim
  · rcases hread : r.collect [] (r.roundsLeft + 2) with ⟨e | _ | ⟨s, samples⟩, r₁⟩ <;>
      rw [hread] at h <;> cases h
    · exact hunit.elim
    · exact hunit.elim
    · exact holds_of_collect (by simp) hread (Extractor.marker_getLast?_of_isMarked hunit)

end

variable {Serves : σ → List UInt8 → Prop} {rest : List UInt8} {samples : List Sample}
  {units : List AccessUnit}

/-- A sample held back is one of those to come. -/
theorem Ready.ne_nil (h : Ready Serves r rest samples)
    (hheld : r.extractor.pending.isSome = true) : samples ≠ [] := by
  rcases h with hsynced | hsearching
  · obtain ⟨e', hdrains⟩ := hsynced.drains
    exact hdrains.ne_nil hheld
  · obtain ⟨mediaType, mode, hfresh, -⟩ := hsearching.fresh
    rw [hfresh] at hheld
    cases hheld

/-- The reader hands out `units`, and nothing after them.  One that was lost to an error has no sample
left. -/
structure Runs (Serves : σ → List UInt8 → Prop) (r : StreamReader σ) (units : List AccessUnit) :
    Prop where
  plays : Plays Serves r units
  lost : r.intact = false → r.extractor.pending = none

/-- The same of a reader that has handed out an access unit. -/
structure Lives (Serves : σ → List UInt8 → Prop) (r : StreamReader σ) (units : List AccessUnit) :
    Prop extends Runs Serves r units where
  holds : Holds r

/-- A new reader hands out the access units of its stream. -/
theorem runs_ofChannel {c : Channel σ} {data : List UInt8} (h : c.Pending Serves data)
    (mediaType : MediaType) (mode : TimestampMode) (chunkSize : Nat) :
    Runs Serves ((ofChannel c mediaType mode).withChunkSize chunkSize)
      (Extractor.accessUnits mediaType.codec mode.stamp (.ofCodec mediaType.codec) data) :=
  ⟨plays_ofChannel h mediaType mode chunkSize, nofun⟩

theorem Runs.isMarked (h : Runs Serves r units) : ∀ unit ∈ units, Extractor.IsMarked unit := by
  rcases h.plays with ⟨-, hmarked⟩ | ⟨rfl, -⟩
  · exact hmarked
  · exact nofun

/-- **A reader that has handed out an access unit is good if and only if another one comes.** -/
theorem Lives.isGood_iff (h : Lives Serves r units) : r.isGood = true ↔ units ≠ [] := by
  obtain ⟨⟨hplays, -⟩, hholds⟩ := h
  rw [isGood]
  rcases hplays with ⟨hgives, hmarked⟩ | ⟨rfl, hlost⟩
  · have hnil : units.flatten = [] → units = [] := by
      intro hflat
      rcases units with _ | ⟨_ | ⟨s, unit⟩, later⟩
      · rfl
      · exact (hmarked [] (List.mem_cons_self ..)).elim
      · cases hflat
    generalize hsamples : units.flatten = samples at hgives hnil
    cases hgives with
    | ready ready =>
      have hgoing := ready.isOpen.finished
      have hheld := hholds.resolve_left (by rw [hgoing]; decide)
      rw [ready.isOpen.intact, hgoing]
      refine iff_of_true rfl ?_
      rintro rfl
      exact ready.ne_nil hheld hsamples.symm
    | finished finished intact =>
      rw [finished, intact]
      exact iff_of_false (by decide) (not_not.2 (hnil rfl))
  · rw [hlost, Bool.false_and]
    exact iff_of_false (by decide) (not_not.2 rfl)

variable [Storage σ]

/-- An error where nothing is to come leaves no sample behind. -/
theorem pending_of_rounds_error (hdelivers : Delivers Serves) (h : Ready Serves r rest samples)
    (hnil : samples = []) {limit : Nat} {e : Error} (herror : r.rounds limit = (.error e, r')) :
    r'.extractor.pending = none := by
  induction limit generalizing r rest samples with
  | zero => cases herror
  | succ limit ih =>
    have hround := round_of_ready hdelivers h
    rw [rounds] at herror
    rcases hr : r.round with ⟨_ | answer, r₁⟩ <;> rw [hr] at hround herror
    · cases hround with
      | goesOn ready => exact ih ready hnil herror
    · cases herror
      rw [extractor_of_round_error hr]
      exact Option.not_isSome_iff_eq_none.1 fun hheld => h.ne_nil hheld hnil

theorem pending_of_nextSample_error (hdelivers : Delivers Serves) (h : Gives Serves r []) {e : Error}
    (herror : r.nextSample = (.error e, r')) : r'.extractor.pending = none := by
  generalize hnil : ([] : List Sample) = samples at h
  cases h with
  | ready ready => exact pending_of_rounds_error hdelivers ready hnil.symm herror
  | finished finished =>
    rw [nextSample, rounds, round, if_pos finished] at herror
    cases herror

/-- **A call hands out the access unit that comes,** and leaves those behind it. -/
theorem next_of_runs (hdelivers : Delivers Serves) (h : Runs Serves r units) :
    ∃ r', r.next = (units.headD [], r') ∧ Runs Serves r' units.tail := by
  obtain ⟨r', hnext, hplays⟩ := next_of_plays hdelivers h.plays
  refine ⟨r', hnext, hplays, fun hlost => ?_⟩
  rcases h.plays with ⟨hgives, hmarked⟩ | ⟨rfl, hbefore⟩
  · rw [next, if_neg (by simp [hgives.intact]), readUnit] at hnext
    rcases units with _ | ⟨unit, later⟩
    · have hanswers := nextSample_of_gives hdelivers hgives
      rw [collect] at hnext
      rcases hcall : r.nextSample with ⟨e | _ | s, r₁⟩ <;> rw [hcall] at hanswers hnext
      · have hnone := pending_of_nextSample_error hdelivers hgives hcall
        cases hnext
        exact hnone
      · cases hanswers with
        | stop gives =>
          cases hnext
          rw [gives.intact] at hlost
          cases hlost
      · cases hanswers
    · obtain ⟨r₁, hread, hgives₁⟩ :=
        readUnit_of_gives hdelivers (hmarked unit (List.mem_cons_self ..)) hgives
      rw [← readUnit, hread] at hnext
      cases hnext
      rw [hgives₁.intact] at hlost
      cases hlost
  · rw [next, hbefore] at hnext
    cases hnext
    exact h.lost hbefore

theorem next_of_lives (hdelivers : Delivers Serves) (h : Lives Serves r units) :
    ∃ r', r.next = (units.headD [], r') ∧ Lives Serves r' units.tail := by
  obtain ⟨r', hnext, hruns⟩ := next_of_runs hdelivers h.toRuns
  refine ⟨r', hnext, hruns, ?_⟩
  rcases units with _ | ⟨unit, later⟩
  · have hend : r.isGood = false := Bool.eq_false_iff.2 fun hgood => h.isGood_iff.1 hgood rfl
    obtain ⟨-, rfl⟩ := Prod.mk.inj ((spent_of_not_isGood hend).next.symm.trans hnext)
    exact h.holds
  · exact holds_of_next (h.toRuns.isMarked unit (List.mem_cons_self ..)) hnext

/-- From its first access unit on, a reader is good as long as another one comes. -/
theorem isGood_after_iff (hdelivers : Delivers Serves) (h : Runs Serves r units)
    (hgood : r.isGood = true) (hne : units ≠ []) (calls : Nat) :
    (MediaSource.after r calls).isGood = true ↔ calls < units.length := by
  obtain ⟨unit, later, rfl⟩ := List.exists_cons_of_ne_nil hne
  rcases calls with _ | calls
  · exact iff_of_true hgood (Nat.succ_pos _)
  · obtain ⟨r', hnext, hruns⟩ := next_of_runs hdelivers h
    have hlives : Lives Serves r' later :=
      ⟨hruns, holds_of_next (h.isMarked unit (List.mem_cons_self ..)) hnext⟩
    have hafter := MediaSource.after_of_plays (fun r units => next_of_lives hdelivers) hlives calls
    rw [MediaSource.after, show (MediaSource.next r).2 = r' from congrArg Prod.snd hnext,
      hafter.isGood_iff, ne_eq, List.drop_eq_nil_iff, Nat.not_le, List.length_cons,
      Nat.succ_lt_succ_iff]

/-- **A good reader has more to give.**  Its calls hand out the access units of the stream one after the
other, each marked at its last sample only.  Once it has handed out one of them, it is good if and only
if the next call hands out another, so the call that hands out the last one leaves it not good.  Where
it is not good any more, it counts the access units handed out. -/
theorem isGood_iff_next_ne_nil (hdelivers : Delivers Serves) {c : Channel σ} {data : List UInt8}
    (hc : c.Pending Serves data) (mediaType : MediaType) (mode : TimestampMode)
    (chunkSize calls : Nat) :
    let source := (ofChannel c mediaType mode).withChunkSize chunkSize
    let units :=
      Extractor.accessUnits mediaType.codec mode.stamp (.ofCodec mediaType.codec) data
    let r := MediaSource.after source calls
    MediaSource.given source calls = units.take calls ∧
      (MediaSource.next r).1 = units[calls]?.getD [] ∧
      ((MediaSource.next r).1 ≠ [] → Extractor.IsMarked (MediaSource.next r).1) ∧
      (MediaSource.given source calls ≠ [] →
        (MediaSource.isGood r = true ↔ (MediaSource.next r).1 ≠ [])) ∧
      (units ≠ [] → (MediaSource.isGood r = true ↔ calls < units.length)) ∧
      (MediaSource.isGood r = false →
        r.extractor.unitCount = (MediaSource.given source calls).length) := by
  intro source units r
  have hruns : Runs Serves source units := runs_ofChannel hc mediaType mode chunkSize
  have hstep : ∀ r units, Runs Serves r units →
      ∃ r', MediaSource.next r = (units.headD [], r') ∧ Runs Serves r' units.tail :=
    fun r units => next_of_runs hdelivers
  have hlater : Runs Serves r (units.drop calls) := MediaSource.after_of_plays hstep hruns calls
  have hgiven : MediaSource.given source calls = units.take calls :=
    MediaSource.given_eq_take hstep hruns Extractor.ne_nil_of_mem_accessUnits calls
  have hnext : (MediaSource.next r).1 = units[calls]?.getD [] := by
    obtain ⟨r', hnext, -⟩ := hstep r _ hlater
    rw [hnext, List.headD_eq_head?_getD, List.head?_drop]
  have hgood : units ≠ [] → (MediaSource.isGood r = true ↔ calls < units.length) := fun hne =>
    isGood_after_iff hdelivers hruns rfl hne calls
  have hsome : (MediaSource.next r).1 ≠ [] ↔ calls < units.length := by
    rw [hnext]
    rcases Nat.lt_or_ge calls units.length with hlt | hge
    · rw [List.getElem?_eq_getElem hlt, Option.getD_some]
      exact iff_of_true (Extractor.ne_nil_of_mem_accessUnits _ (List.getElem_mem hlt)) hlt
    · rw [List.getElem?_eq_none hge, Option.getD_none]
      exact iff_of_false (not_not.2 rfl) (by omega)
  refine ⟨hgiven, hnext, fun hne => ?_, fun hfirst => ?_, hgood, fun hend => ?_⟩
  · have hlt := hsome.1 hne
    rw [hnext, List.getElem?_eq_getElem hlt, Option.getD_some]
    exact Extractor.isMarked_of_mem_accessUnits _ (List.getElem_mem hlt)
  · have hne : units ≠ [] := by
      rintro hnil
      rw [hgiven, hnil, List.take_nil] at hfirst
      exact hfirst rfl
    rw [hgood hne, hsome]
  · have htracks : Tracks r _ := tracks_after (tracks_ofChannel c mediaType mode chunkSize) calls
    have hmarked : ∀ unit ∈ units.take calls, Extractor.IsMarked unit := fun unit hunit =>
      Extractor.isMarked_of_mem_accessUnits _ (List.mem_of_mem_take hunit)
    have hnone : r.extractor.pending = none := by
      rcases Bool.and_eq_false_iff.1 hend with hlost | hfinished
      · exact hlater.lost hlost
      · exact htracks.finished (by simpa using hfinished)
    rw [htracks.unitCount, hnone, hgiven, Extractor.countP_flatten_of_isMarked hmarked]
    exact Nat.zero_add _

/-- Two access units behind other bytes, in front of a unit that is dropped for its length: the call
that hands out the second one ends the reader. -/
theorem isGood_iff_next_ne_nil_dropped :
    let data := [7, 0, 0, 1, 9, 240, 0, 0, 0, 1, 101, 136] ++
      [0, 0, 1, 9, 16, 0, 0, 1, 65, 154, 0, 0, 1, 9]
    let c := Channel.ofStorage (MemoryStore.ofList data)
    let source := (ofChannel c .h264 .untimed).withChunkSize 2
    Delivers (MemoryStore.Serves data) ∧ c.Pending (MemoryStore.Serves data) data ∧
      MediaSource.isGood (MediaSource.after source 1) = true ∧
      (MediaSource.next (MediaSource.after source 1)).1 ≠ [] ∧
      MediaSource.isGood (MediaSource.after source 2) = false ∧
      (MediaSource.after source 2).extractor.unitCount = 2 := by
  intro data c source
  have hdelivers := MemoryStore.delivers data
  have hpending : c.Pending (MemoryStore.Serves data) data :=
    Channel.pending_ofStorage (MemoryStore.serves_ofList data)
  let units := Extractor.accessUnits MediaType.h264.codec TimestampMode.untimed.stamp
    (.ofCodec MediaType.h264.codec) data
  have hlength : units.length = 2 := by decide +kernel
  have hne : units ≠ [] := List.ne_nil_of_length_pos (by rw [hlength]; decide)
  obtain ⟨hfirst, -, -, hmore, hgood, -⟩ :=
    isGood_iff_next_ne_nil hdelivers hpending .h264 .untimed 2 1
  obtain ⟨hgiven, -, -, -, hlast, hcount⟩ :=
    isGood_iff_next_ne_nil hdelivers hpending .h264 .untimed 2 2
  have hgood₁ := (hgood hne).2 (by rw [hlength]; decide)
  have hend : MediaSource.isGood (MediaSource.after source 2) = false :=
    Bool.eq_false_iff.2 fun h => absurd ((hlast hne).1 h) (by rw [hlength]; decide)
  refine ⟨hdelivers, hpending, hgood₁, (hmore ?_).1 hgood₁, hend, ?_⟩
  · rw [hfirst, ← List.length_pos_iff, List.length_take, hlength]
    decide
  · rw [hcount hend, hgiven, List.length_take, hlength]
    decide

end StreamReader

end AnnexB
