/-
# Access units begun and ended

An extractor holds back one sample.  So of the access units that it has begun, all but that of this
sample have given out their last sample, whatever the stream is (`Extractor.Counts`).

A round of a reader calls its extractor once, or leaves it alone (`Extracts`).  So a reader keeps the
same up, over any storage and past any error (`StreamReader.Tracks`): the access units begun are the
marked samples handed out, and one more while a sample is held back (`tracks_after`).
-/

import AnnexB.Proofs.Sources

namespace AnnexB

namespace Extractor

variable {e e' : Extractor} {ended n : Nat} {buffer data : List UInt8} {extent : Extent}
  {sample : Option Sample} {samples : List Sample}

/-! ### The sample held back -/

/-- Of the access units that the extractor has begun, `ended` have given out their last sample; the one
of the sample held back has not. -/
structure Counts (e : Extractor) (ended : Nat) : Prop where
  unitCount : e.unitCount = ended + e.pending.toList.length
  startsUnit : e.pending = none → e.startsUnit = true

theorem Counts.prime (h : Counts e ended) (first : List UInt8) : Counts (e.prime first) ended := by
  unfold Extractor.prime
  split
  · exact h
  · exact ⟨h.unitCount, fun _ => rfl⟩

theorem pending_prime (e : Extractor) (first : List UInt8) : (e.prime first).pending = e.pending := by
  unfold prime
  split <;> rfl

/-- A step gives out the sample held back, and holds back another one. -/
theorem pending_step (c : StartCode) (payload : List UInt8) (next : Option NalHeader) :
    (e.step c payload next).1 = e.pending.map (·.withMarker e.startsUnit) ∧
      (e.step c payload next).2.pending.isSome = true := by
  cases next <;> exact ⟨rfl, rfl⟩

/-- **A step ends an access unit exactly where it begins one**, but for the first. -/
theorem Counts.step (h : Counts e ended) (c : StartCode) (payload : List UInt8)
    (next : Option NalHeader) :
    Counts (e.step c payload next).2
      (ended + (e.step c payload next).1.toList.countP (·.marker)) := by
  obtain ⟨hgiven, hheld⟩ := e.pending_step c payload next
  have hbegun : (e.step c payload next).2.unitCount = e.beginUnit.unitCount := by
    unfold Extractor.step
    cases next <;> rfl
  obtain ⟨s, hs⟩ := Option.isSome_iff_exists.1 hheld
  refine ⟨?_, fun hnone => by simp [hs] at hnone⟩
  rw [hbegun, hgiven, hs, Option.toList_some, List.length_singleton]
  cases hstarts : e.startsUnit with
  | true =>
    rw [(beginUnit_of_starts hstarts).2, h.unitCount]
    cases e.pending <;> rfl
  | false =>
    rw [beginUnit_of_not_starts hstarts, h.unitCount]
    cases hpending : e.pending with
    | none => simp [h.startsUnit hpending] at hstarts
    | some held => rfl

/-- A call that takes a unit is a step. -/
theorem exists_step_of_extract
    (call : e.extract buffer extent = (.ok ⟨sample, .consumed n⟩, e')) :
    ∃ first c payload next, (e.prime first).step c payload next = (sample, e') := by
  rcases Nat.lt_or_ge buffer.length minUnitSize with hshort | hlong
  · rw [extract_of_short hshort] at call
    cases extent <;> simp at call
  rcases hc : StartCode.leading? buffer with _ | c
  · rw [extract_of_leading?_none hlong hc] at call
    simp at call
  rw [extract_of_leading? hlong hc] at call
  rcases hnext : findNext e.codec buffer extent with ⟨m, header⟩ | _ | _ <;> rw [hnext] at call
  · simp only [takeFront, Prod.mk.injEq, Except.ok.injEq, Extraction.mk.injEq] at call
    obtain ⟨⟨hsample, -⟩, hstate⟩ := call
    exact ⟨_, c, _, some header, Prod.ext hsample hstate⟩
  · simp only [takeFront, Prod.mk.injEq, Except.ok.injEq, Extraction.mk.injEq] at call
    obtain ⟨⟨hsample, -⟩, hstate⟩ := call
    exact ⟨_, c, _, none, Prod.ext hsample hstate⟩
  · simp at call

/-- A call that takes a unit gives out a sample exactly where one was held back. -/
theorem isSome_of_extract (call : e.extract buffer extent = (.ok ⟨sample, .consumed n⟩, e')) :
    sample.isSome = e.pending.isSome ∧ e'.pending.isSome = true := by
  obtain ⟨first, c, payload, next, hstep⟩ := exists_step_of_extract call
  obtain ⟨hgiven, hheld⟩ := (e.prime first).pending_step c payload next
  rw [hstep, pending_prime] at hgiven
  rw [hstep] at hheld
  refine ⟨?_, hheld⟩
  rw [show sample = _ from hgiven, Option.isSome_map]

theorem Counts.extract (h : Counts e ended)
    (call : e.extract buffer extent = (.ok ⟨sample, .consumed n⟩, e')) :
    Counts e' (ended + sample.toList.countP (·.marker)) := by
  obtain ⟨first, c, payload, next, hstep⟩ := exists_step_of_extract call
  have hcounts := (h.prime first).step c payload next
  rwa [hstep] at hcounts

/-- At the end of the stream, the sample held back is given out as the last of its access unit. -/
theorem flush_of_extract (call : e.extract buffer extent = (.ok ⟨sample, .endOfStream⟩, e')) :
    sample = e.pending.map (·.withMarker true) ∧ e' = { e with pending := none } := by
  have hgives := e.extract_gives buffer extent
  rw [call] at hgives
  cases hgives with
  | stops => exact ⟨rfl, rfl⟩

/-- A sample held back is one of those to come. -/
theorem Drains.ne_nil (h : Drains e data samples e') (hheld : e.pending.isSome = true) :
    samples ≠ [] := by
  obtain ⟨s, hs⟩ := Option.isSome_iff_exists.1 hheld
  cases h with
  | stop answer =>
    rw [(flush_of_extract answer).1, hs]
    exact List.cons_ne_nil _ _
  | consume answer later =>
    obtain ⟨t, ht⟩ := Option.isSome_iff_exists.1 ((isSome_of_extract answer).1.trans hheld)
    rw [ht]
    exact List.cons_ne_nil _ _

/-- Of an access unit, one sample is marked. -/
theorem countP_of_isMarked {unit : AccessUnit} (h : IsMarked unit) :
    unit.countP (·.marker) = 1 := by
  induction unit with
  | nil => exact h.elim
  | cons s rest ih =>
    rcases rest with _ | ⟨t, rest⟩
    · exact List.countP_cons_of_pos h
    · rw [List.countP_cons_of_neg (by rw [h.1]; decide), ih h.2]

theorem countP_flatten_of_isMarked {units : List AccessUnit} (h : ∀ unit ∈ units, IsMarked unit) :
    units.flatten.countP (·.marker) = units.length := by
  induction units with
  | nil => rfl
  | cons unit rest ih =>
    rw [List.flatten_cons, List.countP_append, countP_of_isMarked (h unit (List.mem_cons_self ..)),
      ih fun u hu => h u (List.mem_cons_of_mem _ hu), List.length_cons, Nat.add_comm]

theorem marker_getLast?_of_isMarked {unit : AccessUnit} (h : IsMarked unit) :
    ∃ s ∈ unit.getLast?, s.marker = true := by
  induction unit with
  | nil => exact h.elim
  | cons s rest ih =>
    rcases rest with _ | ⟨t, rest⟩
    · exact ⟨s, rfl, h⟩
    · obtain ⟨u, hu, hmarked⟩ := ih h.2
      exact ⟨u, by rwa [List.getLast?_cons_cons], hmarked⟩

end Extractor

namespace StreamReader

variable {σ : Type} {r r' r₁ : StreamReader σ} {ended : Nat}

/-! ### Access units begun and ended -/

/-- Of the access units that the reader has begun, `ended` have given out their last sample; the one
of the sample held back has not.  At the end of the stream no sample is held back. -/
structure Tracks (r : StreamReader σ) (ended : Nat) : Prop where
  unitCount : r.extractor.unitCount = ended + r.extractor.pending.toList.length
  startsUnit : r.finished = false → r.extractor.pending = none → r.extractor.startsUnit = true
  finished : r.finished = true → r.extractor.pending = none

theorem Tracks.congr (h : Tracks r ended) (hextractor : r₁.extractor = r.extractor)
    (hfinished : r₁.finished = r.finished) : Tracks r₁ ended := by
  obtain ⟨hcount, hstarts, hend⟩ := h
  rw [← hextractor] at hcount hstarts hend
  rw [← hfinished] at hstarts hend
  exact ⟨hcount, hstarts, hend⟩

theorem tracks_ofChannel (c : Channel σ) (mediaType : MediaType) (mode : TimestampMode)
    (chunkSize : Nat) : Tracks ((ofChannel c mediaType mode).withChunkSize chunkSize) 0 :=
  ⟨rfl, fun _ _ => rfl, nofun⟩

/-- The samples that an answer gives. -/
def samplesIn : Answer → List Sample
  | some (.ok sample) => sample.toList
  | _ => []

/-- What a round does with its extractor, to the answer and the reader that it leaves. -/
inductive Extracts (r : StreamReader σ) : Answer × StreamReader σ → Prop
  | keeps {answer : Answer} {r' : StreamReader σ} (nothing : samplesIn answer = [])
      (extractor : r'.extractor = r.extractor) (finished : r'.finished = r.finished) :
      Extracts r (answer, r')
  | stops {buffer : List UInt8} {extent : Extent} {sample : Option Sample} {e' : Extractor}
      {r' : StreamReader σ}
      (call : r.extractor.extract buffer extent = (.ok ⟨sample, .endOfStream⟩, e'))
      (extractor : r'.extractor = e') (finished : r'.finished = true) :
      Extracts r (some (.ok sample), r')
  | takes {buffer : List UInt8} {extent : Extent} {sample : Option Sample} {n : Nat}
      {e' : Extractor} {r' : StreamReader σ} (going : r.finished = false)
      (call : r.extractor.extract buffer extent = (.ok ⟨sample, .consumed n⟩, e'))
      (extractor : r'.extractor = e') (finished : r'.finished = false) :
      Extracts r (if sample.isSome then some (.ok sample) else none, r')

theorem Aligns.extractor_eq (h : Aligns r r₁) :
    r₁.extractor = r.extractor ∧ r₁.finished = r.finished := by
  obtain ⟨k, -, rfl⟩ := h.eq_drop
  exact ⟨rfl, rfl⟩

section

variable [Storage σ]

/-- A chunk gives no sample, and leaves the extractor. -/
theorem extracts_readChunk (hextractor : r₁.extractor = r.extractor)
    (hfinished : r₁.finished = r.finished) : Extracts r r₁.readChunk := by
  rw [readChunk, fill]
  rcases r₁.channel.receive r₁.chunkSize with ⟨⟨bytes, _ | failure⟩, channel⟩ <;>
    exact .keeps rfl hextractor hfinished

/-- **A round calls its extractor once, or leaves it alone.** -/
theorem extracts_round (r : StreamReader σ) : Extracts r r.round := by
  obtain ⟨move, hturn⟩ := r.exists_turn
  rw [round_of_turn hturn]
  cases hturn with
  | rests => exact .keeps rfl rfl rfl
  | searches => exact extracts_readChunk rfl rfl
  | loses => exact .keeps rfl rfl rfl
  | waits _ aligns => exact extracts_readChunk aligns.extractor_eq.1 aligns.extractor_eq.2
  | fails _ aligns => exact .keeps rfl aligns.extractor_eq.1 aligns.extractor_eq.2
  | stops _ aligns call => exact .stops (aligns.extractor_eq.1 ▸ call) rfl rfl
  | takes going aligns call =>
    exact .takes going (aligns.extractor_eq.1 ▸ call) rfl (aligns.extractor_eq.2.trans going)

/-- **A round ends as many access units as it gives out marked samples.** -/
theorem tracks_round (h : Tracks r ended) :
    Tracks r.round.2 (ended + (samplesIn r.round.1).countP (·.marker)) := by
  have hextracts := r.extracts_round
  generalize r.round = answer at hextracts ⊢
  cases hextracts with
  | keeps nothing extractor finished =>
    rw [nothing]
    exact h.congr extractor finished
  | stops call extractor finished =>
    obtain ⟨rfl, rfl⟩ := Extractor.flush_of_extract call
    refine ⟨?_, fun going => absurd (finished.symm.trans going) nofun, fun _ => ?_⟩
    · rw [extractor]
      change r.extractor.unitCount = _
      rw [h.unitCount]
      cases r.extractor.pending <;> rfl
    · rw [extractor]
  | @takes _ _ sample _ e' r' going call extractor finished =>
    obtain ⟨hcount, hstarts⟩ := Extractor.Counts.extract ⟨h.unitCount, h.startsUnit going⟩ call
    have hgiven : samplesIn (if sample.isSome then some (.ok sample) else none) =
        sample.toList := by
      cases sample <;> rfl
    rw [hgiven]
    refine ⟨?_, fun _ => ?_, fun hend => absurd (finished.symm.trans hend) nofun⟩
    · rw [extractor, hcount]
    · rw [extractor]
      exact hstarts

theorem tracks_rounds (h : Tracks r ended) (limit : Nat) :
    Tracks (r.rounds limit).2
      (ended + (samplesIn (some (r.rounds limit).1)).countP (·.marker)) := by
  induction limit generalizing r ended with
  | zero => exact h
  | succ limit ih =>
    have hround := tracks_round h
    rw [rounds]
    rcases hr : r.round with ⟨_ | answer, r'⟩ <;> rw [hr] at hround
    · exact ih hround
    · exact hround

theorem tracks_collect (h : Tracks r ended) {earlier : List Sample}
    (hearlier : earlier.countP (·.marker) = 0) (limit : Nat) :
    Tracks (r.collect earlier limit).2
      (ended + (((r.collect earlier limit).1.toOption.getD []).countP (·.marker))) := by
  induction limit generalizing r earlier with
  | zero =>
    change Tracks r (ended + earlier.reverse.countP _)
    rwa [List.countP_reverse, hearlier]
  | succ limit ih =>
    have hsample : Tracks r.nextSample.2
        (ended + (samplesIn (some r.nextSample.1)).countP (·.marker)) := tracks_rounds h _
    rw [collect]
    rcases hnext : r.nextSample with ⟨e | _ | s, r'⟩ <;> rw [hnext] at hsample
    · exact hsample
    · change Tracks r' (ended + earlier.reverse.countP _)
      rwa [List.countP_reverse, hearlier]
    · cases hmarker : s.marker with
      | true =>
        change Tracks r' (ended + [s].countP _) at hsample
        simp only [hmarker, if_true]
        change Tracks r' (ended + (s :: earlier).reverse.countP _)
        rwa [List.countP_reverse, ← List.singleton_append, List.countP_append, hearlier]
      | false =>
        change Tracks r' (ended + [s].countP _) at hsample
        have hplain : ¬s.marker = true := by rw [hmarker]; decide
        simp only [hmarker, Bool.false_eq_true, if_false]
        rw [List.countP_cons_of_neg hplain] at hsample
        exact ih hsample (by rwa [List.countP_cons_of_neg hplain])

/-- A call of the reader ends the access unit that it hands out. -/
theorem tracks_next (h : Tracks r ended) :
    Tracks r.next.2 (ended + r.next.1.countP (·.marker)) := by
  rw [next]
  split
  · exact h
  · have hcollect := tracks_collect h List.countP_nil (r.roundsLeft + 2)
    rw [readUnit]
    rcases hread : r.collect [] (r.roundsLeft + 2) with ⟨e | _ | ⟨s, samples⟩, r'⟩ <;>
      rw [hread] at hcollect
    · exact hcollect.congr rfl rfl
    · exact hcollect
    · exact hcollect

theorem tracks_after (h : Tracks r ended) (calls : Nat) :
    Tracks (MediaSource.after r calls)
      (ended + (MediaSource.given r calls).flatten.countP (·.marker)) := by
  induction calls generalizing r ended with
  | zero => exact h
  | succ calls ih =>
    have hlater := ih (tracks_next h)
    have hfirst : (if (MediaSource.next r).1.isEmpty then [] else [(MediaSource.next r).1]).flatten =
        (MediaSource.next r).1 := by
      split
      · rename_i hempty
        exact (List.isEmpty_iff.1 hempty).symm
      · exact List.flatten_singleton
    rw [MediaSource.after, MediaSource.given, List.flatten_append, hfirst, List.countP_append,
      ← Nat.add_assoc]
    exact hlater

end

end StreamReader

end AnnexB
