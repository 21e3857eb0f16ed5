/-
# What a stream reader hands out

A reader over storage that delivers its bytes hands out what its extractor gives for the whole
stream.  What is still to come is a matter of the accumulator and of the bytes to be read behind it:
once the reader stands at a start code, it is what calls on all of these bytes give (`Synced`), and
before that the access units of the stream they are (`Searching`).

Each round of `nextSample` gives the answer that is due, or lowers the measure of the rounds and
leaves what is to come (`round_of_ready`).  So `nextSample` gives the next sample as long as there
is one (`nextSample_of_gives`), `readUnit` the samples up to the next marked one
(`readUnit_of_gives`), and `next` one access unit after the other (`next_of_plays`).
-/

import AnnexB.Proofs.Rounds
import AnnexB.Proofs.Drain

namespace AnnexB

open StartCodeMatch

namespace StreamReader

variable {σ : Type} {Serves : σ → List UInt8 → Prop} {r r₁ : StreamReader σ}
  {rest : List UInt8} {samples : List Sample}

/-- The reader is at work, and `rest` is what its channel has to deliver. -/
structure Open (Serves : σ → List UInt8 → Prop) (r : StreamReader σ) (rest : List UInt8) :
    Prop extends Fed Serves r rest where
  finished : r.finished = false
  intact : r.intact = true

/-- The reader stands at a start code, and `samples` are to come. -/
structure Synced (Serves : σ → List UInt8 → Prop) (r : StreamReader σ) (rest : List UInt8)
    (samples : List Sample) : Prop where
  isOpen : Open Serves r rest
  synced : r.synced = true
  drains : ∃ e', r.extractor.Drains (r.accumulator ++ rest) samples e'

/-- The reader looks for the first start code, and `samples` are to come. -/
structure Searching (Serves : σ → List UInt8 → Prop) (r : StreamReader σ) (rest : List UInt8)
    (samples : List Sample) : Prop where
  isOpen : Open Serves r rest
  synced : r.synced = false
  fresh : ∃ mediaType mode, r.extractor = .ofMediaType mediaType mode ∧
    samples = (Extractor.accessUnits mediaType.codec mode.stamp (.ofCodec mediaType.codec)
      (r.accumulator ++ rest)).flatten

/-- The reader is at work, and `samples` are to come. -/
def Ready (Serves : σ → List UInt8 → Prop) (r : StreamReader σ) (rest : List UInt8)
    (samples : List Sample) : Prop :=
  Synced Serves r rest samples ∨ Searching Serves r rest samples

theorem Ready.isOpen (h : Ready Serves r rest samples) : Open Serves r rest :=
  h.elim Synced.isOpen Searching.isOpen

/-- The reader has found no error, and `samples` are to come. -/
inductive Gives (Serves : σ → List UInt8 → Prop) (r : StreamReader σ) : List Sample → Prop
  | ready {rest : List UInt8} {samples : List Sample} (ready : Ready Serves r rest samples) :
      Gives Serves r samples
  | finished (finished : r.finished = true) (intact : r.intact = true) : Gives Serves r []

theorem Gives.intact (h : Gives Serves r samples) : r.intact = true := by
  cases h with
  | ready ready => exact ready.isOpen.intact
  | finished _ intact => exact intact

/-- The reader hands out `units`, and nothing after them. -/
def Plays (Serves : σ → List UInt8 → Prop) (r : StreamReader σ) (units : List AccessUnit) : Prop :=
  (Gives Serves r units.flatten ∧ ∀ unit ∈ units, Extractor.IsMarked unit) ∨
    (units = [] ∧ r.intact = false)

/-- A new reader hands out the access units of its stream. -/
theorem plays_ofChannel {c : Channel σ} {data : List UInt8} (h : c.Pending Serves data)
    (mediaType : MediaType) (mode : TimestampMode) (chunkSize : Nat) :
    Plays Serves ((ofChannel c mediaType mode).withChunkSize chunkSize)
      (Extractor.accessUnits mediaType.codec mode.stamp (.ofCodec mediaType.codec) data) :=
  .inl ⟨.ready (.inr ⟨⟨⟨h, nofun, Nat.le_max_right ..⟩, rfl, rfl⟩, rfl, mediaType, mode, rfl, rfl⟩),
    Extractor.isMarked_of_mem_accessUnits⟩

/-! ### Rounds -/

/-- What a round gives: no answer yet and a smaller measure, the next sample, the end, or an error
where nothing is to come. -/
inductive Round (Serves : σ → List UInt8 → Prop) (r : StreamReader σ) (rest : List UInt8) :
    List Sample → Option (Except Error (Option Sample)) × StreamReader σ → Prop
  | goesOn {samples : List Sample} {r' : StreamReader σ} {rest' : List UInt8}
      (ready : Ready Serves r' rest' samples) (less : r'.measure rest' < r.measure rest) :
      Round Serves r rest samples (none, r')
  | gives {s : Sample} {later : List Sample} {r' : StreamReader σ} {rest' : List UInt8}
      (ready : Ready Serves r' rest' later) :
      Round Serves r rest (s :: later) (some (.ok (some s)), r')
  | ends {sample : Option Sample} {r' : StreamReader σ} (finished : r'.finished = true)
      (intact : r'.intact = true) : Round Serves r rest sample.toList (some (.ok sample), r')
  | fails {e : Error} {r' : StreamReader σ} : Round Serves r rest [] (some (.error e), r')

/-- An answer other than a request for data is that to the whole rest of the stream. -/
theorem extract_eq_of_open {answer : Except Error Extraction × Extractor} (h : Open Serves r rest)
    (call : r.extractor.extract r.accumulator r.extent = answer)
    (hne : answer ≠ (.ok ⟨none, .needMoreData⟩, r.extractor)) :
    r.extractor.extract (r.accumulator ++ rest) .complete = answer := by
  rw [extent] at call
  cases hdone : r.inputDone <;> rw [hdone] at call
  · rcases r.extractor.extract_growing r.accumulator .complete rest with hmore | hfinal
    · exact absurd (call.symm.trans hmore) hne
    · exact hfinal.symm.trans call
  · rw [h.inputDone hdone, List.append_nil]
    exact call

/-- What the extractor of a reader at a start code answers, if it does not ask for data. -/
inductive Due (Serves : σ → List UInt8 → Prop) (r : StreamReader σ) (rest : List UInt8) :
    List Sample → Except Error Extraction × Extractor → Prop
  | stop {sample : Option Sample} {e' : Extractor} :
      Due Serves r rest sample.toList (.ok ⟨sample, .endOfStream⟩, e')
  | consume {sample : Option Sample} {n : Nat} {e' : Extractor} {later : List Sample}
      (synced : Synced Serves
        { r with extractor := e', accumulator := r.accumulator.drop n } rest later) :
      Due Serves r rest (sample.toList ++ later) (.ok ⟨sample, .consumed n⟩, e')

theorem Synced.due {answer : Except Error Extraction × Extractor} (h : Synced Serves r rest samples)
    (call : r.extractor.extract r.accumulator r.extent = answer)
    (hne : answer ≠ (.ok ⟨none, .needMoreData⟩, r.extractor)) : Due Serves r rest samples answer := by
  have hwhole := extract_eq_of_open h.isOpen call hne
  obtain ⟨e', hdrains⟩ := h.drains
  cases hdrains with
  | stop hstop =>
    obtain rfl := hstop.symm.trans hwhole
    exact .stop
  | consume hconsume hlater =>
    obtain rfl := hconsume.symm.trans hwhole
    rw [List.drop_append_of_le_length (Extractor.bounds_of_extract call).2] at hlater
    refine .consume ⟨⟨?_, h.isOpen.finished, h.isOpen.intact⟩, h.synced, e', hlater⟩
    exact ⟨h.isOpen.pending, h.isOpen.inputDone, h.isOpen.chunkSize⟩

/-- From a start code in the accumulator on, the samples of the stream are to come. -/
theorem Searching.drains_of_find? (h : Searching Serves r rest samples) {m : StartCodeMatch}
    (hfind : find? r.extent r.accumulator 0 = some m) :
    ∃ e', r.extractor.Drains (r.accumulator.drop m.offset ++ rest) samples e' := by
  obtain ⟨mediaType, mode, hfresh, rfl⟩ := h.fresh
  have hwhole : find? .complete (r.accumulator ++ rest) 0 = some m := by
    rw [extent] at hfind
    cases hdone : r.inputDone <;> rw [hdone] at hfind
    · exact find?_append hfind .complete rest
    · rw [h.isOpen.inputDone hdone, List.append_nil]
      exact hfind
  rw [hfresh, ← List.drop_append_of_le_length (offset_le_of_find? hfind)]
  exact Extractor.drains_ofMediaType_of_find? mediaType mode hwhole

/-- A start code at the front of the accumulator is that of the first unit. -/
theorem Searching.drains_of_leading? (h : Searching Serves r rest samples) {c : StartCode}
    (hlead : StartCode.leading? r.accumulator = some c) :
    ∃ e', r.extractor.Drains (r.accumulator ++ rest) samples e' := by
  obtain ⟨mediaType, mode, hfresh, rfl⟩ := h.fresh
  have hwhole : StartCode.leading? (r.accumulator ++ rest) ≠ none := by
    rw [StartCode.eq_of_leading? hlead, List.append_assoc, StartCode.leading?_bytes_append]
    simp
  rw [hfresh]
  exact Extractor.drains_ofMediaType_of_valid mediaType mode (.inr hwhole)

theorem Searching.drains_of_short (h : Searching Serves r rest samples)
    (hshort : (r.accumulator ++ rest).length < minUnitSize) :
    ∃ e', r.extractor.Drains (r.accumulator ++ rest) samples e' := by
  obtain ⟨mediaType, mode, hfresh, rfl⟩ := h.fresh
  rw [hfresh]
  exact Extractor.drains_ofMediaType_of_valid mediaType mode (.inl hshort)

/-- Without a start code there are no samples. -/
theorem Searching.eq_nil_of_find?_none (h : Searching Serves r rest samples)
    (hfind : find? .complete (r.accumulator ++ rest) 0 = none) : samples = [] := by
  obtain ⟨mediaType, mode, hfresh, rfl⟩ := h.fresh
  rw [Extractor.accessUnits_of_nalSpans_nil (Extractor.nalSpans_of_find?_none hfind)]
  rfl

/-- At the first start code, the samples to come are those of calls from there on. -/
theorem Ready.synced_of_aligns (h : Ready Serves r rest samples) (aligns : Aligns r r₁) :
    Synced Serves r₁ rest samples := by
  rcases h with h | h
  · cases aligns with
    | synced => exact h
    | front unsynced => simp [h.synced] at unsynced
    | found unsynced => simp [h.synced] at unsynced
    | short unsynced => simp [h.synced] at unsynced
  · have hopen : Open Serves r₁ rest := by
      refine ⟨aligns.fed h.isOpen.toFed, ?_, ?_⟩ <;> obtain ⟨k, -, rfl⟩ := aligns.eq_drop
      · exact h.isOpen.finished
      · exact h.isOpen.intact
    cases aligns with
    | synced synced => simp [h.synced] at synced
    | front _ lead => exact ⟨hopen, rfl, h.drains_of_leading? lead⟩
    | found _ _ found => exact ⟨hopen, rfl, h.drains_of_find? found⟩
    | short _ _ _ inputDone short =>
      refine ⟨hopen, rfl, h.drains_of_short ?_⟩
      rwa [h.isOpen.inputDone inputDone, List.append_nil]

/-- The answer of `nextSample` with `samples` to come: the first of them, or none at the end, where
an error may stand in its place. -/
inductive Answers (Serves : σ → List UInt8 → Prop) :
    List Sample → Except Error (Option Sample) × StreamReader σ → Prop
  | sample {s : Sample} {later : List Sample} {r' : StreamReader σ}
      (gives : Gives Serves r' later) : Answers Serves (s :: later) (.ok (some s), r')
  | stop {r' : StreamReader σ} (gives : Gives Serves r' []) : Answers Serves [] (.ok none, r')
  | error {e : Error} {r' : StreamReader σ} : Answers Serves [] (.error e, r')

variable [Storage σ]

/-- A chunk that is read leaves what is to come. -/
theorem readChunk_of_open (hdelivers : Delivers Serves) (h : Open Serves r rest)
    (more : r.inputDone = false) :
    ∃ channel, r.readChunk = (none, r.filled channel (rest.take r.chunkSize)) ∧
      Open Serves (r.filled channel (rest.take r.chunkSize)) (rest.drop r.chunkSize) ∧
      (r.filled channel (rest.take r.chunkSize)).accumulator ++ rest.drop r.chunkSize =
        r.accumulator ++ rest := by
  obtain ⟨channel, hread, hfed⟩ :=
    (readChunk_of_fed hdelivers.lapses h.toFed more).resolve_left (by simp)
  exact ⟨channel, hread, ⟨hfed, h.finished, h.intact⟩, r.filled_append channel rest r.chunkSize⟩

/-- **A round gives the answer that is due, or comes nearer to it.** -/
theorem round_of_ready (hdelivers : Delivers Serves) (h : Ready Serves r rest samples) :
    Round Serves r rest samples r.round := by
  obtain ⟨move, hturn⟩ := r.exists_turn
  rw [round_of_turn hturn]
  cases hturn with
  | rests finished => simp [h.isOpen.finished] at finished
  | searches _ unsynced _ _ more =>
    rcases h with h | h
    · simp [h.synced] at unsynced
    obtain ⟨channel, hread, hopen, hbytes⟩ := readChunk_of_open hdelivers h.isOpen more
    obtain ⟨mediaType, mode, hfresh, hsamples⟩ := h.fresh
    rw [Move.perform, hread]
    exact .goesOn (.inr ⟨hopen, unsynced, mediaType, mode, hfresh, by rw [hbytes, hsamples]⟩)
      (measure_filled_lt h.isOpen.chunkSize more channel rest)
  | loses _ unsynced _ nowhere inputDone =>
    rcases h with h | h
    · simp [h.synced] at unsynced
    have hnil : samples = [] := h.eq_nil_of_find?_none (by
      rwa [h.isOpen.inputDone inputDone, List.append_nil, ← show r.extent = .complete by
        rw [extent, if_pos inputDone]])
    rw [hnil]
    exact .fails
  | waits _ aligns more call =>
    have hsynced := h.synced_of_aligns aligns
    obtain ⟨e', hdrains⟩ := hsynced.drains
    obtain ⟨channel, hread, hopen, hbytes⟩ := readChunk_of_open hdelivers hsynced.isOpen more
    rw [Move.perform, hread]
    exact .goesOn (.inl ⟨hopen, hsynced.synced, e', by rw [hbytes]; exact hdrains⟩)
      (Nat.lt_of_lt_of_le (measure_filled_lt hsynced.isOpen.chunkSize more channel rest)
        (aligns.measure_le rest))
  | fails _ aligns _ _ call => cases (h.synced_of_aligns aligns).due call (by simp)
  | stops _ aligns call =>
    have hsynced := h.synced_of_aligns aligns
    cases hsynced.due call (by simp) with
    | stop => exact .ends rfl hsynced.isOpen.intact
  | @takes r₁ sample _ _ _ aligns call =>
    have hless := Nat.lt_of_lt_of_le (measure_drop_lt call rest) (aligns.measure_le rest)
    cases (h.synced_of_aligns aligns).due call (by simp) with
    | consume synced =>
      cases sample with
      | none => exact .goesOn (.inl synced) hless
      | some s => exact .gives (.inl synced)

/-! ### Samples and access units -/

theorem rounds_of_ready (hdelivers : Delivers Serves) (h : Ready Serves r rest samples)
    {limit : Nat} (hlimit : r.measure rest < limit) : Answers Serves samples (r.rounds limit) := by
  induction limit generalizing r rest with
  | zero => omega
  | succ limit ih =>
    have hround := round_of_ready hdelivers h
    rw [rounds]
    generalize r.round = answer at hround
    cases hround with
    | goesOn ready less => exact ih ready (by omega)
    | gives ready => exact .sample (.ready ready)
    | @ends sample r' finished intact =>
      cases sample with
      | none => exact .stop (.finished finished intact)
      | some s => exact .sample (.finished finished intact)
    | fails => exact .error

/-- **`nextSample` gives the next sample as long as there is one.** -/
theorem nextSample_of_gives (hdelivers : Delivers Serves) (h : Gives Serves r samples) :
    Answers Serves samples r.nextSample := by
  cases h with
  | @ready rest samples ready =>
    exact rounds_of_ready hdelivers ready
      (Nat.lt_succ_of_le (measure_le_roundsLeft hdelivers.lapses ready.isOpen.toFed))
  | finished finished intact =>
    rw [nextSample, rounds, round, if_pos finished]
    exact .stop (.finished finished intact)

/-- The samples to come are no more than there are rounds left. -/
theorem length_le_of_gives (hdelivers : Delivers Serves) (h : Gives Serves r samples) :
    samples.length ≤ r.roundsLeft + 1 := by
  cases h with
  | @ready rest samples ready =>
    have hrounds := measure_le_roundsLeft hdelivers.lapses ready.isOpen.toFed
    have hlength : samples.length ≤ (r.accumulator ++ rest).length + 1 := by
      rcases ready with hsynced | hsearching
      · obtain ⟨e', hdrains⟩ := hsynced.drains
        exact hdrains.length_le
      · obtain ⟨mediaType, mode, -, hsamples⟩ := hsearching.fresh
        exact hsamples ▸ Extractor.length_flatten_accessUnits_le mediaType mode _
    rw [measure] at hrounds
    rw [List.length_append] at hlength
    omega
  | finished finished intact => exact Nat.zero_le _

theorem collect_of_gives (hdelivers : Delivers Serves) {unit : AccessUnit} {later : List Sample}
    (hunit : Extractor.IsMarked unit) (h : Gives Serves r (unit ++ later)) (earlier : List Sample)
    {limit : Nat} (hlimit : unit.length ≤ limit) :
    ∃ r', r.collect earlier limit = (.ok (earlier.reverse ++ unit), r') ∧
      Gives Serves r' later := by
  induction unit generalizing r earlier limit with
  | nil => exact hunit.elim
  | cons s rest ih =>
    rw [List.length_cons] at hlimit
    obtain ⟨limit, rfl⟩ : ∃ k, limit = k + 1 := ⟨limit - 1, by omega⟩
    have hnext := nextSample_of_gives hdelivers h
    rw [List.cons_append] at hnext
    rw [collect]
    generalize r.nextSample = answer at hnext
    cases hnext with
    | @sample _ _ r' hlater =>
      rcases rest with _ | ⟨t, rest⟩
      · refine ⟨r', ?_, hlater⟩
        simp only [show s.marker = true from hunit, if_true, List.reverse_cons]
      · obtain ⟨r₁, hcollect, hgives⟩ := @ih r' hunit.2 hlater (s :: earlier) limit
          (by omega)
        refine ⟨r₁, ?_, hgives⟩
        simp only [hunit.1, Bool.false_eq_true, if_false, hcollect, List.reverse_cons,
          List.append_assoc, List.cons_append, List.nil_append]

/-- `readUnit` gives the next access unit as long as there is one. -/
theorem readUnit_of_gives (hdelivers : Delivers Serves) {unit : AccessUnit} {later : List Sample}
    (hunit : Extractor.IsMarked unit) (h : Gives Serves r (unit ++ later)) :
    ∃ r', r.readUnit = (.ok (some unit), r') ∧ Gives Serves r' later := by
  have hlength := length_le_of_gives hdelivers h
  rw [List.length_append] at hlength
  have hlimit : unit.length ≤ r.roundsLeft + 2 := by omega
  obtain ⟨r', hcollect, hgives⟩ := collect_of_gives hdelivers hunit h [] hlimit
  refine ⟨r', ?_, hgives⟩
  rw [readUnit, hcollect]
  rcases unit with _ | ⟨s, rest⟩
  · exact hunit.elim
  · rfl

/-- At the end, it gives none, or an error. -/
theorem readUnit_of_gives_nil (hdelivers : Delivers Serves) (h : Gives Serves r []) :
    (∃ r', r.readUnit = (.ok none, r') ∧ Gives Serves r' []) ∨
      ∃ e r', r.readUnit = (.error e, r') := by
  have hnext := nextSample_of_gives hdelivers h
  rw [readUnit, collect]
  generalize r.nextSample = answer at hnext
  cases hnext with
  | stop hlater => exact .inl ⟨_, rfl, hlater⟩
  | error => exact .inr ⟨_, _, rfl⟩

/-- **A reader hands out one access unit after the other.** -/
theorem next_of_plays (hdelivers : Delivers Serves) {units : List AccessUnit}
    (h : Plays Serves r units) :
    ∃ r', r.next = (units.headD [], r') ∧ Plays Serves r' units.tail := by
  rcases h with ⟨hgives, hmarked⟩ | ⟨rfl, hlost⟩
  · rw [next, if_neg (by simp [hgives.intact])]
    rcases units with _ | ⟨unit, later⟩
    · rcases readUnit_of_gives_nil hdelivers hgives with ⟨r', hread, hgives'⟩ | ⟨e, r', hread⟩
      · rw [hread]
        exact ⟨r', rfl, .inl ⟨hgives', by simp⟩⟩
      · rw [hread]
        exact ⟨_, rfl, .inr ⟨rfl, rfl⟩⟩
    · obtain ⟨r', hread, hgives'⟩ :=
        readUnit_of_gives hdelivers (hmarked unit (List.mem_cons_self ..)) hgives
      rw [hread]
      exact ⟨r', rfl, .inl ⟨hgives', fun u hu => hmarked u (List.mem_cons_of_mem _ hu)⟩⟩
  · exact ⟨r, by rw [next, if_pos (by rw [hlost]; rfl)]; rfl, .inr ⟨rfl, hlost⟩⟩

end StreamReader

end AnnexB
