/-
# What an indexed source hands out

An indexed source finds the NAL units of its input in chunks, and the chunks play no part: it finds
those of the whole input (`indexInput_of_pending`).

The units of an access unit stand in order in the stream (`InOrder`).  So the bytes from the first
start code to the end of the last unit hold the payloads of all of them, and what is read from there
are the samples of the stream (`samples_eq`).

At access unit `k` of a source that is played once (`At`), a call hands out access unit `k` of the
stream and moves on to the next (`next_of_plays`).
-/

import AnnexB.Source.Indexed
import AnnexB.Proofs.Channel
import AnnexB.Proofs.ChunkInvariance
import AnnexB.Proofs.Grouping

namespace AnnexB

open NalSpan

/-! ### Units in order -/

/-- Units of a stream, each behind the one before. -/
def InOrder (data : List UInt8) (us : List NalSpan) : Prop :=
  (∀ u ∈ us, LiesIn data u) ∧ us.Pairwise fun u v => u.stop ≤ v.startCodeOffset

theorem inOrder_nalSpans (data : List UInt8) : InOrder data (nalSpans data) := by
  rw [nalSpans_eq_spans]
  exact ⟨liesIn_of_mem_spans (arePatterns data 0), pairwise_spans (arePatterns data 0)⟩

variable {data bytes : List UInt8} {us later : List NalSpan} {first u : NalSpan}

theorem InOrder.sublist (h : InOrder data us) (hsub : List.Sublist later us) : InOrder data later :=
  ⟨fun u hu => h.1 u (hsub.subset hu), h.2.sublist hsub⟩

theorem inOrder_of_mem_groupedSpans {codec : VideoCodec} {unit : List NalSpan}
    (h : unit ∈ Extractor.groupedSpans codec data) : InOrder data unit := by
  refine (inOrder_nalSpans data).sublist ?_
  rw [← Extractor.flatten_groupedSpans codec data]
  exact List.sublist_flatten_of_mem h

/-- A start code stands in front of its unit. -/
theorem NalSpan.LiesIn.startCodeOffset_le (h : LiesIn data u) :
    u.startCodeOffset ≤ u.payloadOffset ∧ u.payloadOffset ≤ u.stop := by
  have hsize := h.1
  exact ⟨by omega, Nat.le_add_right ..⟩

/-- All units lie between the first start code and the end of the last unit. -/
theorem InOrder.bounds (h : InOrder data (first :: later)) :
    ∀ u ∈ first :: later, first.startCodeOffset ≤ u.startCodeOffset ∧
      u.stop ≤ (later.getLastD first).stop := by
  induction later generalizing first with
  | nil =>
    intro u hu
    rw [List.mem_singleton] at hu
    subst hu
    exact ⟨Nat.le_refl _, Nat.le_refl _⟩
  | cons v later ih =>
    have htail : InOrder data (v :: later) := h.sublist (List.sublist_cons_self ..)
    have hnext := (List.pairwise_cons.1 h.2).1 v (List.mem_cons_self ..)
    have hfirst := (h.1 first (List.mem_cons_self ..)).startCodeOffset_le
    have hv := (h.1 v (by simp)).startCodeOffset_le
    have hlast := (ih htail v (List.mem_cons_self ..)).2
    rw [List.getLastD_cons]
    intro u hu
    rcases List.mem_cons.1 hu with rfl | hu
    · exact ⟨Nat.le_refl _, by omega⟩
    · obtain ⟨hstart, hstop⟩ := ih htail u hu
      exact ⟨by omega, hstop⟩

/-- The span of some units, from the first start code to the end of the last unit, is there, and each
of them can be cut out of it. -/
def WithinSpan (data : List UInt8) (unit : List NalSpan) : Prop :=
  ∃ first ∈ unit.head?, ∃ last ∈ unit.getLast?, last.stop ≤ data.length ∧
    ∀ u ∈ unit, first.startCodeOffset ≤ u.payloadOffset ∧ u.payloadOffset ≤ u.stop ∧
      u.stop ≤ last.stop

theorem InOrder.withinSpan {unit : List NalSpan} (h : InOrder data unit) (hne : unit ≠ []) :
    WithinSpan data unit := by
  obtain ⟨first, later, rfl⟩ := List.exists_cons_of_ne_nil hne
  have hlast : (first :: later).getLast? = some (later.getLastD first) := by
    rw [List.getLast?_cons, List.getLastD_eq_getLast?]
  refine ⟨first, rfl, _, hlast, (h.1 _ List.getLastD_mem_cons).2, fun u hu => ?_⟩
  obtain ⟨hstart, hstop⟩ := h.bounds u hu
  obtain ⟨hcode, hpayload⟩ := (h.1 u hu).startCodeOffset_le
  exact ⟨Nat.le_trans hstart hcode, hpayload, hstop⟩

namespace IndexedSource

/-! ### Indexing -/

section

variable {σ : Type} [Storage σ] {Fails : σ → Prop} {Serves : σ → List UInt8 → Prop}
  {c c₁ : Channel σ}

/-- Indexing reads the rest of the input in chunks, or fails with one of them. -/
theorem indexRest_of_lapses (hlapses : Lapses Fails Serves) (h : c.Pending Serves bytes)
    (x : StartCodeIndexer) (size : Nat) {limit : Nat} (hlimit : bytes.length < limit) :
    (∃ e c', indexRest c x size limit = (.error e, c') ∧ Fails c'.storage) ∨
      ∃ (chunks : List (List UInt8)) (c' : Channel σ), indexRest c x size limit =
          (.ok (chunks.foldl StartCodeIndexer.push x, size + bytes.length), c') ∧
        chunks.flatten = bytes ∧ c'.Pending Serves [] := by
  induction limit generalizing c bytes x size with
  | zero => omega
  | succ limit ih =>
    rw [indexRest]
    rcases Channel.readSome_of_reads hlapses.reads h chunkSize with
      ⟨e, c₁, hread, hfails⟩ | ⟨c₁, hread, hpending⟩
    · rw [hread]
      exact .inl ⟨e, c₁, rfl, hfails⟩
    rw [hread]
    rcases bytes with _ | ⟨byte, bytes⟩
    · exact .inr ⟨[], c₁, rfl, rfl, hpending⟩
    · have hsize : size + ((byte :: bytes).take chunkSize).length +
          ((byte :: bytes).drop chunkSize).length = size + (byte :: bytes).length := by
        rw [Nat.add_assoc, ← List.length_append, List.take_append_drop]
      have hindex := ih hpending (x.push ((byte :: bytes).take chunkSize))
        (size + ((byte :: bytes).take chunkSize).length)
        (by rw [List.length_drop, chunkSize]; simp only [List.length_cons] at hlimit ⊢; omega)
      rw [hsize] at hindex
      refine hindex.imp_right ?_
      rintro ⟨chunks, c', hindex, hflatten, hdone⟩
      refine ⟨(byte :: bytes).take chunkSize :: chunks, c', hindex, ?_, hdone⟩
      rw [List.flatten_cons, hflatten, List.take_append_drop]

/-- Indexing finds the units of the whole input, once a seek has brought it to the front. -/
theorem indexInput_of_seek (hlapses : Lapses Fails Serves) {n : Nat}
    (hseek : c.seek (.start 0) = (.ok n, c₁)) (h : c₁.Pending Serves data) :
    (∃ e c', indexInput c = (.error e, c') ∧ Fails c'.storage) ∨
      ∃ c', c'.Pending Serves [] ∧
        indexInput c = (if nalSpans data = [] then .error (.noNalUnit data.length)
          else .ok (nalSpans data), c') := by
  have hlimit := Channel.length_le_of_lapses hlapses h
  rw [indexInput, hseek]
  simp only
  rcases indexRest_of_lapses hlapses h .empty 0 (Nat.lt_succ_of_le hlimit) with
    ⟨e, c', hindex, hfails⟩ | ⟨chunks, c', hindex, hflatten, hdone⟩
  · rw [hindex]
    exact .inl ⟨e, c', rfl, hfails⟩
  · refine .inr ⟨c', hdone, ?_⟩
    rw [hindex, Nat.zero_add, StartCodeIndexer.foldl_push_empty, hflatten]
    simp only
    rw [show (StartCodeIndexer.empty.push data).finish data.length = nalSpans data from rfl]
    rcases hunits : nalSpans data with _ | ⟨u, us⟩
    · rfl
    · rfl

end

/-- **Indexing finds the units of the whole input**, and fails where there is none. -/
theorem indexInput_of_pending {c : Channel MemoryStore}
    (h : c.Pending (MemoryStore.Serves data) bytes) :
    ∃ c', c'.Pending (MemoryStore.Serves data) [] ∧
      indexInput c = (if nalSpans data = [] then .error (.noNalUnit data.length)
        else .ok (nalSpans data), c') := by
  obtain ⟨c₁, hseek, hpending⟩ := Channel.seek_start h (Nat.zero_le _)
  rw [List.drop_zero] at hpending
  exact (indexInput_of_seek (MemoryStore.delivers data).lapses hseek hpending).resolve_left
    (by simp)

/-! ### Serving -/

/-- The bytes of units in order, from the first start code to the end of the last unit. -/
theorem readSpan_of_pending {c : Channel MemoryStore}
    (h : c.Pending (MemoryStore.Serves data) bytes) (horder : InOrder data (first :: later))
    (hdata : data.length ≤ MemoryStore.maxPosition) :
    ∃ c' bytes', readSpan c first (later.getLastD first) =
        (.ok ((data.drop first.startCodeOffset).take
          ((later.getLastD first).stop - first.startCodeOffset)), c') ∧
      c'.Pending (MemoryStore.Serves data) bytes' := by
  have hstop := (horder.1 _ List.getLastD_mem_cons).2
  have hfirst := horder.1 first (List.mem_cons_self ..)
  have hle := hfirst.startCodeOffset_le
  have hin := hfirst.2
  obtain ⟨c₁, hseek, hpending⟩ :=
    Channel.seek_start (n := first.startCodeOffset) h (by omega)
  obtain ⟨c', hread, hpending'⟩ := Channel.readExact_of_pending (MemoryStore.delivers data) hpending
    (n := (later.getLastD first).stop - first.startCodeOffset) (by rw [List.length_drop]; omega)
  refine ⟨c', _, ?_, hpending'⟩
  rw [readSpan, hseek]
  exact hread

/-- The payload of a unit, cut out of bytes in which it stands. -/
theorem extract_eq_payload {start length : Nat} (hstart : start ≤ u.payloadOffset)
    (hstop : u.stop ≤ start + length) :
    ((((data.drop start).take length).toArray.extract (u.payloadOffset - start)
      (u.stop - start)).toList) = u.payload data := by
  have hsum : u.stop = u.payloadOffset + u.payloadLength := rfl
  rw [Array.toList_extract, List.extract_eq_take_drop, NalSpan.payload, List.drop_take,
    List.drop_drop, List.take_take,
    show start + (u.payloadOffset - start) = u.payloadOffset by omega]
  congr 1
  omega

theorem samples_cons (bytes : Array UInt8) (start : Nat) (time : Timestamp) (b : Boundary)
    (u : NalSpan) (rest : List NalSpan) :
    samples bytes start time b (u :: rest) =
      ({ Sample.ofPayload (bytes.extract (u.payloadOffset - start) (u.stop - start)).toList with
          time, startCode := some u.startCode, marker := rest.isEmpty
          decodingOrder := b.takeNumber.1 } :: (samples bytes start time b.takeNumber.2 rest).1,
        (samples bytes start time b.takeNumber.2 rest).2) := rfl

/-- **The samples read from an access unit's bytes are those of the stream.** -/
theorem samples_eq {start length : Nat} {time : Timestamp}
    (h : ∀ u ∈ us, start ≤ u.payloadOffset ∧ u.stop ≤ start + length) (b : Boundary) :
    samples ((data.drop start).take length).toArray start time b us =
      Extractor.numberSamples b
        (AccessUnit.markLast (us.map (Extractor.sampleOfSpan data.toArray time))) := by
  induction us generalizing b with
  | nil => rfl
  | cons u rest ih =>
    obtain ⟨hstart, hstop⟩ := h u (List.mem_cons_self ..)
    have hrest := ih (fun v hv => h v (List.mem_cons_of_mem _ hv)) b.takeNumber.2
    rw [samples_cons, extract_eq_payload hstart hstop, hrest]
    rcases rest with _ | ⟨v, rest⟩
    · simp only [List.map_cons, List.map_nil, AccessUnit.markLast, Extractor.sampleOfSpan_eq]
      rfl
    · simp only [List.map_cons, Extractor.markLast_cons_cons, Extractor.sampleOfSpan_eq]
      rfl

end IndexedSource

/-- The count of access units served goes round at 2^64, and so does a time stamp. -/
theorem TimestampMode.stamp_toNat (mode : TimestampMode) (k : Nat) :
    mode.stamp (UInt64.ofNat k).toNat = mode.stamp k := by
  cases mode <;> simp only [stamp, UInt64.ofNat_toNat]

namespace IndexedSource

variable {s : IndexedSource MemoryStore} {k : Nat}

/-- Where its cursor stands, a source reads an access unit of the stream. -/
theorem readUnit_of_pending {c : Channel MemoryStore} (hchannel : s.channel = some c)
    (hpending : c.Pending (MemoryStore.Serves data) bytes)
    (hunits : s.units = Extractor.groupedSpans s.config.mediaType.codec data)
    (hdata : data.length ≤ MemoryStore.maxPosition) {unit : List NalSpan}
    (hunit : s.units[s.cursor.position]? = some unit) :
    ∃ c' bytes', c'.Pending (MemoryStore.Serves data) bytes' ∧
      s.readUnit =
        let numbered := Extractor.numberSamples s.boundary (AccessUnit.markLast (unit.map
          (Extractor.sampleOfSpan data.toArray (s.config.mode.stamp s.cursor.served.toNat))))
        (.ok numbered.1, { s with channel := some c', boundary := numbered.2 }) := by
  have hmem : unit ∈ Extractor.groupedSpans s.config.mediaType.codec data :=
    hunits ▸ List.mem_of_getElem? hunit
  have horder := inOrder_of_mem_groupedSpans hmem
  rcases unit with _ | ⟨first, later⟩
  · exact absurd rfl (Boundary.ne_nil_of_mem_group _ _ hmem)
  · obtain ⟨c', bytes', hread, hpending'⟩ := readSpan_of_pending hpending horder hdata
    have hbounds : ∀ u ∈ first :: later, first.startCodeOffset ≤ u.payloadOffset ∧ u.stop ≤
        first.startCodeOffset + ((later.getLastD first).stop - first.startCodeOffset) := by
      intro u hu
      obtain ⟨hstart, hstop⟩ := horder.bounds u hu
      have hle := (horder.1 u hu).startCodeOffset_le
      exact ⟨by omega, by omega⟩
    refine ⟨c', bytes', hpending', ?_⟩
    rw [readUnit, hunit, Option.getD_some, hchannel]
    simp only
    rw [hread]
    simp only
    rw [samples_eq hbounds]

/-- A source over an input has its access units, if there are any. -/
theorem ofChannel_of_pending {c : Channel MemoryStore}
    (h : c.Pending (MemoryStore.Serves data) bytes) (config : SourceConfig) :
    ∃ c', c'.Pending (MemoryStore.Serves data) [] ∧
      ofChannel c config =
        if nalSpans data = [] then failed config
        else
          let codec := config.mediaType.codec
          let units := Extractor.groupedSpans codec data
          { config, channel := some c', units, boundary := .ofCodec codec
            cursor := .start config.replay units.length, intact := true } := by
  obtain ⟨c', hpending, hindex⟩ := indexInput_of_pending h
  refine ⟨c', hpending, ?_⟩
  rw [ofChannel, hindex]
  by_cases hnone : nalSpans data = []
  · rw [if_pos hnone, if_pos hnone]
  · rw [if_neg hnone, if_neg hnone]
    rfl

/-- A source that is played once stands at access unit `k` of its stream. -/
structure At (data : List UInt8) (s : IndexedSource MemoryStore) (k : Nat) : Prop where
  intact : s.intact = true
  channel : ∃ c bytes, s.channel = some c ∧ c.Pending (MemoryStore.Serves data) bytes
  units : s.units = Extractor.groupedSpans s.config.mediaType.codec data
  cursor : s.cursor =
    { replay := .disabled, length := s.units.length, position := k, completedPasses := 0
      served := UInt64.ofNat k, atEnd := decide (s.units.length ≤ k) }

/-- At access unit `k`, a source reads access unit `k` of the stream. -/
theorem readUnit_of_at (h : At data s k) (hdata : data.length ≤ MemoryStore.maxPosition)
    {unit : List NalSpan} (hunit : s.units[k]? = some unit) :
    ∃ c bytes, c.Pending (MemoryStore.Serves data) bytes ∧
      s.readUnit =
        let numbered := Extractor.numberSamples s.boundary (AccessUnit.markLast
          (unit.map (Extractor.sampleOfSpan data.toArray (s.config.mode.stamp k))))
        (.ok numbered.1, { s with channel := some c, boundary := numbered.2 }) := by
  obtain ⟨-, ⟨c, bytes, hchannel, hpending⟩, hunits, hcursor⟩ := h
  have hposition : s.cursor.position = k := by rw [hcursor]
  have hserved : s.cursor.served = UInt64.ofNat k := by rw [hcursor]
  have hread := readUnit_of_pending hchannel hpending hunits hdata (by rwa [hposition])
  rwa [hserved, TimestampMode.stamp_toNat] at hread

/-- The source hands out `units`, and nothing after them. -/
def Plays (data : List UInt8) (s : IndexedSource MemoryStore) (units : List AccessUnit) : Prop :=
  (∃ k, At data s k ∧ units = Extractor.numberUnits s.boundary
      (Extractor.stampUnits data s.config.mode.stamp k (s.units.drop k))) ∨
    (units = [] ∧ s.isGood = false)

theorem isGood_of_at (h : At data s k) : s.isGood = decide (k < s.units.length) := by
  rw [isGood, h.intact, h.cursor, Bool.true_and, ← decide_not]
  simp only [Nat.not_le]

theorem advance_of_at (h : At data s k) (hk : k < s.units.length) :
    s.cursor.advance = { s.cursor with
      position := k + 1, served := UInt64.ofNat (k + 1)
      atEnd := decide (s.units.length ≤ k + 1) } := by
  have hserved : UInt64.ofNat k + 1 = UInt64.ofNat (k + 1) := (UInt64.ofNat_add k 1).symm
  have hbefore : decide (s.units.length ≤ k) = false := by simpa using hk
  rw [ReplayCursor.advance, h.cursor, hbefore, ← hserved]
  simp only
  by_cases hnext : k + 1 < s.units.length
  · have hafter : decide (s.units.length ≤ k + 1) = false := by simpa using hnext
    rw [if_pos hnext, hafter]
  · have hafter : decide (s.units.length ≤ k + 1) = true := by simpa using hnext
    rw [if_neg hnext, hafter]
    rfl

/-- **An indexed source hands out one access unit after the other.** -/
theorem next_of_plays (hdata : data.length ≤ MemoryStore.maxPosition) {units : List AccessUnit}
    (h : Plays data s units) :
    ∃ s', s.next = (units.headD [], s') ∧ Plays data s' units.tail := by
  rcases h with ⟨k, hat, rfl⟩ | ⟨rfl, hgood⟩
  · rcases Nat.lt_or_ge k s.units.length with hk | hk
    · obtain ⟨c, bytes, hpending, hread⟩ :=
        readUnit_of_at hat hdata (List.getElem?_eq_getElem hk)
      rw [List.drop_eq_getElem_cons hk, Extractor.stampUnits, next, isGood_of_at hat,
        decide_eq_true hk, hread]
      refine ⟨_, rfl, .inl ⟨k + 1, ⟨hat.intact, ⟨c, bytes, rfl, hpending⟩, hat.units, ?_⟩, rfl⟩⟩
      simp only
      rw [advance_of_at hat hk, hat.cursor]
    · refine ⟨s, ?_, .inr ⟨?_, ?_⟩⟩
      · rw [next, isGood_of_at hat, decide_eq_false (by omega), List.drop_eq_nil_of_le hk]
        rfl
      · rw [List.drop_eq_nil_of_le hk]
        rfl
      · rw [isGood_of_at hat, decide_eq_false (by omega)]
  · exact ⟨s, by rw [next, hgood]; rfl, .inr ⟨rfl, hgood⟩⟩

/-- A source that is played once hands out the access units of its input. -/
theorem plays_ofChannel {c : Channel MemoryStore} (h : c.Pending (MemoryStore.Serves data) bytes)
    (mediaType : MediaType) (mode : TimestampMode) :
    Plays data (ofChannel c { mediaType, mode })
      (Extractor.accessUnits mediaType.codec mode.stamp (.ofCodec mediaType.codec) data) := by
  obtain ⟨c', hpending, hsource⟩ := ofChannel_of_pending h { mediaType, mode }
  rw [hsource]
  by_cases hnone : nalSpans data = []
  · rw [if_pos hnone, Extractor.accessUnits_of_nalSpans_nil hnone]
    exact .inr ⟨rfl, rfl⟩
  · have hend : ∀ n : Nat, (n == 0) = decide (n ≤ 0) := fun n => by cases n <;> rfl
    rw [if_neg hnone]
    refine .inl ⟨0, ⟨rfl, ⟨c', [], rfl, hpending⟩, rfl, ?_⟩, rfl⟩
    rw [← hend]
    rfl

end IndexedSource

end AnnexB
