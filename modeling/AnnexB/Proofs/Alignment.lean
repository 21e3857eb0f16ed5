/-
# A stream reader terminates and stays aligned

A reader that has met a start code has one in front of it again after each unit that it takes, until
too little is left for a unit (`Aligned`).  A round keeps this, keeps to the bytes there are, and
gives an answer or lowers the measure of the rounds (`round_of_aligned`).

So each call of `nextSample` over storage that delivers its bytes comes to its answer after so many
rounds at most, for any chunks, and gives no error once a start code is met
(`nextSample_returns_aligned`).  The only error of all is that there is no start code.
-/

import AnnexB.Proofs.Rounds

namespace AnnexB

open StartCodeMatch

/-- A start code stays where it is when data grows. -/
theorem StartCode.isSome_leading?_append {data : List UInt8} (h : (leading? data).isSome)
    (rest : List UInt8) : (leading? (data ++ rest)).isSome := by
  obtain ⟨c, hc⟩ := Option.isSome_iff_exists.1 h
  rw [eq_of_leading? hc, List.append_assoc, leading?_bytes_append]
  rfl

/-- What a call leaves of its buffer is empty, or begins with a start code.  A call on data that
does not grow does not wait. -/
theorem Extractor.extract_aligned (e : Extractor) (buffer : List UInt8) (extent : Extent) :
    match e.extract buffer extent with
    | (.ok ⟨_, .consumed n⟩, _) =>
      3 ≤ n ∧ n ≤ buffer.length ∧
        (buffer.drop n = [] ∨ (StartCode.leading? (buffer.drop n)).isSome)
    | (.ok ⟨_, .needMoreData⟩, _) => extent = .growing
    | _ => True := by
  have hgives := e.extract_gives buffer extent
  generalize e.extract buffer extent = answer at hgives
  cases hgives with
  | waits growing => exact growing
  | stops complete short => trivial
  | fails long unaligned => trivial
  | takes startCode within behind =>
    refine ⟨startCode, within, ?_⟩
    rcases behind with hcode | ⟨-, rfl⟩
    · exact .inr hcode
    · exact .inl List.drop_length

namespace StreamReader

variable {σ : Type} {Serves : σ → List UInt8 → Prop} {r r₁ r₂ : StreamReader σ}
  {rest rest₁ rest₂ : List UInt8}

/-- The reader has `rest` to read; once it has met a start code, one stands in front of it, or too
little for a unit is left. -/
structure Aligned (Serves : σ → List UInt8 → Prop) (r : StreamReader σ) (rest : List UInt8) :
    Prop extends Fed Serves r rest where
  aligned : r.synced = true → (StartCode.leading? (r.accumulator ++ rest)).isSome ∨
    (r.accumulator ++ rest).length < minUnitSize

/-- The reader `r` can lead to `r₁`: this is aligned, has no more bytes to go, and has met a start
code if `r` had. -/
structure LeadsTo (Serves : σ → List UInt8 → Prop) (r : StreamReader σ) (rest : List UInt8)
    (r₁ : StreamReader σ) (rest₁ : List UInt8) : Prop where
  aligned : Aligned Serves r₁ rest₁
  length_le : (r₁.accumulator ++ rest₁).length ≤ (r.accumulator ++ rest).length
  synced : r.synced = true → r₁.synced = true

theorem LeadsTo.refl (h : Aligned Serves r rest) : LeadsTo Serves r rest r rest :=
  ⟨h, Nat.le_refl _, id⟩

theorem LeadsTo.trans (h : LeadsTo Serves r rest r₁ rest₁) (h₁ : LeadsTo Serves r₁ rest₁ r₂ rest₂) :
    LeadsTo Serves r rest r₂ rest₂ :=
  ⟨h₁.aligned, Nat.le_trans h₁.length_le h.length_le,
    fun hsynced => h₁.synced (h.synced hsynced)⟩

theorem aligned_ofChannel {c : Channel σ} {data : List UInt8} (h : c.Pending Serves data)
    (mediaType : MediaType) (mode : TimestampMode) (chunkSize : Nat) :
    Aligned Serves ((ofChannel c mediaType mode).withChunkSize chunkSize) data :=
  ⟨⟨h, nofun, Nat.le_max_right ..⟩, nofun⟩

/-- The search for the first start code ends at one, or where too little is left. -/
theorem Aligned.leads_of_aligns (h : Aligned Serves r rest) (aligns : Aligns r r₁) :
    LeadsTo Serves r rest r₁ rest ∧ r₁.synced = true := by
  have hfed := aligns.fed h.toFed
  cases aligns with
  | synced synced => exact ⟨.refl h, synced⟩
  | front _ lead =>
    have hcode : (StartCode.leading? r.accumulator).isSome := by rw [lead]; rfl
    refine ⟨⟨⟨hfed, fun _ => .inl ?_⟩, Nat.le_refl _, fun _ => rfl⟩, rfl⟩
    exact StartCode.isSome_leading?_append hcode rest
  | @found m _ _ found =>
    have hcode : (StartCode.leading? (r.accumulator.drop m.offset)).isSome := by
      rw [Extractor.leading?_drop_of_find? found]
      rfl
    refine ⟨⟨⟨hfed, fun _ => .inl ?_⟩, ?_, fun _ => rfl⟩, rfl⟩
    · exact StartCode.isSome_leading?_append hcode rest
    · simp only [List.length_append, List.length_drop]
      omega
  | short _ _ _ inputDone short =>
    refine ⟨⟨⟨hfed, fun _ => .inr ?_⟩, Nat.le_refl _, fun _ => rfl⟩, rfl⟩
    rwa [h.inputDone inputDone, List.append_nil]

/-- At a start code the extractor finds one. -/
theorem Aligned.short_of_unaligned (h : Aligned Serves r rest) (hsynced : r.synced = true)
    (unaligned : StartCode.leading? r.accumulator = none) :
    r.accumulator.length < minUnitSize := by
  have hmin : minUnitSize = 5 := rfl
  by_contra hlong
  have hlead := StartCode.leading?_append (show 4 ≤ r.accumulator.length by omega) rest
  rcases h.aligned hsynced with hcode | hshort
  · rw [hlead, unaligned] at hcode
    cases hcode
  · rw [List.length_append] at hshort
    omega

/-- A unit that is taken leaves the reader at the next start code. -/
theorem Aligned.leads_of_takes (h : Aligned Serves r rest) {sample : Option Sample} {n : Nat}
    {e' : Extractor}
    (call : r.extractor.extract r.accumulator r.extent = (.ok ⟨sample, .consumed n⟩, e')) :
    LeadsTo Serves r rest { r with extractor := e', accumulator := r.accumulator.drop n } rest := by
  have hgives := r.extractor.extract_gives r.accumulator r.extent
  rw [call] at hgives
  refine ⟨⟨⟨h.pending, h.inputDone, h.chunkSize⟩, fun _ => ?_⟩, ?_, id⟩
  · cases hgives with
    | takes startCode within behind =>
      rcases behind with hcode | ⟨hcomplete, rfl⟩
      · exact .inl (StartCode.isSome_leading?_append hcode rest)
      · right
        have hdone : r.inputDone = true := by
          by_contra hmore
          rw [extent_eq_growing_iff.2 (Bool.not_eq_true _ ▸ hmore)] at hcomplete
          cases hcomplete
        simp only [h.inputDone hdone, List.drop_length]
        decide
  · simp only [List.length_append, List.length_drop]
    omega

/-- What a round does with an aligned reader. -/
inductive Advances (Serves : σ → List UInt8 → Prop) (r : StreamReader σ) (rest : List UInt8) :
    Answer × StreamReader σ → Prop
  | goesOn {r₁ : StreamReader σ} {rest₁ : List UInt8} (leads : LeadsTo Serves r rest r₁ rest₁)
      (less : r₁.measure rest₁ < r.measure rest) : Advances Serves r rest (none, r₁)
  | answers {r₁ : StreamReader σ} {rest₁ : List UInt8} {sample : Option Sample}
      (leads : LeadsTo Serves r rest r₁ rest₁) : Advances Serves r rest (some (.ok sample), r₁)
  | loses (unsynced : r.synced = false) : Advances Serves r rest (some (.error .noStartCode), r)

theorem Advances.of_leads (h : LeadsTo Serves r rest r₁ rest)
    (hle : r₁.measure rest ≤ r.measure rest) (hsynced : r₁.synced = true)
    {answer : Answer × StreamReader σ} (hadvances : Advances Serves r₁ rest answer) :
    Advances Serves r rest answer := by
  cases hadvances with
  | goesOn leads less => exact .goesOn (h.trans leads) (Nat.lt_of_lt_of_le less hle)
  | answers leads => exact .answers (h.trans leads)
  | loses unsynced => simp [hsynced] at unsynced

variable [Storage σ]

theorem Aligned.advances_readChunk (hdelivers : Delivers Serves) (h : Aligned Serves r rest)
    (more : r.inputDone = false) : Advances Serves r rest r.readChunk := by
  obtain ⟨channel, hread, hfed⟩ :=
    (readChunk_of_fed hdelivers.lapses h.toFed more).resolve_left (by simp)
  have hbytes := r.filled_append channel rest r.chunkSize
  rw [hread]
  refine .goesOn ⟨⟨hfed, fun hsynced => ?_⟩, ?_, id⟩
    (measure_filled_lt h.chunkSize more channel rest)
  · rw [hbytes]
    exact h.aligned hsynced
  · exact Nat.le_of_eq (congrArg List.length hbytes)

/-- **A round keeps the reader aligned.** -/
theorem round_of_aligned (hdelivers : Delivers Serves) (h : Aligned Serves r rest) :
    Advances Serves r rest r.round := by
  obtain ⟨move, hturn⟩ := r.exists_turn
  rw [round_of_turn hturn]
  cases hturn with
  | rests finished => exact .answers (.refl h)
  | searches _ _ _ _ more => exact h.advances_readChunk hdelivers more
  | loses _ unsynced => exact .loses unsynced
  | waits _ aligns more =>
    obtain ⟨hleads, hsynced⟩ := h.leads_of_aligns aligns
    exact .of_leads hleads (aligns.measure_le rest) hsynced
      (hleads.aligned.advances_readChunk hdelivers more)
  | fails _ aligns long unaligned =>
    obtain ⟨hleads, hsynced⟩ := h.leads_of_aligns aligns
    have hshort := hleads.aligned.short_of_unaligned hsynced unaligned
    omega
  | stops _ aligns =>
    obtain ⟨⟨haligned, hlength, hkeeps⟩, -⟩ := h.leads_of_aligns aligns
    exact .answers
      ⟨⟨⟨haligned.pending, haligned.inputDone, haligned.chunkSize⟩, haligned.aligned⟩, hlength,
        hkeeps⟩
  | @takes r₁ sample n e' _ aligns call =>
    obtain ⟨hleads, hsynced⟩ := h.leads_of_aligns aligns
    have htakes := hleads.aligned.leads_of_takes call
    cases sample with
    | none =>
      exact .of_leads hleads (aligns.measure_le rest) hsynced
        (.goesOn htakes (measure_drop_lt call rest))
    | some s => exact .of_leads hleads (aligns.measure_le rest) hsynced (.answers htakes)

/-- The rounds of a call end, with an answer that is no error but that there is no start code. -/
theorem returns_of_aligned (hdelivers : Delivers Serves) (h : Aligned Serves r rest) :
    ∃ n answer r' rest', Returns r n answer r' ∧ n ≤ r.measure rest + 1 ∧
      LeadsTo Serves r rest r' rest' ∧
      ∀ e, answer = .error e → e = .noStartCode ∧ r'.synced = false := by
  induction hm : r.measure rest using Nat.strongRecOn generalizing r rest with
  | ind m ih =>
    have hround := round_of_aligned hdelivers h
    generalize heq : r.round = result at hround
    cases hround with
    | goesOn leads less =>
      obtain ⟨n, answer, r', rest', hreturns, hn, hlater, herror⟩ :=
        ih _ (hm ▸ less) leads.aligned rfl
      exact ⟨n + 1, answer, r', rest', .later heq hreturns, by omega, leads.trans hlater, herror⟩
    | answers leads => exact ⟨1, _, _, _, .now heq, by omega, leads, nofun⟩
    | loses unsynced =>
      refine ⟨1, _, _, _, .now heq, by omega, .refl h, ?_⟩
      rintro e ⟨⟩
      exact ⟨rfl, unsynced⟩

/-- The reader after some calls of `nextSample`. -/
def after (r : StreamReader σ) : (calls : Nat) → StreamReader σ
  | 0 => r
  | calls + 1 => (after r calls).nextSample.2

/-- Calls keep a reader aligned. -/
theorem leads_after (hdelivers : Delivers Serves) (h : Aligned Serves r rest) (calls : Nat) :
    ∃ rest', LeadsTo Serves r rest (r.after calls) rest' := by
  induction calls with
  | zero => exact ⟨rest, .refl h⟩
  | succ calls ih =>
    obtain ⟨rest₁, hleads⟩ := ih
    obtain ⟨n, answer, r', rest', hreturns, hn, hlater, -⟩ :=
      returns_of_aligned hdelivers hleads.aligned
    refine ⟨rest', ?_⟩
    rw [after, nextSample_of_returns hdelivers.lapses hleads.aligned.toFed hreturns hn]
    exact hleads.trans hlater

/-- **A reader terminates and stays aligned.**  An extractor takes at least a start code and no more
than there is, and stands at the next start code then, or at the end; it waits only while data may
grow.  So a reader over storage that delivers any bytes, in chunks of any size, comes to an answer
after finitely many rounds in each of its calls.  Once it has met a start code this stays so, and
the answer is no error; before that it can only be that there is no start code. -/
theorem nextSample_returns_aligned (hdelivers : Delivers Serves) {c : Channel σ}
    {data : List UInt8} (hc : c.Pending Serves data) (mediaType : MediaType) (mode : TimestampMode)
    (chunkSize calls : Nat) :
    (∀ (e : Extractor) (buffer : List UInt8) (extent : Extent),
      match e.extract buffer extent with
      | (.ok ⟨_, .consumed n⟩, _) =>
        3 ≤ n ∧ n ≤ buffer.length ∧
          (buffer.drop n = [] ∨ (StartCode.leading? (buffer.drop n)).isSome)
      | (.ok ⟨_, .needMoreData⟩, _) => extent = .growing
      | _ => True) ∧
    let r := ((ofChannel c mediaType mode).withChunkSize chunkSize).after calls
    ∃ n answer r', Returns r n answer r' ∧ n ≤ 3 * data.length + 4 ∧ r.nextSample = (answer, r') ∧
      (r.synced = true → r'.synced = true) ∧
      ∀ e, answer = .error e → e = .noStartCode ∧ r'.synced = false := by
  refine ⟨Extractor.extract_aligned, ?_⟩
  intro r
  obtain ⟨rest, hleads⟩ :=
    leads_after hdelivers (aligned_ofChannel hc mediaType mode chunkSize) calls
  obtain ⟨n, answer, r', rest', hreturns, hn, hlater, herror⟩ :=
    returns_of_aligned hdelivers hleads.aligned
  have hmeasure : r.measure rest ≤ 3 * data.length + 3 := by
    have hlength : r.accumulator.length + rest.length ≤ data.length := by
      rw [← List.length_append]
      exact hleads.length_le
    unfold measure
    split <;> split <;> omega
  have hcall := nextSample_of_returns hdelivers.lapses hleads.aligned.toFed hreturns hn
  exact ⟨n, answer, r', hreturns, Nat.le_trans hn (Nat.succ_le_succ hmeasure), hcall, hlater.synced,
    herror⟩

/-- A stream that begins with other bytes, read two bytes at a time, at the third call. -/
theorem nextSample_returns_aligned_garbage :
    let data := [7, 0, 0, 1, 9, 240, 0, 0, 0, 1, 101, 136]
    let c := Channel.ofStorage (MemoryStore.ofList data)
    let r := ((ofChannel c .h264 .untimed).withChunkSize 2).after 2
    Delivers (MemoryStore.Serves data) ∧ c.Pending (MemoryStore.Serves data) data ∧
      ∃ n answer r', Returns r n answer r' ∧ n ≤ 3 * data.length + 4 ∧
        r.nextSample = (answer, r') ∧ (r.synced = true → r'.synced = true) ∧
        ∀ e, answer = .error e → e = .noStartCode ∧ r'.synced = false := by
  intro data c r
  have hdelivers := MemoryStore.delivers data
  have hpending : c.Pending (MemoryStore.Serves data) data :=
    Channel.pending_ofStorage (MemoryStore.serves_ofList data)
  exact ⟨hdelivers, hpending,
    (nextSample_returns_aligned hdelivers hpending .h264 .untimed 2 2).2⟩

end StreamReader

end AnnexB
