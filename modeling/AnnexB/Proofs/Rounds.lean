/-
# The rounds of a stream reader

All that a round of `nextSample` can do is said once, by the rules of `Turn`.  A reader that has not
met a start code looks for the first one (`Aligns`); at a start code, the round is a call of the
extractor.  There is a rule for every reader (`exists_turn`), and the round does what the rule says
(`round_of_turn`).

The channel has a part in a round only where a chunk is read.  So readers that differ in their
channels alone follow the same rules (`Turn.withChannel`).  Where the storage serves its bytes, or
fails, a chunk goes from the bytes to be read to the accumulator (`readChunk_of_fed`).

Each round without answer lowers the measure

    3 · (bytes to be read) + (bytes in the accumulator) + 2 (before the end is met)
      + 1 (before the first start code is met)

of which `roundsLeft` is a bound.  The rounds of a call are counted by `Returns`, and a call whose
rounds are within the bound gives their answer (`nextSample_of_returns`).
-/

import AnnexB.Source.Stream
import AnnexB.Proofs.Channel
import AnnexB.Proofs.Extraction

namespace AnnexB

open StartCodeMatch

namespace StreamReader

variable {σ τ : Type} {r r' r₁ : StreamReader σ} {rest : List UInt8}

/-! ### Rules -/

/-- The answer of `nextSample`, or none yet. -/
abbrev Answer : Type := Option (Except Error (Option Sample))

/-- The reader at the first start code: where it stands at one, where one is at the front of its
accumulator or is found behind it, or at the end of an input that is too short for a unit. -/
inductive Aligns (r : StreamReader σ) : StreamReader σ → Prop
  | synced (synced : r.synced = true) : Aligns r r
  | front {c : StartCode} (unsynced : r.synced = false)
      (lead : StartCode.leading? r.accumulator = some c) : Aligns r { r with synced := true }
  | found {m : StartCodeMatch} (unsynced : r.synced = false)
      (unaligned : StartCode.leading? r.accumulator = none)
      (found : find? r.extent r.accumulator 0 = some m) :
      Aligns r { r with accumulator := r.accumulator.drop m.offset, synced := true }
  | short (unsynced : r.synced = false) (unaligned : StartCode.leading? r.accumulator = none)
      (nowhere : find? r.extent r.accumulator 0 = none) (inputDone : r.inputDone = true)
      (short : r.accumulator.length < minUnitSize) : Aligns r { r with synced := true }

/-- What a round does: it gives an answer, or none yet, or it reads a chunk. -/
inductive Move (σ : Type) where
  | gives (answer : Answer) (r : StreamReader σ)
  | fills (r : StreamReader σ)

/-- What a round can do. -/
inductive Turn (r : StreamReader σ) : Move σ → Prop
  | rests (finished : r.finished = true) : Turn r (.gives (some (.ok none)) r)
  | searches (going : r.finished = false) (unsynced : r.synced = false)
      (unaligned : StartCode.leading? r.accumulator = none)
      (nowhere : find? r.extent r.accumulator 0 = none) (more : r.inputDone = false) :
      Turn r (.fills r)
  | loses (going : r.finished = false) (unsynced : r.synced = false)
      (unaligned : StartCode.leading? r.accumulator = none)
      (nowhere : find? r.extent r.accumulator 0 = none) (inputDone : r.inputDone = true)
      (long : minUnitSize ≤ r.accumulator.length) :
      Turn r (.gives (some (.error .noStartCode)) r)
  | waits {r₁ : StreamReader σ} (going : r.finished = false) (aligns : Aligns r r₁)
      (more : r₁.inputDone = false)
      (call : r₁.extractor.extract r₁.accumulator r₁.extent =
        (.ok ⟨none, .needMoreData⟩, r₁.extractor)) : Turn r (.fills r₁)
  | fails {r₁ : StreamReader σ} (going : r.finished = false) (aligns : Aligns r r₁)
      (long : minUnitSize ≤ r₁.accumulator.length)
      (unaligned : StartCode.leading? r₁.accumulator = none)
      (call : r₁.extractor.extract r₁.accumulator r₁.extent =
        (.error .noLeadingStartCode, r₁.extractor)) :
      Turn r (.gives (some (.error .noLeadingStartCode)) r₁)
  | stops {r₁ : StreamReader σ} {sample : Option Sample} {e' : Extractor}
      (going : r.finished = false) (aligns : Aligns r r₁)
      (call : r₁.extractor.extract r₁.accumulator r₁.extent =
        (.ok ⟨sample, .endOfStream⟩, e')) :
      Turn r (.gives (some (.ok sample)) { r₁ with extractor := e', finished := true })
  | takes {r₁ : StreamReader σ} {sample : Option Sample} {n : Nat} {e' : Extractor}
      (going : r.finished = false) (aligns : Aligns r r₁)
      (call : r₁.extractor.extract r₁.accumulator r₁.extent = (.ok ⟨sample, .consumed n⟩, e')) :
      Turn r (.gives (if sample.isSome then some (.ok sample) else none)
        { r₁ with extractor := e', accumulator := r₁.accumulator.drop n })

/-- Nothing but the accumulator changes on the way to the first start code. -/
theorem Aligns.eq_drop (h : Aligns r r₁) : ∃ k ≤ r.accumulator.length,
    r₁ = { r with accumulator := r.accumulator.drop k, synced := true } := by
  cases h with
  | synced synced => exact ⟨0, Nat.zero_le _, by rw [List.drop_zero, ← synced]⟩
  | front => exact ⟨0, Nat.zero_le _, by rw [List.drop_zero]⟩
  | found _ _ found => exact ⟨_, offset_le_of_find? found, rfl⟩
  | short => exact ⟨0, Nat.zero_le _, by rw [List.drop_zero]⟩

theorem extent_eq_growing_iff : r.extent = .growing ↔ r.inputDone = false := by
  rw [extent]
  cases r.inputDone <;> simp

/-- At a start code, the round is a call of the extractor. -/
theorem exists_turn_of_aligns (going : r.finished = false) (h : Aligns r r₁) :
    ∃ move, Turn r move := by
  have hgives := r₁.extractor.extract_gives r₁.accumulator r₁.extent
  generalize hcall : r₁.extractor.extract r₁.accumulator r₁.extent = answer at hgives
  cases hgives with
  | waits growing => exact ⟨_, .waits going h (extent_eq_growing_iff.1 growing) hcall⟩
  | stops => exact ⟨_, .stops going h hcall⟩
  | fails long unaligned => exact ⟨_, .fails going h long unaligned hcall⟩
  | takes => exact ⟨_, .takes going h hcall⟩

/-- There is a rule for every reader. -/
theorem exists_turn (r : StreamReader σ) : ∃ move, Turn r move := by
  rcases hfinished : r.finished with _ | _
  swap
  · exact ⟨_, .rests hfinished⟩
  rcases hsynced : r.synced with _ | _
  swap
  · exact exists_turn_of_aligns hfinished (.synced hsynced)
  rcases hlead : StartCode.leading? r.accumulator with _ | c
  swap
  · exact exists_turn_of_aligns hfinished (.front hsynced hlead)
  rcases hfind : find? r.extent r.accumulator 0 with _ | m
  swap
  · exact exists_turn_of_aligns hfinished (.found hsynced hlead hfind)
  rcases hdone : r.inputDone with _ | _
  · exact ⟨_, .searches hfinished hsynced hlead hfind hdone⟩
  rcases Nat.lt_or_ge r.accumulator.length minUnitSize with hshort | hlong
  · exact exists_turn_of_aligns hfinished (.short hsynced hlead hfind hdone hshort)
  · exact ⟨_, .loses hfinished hsynced hlead hfind hdone hlong⟩

/-! ### Channels -/

/-- The reader with another channel. -/
def withChannel (r : StreamReader σ) (c : Channel τ) : StreamReader τ :=
  { channel := c, extractor := r.extractor, accumulator := r.accumulator, chunkSize := r.chunkSize
    inputDone := r.inputDone, synced := r.synced, finished := r.finished, intact := r.intact }

/-- The move of the reader with another channel. -/
def Move.withChannel (c : Channel τ) : Move σ → Move τ
  | gives answer r => .gives answer (r.withChannel c)
  | fills r => .fills (r.withChannel c)

theorem Aligns.withChannel (h : Aligns r r₁) (c : Channel τ) :
    Aligns (r.withChannel c) (r₁.withChannel c) := by
  cases h with
  | synced synced => exact .synced synced
  | front unsynced lead => exact .front unsynced lead
  | found unsynced unaligned found => exact .found unsynced unaligned found
  | short unsynced unaligned nowhere inputDone short =>
    exact .short unsynced unaligned nowhere inputDone short

/-- The channel plays no part in the rules. -/
theorem Turn.withChannel {move : Move σ} (h : Turn r move) (c : Channel τ) :
    Turn (r.withChannel c) (move.withChannel c) := by
  cases h with
  | rests finished => exact .rests finished
  | searches going unsynced unaligned nowhere more =>
    exact .searches going unsynced unaligned nowhere more
  | loses going unsynced unaligned nowhere inputDone long =>
    exact .loses going unsynced unaligned nowhere inputDone long
  | waits going aligns more call => exact .waits going (aligns.withChannel c) more call
  | fails going aligns long unaligned call =>
    exact .fails going (aligns.withChannel c) long unaligned call
  | stops going aligns call =>
    exact Turn.stops (r := r.withChannel c) going (aligns.withChannel c) call
  | takes going aligns call =>
    exact Turn.takes (r := r.withChannel c) going (aligns.withChannel c) call

section

variable [Storage σ]

/-- Reads a chunk, and gives no answer but a failure. -/
def readChunk (r : StreamReader σ) : Answer × StreamReader σ :=
  match r.fill with
  | (.ok _, r) => (none, r)
  | (.error e, r) => (some (.error e), r)

def Move.perform : Move σ → Answer × StreamReader σ
  | gives answer r => (answer, r)
  | fills r => r.readChunk

theorem synced_fill (r : StreamReader σ) : r.fill.2.synced = r.synced := by
  unfold fill
  split <;> rfl

theorem sync_of_aligns (h : Aligns r r₁) (unsynced : r.synced = false) :
    r.sync = (.ok (), r₁) := by
  unfold sync
  cases h with
  | synced synced => simp [unsynced] at synced
  | front _ lead => rw [lead]; rfl
  | found _ unaligned found => rw [unaligned, found]; rfl
  | short _ unaligned nowhere inputDone short =>
    rw [unaligned, nowhere, inputDone]
    simp only [Option.isSome_none, Bool.false_eq_true, if_false, Bool.not_true]
    rw [if_neg (Nat.not_le_of_lt short)]

theorem round_of_aligns (going : r.finished = false) (h : Aligns r r₁) :
    r.round = r₁.extract := by
  have hsynced : r₁.synced = true := by
    obtain ⟨k, -, rfl⟩ := h.eq_drop
    rfl
  rw [round, if_neg (by rw [going]; decide)]
  rcases hr : r.synced with _ | _
  · rw [if_neg (by decide), sync_of_aligns h hr]
    exact if_pos hsynced
  · cases h with
    | synced synced => exact if_pos rfl
    | front unsynced => simp [hr] at unsynced
    | found unsynced => simp [hr] at unsynced
    | short unsynced => simp [hr] at unsynced

/-- **A round does what its rule says.** -/
theorem round_of_turn {move : Move σ} (h : Turn r move) : r.round = move.perform := by
  cases h with
  | rests finished => rw [round, if_pos finished]; rfl
  | searches going unsynced unaligned nowhere more =>
    have hsync : r.sync = r.fill := by
      rw [sync, unaligned, nowhere, more]
      rfl
    have hfill := r.synced_fill
    rw [round, if_neg (by rw [going]; decide), if_neg (by rw [unsynced]; decide), hsync]
    simp only [Move.perform, readChunk]
    rcases hr : r.fill with ⟨answer, r'⟩
    rw [hr] at hfill
    cases answer with
    | error e => rfl
    | ok u => exact if_neg (by rw [hfill, unsynced]; decide)
  | loses going unsynced unaligned nowhere inputDone long =>
    have hsync : r.sync = (.error .noStartCode, r) := by
      rw [sync, unaligned, nowhere, inputDone]
      simp only [Option.isSome_none, Bool.false_eq_true, if_false, Bool.not_true]
      rw [if_pos long]
    rw [round, if_neg (by rw [going]; decide), if_neg (by rw [unsynced]; decide), hsync]
    rfl
  | waits going aligns more call => rw [round_of_aligns going aligns, extract, call]; rfl
  | fails going aligns long unaligned call =>
    rw [round_of_aligns going aligns, extract, call]; rfl
  | stops going aligns call => rw [round_of_aligns going aligns, extract, call]; rfl
  | takes going aligns call => rw [round_of_aligns going aligns, extract, call]; rfl

end

/-! ### Chunks -/

/-- What the channel of a reader has to deliver is `rest`; at the end of the input it is nothing. -/
structure Fed (Serves : σ → List UInt8 → Prop) (r : StreamReader σ) (rest : List UInt8) :
    Prop where
  pending : r.channel.Pending Serves rest
  inputDone : r.inputDone = true → rest = []
  chunkSize : 0 < r.chunkSize

/-- The measure that a round without answer lowers. -/
def measure (r : StreamReader σ) (rest : List UInt8) : Nat :=
  3 * rest.length + r.accumulator.length + (if r.inputDone then 0 else 2)
    + (if r.synced then 0 else 1)

/-- The reader with the next chunk in its accumulator. -/
def filled (r : StreamReader σ) (channel : Channel σ) (chunk : List UInt8) : StreamReader σ :=
  { r with channel, accumulator := r.accumulator ++ chunk
           inputDone := r.inputDone || chunk.isEmpty }

theorem filled_append (r : StreamReader σ) (channel : Channel σ) (rest : List UInt8) (n : Nat) :
    (r.filled channel (rest.take n)).accumulator ++ rest.drop n = r.accumulator ++ rest := by
  rw [filled, List.append_assoc, List.take_append_drop]

variable {Serves : σ → List UInt8 → Prop}

theorem Aligns.fed (h : Aligns r r₁) (hfed : Fed Serves r rest) : Fed Serves r₁ rest := by
  obtain ⟨k, -, rfl⟩ := h.eq_drop
  exact ⟨hfed.pending, hfed.inputDone, hfed.chunkSize⟩

theorem Aligns.measure_le (h : Aligns r r₁) (rest : List UInt8) :
    r₁.measure rest ≤ r.measure rest := by
  obtain ⟨k, -, rfl⟩ := h.eq_drop
  simp only [measure, List.length_drop, if_true]
  omega

/-- A unit that is taken lowers the measure. -/
theorem measure_drop_lt {sample : Option Sample} {n : Nat} {e' : Extractor}
    (call : r.extractor.extract r.accumulator r.extent = (.ok ⟨sample, .consumed n⟩, e'))
    (rest : List UInt8) :
    measure { r with extractor := e', accumulator := r.accumulator.drop n } rest <
      r.measure rest := by
  obtain ⟨hthree, hn⟩ := Extractor.bounds_of_extract call
  simp only [measure, List.length_drop]
  omega

/-- A chunk that comes lowers the measure, and so does the end of the input. -/
theorem measure_filled_lt (hchunk : 0 < r.chunkSize) (more : r.inputDone = false)
    (channel : Channel σ) (rest : List UInt8) :
    (r.filled channel (rest.take r.chunkSize)).measure (rest.drop r.chunkSize) <
      r.measure rest := by
  rcases rest with _ | ⟨byte, rest⟩
  · simp [measure, filled, more]
  · have hless : 3 * ((byte :: rest).drop r.chunkSize).length +
        (r.accumulator ++ (byte :: rest).take r.chunkSize).length + 2 ≤
        3 * (byte :: rest).length + r.accumulator.length + 1 := by
      rw [List.length_append, List.length_take, List.length_drop, List.length_cons]
      omega
    simp only [measure, filled, more, Bool.false_or, Bool.false_eq_true, if_false]
    split <;> omega

variable [Storage σ] {Fails : σ → Prop}

theorem measure_le_roundsLeft (hlapses : Lapses Fails Serves) (h : Fed Serves r rest) :
    r.measure rest ≤ r.roundsLeft := by
  have := Channel.length_le_of_lapses hlapses h.pending
  rw [measure, roundsLeft]
  omega

/-- **A chunk goes from the bytes to be read to the accumulator**, unless the storage fails. -/
theorem readChunk_of_fed (hlapses : Lapses Fails Serves) (h : Fed Serves r rest)
    (more : r.inputDone = false) :
    (∃ e r', r.readChunk = (some (.error e), r') ∧ Fails r'.channel.storage) ∨
      ∃ channel, r.readChunk = (none, r.filled channel (rest.take r.chunkSize)) ∧
        Fed Serves (r.filled channel (rest.take r.chunkSize)) (rest.drop r.chunkSize) := by
  have hchunk := h.chunkSize
  rw [readChunk, fill]
  rcases Channel.receive_of_reads hlapses.reads h.pending r.chunkSize with
    ⟨came, failure, channel, hreceive, hfails⟩ | ⟨channel, hreceive, hpending⟩
  · rw [hreceive]
    exact .inl ⟨_, _, rfl, hfails⟩
  · rw [hreceive]
    refine .inr ⟨channel, rfl, hpending, fun hdone => ?_, hchunk⟩
    -- the end is met where no byte came, and then none is left
    rw [filled, more, Bool.false_or, List.isEmpty_iff, List.take_eq_nil_iff] at hdone
    rw [hdone.resolve_left (by omega), List.drop_nil]

/-! ### Calls -/

/-- The rounds of a call: `n` of them, of which the last gives the answer. -/
inductive Returns : (r : StreamReader σ) → (n : Nat) → Except Error (Option Sample) →
    StreamReader σ → Prop
  | now {r r' : StreamReader σ} {answer : Except Error (Option Sample)}
      (round : r.round = (some answer, r')) : Returns r 1 answer r'
  | later {r r₁ r' : StreamReader σ} {n : Nat} {answer : Except Error (Option Sample)}
      (round : r.round = (none, r₁)) (returns : Returns r₁ n answer r') :
      Returns r (n + 1) answer r'

variable {answer : Except Error (Option Sample)} {n : Nat}

/-- A limit that is not met plays no part. -/
theorem rounds_of_returns (h : Returns r n answer r') {limit : Nat} (hlimit : n ≤ limit) :
    r.rounds limit = (answer, r') := by
  induction h generalizing limit with
  | now round =>
    obtain ⟨limit, rfl⟩ : ∃ k, limit = k + 1 := ⟨limit - 1, by omega⟩
    rw [rounds, round]
  | later round returns ih =>
    obtain ⟨limit, rfl⟩ : ∃ k, limit = k + 1 := ⟨limit - 1, by omega⟩
    rw [rounds, round]
    exact ih (by omega)

theorem nextSample_of_returns (hlapses : Lapses Fails Serves) (hfed : Fed Serves r rest)
    (h : Returns r n answer r') (hn : n ≤ r.measure rest + 1) : r.nextSample = (answer, r') := by
  have hrounds := measure_le_roundsLeft hlapses hfed
  exact rounds_of_returns h (by omega)

end StreamReader

end AnnexB
