/-
# The two ways of playing a stream agree

A stream in memory can be read once from front to back, or indexed first and then read access unit
by access unit.  Both hand out the access units of the stream, and nothing else
(`given_reader_eq_given_index`), whatever stands before the first start code and however the reader
cuts its input.

Of a source of any kind that is not good, nothing more comes (`Spent`).
-/

import AnnexB.Proofs.Index
import AnnexB.Proofs.Reader
import AnnexB.Source.Yuv

namespace AnnexB

namespace MediaSource

variable {α : Type} [MediaSource α]

/-- The access units that some calls hand out, without the empty ones. -/
def given (s : α) : (calls : Nat) → List AccessUnit
  | 0 => []
  | calls + 1 =>
    let answer := MediaSource.next s
    (if answer.1.isEmpty then [] else [answer.1]) ++ given answer.2 calls

/-- The source after some calls. -/
def after (s : α) : (calls : Nat) → α
  | 0 => s
  | calls + 1 => after (next s).2 calls

theorem after_succ (s : α) (calls : Nat) : after s (calls + 1) = (next (after s calls)).2 := by
  induction calls generalizing s with
  | zero => rfl
  | succ calls ih => exact ih (next s).2

/-- Nothing more comes of the source. -/
structure Spent (s : α) : Prop where
  isGood : isGood s = false
  next : next s = ([], s)

theorem Spent.after {s : α} (h : Spent s) (calls : Nat) : after s calls = s := by
  induction calls with
  | zero => rfl
  | succ calls ih => rw [MediaSource.after, h.next, ih]

theorem Spent.given {s : α} (h : Spent s) (calls : Nat) : given s calls = [] := by
  induction calls with
  | zero => rfl
  | succ calls ih =>
    rw [MediaSource.given, h.next]
    exact ih

/-- A source that hands out its access units one after the other hands out the later ones after some
calls. -/
theorem after_of_plays {Plays : α → List AccessUnit → Prop}
    (hstep : ∀ s units, Plays s units →
      ∃ s', MediaSource.next s = (units.headD [], s') ∧ Plays s' units.tail)
    {s : α} {units : List AccessUnit} (h : Plays s units) (calls : Nat) :
    Plays (after s calls) (units.drop calls) := by
  induction calls generalizing s units with
  | zero => exact h
  | succ calls ih =>
    obtain ⟨s', hnext, hlater⟩ := hstep s units h
    rw [after, hnext, ← List.drop_tail]
    exact ih hlater

/-- A source that hands out its access units one after the other has handed out the first of them
after some calls. -/
theorem given_eq_take {Plays : α → List AccessUnit → Prop}
    (hstep : ∀ s units, Plays s units →
      ∃ s', MediaSource.next s = (units.headD [], s') ∧ Plays s' units.tail)
    {s : α} {units : List AccessUnit} (h : Plays s units) (hne : ∀ unit ∈ units, unit ≠ [])
    (calls : Nat) : given s calls = units.take calls := by
  induction calls generalizing s units with
  | zero => rfl
  | succ calls ih =>
    obtain ⟨s', hnext, hlater⟩ := hstep s units h
    have hrest := ih hlater fun unit hunit => hne unit (List.mem_of_mem_tail hunit)
    rw [given, hnext]
    simp only
    rw [hrest]
    rcases units with _ | ⟨unit, later⟩
    · simp
    · rw [List.headD_cons, if_neg (by simpa using hne unit (List.mem_cons_self ..)),
        List.tail_cons, List.singleton_append, List.take_succ_cons]

end MediaSource

/-! ### Sources that are not good -/

section

variable {σ : Type} [Storage σ]

theorem IndexedSource.spent_of_not_isGood {s : IndexedSource σ} (h : s.isGood = false) :
    MediaSource.Spent s := by
  refine ⟨h, ?_⟩
  change s.next = _
  rw [next, h]
  rfl

theorem YuvSource.spent_of_not_isGood {s : YuvSource σ} (h : s.isGood = false) :
    MediaSource.Spent s := by
  refine ⟨h, ?_⟩
  change s.next = _
  rw [next, h]
  rfl

/-- A reader that is not good has failed, or has met the end of its stream. -/
theorem StreamReader.spent_of_not_isGood {r : StreamReader σ} (h : r.isGood = false) :
    MediaSource.Spent r := by
  refine ⟨h, ?_⟩
  change r.next = _
  rw [isGood, Bool.and_eq_false_iff] at h
  rw [next]
  split
  · rfl
  · rename_i hintact
    have hfinished : r.finished = true := by simpa using h.resolve_left (by simpa using hintact)
    have hcall : r.nextSample = (.ok none, r) := by
      rw [nextSample, rounds, round, if_pos hfinished]
    rw [readUnit, collect, hcall]
    rfl

end

namespace MediaSource

/-- **A stream reader and an indexed source hand out the same access units** for any bytes in
memory, which are never so many that a position passes the largest: those of the stream, alike in
every field of their samples. -/
theorem given_reader_eq_given_index {data : List UInt8}
    (hdata : data.length ≤ MemoryStore.maxPosition) (mediaType : MediaType) (mode : TimestampMode)
    (chunkSize calls : Nat) :
    let input := Channel.ofStorage (MemoryStore.ofList data)
    let reader := (StreamReader.ofChannel input mediaType mode).withChunkSize chunkSize
    let source := IndexedSource.ofChannel input { mediaType, replay := .disabled, mode }
    given reader calls = given source calls ∧
      given source calls = (Extractor.accessUnits mediaType.codec mode.stamp
        (.ofCodec mediaType.codec) data).take calls := by
  intro input reader source
  have hpending : input.Pending (MemoryStore.Serves data) data :=
    Channel.pending_ofStorage (MemoryStore.serves_ofList data)
  have hreader : given reader calls = _ :=
    given_eq_take (fun r units => StreamReader.next_of_plays (MemoryStore.delivers data))
      (StreamReader.plays_ofChannel hpending mediaType mode chunkSize)
      Extractor.ne_nil_of_mem_accessUnits calls
  have hsource : given source calls = _ :=
    given_eq_take (fun s units => IndexedSource.next_of_plays hdata)
      (IndexedSource.plays_ofChannel hpending mediaType mode) Extractor.ne_nil_of_mem_accessUnits
      calls
  exact ⟨hreader.trans hsource.symm, hsource⟩

/-- A stream that begins with other bytes, read two bytes at a time. -/
theorem given_reader_eq_given_index_garbage :
    let data := [7, 0, 0, 1, 9, 240, 0, 0, 0, 1, 101, 136]
    let input := Channel.ofStorage (MemoryStore.ofList data)
    let reader := (StreamReader.ofChannel input .h264 .untimed).withChunkSize 2
    let source :=
      IndexedSource.ofChannel input { mediaType := .h264, replay := .disabled, mode := .untimed }
    data.length ≤ MemoryStore.maxPosition ∧ given reader 3 = given source 3 ∧
      given source 3 =
        (Extractor.accessUnits .h264 TimestampMode.untimed.stamp (.ofCodec .h264) data).take 3 :=
  ⟨by decide, given_reader_eq_given_index (by decide) .h264 .untimed 2 3⟩

end MediaSource

end AnnexB
