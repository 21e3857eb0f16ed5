/-
# What a failed chunk leaves

A reader asks its channel for chunks of a fixed size, and appends them to its accumulator.  One that
fails is appended as well: the bytes that came, and zeros for those that did not (`Chunk`).  The
reader that it leaves is that of a chunk with these bytes, so that nothing tells them from bytes of
the input (`readChunk_eq`).

A call of `nextSample` takes chunks without zeros until it has an answer, or until a chunk fails
(`nextSample_ingests`).  So a call leaves zeros exactly where it answers with a failure of the
storage, and the calls after it find them in the accumulator (`failed_chunk_leaves_zeros`).

All this holds of every reader over every kind of storage.
-/

import AnnexB.Proofs.Blocks
import AnnexB.Proofs.Failures.Storage
import AnnexB.Proofs.Rounds
import AnnexB.Proofs.Steps

namespace AnnexB

/-- What is appended to an accumulator for a chunk: bytes that came, then zeros. -/
structure Chunk where
  came : List UInt8
  missing : Nat
  deriving DecidableEq, Repr

namespace Chunk

def bytes (chunk : Chunk) : List UInt8 := chunk.came ++ List.replicate chunk.missing 0

/-- What comes of a delivery of which `n` bytes were wanted. -/
def ofDelivery (n : Nat) (d : Channel.Delivery) : Chunk :=
  ⟨d.bytes, if d.failure.isSome then n - d.bytes.length else 0⟩

theorem bytes_of_missing {chunk : Chunk} (h : chunk.missing = 0) : chunk.bytes = chunk.came := by
  rw [bytes, h, List.replicate_zero, List.append_nil]

end Chunk

namespace Channel

variable {σ : Type} [Storage σ] {n : Nat} {c c₁ c' : Channel σ} {chunks later : List Chunk}

/-- What `n` bytes wanted of a channel come to, again and again. -/
inductive Chunks (n : Nat) : Channel σ → List Chunk → Channel σ → Prop
  | none {c : Channel σ} : Chunks n c [] c
  | next {c c' : Channel σ} {later : List Chunk} (chunks : Chunks n (c.receive n).2 later c') :
      Chunks n c (.ofDelivery n (c.receive n).1 :: later) c'

theorem Chunks.append (h : Chunks n c chunks c₁) (hlater : Chunks n c₁ later c') :
    Chunks n c (chunks ++ later) c' := by
  induction h with
  | none => exact hlater
  | next _ ih => exact .next (ih hlater)

/-- A delivery that fails is not whole. -/
theorem length_lt_of_failure {failure : StorageFailure}
    (h : (c.receive n).1.failure = some failure) : (c.receive n).1.bytes.length < n := by
  obtain ⟨bytes, outcome, c', hreceive, hdraws⟩ := receive_draws c n
  rw [hreceive] at h ⊢
  subst h
  exact hdraws.length_lt

/-- There are zeros exactly in a chunk that fails. -/
theorem missing_pos_iff (c : Channel σ) (n : Nat) :
    0 < (Chunk.ofDelivery n (c.receive n).1).missing ↔ (c.receive n).1.failure.isSome := by
  rw [Chunk.ofDelivery]
  rcases hfailure : (c.receive n).1.failure with _ | failure
  · simp
  · have := length_lt_of_failure hfailure
    simp only [Option.isSome_some, if_true, iff_true]
    omega

end Channel

namespace StreamReader

variable {σ : Type} [Storage σ] {r r₁ r' : StreamReader σ} {chunks later : List Chunk}

/-- The failure of the storage that an answer tells. -/
def failure? : Except Error (Option Sample) → Option StorageFailure
  | .error (.storage failure) => some failure
  | _ => none

/-! ### Chunks -/

/-- **A chunk that fails is appended like one that comes**, with zeros for what is missing. -/
theorem readChunk_eq (r : StreamReader σ) :
    let (d, channel) := r.channel.receive r.chunkSize
    r.readChunk = (d.failure.map fun failure => .error (.storage failure),
      r.filled channel (Chunk.ofDelivery r.chunkSize d).bytes) := by
  rw [readChunk, fill]
  rcases hreceive : r.channel.receive r.chunkSize with ⟨⟨came, _ | failure⟩, channel⟩
  · have hwhole : (Chunk.ofDelivery r.chunkSize ⟨came, none⟩).bytes = came :=
      Chunk.bytes_of_missing rfl
    simp only [hwhole]
    rfl
  · have hshort : came.length < r.chunkSize := by
      have := Channel.length_lt_of_failure (c := r.channel) (by rw [hreceive])
      rwa [hreceive] at this
    have hsome : (came ++ List.replicate (r.chunkSize - came.length) (0 : UInt8)).isEmpty =
        false := by
      rw [List.isEmpty_eq_false_iff, ← List.length_pos_iff, List.length_append,
        List.length_replicate]
      omega
    simp only [Option.map_some, filled, Chunk.bytes, Chunk.ofDelivery, Option.isSome_some, if_true,
      hsome, Bool.or_false, List.append_assoc]

/-- On the way from `r` to `r'` the reader takes some chunks, and uses up bytes from the front. -/
structure Ingests (r : StreamReader σ) (chunks : List Chunk) (r' : StreamReader σ) : Prop where
  channel : Channel.Chunks r.chunkSize r.channel chunks r'.channel
  chunkSize : r'.chunkSize = r.chunkSize
  accumulator : ∃ used, used ++ r'.accumulator = r.accumulator ++ chunks.flatMap Chunk.bytes

theorem Ingests.refl (r : StreamReader σ) : Ingests r [] r :=
  ⟨.none, rfl, [], by simp⟩

theorem Ingests.trans (h : Ingests r chunks r₁) (hlater : Ingests r₁ later r') :
    Ingests r (chunks ++ later) r' := by
  obtain ⟨used, hused⟩ := h.accumulator
  obtain ⟨used', hused'⟩ := hlater.accumulator
  refine ⟨h.channel.append (h.chunkSize ▸ hlater.channel), hlater.chunkSize.trans h.chunkSize,
    used ++ used', ?_⟩
  rw [List.append_assoc, hused', ← List.append_assoc, hused, List.flatMap_append,
    List.append_assoc]

/-- Bytes are used up, and nothing else of what counts here is changed. -/
theorem ingests_drop {n : Nat} (hchannel : r'.channel = r.channel)
    (hchunkSize : r'.chunkSize = r.chunkSize)
    (haccumulator : r'.accumulator = r.accumulator.drop n) : Ingests r [] r' := by
  refine ⟨hchannel ▸ .none, hchunkSize, r.accumulator.take n, ?_⟩
  rw [haccumulator, List.take_append_drop, List.flatMap_nil, List.append_nil]

theorem Aligns.ingests (h : Aligns r r₁) : Ingests r [] r₁ := by
  obtain ⟨k, -, rfl⟩ := h.eq_drop
  exact ingests_drop rfl rfl rfl

theorem ingests_readChunk (r : StreamReader σ) :
    Ingests r [.ofDelivery r.chunkSize (r.channel.receive r.chunkSize).1] r.readChunk.2 := by
  have hread := r.readChunk_eq
  dsimp only at hread
  rw [hread]
  refine ⟨.next .none, rfl, [], ?_⟩
  rw [List.nil_append, List.flatMap_singleton]
  rfl

/-! ### Rounds and calls -/

/-- A round takes a chunk, or it has no part in the failures of the storage. -/
theorem round_ingests (r : StreamReader σ) :
    (∃ r₁, Ingests r [] r₁ ∧ r.round = r₁.readChunk) ∨
      Ingests r [] r.round.2 ∧ ∀ answer, r.round.1 = some answer → failure? answer = none := by
  obtain ⟨move, hturn⟩ := r.exists_turn
  rw [round_of_turn hturn]
  cases hturn with
  | rests => exact .inr ⟨.refl r, by rintro _ ⟨⟩; rfl⟩
  | searches => exact .inl ⟨r, .refl r, rfl⟩
  | loses => exact .inr ⟨.refl r, by rintro _ ⟨⟩; rfl⟩
  | waits _ aligns => exact .inl ⟨_, aligns.ingests, rfl⟩
  | fails _ aligns => exact .inr ⟨aligns.ingests, by rintro _ ⟨⟩; rfl⟩
  | stops _ aligns =>
    exact .inr ⟨aligns.ingests.trans (ingests_drop (n := 0) rfl rfl rfl), by rintro _ ⟨⟩; rfl⟩
  | takes _ aligns =>
    refine .inr ⟨aligns.ingests.trans (ingests_drop rfl rfl rfl), fun answer hanswer => ?_⟩
    dsimp only [Move.perform] at hanswer
    split at hanswer
    · cases hanswer
      rfl
    · cases hanswer

/-- **A call takes chunks without zeros**, and then gives an answer, or fails at the next chunk. -/
theorem rounds_ingests (r : StreamReader σ) (limit : Nat) :
    ∃ chunks r₁, Ingests r chunks r₁ ∧ (∀ chunk ∈ chunks, chunk.missing = 0) ∧
      (failure? (r.rounds limit).1 = none ∧ (r.rounds limit).2 = r₁ ∨
        ∃ failure, (r₁.channel.receive r₁.chunkSize).1.failure = some failure ∧
          r.rounds limit = (.error (.storage failure), r₁.readChunk.2)) := by
  induction limit generalizing r with
  | zero => exact ⟨[], r, .refl r, nofun, .inl ⟨rfl, rfl⟩⟩
  | succ limit ih =>
    rw [rounds]
    rcases r.round_ingests with ⟨r₁, hingests, hround⟩ | ⟨hingests, hfine⟩
    · have hread := r₁.readChunk_eq
      dsimp only at hread
      rw [hround, hread]
      rcases hfailure : (r₁.channel.receive r₁.chunkSize).1.failure with _ | failure
      · -- the chunk comes, and the call goes on
        have hchunk := r₁.ingests_readChunk
        rw [hread] at hchunk
        obtain ⟨chunks, r₂, hlater, hwhole, hanswer⟩ := ih _
        refine ⟨_, r₂, (hingests.trans hchunk).trans hlater, ?_, hanswer⟩
        intro chunk hmem
        rcases List.mem_append.1 hmem with hfirst | hmem
        · rw [List.nil_append, List.mem_singleton] at hfirst
          rw [hfirst, Chunk.ofDelivery, hfailure]
          rfl
        · exact hwhole chunk hmem
      · refine ⟨[], r₁, hingests, nofun, .inr ⟨failure, hfailure, ?_⟩⟩
        rw [hread]
        rfl
    · rcases hround : r.round with ⟨_ | answer, r₁⟩
      · rw [hround] at hingests
        obtain ⟨chunks, r₂, hlater, hwhole, hanswer⟩ := ih r₁
        exact ⟨_, r₂, hingests.trans hlater, hwhole, hanswer⟩
      · rw [hround] at hingests hfine
        exact ⟨[], r₁, hingests, nofun, .inl ⟨hfine answer rfl, rfl⟩⟩

/-- A call leaves zeros if and only if it answers with a failure of the storage. -/
theorem nextSample_ingests (r : StreamReader σ) :
    ∃ chunks, Ingests r chunks r.nextSample.2 ∧
      chunks.countP (fun chunk => 0 < chunk.missing) =
        if (failure? r.nextSample.1).isSome then 1 else 0 := by
  obtain ⟨chunks, r₁, hingests, hwhole, hanswer⟩ := r.rounds_ingests (r.roundsLeft + 1)
  have hnone : chunks.countP (fun chunk => 0 < chunk.missing) = 0 :=
    List.countP_eq_zero.2 fun chunk hmem => by simp [hwhole chunk hmem]
  rw [nextSample]
  rcases hanswer with ⟨hfine, hsame⟩ | ⟨failure, hfailure, hrounds⟩
  · exact ⟨chunks, hsame ▸ hingests, by rw [hnone, hfine]; rfl⟩
  · have hlast := (r₁.channel.missing_pos_iff r₁.chunkSize).2 (by rw [hfailure]; rfl)
    rw [hrounds]
    refine ⟨_, hingests.trans r₁.ingests_readChunk, ?_⟩
    rw [List.countP_append, hnone, List.countP_singleton]
    simp [hlast, failure?]

/-- **Of the calls in a row, those that fail leave zeros.** -/
theorem calls_ingest (r : StreamReader σ) (calls : Nat) :
    let run := (again nextSample calls).run r
    ∃ chunks, Ingests r chunks run.2 ∧
      chunks.countP (fun chunk => 0 < chunk.missing) =
        run.1.countP fun answer => (failure? answer).isSome := by
  induction calls generalizing r with
  | zero => exact ⟨[], .refl r, rfl⟩
  | succ calls ih =>
    obtain ⟨chunks, hingests, hcount⟩ := r.nextSample_ingests
    obtain ⟨later, hlater, hcount'⟩ := ih r.nextSample.2
    rw [run_again_succ]
    refine ⟨_, hingests.trans hlater, ?_⟩
    rw [List.countP_append, List.countP_cons, hcount, hcount', Nat.add_comm]

/-- **A chunk that fails leaves zeros in the accumulator.**  Over storage of any kind, a reader is
asked for samples again and again.  The bytes that it has used up and those in its accumulator are
then the chunks that its channel has delivered one after the other, each with zeros for what is
missing; and as many have zeros as answers have told a failure.  So where the next call fails, it is
with a reader `r₁` that it has come to by chunks without zeros, and what it leaves is the reader of a
chunk with the bytes that came and at least one zero. -/
theorem failed_chunk_leaves_zeros (c : Channel σ) (mediaType : MediaType) (mode : TimestampMode)
    (size calls : Nat) :
    let fresh := (ofChannel c mediaType mode).withChunkSize size
    let run := (again nextSample calls).run fresh
    let r := run.2
    (∃ chunks used, Channel.Chunks r.chunkSize c chunks r.channel ∧
      used ++ r.accumulator = chunks.flatMap Chunk.bytes ∧
      chunks.countP (fun chunk => 0 < chunk.missing) =
        run.1.countP fun answer => (failure? answer).isSome) ∧
    ∀ (failure : StorageFailure) (r' : StreamReader σ),
      r.nextSample = (.error (.storage failure), r') →
      ∃ (chunks : List Chunk) (used : List UInt8) (r₁ : StreamReader σ) (came : List UInt8)
        (channel : Channel σ),
        Channel.Chunks r.chunkSize r.channel chunks r₁.channel ∧
        (∀ chunk ∈ chunks, chunk.missing = 0) ∧
        used ++ r₁.accumulator = r.accumulator ++ chunks.flatMap Chunk.bytes ∧
        r₁.channel.receive r.chunkSize = (⟨came, some failure⟩, channel) ∧
        came.length < r.chunkSize ∧
        r' = r₁.filled channel (came ++ List.replicate (r.chunkSize - came.length) 0) := by
  intro fresh run r
  constructor
  · obtain ⟨chunks, hingests, hcount⟩ := calls_ingest fresh calls
    obtain ⟨used, hused⟩ := hingests.accumulator
    exact ⟨chunks, used, hingests.chunkSize ▸ hingests.channel, hused, hcount⟩
  intro failure r' hnext
  obtain ⟨chunks, r₁, hingests, hwhole, hanswer⟩ := r.rounds_ingests (r.roundsLeft + 1)
  obtain ⟨used, hused⟩ := hingests.accumulator
  change r.rounds (r.roundsLeft + 1) = _ at hnext
  rw [hnext] at hanswer
  rcases hanswer with ⟨hfine, -⟩ | ⟨failure', hfailure, hsame⟩
  · cases hfine
  cases hsame
  have hread := r₁.readChunk_eq
  have hshort := Channel.length_lt_of_failure hfailure
  rw [hingests.chunkSize] at hread hshort hfailure
  rcases hreceive : r₁.channel.receive r.chunkSize with ⟨⟨came, outcome⟩, channel⟩
  rw [hreceive] at hread hshort hfailure
  subst hfailure
  exact ⟨chunks, used, r₁, came, channel, hingests.channel, hwhole, hused, hreceive, hshort,
    congrArg Prod.snd hread⟩

/-- Five bytes of a chunk come before a read fails.  The unit that they open goes on with 12, but is
given with two of the three zeros instead. -/
example :
    let s : ScriptedStore :=
      ⟨.ofList [0, 0, 1, 9, 16, 12, 13, 14, 0, 0, 1, 101, 136], [some 5, none]⟩
    let r := (ofChannel (.ofStorage s) .h264 .untimed).withChunkSize 8
    ((again nextSample 2).run r).1.map (Except.map (Option.map fun sample => sample.data.toList)) =
      [.error (.storage .system), .ok (some [9, 16, 0, 0])] := by
  decide +kernel

end StreamReader
end AnnexB
