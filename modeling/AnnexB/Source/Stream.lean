/-
# Stream readers

A stream reader reads its input in chunks, collects them in an accumulator, and drives an extractor
over it.  Bytes before the first start code are skipped.

| call | gives |
| --- | --- |
| `nextSample` | the next sample, or none at the end |
| `readUnit` | the samples up to the next one that is marked |
| `next` | the same; after an error it gives nothing any more |

When a read fails, the accumulator is left at the length for which the chunk was asked: the bytes
that came, then zeros.
-/

import AnnexB.AccessUnit.Extractor
import AnnexB.Source.Basic
import AnnexB.Storage.Channel

namespace AnnexB

/-- A channel, an extractor, and the bytes between them. -/
structure StreamReader (σ : Type) where
  channel : Channel σ
  extractor : Extractor
  accumulator : List UInt8 := []
  chunkSize : Nat
  /-- Whether the input is read to its end. -/
  inputDone : Bool := false
  /-- Whether the accumulator begins with a start code. -/
  synced : Bool := false
  /-- Whether the extractor has seen the end of the stream. -/
  finished : Bool := false
  /-- Whether no access unit was lost to an error. -/
  intact : Bool := true
  deriving Repr, Inhabited

namespace StreamReader

variable {σ : Type}

def defaultChunkSize : Nat := 4096

/-- A reader of a channel from its position on. -/
def ofChannel (channel : Channel σ) (mediaType : MediaType) (mode : TimestampMode) :
    StreamReader σ :=
  { channel, extractor := .ofMediaType mediaType mode, chunkSize := defaultChunkSize }

/-- The reader with chunks of `n` bytes, of one byte for 0. -/
def withChunkSize (r : StreamReader σ) (n : Nat) : StreamReader σ := { r with chunkSize := max n 1 }

/-- Whether the accumulator can still grow. -/
def extent (r : StreamReader σ) : Extent := if r.inputDone then .complete else .growing

variable [Storage σ]

/-- Reads the next chunk.  An empty one is the end of the input. -/
def fill (r : StreamReader σ) : Except Error Unit × StreamReader σ :=
  match r.channel.receive r.chunkSize with
  | (⟨bytes, none⟩, channel) =>
    (.ok (), { r with channel, accumulator := r.accumulator ++ bytes
                      inputDone := r.inputDone || bytes.isEmpty })
  | (⟨bytes, some failure⟩, channel) =>
    let padding := List.replicate (r.chunkSize - bytes.length) 0
    let accumulator := r.accumulator ++ bytes ++ padding
    (.error (.storage failure), { r with channel, accumulator })

/-- Skips to the first start code, or reads a chunk to find one. -/
def sync (r : StreamReader σ) : Except Error Unit × StreamReader σ :=
  if (StartCode.leading? r.accumulator).isSome then (.ok (), { r with synced := true })
  else
    match StartCodeMatch.find? r.extent r.accumulator 0 with
    | some found =>
      (.ok (), { r with accumulator := r.accumulator.drop found.offset, synced := true })
    | none =>
      if !r.inputDone then r.fill
      else if r.accumulator.length ≥ minUnitSize then (.error .noStartCode, r)
      else (.ok (), { r with synced := true })

/-- Extracts from the accumulator, or reads a chunk for the extractor.  Gives an answer of
`nextSample`, if that is one. -/
def extract (r : StreamReader σ) : Option (Except Error (Option Sample)) × StreamReader σ :=
  match r.extractor.extract r.accumulator r.extent with
  | (.error e, extractor) => (some (.error e), { r with extractor })
  | (.ok ⟨sample, status⟩, extractor) =>
    let r := { r with extractor }
    match status with
    | .consumed n =>
      let r := { r with accumulator := r.accumulator.drop n }
      (if sample.isSome then some (.ok sample) else none, r)
    | .needMoreData =>
      match r.fill with
      | (.ok _, r) => (none, r)
      | (.error e, r) => (some (.error e), r)
    | .endOfStream => (some (.ok sample), { r with finished := true })

/-- One round of `nextSample`: gives its answer, if there is one yet. -/
def round (r : StreamReader σ) : Option (Except Error (Option Sample)) × StreamReader σ :=
  if r.finished then (some (.ok none), r)
  else if r.synced then r.extract
  else
    match r.sync with
    | (.error e, r) => (some (.error e), r)
    | (.ok _, r) => if r.synced then r.extract else (none, r)

/-- A bound on the rounds that go by without an answer.  A chunk that comes turns three units of it
into one, a unit that is consumed uses up its bytes, and the end of the input and of the search for
the first start code come once. -/
def roundsLeft (r : StreamReader σ) : Nat :=
  3 * r.channel.remaining + r.accumulator.length + (if r.inputDone then 0 else 2)
    + (if r.synced then 0 else 1)

/-- Rounds until there is an answer, at most `limit` of them. -/
def rounds (r : StreamReader σ) : (limit : Nat) → Except Error (Option Sample) × StreamReader σ
  | 0 => (.ok none, r)
  | limit + 1 =>
    match r.round with
    | (some answer, r) => (answer, r)
    | (none, r) => rounds r limit

/-- The next sample, or none at the end of the stream. -/
def nextSample (r : StreamReader σ) : Except Error (Option Sample) × StreamReader σ :=
  r.rounds (r.roundsLeft + 1)

/-- Collects samples, latest first, up to a marked one; at most `limit` of them. -/
def collect (r : StreamReader σ) (samples : List Sample) :
    (limit : Nat) → Except Error (List Sample) × StreamReader σ
  | 0 => (.ok samples.reverse, r)
  | limit + 1 =>
    match r.nextSample with
    | (.error e, r) => (.error e, r)
    | (.ok none, r) => (.ok samples.reverse, r)
    | (.ok (some sample), r) =>
      if sample.marker then (.ok (sample :: samples).reverse, r)
      else collect r (sample :: samples) limit

/-- The next access unit, or none at the end of the stream. -/
def readUnit (r : StreamReader σ) : Except Error (Option AccessUnit) × StreamReader σ :=
  match r.collect [] (r.roundsLeft + 2) with
  | (.error e, r) => (.error e, r)
  | (.ok [], r) => (.ok none, r)
  | (.ok samples, r) => (.ok (some samples), r)

def isGood (r : StreamReader σ) : Bool := r.intact && !r.finished

/-- The next access unit, empty at the end of the stream and from the first error on. -/
def next (r : StreamReader σ) : AccessUnit × StreamReader σ :=
  if !r.intact then ([], r)
  else
    match r.readUnit with
    | (.ok unit, r) => (unit.getD [], r)
    | (.error _, r) => ([], { r with intact := false })

instance : MediaSource (StreamReader σ) where
  name r := r.extractor.mediaType.name
  isGood := isGood
  next := next
  bound r := some (r.roundsLeft + 2)

end StreamReader

end AnnexB
