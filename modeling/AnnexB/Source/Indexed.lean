/-
# Indexed sources

An indexed source reads its whole input once, in chunks, to find the access units, and keeps only
where they lie.  To serve one it seeks to the first start code of the access unit and reads up to
the end of its last payload.

A source whose input cannot be indexed is not good, and has an empty index.
-/

import AnnexB.Nal.Indexer
import AnnexB.AccessUnit.Boundary
import AnnexB.Source.Basic
import AnnexB.Storage.Channel

namespace AnnexB

/-- The index of a stream, and where its samples come from. -/
structure IndexedSource (σ : Type) where
  config : SourceConfig
  channel : Option (Channel σ)
  units : List (List NalSpan)
  /-- Numbers the samples in decoding order. -/
  boundary : Boundary
  cursor : ReplayCursor
  intact : Bool
  deriving Repr, Inhabited

namespace IndexedSource

variable {σ : Type} [Storage σ]

/-- The size of the chunks in which the input is indexed. -/
def chunkSize : Nat := 20000

/-- Reads the rest of a channel into an indexer, which has seen `size` bytes.  Gives the indexer
after at most `limit` chunks, and the number of bytes it has seen then. -/
def indexRest (c : Channel σ) (x : StartCodeIndexer) (size : Nat) :
    (limit : Nat) → Except Error (StartCodeIndexer × Nat) × Channel σ
  | 0 => (.ok (x, size), c)
  | limit + 1 =>
    match c.readSome chunkSize with
    | (.error e, c) => (.error e, c)
    | (.ok [], c) => (.ok (x, size), c)
    | (.ok chunk, c) => indexRest c (x.push chunk) (size + chunk.length) limit

/-- The NAL units of a whole input. -/
def indexInput (c : Channel σ) : Except Error (List NalSpan) × Channel σ :=
  match c.seek (.start 0) with
  | (.error e, c) => (.error e, c)
  | (.ok _, c) =>
    match indexRest c .empty 0 (c.remaining + 1) with
    | (.error e, c) => (.error e, c)
    | (.ok (x, size), c) =>
      match x.finish size with
      | [] => (.error (.noNalUnit size), c)
      | units => (.ok units, c)

/-- A source without input. -/
def failed (config : SourceConfig) : IndexedSource σ :=
  { config, channel := none, units := [], boundary := .ofCodec config.mediaType.codec
    cursor := .start config.replay 0, intact := false }

/-- A source over the input of a channel. -/
def ofChannel (c : Channel σ) (config : SourceConfig) : IndexedSource σ :=
  match indexInput c with
  | (.error _, _) => failed config
  | (.ok spans, c) =>
    let codec := config.mediaType.codec
    let boundary := Boundary.ofCodec codec
    let units := boundary.group (spans.map fun u => (u.header codec, u))
    { config, channel := some c, units, boundary := .ofCodec codec
      cursor := .start config.replay units.length, intact := true }

/-- The number of access units of a pass. -/
def unitsPerPass (s : IndexedSource σ) : Nat := s.units.length

/-- The samples of units whose bytes stand in `bytes`, which begin at position `start` of the
stream. -/
def samples (bytes : Array UInt8) (start : Nat) (time : Timestamp) (b : Boundary) :
    List NalSpan → AccessUnit × Boundary
  | [] => ([], b)
  | u :: rest =>
    let (number, b) := b.takeNumber
    let payload := bytes.extract (u.payloadOffset - start) (u.stop - start)
    let sample := { Sample.ofPayload payload.toList with
      time, startCode := some u.startCode, marker := rest.isEmpty, decodingOrder := number }
    let (later, b) := samples bytes start time b rest
    (sample :: later, b)

/-- Reads the bytes from the first start code of some units to the end of the last of them. -/
def readSpan (c : Channel σ) (first last : NalSpan) : Except Error (List UInt8) × Channel σ :=
  match c.seek (.start (UInt64.ofNat first.startCodeOffset)) with
  | (.error e, c) => (.error e, c)
  | (.ok _, c) => c.readExact (last.stop - first.startCodeOffset)

/-- Reads the access unit that the cursor stands at. -/
def readUnit (s : IndexedSource σ) : Except Error AccessUnit × IndexedSource σ :=
  match s.units[s.cursor.position]?.getD [] with
  | [] => (.ok [], s)
  | first :: rest =>
    match s.channel with
    | none => (.error .noStorage, s)
    | some c =>
      match readSpan c first (rest.getLastD first) with
      | (.error e, c) => (.error e, { s with channel := some c })
      | (.ok bytes, c) =>
        let time := s.config.mode.stamp s.cursor.served.toNat
        let (unit, boundary) :=
          samples bytes.toArray first.startCodeOffset time s.boundary (first :: rest)
        (.ok unit, { s with channel := some c, boundary })

def isGood (s : IndexedSource σ) : Bool := s.intact && !s.cursor.atEnd

/-- The next access unit.  A read that fails ends the source. -/
def next (s : IndexedSource σ) : AccessUnit × IndexedSource σ :=
  if !s.isGood then ([], s)
  else
    match s.readUnit with
    | (.ok unit, s) => (unit, { s with cursor := s.cursor.advance })
    | (.error _, s) => ([], { s with intact := false })

instance : MediaSource (IndexedSource σ) where
  name s := s.config.mediaType.name
  isGood := isGood
  next := next
  bound s := s.cursor.left

end IndexedSource

end AnnexB
