/-
# Driving an extractor

A caller that follows the extractor's answers begins with an empty buffer, appends a chunk when the
extractor asks for data, and drops what the extractor has consumed, until the end of the stream or
an error.  More data may follow as long as a chunk is left.
-/

import AnnexB.AccessUnit.Extractor

namespace AnnexB

/-- An answer of an extractor other than that it needs more data, and the number of bytes that had
arrived when it came. -/
structure DriveStep where
  fed : Nat
  answer : Except Error Extraction

/-- The data in chunks of `n` bytes, the last one shorter if need be; of one byte each for 0. -/
def chunksOf (n : Nat) (data : List UInt8) : List (List UInt8) :=
  match data with
  | [] => []
  | byte :: rest => (byte :: rest.take (n - 1)) :: chunksOf n (rest.drop (n - 1))
termination_by data.length
decreasing_by simp only [List.length_cons, List.length_drop]; omega

namespace Extractor

/-- Follows the answers of an extractor, given the buffer, the number of bytes that have arrived and
the chunks left, over at most `calls` calls. -/
def follow (e : Extractor) (buffer : List UInt8) (fed : Nat) (chunks : List (List UInt8)) :
    (calls : Nat) → List DriveStep × Extractor
  | 0 => ([], e)
  | calls + 1 =>
    match e.extract buffer (if chunks.isEmpty then .complete else .growing) with
    | (.error err, e) => ([⟨fed, .error err⟩], e)
    | (.ok answer, e) =>
      match answer.status, chunks with
      | .endOfStream, _ => ([⟨fed, .ok answer⟩], e)
      | .consumed n, _ =>
        let (later, e) := follow e (buffer.drop n) fed chunks calls
        (⟨fed, .ok answer⟩ :: later, e)
      | .needMoreData, [] => ([], e)
      | .needMoreData, chunk :: chunks =>
        follow e (buffer ++ chunk) (fed + chunk.length) chunks calls

/-- Follows the answers of an extractor to the end of a stream that comes in chunks.  Each call uses
up a chunk or bytes that have arrived, or is the last. -/
def drive (e : Extractor) (chunks : List (List UInt8)) : List DriveStep × Extractor :=
  e.follow [] 0 chunks (chunks.length + chunks.flatten.length + 1)

end Extractor

end AnnexB
