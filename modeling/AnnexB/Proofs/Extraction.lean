/-
# What a call of an extractor gives

A call takes the unit at the front of its buffer, or asks for more data.  While data may still
arrive, the unit behind the one at the front must have arrived with its header: then a call on any
longer buffer gives the same (`extract_growing`), so that answers are final
(`extract_growing_final`).

All that a call can give is said once, by `Gives`.  A call that takes a unit takes at least a start
code, no more than there is, and up to the next start code.
-/

import AnnexB.Proofs.Grouping

namespace AnnexB

open StartCodeMatch NalSpan

namespace NalHeader

variable {codec : VideoCodec} {payload : List UInt8}

theorem probeLength_le (codec : VideoCodec) : codec.probeLength ≤ headerSize := by
  cases codec <;> decide

/-- A header depends on no bytes behind those that are probed. -/
theorem ofPayload_append (h : codec.probeLength ≤ payload.length) (rest : List UInt8) :
    ofPayload codec (payload ++ rest) = ofPayload codec payload := by
  have hget : ∀ i < codec.probeLength, (payload ++ rest)[i]? = payload[i]? := fun i hi =>
    List.getElem?_append_left (by omega)
  cases codec
  · simp only [ofPayload, hget 0 (by decide)]
  · simp only [ofPayload, hget 0 (by decide), hget 1 (by decide), hget 2 (by decide)]

/-- Three bytes are enough for a header. -/
theorem ofPayload_take (codec : VideoCodec) (payload : List UInt8) :
    ofPayload codec (payload.take headerSize) = ofPayload codec payload := by
  have hget : ∀ i < headerSize, (payload.take headerSize)[i]? = payload[i]? := fun i hi =>
    List.getElem?_take_of_lt hi
  cases codec
  · simp only [ofPayload, hget 0 (by decide)]
  · simp only [ofPayload, hget 0 (by decide), hget 1 (by decide), hget 2 (by decide)]

theorem ofPayload?_eq (codec : VideoCodec) (payload : List UInt8) :
    ofPayload? codec payload =
      if codec.probeLength ≤ payload.length then some (ofPayload codec payload) else none := by
  rw [ofPayload?, List.length_take]
  by_cases h : codec.probeLength ≤ payload.length
  · rw [if_pos h, if_neg (by omega)]
  · rw [if_neg h, if_pos (by omega)]

end NalHeader

namespace Extractor

variable {e e' : Extractor} {buffer data : List UInt8} {c : StartCode}

/-- What a call gives that takes the first `stop` bytes of the buffer, a start code and a unit. -/
def takeFront (e : Extractor) (buffer : List UInt8) (c : StartCode) (stop : Nat)
    (next : Option NalHeader) : Except Error Extraction × Extractor :=
  let result := (e.prime (buffer.drop c.size)).step c ((buffer.take stop).drop c.size) next
  (.ok ⟨result.1, .consumed stop⟩, result.2)

theorem extract_of_short (h : buffer.length < minUnitSize) (extent : Extent) :
    e.extract buffer extent =
      match extent with
      | .growing => (.ok ⟨none, .needMoreData⟩, e)
      | .complete => (.ok ⟨e.flush.1, .endOfStream⟩, e.flush.2) := by
  have hlength : (buffer.take minUnitSize).length < minUnitSize := by
    rw [List.length_take]
    omega
  cases extent <;> exact if_pos hlength

theorem extract_of_leading?_none (h : minUnitSize ≤ buffer.length)
    (hc : StartCode.leading? buffer = none) (extent : Extent) :
    e.extract buffer extent = (.error .noLeadingStartCode, e) := by
  rw [extract.eq_def, if_neg (by rw [List.length_take]; omega), hc]

theorem extract_of_leading? (h : minUnitSize ≤ buffer.length)
    (hc : StartCode.leading? buffer = some c) (extent : Extent) :
    e.extract buffer extent =
      match findNext e.codec buffer extent with
      | .unknown => (.ok ⟨none, .needMoreData⟩, e)
      | .unit found header => e.takeFront buffer c (max found.offset c.size) (some header)
      | .last => e.takeFront buffer c buffer.length none := by
  rw [extract.eq_def, if_neg (by rw [List.length_take]; omega), hc]
  rfl

theorem findNext_complete (codec : VideoCodec) (buffer : List UInt8) :
    findNext codec buffer .complete =
      match find? .complete buffer nextSearchOffset with
      | none => .last
      | some m => .unit m (.ofPayload codec (buffer.drop m.payloadOffset)) := by
  rw [findNext.eq_def]
  cases find? .complete buffer nextSearchOffset <;> rfl

theorem findNext_growing (codec : VideoCodec) (buffer : List UInt8) :
    findNext codec buffer .growing =
      match find? .growing buffer nextSearchOffset with
      | none => .unknown
      | some m =>
        if codec.probeLength ≤ (buffer.drop m.payloadOffset).length then
          .unit m (.ofPayload codec (buffer.drop m.payloadOffset))
        else .unknown := by
  rw [findNext.eq_def]
  rcases find? .growing buffer nextSearchOffset with _ | m
  · rfl
  · by_cases h : codec.probeLength ≤ (buffer.drop m.payloadOffset).length
    · simp only [NalHeader.ofPayload?_eq, if_pos h]
    · simp only [NalHeader.ofPayload?_eq, if_neg h]

theorem findNext_growing_ne_last (codec : VideoCodec) (buffer : List UInt8) :
    findNext codec buffer .growing ≠ .last := by
  rw [findNext_growing]
  split
  · simp
  · split <;> simp

/-- While data may grow, the unit behind the one at the front is found by its start code once its
header has arrived. -/
theorem find?_of_findNext_growing {codec : VideoCodec} {m : StartCodeMatch} {h : NalHeader}
    (hnext : findNext codec buffer .growing = .unit m h) :
    find? .growing buffer nextSearchOffset = some m ∧
      codec.probeLength ≤ (buffer.drop m.payloadOffset).length ∧
      NalHeader.ofPayload codec (buffer.drop m.payloadOffset) = h := by
  rw [findNext_growing] at hnext
  rcases hfind : find? .growing buffer nextSearchOffset with _ | found <;> rw [hfind] at hnext
  · simp at hnext
  · simp only at hnext
    split at hnext
    · rename_i hprobe
      obtain ⟨rfl, rfl⟩ := Next.unit.inj hnext
      exact ⟨rfl, hprobe, rfl⟩
    · simp at hnext

theorem find?_of_findNext {codec : VideoCodec} {extent : Extent} {m : StartCodeMatch}
    {h : NalHeader} (hnext : findNext codec buffer extent = .unit m h) :
    find? extent buffer nextSearchOffset = some m := by
  cases extent
  · exact (find?_of_findNext_growing hnext).1
  · rw [findNext_complete] at hnext
    rcases hfind : find? .complete buffer nextSearchOffset with _ | found <;> rw [hfind] at hnext
    · simp at hnext
    · rw [(Next.unit.inj hnext).1]

/-- A unit found while data may grow is found in longer data, with the same header. -/
theorem findNext_append {codec : VideoCodec} {m : StartCodeMatch} {h : NalHeader}
    (hnext : findNext codec buffer .growing = .unit m h) (extent : Extent) (rest : List UInt8) :
    findNext codec (buffer ++ rest) extent = .unit m h := by
  obtain ⟨hfind, hprobe, rfl⟩ := find?_of_findNext_growing hnext
  have hpos : m.payloadOffset ≤ buffer.length := by
    have hcodec : 0 < codec.probeLength := by cases codec <;> decide
    rw [List.length_drop] at hprobe
    omega
  have hdrop : (buffer ++ rest).drop m.payloadOffset = buffer.drop m.payloadOffset ++ rest :=
    List.drop_append_of_le_length hpos
  have hheader := NalHeader.ofPayload_append hprobe rest
  have hfound := find?_append hfind extent rest
  cases extent
  · rw [findNext_growing, hfound]
    simp only [hdrop, hheader]
    rw [if_pos (by rw [List.length_append]; omega)]
  · rw [findNext_complete, hfound]
    simp only [hdrop, hheader]

/-- A start code found behind the one at the front begins where that one ends or later, and bytes
for it have arrived. -/
theorem bounds_of_find? {extent : Extent} {m : StartCodeMatch}
    (hc : StartCode.leading? buffer = some c)
    (hfind : find? extent buffer nextSearchOffset = some m) :
    c.size ≤ m.offset ∧ m.offset + 3 + extent.payloadNeeded ≤ buffer.length := by
  obtain ⟨i, hi, rfl⟩ := find?_eq_some_iff.1 hfind
  obtain ⟨hle, hp, -⟩ := head?_patterns_eq_some_iff.1 hi
  have hlen := (hasPattern_drop_iff.1 hp).2.2.2
  have hoff := @codeOffset_le buffer i
  rw [offset_atPattern]
  rw [nextSearchOffset] at hle
  refine ⟨?_, by omega⟩
  have hfront := StartCode.eq_of_leading? hc
  have hsize := c.size_bounds
  have hzero : hasPattern 0 (buffer.drop (c.size - 3)) = true := by
    rw [hfront]
    cases c <;> rfl
  have := le_codeOffset hzero hp (by omega)
  omega

theorem prime_append {payload : List UInt8} (h : headerSize ≤ payload.length) (rest : List UInt8) :
    e.prime (payload ++ rest) = e.prime payload := by
  have hprobe := NalHeader.probeLength_le e.codec
  rw [prime, prime, NalHeader.ofPayload_append (by omega)]

/-- What is taken from the front does not depend on bytes that arrive later. -/
theorem takeFront_append {stop : Nat} (hc : c.size + headerSize ≤ buffer.length)
    (hstop : stop ≤ buffer.length) (next : Option NalHeader) (rest : List UInt8) :
    e.takeFront (buffer ++ rest) c stop next = e.takeFront buffer c stop next := by
  rw [takeFront, takeFront, List.take_append_of_le_length hstop,
    List.drop_append_of_le_length (by omega), prime_append (by rw [List.length_drop]; omega)]

/-- **What a call gives while data may still arrive is final:** it asks for more data, or gives what
a call on any longer buffer gives. -/
theorem extract_growing (e : Extractor) (buffer : List UInt8) (extent : Extent)
    (rest : List UInt8) :
    e.extract buffer .growing = (.ok ⟨none, .needMoreData⟩, e) ∨
      e.extract buffer .growing = e.extract (buffer ++ rest) extent := by
  have hmin : minUnitSize = 5 := rfl
  rcases Nat.lt_or_ge buffer.length minUnitSize with hshort | hlong
  · exact .inl (extract_of_short hshort .growing)
  have hlong' : minUnitSize ≤ (buffer ++ rest).length := by rw [List.length_append]; omega
  have hlead := StartCode.leading?_append (show 4 ≤ buffer.length by omega) rest
  rcases hc : StartCode.leading? buffer with _ | c <;> rw [hc] at hlead
  · rw [extract_of_leading?_none hlong hc, extract_of_leading?_none hlong' hlead]
    exact .inr rfl
  · rw [extract_of_leading? hlong hc, extract_of_leading? hlong' hlead]
    rcases hnext : findNext e.codec buffer .growing with ⟨m, header⟩ | _ | _
    · right
      obtain ⟨hfind, -, -⟩ := find?_of_findNext_growing hnext
      obtain ⟨hsize, hlen⟩ := bounds_of_find? hc hfind
      rw [Extent.payloadNeeded_growing] at hlen
      rw [findNext_append hnext extent rest]
      exact (takeFront_append (by rw [headerSize]; omega) (by omega) _ _).symm
    · exact absurd hnext (findNext_growing_ne_last _ _)
    · exact .inl rfl

/-! ### What a call can give -/

/-- Where a start code is found, it is that of the data from there on. -/
theorem leading?_drop_of_find? {extent : Extent} {start : Nat} {m : StartCodeMatch}
    (h : find? extent data start = some m) :
    StartCode.leading? (data.drop m.offset) = some m.startCode := by
  obtain ⟨i, hi, rfl⟩ := find?_eq_some_iff.1 h
  obtain ⟨-, hp, -⟩ := head?_patterns_eq_some_iff.1 hi
  rw [offset_atPattern, drop_codeOffset hp, StartCode.leading?_bytes_append]
  rfl

/-- What a call can give: it waits, ends the stream, finds no start code, or takes the unit at the
front of the buffer. -/
inductive Gives (e : Extractor) (buffer : List UInt8) (extent : Extent) :
    Except Error Extraction × Extractor → Prop
  | waits (growing : extent = .growing) : Gives e buffer extent (.ok ⟨none, .needMoreData⟩, e)
  | stops (complete : extent = .complete) (short : buffer.length < minUnitSize) :
      Gives e buffer extent (.ok ⟨e.flush.1, .endOfStream⟩, e.flush.2)
  | fails (long : minUnitSize ≤ buffer.length) (unaligned : StartCode.leading? buffer = none) :
      Gives e buffer extent (.error .noLeadingStartCode, e)
  /-- Behind the unit stands the next start code, or nothing and nothing follows. -/
  | takes {sample : Option Sample} {n : Nat} {e' : Extractor} (startCode : 3 ≤ n)
      (within : n ≤ buffer.length)
      (behind : (StartCode.leading? (buffer.drop n)).isSome ∨
        extent = .complete ∧ n = buffer.length) :
      Gives e buffer extent (.ok ⟨sample, .consumed n⟩, e')

theorem extract_gives (e : Extractor) (buffer : List UInt8) (extent : Extent) :
    Gives e buffer extent (e.extract buffer extent) := by
  have hmin : minUnitSize = 5 := rfl
  rcases Nat.lt_or_ge buffer.length minUnitSize with hshort | hlong
  · rw [extract_of_short hshort]
    cases extent
    · exact .waits rfl
    · exact .stops rfl hshort
  rcases hc : StartCode.leading? buffer with _ | c
  · rw [extract_of_leading?_none hlong hc]
    exact .fails hlong hc
  have hthree := c.size_bounds
  rw [extract_of_leading? hlong hc]
  rcases hnext : findNext e.codec buffer extent with ⟨m, header⟩ | _ | _
  · have hfind := find?_of_findNext hnext
    obtain ⟨hsize, hlen⟩ := bounds_of_find? hc hfind
    refine .takes (by omega) (by omega) (.inl ?_)
    rw [Nat.max_eq_left hsize, leading?_drop_of_find? hfind]
    rfl
  · cases extent
    · exact absurd hnext (findNext_growing_ne_last _ _)
    · exact .takes (by omega) (Nat.le_refl _) (.inr ⟨rfl, rfl⟩)
  · cases extent
    · exact .waits rfl
    · rw [findNext_complete] at hnext
      split at hnext <;> simp at hnext

/-- A call takes at least a start code, and no more than there is. -/
theorem bounds_of_extract {extent : Extent} {sample : Option Sample} {n : Nat}
    (h : e.extract buffer extent = (.ok ⟨sample, .consumed n⟩, e')) :
    3 ≤ n ∧ n ≤ buffer.length := by
  have hgives := e.extract_gives buffer extent
  rw [h] at hgives
  cases hgives with
  | takes startCode within behind => exact ⟨startCode, within⟩

/-- **Answers given while data may still arrive are final.**  A request for data changes nothing.
An error changes nothing either, and no more data helps.  A unit that is taken is taken from any
longer buffer as well, with the same sample and the same state after it, whether more may follow or
not.  The stream does not end. -/
theorem extract_growing_final (e : Extractor) (buffer rest : List UInt8) (extent : Extent) :
    match e.extract buffer .growing with
    | (.ok ⟨sample, .needMoreData⟩, e') => sample = none ∧ e' = e
    | (.error error, e') => e' = e ∧ e.extract (buffer ++ rest) extent = (.error error, e)
    | (.ok ⟨sample, .consumed n⟩, e') =>
      e.extract (buffer ++ rest) extent = (.ok ⟨sample, .consumed n⟩, e')
    | (.ok ⟨_, .endOfStream⟩, _) => False := by
  have hfinal := e.extract_growing buffer extent rest
  have hgives := e.extract_gives buffer .growing
  generalize e.extract buffer .growing = answer at hfinal hgives
  cases hgives with
  | waits growing => exact ⟨rfl, rfl⟩
  | stops complete short => simp at complete
  | fails long unaligned => exact ⟨rfl, (hfinal.resolve_left (by simp)).symm⟩
  | takes startCode within behind => exact (hfinal.resolve_left (by simp)).symm

end Extractor
end AnnexB
