/-
# A header is that of its own unit

A header is read as soon as its unit begins.  Where the unit ends is not known then, so that bytes
behind it may be read, and bytes of it may be missing.

| who reads | reads the bytes behind |
| --- | --- |
| an indexer | each start code, up to three of them, as chunks bring them |
| an extractor, of the first unit | the first start code, as far as they have arrived |
| an extractor, of a later unit | the start code where the unit before ends, once they suffice |

All of them read what the payload alone gives (`headers_eq_ofPayload`): behind the payload stands a
start code, whose bytes a header takes for zeros (`NalHeader.ofPayload_startCode`).

What an extractor reads it shows its boundary.  `shown` lists that for a call, and `followHeaders`
for the calls of a caller that follows the answers: the headers of all units before the rule for a
short last unit, one by one (`followHeaders_of_patterns`).
-/

import AnnexB.Proofs.Streaming
import AnnexB.Proofs.Opening
import AnnexB.Proofs.Scan
import AnnexB.Proofs.ChunkInvariance

namespace AnnexB

open StartCodeMatch NalSpan

namespace Boundary

/-- The state after some more units. -/
def watch (b : Boundary) (headers : List NalHeader) : Boundary :=
  headers.foldl (fun b h => (b.observe h).2) b

theorem watch_append (b : Boundary) (earlier later : List NalHeader) :
    b.watch (earlier ++ later) = (b.watch earlier).watch later := List.foldl_append ..

end Boundary

namespace Extractor

variable {e : Extractor} {buffer data : List UInt8} {c : StartCode} {chunks : List (List UInt8)}
  {extent : Extent} {i start : Nat} {rest : List Nat}

/-- The header of the unit at the front, where that is the first of the stream. -/
def unseen (e : Extractor) (payload : List UInt8) : List NalHeader :=
  if e.primed then [] else [.ofPayload e.codec payload]

/-- The headers that a call shows the boundary. -/
def shown (e : Extractor) (buffer : List UInt8) (extent : Extent) : List NalHeader :=
  if buffer.length < minUnitSize then []
  else
    match StartCode.leading? buffer with
    | none => []
    | some c =>
      match findNext e.codec buffer extent with
      | .unit _ header => e.unseen (buffer.drop c.size) ++ [header]
      | .last => e.unseen (buffer.drop c.size)
      | .unknown => []

theorem shown_of_short (h : buffer.length < minUnitSize) (extent : Extent) :
    e.shown buffer extent = [] := if_pos h

theorem shown_of_leading?_none (hc : StartCode.leading? buffer = none) (extent : Extent) :
    e.shown buffer extent = [] := by
  rw [shown, hc]
  split <;> rfl

theorem shown_of_leading? (h : minUnitSize ≤ buffer.length)
    (hc : StartCode.leading? buffer = some c) (extent : Extent) :
    e.shown buffer extent =
      match findNext e.codec buffer extent with
      | .unit _ header => e.unseen (buffer.drop c.size) ++ [header]
      | .last => e.unseen (buffer.drop c.size)
      | .unknown => [] := by
  rw [shown, if_neg (by omega), hc]

/-! ### The boundary sees what is shown -/

theorem unnumbered_prime (payload : List UInt8) :
    (e.prime payload).boundary.unnumbered = e.boundary.unnumbered.watch (e.unseen payload) := by
  rw [prime, unseen]
  split
  · rfl
  · rw [Boundary.watch, List.foldl_cons, List.foldl_nil, Boundary.observe_unnumbered]

theorem unnumbered_step (e : Extractor) (c : StartCode) (payload : List UInt8)
    (next : Option NalHeader) :
    (e.step c payload next).2.boundary.unnumbered = e.boundary.unnumbered.watch next.toList := by
  rcases next with _ | header
  · rw [step, beginUnit_boundary]
    exact Boundary.unnumbered_takeNumber _
  · rw [step, beginUnit_boundary]
    exact (congrArg Prod.snd (Boundary.observe_unnumbered _ header)).symm.trans
      (by rw [Boundary.unnumbered_takeNumber]; rfl)

theorem unnumbered_takeFront (e : Extractor) (buffer : List UInt8) (c : StartCode) (stop : Nat)
    (next : Option NalHeader) :
    (e.takeFront buffer c stop next).2.boundary.unnumbered =
      e.boundary.unnumbered.watch (e.unseen (buffer.drop c.size) ++ next.toList) := by
  rw [takeFront, unnumbered_step, unnumbered_prime, Boundary.watch_append]

/-- **A call shows the boundary the headers of `shown`** in order, and no other. -/
theorem unnumbered_extract (e : Extractor) (buffer : List UInt8) (extent : Extent) :
    (e.extract buffer extent).2.boundary.unnumbered =
      e.boundary.unnumbered.watch (e.shown buffer extent) := by
  rcases Nat.lt_or_ge buffer.length minUnitSize with hshort | hlong
  · rw [extract_of_short hshort, shown_of_short hshort]
    cases extent <;> rfl
  rcases hc : StartCode.leading? buffer with _ | c
  · rw [extract_of_leading?_none hlong hc, shown_of_leading?_none hc]
    rfl
  · rw [extract_of_leading? hlong hc, shown_of_leading? hlong hc]
    rcases findNext e.codec buffer extent with ⟨m, header⟩ | _ | _
    · exact unnumbered_takeFront ..
    · exact (unnumbered_takeFront ..).trans (by rw [Option.toList_none, List.append_nil])
    · rfl

/-! ### What is shown does not depend on bytes that arrive later -/

theorem unseen_append {payload : List UInt8} (h : headerSize ≤ payload.length) (rest : List UInt8) :
    e.unseen (payload ++ rest) = e.unseen payload := by
  have hprobe := NalHeader.probeLength_le e.codec
  rw [unseen, unseen, NalHeader.ofPayload_append (by omega)]

/-- A call that takes a unit while data may still arrive shows what it shows with more data.  One
that asks for data shows nothing. -/
theorem shown_growing (e : Extractor) (buffer : List UInt8) (extent : Extent)
    (rest : List UInt8) :
    (e.extract buffer .growing = (.ok ⟨none, .needMoreData⟩, e) ∧ e.shown buffer .growing = []) ∨
      (e.extract buffer .growing = e.extract (buffer ++ rest) extent ∧
        e.shown buffer .growing = e.shown (buffer ++ rest) extent) := by
  rcases Nat.lt_or_ge buffer.length minUnitSize with hshort | hlong
  · exact .inl ⟨extract_of_short hshort .growing, shown_of_short hshort .growing⟩
  have hlong' : minUnitSize ≤ (buffer ++ rest).length := by rw [List.length_append]; omega
  rw [minUnitSize] at hlong
  have hlead := StartCode.leading?_append (show 4 ≤ buffer.length by omega) rest
  rcases hc : StartCode.leading? buffer with _ | c <;> rw [hc] at hlead
  · rw [extract_of_leading?_none hlong hc, extract_of_leading?_none hlong' hlead,
      shown_of_leading?_none hc, shown_of_leading?_none hlead]
    exact .inr ⟨rfl, rfl⟩
  rcases hnext : findNext e.codec buffer .growing with ⟨m, header⟩ | _ | _
  · have hfinal := (e.extract_growing buffer extent rest).resolve_left fun hmore => by
      rw [extract_of_leading? hlong hc, hnext] at hmore
      simp [takeFront] at hmore
    obtain ⟨hfind, -, -⟩ := find?_of_findNext_growing hnext
    obtain ⟨hsize, hlen⟩ := bounds_of_find? hc hfind
    rw [Extent.payloadNeeded_growing] at hlen
    refine .inr ⟨hfinal, ?_⟩
    rw [shown_of_leading? hlong hc, shown_of_leading? hlong' hlead, hnext,
      findNext_append hnext extent rest]
    simp only
    rw [List.drop_append_of_le_length (by omega),
      unseen_append (by rw [headerSize, List.length_drop]; omega)]
  · exact absurd hnext (findNext_growing_ne_last _ _)
  · rw [extract_of_leading? hlong hc, shown_of_leading? hlong hc, hnext]
    exact .inl ⟨rfl, rfl⟩

/-- The headers that the boundary is shown while the answers of an extractor are followed. -/
def followHeaders (e : Extractor) (buffer : List UInt8) (chunks : List (List UInt8)) :
    (calls : Nat) → List NalHeader
  | 0 => []
  | calls + 1 =>
    let extent := if chunks.isEmpty then .complete else .growing
    e.shown buffer extent ++
      match e.extract buffer extent with
      | (.error _, _) => []
      | (.ok answer, e) =>
        match answer.status, chunks with
        | .endOfStream, _ => []
        | .consumed n, _ => followHeaders e (buffer.drop n) chunks calls
        | .needMoreData, [] => []
        | .needMoreData, chunk :: chunks => followHeaders e (buffer ++ chunk) chunks calls

/-- The same to the end of a stream that comes in chunks. -/
def driveHeaders (e : Extractor) (chunks : List (List UInt8)) : List NalHeader :=
  e.followHeaders [] chunks (chunks.length + chunks.flatten.length + 1)

theorem unnumbered_follow (e : Extractor) (buffer : List UInt8) (fed : Nat)
    (chunks : List (List UInt8)) (calls : Nat) :
    (e.follow buffer fed chunks calls).2.boundary.unnumbered =
      e.boundary.unnumbered.watch (e.followHeaders buffer chunks calls) := by
  induction calls generalizing e buffer fed chunks with
  | zero => rfl
  | succ calls ih =>
    rw [follow, followHeaders, Boundary.watch_append, ← unnumbered_extract]
    rcases e.extract buffer (if chunks.isEmpty then .complete else .growing) with ⟨_ | answer, e'⟩
    · rfl
    · rcases answer with ⟨sample, n | _ | _⟩
      · exact ih ..
      · cases chunks with
        | nil => rfl
        | cons chunk chunks => exact ih ..
      · rfl

/-- Some chunks later, the extractor shows and answers as it would with the whole rest of the
stream. -/
theorem followHeaders_settles (e : Extractor) (buffer : List UInt8) (chunks : List (List UInt8)) :
    ∃ taken left, chunks = taken ++ left ∧
      let extent := if left.isEmpty then .complete else .growing
      e.extract (buffer ++ taken.flatten) extent =
          e.extract (buffer ++ chunks.flatten) .complete ∧
        e.shown (buffer ++ taken.flatten) extent =
          e.shown (buffer ++ chunks.flatten) .complete ∧
        ∀ calls, e.followHeaders buffer chunks (taken.length + calls) =
          e.followHeaders (buffer ++ taken.flatten) left calls := by
  induction chunks generalizing buffer with
  | nil => exact ⟨[], [], rfl, rfl, rfl, fun calls => by simp⟩
  | cons chunk rest ih =>
    rcases e.shown_growing buffer .complete (chunk :: rest).flatten with
      ⟨hmore, hnothing⟩ | ⟨hfinal, hshown⟩
    · obtain ⟨taken, left, hchunks, hanswer, hshown, hfollow⟩ := ih (buffer ++ chunk)
      rw [List.append_assoc, List.append_assoc, ← List.flatten_cons, ← List.flatten_cons]
        at hanswer hshown
      refine ⟨chunk :: taken, left, by rw [hchunks, List.cons_append], hanswer, hshown,
        fun calls => ?_⟩
      rw [List.length_cons, List.flatten_cons, ← List.append_assoc, ← hfollow,
        show taken.length + 1 + calls = taken.length + calls + 1 by omega, followHeaders]
      simp only [List.isEmpty_cons, Bool.false_eq_true, if_false, hmore, hnothing, List.nil_append]
    · exact ⟨[], chunk :: rest, rfl, by simpa using hfinal, by simpa using hshown,
        fun calls => by simp⟩

/-- A call that takes no unit is the last. -/
theorem followHeaders_stop {e' : Extractor} {answer : Except Error Extraction}
    (hanswer : e.extract (buffer ++ chunks.flatten) .complete = (answer, e'))
    (hstop : ∀ sample n, answer ≠ .ok ⟨sample, .consumed n⟩) {calls : Nat}
    (hcalls : chunks.length < calls) :
    e.followHeaders buffer chunks calls = e.shown (buffer ++ chunks.flatten) .complete := by
  obtain ⟨taken, left, hchunks, hsettled, hshown, hfollow⟩ := e.followHeaders_settles buffer chunks
  have hlength := congrArg List.length hchunks
  rw [List.length_append] at hlength
  obtain ⟨k, rfl⟩ : ∃ k, calls = taken.length + (k + 1) := ⟨calls - taken.length - 1, by omega⟩
  have hgives := e.extract_gives (buffer ++ chunks.flatten) .complete
  rw [hanswer] at hsettled hgives
  rw [hfollow, followHeaders]
  simp only [hsettled, hshown]
  cases hgives with
  | waits growing => simp at growing
  | stops complete short => exact List.append_nil _
  | fails long unaligned => exact List.append_nil _
  | takes startCode within behind => exact absurd rfl (hstop _ _)

theorem followHeaders_of_short (hshort : (buffer ++ chunks.flatten).length < minUnitSize)
    {calls : Nat} (hcalls : chunks.length < calls) : e.followHeaders buffer chunks calls = [] := by
  rw [followHeaders_stop (extract_of_short hshort .complete) (by simp) hcalls,
    shown_of_short hshort]

/-- A call that takes a unit shows its headers, and goes on with the rest of the stream. -/
theorem followHeaders_consume {e' : Extractor} {sample : Option Sample} {n : Nat}
    (hanswer : e.extract (buffer ++ chunks.flatten) .complete = (.ok ⟨sample, .consumed n⟩, e'))
    {calls : Nat} (hcalls : chunks.length + (buffer ++ chunks.flatten).length < calls) :
    ∃ buffer' left k, buffer' ++ left.flatten = (buffer ++ chunks.flatten).drop n ∧
      left.length + (buffer' ++ left.flatten).length < k ∧
      e.followHeaders buffer chunks calls =
        e.shown (buffer ++ chunks.flatten) .complete ++ e'.followHeaders buffer' left k := by
  obtain ⟨taken, left, hchunks, hsettled, hshown, hfollow⟩ := e.followHeaders_settles buffer chunks
  have hlength := congrArg List.length hchunks
  rw [List.length_append] at hlength
  obtain ⟨k, rfl⟩ : ∃ k, calls = taken.length + (k + 1) := ⟨calls - taken.length - 1, by omega⟩
  rw [hanswer] at hsettled
  obtain ⟨hthree, hn⟩ := bounds_of_extract hsettled
  have hle := (bounds_of_extract hanswer).2
  have hrest : (buffer ++ taken.flatten).drop n ++ left.flatten =
      (buffer ++ chunks.flatten).drop n := by
    rw [hchunks, List.flatten_append, ← List.append_assoc, List.drop_append_of_le_length hn]
  refine ⟨(buffer ++ taken.flatten).drop n, left, k, hrest, ?_, ?_⟩
  · rw [hrest, List.length_drop]
    omega
  · rw [hfollow, followHeaders]
    simp only [hsettled, hshown]

/-! ### All units of the stream are shown -/

theorem primed_prime (e : Extractor) (payload : List UInt8) : (e.prime payload).primed = true := by
  rcases he : e.primed with _ | _
  · simp [prime, he]
  · rw [prime_of_primed he, he]

theorem codec_step (e : Extractor) (c : StartCode) (payload : List UInt8)
    (next : Option NalHeader) : (e.step c payload next).2.codec = e.codec := by
  cases next <;> exact congrArg MediaType.codec beginUnit_mediaType

/-- A call on the rest of a stream from a start code on shows the header of the next unit. -/
theorem shown_at (h : patterns .complete data start = i :: rest)
    (hlong : minUnitSize ≤ data.length - codeOffset data i) :
    e.shown (data.drop (codeOffset data i)) .complete =
      e.unseen (data.drop (i + 3)) ++
        (rest.head?.map fun j => NalHeader.ofPayload e.codec (data.drop (j + 3))).toList := by
  have harr := h ▸ arePatterns data start
  have hlead : StartCode.leading? (data.drop (codeOffset data i)) = some (codeAt data i) := by
    rw [drop_codeOffset harr.head, StartCode.leading?_bytes_append]
  rw [shown_of_leading? (by rwa [List.length_drop]) hlead, findNext_complete, find?_behind h,
    List.drop_drop, codeOffset_add_size]
  rcases rest with _ | ⟨j, rest⟩
  · exact (List.append_nil _).symm
  · have hnext := harr.le_codeOffset (List.mem_cons_self ..)
    have hoff := @codeOffset_le data i
    have hsize := @codeOffset_add_size data j
    simp only [List.head?_cons, Option.map_some, StartCodeMatch.payloadOffset, List.drop_drop]
    rw [show codeOffset data i + (codeOffset data j - codeOffset data i + (codeAt data j).size) =
      j + 3 by omega]
    rfl

/-- A call there takes a unit, the first of the stream or another. -/
theorem exists_extract_at (h : patterns .complete data start = i :: rest)
    (hlong : minUnitSize ≤ data.length - codeOffset data i) :
    ∃ sample e', e'.primed = true ∧ e'.codec = e.codec ∧
      e.extract (data.drop (codeOffset data i)) .complete =
        (.ok ⟨sample, .consumed ((rest.head?.map (codeOffset data)).getD data.length -
          codeOffset data i)⟩, e') := by
  have hlead : StartCode.leading? (data.drop (codeOffset data i)) = some (codeAt data i) := by
    rw [drop_codeOffset (patterns_eq_cons h).2.1, StartCode.leading?_bytes_append]
  have hprime := @extract_prime e _ _ (by rwa [List.length_drop]) hlead
  rw [extract_at h (primed_prime ..) hlong] at hprime
  refine ⟨_, _, ?_, ?_, hprime⟩
  · exact (primed_step ..).trans (primed_prime ..)
  · exact (codec_step ..).trans (prime_codec _)

/-- **Whatever the chunks, the boundary is shown the headers of all units,** from the start code of
a unit on: one for each pattern, but none twice. -/
theorem followHeaders_of_patterns (h : patterns .complete data start = i :: rest)
    (hfirst : e.primed = true ∨ minUnitSize ≤ data.length - codeOffset data i)
    (hdata : buffer ++ chunks.flatten = data.drop (codeOffset data i)) {calls : Nat}
    (hcalls : chunks.length + (buffer ++ chunks.flatten).length < calls) :
    e.followHeaders buffer chunks calls =
      e.unseen (data.drop (i + 3)) ++
        rest.map fun j => NalHeader.ofPayload e.codec (data.drop (j + 3)) := by
  have harr := h ▸ arePatterns data start
  have hoff := @codeOffset_le data i
  induction rest generalizing e start i buffer chunks calls with
  | nil =>
    rw [List.map_nil, List.append_nil]
    rcases Nat.lt_or_ge (data.length - codeOffset data i) minUnitSize with hshort | hlong
    · rw [followHeaders_of_short (by rwa [hdata, List.length_drop]) (by omega), unseen,
        if_pos (hfirst.resolve_right (by omega))]
    · obtain ⟨sample, e', -, -, hanswer⟩ := exists_extract_at (e := e) h hlong
      rw [← hdata] at hanswer
      obtain ⟨buffer', left, k, hrest, hk, hfollow⟩ := followHeaders_consume hanswer hcalls
      have hempty : buffer' ++ left.flatten = [] := by
        rw [hrest, hdata, List.drop_drop, List.head?_nil, Option.map_none, Option.getD_none]
        exact List.drop_eq_nil_of_le (by omega)
      rw [hfollow, hdata, shown_at h hlong,
        followHeaders_of_short (by rw [hempty]; decide) (by omega)]
      simp
  | cons j rest ih =>
    have hnext := harr.le_codeOffset (List.mem_cons_self ..)
    have hoff' := @codeOffset_le data j
    have hlen := (hasPattern_drop_iff.1 harr.tail.head).2.2.2
    have hlong : minUnitSize ≤ data.length - codeOffset data i := by rw [minUnitSize]; omega
    obtain ⟨sample, e', hprimed, hcodec, hanswer⟩ := exists_extract_at (e := e) h hlong
    rw [← hdata] at hanswer
    obtain ⟨buffer', left, k, hrest, hk, hfollow⟩ := followHeaders_consume hanswer hcalls
    have hnow : buffer' ++ left.flatten = data.drop (codeOffset data j) := by
      rw [hrest, hdata, List.drop_drop, List.head?_cons, Option.map_some, Option.getD_some,
        Nat.add_sub_cancel' (by omega)]
    rw [hfollow, hdata, shown_at h hlong,
      ih (patterns_eq_cons h).2.2.symm (.inl hprimed) hnow hk harr.tail hoff', hcodec, unseen,
      unseen, hprimed]
    simp

/-! ### A whole stream -/

/-- The headers shown are those of all units of a stream that is valid, before the rule for a short
last unit. -/
theorem driveHeaders_of_leading? (hlong : minUnitSize ≤ chunks.flatten.length)
    (hc : StartCode.leading? chunks.flatten = some c) (he : e.primed = false) :
    e.driveHeaders chunks =
      (closedSpans chunks.flatten (patterns .complete chunks.flatten 0)).map fun u =>
        .ofPayload e.codec (u.payload chunks.flatten) := by
  obtain ⟨i, hi, hzero, -⟩ := StartCode.patterns_of_leading? hc hlong
  obtain ⟨rest, hpatterns⟩ := List.head?_eq_some_iff.1 hi
  have hheaders : (closedSpans chunks.flatten (i :: rest)).map (·.header e.codec) =
      (i :: rest).map fun j => .ofPayload e.codec (chunks.flatten.drop (j + 3)) := by
    rw [map_closedSpans fun _ _ => rfl]
    exact List.map_congr_left fun j _ => NalHeader.ofPayload_take ..
  have harr := hpatterns ▸ arePatterns chunks.flatten 0
  rw [driveHeaders, followHeaders_of_patterns hpatterns (.inr (by omega))
    (by rw [List.nil_append, hzero, List.drop_zero]) (by rw [List.nil_append]; omega), unseen, he,
    hpatterns, ← List.map_congr_left fun u hu => header_of_isCut e.codec
      (isCut_of_mem_closedSpans harr u hu), hheaders]
  rfl

/-- An indexer reads the header of each unit that it finds off the payload, however the stream
comes. -/
theorem header_of_mem_finish (codec : VideoCodec) {u : NalSpan}
    (hu : u ∈ (chunks.foldl StartCodeIndexer.push .empty).finish chunks.flatten.length) :
    u.header codec = .ofPayload codec (u.payload chunks.flatten) := by
  rw [StartCodeIndexer.foldl_push_empty] at hu
  exact header_of_mem_nalSpans codec hu

/-- The payloads given out are those of the units of the stream, if it is valid. -/
theorem map_payload_emitted_drive (mediaType : MediaType) (mode : TimestampMode) (first : UInt16)
    (hvalid : chunks.flatten.length < minUnitSize ∨ StartCode.leading? chunks.flatten ≠ none) :
    (emitted ((withBoundary mediaType (.withNumber mediaType.codec first) mode).drive
      chunks).1).map Sample.payload = (nalSpans chunks.flatten).map (payload chunks.flatten) := by
  obtain ⟨e', hdrains, -⟩ := drains_of_valid mediaType mode first hvalid
  obtain ⟨sample, hemitted, -, -⟩ := drive_of_drains hdrains
  have hpairs := congrArg (List.map Prod.fst) (@map_payload_accessUnits mediaType.codec mode.stamp
    (.withNumber mediaType.codec first) chunks.flatten)
  rw [List.map_map, List.map_map] at hpairs
  rw [hemitted]
  exact hpairs

/-- **A header is that of its own unit's payload.**  However a stream comes, an indexer gives each
unit the header of its payload.  The headers that an extractor shows its boundary, and no others,
are those of the payloads that it gives out, in order; behind them at most that of a last unit
which is too short to be given out. -/
theorem headers_eq_ofPayload (mediaType : MediaType) (mode : TimestampMode) (first : UInt16)
    (chunks : List (List UInt8)) :
    let data := chunks.flatten
    let codec := mediaType.codec
    let e := withBoundary mediaType (.withNumber codec first) mode
    let run := e.drive chunks
    (∀ u ∈ (chunks.foldl StartCodeIndexer.push .empty).finish data.length,
      u.header codec = .ofPayload codec (u.payload data)) ∧
    run.2.boundary.unnumbered = (Boundary.ofCodec codec).watch (e.driveHeaders chunks) ∧
    ∃ dropped : List (List UInt8),
      e.driveHeaders chunks =
        ((emitted run.1).map Sample.payload ++ dropped).map (NalHeader.ofPayload codec) ∧
      (dropped = [] ∨ ∃ x, dropped = [[x]] ∧ [0, 0, 1, x] <:+ data) := by
  intro data codec e run
  refine ⟨fun u hu => header_of_mem_finish codec hu, ?_, ?_⟩
  · rw [← Boundary.unnumbered_withNumber codec first]
    exact unnumbered_follow ..
  rcases Nat.lt_or_ge data.length minUnitSize with hshort | hlong
  · refine ⟨[], ?_, .inl rfl⟩
    rw [map_payload_emitted_drive mediaType mode first (.inl hshort), nalSpans_of_short hshort]
    exact followHeaders_of_short (by rwa [List.nil_append]) (by omega)
  rcases hc : StartCode.leading? data with _ | c
  · refine ⟨[], ?_, .inl rfl⟩
    obtain ⟨fed, hdrive⟩ := drive_eq_of_invalid (e := e) hlong hc
    rw [show run = _ from hdrive]
    exact (followHeaders_stop (extract_of_leading?_none hlong hc .complete) (by simp)
      (by omega)).trans (shown_of_leading?_none hc .complete)
  · obtain ⟨dropped, hclosed, hdropped⟩ := closedSpans_eq_append (arePatterns data 0)
    refine ⟨dropped.map (payload data), ?_, ?_⟩
    · rw [driveHeaders_of_leading? hlong hc rfl, hclosed, ← nalSpans_eq_spans,
        map_payload_emitted_drive mediaType mode first (.inr (by rw [hc]; simp)), List.map_append,
        List.map_append, List.map_map, List.map_map]
      rfl
    · rcases hdropped with rfl | ⟨u, x, rfl, hx, hend⟩
      · exact .inl rfl
      · exact .inr ⟨x, by rw [List.map_singleton, hx], hend⟩

/-- Two empty payloads, and a stream that ends in a unit which is too short. -/
example :
    (ofMediaType .h265 .untimed).driveHeaders [[0, 0, 1, 0, 0], [1, 0, 0, 1, 66, 1], [0, 0, 1, 0]] =
      ([[], [], [66, 1], [0]].map (NalHeader.ofPayload .h265)) := by
  decide

end Extractor
end AnnexB
