/-
# What an extractor gives for a whole stream

What a stream gives is settled by calls on its whole rest.  `Drains e data samples e'` says that
such calls, from the state `e` on, give out `samples` up to the end of the stream and leave the
state `e'`.

From the start code of a unit on, they take the units of the stream one by one (`drains_feed`), and
units taken one by one give access units, marked, stamped and numbered (`feed_eq`).  So a fresh
extractor gives the access units of the stream (`drains_accessUnits`).
-/

import AnnexB.Proofs.Extraction

namespace AnnexB

open StartCodeMatch NalSpan

namespace Extractor

variable {e e' : Extractor} {buffer data : List UInt8} {c : StartCode}

/-- Calls on the whole rest `data` of a stream, from the state `e` on, give out `samples` up to the
end of the stream and leave the state `e'`. -/
inductive Drains : Extractor → List UInt8 → List Sample → Extractor → Prop
  | stop {e e' : Extractor} {data : List UInt8} {sample : Option Sample}
      (answer : e.extract data .complete = (.ok ⟨sample, .endOfStream⟩, e')) :
      Drains e data sample.toList e'
  | consume {e e₁ e' : Extractor} {data : List UInt8} {sample : Option Sample} {n : Nat}
      {samples : List Sample}
      (answer : e.extract data .complete = (.ok ⟨sample, .consumed n⟩, e₁))
      (later : Drains e₁ (data.drop n) samples e') :
      Drains e data (sample.toList ++ samples) e'

/-- Two states that a first call leaves alike drain alike. -/
theorem Drains.congr {e₁ : Extractor} {samples : List Sample} (h : Drains e data samples e')
    (heq : e₁.extract data .complete = e.extract data .complete) : Drains e₁ data samples e' := by
  cases h with
  | stop answer => exact .stop (heq.trans answer)
  | consume answer later => exact .consume (heq.trans answer) later

/-- Takes the units of a stream one by one, each in front of the next, the last one in front of a
unit with the header `after` or none, and gives out the samples. -/
def feed (e : Extractor) (data : List UInt8) (after : Option NalHeader) :
    List NalSpan → List Sample × Extractor
  | [] => (e.flush.1.toList, e.flush.2)
  | u :: rest =>
    let next := (rest.head?.map (·.header e.codec)).or after
    let result := e.step u.startCode (u.payload data) next
    let later := feed result.2 data after rest
    (result.1.toList ++ later.1, later.2)

theorem primed_step (c : StartCode) (payload : List UInt8) (next : Option NalHeader) :
    (e.step c payload next).2.primed = e.primed := by
  unfold step beginUnit
  cases next <;> simp only <;> split <;> rfl

theorem prime_of_primed (h : e.primed = true) (payload : List UInt8) : e.prime payload = e := by
  rw [prime, if_pos h]

variable {needed start i : Nat} {rest : List Nat}

/-- Behind the start code of a unit, the search finds that of the next one. -/
theorem find?_behind (h : patterns .complete data start = i :: rest) :
    find? .complete (data.drop (codeOffset data i)) nextSearchOffset =
      rest.head?.map fun j => ⟨codeOffset data j - codeOffset data i, codeAt data j⟩ := by
  have harr := h ▸ arePatterns data start
  obtain ⟨-, hp, hrest⟩ := patterns_eq_cons h
  rw [find?_eq_head?, patterns_drop, nextSearchOffset, patterns_behind hp, ← hrest, List.head?_map,
    Option.map_map]
  refine Option.map_congr fun j hj => ?_
  have hle := harr.le_codeOffset (List.mem_of_mem_head? hj)
  have hoff := @codeOffset_le data i
  have hoff' := @codeOffset_le data j
  have hsize := @codeOffset_add_size data j
  have hzero : followsZero (data.drop (codeOffset data i)) (j - codeOffset data i) =
      followsZero data j := by
    rw [followsZero_drop (by omega), show codeOffset data i + (j - codeOffset data i) = j by omega]
  simp only [Function.comp_apply, StartCodeMatch.atPattern, StartCodeMatch.ofPattern, hzero,
    StartCodeMatch.mk.injEq]
  refine ⟨?_, rfl⟩
  rw [codeAt] at hsize
  omega

/-- What is taken from the front, where a unit begins. -/
theorem takeFront_of_primed (he : e.primed = true) (i stop : Nat) (next : Option NalHeader) :
    e.takeFront (data.drop (codeOffset data i)) (codeAt data i) stop next =
      let result := e.step (codeAt data i)
        (((NalSpan.atPattern data i).endAt (codeOffset data i + stop)).payload data) next
      (.ok ⟨result.1, .consumed stop⟩, result.2) := by
  have hsize := @codeOffset_add_size data i
  have hpayload : ((data.drop (codeOffset data i)).take stop).drop (codeAt data i).size =
      ((NalSpan.atPattern data i).endAt (codeOffset data i + stop)).payload data := by
    rw [List.drop_take, List.drop_drop, hsize, payload_endAt, NalSpan.payloadOffset_atPattern]
    congr 1
    omega
  rw [takeFront, prime_of_primed he, hpayload]

/-- A call on the rest of a stream from a start code on takes the unit there, up to the next start
code or the end of the stream. -/
theorem extract_at (h : patterns .complete data start = i :: rest) (he : e.primed = true)
    (hlong : minUnitSize ≤ data.length - codeOffset data i) :
    e.extract (data.drop (codeOffset data i)) .complete =
      let stop := (rest.head?.map (codeOffset data)).getD data.length
      let result := e.step (codeAt data i) (((NalSpan.atPattern data i).endAt stop).payload data)
        (rest.head?.map fun j => .ofPayload e.codec (data.drop (j + 3)))
      (.ok ⟨result.1, .consumed (stop - codeOffset data i)⟩, result.2) := by
  have harr := h ▸ arePatterns data start
  have hlen := (hasPattern_drop_iff.1 harr.head).2.2.2
  have hoff := @codeOffset_le data i
  have hlead : StartCode.leading? (data.drop (codeOffset data i)) = some (codeAt data i) := by
    rw [drop_codeOffset harr.head, StartCode.leading?_bytes_append]
  rw [extract_of_leading? (by rwa [List.length_drop]) hlead, findNext_complete, find?_behind h]
  rcases rest with _ | ⟨j, rest⟩
  · simp only [List.head?_nil, Option.map_none, Option.getD_none]
    rw [takeFront_of_primed he, List.length_drop,
      show codeOffset data i + (data.length - codeOffset data i) = data.length by omega]
  · have hnext := harr.le_codeOffset (List.mem_cons_self ..)
    have hsize := @codeOffset_add_size data i
    have hsize' := @codeOffset_add_size data j
    simp only [List.head?_cons, Option.map_some, Option.getD_some, StartCodeMatch.payloadOffset,
      List.drop_drop]
    rw [Nat.max_eq_left (by omega), takeFront_of_primed he,
      show codeOffset data i + (codeOffset data j - codeOffset data i) = codeOffset data j by omega,
      show codeOffset data i + (codeOffset data j - codeOffset data i + (codeAt data j).size) =
        j + 3 by omega]

theorem drains_nil (e : Extractor) : Drains e [] e.flush.1.toList e.flush.2 :=
  .stop (extract_of_short (by decide) .complete)

theorem header_endAt_atPattern (codec : VideoCodec) (n : Nat) :
    ((NalSpan.atPattern data i).endAt n).header codec = .ofPayload codec (data.drop (i + 3)) :=
  NalHeader.ofPayload_take codec _

/-- **From the start code of a unit on, an extractor takes the units of the stream** one by one,
and no unit that the stream drops. -/
theorem drains_feed (h : patterns .complete data start = i :: rest) (he : e.primed = true) :
    ∃ after, Drains e (data.drop (codeOffset data i)) (e.feed data after (spans data (i :: rest))).1
      (e.feed data after (spans data (i :: rest))).2 := by
  induction rest generalizing e start i with
  | nil =>
    have hoff := @codeOffset_le data i
    have hlen := (hasPattern_drop_iff.1 (patterns_eq_cons h).2.1).2.2.2
    refine ⟨none, ?_⟩
    rw [spans]
    split
    · rename_i hshort
      exact .stop (extract_of_short (by rwa [List.length_drop]) .complete)
    · rename_i hlong
      refine .consume (extract_at h he (by omega)) ?_
      simp only [List.head?_nil, Option.map_none, Option.getD_none, List.drop_drop]
      rw [show codeOffset data i + (data.length - codeOffset data i) = data.length by omega,
        List.drop_length]
      exact drains_nil _
  | cons j rest ih =>
    have harr := h ▸ arePatterns data start
    have hnext := harr.le_codeOffset (List.mem_cons_self ..)
    have hoff := @codeOffset_le data i
    have hlen := (hasPattern_drop_iff.1 harr.tail.head).2.2.2
    have hlong : minUnitSize ≤ data.length - codeOffset data i := by
      have := @codeOffset_le data j
      rw [minUnitSize]
      omega
    let header := NalHeader.ofPayload e.codec (data.drop (j + 3))
    let result := e.step (codeAt data i)
      (((NalSpan.atPattern data i).endAt (codeOffset data j)).payload data) (some header)
    have hprimed : result.2.primed = true := (primed_step ..).trans he
    obtain ⟨after, hlater⟩ := @ih result.2 (i + 3) j (patterns_eq_cons h).2.2.symm hprimed
    have hdrop : (data.drop (codeOffset data i)).drop (codeOffset data j - codeOffset data i) =
        data.drop (codeOffset data j) := by
      rw [List.drop_drop]
      congr 1
      omega
    have hanswer := extract_at h he hlong
    rw [← hdrop] at hlater
    rcases spans_cons data j rest with hnil | ⟨n, later, hcons⟩
    · refine ⟨some header, ?_⟩
      rw [spans, hnil]
      rw [hnil] at hlater
      exact .consume hanswer hlater
    · refine ⟨after, ?_⟩
      rw [spans, hcons]
      rw [hcons] at hlater
      rw [feed, List.head?_cons, Option.map_some, header_endAt_atPattern, Option.some_or]
      exact .consume hanswer hlater

/-! ### Units taken one by one -/

@[simp] theorem beginUnit_boundary : e.beginUnit.boundary = e.boundary := by
  unfold beginUnit
  split <;> rfl

@[simp] theorem beginUnit_mode : e.beginUnit.mode = e.mode := by
  unfold beginUnit
  split <;> rfl

@[simp] theorem beginUnit_mediaType : e.beginUnit.mediaType = e.mediaType := by
  unfold beginUnit
  split <;> rfl

/-- The sample held back after a unit was taken, but for its marker. -/
def held (e : Extractor) (data : List UInt8) (u : NalSpan) : Sample :=
  { sampleOfSpan data.toArray e.beginUnit.time u with decodingOrder := e.boundary.number }

theorem step_some (data : List UInt8) (u : NalSpan) (h : NalHeader) :
    e.step u.startCode (u.payload data) (some h) =
      (e.pending.map (·.withMarker e.startsUnit),
        { e.beginUnit with
          boundary := (e.boundary.takeNumber.2.observe h).2
          pending := some (e.held data u)
          startsUnit := (e.boundary.takeNumber.2.observe h).1 }) := by
  rw [held, sampleOfSpan_eq, Boundary.number, step, beginUnit_boundary]

theorem step_none (data : List UInt8) (u : NalSpan) :
    e.step u.startCode (u.payload data) none =
      (e.pending.map (·.withMarker e.startsUnit),
        { e.beginUnit with
          boundary := e.boundary.takeNumber.2
          pending := some ((e.held data u).withMarker true)
          startsUnit := true }) := by
  rw [held, sampleOfSpan_eq, Boundary.number, step, beginUnit_boundary]

theorem beginUnit_of_starts (h : e.startsUnit = true) :
    e.beginUnit.time = e.mode.stamp e.unitCount ∧ e.beginUnit.unitCount = e.unitCount + 1 := by
  rw [beginUnit, if_pos h]
  exact ⟨rfl, rfl⟩

theorem beginUnit_of_not_starts (h : e.startsUnit = false) : e.beginUnit = e := by
  rw [beginUnit, if_neg (by simp [h])]

/-- **Units taken one by one give access units.**  The sample held back before them comes first,
then the rest of the access unit that is under way, then the access units that begin after it. -/
theorem feed_eq (e : Extractor) (data : List UInt8) (after : Option NalHeader) (u : NalSpan)
    (us : List NalSpan) :
    let cut := e.boundary.cut (us.map fun v => (v.header e.codec, v))
    (e.feed data after (u :: us)).1 =
        (e.pending.map (·.withMarker e.startsUnit)).toList ++ numbered e.boundary.number
          (AccessUnit.markLast ((u :: cut.1).map (sampleOfSpan data.toArray e.beginUnit.time)) ++
            (stampUnits data e.mode.stamp e.beginUnit.unitCount cut.2).flatten) ∧
      (e.feed data after (u :: us)).2.unitCount = e.beginUnit.unitCount + cut.2.length := by
  induction us generalizing e u with
  | nil =>
    rcases after with _ | header
    · simp only [feed, List.head?_nil, Option.map_none, Option.or_none, step_none, flush]
      exact ⟨rfl, rfl⟩
    · simp only [feed, List.head?_nil, Option.map_none, Option.none_or, step_some, flush]
      exact ⟨rfl, rfl⟩
  | cons v us ih =>
    rw [feed, List.head?_cons, Option.map_some, Option.some_or, step_some,
      Boundary.observe_takeNumber]
    set r : Extractor := { e.beginUnit with
      boundary := (e.boundary.observe (v.header e.codec)).2.takeNumber.2
      pending := some (e.held data u)
      startsUnit := (e.boundary.observe (v.header e.codec)).1 } with hr
    have hmode : r.mode = e.mode := beginUnit_mode
    have hcodec : r.codec = e.codec := congrArg MediaType.codec beginUnit_mediaType
    have hnumber : r.boundary.number = e.boundary.number.map (· + 1) := by
      rw [hr, Boundary.number_takeNumber, Boundary.number_observe]
    have hpending : r.pending = some (e.held data u) := rfl
    have htime : r.time = e.beginUnit.time := rfl
    have hunits : r.unitCount = e.beginUnit.unitCount := rfl
    obtain ⟨hsamples, hcount⟩ := ih r v
    rw [hcodec, Boundary.cut_takeNumber] at hsamples hcount
    rw [hmode, hnumber, hpending] at hsamples
    rw [hsamples, hcount, List.map_cons, Boundary.cut_cons]
    rcases hstarts : (e.boundary.observe (v.header e.codec)).1 with _ | _
    · have hr' : r.startsUnit = false := hstarts
      rw [beginUnit_of_not_starts hr', hr', htime, hunits]
      exact ⟨rfl, rfl⟩
    · have hr' : r.startsUnit = true := hstarts
      rw [(beginUnit_of_starts hr').1, (beginUnit_of_starts hr').2, hr', hmode, hunits]
      refine ⟨rfl, ?_⟩
      simp only [if_true, List.length_cons]
      omega

/-! ### A whole stream -/

theorem prime_prime (payload : List UInt8) : (e.prime payload).prime payload = e.prime payload := by
  rcases he : e.primed with _ | _
  · rw [prime_of_primed]
    simp [prime, he]
  · rw [prime_of_primed he, prime_of_primed he]

theorem prime_codec (payload : List UInt8) : (e.prime payload).codec = e.codec := by
  rw [prime]
  split <;> rfl

/-- The first call shows the boundary the first unit. -/
theorem extract_prime (h : minUnitSize ≤ buffer.length)
    (hc : StartCode.leading? buffer = some c) :
    e.extract buffer .complete = (e.prime (buffer.drop c.size)).extract buffer .complete := by
  rw [extract_of_leading? h hc, extract_of_leading? h hc, prime_codec, findNext_complete]
  rcases find? .complete buffer nextSearchOffset with _ | m <;>
    simp only [takeFront, prime_prime]

theorem spans_eq_nil_of_short (h : ArePatterns data (i :: rest))
    (hshort : data.length - codeOffset data i < minUnitSize) : spans data (i :: rest) = [] := by
  rcases rest with _ | ⟨j, rest⟩
  · rw [spans, if_pos hshort]
  · have hnext := h.le_codeOffset (List.mem_cons_self ..)
    have hlen := (hasPattern_drop_iff.1 h.tail.head).2.2.2
    have hoff := @codeOffset_le data i
    have hoff' := @codeOffset_le data j
    rw [minUnitSize] at hshort
    omega

theorem exists_spans_cons (hlong : minUnitSize ≤ data.length - codeOffset data i)
    (rest : List Nat) :
    ∃ n later, spans data (i :: rest) = (NalSpan.atPattern data i).endAt n :: later := by
  rcases rest with _ | ⟨j, rest⟩
  · exact ⟨_, _, by rw [spans, if_neg (by omega)]⟩
  · exact ⟨_, _, by rw [spans]⟩

/-- **A fresh extractor gives the access units of the stream**, from the first start code on. -/
theorem drains_accessUnits (mediaType : MediaType) (mode : TimestampMode) (number : UInt16)
    (h : patterns .complete data 0 = i :: rest) :
    let b := Boundary.withNumber mediaType.codec number
    ∃ e', Drains (withBoundary mediaType b mode) (data.drop (codeOffset data i))
        (accessUnits mediaType.codec mode.stamp b data).flatten e' ∧
      e'.unitCount = (accessUnits mediaType.codec mode.stamp b data).length := by
  intro b
  have harr := h ▸ arePatterns data 0
  have hunits : nalSpans data = spans data (i :: rest) := by rw [nalSpans_eq_spans, h]
  rcases Nat.lt_or_ge (data.length - codeOffset data i) minUnitSize with hshort | hlong
  · have hempty : accessUnits mediaType.codec mode.stamp b data = [] := by
      rw [accessUnits, groupedSpans, hunits, spans_eq_nil_of_short harr hshort]
      rfl
    rw [hempty]
    exact ⟨_, .stop (extract_of_short (by rwa [List.length_drop]) .complete), rfl⟩
  · have hlead : StartCode.leading? (data.drop (codeOffset data i)) = some (codeAt data i) := by
      rw [drop_codeOffset harr.head, StartCode.leading?_bytes_append]
    have hfirst : (data.drop (codeOffset data i)).drop (codeAt data i).size =
        data.drop (i + 3) := by
      rw [List.drop_drop, codeOffset_add_size]
    have hextract := @extract_prime (withBoundary mediaType b mode) _ _
      (by rwa [List.length_drop]) hlead
    rw [hfirst] at hextract
    set e := (withBoundary mediaType b mode).prime (data.drop (i + 3)) with he
    obtain ⟨after, hdrains⟩ := drains_feed h (e := e) rfl
    obtain ⟨n, later, hspans⟩ := exists_spans_cons hlong rest
    set u := (NalSpan.atPattern data i).endAt n with hu
    have hboundary : e.boundary = (b.observe (u.header mediaType.codec)).2 := by
      rw [hu, header_endAt_atPattern]
      rfl
    have hgroups : groupedSpans mediaType.codec data =
        (u :: (e.boundary.cut (later.map fun v => (v.header e.codec, v))).1) ::
          (e.boundary.cut (later.map fun v => (v.header e.codec, v))).2 := by
      rw [groupedSpans, hunits, hspans, ← Boundary.unnumbered_withNumber mediaType.codec number,
        Boundary.group_unnumbered, List.map_cons, Boundary.group_cons, hboundary]
      rfl
    obtain ⟨hsamples, hcount⟩ := e.feed_eq data after u later
    refine ⟨(e.feed data after (u :: later)).2, ?_, ?_⟩
    · rw [flatten_accessUnits, hgroups, stampUnits, List.flatten_cons,
        show b.number = e.boundary.number by rw [hboundary, Boundary.number_observe]]
      rw [hspans, hsamples] at hdrains
      exact hdrains.congr hextract
    · rw [hcount, length_accessUnits, hgroups, List.length_cons]
      exact Nat.add_comm 1 _

/-- A fresh extractor numbers from 0. -/
theorem ofMediaType_eq (mediaType : MediaType) (mode : TimestampMode) :
    ofMediaType mediaType mode = withBoundary mediaType (.withNumber mediaType.codec 0) mode := by
  rw [Boundary.withNumber_zero]
  rfl

theorem nalSpans_of_short (hshort : data.length < minUnitSize) : nalSpans data = [] := by
  rw [nalSpans_eq_spans]
  rcases hpatterns : patterns .complete data 0 with _ | ⟨i, rest⟩
  · rfl
  · exact spans_eq_nil_of_short (hpatterns ▸ arePatterns data 0) (by omega)

/-- A stream that is too short for a unit, or begins with a start code, gives its access units. -/
theorem drains_of_valid (mediaType : MediaType) (mode : TimestampMode) (first : UInt16)
    (hvalid : data.length < minUnitSize ∨ StartCode.leading? data ≠ none) :
    let b := Boundary.withNumber mediaType.codec first
    ∃ e', Drains (withBoundary mediaType b mode) data
        (accessUnits mediaType.codec mode.stamp b data).flatten e' ∧
      e'.unitCount = (accessUnits mediaType.codec mode.stamp b data).length := by
  intro b
  rcases Nat.lt_or_ge data.length minUnitSize with hshort | hlong
  · rw [accessUnits_of_nalSpans_nil (nalSpans_of_short hshort)]
    exact ⟨_, .stop (extract_of_short hshort .complete), rfl⟩
  · obtain ⟨c, hc⟩ := Option.ne_none_iff_exists'.1 (hvalid.resolve_left (by omega))
    obtain ⟨i, hi, hzero, -⟩ := StartCode.patterns_of_leading? hc hlong
    obtain ⟨rest, hpatterns⟩ := List.head?_eq_some_iff.1 hi
    obtain ⟨e', hdrains, hcount⟩ := drains_accessUnits mediaType mode first hpatterns
    rw [hzero, List.drop_zero] at hdrains
    exact ⟨e', hdrains, hcount⟩

theorem drains_ofMediaType_of_valid (mediaType : MediaType) (mode : TimestampMode)
    (hvalid : data.length < minUnitSize ∨ StartCode.leading? data ≠ none) :
    ∃ e', Drains (ofMediaType mediaType mode) data
      (accessUnits mediaType.codec mode.stamp (.ofCodec mediaType.codec) data).flatten e' := by
  obtain ⟨e', hdrains, -⟩ := drains_of_valid mediaType mode 0 hvalid
  rw [ofMediaType_eq, ← Boundary.withNumber_zero]
  exact ⟨e', hdrains⟩

/-- From its first start code on, a stream gives all its access units. -/
theorem drains_ofMediaType_of_find? {m : StartCodeMatch} (mediaType : MediaType)
    (mode : TimestampMode) (h : find? .complete data 0 = some m) :
    ∃ e', Drains (ofMediaType mediaType mode) (data.drop m.offset)
      (accessUnits mediaType.codec mode.stamp (.ofCodec mediaType.codec) data).flatten e' := by
  obtain ⟨i, hi, rfl⟩ := find?_eq_some_iff.1 h
  obtain ⟨rest, hpatterns⟩ := List.head?_eq_some_iff.1 hi
  obtain ⟨e', hdrains, -⟩ := drains_accessUnits mediaType mode 0 hpatterns
  rw [ofMediaType_eq, ← Boundary.withNumber_zero]
  exact ⟨e', hdrains⟩

/-- A stream without start code has no units. -/
theorem nalSpans_of_find?_none (h : find? .complete data 0 = none) : nalSpans data = [] := by
  rw [find?_eq_head?, Option.map_eq_none_iff, List.head?_eq_none_iff] at h
  rw [nalSpans_eq_spans, h]
  rfl

/-- At once, it gives the same but for times and numbers. -/
theorem extractAll_of_valid (mediaType : MediaType) (time : Timestamp)
    (hvalid : data.length < minUnitSize ∨ StartCode.leading? data ≠ none) :
    extractAll mediaType data time =
      .ok (accessUnits mediaType.codec (fun _ => time) (.ofCodec mediaType.codec) data) := by
  rw [extractAll_eq]
  rcases Nat.lt_or_ge data.length minUnitSize with hshort | hlong
  · rw [if_pos hshort, accessUnits_of_nalSpans_nil (nalSpans_of_short hshort)]
  · have hlead := hvalid.resolve_left (by omega)
    rw [if_neg (by omega), if_neg (by rwa [Option.isNone_iff_eq_none])]

/-- Each sample takes bytes of its own, but for the last. -/
theorem Drains.length_le {samples : List Sample} (h : Drains e data samples e') :
    samples.length ≤ data.length + 1 := by
  induction h with
  | @stop e e' data sample answer => cases sample <;> simp
  | @consume e e₁ e' data sample n samples answer later ih =>
    have hbounds := bounds_of_extract answer
    have hsample : sample.toList.length ≤ 1 := by cases sample <;> simp
    rw [List.length_drop] at ih
    rw [List.length_append]
    omega

theorem length_flatten_accessUnits_le (mediaType : MediaType) (mode : TimestampMode)
    (data : List UInt8) :
    (accessUnits mediaType.codec mode.stamp (.ofCodec mediaType.codec) data).flatten.length ≤
      data.length + 1 := by
  rcases hfind : find? .complete data 0 with _ | m
  · rw [accessUnits_of_nalSpans_nil (nalSpans_of_find?_none hfind)]
    exact Nat.zero_le _
  · obtain ⟨e', hdrains⟩ := drains_ofMediaType_of_find? mediaType mode hfind
    have hlength := hdrains.length_le
    rw [List.length_drop] at hlength
    omega

end Extractor
end AnnexB
