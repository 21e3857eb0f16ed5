/-
# Units written one behind the other

`written units` are the bytes of some units, each behind its start code, and `unitsIn data` are the
units that a stream is read as.  Reading gives back what was written if the units are `Separable`:
no payload has a pattern in it, no payload in front of a short start code ends in a zero, which
would make that start code a long one, and the last unit is not too short to be kept.  Only at the
end of the stream may the three bytes of a pattern stand in a payload.

A start code joined to a payload makes no pattern besides its own: it begins with a zero, and a
pattern ends in a one (`StartCodeMatch.hasPattern_of_append_bytes`).  So `Separable` units are read
as they were written (`unitsIn_written`), and no others are (`separable_of_reread`).  The units of
any stream are `Separable` unless the last one is dropped (`separable_unitsIn`).  If some of them are
left out, the others still have no pattern in them (`PatternFree.sublist`), and `separable_iff` says
what else it takes.
-/

import AnnexB.Proofs.Scan

namespace AnnexB

open StartCodeMatch NalSpan

/-- A NAL unit behind its start code. -/
abbrev CodedUnit := StartCode × List UInt8

/-- The bytes of some units, each behind its start code. -/
def written (units : List CodedUnit) : List UInt8 :=
  units.flatMap fun u => u.1.bytes ++ u.2

/-- The start code and the payload of a unit in its stream. -/
def NalSpan.coded (data : List UInt8) (u : NalSpan) : CodedUnit :=
  (u.startCode, u.payload data)

/-- The units that a stream is read as. -/
def unitsIn (data : List UInt8) : List CodedUnit := (nalSpans data).map (coded data)

/-- Units that are read as they were written. -/
inductive Separable : List CodedUnit → Prop
  | last {c : StartCode} {payload : List UInt8} (hsize : minUnitSize ≤ c.size + payload.length)
      (hpayload : ∀ k, hasPattern 1 (payload.drop k) = false) : Separable [(c, payload)]
  | cons {c : StartCode} {payload : List UInt8} {next : CodedUnit}
      {rest : List CodedUnit}
      (hpayload : ∀ k, hasPattern 0 (payload.drop k) = false)
      (hnext : next.1 = .short → payload.getLast? ≠ some 0) (hrest : Separable (next :: rest)) :
      Separable ((c, payload) :: next :: rest)

theorem written_cons (c : StartCode) (payload : List UInt8)
    (rest : List CodedUnit) :
    written ((c, payload) :: rest) = c.bytes ++ (payload ++ written rest) := by
  rw [written, List.flatMap_cons, List.append_assoc]
  rfl

theorem written_append (units later : List CodedUnit) :
    written (units ++ later) = written units ++ written later :=
  List.flatMap_append

/-- What is written begins with a start code. -/
theorem exists_leading?_written {units : List CodedUnit} (hne : units ≠ []) :
    ∃ c, StartCode.leading? (written units) = some c := by
  obtain ⟨⟨c, payload⟩, rest, rfl⟩ := List.exists_cons_of_ne_nil hne
  exact ⟨c, by rw [written_cons, StartCode.leading?_bytes_append]⟩

/-! ### Patterns of start codes and payloads -/

namespace StartCodeMatch

variable {extent : Extent} {data : List UInt8} {needed start n : Nat}

/-- Positions without pattern are passed over. -/
theorem patterns_skip (hle : start ≤ n)
    (h : ∀ k, start ≤ k → k < n → hasPattern extent.payloadNeeded (data.drop k) = false) :
    patterns extent data start = patterns extent data n := by
  induction hn : n - start generalizing start with
  | zero =>
    obtain rfl : start = n := by omega
    rfl
  | succ m ih =>
    have hnext := @ih (start + 1) (by omega) (fun k hk => h k (by omega)) (by omega)
    rw [← hnext]
    rcases Nat.lt_or_ge start data.length with hlt | hge
    · rw [patterns_of_lt hlt, if_neg (by rw [h start (Nat.le_refl _) (by omega)]; decide)]
    · rw [patterns_of_length_le hge, patterns_of_length_le (by omega)]

/-- Behind some bytes, the first pattern is that of the start code, which opens a unit there.  A short
one must not stand behind a zero. -/
theorem head?_patterns_startCode {before tail : List UInt8} {c : StartCode}
    (hdrop : data.drop before.length = c.bytes ++ tail) (htail : tail ≠ [])
    (hzero : c = .short → followsZero data before.length = false) :
    ∃ i, (patterns .complete data before.length).head? = some i ∧
      codeOffset data i = before.length ∧ codeAt data i = c := by
  obtain ⟨x, tail, rfl⟩ := List.exists_cons_of_ne_nil htail
  cases c with
  | short =>
    have hp : hasPattern 1 (data.drop before.length) = true := by rw [hdrop]; rfl
    refine ⟨before.length, head?_patterns_eq_some_iff.2 ⟨Nat.le_refl _, hp, ?_⟩, ?_⟩
    · intro k hk hk'
      omega
    · rcases @codeOffset_cases data before.length with ⟨-, hc, ho⟩ | ⟨hz, -⟩
      · exact ⟨ho, hc⟩
      · simp [hzero rfl] at hz
  | long =>
    have hp : hasPattern 1 (data.drop (before.length + 1)) = true := by
      rw [← List.drop_drop, hdrop]
      rfl
    have hbehind : followsZero data (before.length + 1) = true := by
      rw [followsZero_eq_true_iff, Nat.add_sub_cancel, ← Nat.add_zero before.length,
        ← List.getElem?_drop, hdrop]
      exact ⟨Nat.succ_ne_zero _, rfl⟩
    refine ⟨before.length + 1, head?_patterns_eq_some_iff.2 ⟨Nat.le_succ _, hp, ?_⟩, ?_⟩
    · intro k hk hk'
      obtain rfl : k = before.length := by omega
      rw [hdrop]
      rfl
    · rcases @codeOffset_cases data (before.length + 1) with ⟨hz, -⟩ | ⟨-, hc, ho⟩
      · simp [hbehind] at hz
      · exact ⟨Nat.succ.inj ho, hc⟩

theorem followsZero_length {before later : List UInt8} (h : before.getLast? ≠ some 0) :
    followsZero (before ++ later) before.length = false := by
  rw [← Bool.not_eq_true, followsZero_eq_true_iff]
  rintro ⟨hne, hlast⟩
  rw [List.getElem?_append_left (by omega), ← List.getLast?_eq_getElem?] at hlast
  exact h hlast

/-- Behind some bytes, a start code opens a unit, and what stands behind it is its payload and more.
A short one must not stand behind a zero. -/
theorem patterns_startCode (before : List UInt8) (c : StartCode) {tail : List UInt8}
    (htail : tail ≠ []) (hzero : c = .short → before.getLast? ≠ some 0)
    (hdata : data = before ++ (c.bytes ++ tail)) :
    ∃ i, patterns .complete data before.length = i :: patterns .complete data (i + 3) ∧
      codeOffset data i = before.length ∧ codeAt data i = c ∧ data.drop (i + 3) = tail := by
  have hdrop : data.drop before.length = c.bytes ++ tail := by rw [hdata, List.drop_left]
  obtain ⟨i, hi, hoffset, hcode⟩ := head?_patterns_startCode hdrop htail
    fun hshort => hdata ▸ followsZero_length (hzero hshort)
  obtain ⟨rest, hrest⟩ := List.head?_eq_some_iff.1 hi
  obtain ⟨-, hp, hlater⟩ := patterns_eq_cons hrest
  have hfront := drop_codeOffset hp
  rw [hoffset, hcode, hdrop] at hfront
  exact ⟨i, by rw [hrest, hlater], hoffset, hcode, (List.append_cancel_left hfront).symm⟩

/-- A payload joined to a start code makes no pattern that is not in the payload. -/
theorem hasPattern_of_append_bytes {payload rest : List UInt8} {c : StartCode} (hne : payload ≠ [])
    (h : hasPattern needed (payload ++ (c.bytes ++ rest)) = true) : hasPattern 0 payload = true := by
  rcases payload with _ | ⟨x, _ | ⟨y, _ | ⟨z, payload⟩⟩⟩
  · exact absurd rfl hne
  · cases c <;> simp [hasPattern, StartCode.bytes] at h
  · cases c <;> simp [hasPattern, StartCode.bytes] at h
  · simp_all [hasPattern]

end StartCodeMatch

/-! ### Reading what was written -/

namespace NalSpan

variable {data : List UInt8} {i : Nat}

/-- The unit that a pattern opens, ended behind its payload. -/
theorem coded_endAt {c : StartCode} {payload later : List UInt8} (hcode : codeAt data i = c)
    (hdrop : data.drop (i + 3) = payload ++ later) :
    coded data ((atPattern data i).endAt (i + 3 + payload.length)) = (c, payload) := by
  have hpayload : ((atPattern data i).endAt (i + 3 + payload.length)).payload data = payload := by
    rw [payload_endAt, payloadOffset_atPattern, hdrop, Nat.add_sub_cancel_left, List.take_left]
  exact Prod.ext hcode hpayload

end NalSpan

namespace Separable

variable {units : List CodedUnit} {data before : List UInt8}

theorem ne_nil (h : Separable units) : units ≠ [] := by
  cases h <;> simp

theorem length_written (h : Separable units) : minUnitSize ≤ (written units).length := by
  induction h with
  | @last c payload hsize hpayload =>
    rw [written_cons, List.length_append, StartCode.length_bytes, List.length_append]
    exact Nat.le_trans hsize (Nat.add_le_add_left (Nat.le_add_right ..) _)
  | @cons c payload next rest hpayload hnext hrest ih =>
    rw [written_cons, List.length_append, List.length_append]
    omega

theorem tail_ne_nil {c : StartCode} {payload : List UInt8} {rest : List CodedUnit}
    (h : Separable ((c, payload) :: rest)) : payload ++ written rest ≠ [] := by
  intro hnil
  have hlen := h.length_written
  rw [written_cons, hnil, List.append_nil, StartCode.length_bytes, minUnitSize] at hlen
  have := c.size_bounds
  omega

/-- Behind some bytes, the first of some units opens at its start code. -/
theorem patterns_written {c : StartCode} {payload : List UInt8}
    {rest : List CodedUnit} (h : Separable ((c, payload) :: rest))
    (hzero : c = .short → before.getLast? ≠ some 0)
    (hdata : data = before ++ written ((c, payload) :: rest)) :
    ∃ i, patterns .complete data before.length = i :: patterns .complete data (i + 3) ∧
      codeOffset data i = before.length ∧ codeAt data i = c ∧
      data.drop (i + 3) = payload ++ written rest ∧ i + 3 = before.length + c.size := by
  rw [written_cons] at hdata
  obtain ⟨i, hpatterns, hoffset, hcode, hdrop⟩ :=
    patterns_startCode before c h.tail_ne_nil hzero hdata
  exact ⟨i, hpatterns, hoffset, hcode, hdrop, by rw [← hoffset, ← hcode, codeOffset_add_size]⟩

/-- The patterns behind a payload are those of the units behind it. -/
theorem patterns_behind_payload {payload : List UInt8} {next : CodedUnit} {rest : List CodedUnit}
    {start : Nat} (hpayload : ∀ k, hasPattern 0 (payload.drop k) = false)
    (hdrop : data.drop start = payload ++ written (next :: rest)) :
    patterns .complete data start = patterns .complete data (start + payload.length) := by
  refine patterns_skip (Nat.le_add_right ..) fun k hk hk' => ?_
  rw [← Nat.add_sub_cancel' hk, ← List.drop_drop, hdrop,
    List.drop_append_of_le_length (by omega), written_cons, ← Bool.not_eq_true]
  intro hp
  have hinside := hasPattern_of_append_bytes (by simp; omega) hp
  rw [hpayload] at hinside
  simp at hinside

theorem getLast?_append_bytes_ne_zero (before : List UInt8) (c : StartCode) {payload : List UInt8}
    (h : payload.getLast? ≠ some 0) : (before ++ (c.bytes ++ payload)).getLast? ≠ some 0 := by
  rcases List.eq_nil_or_concat payload with rfl | ⟨front, x, rfl⟩
  · cases c <;> simp [StartCode.bytes]
  · simpa [← List.append_assoc] using h

/-- Behind some bytes, units are read as they were written, from the first of them on. -/
theorem map_coded_spans (h : Separable units)
    (hzero : ∀ u ∈ units.head?, u.1 = .short → before.getLast? ≠ some 0)
    (hdata : data = before ++ written units) :
    (spans data (patterns .complete data before.length)).map (coded data) = units := by
  induction h generalizing before with
  | @last c payload hsize hpayload =>
    obtain ⟨i, hpatterns, hoffset, hcode, hdrop, hstart⟩ :=
      (Separable.last hsize hpayload).patterns_written (hzero _ rfl) hdata
    rw [written, List.flatMap_nil, List.append_nil] at hdrop
    have hlen : data.length = i + 3 + payload.length := by
      rw [hstart, hdata, written, List.flatMap_singleton, List.length_append, List.length_append,
        StartCode.length_bytes, Nat.add_assoc]
    have hnone : patterns .complete data (i + 3) = [] := by
      rw [patterns_skip (n := data.length) (by omega), patterns_of_length_le (Nat.le_refl _)]
      intro k hk hk'
      rw [← Nat.add_sub_cancel' hk, ← List.drop_drop, hdrop]
      exact hpayload _
    rw [hpatterns, hnone, spans, if_neg (by rw [hoffset]; omega), List.map_singleton, hlen,
      coded_endAt hcode (hdrop.trans (List.append_nil _).symm)]
  | @cons c payload next rest hpayload hnext hrest ih =>
    obtain ⟨i, hpatterns, hoffset, hcode, hdrop, hstart⟩ :=
      (Separable.cons hpayload hnext hrest).patterns_written (hzero _ rfl) hdata
    -- The next unit is read behind the bytes of this one.
    have hbefore : (before ++ (c.bytes ++ payload)).length = i + 3 + payload.length := by
      rw [hstart, List.length_append, List.length_append, StartCode.length_bytes, Nat.add_assoc]
    have hdata' : data = before ++ (c.bytes ++ payload) ++ written (next :: rest) := by
      rw [hdata, written_cons, List.append_assoc, List.append_assoc]
    have hzero' : next.1 = .short → (before ++ (c.bytes ++ payload)).getLast? ≠ some 0 :=
      fun hshort => getLast?_append_bytes_ne_zero before c (hnext hshort)
    obtain ⟨j, hpatterns', hoffset', -⟩ := hrest.patterns_written hzero' hdata'
    have hread := ih (by simpa using hzero') hdata'
    rw [hpatterns'] at hread
    rw [hpatterns, patterns_behind_payload hpayload hdrop, ← hbefore, hpatterns', spans,
      List.map_cons, hread, hoffset', hbefore, coded_endAt hcode hdrop]

end Separable

/-- **Units are read as they were written**, if they are separable. -/
theorem unitsIn_written {units : List CodedUnit} (h : Separable units) :
    unitsIn (written units) = units := by
  have hread := @Separable.map_coded_spans units _ [] h (by simp) rfl
  rwa [List.length_nil, ← nalSpans_eq_spans] at hread

theorem written_inj {units later : List CodedUnit} (h : Separable units) (h' : Separable later) :
    written units = written later ↔ units = later := by
  refine ⟨fun heq => ?_, fun heq => heq ▸ rfl⟩
  rw [← unitsIn_written h, heq, unitsIn_written h']

/-! ### Units without patterns -/

/-- Units without pattern in a payload.  In the last one a pattern may stand where no byte follows
it. -/
structure PatternFree (units : List CodedUnit) : Prop where
  inner : units.Pairwise fun u _ => ∀ k, hasPattern 0 (u.2.drop k) = false
  all : ∀ u ∈ units, ∀ k, hasPattern 1 (u.2.drop k) = false

namespace PatternFree

variable {units part : List CodedUnit}

/-- Units may be left out, the last one too. -/
theorem sublist (h : PatternFree units) (hsub : part.Sublist units) : PatternFree part := by
  constructor
  · exact h.inner.sublist hsub
  · exact fun u hu => h.all u (hsub.subset hu)

/-- Without patterns, units are separable if no zero comes to stand before a short start code and
the last one is long enough. -/
theorem separable_iff (h : PatternFree units) (hne : units ≠ []) :
    Separable units ↔
      (units.IsChain fun u v => v.1 = .short → u.2.getLast? ≠ some 0) ∧
        ∀ u ∈ units.getLast?, minUnitSize ≤ u.1.size + u.2.length := by
  constructor
  · intro hseparable
    induction hseparable with
    | last hsize hpayload => exact ⟨.singleton _, by simpa using hsize⟩
    | cons hpayload hnext hrest ih =>
      obtain ⟨hchain, hlast⟩ := ih (h.sublist (List.sublist_cons_self ..)) (by simp)
      exact ⟨.cons_cons hnext hchain, by rwa [List.getLast?_cons_cons]⟩
  · rintro ⟨hchain, hlast⟩
    induction units with
    | nil => exact absurd rfl hne
    | cons u rest ih =>
      rcases rest with _ | ⟨v, rest⟩
      · exact .last (hlast u rfl) (h.all u (List.mem_singleton_self u))
      · obtain ⟨hinner, -⟩ := List.pairwise_cons.1 h.inner
        obtain ⟨hnext, hchain⟩ := List.isChain_cons_cons.1 hchain
        rw [List.getLast?_cons_cons] at hlast
        exact .cons (hinner v (List.mem_cons_self ..)) hnext
          (ih (h.sublist (List.sublist_cons_self ..)) (by simp) hchain hlast)

end PatternFree

/-! ### What a stream is read as -/

namespace NalSpan

variable {data : List UInt8} {u : NalSpan} {start i k : Nat} {rest : List Nat}

theorem getElem?_payload (hk : k < u.payloadLength) :
    (u.payload data)[k]? = data[u.payloadOffset + k]? := by
  rw [payload, List.getElem?_take_of_lt hk, List.getElem?_drop]

/-- The three bytes of a pattern in a payload are the last three of the stream. -/
theorem end_of_hasPattern_payload {needed : Nat}
    (hu : u ∈ closedSpans data (patterns .complete data start))
    (h : hasPattern needed ((u.payload data).drop k) = true) :
    u.payloadOffset + k + 3 = data.length ∧ k + 3 + needed ≤ (u.payload data).length := by
  obtain ⟨h0, h1, h2, hlen⟩ := hasPattern_drop_iff.1 h
  have hle : (u.payload data).length ≤ u.payloadLength := List.length_take_le ..
  rw [getElem?_payload (by omega)] at h0 h1 h2
  refine ⟨end_of_pattern_inside hu (take_three_drop_iff.2 ⟨h0, h1, h2⟩) (Nat.le_add_right ..) ?_,
    hlen⟩
  rw [stop]
  omega

theorem length_payload_endAt {stop : Nat} (h : stop ≤ data.length) :
    (((atPattern data i).endAt stop).payload data).length = stop - (i + 3) := by
  rw [payload_endAt, payloadOffset_atPattern, List.length_take, List.length_drop]
  omega

/-- A payload that ends before the end of the stream has no pattern in it, and none has one with a
byte behind it. -/
theorem hasPattern_payload_endAt {stop needed : Nat}
    (hu : (atPattern data i).endAt stop ∈ closedSpans data (patterns .complete data start))
    (hle : stop ≤ data.length) (hlt : stop < data.length + needed) (k : Nat) :
    hasPattern needed ((((atPattern data i).endAt stop).payload data).drop k) = false := by
  rw [← Bool.not_eq_true]
  intro hp
  obtain ⟨hend, hlen⟩ := end_of_hasPattern_payload hu hp
  rw [payloadOffset_endAt, payloadOffset_atPattern] at hend
  rw [length_payload_endAt hle] at hlen
  omega

/-- In front of a short start code, a payload does not end in a zero. -/
theorem getLast?_payload_of_short {j : Nat} (hj : codeAt data j = .short) (hle : j ≤ data.length) :
    (((atPattern data i).endAt (codeOffset data j)).payload data).getLast? ≠ some 0 := by
  rcases @codeOffset_cases data j with ⟨hnot, -, ho⟩ | ⟨-, hc, -⟩
  · rw [ho, List.getLast?_eq_getElem?, length_payload_endAt hle]
    intro hlast
    obtain ⟨hlt, -⟩ := List.getElem?_eq_some_iff.1 hlast
    rw [length_payload_endAt hle] at hlt
    rw [getElem?_payload (by rw [endAt, payloadOffset_atPattern]; omega), payloadOffset_endAt,
      payloadOffset_atPattern, show i + 3 + (j - (i + 3) - 1) = j - 1 by omega] at hlast
    rw [followsZero_eq_true_iff.2 ⟨by omega, hlast⟩] at hnot
    simp at hnot
  · rw [hj] at hc
    simp at hc

/-- Only at the end of the stream does a pattern stand in a payload. -/
theorem patternFree_closedSpans {ps : List Nat} (hps : patterns .complete data start = ps) :
    PatternFree ((closedSpans data ps).map (coded data)) := by
  induction ps generalizing start with
  | nil => exact ⟨.nil, by simp [closedSpans]⟩
  | cons i rest ih =>
    obtain ⟨-, -, hrest⟩ := patterns_eq_cons hps
    rcases rest with _ | ⟨j, rest⟩
    · have hu : (atPattern data i).endAt data.length ∈
          closedSpans data (patterns .complete data start) := by
        rw [hps]
        exact List.mem_singleton_self _
      constructor
      · exact List.pairwise_singleton ..
      · exact List.forall_mem_singleton.2
          (hasPattern_payload_endAt hu (Nat.le_refl _) (Nat.lt_succ_self _))
    · have hu : (atPattern data i).endAt (codeOffset data j) ∈
          closedSpans data (patterns .complete data start) := by
        rw [hps]
        exact List.mem_cons_self ..
      have hlen := (hasPattern_drop_iff.1 (hps ▸ arePatterns data start).tail.head).2.2.2
      have hle := @codeOffset_le data j
      have hfree := ih hrest.symm
      constructor
      · refine List.pairwise_cons.2 ⟨fun _ _ => ?_, hfree.inner⟩
        exact hasPattern_payload_endAt hu (by omega) (by omega)
      · exact List.forall_mem_cons.2
          ⟨hasPattern_payload_endAt hu (by omega) (by omega), hfree.all⟩

/-- No zero stands before a short start code. -/
theorem isChain_coded_closedSpans {ps : List Nat} (h : ArePatterns data ps) :
    ((closedSpans data ps).map (coded data)).IsChain
      fun u v => v.1 = .short → u.2.getLast? ≠ some 0 := by
  induction ps with
  | nil => exact .nil
  | cons i rest ih =>
    rcases rest with _ | ⟨j, rest⟩
    · exact .singleton _
    · have hlen := (hasPattern_drop_iff.1 h.tail.head).2.2.2
      have hnext : codeAt data j = .short →
          (((atPattern data i).endAt (codeOffset data j)).payload data).getLast? ≠ some 0 :=
        fun hshort => getLast?_payload_of_short hshort (by omega)
      have htail := ih h.tail
      rcases rest with _ | ⟨k, rest⟩
      · exact .cons_cons hnext htail
      · exact .cons_cons hnext htail

/-- A unit that lies in its stream is as long as its start code and its payload. -/
theorem size_add_length_coded (h : LiesIn data u) (hle : u.payloadOffset ≤ data.length) :
    (coded data u).1.size + (coded data u).2.length = u.totalLength := by
  obtain ⟨hcode, hstop⟩ := h
  rw [stop] at hstop
  have hlength : (u.payload data).length = u.payloadLength := by
    rw [payload, List.length_take, List.length_drop]
    omega
  simp only [totalLength, stop, coded, hlength]
  omega

end NalSpan

/-- No payload of a stream has a pattern in it, but at the end of the stream. -/
theorem patternFree_unitsIn (data : List UInt8) : PatternFree (unitsIn data) := by
  have hwhole : PatternFree ((wholeSpans data).map (coded data)) := by
    rw [wholeSpans_eq, patternPositions_eq]
    exact patternFree_closedSpans rfl
  refine hwhole.sublist (List.Sublist.map _ ?_)
  rw [nalSpans_eq_wholeSpans]
  split
  · exact List.dropLast_sublist _
  · exact List.Sublist.refl _

/-- **The units of a stream can be read again as they are**, if none is dropped. -/
theorem separable_unitsIn {data : List UInt8} (hkept : nalSpans data = wholeSpans data)
    (hne : nalSpans data ≠ []) : Separable (unitsIn data) := by
  have hend := getLast?_closedSpans (arePatterns_patternPositions data)
  rw [← wholeSpans_eq] at hend
  refine ((patternFree_unitsIn data).separable_iff (by simpa [unitsIn] using hne)).2 ⟨?_, ?_⟩
  · rw [unitsIn, hkept, wholeSpans_eq]
    exact isChain_coded_closedSpans (arePatterns_patternPositions data)
  · rw [unitsIn, List.getLast?_map]
    intro v hv
    obtain ⟨u, hu, rfl⟩ := Option.map_eq_some_iff.1 hv
    obtain ⟨hle, hstop⟩ := hend u (hkept ▸ hu)
    have hcode := codeSize_of_mem_closedSpans (wholeSpans_eq data ▸ hkept ▸ List.mem_of_getLast? hu)
    rw [size_add_length_coded ⟨hcode, Nat.le_of_eq hstop⟩ hle]
    by_contra hshort
    have hdropped := nalSpans_eq_wholeSpans data
    rw [if_pos ⟨u, hkept ▸ hu, by omega⟩, hkept] at hdropped
    have hlength := congrArg List.length hdropped
    have hpos := List.length_pos_iff.2 (hkept ▸ hne)
    rw [List.length_dropLast] at hlength
    omega

/-! ### Only separable units are read as they were written -/

theorem written_map_coded (data : List UInt8) (spans : List NalSpan) :
    written (spans.map (coded data)) = spans.flatMap (bytes data) := by
  rw [written, List.flatMap_map]
  rfl

/-- Before the rule for a short last unit, the units of a stream are all of it. -/
theorem flatMap_bytes_wholeSpans {data : List UInt8} {c : StartCode}
    (hleading : StartCode.leading? data = some c) (hlong : minUnitSize ≤ data.length) :
    (wholeSpans data).flatMap (bytes data) = data := by
  obtain ⟨i, hi, hzero, -⟩ := StartCode.patterns_of_leading? hleading hlong
  obtain ⟨rest, hpatterns⟩ := List.head?_eq_some_iff.1 hi
  have htile := flatMap_bytes_closedSpans (hpatterns ▸ arePatterns data 0)
  rwa [hzero, List.drop_zero, ← hpatterns, ← patternPositions_eq, ← wholeSpans_eq] at htile

/-- What units are written as determines their start codes, once their payloads are known, and that
nothing else is written. -/
theorem eq_of_written_eq_append {units later : List CodedUnit} {tail : List UInt8}
    (hwritten : written units = written later ++ tail)
    (hpayloads : later.map Prod.snd = units.map Prod.snd) : later = units ∧ tail = [] := by
  induction units generalizing later with
  | nil =>
    obtain rfl : later = [] := by simpa using hpayloads
    exact ⟨rfl, hwritten.symm⟩
  | cons u rest ih =>
    obtain ⟨c, payload⟩ := u
    rcases later with _ | ⟨⟨c', payload'⟩, later⟩
    · simp at hpayloads
    · rw [List.map_cons, List.map_cons, List.cons_eq_cons] at hpayloads
      obtain ⟨rfl, hpayloads⟩ := hpayloads
      rw [written_cons, written_cons, List.append_assoc] at hwritten
      have hcode := congrArg StartCode.leading? hwritten
      rw [StartCode.leading?_bytes_append, StartCode.leading?_bytes_append] at hcode
      obtain rfl := Option.some.inj hcode
      rw [List.append_assoc] at hwritten
      have hrest := List.append_cancel_left (List.append_cancel_left hwritten)
      obtain ⟨rfl, htail⟩ := ih hrest hpayloads
      exact ⟨rfl, htail⟩

/-- **Only separable units are read as they were written,** even if start codes do not count. -/
theorem separable_of_reread {units : List CodedUnit} (hne : units ≠ [])
    (hlong : minUnitSize ≤ (written units).length)
    (hread : (unitsIn (written units)).map Prod.snd = units.map Prod.snd) : Separable units := by
  obtain ⟨c, hleading⟩ := exists_leading?_written hne
  have htile := flatMap_bytes_wholeSpans hleading hlong
  have hkept : nalSpans (written units) = wholeSpans (written units) := by
    have hspans := nalSpans_eq_wholeSpans (written units)
    split at hspans
    · rename_i hshort
      obtain ⟨u, hu, -⟩ := hshort
      obtain ⟨earlier, hwhole⟩ := List.getLast?_eq_some_iff.1 hu
      rw [hwhole, List.dropLast_concat] at hspans
      rw [hwhole, List.flatMap_append, List.flatMap_singleton, ← hspans, ← written_map_coded]
        at htile
      -- All is written by the units that are kept, so the one that is dropped has no bytes.
      obtain ⟨-, hnil⟩ := eq_of_written_eq_append htile.symm hread
      rw [bytes] at hnil
      cases hc : u.startCode <;> simp [hc, StartCode.bytes] at hnil
    · exact hspans
  have hunits : unitsIn (written units) = units := by
    rw [← hkept, ← written_map_coded] at htile
    exact (eq_of_written_eq_append (htile.symm.trans (List.append_nil _).symm) hread).1
  have hspans : nalSpans (written units) ≠ [] := by
    intro hnil
    rw [unitsIn, hnil] at hunits
    exact hne hunits.symm
  have hseparable := separable_unitsIn hkept hspans
  rwa [hunits] at hseparable

end AnnexB
