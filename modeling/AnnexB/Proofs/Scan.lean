/-
# Every pattern opens a unit, and nothing else does

`patternPositions data` lists where the three bytes of a pattern stand with a byte behind them, said
of the bytes alone.  Before the rule for a short last unit, the units of a stream (`wholeSpans`) are
one for each of these positions, in order; each ends where the start code of the next one begins,
the last with the stream, and no length is cut off at zero (`nalSpans_exact`).

So a unit can hold the bytes of a pattern in one place only, at the very end of the stream, where no
byte follows them (`end_of_pattern_inside`).
-/

import AnnexB.Proofs.Spans

namespace AnnexB

open StartCodeMatch NalSpan

/-- The positions of the bytes `00 00 01` in some data, where a byte follows them. -/
def patternPositions (data : List UInt8) : List Nat :=
  (List.range data.length).filter fun i => (data.drop i).take 3 = [0, 0, 1] ∧ i + 3 < data.length

/-- The units that an indexer holds after a whole stream, the last one ended with the stream. -/
def wholeSpans (data : List UInt8) : List NalSpan :=
  match (StartCodeIndexer.empty.push data).units with
  | [] => []
  | last :: earlier => (last.endAt data.length :: earlier).reverse

/-! ### Positions -/

namespace StartCodeMatch

variable {data : List UInt8} {start i : Nat}

theorem take_three_drop_iff :
    (data.drop i).take 3 = [0, 0, 1] ↔
      data[i]? = some 0 ∧ data[i + 1]? = some 0 ∧ data[i + 2]? = some 1 := by
  have hget : ∀ k, data[i + k]? = (data.drop i)[k]? := fun k => by rw [List.getElem?_drop]
  rw [hget 1, hget 2, ← Nat.add_zero i, hget 0, Nat.add_zero]
  rcases data.drop i with _ | ⟨a, _ | ⟨b, _ | ⟨c, rest⟩⟩⟩ <;> simp

theorem mem_patterns_iff :
    i ∈ patterns .complete data start ↔ start ≤ i ∧ hasPattern 1 (data.drop i) = true := by
  rw [patterns, List.mem_filter, List.mem_range'_1]
  constructor
  · rintro ⟨⟨hle, -⟩, hp⟩
    exact ⟨hle, hp⟩
  · rintro ⟨hle, hp⟩
    have hlen := (hasPattern_drop_iff.1 hp).2.2.2
    exact ⟨⟨hle, by omega⟩, hp⟩

theorem patternPositions_eq (data : List UInt8) :
    patternPositions data = patterns .complete data 0 := by
  rw [patternPositions, patterns, Nat.sub_zero, List.range_eq_range']
  refine List.filter_congr fun i _ => ?_
  rw [Bool.eq_iff_iff, decide_eq_true_iff, take_three_drop_iff, hasPattern_drop_iff,
    Extent.payloadNeeded_complete, Nat.lt_iff_add_one_le, and_assoc, and_assoc]

end StartCodeMatch

/-! ### Units -/

namespace NalSpan

variable {data : List UInt8} {ps : List Nat} {u : NalSpan} {i p : Nat}

/-- The units that the patterns at some positions open, the last one ended with the stream. -/
def closedSpans (data : List UInt8) : List Nat → List NalSpan
  | [] => []
  | [i] => [(atPattern data i).endAt data.length]
  | i :: j :: rest => (atPattern data i).endAt (codeOffset data j) :: closedSpans data (j :: rest)

/-- Ending the last of the open units ends the last of the units. -/
theorem openSpans_eq_concat (data : List UInt8) (i : Nat) (rest : List Nat) :
    ∃ earlier last, openSpans data (i :: rest) = earlier ++ [last] ∧
      closedSpans data (i :: rest) = earlier ++ [last.endAt data.length] := by
  induction rest generalizing i with
  | nil => exact ⟨[], atPattern data i, rfl, rfl⟩
  | cons j rest ih =>
    obtain ⟨earlier, last, hopen, hclosed⟩ := ih j
    refine ⟨(atPattern data i).endAt (codeOffset data j) :: earlier, last, ?_, ?_⟩
    · rw [openSpans, hopen, List.cons_append]
    · rw [closedSpans, hclosed, List.cons_append]

theorem arePatterns_patternPositions (data : List UInt8) :
    ArePatterns data (patternPositions data) := by
  rw [patternPositions_eq]
  exact arePatterns data 0

theorem wholeSpans_eq (data : List UInt8) :
    wholeSpans data = closedSpans data (patternPositions data) := by
  rw [wholeSpans, StartCodeIndexer.units_push_empty, patternPositions_eq]
  rcases patterns .complete data 0 with _ | ⟨i, rest⟩
  · rfl
  · obtain ⟨earlier, last, hopen, hclosed⟩ := openSpans_eq_concat data i rest
    rw [hopen, hclosed, List.reverse_append]
    simp

/-- What does not depend on where units end is that of the patterns. -/
theorem map_closedSpans {β : Type} {view : NalSpan → β} (h : ∀ u n, view (u.endAt n) = view u)
    (data : List UInt8) (ps : List Nat) :
    (closedSpans data ps).map view = ps.map fun i => view (atPattern data i) := by
  induction ps with
  | nil => rfl
  | cons i rest ih =>
    cases rest with
    | nil => rw [closedSpans, List.map_singleton, List.map_singleton, h]
    | cons j rest =>
      rw [closedSpans, List.map_cons, ih, h]
      rfl

/-- The start code of a pattern is the long one where a zero stands before the pattern. -/
theorem codeAt_eq (data : List UInt8) (i : Nat) :
    codeAt data i = if 0 < i ∧ data[i - 1]? = some 0 then .long else .short := by
  have hzero : followsZero data i = decide (0 < i ∧ data[i - 1]? = some 0) := by
    rw [Bool.eq_iff_iff, followsZero_eq_true_iff, decide_eq_true_iff, Nat.pos_iff_ne_zero]
  rw [codeAt, hzero, StartCode.ofPattern]
  simp only [decide_eq_true_iff]

theorem codeSize_of_mem_closedSpans (h : u ∈ closedSpans data ps) :
    u.startCodeOffset + u.startCode.size = u.payloadOffset := by
  have hmem := List.mem_map_of_mem
    (f := fun u : NalSpan => u.startCodeOffset + u.startCode.size = u.payloadOffset) h
  rw [map_closedSpans fun _ _ => rfl] at hmem
  obtain ⟨i, -, hi⟩ := List.mem_map.1 hmem
  rw [← hi]
  exact codeOffset_add_size

/-- Each unit but the last ends where the start code of the next one begins, and that is not before
its payload. -/
theorem isChain_closedSpans (h : ArePatterns data ps) :
    (closedSpans data ps).IsChain fun u v =>
      u.payloadOffset ≤ v.startCodeOffset ∧ u.stop = v.startCodeOffset := by
  induction ps with
  | nil => exact .nil
  | cons i rest ih =>
    cases rest with
    | nil => exact .singleton _
    | cons j rest =>
      have hj : j ∈ j :: rest := List.mem_cons_self ..
      have hnext : ((atPattern data i).endAt (codeOffset data j)).payloadOffset ≤
          codeOffset data j := h.le_codeOffset hj
      have htail := ih h.tail
      rcases rest with _ | ⟨k, rest⟩
      · exact .cons_cons ⟨hnext, stop_of_next h hj⟩ htail
      · exact .cons_cons ⟨hnext, stop_of_next h hj⟩ htail

/-- The last unit ends with the stream. -/
theorem getLast?_closedSpans (h : ArePatterns data ps) :
    ∀ u ∈ (closedSpans data ps).getLast?, u.payloadOffset ≤ data.length ∧ u.stop = data.length := by
  induction ps with
  | nil => simp [closedSpans]
  | cons i rest ih =>
    cases rest with
    | nil =>
      intro u hu
      obtain rfl : (atPattern data i).endAt data.length = u := by simpa [closedSpans] using hu
      have hlen := (hasPattern_drop_iff.1 h.head).2.2.2
      exact ⟨by rw [payloadOffset_endAt, payloadOffset_atPattern]; omega, stop_of_last h.head⟩
    | cons j rest =>
      intro u hu
      obtain ⟨v, later, hclosed⟩ : ∃ v later, closedSpans data (j :: rest) = v :: later := by
        cases rest <;> exact ⟨_, _, rfl⟩
      rw [closedSpans, hclosed, List.getLast?_cons_cons, ← hclosed] at hu
      exact ih h.tail u hu

theorem isCut_of_mem_closedSpans (h : ArePatterns data ps) :
    ∀ u ∈ closedSpans data ps, IsCut data u := by
  induction ps with
  | nil => simp [closedSpans]
  | cons i rest ih =>
    cases rest with
    | nil =>
      intro u hu
      obtain rfl := List.mem_singleton.1 hu
      exact .last h.head
    | cons j rest =>
      intro u hu
      rw [closedSpans] at hu
      rcases List.mem_cons.1 hu with rfl | hu
      · exact .next h.head h.tail.head (h.le_codeOffset (List.mem_cons_self ..))
      · exact ih h.tail u hu

/-- All units are kept but for one of one byte behind a short start code, at the end. -/
theorem closedSpans_eq_append (h : ArePatterns data ps) :
    ∃ dropped, closedSpans data ps = spans data ps ++ dropped ∧
      (dropped = [] ∨ ∃ u x, dropped = [u] ∧ u.payload data = [x] ∧ [0, 0, 1, x] <:+ data) := by
  induction ps with
  | nil => exact ⟨[], rfl, .inl rfl⟩
  | cons i rest ih =>
    cases rest with
    | nil =>
      rw [closedSpans, spans]
      split
      · rename_i hshort
        obtain ⟨x, hcode, hx⟩ := drop_of_short h.head hshort
        refine ⟨_, rfl, .inr ⟨_, x, rfl, ?_, hcode ▸ List.drop_suffix ..⟩⟩
        rw [payload_endAt, payloadOffset_atPattern, hx,
          List.take_of_length_le (Nat.le_of_eq (by rw [← hx, List.length_drop]))]
      · exact ⟨[], rfl, .inl rfl⟩
    | cons j rest =>
      obtain ⟨dropped, hrest, hdropped⟩ := ih h.tail
      exact ⟨dropped, by rw [closedSpans, spans, hrest, List.cons_append], hdropped⟩

/-- Before the rule for a short last unit, the units tile the stream to its end. -/
theorem flatMap_bytes_closedSpans {rest : List Nat} (h : ArePatterns data (i :: rest)) :
    (closedSpans data (i :: rest)).flatMap (bytes data) = data.drop (codeOffset data i) := by
  induction rest generalizing i with
  | nil => rw [closedSpans, List.flatMap_singleton, bytes_of_last h.head]
  | cons j rest ih =>
    rw [closedSpans, List.flatMap_cons, ih h.tail, bytes_append_of_next h (List.mem_cons_self ..)]

/-- **No pattern stands inside of a unit.**  Where its bytes do, the stream ends behind them. -/
theorem end_of_pattern_inside (h : u ∈ closedSpans data (patterns .complete data i))
    (hp : (data.drop p).take 3 = [0, 0, 1]) (hstart : u.payloadOffset ≤ p)
    (hstop : p + 3 ≤ u.stop) : p + 3 = data.length := by
  obtain ⟨h0, h1, h2⟩ := take_three_drop_iff.1 hp
  have hlen : p + 2 < data.length := (List.getElem?_eq_some_iff.1 h2).1
  by_contra hne
  have hpattern : hasPattern 1 (data.drop p) = true :=
    hasPattern_drop_iff.2 ⟨h0, h1, h2, by omega⟩
  generalize hps : patterns .complete data i = ps at h
  induction ps generalizing i with
  | nil => simp [closedSpans] at h
  | cons j rest ih =>
    obtain ⟨-, -, hrest⟩ := patterns_eq_cons hps
    have harr := hps ▸ arePatterns data i
    cases rest with
    | nil =>
      rw [closedSpans, List.mem_singleton] at h
      subst h
      have hmem : p ∈ patterns .complete data (j + 3) := mem_patterns_iff.2 ⟨hstart, hpattern⟩
      rw [← hrest] at hmem
      simp at hmem
    | cons k rest =>
      rw [closedSpans] at h
      rcases List.mem_cons.1 h with rfl | h
      · rw [stop_of_next harr (List.mem_cons_self ..)] at hstop
        have hhead : (patterns .complete data (j + 3)).head? = some k := by rw [← hrest]; rfl
        have hle := @codeOffset_le data k
        have hnone := (head?_patterns_eq_some_iff.1 hhead).2.2 p hstart (by omega)
        rw [Extent.payloadNeeded_complete, hpattern] at hnone
        simp at hnone
      · exact ih hrest.symm h

/-- A short last unit is dropped, and the units before it stay as they are. -/
theorem nalSpans_eq_wholeSpans (data : List UInt8) :
    nalSpans data =
      if ∃ u ∈ (wholeSpans data).getLast?, u.totalLength < minUnitSize then
        (wholeSpans data).dropLast
      else wholeSpans data := by
  have hlast := getLast?_closedSpans (arePatterns_patternPositions data)
  rw [← wholeSpans_eq] at hlast
  rw [nalSpans, StartCodeIndexer.finish]
  rw [wholeSpans] at hlast ⊢
  generalize (StartCodeIndexer.empty.push data).units = units at hlast ⊢
  rcases units with _ | ⟨last, earlier⟩
  · simp
  · have hstop := (hlast (last.endAt data.length) (by simp)).2
    have hlength : (last.endAt data.length).totalLength = data.length - last.startCodeOffset := by
      rw [totalLength, hstop]
      rfl
    simp only [List.reverse_cons, List.getLast?_concat, List.dropLast_concat, Option.mem_def,
      Option.some.injEq, exists_eq_left', hlength]

end NalSpan

/-- **The units of a stream are exactly those of its patterns.**  Before the rule for a short last
unit there is one for each position of a pattern, in order, behind a long start code if a zero
stands before the pattern and a short one otherwise.  Each ends where the start code of the next
begins, the last with the stream, none of them before its payload begins.  The last one is dropped
if it is short, and the one before it still ends at the start code that was dropped.  So a pattern
stands in a payload at most as the last three bytes of the stream. -/
theorem nalSpans_exact (data : List UInt8) :
    (wholeSpans data).map NalSpan.payloadOffset = (patternPositions data).map (· + 3) ∧
      (wholeSpans data).map NalSpan.startCode =
        (patternPositions data).map
          (fun i => if 0 < i ∧ data[i - 1]? = some 0 then .long else .short) ∧
      (∀ u ∈ wholeSpans data, u.startCodeOffset + u.startCode.size = u.payloadOffset) ∧
      ((wholeSpans data).IsChain fun u v =>
        u.payloadOffset ≤ v.startCodeOffset ∧ u.stop = v.startCodeOffset) ∧
      (∀ u ∈ (wholeSpans data).getLast?,
        u.payloadOffset ≤ data.length ∧ u.stop = data.length) ∧
      nalSpans data =
        (if ∃ u ∈ (wholeSpans data).getLast?, u.totalLength < 5 then (wholeSpans data).dropLast
        else wholeSpans data) ∧
      ∀ u ∈ nalSpans data, ∀ j, ((u.payload data).drop j).take 3 = [0, 0, 1] →
        u.payloadOffset + j + 3 = data.length := by
  have hall := wholeSpans_eq data
  have harr := arePatterns_patternPositions data
  have hspans : nalSpans data = _ := nalSpans_eq_wholeSpans data
  refine ⟨?_, ?_, ?_, ?_, ?_, hspans, ?_⟩
  · rw [hall]
    exact map_closedSpans payloadOffset_endAt data _
  · rw [hall, map_closedSpans fun _ _ => rfl]
    exact List.map_congr_left fun i _ => codeAt_eq data i
  · intro u hu
    rw [hall] at hu
    exact codeSize_of_mem_closedSpans hu
  · rw [hall]
    exact isChain_closedSpans harr
  · rw [hall]
    exact getLast?_closedSpans harr
  · intro u hu j hj
    have hmem : u ∈ closedSpans data (patterns .complete data 0) := by
      rw [← patternPositions_eq, ← wholeSpans_eq]
      rw [hspans] at hu
      split at hu
      · exact List.dropLast_subset _ hu
      · exact hu
    have hlength := congrArg List.length hj
    simp only [NalSpan.payload, List.length_take, List.length_drop, List.length_cons,
      List.length_nil] at hlength
    refine end_of_pattern_inside hmem ?_ (Nat.le_add_right ..) (by rw [stop]; omega)
    rw [← hj, NalSpan.payload, List.drop_take, List.drop_drop, List.take_take,
      Nat.min_eq_left (by omega)]

/-- A pattern that ends the stream stands in the payload of the last unit. -/
theorem nalSpans_exact_trailing :
    let data : List UInt8 := [0, 0, 1, 9, 240, 0, 0, 1]
    ∃ u ∈ nalSpans data, ((u.payload data).drop 2).take 3 = [0, 0, 1] ∧
      u.payloadOffset + 2 + 3 = data.length := by
  intro data
  have hunits : nalSpans data = [⟨0, .short, 3, 5, [9, 240, 0]⟩] := rfl
  have hmem : (⟨0, .short, 3, 5, [9, 240, 0]⟩ : NalSpan) ∈ nalSpans data := by
    rw [hunits]
    exact List.mem_singleton_self _
  obtain ⟨-, -, -, -, -, -, hinside⟩ := nalSpans_exact data
  exact ⟨_, hmem, rfl, hinside _ hmem 2 rfl⟩

end AnnexB
