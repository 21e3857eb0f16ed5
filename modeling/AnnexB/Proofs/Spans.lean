/-
# The NAL units of a stream, by its patterns

The indexer opens a unit at every pattern, ends it at the start code of the next one, and the last
one at the end of the stream.  Here that is said of the list of patterns, without the indexer:
`openSpans` are the units before the last one is ended, `spans` the units of the whole stream.

`nalSpans_eq_spans` says that those are the units the indexer gives.  What a single unit can be is
said by `IsCut`.  `liesIn_of_mem_spans` and `pairwise_spans` say where the units lie: each behind
its start code and inside of the stream, each behind the one before.  Together with their start
codes they tile the stream (`flatMap_bytes_spans`).
-/

import AnnexB.Nal.Indexer
import AnnexB.Proofs.StartCode

namespace AnnexB

open StartCodeMatch

namespace NalSpan

/-- The unit that the pattern at position `i` opens. -/
def atPattern (data : List UInt8) (i : Nat) : NalSpan :=
  .ofPattern (followsZero data i) i (data.drop (i + 3))

variable {data : List UInt8} {i : Nat}

@[simp] theorem startCodeOffset_atPattern :
    (atPattern data i).startCodeOffset = codeOffset data i := rfl

@[simp] theorem payloadOffset_atPattern : (atPattern data i).payloadOffset = i + 3 := rfl

@[simp] theorem headerBytes_atPattern :
    (atPattern data i).headerBytes = (data.drop (i + 3)).take headerSize := rfl

@[simp] theorem payloadOffset_endAt (u : NalSpan) (n : Nat) :
    (u.endAt n).payloadOffset = u.payloadOffset := rfl

@[simp] theorem headerBytes_endAt (u : NalSpan) (n : Nat) :
    (u.endAt n).headerBytes = u.headerBytes := rfl

theorem stop_endAt {u : NalSpan} {n : Nat} (h : u.payloadOffset ≤ n) : (u.endAt n).stop = n := by
  simp only [stop, endAt]
  omega

/-- The units that the patterns at some positions open, each but the last ended by the next. -/
def openSpans (data : List UInt8) : List Nat → List NalSpan
  | [] => []
  | [i] => [atPattern data i]
  | i :: j :: rest => (atPattern data i).endAt (codeOffset data j) :: openSpans data (j :: rest)

/-- The units of complete data with patterns at some positions. -/
def spans (data : List UInt8) : List Nat → List NalSpan
  | [] => []
  | [i] =>
    if data.length - codeOffset data i < minUnitSize then []
    else [(atPattern data i).endAt data.length]
  | i :: j :: rest => (atPattern data i).endAt (codeOffset data j) :: spans data (j :: rest)

end NalSpan

open NalSpan

namespace StartCodeIndexer

variable {data : List UInt8}

/-- One pass over the data from position `i` on opens a unit at each pattern. -/
theorem openUnits_eq_foldl (i : Nat) (units : List NalSpan) :
    openUnits (followsZero data i) i units (data.drop i) =
      (patterns .complete data i).foldl (fun us j => addUnit (atPattern data j) us) units := by
  induction hn : data.length - i generalizing i units with
  | zero =>
    rw [patterns_of_length_le (by omega), List.drop_eq_nil_of_le (by omega)]
    rfl
  | succ n ih =>
    have hi : i < data.length := by omega
    have hzero : followsZero data (i + 1) = (data[i] == 0) := by simp [followsZero, hi]
    rw [patterns_of_lt hi, Extent.payloadNeeded_complete, List.drop_eq_getElem_cons hi, openUnits,
      ← hzero, List.drop_drop]
    split
    · rw [List.foldl_cons, ih (i + 1) _ (by omega)]
      rfl
    · exact ih (i + 1) _ (by omega)

theorem foldl_addUnit_reverse (rest : List Nat) (i : Nat) (units : List NalSpan) :
    (rest.foldl (fun us j => addUnit (atPattern data j) us) (atPattern data i :: units)).reverse =
      units.reverse ++ openSpans data (i :: rest) := by
  induction rest generalizing i units with
  | nil => simp [openSpans]
  | cons j rest ih =>
    rw [List.foldl_cons, addUnit, ih, List.reverse_cons, openSpans]
    simp

/-- Opening units one after the other gives the open units, latest first. -/
theorem foldl_addUnit (ps : List Nat) :
    ps.foldl (fun us j => addUnit (atPattern data j) us) [] = (openSpans data ps).reverse := by
  rcases ps with _ | ⟨i, rest⟩
  · rfl
  · rw [List.foldl_cons, addUnit, ← List.reverse_inj, foldl_addUnit_reverse, List.reverse_reverse]
    rfl

/-- The units that an indexer holds after a whole stream in one chunk, before the last is ended. -/
theorem units_push_empty :
    (empty.push data).units = (openSpans data (patterns .complete data 0)).reverse :=
  (openUnits_eq_foldl 0 []).trans (foldl_addUnit _)

theorem finish_of_units {x : StartCodeIndexer} (ps : List Nat)
    (h : x.units = (openSpans data ps).reverse) : x.finish data.length = spans data ps := by
  induction ps generalizing x with
  | nil => simp [finish, h, openSpans, spans]
  | cons i rest ih =>
    cases rest with
    | nil => simp [finish, h, openSpans, spans]
    | cons j rest =>
      rw [openSpans, List.reverse_cons] at h
      have hrest := @ih { x with units := (openSpans data (j :: rest)).reverse } rfl
      rw [spans, ← hrest, finish, finish, h]
      rcases hs : (openSpans data (j :: rest)).reverse with _ | ⟨last, earlier⟩
      · cases rest <;> simp [openSpans] at hs
      · simp only [List.cons_append]
        split <;> simp

end StartCodeIndexer

/-- **The units of a stream are those of its patterns.** -/
theorem nalSpans_eq_spans (data : List UInt8) :
    nalSpans data = spans data (patterns .complete data 0) :=
  StartCodeIndexer.finish_of_units _ StartCodeIndexer.units_push_empty

/-! ### Where the units lie -/

namespace NalSpan

variable {data : List UInt8} {i : Nat} {rest : List Nat}

/-- The bytes of the unit in its stream. -/
def payload (data : List UInt8) (u : NalSpan) : List UInt8 :=
  (data.drop u.payloadOffset).take u.payloadLength

theorem payload_endAt (u : NalSpan) (n : Nat) :
    (u.endAt n).payload data = (data.drop u.payloadOffset).take (n - u.payloadOffset) := rfl

/-- The unit with its start code in front, in its stream. -/
def bytes (data : List UInt8) (u : NalSpan) : List UInt8 := u.startCode.bytes ++ u.payload data

/-- Positions in rising order, with a pattern at each. -/
def ArePatterns (data : List UInt8) (ps : List Nat) : Prop :=
  (∀ i ∈ ps, hasPattern 1 (data.drop i) = true) ∧ ps.Pairwise (· < ·)

theorem arePatterns (data : List UInt8) (start : Nat) :
    ArePatterns data (patterns .complete data start) :=
  ⟨fun _ => hasPattern_of_mem, pairwise_patterns⟩

theorem ArePatterns.head (h : ArePatterns data (i :: rest)) : hasPattern 1 (data.drop i) = true :=
  h.1 i (List.mem_cons_self ..)

theorem ArePatterns.tail (h : ArePatterns data (i :: rest)) : ArePatterns data rest :=
  ⟨fun j hj => h.1 j (List.mem_cons_of_mem _ hj), (List.pairwise_cons.1 h.2).2⟩

/-- The next start code begins behind the pattern. -/
theorem ArePatterns.le_codeOffset {j : Nat} (h : ArePatterns data (i :: rest)) (hj : j ∈ rest) :
    i + 3 ≤ codeOffset data j :=
  StartCodeMatch.le_codeOffset h.head (h.tail.1 j hj) ((List.pairwise_cons.1 h.2).1 j hj)

/-- A unit that ends at a start code behind it. -/
theorem stop_of_next {j : Nat} (h : ArePatterns data (i :: rest)) (hj : j ∈ rest) :
    ((atPattern data i).endAt (codeOffset data j)).stop = codeOffset data j :=
  stop_endAt (h.le_codeOffset hj)

/-- A unit that ends with the stream. -/
theorem stop_of_last (h : hasPattern 1 (data.drop i) = true) :
    ((atPattern data i).endAt data.length).stop = data.length := by
  have hlen := (hasPattern_drop_iff.1 h).2.2.2
  exact stop_endAt (by rw [payloadOffset_atPattern]; omega)

/-- A unit that a pattern opens and a pattern behind it ends, or the end of the stream. -/
inductive IsCut (data : List UInt8) : NalSpan → Prop
  | next {i j : Nat} (hi : hasPattern 1 (data.drop i) = true)
      (hj : hasPattern 1 (data.drop j) = true) (hle : i + 3 ≤ codeOffset data j) :
      IsCut data ((atPattern data i).endAt (codeOffset data j))
  | last {i : Nat} (hi : hasPattern 1 (data.drop i) = true) :
      IsCut data ((atPattern data i).endAt data.length)

theorem isCut_of_mem_spans {ps : List Nat} (h : ArePatterns data ps) :
    ∀ u ∈ spans data ps, IsCut data u := by
  induction ps with
  | nil => simp [spans]
  | cons i rest ih =>
    cases rest with
    | nil =>
      intro u hu
      rw [spans] at hu
      split at hu
      · simp at hu
      · rw [List.mem_singleton] at hu
        subst hu
        exact .last h.head
    | cons j rest =>
      intro u hu
      rw [spans] at hu
      rcases List.mem_cons.1 hu with rfl | hu
      · exact .next h.head h.tail.head (h.le_codeOffset (List.mem_cons_self ..))
      · exact ih h.tail u hu

/-- A unit stands behind its start code, and ends inside of the stream. -/
def LiesIn (data : List UInt8) (u : NalSpan) : Prop :=
  u.startCodeOffset + u.startCode.size = u.payloadOffset ∧ u.stop ≤ data.length

theorem LiesIn.of_isCut {u : NalSpan} (h : IsCut data u) : LiesIn data u := by
  cases h with
  | @next i j hi hj hle =>
    have hoff := @codeOffset_le data j
    have hlen := (hasPattern_drop_iff.1 hj).2.2.2
    refine ⟨codeOffset_add_size, ?_⟩
    rw [stop_endAt hle]
    omega
  | last hi => exact ⟨codeOffset_add_size, Nat.le_of_eq (stop_of_last hi)⟩

theorem liesIn_of_mem_spans {ps : List Nat} (h : ArePatterns data ps) :
    ∀ u ∈ spans data ps, LiesIn data u :=
  fun u hu => .of_isCut (isCut_of_mem_spans h u hu)

theorem codeOffset_le_of_mem_spans (h : ArePatterns data (i :: rest)) :
    ∀ u ∈ spans data (i :: rest), codeOffset data i ≤ u.startCodeOffset := by
  induction rest generalizing i with
  | nil =>
    intro u hu
    rw [spans] at hu
    split at hu
    · simp at hu
    · rw [List.mem_singleton] at hu
      subst hu
      exact Nat.le_refl _
  | cons j rest ih =>
    intro u hu
    rw [spans] at hu
    rcases List.mem_cons.1 hu with rfl | hu
    · exact Nat.le_refl _
    · have hnext := h.le_codeOffset (List.mem_cons_self ..)
      have hle := @codeOffset_le data i
      have := ih h.tail u hu
      omega

/-- Each unit ends before the start code of every later one. -/
theorem pairwise_spans {ps : List Nat} (h : ArePatterns data ps) :
    (spans data ps).Pairwise fun u v => u.stop ≤ v.startCodeOffset := by
  induction ps with
  | nil => exact .nil
  | cons i rest ih =>
    cases rest with
    | nil =>
      rw [spans]
      split
      · exact .nil
      · exact List.pairwise_singleton ..
    | cons j rest =>
      rw [spans]
      refine List.pairwise_cons.2 ⟨fun v hv => ?_, ih h.tail⟩
      rw [stop_of_next h (List.mem_cons_self ..)]
      exact codeOffset_le_of_mem_spans h.tail v hv

/-- The first unit has the header of the first pattern, if it is not dropped. -/
theorem spans_cons (data : List UInt8) (i : Nat) (rest : List Nat) :
    spans data (i :: rest) = [] ∨
      ∃ n later, spans data (i :: rest) = (atPattern data i).endAt n :: later := by
  rcases rest with _ | ⟨j, rest⟩ <;> rw [spans]
  · split
    · exact .inl rfl
    · exact .inr ⟨_, _, rfl⟩
  · exact .inr ⟨_, _, rfl⟩

/-- A unit that ends with the stream is all of it from its start code on. -/
theorem bytes_of_last (h : hasPattern 1 (data.drop i) = true) :
    bytes data ((atPattern data i).endAt data.length) = data.drop (codeOffset data i) := by
  have hall : (data.drop (i + 3)).take (data.length - (i + 3)) = data.drop (i + 3) :=
    List.take_of_length_le (Nat.le_of_eq List.length_drop)
  rw [drop_codeOffset h, ← hall]
  rfl

/-- Behind a unit that ends at a start code stands that start code. -/
theorem bytes_append_of_next {j : Nat} (h : ArePatterns data (i :: rest)) (hj : j ∈ rest) :
    bytes data ((atPattern data i).endAt (codeOffset data j)) ++ data.drop (codeOffset data j) =
      data.drop (codeOffset data i) := by
  have hnext := h.le_codeOffset hj
  have hsplit := List.take_append_drop (codeOffset data j - (i + 3)) (data.drop (i + 3))
  rw [List.drop_drop, Nat.add_sub_cancel' hnext] at hsplit
  rw [drop_codeOffset h.head, ← hsplit, bytes, List.append_assoc]
  rfl

/-- A last unit that is too short to be kept is one byte behind a short start code. -/
theorem drop_of_short (h : hasPattern 1 (data.drop i) = true)
    (hshort : data.length - codeOffset data i < minUnitSize) :
    ∃ x, data.drop (codeOffset data i) = [0, 0, 1, x] ∧ data.drop (i + 3) = [x] := by
  have hlen := (hasPattern_drop_iff.1 h).2.2.2
  rw [minUnitSize] at hshort
  rcases @codeOffset_cases data i with ⟨-, hc, ho⟩ | ⟨-, hc, ho⟩
  · have hone : (data.drop (i + 3)).length = 1 := by rw [List.length_drop]; omega
    obtain ⟨x, hx⟩ := List.length_eq_one_iff.1 hone
    exact ⟨x, by rw [drop_codeOffset h, hc, hx]; rfl, hx⟩
  · omega

/-- **The units tile the stream** from the start code of the first one on, up to a last unit that is
dropped: one byte behind a short start code. -/
theorem flatMap_bytes_spans (h : ArePatterns data (i :: rest)) :
    ∃ tail, data.drop (codeOffset data i) = (spans data (i :: rest)).flatMap (bytes data) ++ tail ∧
      (tail = [] ∨ ∃ x, tail = [0, 0, 1, x]) := by
  induction rest generalizing i with
  | nil =>
    rw [spans]
    split
    · rename_i hshort
      obtain ⟨x, hx, -⟩ := drop_of_short h.head hshort
      exact ⟨_, rfl, .inr ⟨x, hx⟩⟩
    · refine ⟨[], ?_, .inl rfl⟩
      rw [List.append_nil, List.flatMap_singleton, bytes_of_last h.head]
  | cons j rest ih =>
    obtain ⟨tail, hrest, htail⟩ := ih h.tail
    refine ⟨tail, ?_, htail⟩
    rw [← bytes_append_of_next h (List.mem_cons_self ..), hrest, spans, List.flatMap_cons,
      List.append_assoc]

end NalSpan

end AnnexB
