/-
# Where the patterns of a stream stand

A pattern `00 00 01` stands at position `i` of some data when the three bytes are there and enough
bytes follow them.  `hasPattern_drop_iff` says so byte by byte, and all that is said here of
searches comes down to it.

`patterns extent data start` lists the positions, from `start` on, at which patterns stand.  A
search finds the first of them (`find?_eq_head?`).  What it finds while more data may follow, it
finds in any longer data too (`find?_append`), so that its answers are final.

Two patterns do not overlap, nor does the zero in front of a long start code belong to the pattern
before it (`le_codeOffset`).
-/

import AnnexB.StartCode
import Mathlib.Data.List.Basic
import Mathlib.Tactic.Common

namespace AnnexB

namespace StartCode

@[simp] theorem length_bytes (c : StartCode) : c.bytes.length = c.size := by
  cases c <;> rfl

theorem size_bounds (c : StartCode) : 3 ≤ c.size ∧ c.size ≤ 4 := by
  cases c <;> decide

end StartCode

@[simp] theorem Extent.payloadNeeded_complete : Extent.complete.payloadNeeded = 1 := rfl

@[simp] theorem Extent.payloadNeeded_growing : Extent.growing.payloadNeeded = 2 := rfl

namespace StartCodeMatch

variable {extent : Extent} {data : List UInt8} {needed start i j : Nat}

theorem hasPattern_drop_iff :
    hasPattern needed (data.drop i) = true ↔
      data[i]? = some 0 ∧ data[i + 1]? = some 0 ∧ data[i + 2]? = some 1 ∧
        i + 3 + needed ≤ data.length := by
  have hlen : (data.drop i).length = data.length - i := List.length_drop
  have hget : ∀ k, data[i + k]? = (data.drop i)[k]? := fun k => by rw [List.getElem?_drop]
  rw [hget 1, hget 2, ← Nat.add_zero i, hget 0, Nat.add_zero]
  rcases h : data.drop i with _ | ⟨a, _ | ⟨b, _ | ⟨c, rest⟩⟩⟩ <;> rw [h] at hlen
  · simp [hasPattern]
  · simp [hasPattern]
  · simp [hasPattern]
  · simp only [List.length_cons] at hlen
    simp only [hasPattern, Bool.and_eq_true, beq_iff_eq, List.length_take, List.getElem?_cons_zero,
      List.getElem?_cons_succ, Option.some.injEq, and_assoc]
    refine and_congr_right fun _ => and_congr_right fun _ => and_congr_right fun _ => ?_
    omega

/-- A pattern ends in a one, so that no other begins at its second or third byte. -/
theorem add_three_le_of_lt {n m : Nat} (hi : hasPattern n (data.drop i) = true)
    (hj : hasPattern m (data.drop j) = true) (h : i < j) : i + 3 ≤ j := by
  obtain ⟨-, -, hone, -⟩ := hasPattern_drop_iff.1 hi
  obtain ⟨hzero, hzero', -, -⟩ := hasPattern_drop_iff.1 hj
  by_contra hlt
  obtain rfl | rfl : j = i + 1 ∨ j = i + 2 := by omega
  · rw [hone] at hzero'; simp at hzero'
  · rw [hone] at hzero; simp at hzero

theorem followsZero_eq_true_iff :
    followsZero data i = true ↔ i ≠ 0 ∧ data[i - 1]? = some 0 := by
  simp [followsZero]

theorem followsZero_drop {n : Nat} (h : i ≠ 0) :
    followsZero (data.drop n) i = followsZero data (n + i) := by
  rw [Bool.eq_iff_iff, followsZero_eq_true_iff, followsZero_eq_true_iff, List.getElem?_drop,
    show n + (i - 1) = n + i - 1 by omega]
  simp [h]

theorem followsZero_append {rest : List UInt8} (h : i ≤ data.length) :
    followsZero (data ++ rest) i = followsZero data i := by
  rw [Bool.eq_iff_iff, followsZero_eq_true_iff, followsZero_eq_true_iff]
  refine and_congr_right fun hi => ?_
  rw [List.getElem?_append_left (by omega)]

/-! ### The list of patterns -/

/-- The positions, from `start` on, at which patterns stand in the data. -/
def patterns (extent : Extent) (data : List UInt8) (start : Nat) : List Nat :=
  (List.range' start (data.length - start)).filter fun i =>
    hasPattern extent.payloadNeeded (data.drop i)

theorem patterns_of_length_le (h : data.length ≤ start) : patterns extent data start = [] := by
  simp [patterns, Nat.sub_eq_zero_of_le h]

theorem patterns_of_lt (h : start < data.length) :
    patterns extent data start =
      if hasPattern extent.payloadNeeded (data.drop start) then
        start :: patterns extent data (start + 1)
      else patterns extent data (start + 1) := by
  rw [patterns, show data.length - start = data.length - (start + 1) + 1 by omega,
    List.range'_succ, List.filter_cons]
  rfl

theorem hasPattern_of_mem (h : i ∈ patterns extent data start) :
    hasPattern extent.payloadNeeded (data.drop i) = true :=
  (List.mem_filter.1 h).2

theorem pairwise_patterns : (patterns extent data start).Pairwise (· < ·) :=
  List.Pairwise.filter _ List.pairwise_lt_range'

theorem head?_patterns_eq_some_iff :
    (patterns extent data start).head? = some i ↔
      start ≤ i ∧ hasPattern extent.payloadNeeded (data.drop i) = true ∧
        ∀ k, start ≤ k → k < i → hasPattern extent.payloadNeeded (data.drop k) = false := by
  rw [patterns, List.head?_filter, List.find?_range'_eq_some]
  constructor
  · rintro ⟨hi, hmem, hfirst⟩
    exact ⟨(List.mem_range'_1.1 hmem).1, hi, fun k hk hki => by simpa using hfirst k hk hki⟩
  · rintro ⟨hle, hi, hfirst⟩
    have hlen := (hasPattern_drop_iff.1 hi).2.2.2
    exact ⟨hi, List.mem_range'_1.2 ⟨hle, by omega⟩, fun k hk hki => by simp [hfirst k hk hki]⟩

/-- Behind the first pattern, the patterns are those from its end on. -/
theorem patterns_eq_cons {rest : List Nat} (h : patterns extent data start = i :: rest) :
    start ≤ i ∧ hasPattern extent.payloadNeeded (data.drop i) = true ∧
      rest = patterns extent data (i + 3) := by
  induction hn : data.length - start generalizing start with
  | zero =>
    rw [patterns_of_length_le (by omega)] at h
    simp at h
  | succ n ih =>
    rw [patterns_of_lt (by omega)] at h
    split at h
    · rename_i hp
      obtain ⟨rfl, rfl⟩ := List.cons.inj h
      refine ⟨Nat.le_refl _, hp, ?_⟩
      have hlen := (hasPattern_drop_iff.1 hp).2.2.2
      have hskip : ∀ k, start < k → k < start + 3 →
          patterns extent data k = patterns extent data (k + 1) := by
        intro k hk hk'
        rw [patterns_of_lt (by omega), if_neg]
        intro hpk
        have := add_three_le_of_lt hp hpk hk
        omega
      rw [hskip (start + 1) (by omega) (by omega), hskip (start + 2) (by omega) (by omega)]
    · obtain ⟨hle, hrest⟩ := ih h (by omega)
      exact ⟨by omega, hrest⟩

/-- The patterns behind a cut, counted from the cut. -/
theorem patterns_drop (n : Nat) :
    patterns extent (data.drop n) start = (patterns extent data (n + start)).map (· - n) := by
  have hrange : List.range' start ((data.drop n).length - start) =
      (List.range' (n + start) (data.length - (n + start))).map (· - n) := by
    rw [List.map_sub_range' (by omega), List.length_drop]
    congr 1 <;> omega
  rw [patterns, patterns, hrange, List.filter_map]
  congr 1
  refine List.filter_congr fun i hi => ?_
  have hle := (List.mem_range'_1.1 hi).1
  simp only [Function.comp_apply, List.drop_drop]
  rw [show n + (i - n) = i by omega]

/-- The match of the pattern at position `i`. -/
def atPattern (data : List UInt8) (i : Nat) : StartCodeMatch := ofPattern (followsZero data i) i

/-- **A search finds the first pattern.** -/
theorem find?_eq_head? :
    find? extent data start = (patterns extent data start).head?.map (atPattern data) := by
  induction hn : data.length - start generalizing start with
  | zero =>
    rw [patterns_of_length_le (by omega), find?, List.drop_eq_nil_of_le (by omega)]
    rfl
  | succ n ih =>
    have hstart : start < data.length := by omega
    have hzero : followsZero data (start + 1) = (data[start] == 0) := by
      simp [followsZero, hstart]
    rw [patterns_of_lt hstart, find?, List.drop_eq_getElem_cons hstart, findFrom, ← hzero]
    split
    · rfl
    · exact ih (by omega)

theorem find?_eq_some_iff {m : StartCodeMatch} :
    find? extent data start = some m ↔
      ∃ i, (patterns extent data start).head? = some i ∧ atPattern data i = m := by
  rw [find?_eq_head?, Option.map_eq_some_iff]

theorem offset_le_of_find? {m : StartCodeMatch} (h : find? extent data start = some m) :
    m.offset ≤ data.length := by
  obtain ⟨i, hi, rfl⟩ := find?_eq_some_iff.1 h
  obtain ⟨-, hp, -⟩ := head?_patterns_eq_some_iff.1 hi
  have hlen := (hasPattern_drop_iff.1 hp).2.2.2
  rw [atPattern, ofPattern]
  simp only
  omega

/-- **What is found while data may grow stays found:** the search of any longer data finds the same
start code, whether more may follow or not. -/
theorem find?_append {buffer : List UInt8} {m : StartCodeMatch}
    (h : find? .growing buffer start = some m) (extent : Extent) (rest : List UInt8) :
    find? extent (buffer ++ rest) start = some m := by
  obtain ⟨i, hi, rfl⟩ := find?_eq_some_iff.1 h
  obtain ⟨hle, hp, hfirst⟩ := head?_patterns_eq_some_iff.1 hi
  have hlen := (hasPattern_drop_iff.1 hp).2.2.2
  have hneeded : extent.payloadNeeded ≤ Extent.growing.payloadNeeded := by
    cases extent <;> decide
  have hsame : ∀ k ≤ i, (hasPattern extent.payloadNeeded ((buffer ++ rest).drop k) = true ↔
      hasPattern Extent.growing.payloadNeeded (buffer.drop k) = true) := by
    intro k hk
    rw [hasPattern_drop_iff, hasPattern_drop_iff, List.getElem?_append_left (by omega),
      List.getElem?_append_left (by omega), List.getElem?_append_left (by omega),
      List.length_append]
    refine and_congr_right fun _ => and_congr_right fun _ => and_congr_right fun _ => ?_
    omega
  refine find?_eq_some_iff.2
    ⟨i, head?_patterns_eq_some_iff.2 ⟨hle, (hsame i (Nat.le_refl i)).2 hp, ?_⟩, ?_⟩
  · intro k hk hki
    rw [← Bool.not_eq_true, hsame k (by omega), hfirst k hk hki]
    decide
  · rw [atPattern, atPattern, followsZero_append (by omega)]

/-! ### The start code of a pattern -/

/-- The start code of the pattern at position `i`. -/
def codeAt (data : List UInt8) (i : Nat) : StartCode := .ofPattern (followsZero data i)

/-- Where the start code of the pattern at position `i` begins. -/
def codeOffset (data : List UInt8) (i : Nat) : Nat := (atPattern data i).offset

theorem offset_atPattern : (atPattern data i).offset = codeOffset data i := rfl

theorem codeOffset_cases :
    followsZero data i = false ∧ codeAt data i = .short ∧ codeOffset data i = i ∨
      followsZero data i = true ∧ codeAt data i = .long ∧ codeOffset data i + 1 = i := by
  cases h : followsZero data i
  · exact .inl ⟨rfl, by simp [codeAt, h, StartCode.ofPattern],
      by simp [codeOffset, atPattern, ofPattern, h, StartCode.ofPattern, StartCode.size]⟩
  · have hi := (followsZero_eq_true_iff.1 h).1
    refine .inr ⟨rfl, by simp [codeAt, h, StartCode.ofPattern], ?_⟩
    simp only [codeOffset, atPattern, ofPattern, h, StartCode.ofPattern, StartCode.size, if_true]
    omega

theorem codeOffset_add_size : codeOffset data i + (codeAt data i).size = i + 3 := by
  rcases @codeOffset_cases data i with ⟨-, hc, ho⟩ | ⟨-, hc, ho⟩ <;>
    rw [hc, StartCode.size] <;> omega

theorem codeOffset_le : codeOffset data i ≤ i := by
  have := @codeOffset_add_size data i
  have := (codeAt data i).size_bounds
  omega

/-- A start code begins behind every pattern before it. -/
theorem le_codeOffset {n m : Nat} (hi : hasPattern n (data.drop i) = true)
    (hj : hasPattern m (data.drop j) = true) (h : i < j) : i + 3 ≤ codeOffset data j := by
  have hle := add_three_le_of_lt hi hj h
  rcases @codeOffset_cases data j with ⟨-, -, ho⟩ | ⟨hz, -, ho⟩
  · omega
  · obtain ⟨-, hzero⟩ := followsZero_eq_true_iff.1 hz
    obtain ⟨-, -, hone, -⟩ := hasPattern_drop_iff.1 hi
    have hne : j ≠ i + 3 := by
      rintro rfl
      rw [show i + 3 - 1 = i + 2 by omega, hone] at hzero
      simp at hzero
    omega

/-- At a code offset stand the bytes of the start code, and behind them the payload. -/
theorem drop_codeOffset (h : hasPattern needed (data.drop i) = true) :
    data.drop (codeOffset data i) = (codeAt data i).bytes ++ data.drop (i + 3) := by
  obtain ⟨h0, h1, h2, hlen⟩ := hasPattern_drop_iff.1 h
  have hpattern : data.drop i = [0, 0, 1] ++ data.drop (i + 3) := by
    rw [List.drop_eq_getElem_cons (show i < data.length by omega),
      List.drop_eq_getElem_cons (show i + 1 < data.length by omega),
      List.drop_eq_getElem_cons (show i + 1 + 1 < data.length by omega)]
    rw [List.getElem?_eq_getElem (by omega), Option.some.injEq] at h0 h1 h2
    rw [h0, h1, h2]
    rfl
  rcases @codeOffset_cases data i with ⟨-, hc, ho⟩ | ⟨hz, hc, ho⟩
  · rw [hc, ho, hpattern]
    rfl
  · obtain ⟨-, hzero⟩ := followsZero_eq_true_iff.1 hz
    rw [show i - 1 = codeOffset data i by omega, List.getElem?_eq_getElem (by omega),
      Option.some.injEq] at hzero
    rw [List.drop_eq_getElem_cons (show codeOffset data i < data.length by omega), hzero, ho,
      hpattern, hc]
    rfl

/-- The first search behind the start code at the front of a unit finds the next pattern of the
stream; the three bytes that it passes over hold no other. -/
theorem patterns_behind (hi : hasPattern needed (data.drop i) = true) :
    patterns extent data (codeOffset data i + 3) = patterns extent data (i + 3) := by
  rcases @codeOffset_cases data i with ⟨-, -, ho⟩ | ⟨-, -, ho⟩
  · rw [ho]
  · have hlen := (hasPattern_drop_iff.1 hi).2.2.2
    rw [show codeOffset data i + 3 = i + 2 by omega, patterns_of_lt (by omega), if_neg]
    intro hp
    have := add_three_le_of_lt hi hp (by omega)
    omega

end StartCodeMatch

namespace StartCode

open StartCodeMatch

variable {data : List UInt8} {needed i : Nat}

/-- Four bytes decide on the start code at the front of some data. -/
theorem leading?_append (h : 4 ≤ data.length) (rest : List UInt8) :
    leading? (data ++ rest) = leading? data := by
  obtain ⟨a, b, c, d, tail, rfl⟩ : ∃ a b c d tail, data = a :: b :: c :: d :: tail := by
    rcases data with _ | ⟨a, _ | ⟨b, _ | ⟨c, _ | ⟨d, tail⟩⟩⟩⟩ <;> simp at h
    exact ⟨a, b, c, d, tail, rfl⟩
  simp [leading?, bytes, List.isPrefixOf]

theorem leading?_bytes_append (c : StartCode) (rest : List UInt8) :
    leading? (c.bytes ++ rest) = some c := by
  cases c <;> rfl

/-- Data with a start code at its front begins with the bytes of that start code. -/
theorem eq_of_leading? {c : StartCode} (h : leading? data = some c) :
    data = c.bytes ++ data.drop c.size := by
  unfold leading? at h
  split at h
  · rename_i hp
    obtain rfl := Option.some.inj h
    obtain ⟨rest, rfl⟩ := List.isPrefixOf_iff_prefix.1 hp
    rfl
  · split at h
    · rename_i hp
      obtain rfl := Option.some.inj h
      obtain ⟨rest, rfl⟩ := List.isPrefixOf_iff_prefix.1 hp
      rfl
    · simp at h

/-- The start code at the front of data that is long enough is that of its first pattern. -/
theorem patterns_of_leading? {c : StartCode} (h : leading? data = some c)
    (hlen : minUnitSize ≤ data.length) :
    ∃ i, (patterns .complete data 0).head? = some i ∧ codeOffset data i = 0 ∧
      codeAt data i = c := by
  have hdata := eq_of_leading? h
  generalize hrest : data.drop c.size = rest at hdata
  subst hdata
  rw [List.length_append, length_bytes, minUnitSize] at hlen
  cases c
  · refine ⟨0, head?_patterns_eq_some_iff.2 ⟨Nat.le_refl 0, ?_, fun k _ hk => by omega⟩, rfl, rfl⟩
    refine hasPattern_drop_iff.2 ⟨rfl, rfl, rfl, ?_⟩
    simp only [size, bytes, Extent.payloadNeeded, List.length_append] at hlen ⊢
    simp only [List.length_cons, List.length_nil]
    omega
  · refine ⟨1, head?_patterns_eq_some_iff.2 ⟨Nat.zero_le 1, ?_, fun k _ hk => ?_⟩, rfl, rfl⟩
    · refine hasPattern_drop_iff.2 ⟨rfl, rfl, rfl, ?_⟩
      simp only [size, bytes, Extent.payloadNeeded, List.length_append] at hlen ⊢
      simp only [List.length_cons, List.length_nil]
      omega
    · obtain rfl : k = 0 := by omega
      rfl

end StartCode
end AnnexB
