/-
# Searches in a row find what the indexer finds

A search for a start code goes on from the end of the one found before.  Each ends further on than it
began (`bounds_of_find?`), so that searches in a row come to an end; `searched` lists what they find.

| the data | found |
| --- | --- |
| are complete | the start code of every unit that an indexer holds after one push |
| may still grow | all of these but one at the end, with a single byte behind it |

The searches look one byte back, and the indexer carries that byte along.  Both come down to the list
of patterns (`searched_eq_map_patterns`, `StartCodeIndexer.units_push_empty`).
-/

import AnnexB.Proofs.Spans

namespace AnnexB

namespace StartCodeMatch

variable {extent : Extent} {data : List UInt8} {start i : Nat} {m : StartCodeMatch}

theorem payloadOffset_atPattern : (atPattern data i).payloadOffset = i + 3 := codeOffset_add_size

/-- A start code that is found ends further on than the search began, and inside of the data. -/
theorem bounds_of_find? (h : find? extent data start = some m) :
    start < m.payloadOffset ∧ m.payloadOffset ≤ data.length := by
  obtain ⟨i, hi, rfl⟩ := find?_eq_some_iff.1 h
  obtain ⟨hle, hp, -⟩ := head?_patterns_eq_some_iff.1 hi
  have hlen := (hasPattern_drop_iff.1 hp).2.2.2
  rw [payloadOffset_atPattern]
  omega

/-- The start codes that searches in a row find, each search from the end of the last one found. -/
def searched (extent : Extent) (data : List UInt8) (start : Nat) : List StartCodeMatch :=
  match _h : find? extent data start with
  | none => []
  | some m => m :: searched extent data m.payloadOffset
termination_by data.length - start
decreasing_by
  have := bounds_of_find? _h
  omega

/-- **Searches in a row find every pattern.** -/
theorem searched_eq_map_patterns (extent : Extent) (data : List UInt8) (start : Nat) :
    searched extent data start = (patterns extent data start).map (atPattern data) := by
  fun_induction searched extent data start with
  | case1 start h =>
    rw [find?_eq_head?, Option.map_eq_none_iff, List.head?_eq_none_iff] at h
    rw [h, List.map_nil]
  | case2 start m h ih =>
    obtain ⟨i, hi, rfl⟩ := find?_eq_some_iff.1 h
    obtain ⟨rest, hrest⟩ := List.head?_eq_some_iff.1 hi
    rw [ih, payloadOffset_atPattern, hrest, List.map_cons, ← (patterns_eq_cons hrest).2.2]

/-- The patterns of data that may grow are those of complete data with two bytes behind them. -/
theorem patterns_growing (data : List UInt8) (start : Nat) :
    patterns .growing data start =
      (patterns .complete data start).filter fun i => i + 4 < data.length := by
  rw [patterns, patterns, List.filter_filter]
  refine List.filter_congr fun i _ => ?_
  rw [Bool.eq_iff_iff, Bool.and_eq_true, decide_eq_true_iff, hasPattern_drop_iff,
    hasPattern_drop_iff]
  simp only [Extent.payloadNeeded_growing, Extent.payloadNeeded_complete]
  constructor
  · rintro ⟨h0, h1, h2, hlen⟩
    exact ⟨by omega, h0, h1, h2, by omega⟩
  · rintro ⟨hlen, h0, h1, h2, -⟩
    exact ⟨h0, h1, h2, by omega⟩

/-- The only pattern without two bytes behind it is one with a single byte behind it, the last. -/
theorem patterns_growing_cases (data : List UInt8) (start : Nat) :
    (patterns .growing data start = patterns .complete data start ∧
        ∀ i ∈ patterns .complete data start, i + 4 < data.length) ∨
      ∃ i, patterns .complete data start = patterns .growing data start ++ [i] ∧
        i + 4 = data.length := by
  have hlength : ∀ i ∈ patterns .complete data start, i + 4 ≤ data.length := fun i hi =>
    (hasPattern_drop_iff.1 (hasPattern_of_mem hi)).2.2.2
  have hsorted : (patterns .complete data start).Pairwise (· < ·) := pairwise_patterns
  rw [patterns_growing]
  rcases List.eq_nil_or_concat' (patterns .complete data start) with hnil | ⟨earlier, i, hlast⟩
  · simp [hnil]
  · rw [hlast] at hlength hsorted ⊢
    have hearlier : ∀ j ∈ earlier, j + 4 < data.length := by
      intro j hj
      have hlt := (List.pairwise_append.1 hsorted).2.2 j hj i (List.mem_singleton_self i)
      have := hlength i (by simp)
      omega
    have hkept : earlier.filter (fun j => decide (j + 4 < data.length)) = earlier :=
      List.filter_eq_self.2 fun j hj => decide_eq_true (hearlier j hj)
    rw [List.filter_append, hkept]
    rcases Nat.lt_or_eq_of_le (hlength i (by simp)) with hlt | heq
    · left
      constructor
      · rw [List.filter_eq_self.2 (by simpa using hlt)]
      · intro j hj
        rcases List.mem_append.1 hj with hj | hj
        · exact hearlier j hj
        · rwa [List.mem_singleton.1 hj]
    · right
      refine ⟨i, ?_, heq⟩
      rw [List.filter_eq_nil_iff.2 (by simp [heq]), List.append_nil]

end StartCodeMatch

namespace NalSpan

open StartCodeMatch

/-- The units of some patterns have their start codes. -/
theorem map_startCode_openSpans (data : List UInt8) (ps : List Nat) :
    (openSpans data ps).map (fun u => (u.startCodeOffset, u.startCode)) =
      ps.map fun i => (codeOffset data i, codeAt data i) := by
  induction ps with
  | nil => rfl
  | cons i rest ih =>
    cases rest with
    | nil => rfl
    | cons j rest =>
      rw [openSpans, List.map_cons, ih]
      rfl

end NalSpan

namespace StartCodeMatch

open NalSpan

/-- **Searches in a row and the indexer find the same start codes.**  Each search ends further on than
it began, and inside of the data.  In complete data, what searches in a row find are the start codes of
the units that an indexer holds after one push, in order, with their lengths; each lies further on than
the one before, and not before the payload of that one.  In data that may grow, the searches find the
same, or all but the last one; the latter just if a single byte stands behind that. -/
theorem searched_eq_indexed (data : List UInt8) :
    let found : List StartCodeMatch := searched .complete data 0
    let early : List StartCodeMatch := searched .growing data 0
    let units := (StartCodeIndexer.empty.push data).units.reverse
    (∀ extent start, ∀ m ∈ find? extent data start,
        start < m.payloadOffset ∧ m.payloadOffset ≤ data.length) ∧
      found.map (fun m => (m.offset, m.startCode.size)) =
        units.map (fun u => (u.startCodeOffset, u.startCode.size)) ∧
      (found.Pairwise fun m m' => m.offset < m'.offset ∧ m.payloadOffset ≤ m'.offset) ∧
      ((early = found ∧ ∀ m ∈ found, m.payloadOffset + 1 < data.length) ∨
        ∃ m, found = early ++ [m] ∧ m.payloadOffset + 1 = data.length) := by
  intro found early units
  have hfound : found = (patterns .complete data 0).map (atPattern data) :=
    searched_eq_map_patterns ..
  have hearly : early = (patterns .growing data 0).map (atPattern data) :=
    searched_eq_map_patterns ..
  refine ⟨fun extent start m h => bounds_of_find? h, ?_, ?_, ?_⟩
  · have hunits : units = openSpans data (patterns .complete data 0) := by
      rw [show units = _ from congrArg List.reverse StartCodeIndexer.units_push_empty,
        List.reverse_reverse]
    have hcodes := congrArg (List.map (Prod.map id StartCode.size))
      (map_startCode_openSpans data (patterns .complete data 0))
    simp only [List.map_map] at hcodes
    rw [hfound, hunits, List.map_map]
    exact hcodes.symm
  · rw [hfound, List.pairwise_map]
    refine pairwise_patterns.imp_of_mem fun {i j} hi hj hlt => ?_
    have hle := le_codeOffset (hasPattern_of_mem hi) (hasPattern_of_mem hj) hlt
    have hi' : codeOffset data i ≤ i := codeOffset_le
    rw [offset_atPattern, offset_atPattern, payloadOffset_atPattern]
    omega
  · rw [hfound, hearly]
    rcases patterns_growing_cases data 0 with ⟨hsame, hbehind⟩ | ⟨i, hlast, hend⟩
    · left
      rw [hsame]
      refine ⟨rfl, fun m hm => ?_⟩
      obtain ⟨i, hi, rfl⟩ := List.mem_map.1 hm
      rw [payloadOffset_atPattern]
      exact hbehind i hi
    · right
      refine ⟨atPattern data i, ?_, ?_⟩
      · rw [hlast, List.map_append]
        rfl
      · rw [payloadOffset_atPattern]
        exact hend

end StartCodeMatch

end AnnexB
