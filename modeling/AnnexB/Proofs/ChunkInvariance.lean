/-
# The indexer does not see how a stream is cut

After any chunks an indexer is in the state in which one chunk of all their bytes leaves it
(`foldl_push_empty`).  That state can be read off the bytes seen: the last three of them, whether
a zero stands before those, and the units that the patterns open, each with the header bytes that
have arrived (`push_empty`).

One more chunk keeps it so (`push_push`).  The positions checked before are the patterns of the
longer data too, the window of the next push begins where they end, and it holds the header bytes
that the units found so far still lack.  Completing headers may stop at the first complete one,
because the units before that one have theirs (`fillHeaders_eq_map`).
-/

import AnnexB.Proofs.Spans

namespace AnnexB

open StartCodeMatch NalSpan

variable {a b : List UInt8} {i : Nat}

namespace StartCodeMatch

theorem patterns_split {extent : Extent} {n : Nat} (h : n ≤ a.length) :
    patterns extent a 0 =
      (List.range' 0 n).filter (fun i => hasPattern extent.payloadNeeded (a.drop i)) ++
        patterns extent a n := by
  have hrange := @List.range'_append_1 0 n (a.length - n)
  rw [Nat.zero_add, show n + (a.length - n) = a.length by omega] at hrange
  rw [patterns, Nat.sub_zero, ← hrange, List.filter_append]
  rfl

/-- No pattern of complete data stands at its last three positions. -/
theorem patterns_tail : patterns .complete a (a.length - 3) = [] := by
  refine List.filter_eq_nil_iff.2 fun k hk hp => ?_
  have hle := (List.mem_range'_1.1 hk).1
  have hlen := (hasPattern_drop_iff.1 hp).2.2.2
  rw [Extent.payloadNeeded_complete] at hlen
  omega

/-- The patterns of longer data: those of the data seen, and those in the window that begins three
bytes before its end. -/
theorem patterns_append :
    patterns .complete (a ++ b) 0 =
      patterns .complete a 0 ++ patterns .complete (a ++ b) (a.length - 3) := by
  rw [patterns_split (a := a) (Nat.sub_le _ 3), patterns_tail, List.append_nil,
    patterns_split (a := a ++ b) (n := a.length - 3) (by rw [List.length_append]; omega)]
  congr 1
  refine List.filter_congr fun k hk => ?_
  have hlt := (List.mem_range'_1.1 hk).2
  rw [Bool.eq_iff_iff, hasPattern_drop_iff, hasPattern_drop_iff,
    List.getElem?_append_left (by omega), List.getElem?_append_left (by omega),
    List.getElem?_append_left (by omega), List.length_append, Extent.payloadNeeded_complete]
  refine and_congr_right fun _ => and_congr_right fun _ => and_congr_right fun _ => ?_
  omega

end StartCodeMatch

namespace NalSpan

/-- A unit with a complete header has nothing to be filled in. -/
theorem fillHeader_of_complete {base : Nat} {window : List UInt8} {u : NalSpan}
    (h : u.headerBytes.length = headerSize) : u.fillHeader base window = u := by
  simp [fillHeader, h]

theorem fillHeader_endAt (base n : Nat) (window : List UInt8) (u : NalSpan) :
    (u.endAt n).fillHeader base window = (u.fillHeader base window).endAt n := by
  unfold fillHeader
  rw [payloadOffset_endAt, headerBytes_endAt]
  by_cases h : u.payloadOffset + u.headerBytes.length < base
  · rw [if_pos h, if_pos h]
  · rw [if_neg h, if_neg h]
    rfl

theorem atPattern_append (h : hasPattern 1 (a.drop i) = true) :
    atPattern (a ++ b) i =
      { atPattern a i with headerBytes := ((a ++ b).drop (i + 3)).take headerSize } := by
  have hlen := (hasPattern_drop_iff.1 h).2.2.2
  rw [atPattern, atPattern, followsZero_append (by omega)]
  rfl

/-- The window from the last three bytes seen on has the header bytes that a unit still lacks. -/
theorem fillHeader_atPattern (h : hasPattern 1 (a.drop i) = true) :
    (atPattern a i).fillHeader (a.length - 3) ((a ++ b).drop (a.length - 3)) =
      atPattern (a ++ b) i := by
  have hlen := (hasPattern_drop_iff.1 h).2.2.2
  have hdrop : (a ++ b).drop (i + 3) = a.drop (i + 3) ++ b :=
    List.drop_append_of_le_length (by omega)
  rw [atPattern_append h, hdrop, List.take_append, List.length_drop]
  by_cases hc : headerSize ≤ a.length - (i + 3)
  · rw [fillHeader_of_complete (by simp [hc]), Nat.sub_eq_zero_of_le hc, List.take_zero,
      List.append_nil]
    rfl
  · have hbytes : (atPattern a i).headerBytes = a.drop (i + 3) :=
      List.take_of_length_le (by rw [List.length_drop]; omega)
    have hnext : i + 3 + (a.drop (i + 3)).length = a.length := by rw [List.length_drop]; omega
    have hall : (a.drop (i + 3)).take headerSize = a.drop (i + 3) := hbytes
    rw [fillHeader, hbytes, payloadOffset_atPattern, hnext, if_neg (by omega), List.drop_drop,
      show a.length - 3 + (a.length - (a.length - 3)) = a.length by omega,
      List.drop_left, List.length_drop, hall]
    rfl

/-- The units seen so far, with the header bytes that the window has for them, are those that the
same patterns open in the longer data. -/
theorem map_fillHeader_openSpans {ps : List Nat} (h : ∀ i ∈ ps, hasPattern 1 (a.drop i) = true) :
    (openSpans a ps).map (fillHeader (a.length - 3) ((a ++ b).drop (a.length - 3))) =
      openSpans (a ++ b) ps := by
  induction ps with
  | nil => rfl
  | cons i rest ih =>
    have hi := h i (List.mem_cons_self ..)
    have hrest := ih fun k hk => h k (List.mem_cons_of_mem _ hk)
    cases rest with
    | nil => rw [openSpans, openSpans, List.map_singleton, fillHeader_atPattern hi]
    | cons j rest =>
      have hj := h j (List.mem_cons_of_mem _ (List.mem_cons_self ..))
      have hlen := (hasPattern_drop_iff.1 hj).2.2.2
      have hoff : codeOffset (a ++ b) j = codeOffset a j := by
        rw [codeOffset, codeOffset, StartCodeMatch.atPattern, followsZero_append (by omega)]
        rfl
      rw [openSpans, openSpans, List.map_cons, hrest, fillHeader_endAt, fillHeader_atPattern hi,
        hoff]

theorem map_headerBytes_openSpans (ps : List Nat) :
    (openSpans a ps).map headerBytes = ps.map fun i => (a.drop (i + 3)).take headerSize := by
  induction ps with
  | nil => rfl
  | cons i rest ih =>
    cases rest with
    | nil => rfl
    | cons j rest =>
      rw [openSpans, List.map_cons, ih]
      rfl

/-- Where the header of a unit is complete, so are those of the units before it. -/
theorem pairwise_openSpans {ps : List Nat} (h : ps.Pairwise (· < ·)) :
    (openSpans a ps).Pairwise fun u v =>
      v.headerBytes.length = headerSize → u.headerBytes.length = headerSize := by
  rw [← List.pairwise_map (f := headerBytes)
    (R := fun x y => y.length = headerSize → x.length = headerSize), map_headerBytes_openSpans,
    List.pairwise_map]
  refine h.imp fun {i j} hij hj => ?_
  rw [List.length_take, List.length_drop] at hj ⊢
  omega

end NalSpan

namespace StartCodeIndexer

/-- Completing headers back to the first complete one completes all. -/
theorem fillHeaders_eq_map {base : Nat} {window : List UInt8} {units : List NalSpan}
    (h : units.reverse.Pairwise fun u v =>
      v.headerBytes.length = headerSize → u.headerBytes.length = headerSize) :
    fillHeaders base window units = units.map (fillHeader base window) := by
  rw [List.pairwise_reverse] at h
  induction units with
  | nil => rfl
  | cons u earlier ih =>
    obtain ⟨hu, hearlier⟩ := List.pairwise_cons.1 h
    rw [fillHeaders, List.map_cons]
    split
    · rename_i hc
      rw [fillHeader_of_complete hc]
      congr 1
      refine Eq.symm ((List.map_congr_left fun v hv => ?_).trans (List.map_id' earlier))
      exact fillHeader_of_complete (hu v hv hc)
    · rw [ih hearlier]

/-- A push, with the number of bytes that it drops from the window. -/
theorem push_eq (x : StartCodeIndexer) (chunk : List UInt8) :
    x.push chunk =
      { carry := (x.carry ++ chunk).drop ((x.carry ++ chunk).length - 3)
        carryOffset := x.carryOffset + ((x.carry ++ chunk).length - 3)
        afterZero :=
          if (x.carry ++ chunk).length - 3 = 0 then x.afterZero
          else followsZero (x.carry ++ chunk) ((x.carry ++ chunk).length - 3)
        units := openUnits x.afterZero x.carryOffset
          (fillHeaders x.carryOffset (x.carry ++ chunk) x.units) (x.carry ++ chunk) } := by
  have hdropped : ∀ n : Nat, n - min n 3 = n - 3 := fun n => by omega
  simp only [push, hdropped]

/-- The state behind one chunk, read off its bytes. -/
theorem push_empty (data : List UInt8) :
    empty.push data =
      { carry := data.drop (data.length - 3)
        carryOffset := data.length - 3
        afterZero := followsZero data (data.length - 3)
        units := (openSpans data (patterns .complete data 0)).reverse } := by
  have hwindow : empty.carry ++ data = data := rfl
  have hoffset : empty.carryOffset + (data.length - 3) = data.length - 3 := Nat.zero_add _
  rw [← units_push_empty, push_eq, hwindow, hoffset]
  simp only [StartCodeIndexer.mk.injEq, true_and, and_true]
  by_cases h : data.length - 3 = 0
  · rw [if_pos h, h]
    rfl
  · rw [if_neg h]

/-- **One chunk after another:** the state is that behind their bytes in one chunk. -/
theorem push_push (a b : List UInt8) : (empty.push a).push b = empty.push (a ++ b) := by
  have hwindow : a.drop (a.length - 3) ++ b = (a ++ b).drop (a.length - 3) :=
    (List.drop_append_of_le_length (by omega)).symm
  have hlength : ((a ++ b).drop (a.length - 3)).length - 3 + (a.length - 3) =
      (a ++ b).length - 3 := by
    rw [List.length_drop, List.length_append]
    omega
  have hzero : followsZero (a ++ b) (a.length - 3) = followsZero a (a.length - 3) :=
    followsZero_append (by omega)
  rw [push_eq, push_empty, push_empty]
  simp only [hwindow, StartCodeIndexer.mk.injEq]
  refine ⟨?_, by omega, ?_, ?_⟩
  · rw [List.drop_drop, Nat.add_comm, hlength]
  · split
    · rename_i h
      rw [← hzero, ← hlength, h, Nat.zero_add]
    · rename_i h
      rw [followsZero_drop h, Nat.add_comm, hlength]
  · have hheaders : fillHeaders (a.length - 3) ((a ++ b).drop (a.length - 3))
        (openSpans a (patterns .complete a 0)).reverse =
          (openSpans (a ++ b) (patterns .complete a 0)).reverse := by
      rw [fillHeaders_eq_map, List.map_reverse, map_fillHeader_openSpans fun i => hasPattern_of_mem]
      rw [List.reverse_reverse]
      exact pairwise_openSpans pairwise_patterns
    rw [hheaders, ← hzero, openUnits_eq_foldl, ← foldl_addUnit, ← foldl_addUnit,
      ← List.foldl_append, ← patterns_append]

/-- **The state behind any chunks** is the state behind all their bytes in one. -/
theorem foldl_push_empty (chunks : List (List UInt8)) :
    chunks.foldl push empty = empty.push chunks.flatten := by
  suffices ∀ seen, chunks.foldl push (empty.push seen) = empty.push (seen ++ chunks.flatten) from
    this []
  induction chunks with
  | nil => intro seen; simp
  | cons chunk chunks ih =>
    intro seen
    rw [List.foldl_cons, push_push, ih, List.flatten_cons, List.append_assoc]

/-- **However a stream is cut into chunks**, empty ones among them, the indexer finds the units of
the whole stream, with the same offsets, lengths and header bytes. -/
theorem finish_foldl_push (chunks : List (List UInt8)) :
    (chunks.foldl push empty).finish chunks.flatten.length = nalSpans chunks.flatten := by
  rw [foldl_push_empty, nalSpans]

/-- A long start code and the header behind it, one byte to a chunk. -/
example : ([[9], [0], [0], [], [0], [1], [0x65], [0x88]].foldl push empty).finish 7 =
    [⟨1, .long, 5, 2, [0x65, 0x88]⟩] := by
  decide

end StartCodeIndexer

end AnnexB
