/-
# Where a write lands

A write goes to where the storage stands, and not to the position that the channel tells: the bytes
left of the block lie between the two.  And behind the end of the data there is no place for it, so
that it is appended, while the position counts on from where it was.

| a write of `w` at position `p`, with `n` bytes left of the block and `m` bytes of data | |
| --- | --- |
| lands at | `p + n`, or `m` where that is less |
| leaves the position at | `p + w.length` |
| leaves to be read at `p` | the new data from `p` on |

So it lands at the position if and only if the block is used up and the position is not behind the
end.  Then it is read back there, and the data around it stays as it was (`write_lands_iff`).

A channel whose block is not used up stands in front of the place where its storage stands, and that
place is not behind the end (`inside_of_requests`), so that there are bytes of the data at the
position which a write does not reach.
-/

import AnnexB.Proofs.RelativeSeeks

namespace AnnexB

/-! ### Data with some bytes put into it -/

section

variable {data bytes : List UInt8} {place : Nat}

/-- The data with `bytes` put at a place in it, over the end if there are more. -/
def overwrite (place : Nat) (bytes data : List UInt8) : List UInt8 :=
  data.take place ++ bytes ++ data.drop (place + bytes.length)

theorem length_overwrite (hplace : place ≤ data.length) :
    (overwrite place bytes data).length = max data.length (place + bytes.length) := by
  rw [overwrite, List.length_append, List.length_append, List.length_take, List.length_drop]
  omega

/-- The bytes that are put in stand at the place. -/
theorem take_drop_overwrite (hplace : place ≤ data.length) :
    ((overwrite place bytes data).drop place).take bytes.length = bytes := by
  have hfront : (data.take place).length = place := List.length_take_of_le hplace
  rw [overwrite, List.append_assoc, List.drop_left' hfront, List.take_left]

/-- All around them stays as it was. -/
theorem getElem?_overwrite (hplace : place ≤ data.length) {i : Nat}
    (h : i < place ∨ place + bytes.length ≤ i) :
    (overwrite place bytes data)[i]? = data[i]? := by
  have hfront : (data.take place).length = place := List.length_take_of_le hplace
  rw [overwrite, List.append_assoc]
  rcases h with hbefore | hbehind
  · rw [List.getElem?_append_left (by omega), List.getElem?_take_of_lt hbefore]
  · rw [List.getElem?_append_right (by omega), List.getElem?_append_right (by omega),
      List.getElem?_drop]
    congr 1
    omega

end

namespace MemoryStore

/-- **A write in storage** lands where the storage stands, but not behind the end. -/
theorem toList_write (s : MemoryStore) (bytes : List UInt8) :
    (s.write bytes).data.toList =
      overwrite (min s.position s.data.size) bytes s.data.toList := by
  have happend : ∀ front : Array UInt8, (front.appendList bytes).toList = front.toList ++ bytes :=
    fun front => Array.toList_appendList
  have hstop : ∀ n, s.data.toList.extract n s.data.size = s.data.toList.drop n := by
    intro n
    rw [List.extract_eq_take_drop, List.take_of_length_le (by simp)]
  rw [write, overwrite]
  by_cases hend : s.position ≥ s.data.size
  · simp only [if_pos hend, Nat.min_eq_right hend, happend]
    rw [List.take_of_length_le (by simp), List.drop_eq_nil_of_le (by simp), List.append_nil]
  · have hbefore : s.position ≤ s.data.size := by omega
    simp only [if_neg hend, Nat.min_eq_left hbefore, Array.toList_append, happend,
      Array.toList_extract, hstop]
    rw [List.extract_eq_take_drop, List.drop_zero, Nat.sub_zero]

/-- A seek to a position of 2^63 or more is refused. -/
theorem seek_start_of_le {n : Nat} (hlow : 2 ^ 63 ≤ n) (hhigh : n < 2 ^ 64) (s : MemoryStore) :
    s.seek (.start (UInt64.ofNat n)) = (.error refusal, s) := by
  have htarget : s.target (.start (UInt64.ofNat n)) = Int64.ofNat n := UInt64.toInt64_ofNat'
  have hsigned : (Int64.ofNat n).toInt = (n : Int).bmod (2 ^ 64) := Int64.toInt_ofNat'
  have hneg : Int64.ofNat n < 0 := by
    rw [Int64.lt_iff_toInt_lt, hsigned, Int64.toInt_zero, Int.bmod_def]
    omega
  rw [seek]
  simp only [htarget, if_pos hneg]
  rfl

end MemoryStore

namespace Channel

variable {c c' : Channel MemoryStore} {n p : Nat} {bytes : List UInt8}
  {failure : Option StorageFailure}

/-! ### The storage does not stand behind the end while the block is in use -/

/-- If bytes are left of the block, the storage stands in its data, or at the end. -/
def Inside (c : Channel MemoryStore) : Prop :=
  c.unread ≠ 0 → c.storage.position ≤ c.storage.data.size

theorem inside_ofStorage (s : MemoryStore) : Inside (ofStorage s) :=
  fun hsome => absurd rfl hsome

theorem inside_of_read {s s' : MemoryStore} {block : Array UInt8}
    (read : Storage.read n s = (.ok block, s')) : Inside { storage := s', block } := by
  cases read
  intro hsome
  simp only [unread, Nat.sub_zero, Array.size_extract] at hsome ⊢
  omega

/-- A read keeps that. -/
theorem Draws.inside (hdraws : Draws c n bytes failure c') (h : Inside c) : Inside c' := by
  induction hdraws with
  | within =>
    intro hsome
    refine h fun hnone => hsome ?_
    simp only [unread] at hnone ⊢
    omega
  | fails _ read => cases read
  | ends _ read => exact inside_of_read read
  | goesOn _ read _ _ ih => exact ih (inside_of_read read)

theorem inside_onChannel (request : ChannelRequest) (c : Channel MemoryStore) (h : Inside c) :
    Inside (request.onChannel c).2 := by
  have hread : ∀ n, request.wanted? = some n → Inside (request.onChannel c).2 := by
    intro n hwanted
    obtain ⟨bytes, failure, hdraws, -⟩ := onChannel_of_wanted hwanted c
    exact hdraws.inside h
  cases request with
  | readSome n => exact hread n rfl
  | readExact n => exact hread n rfl
  | write bytes =>
    intro hsome
    have hplace := h hsome
    change c.storage.position + bytes.length ≤ (c.storage.write bytes).data.size
    rw [← Array.length_toList, MemoryStore.toList_write, Nat.min_eq_left hplace,
      length_overwrite (by rwa [Array.length_toList])]
    omega
  | seek place => exact inside_ofStorage _
  | position => exact h

/-- **Whatever is asked of a channel**, its storage does not stand behind the end while bytes are left
of the block. -/
theorem inside_of_requests (data : List UInt8) (requests : List ChannelRequest) :
    Inside ((requests.mapM ChannelRequest.onChannel).run (ofStorage (.ofList data))).2 :=
  run_mapM_of_inv inside_onChannel requests (inside_ofStorage _)

/-! ### The write -/

/-- A portion that is there is a part of the data. -/
theorem eq_of_portionAt {data : List UInt8} {place : Nat} (h : portionAt data place n = .ok bytes) :
    place + n ≤ max data.length place ∧ (data.drop place).take n = bytes := by
  rw [portionAt] at h
  split at h
  · cases h
  · rename_i hlong
    rw [List.length_drop] at hlong
    exact ⟨by omega, Except.ok.inj h⟩

/-- What is read at a position, in reach of a seek or not. -/
theorem readAt_memory (c : Channel MemoryStore) (hp : p < 2 ^ 64) (n : Nat) :
    (c.readAt (UInt64.ofNat p) n).1 =
      if p < 2 ^ 63 then portionAt c.storage.data.toList p n
      else .error (.storage MemoryStore.refusal) := by
  rw [readAt, seek]
  by_cases hreach : p < 2 ^ 63
  · have hmax : MemoryStore.maxPosition = 2 ^ 63 - 1 := by decide
    have hseek : Storage.seek (.start (UInt64.ofNat p)) c.storage = _ :=
      MemoryStore.seek_start (show p ≤ MemoryStore.maxPosition by omega) c.storage
    have hstands : StandsAt c.storage.data.toList (MemoryStore.At c.storage.data.toList)
        (ofStorage { c.storage with position := p }) p :=
      standsAt_ofStorage ⟨(Array.toArray_toList ..).symm, rfl⟩
    obtain ⟨c', hread, -⟩ := readExact_of_standsAt (MemoryStore.positional _) hstands n
    rw [hseek, if_pos hreach]
    exact congrArg Prod.fst hread
  · have hseek : Storage.seek (.start (UInt64.ofNat p)) c.storage = _ :=
      MemoryStore.seek_start_of_le (Nat.le_of_not_lt hreach) hp c.storage
    rw [hseek, if_neg hreach]
    rfl

/-- A write of `w` at position `p` does what its caller expects: the position goes on by the bytes of
`w`, they are read back where they were written, and the data around them stays as it was. -/
structure LandsAt (c : Channel MemoryStore) (p : Nat) (w : List UInt8) : Prop where
  position : (c.write w).2.position.1 = .ok (p + w.length)
  readBack : ((c.write w).2.readAt (UInt64.ofNat p) w.length).1 = .ok w
  around : ∀ i < c.storage.data.size, i < p ∨ p + w.length ≤ i →
    (c.write w).2.storage.data.toList[i]? = c.storage.data.toList[i]?

section

variable (hplace : c.storage.position = p + c.unread)

include hplace

theorem toList_write (w : List UInt8) :
    (c.write w).2.storage.data.toList =
      overwrite (min (p + c.unread) c.storage.data.toList.length) w c.storage.data.toList := by
  rw [← hplace, Array.length_toList]
  exact MemoryStore.toList_write ..

theorem position_write (w : List UInt8) : (c.write w).2.position.1 = .ok (p + w.length) := by
  change Except.ok (c.storage.position + w.length - c.unread) = _
  rw [hplace]
  congr 1
  omega

/-- What is read at the position behind a write. -/
theorem readAt_write (hfits : p < 2 ^ 64) (w : List UInt8) :
    ((c.write w).2.readAt (UInt64.ofNat p) w.length).1 =
      if p < 2 ^ 63 then
        portionAt (overwrite (min (p + c.unread) c.storage.data.toList.length) w
          c.storage.data.toList) p w.length
      else .error (.storage MemoryStore.refusal) := by
  rw [readAt_memory (c.write w).2 hfits w.length, toList_write hplace]

/-- A write at a position in the data, or at its end, lands there if the block is used up. -/
theorem landsAt_of_used (hnone : c.unread = 0) (hend : p ≤ c.storage.data.toList.length)
    (hreach : p < 2 ^ 63) (w : List UInt8) : c.LandsAt p w := by
  have hat : min (p + c.unread) c.storage.data.toList.length = p := by omega
  have hread := readAt_write hplace (by omega) w
  rw [if_pos hreach, hat, portionAt, take_drop_overwrite hend, if_neg] at hread
  · refine ⟨position_write hplace w, hread, fun i _ haround => ?_⟩
    rw [toList_write hplace, hat, getElem?_overwrite hend haround]
  · rw [List.length_drop, length_overwrite hend]
    omega

/-- If every write lands at the position, the position is in the data, or at its end, and the block is
used up. -/
theorem used_of_landsAt (hinside : Inside c) (hfits : p < 2 ^ 64) (hlands : ∀ w, c.LandsAt p w) :
    c.unread = 0 ∧ p ≤ c.storage.data.toList.length ∧ p < 2 ^ 63 := by
  set old := c.storage.data.toList with hold
  have hreach : p < 2 ^ 63 := by
    by_contra hfar
    have hback := (hlands []).readBack
    rw [readAt_write hplace hfits, if_neg hfar] at hback
    cases hback
  have hback : ∀ w, portionAt (overwrite (min (p + c.unread) old.length) w old) p w.length =
      .ok w := by
    intro w
    have hback := (hlands w).readBack
    rwa [readAt_write hplace hfits, if_pos hreach] at hback
  have hend : p ≤ old.length := by
    have hone := (eq_of_portionAt (hback [0])).1
    rw [length_overwrite (Nat.min_le_right ..), List.length_singleton] at hone
    omega
  refine ⟨?_, hend, hreach⟩
  -- the byte at the position is one that is left of the block, and no write reaches it
  by_contra hsome
  have hin : p + c.unread ≤ old.length := by
    rw [hold, Array.length_toList, ← hplace]
    exact hinside hsome
  have hlt : p < old.length := by omega
  have hother := congrArg (·[0]?) (eq_of_portionAt (hback [old[p] + 1])).2
  simp only [List.length_singleton, List.getElem?_take_of_lt Nat.one_pos, List.getElem?_drop,
    Nat.add_zero, List.getElem?_cons_zero] at hother
  rw [getElem?_overwrite (Nat.min_le_right ..) (.inl (by omega)), List.getElem?_eq_getElem hlt,
    Option.some.injEq] at hother
  simp at hother

end

/-- **A write lands where the storage stands, and at the end of the data if that is behind it.**
Storage in memory is asked anything through a channel: reads, writes, seeks and positions.  From the
position `p` that the channel tells, a write of `w` leads to `p + w.length`, but lands as many bytes
behind `p` as the block has left, or at the end of the data; and a seek to `p` that is in reach finds
there what the data has then.  So writes do what is expected of them if and only if the block is used
up, and `p` is in reach and not behind the end. -/
theorem write_lands_iff (data : List UInt8) (requests : List ChannelRequest) :
    let c := ((requests.mapM ChannelRequest.onChannel).run (ofStorage (.ofList data))).2
    let old := c.storage.data.toList
    ∃ p, c.position.1 = .ok p ∧
      (∀ w : List UInt8,
        let new := overwrite (min (p + c.unread) old.length) w old
        let (answer, c') := c.write w
        answer = .ok () ∧ c'.position.1 = .ok (p + w.length) ∧ c'.contents = some new ∧
          (p < 2 ^ 64 → (c'.readAt (UInt64.ofNat p) w.length).1 =
            if p < 2 ^ 63 then portionAt new p w.length
            else .error (.storage MemoryStore.refusal))) ∧
      (p < 2 ^ 64 →
        ((∀ w, c.LandsAt p w) ↔ c.unread = 0 ∧ p ≤ old.length ∧ p < 2 ^ 63)) := by
  intro c old
  obtain ⟨raw, hlags⟩ := lags_of_requests MemoryStore.advancing
    (lags_ofStorage (s := MemoryStore.ofList data) rfl) requests
  have hraw : c.storage.position = raw := hlags.storage
  have hbefore : c.unread ≤ raw := Nat.le_trans (Nat.sub_le ..) hlags.block
  have hplace : c.storage.position = raw - c.unread + c.unread := by omega
  refine ⟨raw - c.unread, fst_position_of_lags MemoryStore.advancing hlags,
    fun w => ⟨rfl, position_write hplace w, congrArg some (toList_write hplace w),
      fun hfits => readAt_write hplace hfits w⟩, fun hfits => ⟨?_, ?_⟩⟩
  · exact used_of_landsAt hplace (inside_of_requests data requests) hfits
  · rintro ⟨hnone, hend, hreach⟩ w
    exact landsAt_of_used hplace hnone hend hreach w

/-- Of four bytes one is read; a byte written then comes behind the fourth, and the second byte is
still in its place. -/
theorem write_lands_iff_four :
    let c := (([ChannelRequest.readSome 1].mapM ChannelRequest.onChannel).run
      (ofStorage (MemoryStore.ofList [10, 11, 12, 13]))).2
    let c' := (c.write [255]).2
    c.position.1 = .ok 1 ∧ 1 < 2 ^ 64 ∧ c'.position.1 = .ok 2 ∧
      c'.contents = some [10, 11, 12, 13, 255] ∧ (c'.readAt (UInt64.ofNat 1) 1).1 = .ok [11] ∧
      c.unread ≠ 0 ∧ ¬∀ w, c.LandsAt 1 w := by
  intro c c'
  have hc : c = ⟨⟨#[10, 11, 12, 13], 4⟩, #[10, 11, 12, 13], 1⟩ := by
    decide +kernel
  have hunread : c.unread = 3 := by rw [hc]; rfl
  have hold : c.storage.data.toList = [10, 11, 12, 13] := by rw [hc]
  have hone : c.position.1 = .ok 1 := by rw [hc]; rfl
  obtain ⟨p, hposition, hwrite, hiff⟩ := write_lands_iff [10, 11, 12, 13] [.readSome 1]
  change c.position.1 = .ok p at hposition
  obtain rfl : p = 1 := by
    rw [hone] at hposition
    exact (Except.ok.inj hposition).symm
  obtain ⟨-, hmoved, hcontents, hread⟩ := hwrite [255]
  change c'.contents = some (overwrite (min (1 + c.unread) c.storage.data.toList.length) [255]
    c.storage.data.toList) at hcontents
  have hback : (c'.readAt (UInt64.ofNat 1) 1).1 =
      portionAt (overwrite (min (1 + c.unread) c.storage.data.toList.length) [255]
        c.storage.data.toList) 1 1 := hread (by decide)
  rw [hunread, hold] at hcontents hback
  refine ⟨hone, by decide, hmoved, hcontents, hback, by omega, fun hlands => ?_⟩
  have hused : c.unread = 0 := ((hiff (by decide)).1 hlands).1
  omega

/-- Behind the end there is no gap: a byte written at position 4 of two bytes is the third one. -/
example :
    let c := (([ChannelRequest.seek (.start 4)].mapM ChannelRequest.onChannel).run
      (ofStorage (MemoryStore.ofList [10, 11]))).2
    (c.write [255]).2.contents = some [10, 11, 255] ∧ (c.write [255]).2.position.1 = .ok 5 := by
  decide +kernel

end Channel
end AnnexB
