/-
# Playing raw frames again and again

A source of raw frames counts the frames that it hands out through, over the passes, from 0 on.  Where
its input holds `n` whole frames of `size` bytes, frame `k` is

| what | of frame `k` |
| --- | --- |
| samples | one, which is marked |
| bytes | the `size` bytes of the input from `k % n * size` on |
| time | stamp `k` |

The state behind `k` frames is given in closed form by `Playing`.  A call keeps it so (`next_of_playing`)
until the last pass is over, and so any number of calls does (`frame_after_ofChannel`).  No frame
reaches behind the last whole one, so the bytes left over there are never handed out.
-/

import AnnexB.Proofs.Passes
import AnnexB.Proofs.Failures.Sources

namespace AnnexB

/-- Where enough data are left, all that is asked for is read. -/
theorem portionAt_of_le {data : List UInt8} {place n : Nat} (h : place + n ≤ data.length) :
    portionAt data place n = .ok ((data.drop place).take n) := by
  rw [portionAt, if_neg (by rw [List.length_drop]; omega)]

namespace YuvSource

variable {σ : Type} {Serves : σ → List UInt8 → Prop} {data : List UInt8} {config : YuvConfig}
  {s : YuvSource σ} {size n k : Nat}

/-- Frame `k` of all passes over `n` frames of `size` bytes. -/
def frame (data : List UInt8) (config : YuvConfig) (size n k : Nat) : Sample :=
  { Sample.ofPayload ((data.drop (k % n * size)).take size) with
    time := config.mode.stamp k, marker := true }

/-- A source stands behind `k` frames of all its passes, where another one comes. -/
structure Playing (Serves : σ → List UInt8 → Prop) (config : YuvConfig) (size n : Nat)
    (s : YuvSource σ) (k : Nat) : Prop where
  intact : s.intact = true
  channel : ∃ c bytes, s.channel = some c ∧ c.Pending Serves bytes
  asked : s.config = config
  frameSize : s.frameSize = size
  cursor : s.cursor = .behind config.replay n k

theorem Playing.isGood (h : Playing Serves config size n s k) : s.isGood = true := by
  rw [YuvSource.isGood, h.intact, h.cursor]
  rfl

/-- The frames of a pass lie behind each other. -/
theorem frame_end_le (hn : 0 < n) (k size : Nat) : k % n * size + size ≤ n * size := by
  rw [← Nat.succ_mul]
  exact Nat.mul_le_mul_right _ (Nat.mod_lt k hn)

variable [Storage σ]

/-- **A call hands out the frame that comes,** and the source stands behind it, or is at its end. -/
theorem next_of_playing (hbackend : Backend (fun _ => False) data Serves) (hn : 0 < n)
    (hframes : n * size ≤ data.length) (hdata : data.length < UInt64.size)
    (h : Playing Serves config size n s k) (hk : config.replay.Includes n k) :
    ∃ s', s.next = ([frame data config size n k], s') ∧
      if config.replay.Includes n (k + 1) then Playing Serves config size n s' (k + 1)
      else MediaSource.Spent s' := by
  obtain ⟨c, bytes, hchannel, hpending⟩ := h.channel
  have hend := frame_end_le hn k size
  have hoffset : (UInt64.ofNat (k % n * size)).toNat = k % n * size :=
    UInt64.toNat_ofNat_of_lt' (by omega)
  obtain ⟨c', hread, hpending'⟩ := (Channel.readAt_of_backend hbackend hpending
    (by rw [hoffset]; omega) size).resolve_left (by simp)
  rw [hoffset, portionAt_of_le (by omega)] at hread
  have hnext : s.next = ([frame data config size n k],
      { s with channel := some c', cursor := s.cursor.advance }) := by
    rw [next, h.isGood, readFrame_eq hchannel, h.cursor, h.asked, h.frameSize]
    simp only [ReplayCursor.behind, hread, TimestampMode.stamp_toNat]
    rfl
  refine ⟨_, hnext, ?_⟩
  have hadvance := ReplayCursor.advance_behind hn hk
  rw [← h.cursor] at hadvance
  by_cases hlater : config.replay.Includes n (k + 1)
  · rw [if_pos hlater] at hadvance ⊢
    exact ⟨h.intact, ⟨c', _, rfl, hpending'.choose_spec⟩, h.asked, h.frameSize, hadvance⟩
  · rw [if_neg hlater] at hadvance ⊢
    refine spent_of_not_isGood ?_
    rw [YuvSource.isGood, hadvance, Bool.not_true, Bool.and_false]

/-- A source counts the whole frames of its input. -/
theorem frameCount_ofFrames {c : Channel σ} {total : Nat} (htotal : c.size = some total) :
    (ofFrames c config size).frameCount = total / size := by
  rw [ofFrames, countFrames, htotal]
  by_cases hzero : size = 0
  · rw [if_pos hzero, hzero]
    exact (Nat.div_zero total).symm
  · rw [if_neg hzero]

/-- A new source is good if there is a frame. -/
theorem isGood_ofFrames (c : Channel σ) (config : YuvConfig) (size : Nat) :
    (ofFrames c config size).isGood = ((ofFrames c config size).frameCount != 0) := by
  rw [ofFrames]
  split <;> rfl

/-- Without a frame there is nothing to hand out. -/
theorem spent_ofFrames {c : Channel σ} (hnone : (ofFrames c config size).frameCount = 0) :
    MediaSource.Spent (ofFrames c config size) :=
  spent_of_not_isGood (by rw [isGood_ofFrames, hnone]; rfl)

/-- A source over an input with frames stands at the first one. -/
theorem playing_ofFrames {c : Channel σ} {bytes : List UInt8} (h : c.Pending Serves bytes)
    (hn : 0 < (ofFrames c config size).frameCount) :
    Playing Serves config size (ofFrames c config size).frameCount (ofFrames c config size) 0 := by
  rw [ofFrames] at hn ⊢
  split at hn
  · cases hn
  · exact ⟨rfl, ⟨c, bytes, rfl, h⟩, rfl, rfl, ReplayCursor.start_eq_behind hn⟩

/-- Any number of calls leads behind as many frames, or to the end. -/
theorem after_of_playing (hbackend : Backend (fun _ => False) data Serves) (hn : 0 < n)
    (hframes : n * size ≤ data.length) (hdata : data.length < UInt64.size)
    (h : Playing Serves config size n s 0) (k : Nat) :
    if config.replay.Includes n k then Playing Serves config size n (MediaSource.after s k) k
    else MediaSource.Spent (MediaSource.after s k) := by
  refine MediaSource.after_of_passes hn (fun t k hplaying hk => ?_) h k
  obtain ⟨t', hnext, hlater⟩ := next_of_playing hbackend hn hframes hdata hplaying hk
  rwa [show MediaSource.next t = _ from hnext]

/-- **What a source of raw frames hands out when it is played again and again.**  There is a source
where the size of a frame fits in its word.  Its input in memory holds `n` whole frames, none where a
frame has no bytes.  Call `k` gives one marked sample, with the
bytes of frame `k % n` and stamped with `k`, and nothing once all passes are over; the source is good
exactly before that, and never without a whole frame.  The frames read lie behind each other, in front
of the bytes left over, and the offset that is sought fits in 64 bits. -/
theorem frame_after_ofChannel (hdata : data.length ≤ MemoryStore.maxPosition) {frameSize : UInt64}
    (hsize : config.frameSize = .ok frameSize) (k : Nat) :
    ∃ source, ofChannel (Channel.ofStorage (MemoryStore.ofList data)) config = .ok source ∧
      let size := frameSize.toNat
      let n := data.length / size
      let s := MediaSource.after source k
      source.frameCount = n ∧ (MediaSource.isGood source = true ↔ 0 < n) ∧
        (MediaSource.next s).1 =
          (if 0 < n ∧ config.replay.Includes n k then [frame data config size n k] else []) ∧
        (MediaSource.isGood s = true ↔ 0 < n ∧ config.replay.Includes n k) ∧
        n * size + data.length % size = data.length ∧
        (0 < n → config.replay.Includes n k → s.cursor.position = k % n ∧
          k % n * size + size ≤ n * size ∧ s.cursor.position * size < UInt64.size) := by
  refine ⟨_, ofChannel_of_frameSize hsize _, ?_⟩
  intro size n s
  set source := ofFrames (Channel.ofStorage (MemoryStore.ofList data)) config size
  have hbackend := MemoryStore.backend hdata
  have hpending : (Channel.ofStorage (MemoryStore.ofList data)).Pending (MemoryStore.Serves data)
      data := Channel.pending_ofStorage (MemoryStore.serves_ofList data)
  have hlength : source.frameCount = n := frameCount_ofFrames rfl
  have hrest : n * size + data.length % size = data.length := Nat.div_add_mod' ..
  have hfits : data.length < UInt64.size := Nat.lt_of_le_of_lt hdata (by decide)
  rcases Nat.eq_zero_or_pos n with hnone | hn
  · have hspent : MediaSource.Spent source := spent_ofFrames (hlength.trans hnone)
    have hno : ¬(0 < n ∧ config.replay.Includes n k) := fun h => by omega
    rw [show s = source from hspent.after k, if_neg hno, hspent.next]
    exact ⟨hlength, iff_of_false (Bool.eq_false_iff.1 hspent.isGood) (by omega), rfl,
      iff_of_false (Bool.eq_false_iff.1 hspent.isGood) hno, hrest, fun hn => by omega⟩
  · have hstart : Playing (MemoryStore.Serves data) config size n source 0 :=
      hlength ▸ playing_ofFrames hpending (hlength.symm ▸ hn)
    have hafter := after_of_playing hbackend hn (Nat.div_mul_le_self ..) hfits hstart k
    refine ⟨hlength, iff_of_true hstart.isGood hn, ?_⟩
    by_cases hk : config.replay.Includes n k
    · rw [if_pos hk] at hafter
      obtain ⟨s', hnext, -⟩ :=
        next_of_playing hbackend hn (Nat.div_mul_le_self ..) hfits hafter hk
      have hposition : s.cursor.position = k % n := by
        rw [hafter.cursor]
        rfl
      have hend := frame_end_le hn k size
      rw [if_pos ⟨hn, hk⟩]
      refine ⟨congrArg Prod.fst hnext, iff_of_true hafter.isGood ⟨hn, hk⟩, hrest, fun _ _ =>
        ⟨hposition, hend, ?_⟩⟩
      rw [hposition]
      omega
    · rw [if_neg hk] at hafter
      have hno : ¬(0 < n ∧ config.replay.Includes n k) := fun h => hk h.2
      rw [if_neg hno]
      exact ⟨congrArg Prod.fst hafter.next,
        iff_of_false (Bool.eq_false_iff.1 hafter.isGood) hno, hrest, fun _ h => absurd h hk⟩

/-- Two frames and a byte, played twice: the second frame comes again as number 3, the last. -/
theorem frame_after_ofChannel_twice :
    let data : List UInt8 := [0, 1, 2, 3, 4, 5, 6, 7, 8, 9, 10, 11, 12]
    let config : YuvConfig :=
      { width := 2, height := 2, replay := .repeating 1, mode := .untimed }
    data.length ≤ MemoryStore.maxPosition ∧ config.frameSize = .ok 6 ∧
      ∃ source, ofChannel (Channel.ofStorage (MemoryStore.ofList data)) config = .ok source ∧
        source.frameCount = 2 ∧ MediaSource.isGood source = true ∧
        (MediaSource.next (MediaSource.after source 3)).1 =
          [{ data := .ofList [6, 7, 8, 9, 10, 11], marker := true }] ∧
        MediaSource.isGood (MediaSource.after source 3) = true ∧
        (MediaSource.next (MediaSource.after source 4)).1 = [] ∧
        MediaSource.isGood (MediaSource.after source 4) ≠ true := by
  intro data config
  have hdata : data.length ≤ MemoryStore.maxPosition := by decide
  have hsize : config.frameSize = .ok 6 := by decide
  have hin : 0 < 2 ∧ config.replay.Includes 2 3 := by decide
  have hout : ¬(0 < 2 ∧ config.replay.Includes 2 4) := by decide
  obtain ⟨source, hsource, hcount, hgood, hlast, hgood₃, -⟩ := frame_after_ofChannel hdata hsize 3
  obtain ⟨_, hsame, -, -, hnone, hend, -⟩ := frame_after_ofChannel hdata hsize 4
  obtain rfl := Except.ok.inj (hsource.symm.trans hsame)
  rw [show data.length / (6 : UInt64).toNat = 2 by decide] at *
  refine ⟨hdata, hsize, source, hsource, hcount, hgood.2 (by decide), ?_, hgood₃.2 hin, ?_,
    mt hend.1 hout⟩
  · rw [hlast, if_pos hin]
    decide +kernel
  · rw [hnone, if_neg hout]

end YuvSource

end AnnexB
