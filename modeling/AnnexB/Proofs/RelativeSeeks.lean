/-
# Where a relative seek goes

A relative seek goes from where the storage stands, and so from the end of the block, and the bytes
of the block that are not delivered yet are skipped along with it.  From position `p`, with `n` such
bytes, a seek by `d` goes to `p + n + d` (`relative_seek_eq_iff`).  That is `p + d` where the block is
used up, and nowhere else; and where it is not, `p + n + d` may be out of reach, with `p + d` in it.

| from `p` by `d` | answer | the channel stands then at |
| --- | --- | --- |
| `p + n + d < 2^63` | `p + n + d` | `p + n + d` |
| else | refused | `p + n` |

Targets are computed in 64 bits with a sign, so that one of 2^63 or more, which is not out of the 64
bits, is negative there (`seek_current`).  A program that checks its sums faults in place of the refusal
(`targetChecked_current`).
-/

import AnnexB.Proofs.Blocks
import AnnexB.Proofs.Positions
import Mathlib.Algebra.Group.Int.Defs

namespace AnnexB
namespace MemoryStore

/-- What a seek says to a target that is negative, or counts as that. -/
def refusal : StorageFailure := .custom "seek 位置不能为负"

theorem toInt_target_current (s : MemoryStore) (d : Int64) :
    (s.target (.current d)).toInt = ((s.position : Int) + d.toInt).bmod (2 ^ 64) := by
  have hposition : (Int64.ofNat s.position).toInt = (s.position : Int).bmod (2 ^ 64) :=
    Int64.toInt_ofNat'
  rw [target, Int64.toInt_add, hposition, Int.bmod_add_bmod]

/-- A relative target in storage is checked to be below 2^63. -/
theorem targetChecked_current {s : MemoryStore} (h : s.position < 2 ^ 63) (d : Int64) :
    s.targetChecked (.current d) =
      if (s.position : Int) + d.toInt < 2 ^ 63 then .ok (.ofInt ((s.position : Int) + d.toInt))
      else .error .fault := by
  have hposition : (Int64.ofNat s.position).toInt = s.position := Int64.toInt_ofNat_of_lt h
  have hlow := d.le_toInt
  have hsum : Int64.ofInt ((s.position : Int) + d.toInt) = Int64.ofNat s.position + d := by
    rw [Int64.ofInt_add, Int64.ofInt_toInt, Int64.ofInt_eq_ofNat]
  rw [hsum]
  refine Halt.checked_of_iff ?_
  rw [Int64.toInt_add, hposition, Int.bmod_eq_iff (by decide)]
  omega

/-- **A relative seek in storage** goes as far from its position, if that is below 2^63. -/
theorem seek_current {s : MemoryStore} {d : Int64} (hlow : 0 ≤ (s.position : Int) + d.toInt)
    (hhigh : (s.position : Int) + d.toInt < 2 ^ 64) :
    s.seek (.current d) =
      if (s.position : Int) + d.toInt < 2 ^ 63 then
        (.ok ((s.position : Int) + d.toInt).toNat,
          { s with position := ((s.position : Int) + d.toInt).toNat })
      else (.error refusal, s) := by
  have htarget := s.toInt_target_current d
  rw [seek]
  by_cases hreach : (s.position : Int) + d.toInt < 2 ^ 63
  · rw [Int.bmod_eq_of_le_mul_two (by omega) (by omega)] at htarget
    have hnat : (s.target (.current d)).toNatClampNeg = ((s.position : Int) + d.toInt).toNat := by
      rw [← Int64.toNat_toInt, htarget]
    have hpos : ¬s.target (.current d) < 0 := by
      rw [Int64.lt_iff_toInt_lt, htarget, Int64.toInt_zero]
      omega
    simp only [if_neg hpos, hnat, if_pos hreach]
  · have hneg : s.target (.current d) < 0 := by
      rw [Int64.lt_iff_toInt_lt, htarget, Int64.toInt_zero, Int.bmod_def]
      omega
    simp only [if_pos hneg, if_neg hreach]
    rfl

end MemoryStore

namespace Channel

variable {σ : Type} [Storage σ]

/-- Calls of a channel that stands at a position are answered by the data from there on. -/
theorem answers_of_standsAt {data : List UInt8} {At : σ → Nat → Prop}
    (hstorage : Positional data At) {c : Channel σ} {p : Nat} (h : StandsAt data At c p)
    (calls : List ChannelCall)
    (hcalls : ∀ offset, ChannelCall.seek offset ∈ calls → offset.toNat < 2 ^ 63) :
    ((calls.mapM ChannelCall.onChannel).run c).1 =
      ((calls.mapM (ChannelCall.onData data)).run p).1 := by
  refine (run_mapM_of_rel (fun call hmem c q h => ?_) h).1
  refine onChannel_of_standsAt hstorage h fun offset hseek => hcalls offset ?_
  rwa [← hseek]

/-- A seek of a channel goes from where its storage stands, and drops the block. -/
theorem seek_current {c : Channel MemoryStore} {d : Int64}
    (hlow : 0 ≤ (c.storage.position : Int) + d.toInt)
    (hhigh : (c.storage.position : Int) + d.toInt < 2 ^ 64) :
    let target := (c.storage.position : Int) + d.toInt
    let place := if target < 2 ^ 63 then target.toNat else c.storage.position
    c.seek (.current d) =
      (if target < 2 ^ 63 then .ok target.toNat else .error (.storage MemoryStore.refusal),
        ofStorage { c.storage with position := place }) := by
  intro target place
  have hseek : Storage.seek (.current d) c.storage = _ := MemoryStore.seek_current hlow hhigh
  rw [seek, hseek]
  by_cases hreach : (c.storage.position : Int) + d.toInt < 2 ^ 63
  · simp only [target, place, if_pos hreach]
    rfl
  · simp only [target, place, if_neg hreach]
    rfl

/-- **A relative seek starts from the end of the block.**  Storage in memory is asked anything through
a channel: reads, writes, seeks and positions.  From the position `p` that the channel tells, a seek
by `d` goes to `p + d` and as many bytes further as the block has left, or is refused where that is
out of reach; and what follows reads the storage from there on, or from the end of the block.  So the
seek answers `p + d` if and only if the block is used up.  A storage below 2^63 that checks its sums
faults just where it would refuse. -/
theorem relative_seek_eq_iff (data : List UInt8) (requests : List ChannelRequest) :
    let c := ((requests.mapM ChannelRequest.onChannel).run (ofStorage (MemoryStore.ofList data))).2
    ∃ p : Nat, c.position.1 = .ok p ∧
      ∀ d : Int64, 0 ≤ (p : Int) + d.toInt → (p : Int) + d.toInt < 2 ^ 63 →
        let target := (p : Int) + c.unread + d.toInt
        let place := if target < 2 ^ 63 then target.toNat else p + c.unread
        let (answer, c') := c.seek (.current d)
        answer = (if target < 2 ^ 63 then .ok target.toNat
          else .error (.storage MemoryStore.refusal)) ∧
        (∀ calls : List ChannelCall,
          (∀ offset, ChannelCall.seek offset ∈ calls → offset.toNat < 2 ^ 63) →
          ((calls.mapM ChannelCall.onChannel).run c').1 =
            ((calls.mapM (ChannelCall.onData c.storage.data.toList)).run place).1) ∧
        (answer = .ok ((p : Int) + d.toInt).toNat ↔ c.unread = 0) ∧
        (p + c.unread < 2 ^ 63 → c.storage.targetChecked (.current d) =
          if target < 2 ^ 63 then .ok (.ofInt target) else .error .fault) := by
  intro c
  obtain ⟨raw, hlags⟩ := lags_of_requests MemoryStore.advancing
    (lags_ofStorage (s := MemoryStore.ofList data) rfl) requests
  obtain ⟨c₁, hposition, -⟩ := position_of_lags MemoryStore.advancing hlags
  have hraw : c.storage.position = raw := hlags.storage
  have hbefore : c.unread ≤ raw := Nat.le_trans (Nat.sub_le ..) hlags.block
  have hsize : c.unread ≤ blockSize := Nat.le_trans (Nat.sub_le ..) hlags.blockSize
  refine ⟨raw - c.unread, by rw [hposition], fun d hlow hhigh => ?_⟩
  intro target place
  have hmax : blockSize = 32768 := rfl
  have htarget : target = (c.storage.position : Int) + d.toInt := by
    simp only [target]
    omega
  have hplace : place =
      if target < 2 ^ 63 then target.toNat else c.storage.position := by
    simp only [place]
    congr 1
    omega
  have hseek := seek_current (c := c) (d := d) (by omega) (by omega)
  simp only [← htarget, ← hplace] at hseek
  rw [hseek]
  have hstands : StandsAt c.storage.data.toList (MemoryStore.At c.storage.data.toList)
      (ofStorage { c.storage with position := place }) place :=
    standsAt_ofStorage ⟨(Array.toArray_toList ..).symm, rfl⟩
  refine ⟨rfl, answers_of_standsAt (MemoryStore.positional _) hstands, ?_, fun hbelow => ?_⟩
  · by_cases hreach : target < 2 ^ 63
    · rw [if_pos hreach, Except.ok.injEq]
      omega
    · rw [if_neg hreach]
      exact ⟨nofun, fun hnone => absurd (show target < 2 ^ 63 by omega) hreach⟩
  · rw [htarget]
    exact MemoryStore.targetChecked_current (by omega) d

/-- Of four bytes one is read; a seek by 0 answers 4, and then there is no byte to read. -/
theorem relative_seek_eq_iff_four :
    let c := (([ChannelRequest.readSome 1].mapM ChannelRequest.onChannel).run
      (ofStorage (MemoryStore.ofList [10, 11, 12, 13]))).2
    let calls : List ChannelCall := [.position, .readSome 1]
    c.position.1 = .ok 1 ∧ 0 ≤ ((1 : Nat) : Int) + (0 : Int64).toInt ∧
      ((1 : Nat) : Int) + (0 : Int64).toInt < 2 ^ 63 ∧
      (∀ offset, ChannelCall.seek offset ∈ calls → offset.toNat < 2 ^ 63) ∧
      (c.seek (.current 0)).1 = .ok 4 ∧
      ((calls.mapM ChannelCall.onChannel).run (c.seek (.current 0)).2).1 =
        [.place (.ok 4), .bytes (.ok [])] ∧
      (c.seek (.current 0)).1 ≠ .ok 1 ∧ 1 + c.unread < 2 ^ 63 ∧
      c.storage.targetChecked (.current 0) = .ok 4 := by
  intro c calls
  have hc : c = ⟨⟨#[10, 11, 12, 13], 4⟩, #[10, 11, 12, 13], 1⟩ := by
    decide +kernel
  have hcalls : ∀ offset, ChannelCall.seek offset ∈ calls → offset.toNat < 2 ^ 63 := by
    intro offset hmem
    simp [calls] at hmem
  obtain ⟨p, hposition, hseek⟩ := relative_seek_eq_iff [10, 11, 12, 13] [.readSome 1]
  change c.position.1 = .ok p at hposition
  have hone : c.position.1 = .ok 1 := by rw [hc]; rfl
  obtain rfl : p = 1 := by
    rw [hone] at hposition
    exact (Except.ok.inj hposition).symm
  obtain ⟨hanswer, hlater, hiff, hchecked⟩ := hseek 0 (by decide) (by decide)
  change (c.seek (.current 0)).1 = _ at hanswer
  change (c.seek (.current 0)).1 = _ ↔ c.unread = 0 at hiff
  change 1 + c.unread < 2 ^ 63 → c.storage.targetChecked (.current 0) = _ at hchecked
  specialize hlater calls hcalls
  change ((calls.mapM ChannelCall.onChannel).run (c.seek (.current 0)).2).1 =
    ((calls.mapM (ChannelCall.onData c.storage.data.toList)).run _).1 at hlater
  have hunread : c.unread = 3 := by rw [hc]; rfl
  have hbelow : 1 + c.unread < 2 ^ 63 := by
    rw [hunread]
    decide
  refine ⟨hone, by decide, by decide, hcalls, ?_, ?_, ?_, hbelow, ?_⟩
  · rw [hanswer, show unread (_ : Channel MemoryStore) = 3 from hunread]
    rfl
  · rw [hlater, show unread (_ : Channel MemoryStore) = 3 from hunread, hc]
    rfl
  · intro hsame
    have := hiff.1 hsame
    omega
  · rw [hchecked hbelow, show unread (_ : Channel MemoryStore) = 3 from hunread]
    rfl

end Channel
end AnnexB
