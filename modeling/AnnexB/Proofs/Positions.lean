/-
# A channel reads the data at its position

`Positional data At` says of a kind of storage that it holds `data`, and that its calls are those of
a position in it: `At s p` says where the state `s` stands.  A read serves the bytes from there on in
portions of any size, none only at the end, and no call fails.

A channel stands behind its storage, by as many bytes as it has not delivered yet (`StandsAt`).  That
is what makes its position the difference of two numbers of which the second is not the larger.

| call at `p` | answer | stands then at |
| --- | --- | --- |
| to read some `n` bytes | `n` bytes of the data from `p` on, or as many as there are | their end |
| to read exactly `n` bytes | the same if there are `n` of them, else the end of the data | the same |
| the position | `p` | `p` |
| a seek to an offset | the offset | the offset, which may be behind the end |

The answers hang on the data and on the position alone (`calls_read_data`), and so neither on the
portions that the storage serves nor on the blocks that the channel cuts them into.
-/

import AnnexB.Proofs.Failures.Storage
import AnnexB.Proofs.Steps
import Mathlib.Algebra.Group.Nat.Defs

namespace AnnexB

/-- Storage that holds `data` and stands at a position in it, or behind its end. -/
structure Positional {σ : Type} [Storage σ] (data : List UInt8) (At : σ → Nat → Prop) : Prop where
  /-- A read serves bytes from the position on, and none only at the end. -/
  read {s : σ} {p n : Nat} (stands : At s p) (pos : 0 < n) :
    ∃ block s', Storage.read n s = (.ok block, s') ∧
      block.toList = (data.drop p).take block.size ∧ (block.size = 0 → data.length ≤ p) ∧
      At s' (p + block.size)
  /-- A seek goes to any offset that is not negative when it is taken for a number with a sign. -/
  seek {s : σ} {p : Nat} {offset : UInt64} (stands : At s p) (signed : offset.toNat < 2 ^ 63) :
    ∃ s', Storage.seek (.start offset) s = (.ok offset.toNat, s') ∧ At s' offset.toNat
  position {s : σ} {p : Nat} (stands : At s p) :
    ∃ s', Storage.position s = (.ok p, s') ∧ At s' p

/-- A call of a channel that reads, or that moves or tells the position. -/
inductive ChannelCall where
  | readSome (n : Nat)
  | readExact (n : Nat)
  | position
  | seek (offset : UInt64)
  deriving DecidableEq, Repr

/-- What a channel answers: bytes or a number, or an error. -/
inductive ChannelAnswer where
  | bytes (answer : Except Error (List UInt8))
  | place (answer : Except Error Nat)
  deriving DecidableEq, Repr

namespace ChannelCall

def onChannel {σ : Type} [Storage σ] (call : ChannelCall) : StateM (Channel σ) ChannelAnswer :=
  fun c =>
    match call with
    | readSome n => let (answer, c) := c.readSome n; (.bytes answer, c)
    | readExact n => let (answer, c) := c.readExact n; (.bytes answer, c)
    | position => let (answer, c) := c.position; (.place answer, c)
    | seek offset => let (answer, c) := c.seek (.start offset); (.place answer, c)

/-- The same by the data and the position alone. -/
def onData (data : List UInt8) (call : ChannelCall) : StateM Nat ChannelAnswer := fun p =>
  match call with
  | readSome n => (.bytes (.ok ((data.drop p).take n)), p + min n (data.length - p))
  | readExact n => (.bytes (portionAt data p n), p + min n (data.length - p))
  | position => (.place (.ok p), p)
  | seek offset => (.place (.ok offset.toNat), offset.toNat)

end ChannelCall

/-! ### What a channel reads from a position on -/

/-- Storage that was at position `p` some reads ago, and what it serves from now on. -/
def ServesFrom {σ : Type} (data : List UInt8) (At : σ → Nat → Prop) (p : Nat) (s : σ)
    (bytes : List UInt8) : Prop :=
  ∃ ahead, At s (p + ahead) ∧ ahead ≤ data.length - p ∧ bytes = data.drop (p + ahead)

theorem Positional.reads {σ : Type} [Storage σ] {data : List UInt8} {At : σ → Nat → Prop}
    (h : Positional data At) (p : Nat) : Reads (fun _ => False) (ServesFrom data At p) where
  read := by
    rintro s _ n ⟨ahead, hat, hbound, rfl⟩ hpos
    obtain ⟨block, s', hread, hfirst, hempty, hat'⟩ := h.read hat hpos
    have hsize := congrArg List.length hfirst
    rw [Array.length_toList, List.length_take, List.length_drop] at hsize
    rw [Nat.add_assoc] at hat'
    refine .inr ⟨block, s', hread, hfirst, fun hnone => List.drop_eq_nil_of_le (hempty hnone),
      ahead + block.size, hat', ?_, ?_⟩
    · omega
    · rw [List.drop_drop, Nat.add_assoc]

namespace Channel

variable {σ : Type} {data : List UInt8} {At : σ → Nat → Prop} {c : Channel σ} {p n : Nat}

/-- A channel stands at position `p`: the bytes not delivered yet are those from there on, and its
storage stands behind them. -/
structure StandsAt (data : List UInt8) (At : σ → Nat → Prop) (c : Channel σ) (p : Nat) : Prop where
  storage : At c.storage (p + c.unread)
  block : c.block.toList.drop c.delivered = (data.drop p).take c.unread

theorem standsAt_ofStorage {s : σ} (h : At s p) : StandsAt data At (ofStorage s) p :=
  ⟨h, rfl⟩

/-- From its position on, a channel has the rest of the data to deliver. -/
theorem StandsAt.pending (h : StandsAt data At c p) :
    Pending (ServesFrom data At p) c (data.drop p) := by
  have hunread := congrArg List.length h.block
  rw [length_drop_block, List.length_take, List.length_drop] at hunread
  refine ⟨data.drop (p + c.unread), ⟨c.unread, h.storage, by omega, rfl⟩, ?_⟩
  rw [h.block, ← List.drop_drop, List.take_append_drop]

/-- With some of that delivered, it stands as much further on, but not behind the end. -/
theorem standsAt_of_pending (h : Pending (ServesFrom data At p) c ((data.drop p).drop n)) :
    StandsAt data At c (p + min n (data.length - p)) := by
  obtain ⟨_, ⟨ahead, hat, hbound, rfl⟩, hbytes⟩ := h
  have hlength := congrArg List.length hbytes
  rw [List.length_append, length_drop_block, List.length_drop, List.length_drop,
    List.length_drop] at hlength
  have hplace : p + min n (data.length - p) + c.unread = p + ahead := by omega
  have hdrop : data.drop (p + min n (data.length - p)) = (data.drop p).drop n := by
    rw [← List.drop_drop]
    rcases Nat.le_total n (data.length - p) with hn | hn
    · rw [Nat.min_eq_left hn]
    · rw [Nat.min_eq_right hn, ← List.length_drop, List.drop_length,
        List.drop_eq_nil_of_le (by rwa [List.length_drop])]
  constructor
  · rwa [hplace]
  · rw [hdrop, hbytes, List.take_left' (length_drop_block c)]

variable [Storage σ] (hstorage : Positional data At) (h : StandsAt data At c p)

include hstorage h

/-! ### One call -/

theorem readSome_of_standsAt (n : Nat) :
    ∃ c', c.readSome n = (.ok ((data.drop p).take n), c') ∧
      StandsAt data At c' (p + min n (data.length - p)) := by
  obtain ⟨c', hread, hpending⟩ :=
    (readSome_of_reads (hstorage.reads p) h.pending n).resolve_left (by simp)
  exact ⟨c', hread, standsAt_of_pending hpending⟩

theorem readExact_of_standsAt (n : Nat) :
    ∃ c', c.readExact n = (portionAt data p n, c') ∧
      StandsAt data At c' (p + min n (data.length - p)) := by
  obtain ⟨c', hread, hpending⟩ :=
    (readExact_of_reads (hstorage.reads p) h.pending n).resolve_left (by simp)
  exact ⟨c', hread, standsAt_of_pending hpending⟩

theorem position_of_standsAt : ∃ c', c.position = (.ok p, c') ∧ StandsAt data At c' p := by
  obtain ⟨s', hposition, hat⟩ := hstorage.position h.storage
  refine ⟨{ c with storage := s' }, ?_, hat, h.block⟩
  unfold position
  rw [hposition]
  simp [Except.map, Except.mapError]

theorem seek_of_standsAt {offset : UInt64} (hoffset : offset.toNat < 2 ^ 63) :
    ∃ c', c.seek (.start offset) = (.ok offset.toNat, c') ∧
      StandsAt data At c' offset.toNat := by
  obtain ⟨s', hseek, hat⟩ := hstorage.seek h.storage hoffset
  refine ⟨.ofStorage s', ?_, standsAt_ofStorage hat⟩
  unfold seek
  rw [hseek]
  rfl

/-- **A call is answered by the data and the position**, and the channel stands where the call on
the data ends. -/
theorem onChannel_of_standsAt {call : ChannelCall}
    (hcall : ∀ offset, call = .seek offset → offset.toNat < 2 ^ 63) :
    (call.onChannel c).1 = (call.onData data p).1 ∧
      StandsAt data At (call.onChannel c).2 (call.onData data p).2 := by
  unfold ChannelCall.onChannel
  cases call with
  | readSome n =>
    obtain ⟨c', hread, hstands⟩ := readSome_of_standsAt hstorage h n
    simp only [hread]
    exact ⟨rfl, hstands⟩
  | readExact n =>
    obtain ⟨c', hread, hstands⟩ := readExact_of_standsAt hstorage h n
    simp only [hread]
    exact ⟨rfl, hstands⟩
  | position =>
    obtain ⟨c', hposition, hstands⟩ := position_of_standsAt hstorage h
    simp only [hposition]
    exact ⟨rfl, hstands⟩
  | seek offset =>
    obtain ⟨c', hseek, hstands⟩ := seek_of_standsAt hstorage h (hcall offset rfl)
    simp only [hseek]
    exact ⟨rfl, hstands⟩

end Channel

/-! ### Storage in memory -/

/-- The storage holds `data` and stands at position `p`. -/
def MemoryStore.At (data : List UInt8) (s : MemoryStore) (p : Nat) : Prop :=
  s.data = data.toArray ∧ s.position = p

theorem MemoryStore.positional (data : List UInt8) : Positional data (At data) where
  read := by
    rintro s _ n ⟨hdata, rfl⟩ hpos
    obtain ⟨hfirst, hempty⟩ := read_of_data hdata hpos
    exact ⟨_, _, rfl, hfirst, hempty, hdata, rfl⟩
  seek := by
    rintro s _ offset ⟨hdata, -⟩ hsigned
    have hmax : maxPosition = 2 ^ 63 - 1 := by decide
    have hseek := seek_start (show offset.toNat ≤ maxPosition by omega) s
    rw [UInt64.ofNat_toNat] at hseek
    exact ⟨_, hseek, hdata, rfl⟩
  position := by
    rintro s _ ⟨hdata, rfl⟩
    exact ⟨s, rfl, hdata, rfl⟩

namespace ScriptedStore

/-- The storage below holds `data` and stands at position `p`, and no call of the script fails. -/
def At (data : List UInt8) (s : ScriptedStore) (p : Nat) : Prop :=
  none ∉ s.script ∧ MemoryStore.At data s.store p

/-- **Storage with any script of portions** holds its data and stands at a position. -/
theorem positional (data : List UInt8) : Positional data (At data) where
  read := by
    rintro s p n ⟨hfine, hat⟩ hpos
    obtain ⟨portion, hmade⟩ := (follow_cases
      (fun portion => Storage.read (min n (max (portion.getD n) 1))) s).resolve_left fun h =>
        hfine h.1
    obtain ⟨block, store, hread, hfirst, hempty, hat'⟩ := (MemoryStore.positional data).read hat
      (show 0 < min n (max (portion.getD n) 1) by omega)
    exact ⟨block, _, hmade block store hread, hfirst, hempty,
      fun h => hfine (List.mem_of_mem_tail h), hat'⟩
  seek := by
    rintro s p offset ⟨hfine, hat⟩ hsigned
    obtain ⟨portion, hmade⟩ := (follow_cases
      (fun _ => Storage.seek (.start offset)) s).resolve_left fun h => hfine h.1
    obtain ⟨store, hseek, hat'⟩ := (MemoryStore.positional data).seek hat hsigned
    exact ⟨_, hmade _ store hseek, fun h => hfine (List.mem_of_mem_tail h), hat'⟩
  position := by
    rintro s _ ⟨hfine, hdata, rfl⟩
    exact ⟨s, rfl, hfine, hdata, rfl⟩

end ScriptedStore

/-! ### Calls in a row -/

namespace Channel

/-- **Reading through a channel is reading the data.**  Over storage that serves the data from its
position on in any portions, and does not fail, calls in any order are answered as the data and the
position alone have it, seeks behind the end included.  And the storage never stands before the
bytes that are not delivered yet, so that their number can be taken off its position: the difference
is the position on the data. -/
theorem calls_read_data {σ : Type} [Storage σ] {data : List UInt8} {At : σ → Nat → Prop}
    (hstorage : Positional data At) {s : σ} {p : Nat} (hs : At s p) (calls : List ChannelCall)
    (hcalls : ∀ offset, ChannelCall.seek offset ∈ calls → offset.toNat < 2 ^ 63) :
    let run := (calls.mapM ChannelCall.onChannel).run (ofStorage s)
    let direct := (calls.mapM (ChannelCall.onData data)).run p
    run.1 = direct.1 ∧
      ∃ raw, At run.2.storage raw ∧ run.2.unread ≤ raw ∧ raw - run.2.unread = direct.2 := by
  intro run direct
  have hcall : ∀ call ∈ calls, ∀ (c : Channel σ) (q : Nat), StandsAt data At c q →
      (call.onChannel c).1 = (call.onData data q).1 ∧
        StandsAt data At (call.onChannel c).2 (call.onData data q).2 := by
    intro call hmem c q h
    refine onChannel_of_standsAt hstorage h fun offset hseek => hcalls offset ?_
    rwa [← hseek]
  have hstart : StandsAt data At (ofStorage s) p := standsAt_ofStorage hs
  obtain ⟨hanswers, hstands⟩ := run_mapM_of_rel hcall hstart
  exact ⟨hanswers, _, hstands.storage, Nat.le_add_left .., Nat.add_sub_cancel ..⟩

/-- Eight bytes, served one, then three, then two at a time, read across a portion, to the end and
behind it. -/
theorem calls_read_data_scripted :
    let data : List UInt8 := [10, 11, 12, 13, 14, 15, 16, 17]
    let s : ScriptedStore := ⟨.ofList data, [some 1, some 3, some 2]⟩
    let calls : List ChannelCall := [.readSome 3, .position, .readExact 2, .readSome 9, .position,
      .seek 6, .readExact 3, .position, .seek 20, .readSome 1, .position, .seek 1, .readExact 1]
    Positional data (ScriptedStore.At data) ∧ ScriptedStore.At data s 0 ∧
      (∀ offset, ChannelCall.seek offset ∈ calls → offset.toNat < 2 ^ 63) ∧
      ((calls.mapM ChannelCall.onChannel).run (ofStorage s)).1 =
        [.bytes (.ok [10, 11, 12]), .place (.ok 3), .bytes (.ok [13, 14]),
          .bytes (.ok [15, 16, 17]), .place (.ok 8), .place (.ok 6), .bytes (.error .endOfData),
          .place (.ok 8), .place (.ok 20), .bytes (.ok []), .place (.ok 20), .place (.ok 1),
          .bytes (.ok [11])] := by
  intro data s calls
  have hs : ScriptedStore.At data s 0 := ⟨by decide, rfl, rfl⟩
  have hcalls : ∀ offset, ChannelCall.seek offset ∈ calls → offset.toNat < 2 ^ 63 := by
    intro offset hmem
    simp [calls] at hmem
    rcases hmem with rfl | rfl | rfl <;> decide
  exact ⟨ScriptedStore.positional data, hs, hcalls,
    (calls_read_data (ScriptedStore.positional data) hs calls hcalls).1⟩

end Channel
end AnnexB
