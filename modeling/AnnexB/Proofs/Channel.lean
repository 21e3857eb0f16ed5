/-
# A channel delivers what its storage holds

`Delivers Serves` says of a kind of storage that its reads serve some bytes in order, in portions of
any size, without failing and without an end before the last byte.  Then a channel over it delivers
the same bytes, in the portions that are asked for (`readExact_of_pending`): first those left of its
block, then those of the storage.  Where reads fail now and then (`Lapses`), a channel fails with the
first of them, or delivers the same bytes (`receive_of_reads`).

Storage in memory delivers the bytes from its position on (`MemoryStore.delivers`), and a seek
brings it to any position below 2^63 (`MemoryStore.seek_start`).
-/

import AnnexB.Storage.Channel
import AnnexB.Storage.Memory
import Mathlib.Data.List.Basic
import Mathlib.Tactic.Common

namespace AnnexB

/-- Reads of the storage serve bytes: `Serves s bytes` says which ones, from the state `s` on. -/
structure Delivers {σ : Type} [Storage σ] (Serves : σ → List UInt8 → Prop) : Prop where
  /-- A read serves the first of the bytes, and none only when none is left. -/
  read {s : σ} {bytes : List UInt8} {n : Nat} (serves : Serves s bytes) (pos : 0 < n) :
    ∃ block s', Storage.read n s = (.ok block, s') ∧ block.toList = bytes.take block.size ∧
      (block.size = 0 → bytes = []) ∧ Serves s' (bytes.drop block.size)
  remaining {s : σ} {bytes : List UInt8} (serves : Serves s bytes) :
    bytes.length ≤ Storage.remaining s

/-- The same of storage whose reads fail now and then.  Of the state after that, only `Fails` is
said. -/
structure Lapses {σ : Type} [Storage σ] (Fails : σ → Prop) (Serves : σ → List UInt8 → Prop) :
    Prop where
  read {s : σ} {bytes : List UInt8} {n : Nat} (serves : Serves s bytes) (pos : 0 < n) :
    (∃ failure s', Storage.read n s = (.error failure, s') ∧ Fails s') ∨
      ∃ block s', Storage.read n s = (.ok block, s') ∧ block.toList = bytes.take block.size ∧
        (block.size = 0 → bytes = []) ∧ Serves s' (bytes.drop block.size)
  remaining {s : σ} {bytes : List UInt8} (serves : Serves s bytes) :
    bytes.length ≤ Storage.remaining s

/-- What reading alone needs of that: each read serves the first of the bytes, or fails. -/
structure Reads {σ : Type} [Storage σ] (Fails : σ → Prop) (Serves : σ → List UInt8 → Prop) :
    Prop where
  read {s : σ} {bytes : List UInt8} {n : Nat} (serves : Serves s bytes) (pos : 0 < n) :
    (∃ failure s', Storage.read n s = (.error failure, s') ∧ Fails s') ∨
      ∃ block s', Storage.read n s = (.ok block, s') ∧ block.toList = bytes.take block.size ∧
        (block.size = 0 → bytes = []) ∧ Serves s' (bytes.drop block.size)

theorem Lapses.reads {σ : Type} [Storage σ] {Fails : σ → Prop} {Serves : σ → List UInt8 → Prop}
    (h : Lapses Fails Serves) : Reads Fails Serves := ⟨h.read⟩

theorem Delivers.lapses {σ : Type} [Storage σ] {Serves : σ → List UInt8 → Prop}
    (h : Delivers Serves) : Lapses (fun _ => False) Serves :=
  ⟨fun serves pos => .inr (h.read serves pos), h.remaining⟩

namespace Channel

variable {σ : Type} {Fails : σ → Prop} {Serves : σ → List UInt8 → Prop} {c : Channel σ}
  {bytes : List UInt8} {n : Nat}

/-- The channel has `bytes` to deliver: what is left of its block, then what its storage serves. -/
def Pending (Serves : σ → List UInt8 → Prop) (c : Channel σ) (bytes : List UInt8) : Prop :=
  ∃ tail, Serves c.storage tail ∧ bytes = c.block.toList.drop c.delivered ++ tail

theorem pending_ofStorage {s : σ} (h : Serves s bytes) : Pending Serves (ofStorage s) bytes :=
  ⟨bytes, h, rfl⟩

theorem length_drop_block (c : Channel σ) :
    (c.block.toList.drop c.delivered).length = c.unread := by
  rw [List.length_drop, Array.length_toList, unread]

theorem toList_takePortion (c : Channel σ) (n : Nat) :
    (c.takePortion n).1.toList = (c.block.toList.drop c.delivered).take n := by
  rw [takePortion, Array.toList_extract, List.extract_eq_take_drop, Nat.add_sub_cancel_left]

theorem size_takePortion (c : Channel σ) (n : Nat) : (c.takePortion n).1.size = min n c.unread := by
  rw [← Array.length_toList, toList_takePortion, List.length_take, length_drop_block]

theorem pending_takePortion (h : Pending Serves c bytes) (n : Nat) :
    (c.takePortion n).1.toList = bytes.take (c.takePortion n).1.size ∧
      Pending Serves (c.takePortion n).2 (bytes.drop (c.takePortion n).1.size) := by
  obtain ⟨tail, hserves, rfl⟩ := h
  have hsize : (c.takePortion n).1.size ≤ (c.block.toList.drop c.delivered).length := by
    rw [size_takePortion, length_drop_block]
    omega
  refine ⟨?_, tail, hserves, ?_⟩
  · rw [List.take_append_of_le_length hsize, toList_takePortion, size_takePortion,
      ← length_drop_block, ← List.take_eq_take_min]
  · rw [List.drop_append_of_le_length hsize, List.drop_drop]
    rfl

variable [Storage σ]

/-- Reading the next block changes nothing of what is delivered, and brings bytes if there are
any. -/
theorem nextBlock_of_reads (hreads : Reads Fails Serves) (h : Pending Serves c bytes) :
    (∃ failure c', c.nextBlock = (some failure, c') ∧ Fails c'.storage) ∨
      ∃ c', c.nextBlock = (none, c') ∧ Pending Serves c' bytes ∧ (c'.unread = 0 → bytes = []) := by
  obtain ⟨tail, hserves, hbytes⟩ := h
  by_cases hunread : c.unread = 0
  · have hblock : c.block.toList.drop c.delivered = [] :=
      List.length_eq_zero_iff.1 ((length_drop_block c).trans hunread)
    rw [hblock, List.nil_append] at hbytes
    subst hbytes
    rw [nextBlock, if_neg (by omega)]
    rcases hreads.read hserves (show 0 < blockSize by decide) with
      ⟨failure, s', hread, hfails⟩ | ⟨block, s', hread, hfirst, hempty, hserves'⟩
    · rw [hread]
      exact .inl ⟨failure, _, rfl, hfails⟩
    · rw [hread]
      refine .inr ⟨{ storage := s', block }, rfl, ⟨_, hserves', ?_⟩, hempty⟩
      rw [List.drop_zero, hfirst, List.take_append_drop]
  · exact .inr ⟨c, by rw [nextBlock, if_pos hunread], ⟨tail, hserves, hbytes⟩,
      fun h => absurd h hunread⟩

theorem deliver_of_reads (hreads : Reads Fails Serves) (h : Pending Serves c bytes) (n : Nat)
    (earlier : Array UInt8) :
    (∃ came failure c', c.deliver n earlier = (⟨came, some failure⟩, c') ∧ Fails c'.storage) ∨
      ∃ c', c.deliver n earlier = (⟨earlier.toList ++ bytes.take n, none⟩, c') ∧
        Pending Serves c' (bytes.drop n) := by
  induction n using Nat.strongRecOn generalizing c bytes earlier with
  | ind n ih =>
    rw [deliver.eq_def]
    by_cases hn : n = 0
    · subst hn
      exact .inr ⟨c, by simp, h⟩
    rw [if_neg hn]
    rcases nextBlock_of_reads hreads h with
      ⟨failure, c', hnext, hfails⟩ | ⟨c₁, hnext, hpending, hempty⟩
    · rw [hnext]
      exact .inl ⟨_, failure, c', rfl, hfails⟩
    obtain ⟨hportion, hlater⟩ := pending_takePortion hpending n
    have hsize := size_takePortion c₁ n
    rw [hnext]
    simp only
    set portion := (c₁.takePortion n).1
    rcases Nat.eq_zero_or_pos portion.size with hnone | hsome
    · have hbytes : bytes = [] := hempty (by omega)
      subst hbytes
      rw [if_pos (Array.isEmpty_iff_size_eq_zero.2 hnone)]
      exact .inr ⟨(c₁.takePortion n).2, by simp, by simpa using hlater⟩
    · have hsplit : n = portion.size + (n - portion.size) := by omega
      rw [if_neg (by rw [Array.isEmpty_iff_size_eq_zero]; omega)]
      refine (ih (n - portion.size) (by omega) hlater (earlier ++ portion)).imp_right ?_
      rintro ⟨c₂, hdeliver, hlater'⟩
      refine ⟨c₂, ?_, ?_⟩
      · rw [hdeliver, Array.toList_append, List.append_assoc, hportion, ← List.take_add, ← hsplit]
      · rwa [List.drop_drop, ← hsplit] at hlater'

/-- A channel delivers the bytes of its storage, as many as are asked for, or fails with it. -/
theorem receive_of_reads (hreads : Reads Fails Serves) (h : Pending Serves c bytes) (n : Nat) :
    (∃ came failure c', c.receive n = (⟨came, some failure⟩, c') ∧ Fails c'.storage) ∨
      ∃ c', c.receive n = (⟨bytes.take n, none⟩, c') ∧ Pending Serves c' (bytes.drop n) := by
  have hdeliver := deliver_of_reads hreads h n #[]
  rwa [Array.toList_empty, List.nil_append] at hdeliver

theorem readSome_of_reads (hreads : Reads Fails Serves) (h : Pending Serves c bytes)
    (n : Nat) :
    (∃ e c', c.readSome n = (.error e, c') ∧ Fails c'.storage) ∨
      ∃ c', c.readSome n = (.ok (bytes.take n), c') ∧ Pending Serves c' (bytes.drop n) := by
  rw [readSome]
  rcases receive_of_reads hreads h n with
    ⟨came, failure, c', hreceive, hfails⟩ | ⟨c', hreceive, hpending⟩
  · rw [hreceive]
    exact .inl ⟨_, c', rfl, hfails⟩
  · rw [hreceive]
    exact .inr ⟨c', rfl, hpending⟩

theorem readExact_of_reads (hreads : Reads Fails Serves) (h : Pending Serves c bytes)
    (n : Nat) :
    (∃ e c', c.readExact n = (.error e, c') ∧ Fails c'.storage) ∨
      ∃ c', c.readExact n =
          (if bytes.length < n then .error .endOfData else .ok (bytes.take n), c') ∧
        Pending Serves c' (bytes.drop n) := by
  have hlength : (bytes.take n).length < n ↔ bytes.length < n := by
    rw [List.length_take]
    omega
  rw [readExact]
  rcases readSome_of_reads hreads h n with ⟨e, c', hread, hfails⟩ | ⟨c', hread, hpending⟩
  · rw [hread]
    exact .inl ⟨e, c', rfl, hfails⟩
  · rw [hread]
    exact .inr ⟨c', by simp only [hlength], hpending⟩

theorem length_le_of_lapses (hlapses : Lapses Fails Serves) (h : Pending Serves c bytes) :
    bytes.length ≤ c.remaining := by
  obtain ⟨tail, hserves, rfl⟩ := h
  have := hlapses.remaining hserves
  rw [List.length_append, length_drop_block, remaining]
  omega

/-- **A channel delivers the bytes of its storage**, if it has as many as are asked for. -/
theorem readExact_of_pending (hdelivers : Delivers Serves) (h : Pending Serves c bytes)
    (hn : n ≤ bytes.length) :
    ∃ c', c.readExact n = (.ok (bytes.take n), c') ∧ Pending Serves c' (bytes.drop n) := by
  have hread := (readExact_of_reads hdelivers.lapses.reads h n).resolve_left (by simp)
  rwa [if_neg (by omega)] at hread

end Channel

/-! ### Storage in memory -/

namespace MemoryStore

/-- The storage holds `data` and serves the bytes from its position on. -/
def Serves (data : List UInt8) (s : MemoryStore) (bytes : List UInt8) : Prop :=
  s.data = data.toArray ∧ bytes = data.drop s.position

/-- A read gives the data from the position on, as much as is asked for and there is. -/
theorem read_of_data {data : List UInt8} {s : MemoryStore} (h : s.data = data.toArray) {n : Nat}
    (hpos : 0 < n) :
    (s.read n).1.toList = (data.drop s.position).take (s.read n).1.size ∧
      ((s.read n).1.size = 0 → data.length ≤ s.position) := by
  have hread : (s.read n).1.toList = (data.drop s.position).take n := by
    rw [read, h, Array.toList_extract, List.extract_eq_take_drop, Nat.add_sub_cancel_left]
  have hsize : (s.read n).1.size = min n (data.length - s.position) := by
    rw [← Array.length_toList, hread, List.length_take, List.length_drop]
  refine ⟨?_, fun hnone => ?_⟩
  · rw [hread, hsize, ← List.length_drop, ← List.take_eq_take_min]
  · omega

theorem delivers (data : List UInt8) : Delivers (Serves data) where
  read := by
    rintro s _ n ⟨hdata, rfl⟩ hpos
    obtain ⟨hfirst, hempty⟩ := read_of_data hdata hpos
    refine ⟨_, _, rfl, hfirst, fun hnone => List.drop_eq_nil_of_le (hempty hnone), hdata, ?_⟩
    rw [List.drop_drop]
  remaining := by
    rintro ⟨_, position⟩ _ ⟨rfl, rfl⟩
    rw [List.length_drop]
    exact Nat.le_refl _

theorem serves_ofList (data : List UInt8) : Serves data (ofList data) data := ⟨rfl, rfl⟩

/-- The largest position that a seek can reach. -/
def maxPosition : Nat := Int64.maxValue.toNatClampNeg

/-- A seek to any position up to the largest brings the storage there. -/
theorem seek_start {n : Nat} (hn : n ≤ maxPosition) (s : MemoryStore) :
    s.seek (.start (UInt64.ofNat n)) = (.ok n, { s with position := n }) := by
  have hlt : n < 2 ^ 63 := by
    have hmax : maxPosition = 9223372036854775807 := by decide
    omega
  have htarget : s.target (.start (UInt64.ofNat n)) = Int64.ofNat n := UInt64.toInt64_ofNat'
  have hpos : ¬ Int64.ofNat n < 0 := by
    rw [Int64.lt_iff_toInt_lt, Int64.toInt_ofNat_of_lt hlt]
    simp
  rw [seek]
  simp only [htarget, if_neg hpos, Int64.toNatClampNeg_ofNat_of_lt hlt]

end MemoryStore

namespace Channel

theorem seek_start {data bytes : List UInt8} {c : Channel MemoryStore} {n : Nat}
    (h : Pending (MemoryStore.Serves data) c bytes) (hn : n ≤ MemoryStore.maxPosition) :
    ∃ c', c.seek (.start (UInt64.ofNat n)) = (.ok n, c') ∧
      Pending (MemoryStore.Serves data) c' (data.drop n) := by
  obtain ⟨tail, hserves, -⟩ := h
  refine ⟨.ofStorage { c.storage with position := n }, ?_, pending_ofStorage ⟨hserves.1, rfl⟩⟩
  rw [seek, show Storage.seek (.start (UInt64.ofNat n)) c.storage = _ from
    MemoryStore.seek_start hn c.storage]
  rfl

end Channel

end AnnexB
