/-
# Playing a file

A file opened for reading serves its bytes like storage in memory, and is a backend that does not fail
(`FileHandle.backend`).

What an indexed source hands out over such a backend is what it hands out over memory, call by call
(`IndexedSource.Stands`): access unit `k` of all its passes with call `k`
(`IndexedSource.next_of_stands`), until the passes are over.  So it lists as many of them as it is asked
for (`IndexedSource.units_of_stands`).
-/

import AnnexB.Storage.File
import AnnexB.Proofs.Failures.Sources
import AnnexB.Proofs.Replaying

namespace AnnexB

/-! ### Files as backends -/

namespace FileHandle

/-- The file is open for reading, holds `data`, and serves the bytes from its position on. -/
def Serves (data : List UInt8) (f : FileHandle) (bytes : List UInt8) : Prop :=
  f.access = .reading ∧ MemoryStore.Serves data ⟨f.data, f.position⟩ bytes

variable {data : List UInt8}

theorem serves_openRead (data : List UInt8) : Serves data (openRead data) data := ⟨rfl, rfl, rfl⟩

/-- **An open file is a backend that does not fail.** -/
theorem backend (hdata : data.length ≤ MemoryStore.maxPosition) :
    Backend (fun _ => False) data (Serves data) where
  read := by
    rintro ⟨file, position, _⟩ bytes n ⟨rfl, hserves⟩ hpos
    obtain ⟨block, s', hread, hfirst, hempty, hserves'⟩ :=
      (MemoryStore.delivers data).read hserves hpos
    cases hread
    exact .inr ⟨_, _, rfl, hfirst, hempty, rfl, hserves'⟩
  remaining := by
    rintro ⟨file, position, _⟩ bytes ⟨rfl, hserves⟩
    exact (MemoryStore.delivers data).remaining hserves
  seek := by
    rintro ⟨file, position, _⟩ bytes offset ⟨rfl, hserves⟩ within
    have hmax : MemoryStore.maxPosition = 9223372036854775807 := by decide
    have hmax' : Int64.maxValue.toInt = 9223372036854775807 := by decide
    refine .inr ⟨offset.toNat, ⟨file, offset.toNat, .reading⟩, ?_, rfl, hserves.1, rfl⟩
    change seek (.start offset) ⟨file, position, .reading⟩ = _
    unfold seek target
    simp only
    rw [if_neg (by omega), Int.toNat_natCast]
  size := by
    rintro ⟨file, position, _⟩ bytes n ⟨rfl, rfl, -⟩ known
    exact (Option.some.inj known).symm

end FileHandle

/-- The access units of a source that is good and does not hand out an empty one begin with that. -/
theorem MediaSource.units_succ {α : Type} [MediaSource α] {s s' : α} {unit : AccessUnit} {m : Nat}
    (hgood : MediaSource.isGood s = true) (hne : unit ≠ []) (hnext : MediaSource.next s = (unit, s')) :
    (MediaSource.units s (m + 1)).1 = unit :: (MediaSource.units s' m).1 := by
  obtain ⟨sample, rest, rfl⟩ := List.exists_cons_of_ne_nil hne
  rw [MediaSource.units, hgood, hnext]
  rfl

/-! ### Indexed sources over any backend -/

namespace IndexedSource

variable {σ : Type} {data : List UInt8} {Serves : σ → List UInt8 → Prop} {s : IndexedSource σ}
  {k : Nat}

/-- A source over memory stands behind `k` access units of all its passes, where another one comes, and
the source `s` is the same but for its channel. -/
def Stands (data : List UInt8) (Serves : σ → List UInt8 → Prop) (s : IndexedSource σ) (k : Nat) :
    Prop :=
  ∃ a c, s = withChannel a c ∧ Twins data (MemoryStore.Serves data) Serves a c ∧ Replaying data a k

section

variable (h : Stands data Serves s k)

include h

theorem Stands.units : s.units = Extractor.groupedSpans s.config.mediaType.codec data := by
  obtain ⟨a, c, rfl, -, hreplaying⟩ := h
  exact hreplaying.units

theorem Stands.isGood : s.isGood = true := by
  obtain ⟨a, c, rfl, -, hreplaying⟩ := h
  exact hreplaying.isGood

theorem Stands.cursor : s.cursor = .behind s.config.replay s.units.length k := by
  obtain ⟨a, c, rfl, -, hreplaying⟩ := h
  exact hreplaying.cursor

end

variable [Storage σ]

/-- No access unit that is handed out is empty. -/
theorem replayed_ne_nil {config : SourceConfig} {units : List (List NalSpan)} (hunits : units ≠ [])
    (hindex : units = Extractor.groupedSpans config.mediaType.codec data) (k : Nat) :
    replayed data config units k ≠ [] := by
  have hlt : k % units.length < units.length := Nat.mod_lt k (List.length_pos_of_ne_nil hunits)
  have hne : units[k % units.length] ≠ [] := by
    have hmem := List.getElem_mem hlt
    generalize units[k % units.length] = unit at hmem
    rw [hindex] at hmem
    exact Boundary.ne_nil_of_mem_group _ _ hmem
  unfold replayed
  rw [List.getElem?_eq_getElem hlt, Option.getD_some]
  simpa using hne

/-- **A call hands out the access unit that comes,** and the source stands behind it, or is at its
end. -/
theorem next_of_stands (hbackend : Backend (fun _ => False) data Serves)
    (hdata : data.length ≤ MemoryStore.maxPosition) (hunits : s.units ≠ [])
    (h : Stands data Serves s k) (hk : s.config.replay.Includes s.units.length k) :
    ∃ s', s.next = (replayed data s.config s.units k, s') ∧ s'.config = s.config ∧
      s'.units = s.units ∧
      if s.config.replay.Includes s.units.length (k + 1) then Stands data Serves s' (k + 1)
      else s'.isGood = false := by
  obtain ⟨a, c, rfl, htwins, hreplaying⟩ := h
  obtain ⟨a', hnext, hconfig, hsame, hlater⟩ := next_of_replaying hdata hunits hreplaying hk
  rcases next_of_twins (MemoryStore.backend hdata) hbackend htwins with
    ⟨_, hnone, -⟩ | ⟨unit, a₁, c', hnext₁, hother, htwins'⟩
  · rw [hnext] at hnone
    exact absurd (Prod.mk.inj hnone).1 (replayed_ne_nil hunits hreplaying.units k)
  · obtain ⟨rfl, rfl⟩ := Prod.mk.inj (hnext.symm.trans hnext₁)
    refine ⟨a'.withChannel c', hother, hconfig, hsame, ?_⟩
    change if a.config.replay.Includes a.units.length (k + 1) then _ else _
    split at hlater
    · rw [if_pos ‹_›]
      exact ⟨a', c', rfl, htwins', hlater⟩
    · rw [if_neg ‹_›]
      exact hlater

/-- The index of a source has the access units of its input. -/
theorem units_ofChannel (hbackend : Backend (fun _ => False) data Serves) {c : Channel σ}
    {bytes : List UInt8} (h : c.Pending Serves bytes) (config : SourceConfig) :
    (ofChannel c config).units = Extractor.groupedSpans config.mediaType.codec data := by
  obtain ⟨c', -, hindex⟩ := (indexInput_of_backend hbackend h).resolve_left (by simp)
  unfold ofChannel Extractor.groupedSpans
  rw [hindex]
  by_cases hnone : nalSpans data = []
  · rw [if_pos hnone, hnone]
    rfl
  · rw [if_neg hnone]

/-- A source over an input with access units stands at the first one. -/
theorem stands_ofChannel (hbackend : Backend (fun _ => False) data Serves)
    (hdata : data.length ≤ MemoryStore.maxPosition) {c : Channel σ} {bytes : List UInt8}
    (h : c.Pending Serves bytes) (config : SourceConfig)
    (hunits : (ofChannel c config).units ≠ []) :
    Stands data Serves (ofChannel c config) 0 ∧ (ofChannel c config).config = config := by
  have hmemory := Channel.pending_ofStorage (MemoryStore.serves_ofList data)
  rw [units_ofChannel hbackend h, ← units_ofChannel (MemoryStore.backend hdata) hmemory] at hunits
  obtain ⟨hreplaying, hconfig⟩ := replaying_ofChannel hmemory config hunits
  rcases twins_ofChannel (MemoryStore.backend hdata) hbackend hmemory h config with
    ⟨hspent, -⟩ | ⟨c', hsource, htwins⟩
  · exact absurd hreplaying.isGood (Bool.eq_false_iff.1 hspent.isGood)
  · rw [hsource]
    exact ⟨⟨_, c', rfl, htwins, hreplaying⟩, hconfig⟩

/-- **The access units that are listed** are the first ones of all passes, if there are as many. -/
theorem units_of_stands (hbackend : Backend (fun _ => False) data Serves)
    (hdata : data.length ≤ MemoryStore.maxPosition) (hunits : s.units ≠ []) {m : Nat}
    (h : 0 < m → Stands data Serves s k)
    (hm : ∀ j < m, s.config.replay.Includes s.units.length (k + j)) :
    (MediaSource.units s m).1 =
      (List.range m).map fun j => replayed data s.config s.units (k + j) := by
  induction m generalizing s k with
  | zero => rfl
  | succ m ih =>
    have hstands := h (Nat.succ_pos m)
    obtain ⟨s', hnext, hconfig, hsame, hlater⟩ :=
      next_of_stands hbackend hdata hunits hstands (hm 0 (Nat.succ_pos m))
    have hnextm : ∀ j < m, s.config.replay.Includes s.units.length (k + 1 + j) := fun j hj => by
      rw [Nat.add_right_comm]
      exact hm (j + 1) (Nat.succ_lt_succ hj)
    have hrest := @ih s' (k + 1) (hsame ▸ hunits)
      (fun hpos => by rwa [if_pos (hnextm 0 hpos)] at hlater) (by rwa [hconfig, hsame])
    have hne := replayed_ne_nil hunits hstands.units k
    rw [MediaSource.units_succ hstands.isGood hne hnext, hrest, List.range_succ_eq_map,
      List.map_cons, List.map_map, hconfig, hsame]
    simp only [Function.comp_def, Nat.add_zero, Nat.add_right_comm k 1, Nat.add_assoc]

end IndexedSource

end AnnexB
