/-
# Playing an indexed source again and again

All access units that a source hands out are counted through, over the passes, from 0 on.  The
source has `n` of them in its index:

| what | of access unit `k` |
| --- | --- |
| payloads, start codes, markers | those of entry `k % n` of the index |
| time | stamp `k` |
| numbers in decoding order | as many as samples were handed out before, and on from there |

The state behind `k` access units is given in closed form by `Replaying`.  A call keeps it so
(`next_of_replaying`) until the last pass is over, and so any number of calls does
(`after_of_replaying`).
-/

import AnnexB.Proofs.Passes
import AnnexB.Proofs.Streaming

namespace AnnexB

open NalSpan

namespace IndexedSource

variable {data : List UInt8} {s : IndexedSource MemoryStore} {k : Nat}

/-- The number of samples in the first `k` access units of all passes over `units`. -/
def samplesBefore (units : List (List NalSpan)) : (k : Nat) → Nat
  | 0 => 0
  | k + 1 => samplesBefore units k + (units[k % units.length]?.getD []).length

/-- Access unit `k` of all passes over the entries `units` of an index. -/
def replayed (data : List UInt8) (config : SourceConfig) (units : List (List NalSpan)) (k : Nat) :
    AccessUnit :=
  let unit := units[k % units.length]?.getD []
  unit.mapIdx fun i u =>
    { Sample.ofPayload (u.payload data) with
      time := config.mode.stamp k
      startCode := some u.startCode
      marker := i + 1 == unit.length
      decodingOrder :=
        Extractor.decodingOrderAt config.mediaType.codec 0 (samplesBefore units k + i) }

/-- Marking, stamping and numbering, said of each sample by itself. -/
theorem numberSamples_eq_replayed (config : SourceConfig) (units : List (List NalSpan)) (k : Nat) :
    let codec := config.mediaType.codec
    let unit := units[k % units.length]?.getD []
    Extractor.numberSamples (.withNumber codec (UInt16.ofNat (samplesBefore units k)))
        (AccessUnit.markLast
          (unit.map (Extractor.sampleOfSpan data.toArray (config.mode.stamp k)))) =
      (replayed data config units k,
        .withNumber codec (UInt16.ofNat (samplesBefore units (k + 1)))) := by
  intro codec unit
  rw [Extractor.numberSamples_withNumber, Extractor.length_markLast, List.length_map, samplesBefore,
    Prod.mk.injEq]
  refine ⟨List.ext_getElem? fun i => ?_, rfl⟩
  rw [Extractor.getElem?_numbered, Extractor.getElem?_markLast, Extractor.number_withNumber_add,
    Extractor.decodingOrderAt_ofNat, List.getElem?_map, List.length_map, replayed,
    List.getElem?_mapIdx, Option.map_map, Option.map_map]
  refine Option.map_congr fun u _ => ?_
  rw [Function.comp_apply, Function.comp_apply, Extractor.sampleOfSpan_eq]
  rfl

/-! ### One call after another -/

/-- A source stands behind `k` access units of all its passes, where another one comes. -/
structure Replaying (data : List UInt8) (s : IndexedSource MemoryStore) (k : Nat) : Prop where
  intact : s.intact = true
  channel : ∃ c bytes, s.channel = some c ∧ c.Pending (MemoryStore.Serves data) bytes
  units : s.units = Extractor.groupedSpans s.config.mediaType.codec data
  boundary : s.boundary =
    .withNumber s.config.mediaType.codec (UInt16.ofNat (samplesBefore s.units k))
  cursor : s.cursor = .behind s.config.replay s.units.length k

theorem Replaying.isGood (h : Replaying data s k) : s.isGood = true := by
  rw [IndexedSource.isGood, h.intact, h.cursor]
  rfl

/-- **A call hands out the access unit that comes,** and the source stands behind it, or is at its
end. -/
theorem next_of_replaying (hdata : data.length ≤ MemoryStore.maxPosition)
    (hunits : s.units ≠ []) (h : Replaying data s k)
    (hk : s.config.replay.Includes s.units.length k) :
    ∃ s', s.next = (replayed data s.config s.units k, s') ∧ s'.config = s.config ∧
      s'.units = s.units ∧
      if s.config.replay.Includes s.units.length (k + 1) then Replaying data s' (k + 1)
      else s'.isGood = false := by
  have hn : 0 < s.units.length := List.length_pos_of_ne_nil hunits
  have hposition : s.cursor.position = k % s.units.length := by rw [h.cursor]; rfl
  have hserved : s.cursor.served = UInt64.ofNat k := by rw [h.cursor]; rfl
  obtain ⟨c, bytes, hchannel, hpending⟩ := h.channel
  have hentry : s.units[k % s.units.length]? = some (s.units[k % s.units.length]?.getD []) := by
    rw [List.getElem?_eq_getElem (Nat.mod_lt k hn), Option.getD_some]
  obtain ⟨c', bytes', hpending', hread⟩ :=
    readUnit_of_pending hchannel hpending h.units hdata (by rwa [hposition])
  rw [hserved, TimestampMode.stamp_toNat, h.boundary, numberSamples_eq_replayed] at hread
  have hnext : s.next = (replayed data s.config s.units k, { s with
      channel := some c'
      boundary :=
        .withNumber s.config.mediaType.codec (UInt16.ofNat (samplesBefore s.units (k + 1)))
      cursor := s.cursor.advance }) := by
    rw [next, h.isGood, hread]
    rfl
  refine ⟨_, hnext, rfl, rfl, ?_⟩
  have hadvance := ReplayCursor.advance_behind hn hk
  rw [← h.cursor] at hadvance
  by_cases hlater : s.config.replay.Includes s.units.length (k + 1)
  · rw [if_pos hlater] at hadvance ⊢
    exact ⟨h.intact, ⟨c', bytes', rfl, hpending'⟩, h.units, rfl, hadvance⟩
  · rw [if_neg hlater] at hadvance ⊢
    rw [IndexedSource.isGood, hadvance, Bool.not_true, Bool.and_false]

/-- Any number of calls leads to the state behind as many access units, or to the end. -/
theorem after_of_replaying (hdata : data.length ≤ MemoryStore.maxPosition)
    (hunits : s.units ≠ []) (h : Replaying data s 0) (k : Nat) :
    let s' := MediaSource.after s k
    if s.config.replay.Includes s.units.length k then
      s'.config = s.config ∧ s'.units = s.units ∧ Replaying data s' k
    else MediaSource.Spent s' := by
  intro s'
  refine @MediaSource.after_of_passes _ _ _ _ (List.length_pos_of_ne_nil hunits)
    (fun t k => t.config = s.config ∧ t.units = s.units ∧ Replaying data t k) ?_ s ⟨rfl, rfl, h⟩ k
  rintro t k ⟨hconfig, hsame, hstate⟩ hk
  rw [← hconfig, ← hsame] at hk ⊢
  obtain ⟨t', hnext, hconfig', hsame', hlater⟩ :=
    next_of_replaying hdata (hsame ▸ hunits) hstate hk
  rw [show MediaSource.next t = _ from hnext]
  by_cases hnextk : t.config.replay.Includes t.units.length (k + 1)
  · rw [if_pos hnextk] at hlater ⊢
    exact ⟨hconfig', hsame', hlater⟩
  · rw [if_neg hnextk] at hlater ⊢
    exact spent_of_not_isGood hlater

/-- A source over an input with access units stands at the first one. -/
theorem replaying_ofChannel {bytes : List UInt8} {c : Channel MemoryStore}
    (h : c.Pending (MemoryStore.Serves data) bytes) (config : SourceConfig)
    (hunits : (ofChannel c config).units ≠ []) :
    Replaying data (ofChannel c config) 0 ∧ (ofChannel c config).config = config := by
  obtain ⟨c', hdone, hsource⟩ := ofChannel_of_pending h config
  rw [hsource] at hunits ⊢
  by_cases hnone : nalSpans data = []
  · rw [if_pos hnone] at hunits
    exact absurd rfl hunits
  · rw [if_neg hnone] at hunits ⊢
    exact ⟨⟨rfl, ⟨c', [], rfl, hdone⟩, rfl, (Boundary.withNumber_zero _).symm,
      ReplayCursor.start_eq_behind (List.length_pos_of_ne_nil hunits)⟩, rfl⟩

/-- **What an indexed source hands out when it is played again and again.**  Call `k` of a source
over an input in memory with access units gives entry `k % n` of the index, stamped with `k` and
numbered on from the samples handed out before, and nothing once all passes are over; the source is
good exactly before that.  The ranges that are read of the input, and cut out of what was read, are
never out of bounds. -/
theorem next_after_ofChannel (hdata : data.length ≤ MemoryStore.maxPosition)
    (config : SourceConfig)
    (hunits :
      (ofChannel (Channel.ofStorage (MemoryStore.ofList data)) config).units ≠ []) (k : Nat) :
    let source := ofChannel (Channel.ofStorage (MemoryStore.ofList data)) config
    let n := source.units.length
    let s := MediaSource.after source k
    source.units = Extractor.groupedSpans config.mediaType.codec data ∧
      (MediaSource.next s).1 =
        (if config.replay.Includes n k then replayed data config source.units k else []) ∧
      (MediaSource.isGood s = true ↔ config.replay.Includes n k) ∧
      (config.replay.Includes n k → s.units = source.units ∧ s.cursor.position = k % n) ∧
      ∀ unit ∈ source.units, WithinSpan data unit := by
  intro source n s
  obtain ⟨hstart, hconfig⟩ := replaying_ofChannel
    (Channel.pending_ofStorage (MemoryStore.serves_ofList data)) config hunits
  have hindex : source.units = Extractor.groupedSpans config.mediaType.codec data :=
    hconfig ▸ hstart.units
  have hstate := after_of_replaying hdata hunits hstart k
  have hrange : ∀ unit ∈ source.units, WithinSpan data unit := by
    intro unit hunit
    rw [hindex] at hunit
    exact (inOrder_of_mem_groupedSpans hunit).withinSpan (Boundary.ne_nil_of_mem_group _ _ hunit)
  rw [hconfig] at hstate
  by_cases hk : config.replay.Includes n k
  · rw [if_pos hk] at hstate
    obtain ⟨hconfig', hsame, hstate⟩ := hstate
    have hposition : s.cursor.position = k % n := by
      rw [hstate.cursor, hsame]
      rfl
    obtain ⟨s', hnext, -⟩ := next_of_replaying hdata (hsame ▸ hunits) hstate
      (by rwa [hconfig', hsame])
    rw [hconfig', hsame] at hnext
    refine ⟨hindex, ?_, iff_of_true hstate.isGood hk, fun _ => ⟨hsame, hposition⟩, hrange⟩
    rw [if_pos hk]
    exact congrArg Prod.fst hnext
  · rw [if_neg hk] at hstate
    refine ⟨hindex, ?_, iff_of_false (Bool.eq_false_iff.1 hstate.isGood) hk,
      fun h => absurd h hk, hrange⟩
    rw [if_neg hk]
    exact congrArg Prod.fst hstate.next

/-- Two access units, played twice: the second one comes again as number 3, the last. -/
theorem next_after_ofChannel_twice :
    let data := [0, 0, 1, 70, 1, 80, 0, 0, 1, 70, 1, 16]
    let config : SourceConfig :=
      { mediaType := .h265, replay := .repeating 1, mode := .untimed }
    let source := ofChannel (Channel.ofStorage (MemoryStore.ofList data)) config
    data.length ≤ MemoryStore.maxPosition ∧ source.units ≠ [] ∧
      (MediaSource.next (MediaSource.after source 3)).1 =
        [{ data := .ofList [70, 1, 16], startCode := some .short, marker := true
           decodingOrder := some 3 }] ∧
      MediaSource.isGood (MediaSource.after source 3) = true ∧
      (MediaSource.next (MediaSource.after source 4)).1 = [] ∧
      MediaSource.isGood (MediaSource.after source 4) ≠ true := by
  intro data config source
  have hindex : source.units =
      [[⟨0, .short, 3, 3, [70, 1, 80]⟩], [⟨6, .short, 9, 3, [70, 1, 16]⟩]] := by decide +kernel
  have hunits : source.units ≠ [] := by rw [hindex]; simp
  have hdata : data.length ≤ MemoryStore.maxPosition := by decide
  have hin : config.replay.Includes source.units.length 3 := by rw [hindex]; decide
  have hout : ¬config.replay.Includes source.units.length 4 := by rw [hindex]; decide
  obtain ⟨-, hlast, hgood, -⟩ := next_after_ofChannel hdata config hunits 3
  obtain ⟨-, hnone, hend, -⟩ := next_after_ofChannel hdata config hunits 4
  refine ⟨hdata, hunits, ?_, hgood.2 hin, ?_, mt hend.1 hout⟩
  · rw [hlast, if_pos hin, show (ofChannel _ config).units = _ from hindex]
    rfl
  · rw [hnone, if_neg hout]

end IndexedSource

end AnnexB
