/-
# What a summary says of access units

A summary is built up access unit by access unit.  `Summary.Totals` says of one that is done what its
totals are, in terms of the payloads alone:

| total | of the access units |
| --- | --- |
| access units, samples, bytes | their number, that of their payloads, that of the bytes in these |
| most bytes | what none of them exceeds, and one of them has, or 0 |
| VCL units, random access units | the number of payloads, or access units, of that kind |
| NAL unit types | in the order of their names, each that occurs, with its number (`Tally`) |

All of them fit in words of 64 bits if the samples and the bytes do (`Totals.fitsWords`).

Access units that come `m` times over have `m` times the totals of one pass, and the same most bytes
(`Totals.isMultiple`).
-/

import Mathlib.Algebra.GroupWithZero.Nat
import Mathlib.Data.List.Induction
import Mathlib.Data.List.Sort
import Mathlib.Data.String.Basic
import AnnexB.Report.Summary

namespace AnnexB

namespace Summary

/-! ### Names and their numbers -/

/-- Each of `names` is counted, in order. -/
structure Tally (names : List String) (counted : List (String × Nat)) : Prop where
  sorted : counted.Pairwise fun p q => p.1 < q.1
  mem_iff (name : String) (n : Nat) : (name, n) ∈ counted ↔ 0 < n ∧ n = names.count name

variable {name other : String} {n : Nat} {names : List String} {counted : List (String × Nat)}

/-- The number of another name stays. -/
theorem mem_countName_of_ne (hne : other ≠ name) :
    (other, n) ∈ countName name counted ↔ (other, n) ∈ counted := by
  induction counted with
  | nil => simp [countName, hne]
  | cons p rest ih =>
    obtain ⟨first, k⟩ := p
    unfold countName
    split
    · simp_all
    · split <;> simp_all

/-- The number of the name is one more, or is 1 where there was none. -/
theorem mem_countName_self (hsorted : counted.Pairwise fun p q => p.1 < q.1) :
    (name, n) ∈ countName name counted ↔
      (∃ k, (name, k) ∈ counted ∧ n = k + 1) ∨ ((∀ k, (name, k) ∉ counted) ∧ n = 1) := by
  induction counted with
  | nil => simp [countName]
  | cons p rest ih =>
    obtain ⟨first, k⟩ := p
    obtain ⟨hfirst, hrest⟩ := List.pairwise_cons.1 hsorted
    unfold countName
    split
    · -- the name stands here, and not behind
      have hlater : ∀ k, (name, k) ∉ rest := fun k hk =>
        absurd (hfirst _ hk) (by simp [‹name = first›])
      simp [‹name = first›, ‹name = first› ▸ hlater]
    · split
      · -- the names from here on are greater
        have hlater : ∀ k, (name, k) ∉ rest := fun k hk =>
          absurd (hfirst _ hk) (lt_asymm ‹name < first›)
        simp [‹¬name = first›, hlater]
      · simp [‹¬name = first›, ih hrest]

theorem sorted_countName (hsorted : counted.Pairwise fun p q => p.1 < q.1) (name : String) :
    (countName name counted).Pairwise fun p q => p.1 < q.1 := by
  induction counted with
  | nil => exact List.pairwise_singleton ..
  | cons p rest ih =>
    obtain ⟨first, k⟩ := p
    obtain ⟨hfirst, hrest⟩ := List.pairwise_cons.1 hsorted
    unfold countName
    split
    · exact List.pairwise_cons.2 ⟨hfirst, hrest⟩
    · split
      · refine List.pairwise_cons.2 ⟨fun q hq => ?_, hsorted⟩
        rcases List.mem_cons.1 hq with rfl | hq
        · assumption
        · exact lt_trans ‹name < first› (hfirst q hq)
      · have hlt : first < name := lt_of_le_of_ne (not_lt.1 ‹¬name < first›) (Ne.symm ‹¬name = first›)
        refine List.pairwise_cons.2 ⟨fun ⟨other, n⟩ hq => ?_, ih hrest⟩
        by_cases heq : other = name
        · exact heq ▸ hlt
        · exact hfirst _ ((mem_countName_of_ne heq).1 hq)

theorem tally_nil : Tally [] [] := ⟨.nil, fun name n => by simp [Nat.pos_iff_ne_zero]⟩

/-- **One more name.** -/
theorem Tally.countName (h : Tally names counted) (name : String) :
    Tally (names ++ [name]) (countName name counted) := by
  refine ⟨sorted_countName h.sorted name, fun other n => ?_⟩
  rw [List.count_append, List.count_singleton]
  by_cases heq : other = name
  · subst heq
    rw [mem_countName_self h.sorted]
    simp only [h.mem_iff, beq_self_eq_true, if_true]
    constructor
    · rintro (⟨k, ⟨-, rfl⟩, rfl⟩ | ⟨hnone, rfl⟩)
      · omega
      · have := hnone (names.count other)
        omega
    · rintro ⟨-, rfl⟩
      by_cases hzero : names.count other = 0
      · right
        constructor
        · omega
        · omega
      · exact .inl ⟨_, ⟨Nat.pos_of_ne_zero hzero, rfl⟩, rfl⟩
  · rw [mem_countName_of_ne heq, h.mem_iff, if_neg (by simpa using Ne.symm heq), Nat.add_zero]

theorem Tally.foldl_countName (h : Tally names counted) (more : List String) :
    Tally (names ++ more) (more.foldl (fun counted name => Summary.countName name counted) counted) := by
  induction more generalizing names counted with
  | nil => simpa using h
  | cons name more ih => simpa using ih (h.countName name)

/-- There is one way to count names. -/
theorem Tally.unique {counted' : List (String × Nat)} (h : Tally names counted)
    (h' : Tally names counted') : counted = counted' := by
  have : Std.Irrefl fun p q : String × Nat => p.1 < q.1 := ⟨fun p => lt_irrefl p.1⟩
  have : Std.Antisymm fun p q : String × Nat => p.1 < q.1 :=
    ⟨fun p q hlt hgt => absurd hgt (lt_asymm hlt)⟩
  exact h.sorted.eq_of_mem_iff h'.sorted fun ⟨name, n⟩ => (h.mem_iff name n).trans
    (h'.mem_iff name n).symm

theorem count_flatten_replicate (m : Nat) (names : List String) (name : String) :
    (List.replicate m names).flatten.count name = m * names.count name := by
  simp [List.count_flatten]

/-- Names that come `m` times over have `m` times their numbers. -/
theorem Tally.replicate {m : Nat} (hm : 0 < m) (h : Tally names counted) :
    Tally (List.replicate m names).flatten (counted.map fun p => (p.1, m * p.2)) := by
  constructor
  · exact List.pairwise_map.2 h.sorted
  · intro name n
    rw [count_flatten_replicate]
    constructor
    · intro hmem
      obtain ⟨⟨_, k⟩, hk, heq⟩ := List.mem_map.1 hmem
      obtain ⟨rfl, rfl⟩ := Prod.mk.inj heq
      obtain ⟨hpos, rfl⟩ := (h.mem_iff _ _).1 hk
      exact ⟨Nat.mul_pos hm hpos, rfl⟩
    · rintro ⟨hpos, rfl⟩
      exact List.mem_map.2 ⟨_, (h.mem_iff name _).2 ⟨Nat.pos_of_mul_pos_left hpos, rfl⟩, rfl⟩

/-- The numbers of all names are the number of them all. -/
theorem sum_countName (name : String) (counted : List (String × Nat)) :
    ((Summary.countName name counted).map Prod.snd).sum = (counted.map Prod.snd).sum + 1 := by
  induction counted with
  | nil => rfl
  | cons p rest ih =>
    obtain ⟨first, k⟩ := p
    unfold Summary.countName
    split
    · simp only [List.map_cons, List.sum_cons]
      omega
    · split <;> simp only [List.map_cons, List.sum_cons] at * <;> omega

theorem sum_foldl_countName (more : List String) (counted : List (String × Nat)) :
    ((more.foldl (fun counted name => Summary.countName name counted) counted).map Prod.snd).sum =
      (counted.map Prod.snd).sum + more.length := by
  induction more generalizing counted with
  | nil => rfl
  | cons name more ih =>
    rw [List.foldl_cons, ih, sum_countName, List.length_cons]
    omega

/-! ### Totals -/

variable {codec : VideoCodec} {units : List (List (List UInt8))} {s : Summary}

/-- What the totals are, of access units with the payloads `units`. -/
structure Totals (codec : VideoCodec) (units : List (List (List UInt8))) (s : Summary) : Prop where
  accessUnits : s.accessUnits = units.length
  samples : s.samples = units.flatten.length
  bytes : s.bytes = units.flatten.flatten.length
  length_le : ∀ unit ∈ units, unit.flatten.length ≤ s.maxUnitBytes
  maxUnitBytes : s.maxUnitBytes = 0 ∨ ∃ unit ∈ units, unit.flatten.length = s.maxUnitBytes
  vclUnits : s.vclUnits = units.flatten.countP fun p => (NalHeader.ofPayload codec p).isVcl
  randomAccessUnits : s.randomAccessUnits =
    units.countP fun unit => unit.any fun p => (NalHeader.ofPayload codec p).isRandomAccess
  nalTypes :
    Tally (units.flatten.map fun p => (NalHeader.ofPayload codec p).typeName) s.nalTypes

/-- A summary at its beginning. -/
theorem totals_nil (codec : VideoCodec) (fileName mediaType : String) :
    Totals codec [] { fileName, mediaType } :=
  ⟨rfl, rfl, rfl, nofun, .inl rfl, rfl, rfl, tally_nil⟩

theorem unitBytes_eq (unit : AccessUnit) :
    unitBytes unit = (unit.map Sample.payload).flatten.length := by
  induction unit with
  | nil => rfl
  | cons sample rest ih =>
    rw [List.map_cons, List.flatten_cons, List.length_append, ← ih]
    rfl

/-- **One more access unit.** -/
theorem Totals.record (h : Totals codec units s) (unit : AccessUnit) :
    Totals codec (units ++ [unit.map Sample.payload]) (s.record codec unit) := by
  have hbytes := unitBytes_eq unit
  have hmax : (s.record codec unit).maxUnitBytes = max s.maxUnitBytes (unitBytes unit) := rfl
  constructor
  · simp [Summary.record, h.accessUnits]
  · simp [Summary.record, h.samples]
  · simp [Summary.record, h.bytes, hbytes]
  · intro unit' hunit
    rw [hmax, hbytes]
    rcases List.mem_append.1 hunit with hunit | hunit
    · exact (h.length_le unit' hunit).trans (Nat.le_max_left ..)
    · rw [List.mem_singleton.1 hunit]
      exact Nat.le_max_right ..
  · rw [hmax, hbytes]
    rcases Nat.le_total s.maxUnitBytes (unit.map Sample.payload).flatten.length with hle | hle
    · rw [Nat.max_eq_right hle]
      exact .inr ⟨_, by simp, rfl⟩
    · rw [Nat.max_eq_left hle]
      refine h.maxUnitBytes.imp_right ?_
      rintro ⟨unit', hunit, heq⟩
      exact ⟨unit', List.mem_append_left _ hunit, heq⟩
  · simp [Summary.record, h.vclUnits, Sample.header, Function.comp_def]
  · simp [Summary.record, h.randomAccessUnits, isRandomAccess, Sample.header, Function.comp_def]
  · have htypes := h.nalTypes.foldl_countName
      (unit.map fun sample => (sample.header codec).typeName)
    simpa [Summary.record, List.foldl_map, Sample.header, Function.comp_def] using htypes

/-- The numbers of the NAL unit types stay the number of samples. -/
theorem sum_nalTypes_record (codec : VideoCodec) (unit : AccessUnit)
    (h : (s.nalTypes.map Prod.snd).sum = s.samples) :
    ((s.record codec unit).nalTypes.map Prod.snd).sum = (s.record codec unit).samples := by
  have hsum := sum_foldl_countName (unit.map fun sample => (sample.header codec).typeName) s.nalTypes
  simpa [Summary.record, List.foldl_map, h] using hsum

/-- **A summary of some access units says what their totals are.** -/
theorem totals_foldl (codec : VideoCodec) (fileName mediaType : String) (units : List AccessUnit) :
    Totals codec (units.map (·.map Sample.payload))
      (units.foldl (fun s unit => s.record codec unit) { fileName, mediaType }) := by
  induction units using List.reverseRecOn with
  | nil => exact totals_nil codec fileName mediaType
  | append_singleton units unit ih =>
    rw [List.map_append, List.foldl_append]
    exact ih.record unit

/-! ### Words for the counters -/

/-- The counters of a summary are numbers of 64 bits. -/
structure FitsWords (s : Summary) : Prop where
  accessUnits : s.accessUnits < UInt64.size
  samples : s.samples < UInt64.size
  bytes : s.bytes < UInt64.size
  maxUnitBytes : s.maxUnitBytes < UInt64.size
  vclUnits : s.vclUnits < UInt64.size
  randomAccessUnits : s.randomAccessUnits < UInt64.size
  nalTypes : ∀ entry ∈ s.nalTypes, entry.2 < UInt64.size

theorem length_le_length_flatten {α : Type} {lists : List (List α)} (h : ∀ l ∈ lists, l ≠ []) :
    lists.length ≤ lists.flatten.length := by
  induction lists with
  | nil => exact Nat.le_refl _
  | cons l rest ih =>
    have hl := List.length_pos_of_ne_nil (h l (List.mem_cons_self ..))
    have hrest := ih fun l' hl' => h l' (List.mem_cons_of_mem _ hl')
    rw [List.flatten_cons, List.length_append, List.length_cons]
    omega

/-- **The samples and the bytes bound the other counters**, where no access unit is empty. -/
theorem Totals.fitsWords (h : Totals codec units s) (hunits : ∀ unit ∈ units, unit ≠ [])
    (hsamples : s.samples < UInt64.size) (hbytes : s.bytes < UInt64.size) : s.FitsWords := by
  have hlength : s.accessUnits ≤ s.samples := by
    rw [h.accessUnits, h.samples]
    exact length_le_length_flatten hunits
  have hmost : s.maxUnitBytes ≤ s.bytes := by
    rcases h.maxUnitBytes with hzero | ⟨unit, hunit, heq⟩
    · omega
    · rw [← heq, h.bytes, List.flatten_flatten]
      exact (List.sublist_flatten_of_mem (List.mem_map_of_mem hunit)).length_le
  have hvcl : s.vclUnits ≤ s.samples := by
    rw [h.vclUnits, h.samples]
    exact List.countP_le_length
  have hrandom : s.randomAccessUnits ≤ s.accessUnits := by
    rw [h.randomAccessUnits, h.accessUnits]
    exact List.countP_le_length
  refine ⟨by omega, hsamples, hbytes, by omega, by omega, by omega, ?_⟩
  rintro ⟨name, n⟩ hentry
  obtain ⟨-, rfl⟩ := (h.nalTypes.mem_iff name n).1 hentry
  refine Nat.lt_of_le_of_lt List.count_le_length ?_
  rwa [List.length_map, ← h.samples]

/-! ### Access units that come again and again -/

/-- The totals are `m` times those of another summary, and the most bytes are the same. -/
structure IsMultiple (m : Nat) (s once : Summary) : Prop where
  accessUnits : s.accessUnits = m * once.accessUnits
  samples : s.samples = m * once.samples
  bytes : s.bytes = m * once.bytes
  maxUnitBytes : s.maxUnitBytes = once.maxUnitBytes
  vclUnits : s.vclUnits = m * once.vclUnits
  randomAccessUnits : s.randomAccessUnits = m * once.randomAccessUnits
  nalTypes : s.nalTypes = once.nalTypes.map fun p => (p.1, m * p.2)

theorem length_flatten_replicate {α : Type} (m : Nat) (l : List α) :
    (List.replicate m l).flatten.length = m * l.length := by
  simp

theorem countP_flatten_replicate {α : Type} (p : α → Bool) (m : Nat) (l : List α) :
    (List.replicate m l).flatten.countP p = m * l.countP p := by
  simp [List.countP_flatten]

theorem flatten_flatten_replicate {α : Type} (m : Nat) (l : List (List α)) :
    (List.replicate m l).flatten.flatten = (List.replicate m l.flatten).flatten := by
  simp [List.flatten_flatten]

/-- The same access units have the same most bytes. -/
theorem Totals.maxUnitBytes_le {units' : List (List (List UInt8))} {s' : Summary}
    (h : Totals codec units s) (h' : Totals codec units' s') (hsub : units ⊆ units') :
    s.maxUnitBytes ≤ s'.maxUnitBytes := by
  rcases h.maxUnitBytes with hzero | ⟨unit, hunit, heq⟩
  · omega
  · rw [← heq]
    exact h'.length_le unit (hsub hunit)

/-- **Access units that come `m` times over have `m` times the totals.** -/
theorem Totals.isMultiple {m : Nat} {once : Summary} (hm : 0 < m) (honce : Totals codec units once)
    (h : Totals codec (List.replicate m units).flatten s) : IsMultiple m s once := by
  have hmem : ∀ unit, unit ∈ (List.replicate m units).flatten ↔ unit ∈ units := fun unit => by
    simp [List.mem_replicate, Nat.ne_of_gt hm]
  constructor
  · rw [h.accessUnits, honce.accessUnits, length_flatten_replicate]
  · rw [h.samples, honce.samples, flatten_flatten_replicate, length_flatten_replicate]
  · rw [h.bytes, honce.bytes, flatten_flatten_replicate, flatten_flatten_replicate,
      length_flatten_replicate]
  · exact Nat.le_antisymm (h.maxUnitBytes_le honce fun unit => (hmem unit).1)
      (honce.maxUnitBytes_le h fun unit => (hmem unit).2)
  · rw [h.vclUnits, honce.vclUnits, flatten_flatten_replicate, countP_flatten_replicate]
  · rw [h.randomAccessUnits, honce.randomAccessUnits, countP_flatten_replicate]
  · have htypes := h.nalTypes
    rw [flatten_flatten_replicate, List.map_flatten, List.map_replicate] at htypes
    exact htypes.unique (honce.nalTypes.replicate hm)

end Summary

end AnnexB
