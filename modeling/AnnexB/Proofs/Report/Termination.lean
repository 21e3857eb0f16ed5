/-
# Every run ends

What bounds the rounds of a report:

| source | bound |
| --- | --- |
| indexed, with an end of its passes | the access units left, as its cursor counts them |
| indexed, replayed without end | the limit, without which the run is refused |
| read as a stream | the samples to come, of which each access unit has one at least |

A read that fails ends the source, so none of this depends on what the storage does.  Every run is
refused, or it is a report whose loop ends (`Options.run_ends`).
-/

import AnnexB.Proofs.Files
import AnnexB.Proofs.Report.Loop

namespace AnnexB

/-! ### Access units left -/

namespace ReplayCursor

variable {c : ReplayCursor} {n : Nat}

/-- The cursor stands at an access unit, with at most `n` left, or is at the end. -/
def Leaves (c : ReplayCursor) (n : Nat) : Prop :=
  c.atEnd = false → c.position < c.length ∧ ∃ m ≤ n, c.left = some m

/-- Where there is an access unit, one is left. -/
theorem left_ne_zero (hlive : c.atEnd = false) (hposition : c.position < c.length) :
    c.left ≠ some 0 := by
  unfold left
  rw [hlive]
  simp only [Bool.false_eq_true, if_false]
  split
  · nofun
  · rw [ne_eq, Option.some.injEq]
    omega

theorem Leaves.atEnd (h : c.Leaves 0) : c.atEnd = true := by
  by_contra hlive
  rw [Bool.not_eq_true] at hlive
  obtain ⟨hposition, m, hm, hleft⟩ := h hlive
  obtain rfl := Nat.le_zero.1 hm
  exact left_ne_zero hlive hposition hleft

/-- One access unit less is left. -/
theorem left_advance (hlive : c.atEnd = false) (hposition : c.position < c.length)
    (hleft : c.left = some (n + 1)) : c.advance.left = some n := by
  unfold left at hleft
  rw [hlive] at hleft
  simp only [Bool.false_eq_true, if_false] at hleft
  split at hleft
  · cases hleft
  · have hends : c.replay.isEndless = false := Bool.eq_false_iff.2 ‹_›
    rw [Option.some.injEq] at hleft
    unfold advance
    simp only [hends, Bool.false_or, Bool.and_eq_true, decide_eq_true_iff]
    split
    · -- inside of a pass
      simp only [left, hlive, hends, Bool.false_eq_true, if_false, Option.some.injEq]
      omega
    · split
      · -- at the end of a pass with another one behind it
        obtain ⟨henabled, hlt⟩ := ‹c.replay.enabled = true ∧ c.completedPasses < c.replay.count›
        rw [UInt32.lt_iff_toNat_lt] at hlt
        have hcount := c.replay.count.toNat_lt
        have hpasses : (c.completedPasses + 1).toNat = c.completedPasses.toNat + 1 := by
          rw [UInt32.toNat_add]
          exact Nat.mod_eq_of_lt (by simp only [UInt32.toNat_one]; omega)
        obtain ⟨more, hmore⟩ : ∃ more, c.replay.count.toNat - c.completedPasses.toNat = more + 1 :=
          ⟨_, (Nat.succ_pred_eq_of_pos (Nat.sub_pos_of_lt hlt)).symm⟩
        have hmore' : c.replay.count.toNat - (c.completedPasses.toNat + 1) = more := by omega
        rw [henabled, if_pos rfl, hmore, Nat.succ_mul] at hleft
        simp only [left, hlive, hends, henabled, hpasses, hmore', Bool.false_eq_true, if_false,
          if_true, Option.some.injEq]
        omega
      · -- at the end of the last pass
        have hnone :
            (if c.replay.enabled then c.replay.count.toNat - c.completedPasses.toNat else 0) = 0 := by
          split
          · have hlast : ¬c.completedPasses.toNat < c.replay.count.toNat := fun hlt =>
              ‹¬(_ ∧ _)› ⟨‹_›, UInt32.lt_iff_toNat_lt.2 hlt⟩
            omega
          · rfl
        rw [hnone, Nat.zero_mul] at hleft
        simp only [left, if_true, Option.some.injEq]
        omega

theorem Leaves.advance (h : c.Leaves (n + 1)) (hlive : c.atEnd = false) : c.advance.Leaves n := by
  obtain ⟨hposition, m, hm, hleft⟩ := h hlive
  intro hlater
  refine ⟨position_lt_of_advance hposition hlater, ?_⟩
  rcases m with _ | m
  · exact absurd hleft (left_ne_zero hlive hposition)
  · exact ⟨m, Nat.le_of_succ_le_succ hm, left_advance hlive hposition hleft⟩

/-- A cursor at its start leaves the access units of all passes. -/
theorem leaves_start {r : Replay} {length m : Nat} (hleft : (start r length).left = some m)
    (hle : m ≤ n) : (start r length).Leaves n := by
  intro hlive
  refine ⟨?_, m, hle, hleft⟩
  simpa [start, Nat.pos_iff_ne_zero] using hlive

/-- Only a replay without end has no bound. -/
theorem isEndless_of_left (h : c.left = none) : c.replay.isEndless = true := by
  unfold left at h
  split at h
  · cases h
  · split at h
    · assumption
    · cases h

end ReplayCursor

namespace IndexedSource

variable {σ : Type} [Storage σ] {s : IndexedSource σ}

theorem readUnit_cursor (s : IndexedSource σ) : s.readUnit.2.cursor = s.cursor := by
  unfold readUnit
  split
  · rfl
  · split
    · rfl
    · split
      · rfl
      · rfl

/-- A call that hands out an access unit was made of a good source, and advances its cursor. -/
theorem cursor_next (h : s.next.1 ≠ []) :
    s.isGood = true ∧ s.next.2.cursor = s.cursor.advance := by
  unfold next at h ⊢
  cases hgood : s.isGood with
  | false => simp [hgood] at h
  | true =>
    have hcursor := s.readUnit_cursor
    rcases hread : s.readUnit with ⟨e | unit, s'⟩
    · simp [hgood, hread] at h
    · rw [hread] at hcursor
      simpa using congrArg ReplayCursor.advance hcursor

end IndexedSource

/-! ### Access units of a stream -/

/-- A file serves what is behind its position, if it is open for reading; any read of it can fail. -/
theorem FileHandle.lapses :
    Lapses (fun _ => True) fun (f : FileHandle) bytes => bytes = f.data.toList.drop f.position where
  read := by
    rintro ⟨file, position, access⟩ bytes n rfl hpos
    cases access with
    | reading =>
      obtain ⟨block, s', hread, hfirst, hempty, hserves'⟩ :=
        (MemoryStore.delivers file.toList).read (s := ⟨file, position⟩) ⟨rfl, rfl⟩ hpos
      cases hread
      exact .inr ⟨_, _, rfl, hfirst, hempty, hserves'.2⟩
    | writing => exact .inl ⟨_, _, rfl, trivial⟩
    | listing => exact .inl ⟨_, _, rfl, trivial⟩
  remaining := by
    rintro ⟨file, position, access⟩ bytes rfl
    rw [List.length_drop, Array.length_toList]
    exact Nat.le_refl _

namespace StreamReader

variable {σ τ : Type} [Storage σ] [Storage τ] {Fails : σ → Prop} {Serves : σ → List UInt8 → Prop}
  {Serves' : τ → List UInt8 → Prop} {r : StreamReader σ} {n : Nat}

/-- The reader hands out nothing, or fewer than `n` access units, as the same reader does over storage
that does not fail. -/
def Leaves (Serves : σ → List UInt8 → Prop) (Serves' : τ → List UInt8 → Prop) (r : StreamReader σ)
    (n : Nat) : Prop :=
  0 < n ∧ (r.next.1 = [] ∨ ∃ c rest units, Twins Serves Serves' r c rest ∧
    Plays Serves' (r.withChannel c) units ∧ units.length < n)

theorem Leaves.next (hlapses : Lapses Fails Serves) (hdelivers : Delivers Serves')
    (h : Leaves Serves Serves' r (n + 1)) (hne : r.next.1 ≠ []) :
    Leaves Serves Serves' r.next.2 n := by
  obtain ⟨-, hnone | ⟨c, rest, units, htwins, hplays, hlength⟩⟩ := h
  · exact absurd hnone hne
  · obtain ⟨r', hnext', hplays'⟩ := next_of_plays hdelivers hplays
    rcases next_of_twins hlapses hdelivers.lapses r c ⟨rest, htwins⟩ with
      ⟨a', hnext, -⟩ | ⟨unit, a', c', hnext, hother, rest', htwins'⟩
    · rw [hnext] at hne
      exact absurd rfl hne
    · rw [hother] at hnext'
      obtain ⟨hunit, rfl⟩ := Prod.mk.inj hnext'
      rw [hnext] at hne ⊢
      rcases units with _ | ⟨first, later⟩
      · exact absurd hunit hne
      · rw [List.length_cons, Nat.succ_lt_succ_iff] at hlength
        exact ⟨Nat.zero_lt_of_lt hlength, .inr ⟨c', rest', later, htwins', hplays', hlength⟩⟩

/-- The access units of a list of marked ones are no more than their samples. -/
theorem length_le_of_isMarked {units : List AccessUnit}
    (hmarked : ∀ unit ∈ units, Extractor.IsMarked unit) : units.length ≤ units.flatten.length := by
  induction units with
  | nil => exact Nat.le_refl 0
  | cons unit later ih =>
    have hlater := ih fun unit hunit => hmarked unit (List.mem_cons_of_mem _ hunit)
    have hne : 0 < unit.length := List.length_pos_of_ne_nil fun hnil =>
      (hnil ▸ hmarked unit (List.mem_cons_self ..) : Extractor.IsMarked []).elim
    rw [List.length_cons, List.flatten_cons, List.length_append]
    omega

omit [Storage τ] in
/-- A new reader leaves no more access units than its rounds allow. -/
theorem leaves_ofChannel (hlapses : Lapses Fails Serves) {c : Channel σ} {c' : Channel τ}
    {data : List UInt8} (h : c.Pending Serves data) (h' : c'.Pending Serves' data)
    (mediaType : MediaType) (mode : TimestampMode) {m : Nat}
    (hm : (ofChannel c mediaType mode).roundsLeft + 2 ≤ m) :
    Leaves Serves Serves' (ofChannel c mediaType mode) m := by
  have hfed : Fed Serves (ofChannel c mediaType mode) data :=
    ⟨h, nofun, show 0 < defaultChunkSize by decide⟩
  have hrounds := measure_le_roundsLeft hlapses hfed
  have hsamples := Extractor.length_flatten_accessUnits_le mediaType mode data
  have hunits : (Extractor.accessUnits mediaType.codec mode.stamp (.ofCodec mediaType.codec)
      data).length ≤ _ := length_le_of_isMarked Extractor.isMarked_of_mem_accessUnits
  refine ⟨by omega, .inr ⟨c', data, _, ⟨hfed, h'⟩,
    plays_ofChannel h' mediaType mode defaultChunkSize, ?_⟩⟩
  rw [measure] at hrounds
  omega

end StreamReader

/-! ### Runs -/

namespace Options

variable {o : Options} {codec : VideoCodec}

/-- A report on an indexed source ends, if its passes do or there is a limit. -/
theorem finishes_indexed {σ : Type} [Storage σ] {source : IndexedSource σ} {r : Replay}
    {n : Nat} (hcursor : source.cursor = .start r n)
    (hlimit : r.isEndless = true → o.limit ≠ none) :
    Finishes o codec source (report o codec source) := by
  refine finishes_report (fun s : IndexedSource σ => s.cursor.Leaves) ?_ ?_ ?_ ?_
  · intro s hleaves
    change s.isGood = false
    rw [IndexedSource.isGood, hleaves.atEnd]
    exact Bool.and_false _
  · intro s n hleaves hne
    obtain ⟨hgood, hcursor⟩ := IndexedSource.cursor_next hne
    rw [show (MediaSource.next s).2 = s.next.2 from rfl, hcursor]
    refine hleaves.advance ?_
    rw [IndexedSource.isGood] at hgood
    simpa using (Bool.and_eq_true_iff.1 hgood).2
  · intro n hn m hle
    change source.cursor.left = some n at hn
    rw [hcursor] at hn ⊢
    exact ReplayCursor.leaves_start hn hle
  · intro hnone
    have hendless := ReplayCursor.isEndless_of_left (show source.cursor.left = none from hnone)
    rw [hcursor] at hendless
    exact hlimit hendless

/-- A report on a file that is read as a stream ends, whatever its reads do. -/
theorem finishes_stream (f : FileHandle) (mediaType : MediaType) (mode : TimestampMode) :
    let source := StreamReader.ofChannel (.ofStorage f) mediaType mode
    Finishes o codec source (report o codec source) := by
  intro source
  have hdelivers := MemoryStore.delivers (f.data.toList.drop f.position)
  refine finishes_report
    (StreamReader.Leaves (fun f bytes => bytes = f.data.toList.drop f.position)
      (MemoryStore.Serves (f.data.toList.drop f.position))) ?_ ?_ ?_ nofun
  · rintro s ⟨hpos, -⟩
    exact absurd hpos (Nat.lt_irrefl 0)
  · exact fun s n hleaves hne => hleaves.next FileHandle.lapses hdelivers hne
  · rintro n ⟨⟩ m hle
    exact StreamReader.leaves_ofChannel FileHandle.lapses (Channel.pending_ofStorage rfl)
      (Channel.pending_ofStorage (MemoryStore.serves_ofList _)) mediaType mode hle

/-- The source of a run that indexes its input. -/
def indexed (o : Options) (s : Surroundings) (config : SourceConfig) : IndexedSource FileHandle :=
  ((s.openRead o.input).map fun f => .ofChannel (.ofStorage f) config).getD (.failed config)

theorem exists_cursor_indexed (o : Options) (s : Surroundings) (config : SourceConfig) :
    ∃ length, (o.indexed s config).cursor = .start config.replay length := by
  unfold indexed
  rcases s.openRead o.input with _ | f
  · exact ⟨0, rfl⟩
  · rw [Option.map_some, Option.getD_some]
    unfold IndexedSource.ofChannel
    split
    · exact ⟨0, rfl⟩
    · exact ⟨_, rfl⟩

theorem run_of_indexed {s : Surroundings} {config : SourceConfig}
    (hresolve : o.resolve s = .ok config) (hstreaming : o.streaming = false) :
    o.run s = reportOn o s config.mediaType.codec (o.indexed s config)
      fun r => { r with channel := r.channel.map emptied } := by
  unfold run indexed
  rw [hresolve]
  simp only [hstreaming, Bool.false_eq_true, if_false, Option.map_map, Function.comp_def]

/-- Replay without end and without a limit is refused. -/
theorem resolve_eq {s : Surroundings} {config : SourceConfig} (h : o.baseConfig s = .ok config) :
    o.resolve s =
      if (o.override config).replay.isEndless && o.limit.isNone then
        .error "无限循环需要指定 --limit"
      else .ok (o.override config) := by
  unfold resolve
  rw [h]
  simp only [bind, Except.bind]
  split
  · rfl
  · rfl

/-- A configuration that is settled has a limit, if its replay does not end. -/
theorem limit_of_resolve {s : Surroundings} {config : SourceConfig} (h : o.resolve s = .ok config)
    (hendless : config.replay.isEndless = true) : o.limit ≠ none := by
  rcases hbase : o.baseConfig s with e | c
  · rw [resolve, hbase] at h
    cases h
  · rw [resolve_eq hbase] at h
    split at h
    · cases h
    · obtain rfl := Except.ok.inj h
      intro hnone
      simp [hendless, hnone] at *

/-- What goes on with an open source: the run is refused, or it is a report on the source, or on the
source with its input emptied. -/
theorem reportOn_cases {α : Type} [MediaSource α] (s : Surroundings) (source : α)
    (emptied : α → α) :
    (∃ e, reportOn o s codec source emptied = .refused e) ∨
      ∃ source' ∈ [source, emptied source],
        reportOn o s codec source emptied = report o codec source' := by
  unfold reportOn
  split
  · exact .inl ⟨_, rfl⟩
  · split
    · exact .inr ⟨source, by simp, rfl⟩
    · split
      · exact .inl ⟨_, rfl⟩
      · split
        · exact .inl ⟨_, rfl⟩
        · refine .inr ⟨_, ?_, rfl⟩
          split <;> simp

/-- **Every run ends.**  It is refused, or it is a report on an indexed source or on a stream whose loop
ends. -/
theorem run_ends (o : Options) (s : Surroundings) :
    (∃ e, o.run s = .refused e) ∨ ∃ config, o.resolve s = .ok config ∧
      ((∃ source : IndexedSource FileHandle, Finishes o config.mediaType.codec source (o.run s)) ∨
        ∃ source : StreamReader FileHandle,
          Finishes o config.mediaType.codec source (o.run s)) := by
  rcases hresolve : o.resolve s with e | config
  · left
    refine ⟨e, ?_⟩
    rw [run, hresolve]
  cases hstreaming : o.streaming with
  | false =>
    obtain ⟨length, hcursor⟩ := o.exists_cursor_indexed s config
    rw [run_of_indexed hresolve hstreaming]
    refine (reportOn_cases s _ _).imp_right ?_
    rintro ⟨source, hsource, hreport⟩
    refine ⟨config, rfl, .inl ⟨source, ?_⟩⟩
    rw [hreport]
    refine finishes_indexed (n := length) ?_ (limit_of_resolve hresolve)
    rcases List.mem_pair.1 hsource with rfl | rfl
    · exact hcursor
    · exact hcursor
  | true =>
    unfold run
    simp only [hresolve, hstreaming, if_true]
    rcases s.openRead o.input with _ | f
    · exact .inl ⟨_, rfl⟩
    · simp only [Option.map_some]
      refine (reportOn_cases s _ _).imp_right ?_
      rintro ⟨source, hsource, hreport⟩
      refine ⟨config, rfl, .inr ⟨source, ?_⟩⟩
      rw [hreport]
      rcases List.mem_pair.1 hsource with rfl | rfl
      · exact finishes_stream f config.mediaType config.mode
      · exact finishes_stream f.emptied config.mediaType config.mode

end Options

end AnnexB
