/-
# Totals of a file that is played again and again

A run that reads a file by its index takes in the access units of all passes over it, one after the
other, up to the limit.  Their payloads are those of the entries of the index, over and over
(`payloadsAt`).

| run | totals |
| --- | --- |
| with a limit | of the first access units, as many as the limit, or all |
| `N` times more, without a limit | `N + 1` times those of one pass, with the same most bytes |
| without end and without a limit | none: refused, whatever the input |

Each of them ends, as every run does.
-/

import AnnexB.Proofs.Report.Termination
import AnnexB.Proofs.Report.Totals

namespace AnnexB

/-! ### Passes over an index -/

/-- The payloads of access unit `k` of all passes over an index of `data`. -/
def payloadsAt (data : List UInt8) (index : List (List NalSpan)) (k : Nat) : List (List UInt8) :=
  (index[k % index.length]?.getD []).map (NalSpan.payload data)

theorem map_payload_replayed (data : List UInt8) (config : SourceConfig)
    (index : List (List NalSpan)) (k : Nat) :
    (IndexedSource.replayed data config index k).map Sample.payload = payloadsAt data index k := by
  unfold IndexedSource.replayed payloadsAt
  refine List.ext_getElem? fun i => ?_
  rw [List.getElem?_map, List.getElem?_map, List.getElem?_mapIdx, Option.map_map]
  refine Option.map_congr fun u _ => ?_
  rw [Function.comp_apply, Sample.payload_eq_of_not_containsStartCode rfl]
  exact ByteBuffer.toList_ofList _

/-- No access unit of an index is without a payload. -/
theorem payloadsAt_ne_nil {data : List UInt8} {config : SourceConfig}
    {index : List (List NalSpan)} (hne : index ≠ [])
    (hindex : index = Extractor.groupedSpans config.mediaType.codec data) (k : Nat) :
    payloadsAt data index k ≠ [] := by
  rw [← map_payload_replayed data config index k]
  exact mt List.map_eq_nil_iff.1 (IndexedSource.replayed_ne_nil hne hindex k)

/-- The access units of `m` passes are those of one pass, `m` times over. -/
theorem map_range_mul {α : Type} (f : Nat → α) (n m : Nat) :
    (List.range (n * m)).map (fun k => f (k % n)) =
      (List.replicate m ((List.range n).map fun k => f (k % n))).flatten := by
  induction m with
  | zero => simp
  | succ m ih =>
    rw [Nat.mul_succ, List.range_add, List.map_append, ih, List.map_map, List.replicate_succ',
      List.flatten_concat]
    simp only [Function.comp_def, Nat.mul_add_mod]

/-- Units in order, and their bytes, are no more than the bytes from the first start code on. -/
theorem InOrder.length_add_le {data : List UInt8} {us : List NalSpan} (h : InOrder data us)
    {start : Nat} (hstart : ∀ u ∈ us, start ≤ u.startCodeOffset) :
    us.length + (us.map (NalSpan.payload data)).flatten.length ≤ data.length - start := by
  induction us generalizing start with
  | nil => exact Nat.zero_le _
  | cons u rest ih =>
    obtain ⟨hbehind, hpairwise⟩ := List.pairwise_cons.1 h.2
    have hrest := ih ⟨fun v hv => h.1 v (List.mem_cons_of_mem _ hv), hpairwise⟩ hbehind
    obtain ⟨hcode, hstop⟩ := h.1 u (List.mem_cons_self ..)
    have hu := hstart u (List.mem_cons_self ..)
    have hsize : 0 < u.startCode.size := by cases u.startCode <;> decide
    have hpayload : (u.payload data).length ≤ u.payloadLength := List.length_take_le ..
    have hend : u.stop = u.payloadOffset + u.payloadLength := rfl
    rw [List.length_cons, List.map_cons, List.flatten_cons, List.length_append]
    omega

/-- The payloads of an access unit, and their bytes, are no more than the bytes of the data. -/
theorem length_payloadsAt_le {data : List UInt8} {codec : VideoCodec} {index : List (List NalSpan)}
    (h : index = Extractor.groupedSpans codec data) (k : Nat) :
    (payloadsAt data index k).length + (payloadsAt data index k).flatten.length ≤ data.length := by
  unfold payloadsAt
  rcases hunit : index[k % index.length]? with _ | unit
  · exact Nat.zero_le _
  · have horder := inOrder_of_mem_groupedSpans (h ▸ List.mem_of_getElem? hunit)
    rw [Option.getD_some, List.length_map]
    exact horder.length_add_le fun u _ => Nat.zero_le _

namespace ReplayCursor

theorem left_start {r : Replay} {n : Nat} (hn : 0 < n) : (start r n).left = r.total n := by
  have hlive : (n == 0) = false := beq_false_of_ne (Nat.ne_of_gt hn)
  unfold left start Replay.total Replay.isEndless
  cases henabled : r.enabled with
  | false => simp [hlive]
  | true =>
    by_cases hcount : r.count = 0
    · simp [hlive, hcount]
    · simp [hlive, hcount, Nat.mul_add, Nat.mul_comm, Nat.add_comm]

end ReplayCursor

namespace Options

variable {o once : Options} {s s₁ : Surroundings} {config config₁ : SourceConfig}
  {data : List UInt8}

/-- The run reads the file `data` by its index, and writes no base layer. -/
structure ReadsFile (o : Options) (s : Surroundings) (config : SourceConfig) (data : List UInt8) :
    Prop where
  streaming : o.streaming = false
  baseLayer : o.baseLayer = none
  resolved : o.resolve s = .ok config
  opened : s.openRead o.input = some (.openRead data)
  length_le : data.length ≤ MemoryStore.maxPosition
  units : (o.indexed s config).units ≠ []

theorem ReadsFile.indexed_eq (h : ReadsFile o s config data) :
    o.indexed s config = .ofChannel (.ofStorage (.openRead data)) config := by
  rw [indexed, h.opened]
  rfl

theorem ReadsFile.stands (h : ReadsFile o s config data) :
    (o.indexed s config).Stands data (FileHandle.Serves data) 0 ∧
      (o.indexed s config).config = config := by
  have hunits := h.units
  rw [h.indexed_eq] at hunits ⊢
  exact IndexedSource.stands_ofChannel (FileHandle.backend h.length_le) h.length_le
    (Channel.pending_ofStorage (FileHandle.serves_openRead data)) config hunits

/-- The index of the file is that of its bytes. -/
theorem ReadsFile.units_eq (h : ReadsFile o s config data) :
    (o.indexed s config).units = Extractor.groupedSpans config.mediaType.codec data := by
  obtain ⟨hstands, hconfig⟩ := h.stands
  rw [hstands.units, hconfig]

/-- What bounds the access units of the file is the number of those in all passes. -/
theorem ReadsFile.bound (h : ReadsFile o s config data) :
    MediaSource.bound (o.indexed s config) =
      config.replay.total (o.indexed s config).units.length := by
  obtain ⟨hstands, hconfig⟩ := h.stands
  have hn := List.length_pos_of_ne_nil h.units
  change (o.indexed s config).cursor.left = _
  rw [hstands.cursor, hconfig, ← ReplayCursor.start_eq_behind hn, ReplayCursor.left_start hn]

theorem ReadsFile.run_eq (h : ReadsFile o s config data) :
    o.run s = report o config.mediaType.codec (o.indexed s config) := by
  have hgood : MediaSource.isGood (o.indexed s config) = true := h.stands.1.isGood
  rw [run_of_indexed h.resolved h.streaming, reportOn, hgood, h.baseLayer]
  rfl

/-- There is a round for each access unit of all passes below the limit. -/
theorem ReadsFile.lt_roundsFor_iff (h : ReadsFile o s config data) (k : Nat) :
    k < roundsFor o (o.indexed s config) ↔
      config.replay.Includes (o.indexed s config).units.length k ∧
        ∀ limit ∈ o.limit, k < limit.toNat := by
  obtain ⟨hstands, hconfig⟩ := h.stands
  rw [Options.lt_roundsFor_iff, h.bound]
  · rfl
  · intro hnone
    have hendless := ReplayCursor.isEndless_of_left
      (show (o.indexed s config).cursor.left = none from hnone)
    rw [hstands.cursor, hconfig] at hendless
    exact limit_of_resolve h.resolved hendless

/-- The first access units of all passes have the payloads of the entries of the index. -/
theorem ReadsFile.map_payload_units (h : ReadsFile o s config data) {count : Nat}
    (hcount : ∀ k < count, config.replay.Includes (o.indexed s config).units.length k) :
    (MediaSource.units (o.indexed s config) count).1.map (·.map Sample.payload) =
      (List.range count).map (payloadsAt data (o.indexed s config).units) := by
  obtain ⟨hstands, hconfig⟩ := h.stands
  have hunits := IndexedSource.units_of_stands (FileHandle.backend h.length_le) h.length_le h.units
    (fun _ => hstands) fun k (hk : k < count) => by
      rw [hconfig, Nat.zero_add]
      exact hcount k hk
  rw [hunits, List.map_map]
  refine List.map_congr_left fun k _ => ?_
  rw [Function.comp_apply, Nat.zero_add, map_payload_replayed]

/-- **A run reads the first access units of all passes**, up to the limit, and says what their totals
are. -/
theorem ReadsFile.totals (h : ReadsFile o s config data) :
    let source := o.indexed s config
    let codec := config.mediaType.codec
    Finishes o codec source (o.run s) ∧ ∃ summary count,
      (o.run s).summary = some summary ∧ (o.run s).error = none ∧
      (∀ k, k < count ↔ config.replay.Includes source.units.length k ∧
        ∀ limit ∈ o.limit, k < limit.toNat) ∧
      Summary.Totals codec ((List.range count).map (payloadsAt data source.units)) summary := by
  intro source codec
  have hcount := h.lt_roundsFor_iff
  obtain ⟨length, hcursor⟩ := o.exists_cursor_indexed s config
  refine ⟨h.run_eq ▸ finishes_indexed hcursor (limit_of_resolve h.resolved), ?_⟩
  rw [h.run_eq, report_eq]
  generalize roundsFor o (o.indexed s config) = count at hcount ⊢
  have hwriter : (o.beginning codec source).writer = none := by
    rw [beginning, h.baseLayer]
    rfl
  have hroom : ∀ limit ∈ o.limit, 0 + count ≤ limit.toNat := by
    intro limit hmem
    rw [Nat.zero_add]
    exact Nat.le_of_not_lt fun hlt => Nat.lt_irrefl _ (((hcount _).1 hlt).2 limit hmem)
  obtain ⟨hok, hsummary⟩ := readUnits_of_no_writer codec hwriter hroom
  have htotals := Summary.totals_foldl codec o.input (MediaSource.name source)
    (MediaSource.units source count).1
  rw [h.map_payload_units fun k hk => ((hcount k).1 hk).1] at htotals
  generalize readUnits o codec (o.beginning codec source) count = result at hok hsummary ⊢
  obtain ⟨answer, state⟩ := result
  obtain rfl : answer = .ok () := hok
  replace htotals : Summary.Totals codec _ state.summary := hsummary ▸ htotals
  -- the summary of the outcome differs in the access units of the base layer only
  exact ⟨_, count, rfl, rfl, hcount, { htotals with }⟩

/-- Without a limit, a run reads all access units of all passes. -/
theorem count_eq_of_no_limit {count n t : Nat} (hlimit : o.limit = none)
    (htotal : config.replay.total n = some t)
    (hcount : ∀ k, k < count ↔ config.replay.Includes n k ∧ ∀ limit ∈ o.limit, k < limit.toNat) :
    count = t := by
  refine eq_of_forall_lt_iff fun k => ?_
  rw [hcount, hlimit, Replay.Includes, htotal]
  simp

/-- **A run that plays the file again and again has multiples of the totals of one that does not.** -/
theorem ReadsFile.isMultiple (h : ReadsFile o s config data) (honce : ReadsFile once s₁ config₁ data)
    (hsame : config₁.mediaType = config.mediaType) (hlimit : o.limit = none)
    (hlimit₁ : once.limit = none) (hreplay : config.replay.enabled = true)
    (hplain : config₁.replay.enabled = false) {summary : Summary}
    (hsummary : (o.run s).summary = some summary) :
    ∃ summary₁, (once.run s₁).summary = some summary₁ ∧
      summary.IsMultiple (config.replay.count.toNat + 1) summary₁ := by
  obtain ⟨-, _, count, hrun, -, hcount, htotals⟩ := h.totals
  obtain ⟨-, summary₁, count₁, hrun₁, -, hcount₁, htotals₁⟩ := honce.totals
  obtain rfl := Option.some.inj (hrun.symm.trans hsummary)
  refine ⟨summary₁, hrun₁, ?_⟩
  have hunits : (once.indexed s₁ config₁).units = (o.indexed s config).units := by
    rw [h.units_eq, honce.units_eq, hsame]
  have hends : config.replay.count ≠ 0 := by
    intro hzero
    refine limit_of_resolve h.resolved ?_ hlimit
    rw [Replay.isEndless, hreplay, hzero]
    rfl
  rw [hunits] at hcount₁ htotals₁
  rw [hsame] at htotals₁
  obtain rfl := count_eq_of_no_limit hlimit
    (by rw [Replay.total, if_pos hreplay, if_neg hends]) hcount
  obtain rfl := count_eq_of_no_limit hlimit₁
    (by rw [Replay.total, if_neg (by simp [hplain])]) hcount₁
  refine htotals₁.isMultiple (Nat.succ_pos _) ?_
  have hpasses := map_range_mul
    (fun i => ((o.indexed s config).units[i]?.getD []).map (NalSpan.payload data))
    (o.indexed s config).units.length (config.replay.count.toNat + 1)
  exact hpasses ▸ htotals

/-- The samples and bytes of a run are no more than the file has, for each access unit that is read. -/
theorem samples_add_bytes_le {codec : VideoCodec} {index : List (List NalSpan)} {count : Nat}
    {summary : Summary} (hindex : index = Extractor.groupedSpans codec data)
    (h : Summary.Totals codec ((List.range count).map (payloadsAt data index)) summary) :
    summary.samples + summary.bytes ≤ count * data.length := by
  rw [h.samples, h.bytes]
  clear h
  induction count with
  | zero => simp
  | succ count ih =>
    have hlast := length_payloadsAt_le hindex count
    simp only [List.range_succ, List.map_append, List.flatten_append, List.length_append,
      List.map_singleton, List.flatten_singleton, Nat.succ_mul]
    omega

/-- A summary counts as many NAL unit types as samples. -/
theorem sum_nalTypes_run (o : Options) (s : Surroundings) :
    ∀ summary ∈ (o.run s).summary, (summary.nalTypes.map Prod.snd).sum = summary.samples := by
  have hfinishes : ∀ {α : Type} [MediaSource α] (codec : VideoCodec) (source : α),
      Finishes o codec source (o.run s) →
        ∀ summary ∈ (o.run s).summary, (summary.nalTypes.map Prod.snd).sum = summary.samples := by
    rintro α _ codec source ⟨⟨answer, state⟩, hruns, houtcome⟩ summary hsummary
    have hsum : (state.summary.nalTypes.map Prod.snd).sum = state.summary.samples :=
      hruns.summary (P := fun summary => (summary.nalTypes.map Prod.snd).sum = summary.samples)
        (fun summary unit => Summary.sum_nalTypes_record codec unit) rfl
    rw [houtcome] at hsummary
    cases answer with
    | error e => cases hsummary
    | ok _ =>
      cases hsummary
      exact hsum
  rcases run_ends o s with ⟨e, hrefused⟩ | ⟨config, -, ⟨source, h⟩ | ⟨source, h⟩⟩
  · rw [hrefused]
    nofun
  · exact hfinishes _ source h
  · exact hfinishes _ source h

/-- **What a run says of a file that is played again and again.**

* Replay without end and without a limit is refused, whatever the input is.
* Every run ends: it is refused, or it is a report whose loop ends.
* The numbers of the NAL unit types of a summary add up to its samples.
* A run that reads a file by its index, and writes no base layer, ends without an error.  Its totals are
  those of the access units of all passes below the limit, which makes them no larger than so many times
  the length of the file; so words of 64 bits hold them if that is below 2^64.
* Played `N` times more, without a limit, they are `N + 1` times those of any run that plays the same
  file once, and the most bytes are the same. -/
theorem totals_of_run (o : Options) (s : Surroundings) :
    (∀ config, o.baseConfig s = .ok config → (o.override config).replay.isEndless = true →
      o.limit = none → o.run s = .refused "无限循环需要指定 --limit") ∧
    ((∃ e, o.run s = .refused e) ∨ ∃ config, o.resolve s = .ok config ∧
      ((∃ source : IndexedSource FileHandle, Finishes o config.mediaType.codec source (o.run s)) ∨
        ∃ source : StreamReader FileHandle,
          Finishes o config.mediaType.codec source (o.run s))) ∧
    (∀ summary ∈ (o.run s).summary, (summary.nalTypes.map Prod.snd).sum = summary.samples) ∧
    ∀ config data, ReadsFile o s config data →
      let source := o.indexed s config
      let codec := config.mediaType.codec
      Finishes o codec source (o.run s) ∧ ∃ summary count,
        (o.run s).summary = some summary ∧ (o.run s).error = none ∧
        (∀ k, k < count ↔ config.replay.Includes source.units.length k ∧
          ∀ limit ∈ o.limit, k < limit.toNat) ∧
        Summary.Totals codec ((List.range count).map (payloadsAt data source.units)) summary ∧
        summary.samples + summary.bytes ≤ count * data.length ∧
        (count * data.length < UInt64.size → summary.FitsWords) ∧
        (o.limit = none → config.replay.enabled = true → ∀ once s₁ config₁,
          ReadsFile once s₁ config₁ data → config₁.mediaType = config.mediaType →
          once.limit = none → config₁.replay.enabled = false →
          ∃ summary₁, (once.run s₁).summary = some summary₁ ∧
            summary.IsMultiple (config.replay.count.toNat + 1) summary₁) := by
  refine ⟨?_, run_ends o s, sum_nalTypes_run o s, ?_⟩
  · intro config hbase hendless hlimit
    rw [run, resolve_eq hbase, hendless, hlimit]
    rfl
  · intro config data h
    obtain ⟨hfinishes, summary, count, hsummary, herror, hcount, htotals⟩ := h.totals
    have hread := samples_add_bytes_le h.units_eq htotals
    refine ⟨hfinishes, summary, count, hsummary, herror, hcount, htotals, hread, ?_, ?_⟩
    · intro hwords
      refine htotals.fitsWords (fun unit hunit => ?_) (by omega) (by omega)
      obtain ⟨k, -, rfl⟩ := List.mem_map.1 hunit
      exact payloadsAt_ne_nil h.units h.units_eq k
    intro hlimit hreplay once s₁ config₁ honce hsame hlimit₁ hplain
    exact h.isMultiple honce hsame hlimit hlimit₁ hreplay hplain hsummary

/-- Two access units, played twice more: six of them, with three times the bytes, in words.  Without end,
the run is refused. -/
theorem totals_of_run_thrice :
    let data : List UInt8 :=
      [0, 0, 0, 1, 9, 240, 0, 0, 1, 101, 136, 132, 0, 0, 1, 9, 240, 0, 0, 1, 65, 154]
    let s : Surroundings := ⟨fun _ => some (.openRead data), fun _ => false⟩
    let once : Options := { input := "a.bin", format := some .h264 }
    let thrice : Options := { once with loopCount := some 2 }
    let endless : Options := { once with loopCount := some 0 }
    let config : SourceConfig := { mediaType := .h264 }
    ReadsFile once s config data ∧
      ReadsFile thrice s { config with replay := .repeating 2 } data ∧
      (once.run s).summary.map (fun t => (t.accessUnits, t.samples, t.bytes, t.maxUnitBytes)) =
        some (2, 4, 9, 5) ∧
      (thrice.run s).summary.map (fun t => (t.accessUnits, t.samples, t.bytes, t.maxUnitBytes)) =
        some (6, 12, 27, 5) ∧
      (∃ summary, (thrice.run s).summary = some summary ∧ summary.FitsWords) ∧
      endless.run s = .refused "无限循环需要指定 --limit" := by
  intro data s once thrice endless config
  have hunits : (once.indexed s config).units ≠ [] := by decide +kernel
  have honce : ReadsFile once s config data := ⟨rfl, rfl, rfl, rfl, by decide, hunits⟩
  have hthrice : ReadsFile thrice s { config with replay := .repeating 2 } data :=
    ⟨rfl, rfl, rfl, rfl, by decide, by decide +kernel⟩
  have hone : (once.run s).summary.map
      (fun t => (t.accessUnits, t.samples, t.bytes, t.maxUnitBytes)) = some (2, 4, 9, 5) := by
    decide +kernel
  obtain ⟨-, -, -, htotals⟩ := totals_of_run thrice s
  obtain ⟨-, summary, count, hsummary, -, -, hcount, -, hwords, hmultiple⟩ := htotals _ data hthrice
  obtain ⟨summary₁, hsummary₁, hthree⟩ := hmultiple rfl rfl once s config honce rfl rfl rfl
  have hparts := hone
  rw [hsummary₁, Option.map_some, Option.some.injEq, Prod.mk.injEq, Prod.mk.injEq,
    Prod.mk.injEq] at hparts
  obtain ⟨htwo, hsamples, hbytes, hmost⟩ := hparts
  have hsix : count = 6 := by
    have hlength := hcount.accessUnits
    rw [List.length_map, List.length_range, hthree.accessUnits, htwo] at hlength
    exact hlength.symm
  refine ⟨honce, hthrice, hone, ?_, ⟨summary, hsummary, hwords ?_⟩,
    (totals_of_run endless s).1 config rfl rfl rfl⟩
  · rw [hsummary, Option.map_some, hthree.accessUnits, hthree.samples, hthree.bytes,
      hthree.maxUnitBytes, htwo, hsamples, hbytes, hmost]
    rfl
  · rw [hsix]
    decide

end Options

end AnnexB
