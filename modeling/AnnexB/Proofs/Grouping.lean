/-
# Access units, marked, stamped and numbered

`Boundary.group` cuts a sequence of units by their headers alone: it takes any data along
(`group_map`) and loses none of it (`flatten_group`).

What a stream's access units look like is said once, by `accessUnits`: the units of the stream, cut
by the boundary, the last sample of each access unit marked, access unit `k` stamped with `k`, and
the samples numbered in decoding order throughout.  Numbers run on over the ends of access units
(`flatten_numberUnits`), so that sample `k` has the first number plus `k` (`getElem?_numbered`).
-/

import AnnexB.AccessUnit.Extractor
import AnnexB.Proofs.Spans

namespace AnnexB

theorem ByteBuffer.toList_ofList (bytes : List UInt8) : (ofList bytes).toList = bytes := by
  simp [ofList, toList, size]

theorem Sample.payload_eq_of_not_containsStartCode {s : Sample} (h : s.containsStartCode = false) :
    s.payload = s.data.toList := by
  rw [payload, h]
  split <;> rfl

namespace Boundary

variable {α β : Type} {b : Boundary}

theorem cut_cons (b : Boundary) (h : NalHeader) (x : α) (rest : List (NalHeader × α)) :
    b.cut ((h, x) :: rest) =
      if (b.observe h).1 then
        ([], (x :: ((b.observe h).2.cut rest).1) :: ((b.observe h).2.cut rest).2)
      else (x :: ((b.observe h).2.cut rest).1, ((b.observe h).2.cut rest).2) := rfl

theorem cut_map (f : α → β) (units : List (NalHeader × α)) (b : Boundary) :
    b.cut (units.map fun u => (u.1, f u.2)) =
      ((b.cut units).1.map f, (b.cut units).2.map (List.map f)) := by
  induction units generalizing b with
  | nil => rfl
  | cons u rest ih =>
    obtain ⟨h, x⟩ := u
    rw [List.map_cons, cut_cons, ih, cut_cons]
    split <;> rfl

/-- Cutting looks at the headers only. -/
theorem group_map (f : α → β) (units : List (NalHeader × α)) :
    b.group (units.map fun u => (u.1, f u.2)) = (b.group units).map (List.map f) := by
  rcases units with _ | ⟨⟨h, x⟩, rest⟩
  · rfl
  · rw [List.map_cons, group, group, cut_map]
    rfl

theorem flatten_cut (units : List (NalHeader × α)) (b : Boundary) :
    (b.cut units).1 ++ (b.cut units).2.flatten = units.map Prod.snd := by
  induction units generalizing b with
  | nil => rfl
  | cons u rest ih =>
    obtain ⟨h, x⟩ := u
    rw [List.map_cons, ← ih (b.observe h).2, cut_cons]
    split <;> rfl

/-- No unit is lost, none comes twice, and their order stays. -/
theorem flatten_group (units : List (NalHeader × α)) :
    (b.group units).flatten = units.map Prod.snd := by
  rcases units with _ | ⟨⟨h, x⟩, rest⟩
  · rfl
  · rw [group, List.flatten_cons, List.cons_append, flatten_cut]
    rfl

theorem ne_nil_of_mem_cut (units : List (NalHeader × α)) (b : Boundary) :
    ∀ unit ∈ (b.cut units).2, unit ≠ [] := by
  induction units generalizing b with
  | nil => simp [cut]
  | cons u rest ih =>
    obtain ⟨h, x⟩ := u
    rw [cut_cons]
    split
    · intro unit hunit
      rcases List.mem_cons.1 hunit with rfl | hunit
      · simp
      · exact ih _ unit hunit
    · exact ih _

/-- No access unit is empty. -/
theorem ne_nil_of_mem_group (units : List (NalHeader × α)) : ∀ unit ∈ b.group units, unit ≠ [] := by
  rcases units with _ | ⟨⟨h, x⟩, rest⟩
  · simp [group]
  · intro unit hunit
    rw [group] at hunit
    rcases List.mem_cons.1 hunit with rfl | hunit
    · simp
    · exact ne_nil_of_mem_cut rest _ unit hunit

/-- The number that the next sample gets. -/
def number (b : Boundary) : Option UInt16 := b.takeNumber.1

theorem number_takeNumber (b : Boundary) : b.takeNumber.2.number = b.number.map (· + 1) := by
  cases b <;> rfl

theorem number_observe (b : Boundary) (h : NalHeader) : (b.observe h).2.number = b.number := by
  cases b <;> rfl

/-- The state with its numbering at the start. -/
def unnumbered : Boundary → Boundary
  | avc state => avc state
  | hevc state => hevc { state with nextNumber := 0 }

theorem unnumbered_takeNumber (b : Boundary) : b.takeNumber.2.unnumbered = b.unnumbered := by
  cases b <;> rfl

theorem unnumbered_withNumber (codec : VideoCodec) (n : UInt16) :
    (withNumber codec n).unnumbered = ofCodec codec := by
  cases codec <;> rfl

/-- Numbering begins at 0 unless said otherwise. -/
theorem withNumber_zero (codec : VideoCodec) : withNumber codec 0 = ofCodec codec := by
  cases codec <;> rfl

theorem number_withNumber (codec : VideoCodec) (n : UInt16) :
    (withNumber codec n).number =
      match codec with
      | .h264 => none
      | .h265 => some n := by
  cases codec <;> rfl

theorem observe_unnumbered (b : Boundary) (h : NalHeader) :
    b.unnumbered.observe h = ((b.observe h).1, (b.observe h).2.unnumbered) := by
  cases b <;> rfl

/-- Numbering plays no part in where access units begin. -/
theorem cut_unnumbered (units : List (NalHeader × α)) (b : Boundary) :
    b.unnumbered.cut units = b.cut units := by
  induction units generalizing b with
  | nil => rfl
  | cons u rest ih =>
    obtain ⟨h, x⟩ := u
    rw [cut_cons, cut_cons, observe_unnumbered, ih]

theorem cut_takeNumber (units : List (NalHeader × α)) (b : Boundary) :
    b.takeNumber.2.cut units = b.cut units := by
  rw [← cut_unnumbered, unnumbered_takeNumber, cut_unnumbered]

theorem observe_takeNumber (b : Boundary) (h : NalHeader) :
    b.takeNumber.2.observe h = ((b.observe h).1, (b.observe h).2.takeNumber.2) := by
  cases b <;> rfl

theorem group_cons (b : Boundary) (h : NalHeader) (x : α) (rest : List (NalHeader × α)) :
    b.group ((h, x) :: rest) =
      (x :: ((b.observe h).2.cut rest).1) :: ((b.observe h).2.cut rest).2 := rfl

theorem group_unnumbered (units : List (NalHeader × α)) (b : Boundary) :
    b.unnumbered.group units = b.group units := by
  rcases units with _ | ⟨⟨h, x⟩, rest⟩
  · rfl
  · rw [group_cons, group_cons, observe_unnumbered, cut_unnumbered]

end Boundary

namespace Extractor

/-- Samples numbered one after the other from `number` on, where there are numbers. -/
def numbered (number : Option UInt16) : List Sample → List Sample
  | [] => []
  | s :: rest => { s with decodingOrder := number } :: numbered (number.map (· + 1)) rest

theorem number_numberSamples (b : Boundary) (samples : AccessUnit) (later : List Sample) :
    numbered b.number (samples ++ later) =
      (numberSamples b samples).1 ++ numbered (numberSamples b samples).2.number later := by
  induction samples generalizing b with
  | nil => rfl
  | cons s rest ih =>
    rw [List.cons_append, numbered, ← Boundary.number_takeNumber, ih]
    rfl

/-- Numbers run on over the ends of access units. -/
theorem flatten_numberUnits (b : Boundary) (units : List AccessUnit) :
    (numberUnits b units).flatten = numbered b.number units.flatten := by
  induction units generalizing b with
  | nil => rfl
  | cons unit rest ih =>
    rw [List.flatten_cons, number_numberSamples, ← ih]
    rfl

theorem length_numberSamples (b : Boundary) (unit : AccessUnit) :
    (numberSamples b unit).1.length = unit.length := by
  induction unit generalizing b with
  | nil => rfl
  | cons s rest ih => rw [numberSamples, List.length_cons, ih, List.length_cons]

theorem map_length_numberUnits (b : Boundary) (units : List AccessUnit) :
    (numberUnits b units).map List.length = units.map List.length := by
  induction units generalizing b with
  | nil => rfl
  | cons unit rest ih =>
    rw [numberUnits, List.map_cons, ih, length_numberSamples, List.map_cons]

/-- **Sample `k` has the first number plus `k`.** -/
theorem getElem?_numbered (number : Option UInt16) (samples : List Sample) (k : Nat) :
    (numbered number samples)[k]? =
      samples[k]?.map fun s => { s with decodingOrder := number.map (· + UInt16.ofNat k) } := by
  induction samples generalizing number k with
  | nil => rfl
  | cons s rest ih =>
    cases k with
    | zero => cases number <;> simp [numbered]
    | succ k =>
      have hnumber : (number.map (· + 1)).map (· + UInt16.ofNat k) =
          number.map (· + UInt16.ofNat (k + 1)) := by
        rw [Option.map_map]
        congr 1
        funext n
        rw [Function.comp_apply, UInt16.ofNat_add, UInt16.add_assoc, UInt16.add_comm 1]
        rfl
      rw [numbered, List.getElem?_cons_succ, ih, hnumber, List.getElem?_cons_succ]

theorem length_numbered (number : Option UInt16) (samples : List Sample) :
    (numbered number samples).length = samples.length := by
  induction samples generalizing number with
  | nil => rfl
  | cons s rest ih => rw [numbered, List.length_cons, ih, List.length_cons]

theorem map_decodingOrder_numbered (number : Option UInt16) (samples : List Sample) :
    (numbered number samples).map Sample.decodingOrder =
      (List.range samples.length).map fun k => number.map (· + UInt16.ofNat k) := by
  apply List.ext_getElem?
  intro k
  rw [List.getElem?_map, getElem?_numbered, List.getElem?_map, Option.map_map]
  rcases Nat.lt_or_ge k samples.length with hk | hk
  · rw [List.getElem?_eq_getElem hk, List.getElem?_range hk]
    rfl
  · rw [List.getElem?_eq_none hk, List.getElem?_eq_none (by rwa [List.length_range])]
    rfl

theorem numberSamples_cons (b : Boundary) (s : Sample) (rest : AccessUnit) :
    numberSamples b (s :: rest) =
      ({ s with decodingOrder := b.number } :: (numberSamples b.takeNumber.2 rest).1,
        (numberSamples b.takeNumber.2 rest).2) := rfl

/-- Numbering an access unit takes as many numbers as it has samples. -/
theorem numberSamples_withNumber (codec : VideoCodec) (first : Nat) (samples : AccessUnit) :
    numberSamples (.withNumber codec (UInt16.ofNat first)) samples =
      (numbered (Boundary.withNumber codec (UInt16.ofNat first)).number samples,
        .withNumber codec (UInt16.ofNat (first + samples.length))) := by
  induction samples generalizing first with
  | nil => rfl
  | cons s rest ih =>
    have htake : (Boundary.withNumber codec (UInt16.ofNat first)).takeNumber.2 =
        .withNumber codec (UInt16.ofNat (first + 1)) := by
      cases codec
      · rfl
      · rw [UInt16.ofNat_add]
        rfl
    rw [numberSamples_cons, numbered, ← Boundary.number_takeNumber, htake, ih, List.length_cons,
      show first + 1 + rest.length = first + (rest.length + 1) by omega]

/-- What does not depend on numbers is the same before and after numbering. -/
theorem map_numbered {β : Type} {view : Sample → β}
    (h : ∀ s n, view { s with decodingOrder := n } = view s) (number : Option UInt16)
    (samples : List Sample) : (numbered number samples).map view = samples.map view := by
  induction samples generalizing number with
  | nil => rfl
  | cons s rest ih => rw [numbered, List.map_cons, List.map_cons, ih, h]

theorem markLast_cons_cons (s t : Sample) (rest : AccessUnit) :
    AccessUnit.markLast (s :: t :: rest) =
      s.withMarker false :: AccessUnit.markLast (t :: rest) := rfl

theorem map_markLast_map {α β : Type} {view : Sample → β} {f g : α → Sample}
    (h : ∀ x marker, view ((f x).withMarker marker) = view ((g x).withMarker marker))
    (xs : List α) :
    (AccessUnit.markLast (xs.map f)).map view = (AccessUnit.markLast (xs.map g)).map view := by
  induction xs with
  | nil => rfl
  | cons x rest ih =>
    rcases rest with _ | ⟨y, rest⟩
    · simp only [List.map_cons, List.map_nil, AccessUnit.markLast, h]
    · simp only [List.map_cons] at ih ⊢
      rw [markLast_cons_cons, markLast_cons_cons, List.map_cons, List.map_cons, h, ih]

/-- What does not depend on markers is the same before and after marking. -/
theorem map_markLast {β : Type} {view : Sample → β}
    (h : ∀ s marker, view (s.withMarker marker) = view s) (unit : AccessUnit) :
    (AccessUnit.markLast unit).map view = unit.map view := by
  induction unit with
  | nil => rfl
  | cons s rest ih =>
    rcases rest with _ | ⟨t, rest⟩
    · simp only [AccessUnit.markLast, List.map_cons, List.map_nil, h]
    · rw [markLast_cons_cons, List.map_cons, List.map_cons, h, ih]

theorem length_markLast (unit : AccessUnit) : unit.markLast.length = unit.length := by
  have hview := @map_markLast Unit (fun _ => ()) (fun _ _ => rfl) unit
  simpa using congrArg List.length hview

theorem getElem?_markLast (unit : AccessUnit) (i : Nat) :
    unit.markLast[i]? = unit[i]?.map fun s => s.withMarker (i + 1 == unit.length) := by
  induction unit generalizing i with
  | nil => rfl
  | cons s rest ih =>
    rcases rest with _ | ⟨t, rest⟩
    · cases i <;> rfl
    · rw [markLast_cons_cons]
      cases i with
      | zero => rfl
      | succ i =>
        rw [List.getElem?_cons_succ, ih, List.getElem?_cons_succ, List.length_cons]
        simp

theorem sampleOfSpan_eq (data : List UInt8) (time : Timestamp) (u : NalSpan) :
    sampleOfSpan data.toArray time u =
      { Sample.ofPayload (u.payload data) with time, startCode := some u.startCode } := by
  have hpayload : (data.toArray.extract u.payloadOffset u.stop).toList = u.payload data := by
    rw [Array.toList_extract, List.extract_eq_take_drop, NalSpan.payload, NalSpan.stop,
      Nat.add_sub_cancel_left]
  rw [sampleOfSpan, hpayload]

theorem payload_sampleOfSpan (data : List UInt8) (time : Timestamp) (u : NalSpan) :
    (sampleOfSpan data.toArray time u).payload = u.payload data := by
  rw [sampleOfSpan_eq, Sample.payload_eq_of_not_containsStartCode rfl, Sample.ofPayload,
    ByteBuffer.toList_ofList]

/-- The access units of units cut apart, the first of them with number `index`. -/
def stampUnits (data : List UInt8) (stamp : Nat → Timestamp) (index : Nat) :
    List (List NalSpan) → List AccessUnit
  | [] => []
  | unit :: rest =>
    AccessUnit.markLast (unit.map (sampleOfSpan data.toArray (stamp index)))
      :: stampUnits data stamp (index + 1) rest

theorem map_length_stampUnits (data : List UInt8) (stamp : Nat → Timestamp) (index : Nat)
    (groups : List (List NalSpan)) :
    (stampUnits data stamp index groups).map List.length = groups.map List.length := by
  induction groups generalizing index with
  | nil => rfl
  | cons unit rest ih =>
    rw [stampUnits, List.map_cons, ih, length_markLast, List.length_map, List.map_cons]

/-- With one time for all, stamping is the same for every access unit. -/
theorem stampUnits_const (data : List UInt8) (time : Timestamp) (index : Nat)
    (groups : List (List NalSpan)) :
    stampUnits data (fun _ => time) index groups =
      groups.map fun unit => AccessUnit.markLast (unit.map (sampleOfSpan data.toArray time)) := by
  induction groups generalizing index with
  | nil => rfl
  | cons unit rest ih => rw [stampUnits, ih, List.map_cons]

/-- The units of a stream, cut into access units. -/
def groupedSpans (codec : VideoCodec) (data : List UInt8) : List (List NalSpan) :=
  (Boundary.ofCodec codec).group ((nalSpans data).map fun u => (u.header codec, u))

theorem flatten_groupedSpans (codec : VideoCodec) (data : List UInt8) :
    (groupedSpans codec data).flatten = nalSpans data := by
  rw [groupedSpans, Boundary.flatten_group, List.map_map]
  exact List.map_id _

/-- The access units of a stream, stamped and numbered. -/
def accessUnits (codec : VideoCodec) (stamp : Nat → Timestamp) (b : Boundary) (data : List UInt8) :
    List AccessUnit :=
  numberUnits b (stampUnits data stamp 0 (groupedSpans codec data))

variable {codec : VideoCodec} {stamp : Nat → Timestamp} {b : Boundary} {data : List UInt8}

/-- Marking, stamping and numbering leave the samples in their access units. -/
theorem map_length_accessUnits :
    (accessUnits codec stamp b data).map List.length =
      (groupedSpans codec data).map List.length := by
  rw [accessUnits, map_length_numberUnits, map_length_stampUnits]

theorem length_accessUnits :
    (accessUnits codec stamp b data).length = (groupedSpans codec data).length := by
  have hlength := congrArg List.length (@map_length_accessUnits codec stamp b data)
  rwa [List.length_map, List.length_map] at hlength

theorem accessUnits_of_nalSpans_nil (h : nalSpans data = []) :
    accessUnits codec stamp b data = [] := by
  rw [accessUnits, groupedSpans, h]
  rfl

theorem flatten_accessUnits : (accessUnits codec stamp b data).flatten =
    numbered b.number (stampUnits data stamp 0 (groupedSpans codec data)).flatten :=
  flatten_numberUnits ..

theorem map_flatten_stampUnits {β : Type} {view : Sample → β}
    (h : ∀ s time, view { s with time := time } = view s) (stamp' : Nat → Timestamp)
    (index index' : Nat) (groups : List (List NalSpan)) :
    (stampUnits data stamp index groups).flatten.map view =
      (stampUnits data stamp' index' groups).flatten.map view := by
  induction groups generalizing index index' with
  | nil => rfl
  | cons unit rest ih =>
    have hmark : ∀ u marker,
        view ((sampleOfSpan data.toArray (stamp index) u).withMarker marker) =
          view ((sampleOfSpan data.toArray (stamp' index') u).withMarker marker) := fun u marker =>
      h ((sampleOfSpan data.toArray (stamp' index') u).withMarker marker) (stamp index)
    rw [stampUnits, stampUnits, List.flatten_cons, List.flatten_cons, List.map_append,
      List.map_append, map_markLast_map hmark, ih (index + 1) (index' + 1)]

/-- What depends neither on times nor on numbers is the same however access units are stamped and
numbered. -/
theorem map_flatten_accessUnits {β : Type} {view : Sample → β}
    (htime : ∀ s time, view { s with time := time } = view s)
    (hnumber : ∀ s n, view { s with decodingOrder := n } = view s) (codec : VideoCodec)
    (stamp stamp' : Nat → Timestamp) (b b' : Boundary) (data : List UInt8) :
    (accessUnits codec stamp b data).flatten.map view =
      (accessUnits codec stamp' b' data).flatten.map view := by
  rw [flatten_accessUnits, flatten_accessUnits, map_numbered hnumber, map_numbered hnumber]
  exact map_flatten_stampUnits htime stamp' 0 0 _

theorem map_flatten_stampUnits_spans {β : Type} {view : Sample → β}
    (htime : ∀ s time, view { s with time := time } = view s)
    (hmarker : ∀ s marker, view (s.withMarker marker) = view s) (index : Nat)
    (groups : List (List NalSpan)) :
    (stampUnits data stamp index groups).flatten.map view =
      groups.flatten.map fun u => view (sampleOfSpan data.toArray .zero u) := by
  induction groups generalizing index with
  | nil => rfl
  | cons unit rest ih =>
    rw [stampUnits, List.flatten_cons, List.map_append, map_markLast hmarker, ih, List.map_map,
      List.flatten_cons, List.map_append]
    congr 1
    exact List.map_congr_left fun u _ =>
      htime (sampleOfSpan data.toArray .zero u) (stamp index)

/-- What depends on no time, number or marker is that of the units of the stream. -/
theorem map_flatten_accessUnits_spans {β : Type} {view : Sample → β}
    (htime : ∀ s time, view { s with time := time } = view s)
    (hnumber : ∀ s n, view { s with decodingOrder := n } = view s)
    (hmarker : ∀ s marker, view (s.withMarker marker) = view s) :
    (accessUnits codec stamp b data).flatten.map view =
      (nalSpans data).map fun u => view (sampleOfSpan data.toArray .zero u) := by
  rw [flatten_accessUnits, map_numbered hnumber, map_flatten_stampUnits_spans htime hmarker,
    flatten_groupedSpans]

/-- The last sample is marked, and no other. -/
def IsMarked : AccessUnit → Prop
  | [] => False
  | [s] => s.marker = true
  | s :: t :: rest => s.marker = false ∧ IsMarked (t :: rest)

theorem isMarked_markLast {unit : AccessUnit} (h : unit ≠ []) : IsMarked unit.markLast := by
  induction unit with
  | nil => exact absurd rfl h
  | cons s rest ih =>
    rcases rest with _ | ⟨t, rest⟩
    · rfl
    · have hrest := ih (by simp)
      rw [markLast_cons_cons]
      rcases hmark : AccessUnit.markLast (t :: rest) with _ | ⟨t', rest'⟩
      · rw [hmark] at hrest
        exact hrest.elim
      · rw [hmark] at hrest
        exact ⟨rfl, hrest⟩

theorem isMarked_numberSamples {unit : AccessUnit} (h : IsMarked unit) (b : Boundary) :
    IsMarked (numberSamples b unit).1 := by
  induction unit generalizing b with
  | nil => exact h
  | cons s rest ih =>
    rcases rest with _ | ⟨t, rest⟩
    · exact h
    · exact ⟨h.1, ih h.2 b.takeNumber.2⟩

theorem isMarked_of_mem_stampUnits {groups : List (List NalSpan)}
    (h : ∀ unit ∈ groups, unit ≠ []) (index : Nat) :
    ∀ unit ∈ stampUnits data stamp index groups, IsMarked unit := by
  induction groups generalizing index with
  | nil => simp [stampUnits]
  | cons unit rest ih =>
    intro stamped hmem
    rw [stampUnits] at hmem
    rcases List.mem_cons.1 hmem with rfl | hmem
    · exact isMarked_markLast (by simpa using h unit (List.mem_cons_self ..))
    · exact ih (fun u hu => h u (List.mem_cons_of_mem _ hu)) (index + 1) stamped hmem

theorem isMarked_of_mem_numberUnits {units : List AccessUnit} (h : ∀ unit ∈ units, IsMarked unit)
    (b : Boundary) : ∀ unit ∈ numberUnits b units, IsMarked unit := by
  induction units generalizing b with
  | nil => simp [numberUnits]
  | cons unit rest ih =>
    intro numberedUnit hmem
    rw [numberUnits] at hmem
    rcases List.mem_cons.1 hmem with rfl | hmem
    · exact isMarked_numberSamples (h unit (List.mem_cons_self ..)) b
    · exact ih (fun u hu => h u (List.mem_cons_of_mem _ hu)) _ numberedUnit hmem

/-- **The last sample of each access unit is marked, and no other.** -/
theorem isMarked_of_mem_accessUnits : ∀ unit ∈ accessUnits codec stamp b data, IsMarked unit :=
  isMarked_of_mem_numberUnits (isMarked_of_mem_stampUnits (Boundary.ne_nil_of_mem_group _) 0) b

theorem ne_nil_of_mem_accessUnits : ∀ unit ∈ accessUnits codec stamp b data, unit ≠ [] := by
  rintro _ hunit rfl
  exact isMarked_of_mem_accessUnits _ hunit

/-- **All at once, a stream gives its access units**, all with one time and numbered from 0. -/
theorem extractAll_eq (mediaType : MediaType) (data : List UInt8) (time : Timestamp) :
    extractAll mediaType data time =
      if data.length < minUnitSize then .ok []
      else if (StartCode.leading? data).isNone then .error .noLeadingStartCode
      else .ok (accessUnits mediaType.codec (fun _ => time) (.ofCodec mediaType.codec) data) := by
  have hunits : ((Boundary.ofCodec mediaType.codec).group ((nalSpans data).map fun u =>
      (u.header mediaType.codec, sampleOfSpan data.toArray time u))).map AccessUnit.markLast =
      stampUnits data (fun _ => time) 0 (groupedSpans mediaType.codec data) := by
    have hmap := Boundary.group_map (b := .ofCodec mediaType.codec) (sampleOfSpan data.toArray time)
      ((nalSpans data).map fun u => (u.header mediaType.codec, u))
    rw [List.map_map] at hmap
    calc _ = ((groupedSpans mediaType.codec data).map
          (List.map (sampleOfSpan data.toArray time))).map AccessUnit.markLast :=
          congrArg (List.map AccessUnit.markLast) hmap
      _ = _ := by rw [stampUnits_const, List.map_map]; rfl
  rw [extractAll.eq_def]
  simp only [hunits]
  rfl

end Extractor
end AnnexB
