/-
# Failures only cut a source short

A source over storage that fails is compared with the same source over storage that does not.  The
two keep step (`cutShort_of_twins`): a call of the first one gives what the same call of the second
one gives, unless the storage fails in it; then it gives nothing, and nothing more comes.

For a stream reader this is `StreamReader.next_of_twins`.  An indexed source and a source of raw
frames read each access unit from its place in the data, so that it is the same over any storage
(`IndexedSource.next_of_twins`, `YuvSource.next_of_twins`).  All three together are
`cutShort_of_failures`.
-/

import AnnexB.Proofs.Failures.Storage
import AnnexB.Proofs.Failures.Reader
import AnnexB.Proofs.Sources

namespace AnnexB

namespace MediaSource

variable {α β : Type} [MediaSource α] [MediaSource β]

/-- The source `a` hands out what the source `b` does, but may end sooner: after a call of it has
failed, and only then.  From there on it is not good, and hands out nothing, however often it is
called. -/
structure CutShort (hasFailed : α → Prop) (a : α) (b : β) : Prop where
  prefix_given (calls : Nat) : given a calls <+: given b calls
  given_eq (calls : Nat) (fine : ¬hasFailed (after a calls)) : given a calls = given b calls
  not_isGood (calls later : Nat) (failed : hasFailed (after a calls)) :
    isGood (after (after a calls) later) = false
  next_eq_nil (calls later : Nat) (failed : hasFailed (after a calls)) :
    (next (after (after a calls) later)).1 = []

/-- What two sources give after some calls that keep step until the first one has failed. -/
theorem given_of_twins {γ : Type} {hasFailed : α → Prop} {Twins : α → γ → Prop}
    {withChannel : α → γ → β}
    (hnext : ∀ a c, Twins a c → (∃ a', next a = ([], a') ∧ Spent a' ∧ hasFailed a') ∨
      ∃ unit a' c', next a = (unit, a') ∧ next (withChannel a c) = (unit, withChannel a' c') ∧
        Twins a' c')
    (calls : Nat) {a : α} {c : γ} (h : Twins a c) :
    given a calls <+: given (withChannel a c) calls ∧
      ((Spent (after a calls) ∧ hasFailed (after a calls)) ∨
        given a calls = given (withChannel a c) calls ∧ ∃ c', Twins (after a calls) c') := by
  induction calls generalizing a c with
  | zero => exact ⟨List.prefix_rfl, .inr ⟨rfl, c, h⟩⟩
  | succ calls ih =>
    unfold MediaSource.given after
    rcases hnext a c h with ⟨a', hnone, hspent, hfailed⟩ | ⟨unit, a', c', hunit, hother, hlater⟩
    · rw [hnone, hspent.after]
      simp only
      rw [hspent.given]
      exact ⟨List.nil_prefix, .inl ⟨hspent, hfailed⟩⟩
    · obtain ⟨hfirst, hend⟩ := ih hlater
      rw [hunit, hother]
      refine ⟨(List.prefix_append_right_inj _).2 hfirst, hend.imp_right ?_⟩
      rintro ⟨hgiven, htwins⟩
      exact ⟨congrArg _ hgiven, htwins⟩

/-- **Sources that keep step until the first one has failed:** it is cut short. -/
theorem cutShort_of_twins {γ : Type} {hasFailed : α → Prop} {Twins : α → γ → Prop}
    {withChannel : α → γ → β}
    (hnext : ∀ a c, Twins a c → (∃ a', next a = ([], a') ∧ Spent a' ∧ hasFailed a') ∨
      ∃ unit a' c', next a = (unit, a') ∧ next (withChannel a c) = (unit, withChannel a' c') ∧
        Twins a' c')
    (hfine : ∀ a c, Twins a c → ¬hasFailed a) {a : α} {b : β}
    (h : (Spent a ∧ hasFailed a) ∨ ∃ c, b = withChannel a c ∧ Twins a c) :
    CutShort hasFailed a b := by
  have hrun : ∀ calls, given a calls <+: given b calls ∧
      ((Spent (after a calls) ∧ hasFailed (after a calls)) ∨
        given a calls = given b calls ∧ ¬hasFailed (after a calls)) := by
    intro calls
    rcases h with ⟨hspent, hfailed⟩ | ⟨c, rfl, htwins⟩
    · rw [hspent.given, hspent.after]
      exact ⟨List.nil_prefix, .inl ⟨hspent, hfailed⟩⟩
    · obtain ⟨hfirst, hend⟩ := given_of_twins hnext calls htwins
      exact ⟨hfirst, hend.imp_right fun ⟨hgiven, c', hlater⟩ => ⟨hgiven, hfine _ c' hlater⟩⟩
  have hspent : ∀ calls, hasFailed (after a calls) → Spent (after a calls) := fun calls hfailed =>
    ((hrun calls).2.resolve_right fun hend => hend.2 hfailed).1
  constructor
  · exact fun calls => (hrun calls).1
  · exact fun calls hfails => ((hrun calls).2.resolve_left fun hend => hfails hend.2).1
  · intro calls later hfailed
    rw [(hspent calls hfailed).after]
    exact (hspent calls hfailed).isGood
  · intro calls later hfailed
    rw [(hspent calls hfailed).after, (hspent calls hfailed).next]

end MediaSource

open MediaSource

variable {σ τ : Type} {Fails : σ → Prop} {data : List UInt8} {Serves : σ → List UInt8 → Prop}
  {Serves' : τ → List UInt8 → Prop}

theorem toNat_ofNat_le (n : Nat) : (UInt64.ofNat n).toNat ≤ n := by
  rw [UInt64.toNat_ofNat']
  exact Nat.mod_le _ _

/-! ### Indexed sources -/

namespace IndexedSource

variable {a a' : IndexedSource σ} {c : Channel τ}

/-- The source with another channel. -/
def withChannel (s : IndexedSource σ) (c : Channel τ) : IndexedSource τ :=
  { config := s.config, channel := some c, units := s.units, boundary := s.boundary
    cursor := s.cursor, intact := s.intact }

/-- The source `a`, and the same source with the channel `c`, have units in `data` to read. -/
structure Twins (data : List UInt8) (Serves : σ → List UInt8 → Prop)
    (Serves' : τ → List UInt8 → Prop) (a : IndexedSource σ) (c : Channel τ) : Prop where
  channel : ∃ c₀ bytes, a.channel = some c₀ ∧ c₀.Pending Serves bytes
  pending : ∃ bytes, c.Pending Serves' bytes
  units : ∀ unit ∈ a.units, ∀ u ∈ unit, u.startCodeOffset ≤ data.length

variable [Storage σ] [Storage τ]

theorem spent_of_not_intact (h : a.intact = false) : Spent a :=
  spent_of_not_isGood (by rw [isGood, h]; rfl)

theorem readSpan_eq_readAt (c : Channel σ) (first last : NalSpan) :
    readSpan c first last = c.readAt (UInt64.ofNat first.startCodeOffset)
      (last.stop - first.startCodeOffset) := rfl

/-- Both sources read the same access unit. -/
theorem readUnit_of_twins (hbackend : Backend Fails data Serves)
    (hfine : Backend (fun _ => False) data Serves') (h : Twins data Serves Serves' a c) :
    (∃ e a', a.readUnit = (.error e, a') ∧ ∀ c ∈ a'.channel, Fails c.storage) ∨
      ∃ answer a' c', a.readUnit = (answer, a') ∧
        (a.withChannel c).readUnit = (answer, a'.withChannel c') ∧
        Twins data Serves Serves' a' c' := by
  obtain ⟨⟨c₀, bytes₀, hchannel, hpending₀⟩, ⟨bytes, hpending⟩, hunits⟩ := h
  unfold readUnit
  simp only [show (a.withChannel c).units = a.units from rfl,
    show (a.withChannel c).cursor = a.cursor from rfl,
    show (a.withChannel c).channel = some c from rfl]
  rcases hunit : a.units[a.cursor.position]?.getD [] with _ | ⟨first, rest⟩
  · exact .inr ⟨.ok [], a, c, rfl, rfl, ⟨c₀, bytes₀, hchannel, hpending₀⟩, ⟨bytes, hpending⟩,
      hunits⟩
  · have hmem : first :: rest ∈ a.units := by
      rcases hget : a.units[a.cursor.position]? with _ | unit <;> rw [hget] at hunit
      · cases hunit
      · exact List.mem_of_getElem? (hget.trans (congrArg some hunit))
    have hwithin : (UInt64.ofNat first.startCodeOffset).toNat ≤ data.length :=
      Nat.le_trans (toNat_ofNat_le _) (hunits _ hmem first (List.mem_cons_self ..))
    rw [hchannel]
    simp only [readSpan_eq_readAt]
    rcases Channel.readAt_of_backends hbackend hfine hpending₀ hpending hwithin
        ((rest.getLastD first).stop - first.startCodeOffset) with
      ⟨e, c₁, hread, hfails⟩ | ⟨answer, c₁, c₂, hread, hread', ⟨bytes₁, hpending₁⟩, hpending₂⟩
    · rw [hread]
      refine .inl ⟨e, _, rfl, ?_⟩
      rintro _ ⟨⟩
      exact hfails
    · rw [hread, hread']
      cases answer with
      | error e =>
        exact .inr ⟨.error e, { a with channel := some c₁ }, c₂, rfl, rfl,
          ⟨c₁, bytes₁, rfl, hpending₁⟩, hpending₂, hunits⟩
      | ok span =>
        exact .inr ⟨_, _, c₂, rfl, rfl, ⟨c₁, bytes₁, rfl, hpending₁⟩, hpending₂, hunits⟩

/-- **The access units of two indexed sources are the same**, until the storage of the first one
fails. -/
theorem next_of_twins (hbackend : Backend Fails data Serves)
    (hfine : Backend (fun _ => False) data Serves') (h : Twins data Serves Serves' a c) :
    (∃ a', a.next = ([], a') ∧ Spent a' ∧ ∀ c ∈ a'.channel, Fails c.storage) ∨
      ∃ unit a' c', a.next = (unit, a') ∧ (a.withChannel c).next = (unit, a'.withChannel c') ∧
        Twins data Serves Serves' a' c' := by
  unfold next
  rw [show (a.withChannel c).isGood = a.isGood from rfl]
  cases a.isGood with
  | false => exact .inr ⟨_, _, _, rfl, rfl, h⟩
  | true =>
    rcases readUnit_of_twins hbackend hfine h with
      ⟨e, a', hread, hfails⟩ | ⟨answer, a', c', hread, hother, hlater⟩
    · rw [hread]
      exact .inl ⟨_, rfl, spent_of_not_intact rfl, hfails⟩
    · rw [hread, hother]
      cases answer with
      | error e =>
        exact .inr ⟨[], { a' with intact := false }, c', rfl, rfl, hlater.channel, hlater.pending,
          hlater.units⟩
      | ok unit =>
        exact .inr ⟨unit, { a' with cursor := a'.cursor.advance }, c', rfl, rfl, hlater.channel,
          hlater.pending, hlater.units⟩

/-- Indexing finds the units of the data, or fails with the storage. -/
theorem indexInput_of_backend (hbackend : Backend Fails data Serves) {c₀ : Channel σ}
    {bytes : List UInt8} (h : c₀.Pending Serves bytes) :
    (∃ e c', indexInput c₀ = (.error e, c') ∧ Fails c'.storage) ∨
      ∃ c', c'.Pending Serves [] ∧
        indexInput c₀ = (if nalSpans data = [] then .error (.noNalUnit data.length)
          else .ok (nalSpans data), c') := by
  rcases Channel.seek_of_backend hbackend h
      (show (0 : UInt64).toNat ≤ data.length from Nat.zero_le _) with
    ⟨e, c₁, hseek, hfails⟩ | ⟨n, c₁, hseek, hpending⟩
  · unfold indexInput
    rw [hseek]
    exact .inl ⟨e, c₁, rfl, hfails⟩
  · exact indexInput_of_seek hbackend.toLapses hseek hpending

/-- Two sources find the same access units in their input, or the first one is left without. -/
theorem twins_ofChannel (hbackend : Backend Fails data Serves)
    (hfine : Backend (fun _ => False) data Serves') {c₀ : Channel σ} {bytes₀ bytes : List UInt8}
    (h₀ : c₀.Pending Serves bytes₀) (h : c.Pending Serves' bytes) (config : SourceConfig) :
    (Spent (ofChannel c₀ config) ∧ ∀ c ∈ (ofChannel c₀ config).channel, Fails c.storage) ∨
      ∃ c', ofChannel c config = (ofChannel c₀ config).withChannel c' ∧
        Twins data Serves Serves' (ofChannel c₀ config) c' := by
  obtain ⟨c₂, hpending, hindex⟩ := (indexInput_of_backend hfine h).resolve_left (by simp)
  unfold ofChannel
  rw [hindex]
  rcases indexInput_of_backend hbackend h₀ with ⟨e, c₁, hindex₀, -⟩ | ⟨c₁, hpending₀, hindex₀⟩
  · rw [hindex₀]
    exact .inl ⟨spent_of_not_intact rfl, nofun⟩
  · rw [hindex₀]
    by_cases hnone : nalSpans data = []
    · simp only [if_pos hnone]
      exact .inl ⟨spent_of_not_intact rfl, nofun⟩
    · simp only [if_neg hnone]
      refine .inr ⟨c₂, rfl, ⟨c₁, [], rfl, hpending₀⟩, ⟨[], hpending⟩, fun unit hunit u hu => ?_⟩
      have hlies := (inOrder_of_mem_groupedSpans hunit).1 u hu
      have hle := hlies.startCodeOffset_le
      exact Nat.le_trans (Nat.le_trans hle.1 hle.2) hlies.2

end IndexedSource

/-! ### Raw frames -/

theorem ReplayCursor.length_advance (x : ReplayCursor) : x.advance.length = x.length := by
  unfold advance
  simp only
  split
  · rfl
  · split <;> rfl

/-- A cursor that is not at the end stands at an access unit of the pass. -/
theorem ReplayCursor.position_lt_of_advance {x : ReplayCursor} (h : x.position < x.length) :
    x.advance.atEnd = false → x.advance.position < x.advance.length := by
  unfold advance
  simp only
  split
  · exact fun _ => ‹_›
  · split
    · exact fun _ => Nat.lt_of_le_of_lt (Nat.zero_le _) h
    · nofun

namespace YuvSource

variable {a a' : YuvSource σ} {c : Channel τ}

/-- The source with another channel. -/
def withChannel (s : YuvSource σ) (c : Channel τ) : YuvSource τ :=
  { config := s.config, channel := some c, frameSize := s.frameSize, frameCount := s.frameCount
    cursor := s.cursor, intact := s.intact }

/-- The source `a`, and the same source with the channel `c`, have frames of `data` to read. -/
structure Twins (data : List UInt8) (Serves : σ → List UInt8 → Prop)
    (Serves' : τ → List UInt8 → Prop) (a : YuvSource σ) (c : Channel τ) : Prop where
  channel : ∃ c₀ bytes, a.channel = some c₀ ∧ c₀.Pending Serves bytes
  pending : ∃ bytes, c.Pending Serves' bytes
  frames : a.cursor.length * a.frameSize ≤ data.length
  position : a.cursor.atEnd = false → a.cursor.position < a.cursor.length

variable [Storage σ] [Storage τ]

theorem spent_of_not_intact (h : a.intact = false) : Spent a :=
  spent_of_not_isGood (by rw [isGood, h]; rfl)

/-- A frame is read from its place in the data. -/
theorem readFrame_eq {c₀ : Channel σ} (h : a.channel = some c₀) (index : Nat) :
    a.readFrame index =
      match c₀.readAt (UInt64.ofNat (index * a.frameSize)) a.frameSize with
      | (.error e, c) => (.error e, { a with channel := some c })
      | (.ok bytes, c) =>
        (.ok { Sample.ofPayload bytes with
            time := a.config.mode.stamp a.cursor.served.toNat, marker := true },
          { a with channel := some c }) := by
  unfold readFrame Channel.readAt
  rw [h]
  simp only
  rcases c₀.seek (.start (UInt64.ofNat (index * a.frameSize))) with ⟨_ | _, c₁⟩ <;> rfl

/-- The frames of a source lie in the data. -/
theorem frames_le (hbackend : Backend Fails data Serves) {c₀ : Channel σ} {bytes : List UInt8}
    (h : c₀.Pending Serves bytes) {config : YuvConfig} {frameSize frameCount : Nat}
    (hcount : countFrames c₀ config frameSize = .ok frameCount) :
    frameCount * frameSize ≤ data.length := by
  obtain ⟨tail, hserves, -⟩ := h
  unfold countFrames at hcount
  split at hcount
  · cases hcount
  · rcases hsize : c₀.size with _ | size <;> rw [hsize] at hcount
    · cases hcount
    · obtain rfl := Except.ok.inj hcount
      rw [hbackend.size hserves hsize]
      exact Nat.div_mul_le_self ..

/-- **The frames of two sources are the same**, until the storage of the first one fails. -/
theorem next_of_twins (hbackend : Backend Fails data Serves)
    (hfine : Backend (fun _ => False) data Serves') (h : Twins data Serves Serves' a c) :
    (∃ a', a.next = ([], a') ∧ Spent a' ∧ ∀ c ∈ a'.channel, Fails c.storage) ∨
      ∃ unit a' c', a.next = (unit, a') ∧ (a.withChannel c).next = (unit, a'.withChannel c') ∧
        Twins data Serves Serves' a' c' := by
  obtain ⟨⟨c₀, bytes₀, hchannel, hpending₀⟩, ⟨bytes, hpending⟩, hframes, hposition⟩ := h
  unfold next
  rw [show (a.withChannel c).isGood = a.isGood from rfl]
  cases hgood : a.isGood with
  | false =>
    exact .inr ⟨_, _, _, rfl, rfl, ⟨c₀, bytes₀, hchannel, hpending₀⟩, ⟨bytes, hpending⟩, hframes,
      hposition⟩
  | true =>
    have hlt : a.cursor.position < a.cursor.length := by
      apply hposition
      rw [isGood] at hgood
      simpa using (Bool.and_eq_true_iff.1 hgood).2
    have hwithin : (UInt64.ofNat (a.cursor.position * a.frameSize)).toNat ≤
        data.length :=
      Nat.le_trans (toNat_ofNat_le _)
        (Nat.le_trans (Nat.mul_le_mul_right _ (Nat.le_of_lt hlt)) hframes)
    have hframe : (a.withChannel c).readFrame (a.withChannel c).cursor.position = _ :=
      readFrame_eq rfl a.cursor.position
    simp only [readFrame_eq hchannel, hframe, show (a.withChannel c).config = a.config from rfl,
      show (a.withChannel c).frameSize = a.frameSize from rfl]
    rcases Channel.readAt_of_backends hbackend hfine hpending₀ hpending hwithin a.frameSize with
      ⟨e, c₁, hread, hfails⟩ | ⟨answer, c₁, c₂, hread, hread', ⟨bytes₁, hpending₁⟩, hpending₂⟩
    · rw [hread]
      refine .inl ⟨_, rfl, spent_of_not_intact rfl, ?_⟩
      rintro _ ⟨⟩
      exact hfails
    · rw [hread, hread']
      cases answer with
      | error e =>
        exact .inr ⟨[], { a with channel := some c₁, intact := false }, c₂, rfl, rfl,
          ⟨c₁, bytes₁, rfl, hpending₁⟩, hpending₂, hframes, hposition⟩
      | ok frame =>
        refine .inr ⟨_, { a with channel := some c₁, cursor := a.cursor.advance }, c₂, rfl, rfl,
          ⟨c₁, bytes₁, rfl, hpending₁⟩, hpending₂, ?_, ?_⟩
        · simp only [ReplayCursor.length_advance]
          exact hframes
        · exact ReplayCursor.position_lt_of_advance hlt

/-- There is a source where the size of a frame fits in its word. -/
theorem ofChannel_of_frameSize {config : YuvConfig} {size : UInt64}
    (hsize : config.frameSize = .ok size) (c : Channel σ) :
    ofChannel c config = .ok (ofFrames c config size.toNat) := by
  rw [ofChannel, hsize]
  rfl

theorem ofChannel_of_halt {config : YuvConfig} {halt : Halt}
    (hsize : config.frameSize = .error halt) (c : Channel σ) :
    ofChannel c config = .error halt := by
  rw [ofChannel, hsize]
  rfl

/-- Two sources find the same frames in their input, or the first one is left without. -/
theorem twins_ofFrames (hbackend : Backend Fails data Serves) {c₀ : Channel σ}
    {bytes₀ bytes : List UInt8} (h₀ : c₀.Pending Serves bytes₀) (h : c.Pending Serves' bytes)
    (hsize : c.size = c₀.size) (config : YuvConfig) (frameSize : Nat) :
    (Spent (ofFrames c₀ config frameSize) ∧
        ∀ c ∈ (ofFrames c₀ config frameSize).channel, Fails c.storage) ∨
      ofFrames c config frameSize = (ofFrames c₀ config frameSize).withChannel c ∧
        Twins data Serves Serves' (ofFrames c₀ config frameSize) c := by
  have hcount : countFrames c config frameSize = countFrames c₀ config frameSize := by
    unfold countFrames
    rw [hsize]
  unfold ofFrames
  rw [hcount]
  rcases hframes : countFrames c₀ config frameSize with e | frameCount
  · exact .inl ⟨spent_of_not_intact rfl, nofun⟩
  · refine .inr ⟨rfl, ⟨c₀, bytes₀, rfl, h₀⟩, ⟨bytes, h⟩, ?_, fun hend => ?_⟩
    · exact frames_le hbackend h₀ hframes
    · exact Nat.pos_of_ne_zero (by simpa [ReplayCursor.start] using hend)

end YuvSource

/-! ### All sources -/

theorem StreamReader.spent_of_not_intact [Storage σ] {a : StreamReader σ} (h : a.intact = false) :
    Spent a :=
  spent_of_not_isGood (by rw [isGood, h]; rfl)

namespace MediaSource

variable [Storage σ] [Storage τ]

/-- **Failures only cut a source short.**  Reads of the storage come in portions of any size, and
any of its reads and seeks may fail, during construction or later.  For each kind of source, the
access units handed out over it are the first ones of those over storage that does not fail, and all
of them as long as no call has failed.  After one has, the source is not good, and stays so, and
hands out nothing more, whatever the storage would still do.  A source that could not be made has no
channel, and counts as one that has failed; and where the size of a frame leaves 64 bits, the program
faults over either storage. -/
theorem cutShort_of_failures (hfaulty : Backend (fun _ => True) data Serves)
    (hfine : Backend (fun _ => False) data Serves') {s : σ} {t : τ} (hs : Serves s data)
    (ht : Serves' t data) (hsize : Storage.size t = Storage.size s) (config : SourceConfig)
    (frames : YuvConfig) (mediaType : MediaType) (mode : TimestampMode) (chunkSize : Nat) :
    let faulty : Channel (Watched σ) := .ofStorage { storage := s }
    let fine : Channel τ := .ofStorage t
    CutShort (fun a => ∀ c ∈ a.channel, c.storage.failed = true)
        (IndexedSource.ofChannel faulty config) (IndexedSource.ofChannel fine config) ∧
      (match frames.frameSize with
        | .error halt => YuvSource.ofChannel faulty frames = .error halt ∧
            YuvSource.ofChannel fine frames = .error halt
        | .ok _ => ∃ a b, YuvSource.ofChannel faulty frames = .ok a ∧
            YuvSource.ofChannel fine frames = .ok b ∧
            CutShort (fun a => ∀ c ∈ a.channel, c.storage.failed = true) a b) ∧
      CutShort (fun a => a.channel.storage.failed = true)
        ((StreamReader.ofChannel faulty mediaType mode).withChunkSize chunkSize)
        ((StreamReader.ofChannel fine mediaType mode).withChunkSize chunkSize) := by
  intro faulty fine
  have hwatched := hfaulty.watched
  have hpending : faulty.Pending (Watched.Serves Serves) data := Channel.pending_ofStorage ⟨rfl, hs⟩
  have hpending' : fine.Pending Serves' data := Channel.pending_ofStorage ht
  refine ⟨?_, ?_, ?_⟩
  · exact cutShort_of_twins (fun a c => IndexedSource.next_of_twins hwatched hfine)
      (fun a c h => Channel.not_failed_of_pending h.channel)
      (IndexedSource.twins_ofChannel hwatched hfine hpending hpending' config)
  · rcases hframe : frames.frameSize with halt | size
    · exact ⟨YuvSource.ofChannel_of_halt hframe faulty, YuvSource.ofChannel_of_halt hframe fine⟩
    · refine ⟨_, _, YuvSource.ofChannel_of_frameSize hframe faulty,
        YuvSource.ofChannel_of_frameSize hframe fine, ?_⟩
      exact cutShort_of_twins (fun a c => YuvSource.next_of_twins hwatched hfine)
        (fun a c h => Channel.not_failed_of_pending h.channel)
        ((YuvSource.twins_ofFrames hwatched hpending hpending' hsize frames size.toNat).imp_right
          fun h => ⟨fine, h⟩)
  · have hnext : ∀ (a : StreamReader (Watched σ)) (c : Channel τ),
        (∃ rest, StreamReader.Twins (Watched.Serves Serves) Serves' a c rest) →
          (∃ a', next a = ([], a') ∧ Spent a' ∧ a'.channel.storage.failed = true) ∨
            ∃ unit a' c', next a = (unit, a') ∧
              next (a.withChannel c) = (unit, a'.withChannel c') ∧
              ∃ rest', StreamReader.Twins (Watched.Serves Serves) Serves' a' c' rest' := by
      intro a c h
      refine (StreamReader.next_of_twins hwatched.toLapses hfine.toLapses a c h).imp_left ?_
      rintro ⟨a', hnext, hlost, hfailed⟩
      exact ⟨a', hnext, StreamReader.spent_of_not_intact hlost, hfailed⟩
    exact cutShort_of_twins hnext
      (fun a c ⟨rest, h⟩ => by simp [h.fed.pending.failed_eq_false])
      (.inr ⟨fine, rfl, data, ⟨hpending, nofun, Nat.le_max_right ..⟩, hpending'⟩)

/-- A seek and two reads go well, the next call fails, and after it all goes well again. -/
theorem cutShort_of_failures_scripted :
    let data := [0, 0, 0, 1, 9, 240, 0, 0, 0, 1, 101, 136]
    let s : ScriptedStore :=
      { store := .ofList data, script := [some 1, some 5, some 2, none, some 3] }
    let t := MemoryStore.ofList data
    let faulty : Channel (Watched ScriptedStore) := .ofStorage { storage := s }
    let fine : Channel MemoryStore := .ofStorage t
    Backend (fun _ => True) data (ScriptedStore.Serves data) ∧
      Backend (fun _ => False) data (MemoryStore.Serves data) ∧ ScriptedStore.Serves data s data ∧
      MemoryStore.Serves data t data ∧ Storage.size t = Storage.size s ∧
      CutShort (fun a => ∀ c ∈ a.channel, c.storage.failed = true)
        (IndexedSource.ofChannel faulty { mediaType := .h264, mode := .untimed })
        (IndexedSource.ofChannel fine { mediaType := .h264, mode := .untimed }) ∧
      (∃ a b,
        YuvSource.ofChannel faulty { width := 2, height := 2, mode := .untimed } = .ok a ∧
        YuvSource.ofChannel fine { width := 2, height := 2, mode := .untimed } = .ok b ∧
        CutShort (fun a => ∀ c ∈ a.channel, c.storage.failed = true) a b) ∧
      CutShort (fun a => a.channel.storage.failed = true)
        ((StreamReader.ofChannel faulty .h264 .untimed).withChunkSize 3)
        ((StreamReader.ofChannel fine .h264 .untimed).withChunkSize 3) := by
  intro data s t faulty fine
  have hfaulty : Backend (fun _ => True) data (ScriptedStore.Serves data) :=
    ScriptedStore.backend (by decide)
  have hfine : Backend (fun _ => False) data (MemoryStore.Serves data) :=
    MemoryStore.backend (by decide)
  have hs : ScriptedStore.Serves data s data := MemoryStore.serves_ofList data
  have ht : MemoryStore.Serves data t data := MemoryStore.serves_ofList data
  exact ⟨hfaulty, hfine, hs, ht, rfl,
    cutShort_of_failures hfaulty hfine hs ht rfl { mediaType := .h264, mode := .untimed }
      { width := 2, height := 2, mode := .untimed } .h264 .untimed 3⟩

end MediaSource

end AnnexB
