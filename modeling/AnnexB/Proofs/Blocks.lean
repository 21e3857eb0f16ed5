/-
# What a channel does, block by block

A read uses up the block, and goes on with the next one as long as bytes are wanted.  All that it can
do is said once, by the rules of `Draws`, one for each way in which a block can serve it.  Every read
follows them (`receive_draws`), whatever its storage does.

`Advancing At` says of a kind of storage that it has a position: a read moves it by the bytes that it
serves, and one that fails leaves it; a write does not move it back, and a seek moves it anywhere.  A
channel reads ahead of what it delivers, so that its own position is the lower one, by the bytes of
the block that are left (`Lags`).  No request changes that (`lags_of_requests`).

Requests here are all that a channel can be asked, writes and seeks of any kind included.
-/

import AnnexB.Proofs.Channel
import AnnexB.Proofs.Steps

namespace AnnexB

/-- What a channel can be asked. -/
inductive ChannelRequest where
  | readSome (n : Nat)
  | readExact (n : Nat)
  | write (bytes : List UInt8)
  | seek (place : SeekTarget)
  | position
  deriving DecidableEq, Repr

/-- What it gives, if it does not fail. -/
inductive ChannelReply where
  | bytes (bytes : List UInt8)
  | done
  | place (n : Nat)
  deriving DecidableEq, Repr

namespace ChannelRequest

def onChannel {σ : Type} [Storage σ] (request : ChannelRequest) :
    StateM (Channel σ) (Except Error ChannelReply) := fun c =>
  match request with
  | readSome n => let (answer, c) := c.readSome n; (answer.map .bytes, c)
  | readExact n => let (answer, c) := c.readExact n; (answer.map .bytes, c)
  | write bytes => let (answer, c) := c.write bytes; (answer.map fun _ => .done, c)
  | seek place => let (answer, c) := c.seek place; (answer.map .place, c)
  | position => let (answer, c) := c.position; (answer.map .place, c)

/-- The number of bytes that a read asks for. -/
def wanted? : ChannelRequest → Option Nat
  | readSome n => some n
  | readExact n => some n
  | _ => none

end ChannelRequest

namespace Channel

variable {σ : Type} {c c' : Channel σ} {n : Nat} {bytes : List UInt8}
  {failure : Option StorageFailure}

/-- The bytes that a request has brought. -/
def brought : Except Error ChannelReply → List UInt8
  | .ok (.bytes bytes) => bytes
  | _ => []

/-- The bytes of the block that are not delivered yet. -/
def ahead (c : Channel σ) : List UInt8 := c.block.toList.drop c.delivered

@[simp] theorem length_ahead (c : Channel σ) : c.ahead.length = c.unread := length_drop_block c

variable [Storage σ]

/-! ### Rules -/

/-- A read of `n` bytes draws some from the block, and the rest from the blocks that come after. -/
inductive Draws : Channel σ → (n : Nat) → (bytes : List UInt8) → Option StorageFailure →
    Channel σ → Prop
  | within {c : Channel σ} {n : Nat} (enough : n ≤ c.unread) :
      Draws c n (c.ahead.take n) none { c with delivered := c.delivered + n }
  /-- The block counts as unread again. -/
  | fails {c : Channel σ} {n : Nat} {failure : StorageFailure} {s' : σ} (short : c.unread < n)
      (read : Storage.read blockSize c.storage = (.error failure, s')) :
      Draws c n c.ahead (some failure) { c with storage := s', delivered := 0 }
  | ends {c : Channel σ} {n : Nat} {block : Array UInt8} {s' : σ} (short : c.unread < n)
      (read : Storage.read blockSize c.storage = (.ok block, s')) (empty : block.size = 0) :
      Draws c n c.ahead none { storage := s', block }
  | goesOn {c c' : Channel σ} {n : Nat} {block : Array UInt8} {s' : σ} {bytes : List UInt8}
      {failure : Option StorageFailure} (short : c.unread < n)
      (read : Storage.read blockSize c.storage = (.ok block, s')) (some : block.size ≠ 0)
      (draws : Draws { storage := s', block } (n - c.unread) bytes failure c') :
      Draws c n (c.ahead ++ bytes) failure c'

/-- What is drawn behind a portion of the block is drawn behind the bytes of the portion. -/
theorem Draws.of_takePortion
    (h : Draws (c.takePortion n).2 (n - (c.takePortion n).1.size) bytes failure c') :
    Draws c n ((c.takePortion n).1.toList ++ bytes) failure c' := by
  have hsize := size_takePortion c n
  have hportion : (c.takePortion n).1.toList = c.ahead.take n := toList_takePortion c n
  have hnext : (c.takePortion n).2 = { c with delivered := c.delivered + min n c.unread } := by
    rw [← hsize]
    rfl
  rw [hsize, hnext] at h
  rw [hportion]
  rcases Nat.lt_or_ge c.unread n with hshort | henough
  · rw [Nat.min_eq_right (Nat.le_of_lt hshort)] at h
    have hused : unread { c with delivered := c.delivered + c.unread } = 0 := by
      simp only [unread]
      omega
    have hnone : ahead { c with delivered := c.delivered + c.unread } = [] :=
      List.length_eq_zero_iff.1 ((length_ahead _).trans hused)
    rw [List.take_of_length_le (by rw [length_ahead]; omega)]
    cases h with
    | within enough => rw [hused] at enough; omega
    | fails _ read => rw [hnone, List.append_nil]; exact .fails hshort read
    | ends _ read empty => rw [hnone, List.append_nil]; exact .ends hshort read empty
    | goesOn _ read some draws =>
      rw [hnone, List.nil_append]
      rw [hused, Nat.sub_zero] at draws
      exact .goesOn hshort read some draws
  · rw [Nat.min_eq_left henough, Nat.sub_self] at h
    cases h with
    | within => simpa using Draws.within henough
    | fails short => exact absurd short (Nat.not_lt_zero _)
    | ends short => exact absurd short (Nat.not_lt_zero _)
    | goesOn short => exact absurd short (Nat.not_lt_zero _)

theorem deliver_draws (c : Channel σ) (n : Nat) (earlier : Array UInt8) :
    ∃ bytes failure c', c.deliver n earlier = (⟨earlier.toList ++ bytes, failure⟩, c') ∧
      Draws c n bytes failure c' := by
  induction n using Nat.strongRecOn generalizing c earlier with
  | ind n ih =>
    rw [deliver.eq_def]
    by_cases hn : n = 0
    · subst hn
      exact ⟨[], none, c, by simp, .within (Nat.zero_le _)⟩
    rw [if_neg hn]
    -- with a block that is not used up, a portion of it comes first
    have hgo : ∀ c₁ : Channel σ, c₁.unread ≠ 0 →
        ∃ bytes failure c',
          (if (c₁.takePortion n).1.isEmpty then
            ((⟨earlier.toList, none⟩ : Delivery), (c₁.takePortion n).2)
          else (c₁.takePortion n).2.deliver (n - (c₁.takePortion n).1.size)
            (earlier ++ (c₁.takePortion n).1)) = (⟨earlier.toList ++ bytes, failure⟩, c') ∧
          Draws c₁ n bytes failure c' := by
      intro c₁ hunread
      have hsize := size_takePortion c₁ n
      rw [if_neg (by rw [Array.isEmpty_iff_size_eq_zero]; omega)]
      obtain ⟨bytes, failure, c', hdeliver, hdraws⟩ := ih (n - (c₁.takePortion n).1.size) (by omega)
        (c₁.takePortion n).2 (earlier ++ (c₁.takePortion n).1)
      refine ⟨_, failure, c', ?_, hdraws.of_takePortion⟩
      rw [hdeliver, Array.toList_append, List.append_assoc]
    by_cases hunread : c.unread = 0
    · have hshort : c.unread < n := by omega
      have hnone : c.ahead = [] := List.length_eq_zero_iff.1 ((length_ahead c).trans hunread)
      rw [nextBlock, if_neg (by omega)]
      rcases hread : Storage.read blockSize c.storage with ⟨failure | block, s'⟩
      · refine ⟨c.ahead, some failure, { c with storage := s', delivered := 0 }, ?_,
          .fails hshort hread⟩
        rw [hnone, List.append_nil]
      · by_cases hempty : block.size = 0
        · obtain rfl : block = #[] := Array.size_eq_zero_iff.1 hempty
          refine ⟨c.ahead, none, { storage := s', block := #[] }, ?_, .ends hshort hread hempty⟩
          rw [hnone]
          simp [takePortion]
        · obtain ⟨bytes, failure, c', hdeliver, hdraws⟩ :=
            hgo { storage := s', block } (by simpa [unread] using hempty)
          refine ⟨bytes, failure, c', hdeliver, ?_⟩
          have hwhole := Draws.goesOn hshort hread hempty
            (by rwa [hunread, Nat.sub_zero] : Draws _ (n - c.unread) bytes failure c')
          rwa [hnone, List.nil_append] at hwhole
    · rw [nextBlock, if_pos hunread]
      exact hgo c hunread

/-- **Every read follows the rules.** -/
theorem receive_draws (c : Channel σ) (n : Nat) :
    ∃ bytes failure c', c.receive n = (⟨bytes, failure⟩, c') ∧ Draws c n bytes failure c' := by
  obtain ⟨bytes, failure, c', hdeliver, hdraws⟩ := deliver_draws c n #[]
  exact ⟨bytes, failure, c', by rw [receive, hdeliver]; rfl, hdraws⟩

/-- The rules leave no choice. -/
theorem Draws.unique {bytes' : List UInt8} {failure' : Option StorageFailure} {c₁ c₂ : Channel σ}
    (h : Draws c n bytes failure c₁) (h' : Draws c n bytes' failure' c₂) :
    bytes' = bytes ∧ failure' = failure ∧ c₂ = c₁ := by
  induction h generalizing bytes' with
  | within enough =>
    cases h' with
    | within => exact ⟨rfl, rfl, rfl⟩
    | fails short => exact absurd enough (Nat.not_le.2 short)
    | ends short => exact absurd enough (Nat.not_le.2 short)
    | goesOn short => exact absurd enough (Nat.not_le.2 short)
  | fails short read =>
    cases h' with
    | within enough => exact absurd enough (Nat.not_le.2 short)
    | fails _ read' => rw [read] at read'; cases read'; exact ⟨rfl, rfl, rfl⟩
    | ends _ read' => rw [read] at read'; cases read'
    | goesOn _ read' => rw [read] at read'; cases read'
  | ends short read empty =>
    cases h' with
    | within enough => exact absurd enough (Nat.not_le.2 short)
    | fails _ read' => rw [read] at read'; cases read'
    | ends _ read' => rw [read] at read'; cases read'; exact ⟨rfl, rfl, rfl⟩
    | goesOn _ read' some => rw [read] at read'; cases read'; exact absurd empty some
  | goesOn short read some _ ih =>
    cases h' with
    | within enough => exact absurd enough (Nat.not_le.2 short)
    | fails _ read' => rw [read] at read'; cases read'
    | ends _ read' empty => rw [read] at read'; cases read'; exact absurd empty some
    | goesOn _ read' _ draws =>
      rw [read] at read'
      cases read'
      obtain ⟨rfl, rfl, rfl⟩ := ih draws
      exact ⟨rfl, rfl, rfl⟩

/-- What the rules draw is what is received. -/
theorem Draws.receive_eq (h : Draws c n bytes failure c') :
    c.receive n = (⟨bytes, failure⟩, c') := by
  obtain ⟨bytes₁, failure₁, c₁, hreceive, hdraws⟩ := receive_draws c n
  obtain ⟨rfl, rfl, rfl⟩ := h.unique hdraws
  exact hreceive

/-- As long as the block has enough, the storage is not read. -/
theorem receive_of_le (h : n ≤ c.unread) :
    c.receive n = (⟨c.ahead.take n, none⟩, { c with delivered := c.delivered + n }) :=
  (Draws.within h).receive_eq

/-- A read that fails has not come to its end. -/
theorem Draws.length_lt {failure : StorageFailure} (h : Draws c n bytes (some failure) c') :
    bytes.length < n := by
  generalize hfailure : some failure = outcome at h
  induction h with
  | within => cases hfailure
  | fails short => rwa [length_ahead]
  | ends => cases hfailure
  | goesOn short _ _ _ ih =>
    have := ih hfailure
    rw [List.length_append, length_ahead]
    omega

/-- A read that falls short without a failure has met the end, and has no block any more. -/
theorem Draws.delivered_of_short (h : Draws c n bytes none c') (hlength : bytes.length < n) :
    c'.delivered = 0 := by
  generalize hfailure : (none : Option StorageFailure) = outcome at h
  induction h with
  | @within c n enough =>
    rw [List.length_take, length_ahead] at hlength
    omega
  | fails => cases hfailure
  | ends => rfl
  | goesOn short _ _ _ ih =>
    rw [List.length_append, length_ahead] at hlength
    exact ih (by omega) hfailure

end Channel

/-! ### Positions -/

/-- Storage with a position: `At s p` says where the state `s` stands. -/
structure Advancing {σ : Type} [Storage σ] (At : σ → Nat → Prop) : Prop where
  /-- A read that fails serves nothing, and stays. -/
  read {s : σ} {p n : Nat} (stands : At s p) :
    (∃ failure s', Storage.read n s = (.error failure, s') ∧ At s' p) ∨
      ∃ block s', Storage.read n s = (.ok block, s') ∧ block.size ≤ n ∧ At s' (p + block.size)
  write {s : σ} {p : Nat} (bytes : List UInt8) (stands : At s p) :
    ∃ p' ≥ p, At (Storage.write bytes s).2 p'
  seek {s : σ} {p : Nat} (place : SeekTarget) (stands : At s p) :
    ∃ p', At (Storage.seek place s).2 p'
  position {s : σ} {p : Nat} (stands : At s p) :
    ∃ s', Storage.position s = (.ok p, s') ∧ At s' p

namespace Channel

variable {σ : Type} {At : σ → Nat → Prop} {c c' : Channel σ} {n raw : Nat} {bytes : List UInt8}
  {failure : Option StorageFailure}

/-- The storage of a channel stands at `raw`, and the block of the channel lies before that. -/
structure Lags (At : σ → Nat → Prop) (c : Channel σ) (raw : Nat) : Prop where
  storage : At c.storage raw
  block : c.block.size ≤ raw
  delivered : c.delivered ≤ c.block.size
  blockSize : c.block.size ≤ Channel.blockSize

theorem lags_ofStorage {s : σ} {p : Nat} (h : At s p) : Lags At (ofStorage s) p :=
  ⟨h, Nat.zero_le _, Nat.le_refl _, Nat.zero_le _⟩

variable [Storage σ]

/-- The position of a channel is lower than that of its storage, by the bytes left in the block. -/
theorem position_of_lags (hstorage : Advancing At) (h : Lags At c raw) :
    ∃ c', c.position = (.ok (raw - c.unread), c') ∧ Lags At c' raw := by
  obtain ⟨s', hposition, hat⟩ := hstorage.position h.storage
  refine ⟨{ c with storage := s' }, ?_, hat, h.block, h.delivered, h.blockSize⟩
  rw [position, hposition]
  rfl

theorem fst_position_of_lags (hstorage : Advancing At) (h : Lags At c raw) :
    c.position.1 = .ok (raw - c.unread) := by
  obtain ⟨c', hposition, -⟩ := position_of_lags hstorage h
  rw [hposition]

/-- Where the block is served whole, the channel lags behind its end. -/
theorem Lags.next (hstorage : Advancing At) (h : Lags At c raw) {block : Array UInt8} {s' : σ}
    (hread : Storage.read Channel.blockSize c.storage = (.ok block, s')) :
    Lags At { storage := s', block } (raw + block.size) := by
  rcases hstorage.read h.storage with
    ⟨failure, s₁, hfailed, -⟩ | ⟨block₁, s₁, hmade, hsize, hat⟩
  · rw [hread] at hfailed
    cases hfailed
  · rw [hread] at hmade
    cases hmade
    exact ⟨hat, Nat.le_add_left .., Nat.zero_le _, hsize⟩

/-- A read of the storage that fails leaves the block where it was. -/
theorem Lags.failed (hstorage : Advancing At) (h : Lags At c raw) {failure : StorageFailure}
    {s' : σ} (hread : Storage.read Channel.blockSize c.storage = (.error failure, s')) :
    Lags At { c with storage := s', delivered := 0 } raw := by
  rcases hstorage.read h.storage with
    ⟨failure₁, s₁, hfailed, hat⟩ | ⟨block₁, s₁, hmade, -⟩
  · rw [hread] at hfailed
    cases hfailed
    exact ⟨hat, h.block, Nat.zero_le _, h.blockSize⟩
  · rw [hread] at hmade
    cases hmade

/-- **A read moves the storage on, or leaves it.** -/
theorem Draws.lags (hstorage : Advancing At) (hdraws : Draws c n bytes failure c')
    (h : Lags At c raw) : ∃ raw' ≥ raw, Lags At c' raw' := by
  induction hdraws generalizing raw with
  | @within c n enough =>
    refine ⟨raw, Nat.le_refl _, h.storage, h.block, ?_, h.blockSize⟩
    have := h.delivered
    simp only [unread] at enough ⊢
    omega
  | fails _ read => exact ⟨raw, Nat.le_refl _, h.failed hstorage read⟩
  | ends _ read => exact ⟨_, Nat.le_add_right .., h.next hstorage read⟩
  | goesOn _ read _ _ ih =>
    obtain ⟨raw', hle, hlags⟩ := ih (h.next hstorage read)
    exact ⟨raw', by omega, hlags⟩

/-! ### Requests -/

/-- A request that reads brings what it draws, or falls short of it at the end, or fails. -/
theorem onChannel_of_wanted {request : ChannelRequest} (h : request.wanted? = some n)
    (c : Channel σ) :
    ∃ bytes failure, Draws c n bytes failure (request.onChannel c).2 ∧
      ((failure = none ∧ (request.onChannel c).1 = .ok (.bytes bytes)) ∨
        (failure = none ∧ bytes.length < n ∧ (request.onChannel c).1 = .error .endOfData) ∨
        ∃ failed, failure = some failed ∧ (request.onChannel c).1 = .error (.storage failed)) := by
  obtain ⟨bytes, failure, c', hreceive, hdraws⟩ := receive_draws c n
  refine ⟨bytes, failure, ?_⟩
  cases request with
  | readSome m =>
    cases h
    simp only [ChannelRequest.onChannel, readSome, hreceive]
    cases failure with
    | none => exact ⟨hdraws, .inl ⟨rfl, rfl⟩⟩
    | some failed => exact ⟨hdraws, .inr (.inr ⟨failed, rfl, rfl⟩)⟩
  | readExact m =>
    cases h
    simp only [ChannelRequest.onChannel, readExact, readSome, hreceive]
    cases failure with
    | none =>
      refine ⟨hdraws, ?_⟩
      rcases Nat.lt_or_ge bytes.length n with hshort | hwhole
      · exact .inr (.inl ⟨rfl, hshort, by simp only [if_pos hshort]; rfl⟩)
      · exact .inl ⟨rfl, by simp only [if_neg (Nat.not_lt.2 hwhole)]; rfl⟩
    | some failed => exact ⟨hdraws, .inr (.inr ⟨failed, rfl, rfl⟩)⟩
  | write => cases h
  | seek => cases h
  | position => cases h

/-- A request keeps the channel behind its storage. -/
theorem lags_onChannel (hstorage : Advancing At) (h : Lags At c raw) (request : ChannelRequest) :
    ∃ raw', Lags At (request.onChannel c).2 raw' := by
  have hread : ∀ n, request.wanted? = some n → ∃ raw', Lags At (request.onChannel c).2 raw' := by
    intro n hwanted
    obtain ⟨bytes, failure, hdraws, -⟩ := onChannel_of_wanted hwanted c
    obtain ⟨raw', -, hlags⟩ := hdraws.lags hstorage h
    exact ⟨raw', hlags⟩
  cases request with
  | readSome n => exact hread n rfl
  | readExact n => exact hread n rfl
  | write bytes =>
    obtain ⟨p', hle, hat⟩ := hstorage.write bytes h.storage
    exact ⟨p', hat, Nat.le_trans h.block hle, h.delivered, h.blockSize⟩
  | seek place =>
    obtain ⟨p', hat⟩ := hstorage.seek place h.storage
    exact ⟨p', lags_ofStorage hat⟩
  | position =>
    obtain ⟨c', hposition, hlags⟩ := position_of_lags hstorage h
    refine ⟨raw, ?_⟩
    simp only [ChannelRequest.onChannel, hposition]
    exact hlags

/-- **Whatever is asked of a channel, its storage does not fall behind it.** -/
theorem lags_of_requests (hstorage : Advancing At) (h : Lags At c raw)
    (requests : List ChannelRequest) :
    ∃ raw', Lags At ((requests.mapM ChannelRequest.onChannel).run c).2 raw' :=
  run_mapM_of_inv (I := fun c => ∃ raw, Lags At c raw)
    (fun request _ ⟨_, hlags⟩ => lags_onChannel hstorage hlags request) requests ⟨raw, h⟩

end Channel

/-! ### Storage in memory -/

theorem MemoryStore.advancing : Advancing fun (s : MemoryStore) p => s.position = p where
  read := by
    rintro s _ n rfl
    refine .inr ⟨_, _, rfl, ?_, rfl⟩
    simp only [Array.size_extract]
    omega
  write := by
    rintro s _ bytes rfl
    exact ⟨s.position + bytes.length, Nat.le_add_right .., rfl⟩
  seek := fun _ _ => ⟨_, rfl⟩
  position := by
    rintro s _ rfl
    exact ⟨s, rfl, rfl⟩

end AnnexB
