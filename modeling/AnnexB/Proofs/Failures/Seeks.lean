/-
# What a seek that fails leaves of a channel

A seek drops the block before the storage is asked.  Where the storage refuses, the bytes of the block
that are not delivered yet are gone, although nothing has moved: the seek is a read of these bytes
which nobody gets.

| behind a refused seek at position `p`, with `n` bytes left of the block | |
| --- | --- |
| the position | `p + n` |
| reads | what they give behind a read of `n` bytes |

So it goes unnoticed if and only if the block is used up (`failed_seek_unnoticed_iff`).

`Unmoved R` says of a kind of storage that a seek which fails leaves it as it was, so far as reads and
the position can tell: `R` relates the states that these do not tell apart.  Over such states, channels
with the same bytes left of their blocks are answered alike as long as none relapses
(`answers_of_shadows`): their blocks may differ in what is delivered of them, and that comes again
only in a relapse.
-/

import AnnexB.Proofs.Failures.Relapses

namespace AnnexB

/-- Storage that a failed seek does not move: `R` relates states that give the same to reads and
for the position, now and later. -/
structure Unmoved {σ : Type} [Storage σ] (R : σ → σ → Prop) : Prop where
  seek {s s' : σ} {place : SeekTarget} {failure : StorageFailure}
    (failed : Storage.seek place s = (.error failure, s')) : R s s'
  read {s t : σ} (n : Nat) (alike : R s t) :
    (Storage.read n s).1 = (Storage.read n t).1 ∧ R (Storage.read n s).2 (Storage.read n t).2
  position {s t : σ} (alike : R s t) :
    (Storage.position s).1 = (Storage.position t).1 ∧
      R (Storage.position s).2 (Storage.position t).2

/-- The request reads, or asks for the position. -/
def ChannelRequest.IsReading : ChannelRequest → Prop
  | readSome _ => True
  | readExact _ => True
  | position => True
  | write _ => False
  | seek _ => False

namespace Channel

variable {σ : Type} {R : σ → σ → Prop} {c c' : Channel σ} {n : Nat}

/-- The same bytes are left of the blocks of two channels, and their storage gives the same.  Less may
be delivered of the block of the second one. -/
structure Shadows (R : σ → σ → Prop) (c c' : Channel σ) : Prop where
  storage : R c.storage c'.storage
  ahead : c.ahead = c'.ahead
  delivered : c'.delivered ≤ c.delivered

/-- What requests in a row are answered. -/
def answers [Storage σ] (c : Channel σ) (requests : List ChannelRequest) :
    List (Except Error ChannelReply) :=
  ((requests.mapM ChannelRequest.onChannel).run c).1

theorem Shadows.unread_eq (h : Shadows R c c') : c.unread = c'.unread := by
  rw [← length_ahead, ← length_ahead, h.ahead]

variable [Storage σ] (hstorage : Unmoved R)

include hstorage

/-- What the storage of the first channel serves, that of the second one serves too. -/
theorem Shadows.read_eq (h : Shadows R c c') {answer : Except StorageFailure (Array UInt8)} {s' : σ}
    (hread : Storage.read n c.storage = (answer, s')) :
    ∃ t', Storage.read n c'.storage = (answer, t') ∧ R s' t' := by
  obtain ⟨hanswer, halike⟩ := hstorage.read n h.storage
  rw [hread] at hanswer halike
  exact ⟨(Storage.read n c'.storage).2, Prod.ext hanswer.symm rfl, halike⟩

/-- **A read draws the same from both channels**, and from then on as well, unless the first one
relapses. -/
theorem Draws.shadowed {bytes : List UInt8} {failure : Option StorageFailure} {c₁ : Channel σ}
    (hdraws : Draws c n bytes failure c₁) (h : Shadows R c c') (hsteady : ¬c.Relapses n) :
    ∃ c₂, Draws c' n bytes failure c₂ ∧ Shadows R c₁ c₂ := by
  induction hdraws generalizing c' with
  | @within c n enough =>
    have hahead : ahead { c with delivered := c.delivered + n } =
        ahead { c' with delivered := c'.delivered + n } := by
      rw [ahead, ahead, ← List.drop_drop, ← List.drop_drop]
      exact congrArg (List.drop n) h.ahead
    rw [h.ahead]
    exact ⟨_, .within (h.unread_eq ▸ enough), h.storage, hahead,
      Nat.add_le_add_right h.delivered n⟩
  | @fails c n failure s' short read =>
    obtain ⟨t', hread, halike⟩ := h.read_eq hstorage read
    -- nothing of the blocks is delivered, or this were a relapse
    have hnone : c.delivered = 0 := by
      by_contra hpos
      exact hsteady ⟨short, Nat.pos_of_ne_zero hpos, failure, s', read⟩
    have hnone' : c'.delivered = 0 := Nat.le_zero.1 (hnone ▸ h.delivered)
    have hahead := h.ahead
    rw [ahead, ahead, hnone, hnone'] at hahead
    rw [h.ahead]
    exact ⟨_, .fails (h.unread_eq ▸ short) hread, halike, hahead, Nat.le_refl _⟩
  | ends short read empty =>
    obtain ⟨t', hread, halike⟩ := h.read_eq hstorage read
    rw [h.ahead]
    exact ⟨_, .ends (h.unread_eq ▸ short) hread empty, halike, rfl, Nat.le_refl _⟩
  | @goesOn c c₁ n block s' bytes failure short read some draws ih =>
    obtain ⟨t', hread, halike⟩ := h.read_eq hstorage read
    have hfresh : ¬Relapses { storage := s', block } (n - c.unread) :=
      fun hrelapses => absurd hrelapses.2.1 (Nat.lt_irrefl 0)
    have hnext : Shadows R { storage := s', block } { storage := t', block } :=
      ⟨halike, rfl, Nat.le_refl _⟩
    obtain ⟨c₂, hdraws, hshadows⟩ := ih hnext hfresh
    rw [h.unread_eq] at short hdraws
    rw [h.ahead]
    exact ⟨c₂, .goesOn short hread some hdraws, hshadows⟩

theorem receive_of_shadows (h : Shadows R c c') (hsteady : ¬c.Relapses n) :
    ∃ delivery c₁ c₂, c.receive n = (delivery, c₁) ∧ c'.receive n = (delivery, c₂) ∧
      Shadows R c₁ c₂ := by
  obtain ⟨bytes, failure, c₁, hreceive, hdraws⟩ := receive_draws c n
  obtain ⟨c₂, hdraws', hshadows⟩ := hdraws.shadowed hstorage h hsteady
  exact ⟨_, c₁, c₂, hreceive, hdraws'.receive_eq, hshadows⟩

/-- A request that reads is answered alike. -/
theorem onChannel_of_shadows (h : Shadows R c c') {request : ChannelRequest}
    (hreading : request.IsReading) (hsteady : ¬request.Relapses c) :
    (request.onChannel c).1 = (request.onChannel c').1 ∧
      Shadows R (request.onChannel c).2 (request.onChannel c').2 := by
  cases request with
  | readSome n =>
    obtain ⟨⟨bytes, failure⟩, c₁, c₂, hreceive, hreceive', hshadows⟩ :=
      receive_of_shadows hstorage h fun hrelapses => hsteady ⟨n, rfl, hrelapses⟩
    simp only [ChannelRequest.onChannel, readSome, hreceive, hreceive']
    cases failure <;> exact ⟨rfl, hshadows⟩
  | readExact n =>
    obtain ⟨⟨bytes, failure⟩, c₁, c₂, hreceive, hreceive', hshadows⟩ :=
      receive_of_shadows hstorage h fun hrelapses => hsteady ⟨n, rfl, hrelapses⟩
    simp only [ChannelRequest.onChannel, readExact, readSome, hreceive, hreceive']
    cases failure <;> exact ⟨rfl, hshadows⟩
  | position =>
    obtain ⟨hanswer, halike⟩ := hstorage.position h.storage
    refine ⟨?_, halike, h.ahead, h.delivered⟩
    simp only [ChannelRequest.onChannel, position, hanswer, h.unread_eq]
  | write => exact hreading.elim
  | seek => exact hreading.elim

/-- **Reads in a row are answered alike**, if the first channel does not relapse. -/
theorem answers_of_shadows (h : Shadows R c c') {later : List ChannelRequest}
    (hreading : ∀ request ∈ later, request.IsReading) (hsteady : Steady later c) :
    c'.answers later = c.answers later := by
  induction later generalizing c c' with
  | nil => rfl
  | cons request later ih =>
    obtain ⟨hanswer, hshadows⟩ :=
      onChannel_of_shadows hstorage h (hreading _ (List.mem_cons_self ..)) hsteady.1
    have hlater := ih hshadows (fun r hr => hreading r (List.mem_cons_of_mem _ hr)) hsteady.2
    unfold answers at hlater ⊢
    rw [run_mapM_cons, run_mapM_cons, hanswer, hlater]

omit hstorage

/-! ### The seek -/

/-- A seek fails with the storage, and drops the block. -/
theorem exists_of_seek_error {place : SeekTarget} {e : Error}
    (h : c.seek place = (.error e, c')) :
    ∃ failure s', Storage.seek place c.storage = (.error failure, s') ∧ c' = ofStorage s' := by
  unfold seek at h
  rcases hseek : Storage.seek place c.storage with ⟨failure | n, s'⟩ <;> rw [hseek] at h <;> cases h
  exact ⟨failure, s', rfl, rfl⟩

/-- A read of the rest of the block takes it from the block. -/
theorem readSome_unread (c : Channel σ) :
    (c.readSome c.unread).2 = { c with delivered := c.delivered + c.unread } := by
  simp only [readSome, receive_of_le (Nat.le_refl c.unread)]

/-- Behind a failed seek, nothing is left of the block, as behind a read of the rest of it. -/
theorem shadows_of_seek_error (hunmoved : Unmoved R) {place : SeekTarget} {e : Error}
    (h : c.seek place = (.error e, c')) : Shadows R (c.readSome c.unread).2 c' := by
  obtain ⟨failure, s', hseek, rfl⟩ := exists_of_seek_error h
  rw [readSome_unread]
  refine ⟨hunmoved.seek hseek, List.length_eq_zero_iff.1 ?_, Nat.zero_le _⟩
  rw [length_ahead]
  simp only [unread]
  omega

/-- The position behind a failed seek is that of the storage. -/
theorem position_of_seek_error {At : σ → Nat → Prop} (hstorage : Advancing At)
    (hunmoved : Unmoved R) {raw : Nat} (hlags : Lags At c raw) {place : SeekTarget} {e : Error}
    (h : c.seek place = (.error e, c')) : c'.position.1 = .ok raw := by
  obtain ⟨failure, s', hseek, rfl⟩ := exists_of_seek_error h
  obtain ⟨s₁, hraw, -⟩ := hstorage.position hlags.storage
  have hsame := (hunmoved.position (hunmoved.seek hseek)).1
  rw [hraw] at hsame
  rw [position]
  change ((Storage.position s').1.map (· - 0)).mapError Error.storage = .ok raw
  rw [← hsame]
  rfl

/-- **A failed seek is a read of the rest of the block that nobody gets.**  A channel over storage
that a failed seek does not move is asked anything: reads, writes, seeks and positions.  From the
position `p` that it tells then, a seek that fails leads to `p` and as many bytes further as the block
has left, and reads are answered from there on as behind a read of these bytes.  So position and reads
are the same as without the seek if and only if the block was used up.  This is said of reads with
which the channel would not relapse. -/
theorem failed_seek_unnoticed_iff {At : σ → Nat → Prop} (hstorage : Advancing At)
    (hunmoved : Unmoved R) {s : σ} {p₀ : Nat} (hs : At s p₀) (requests : List ChannelRequest) :
    let c := ((requests.mapM ChannelRequest.onChannel).run (ofStorage s)).2
    ∃ p, c.position.1 = .ok p ∧
      ∀ (place : SeekTarget) (e : Error) (c' : Channel σ), c.seek place = (.error e, c') →
        let skipped := (c.readSome c.unread).2
        c'.position.1 = .ok (p + c.unread) ∧
        (∀ later : List ChannelRequest, (∀ request ∈ later, request.IsReading) →
          Steady later skipped → c'.answers later = skipped.answers later) ∧
        ((∀ later : List ChannelRequest, (∀ request ∈ later, request.IsReading) →
          Steady later c → c'.answers later = c.answers later) ↔ c.unread = 0) := by
  intro c
  obtain ⟨raw, hlags⟩ := lags_of_requests hstorage (lags_ofStorage hs) requests
  have hposition : c.position.1 = .ok (raw - c.unread) := fst_position_of_lags hstorage hlags
  have hbefore : c.unread ≤ raw := Nat.le_trans (Nat.sub_le ..) hlags.block
  refine ⟨raw - c.unread, hposition, fun place e c' hfailed => ?_⟩
  intro skipped
  have hplace : c'.position.1 = .ok (raw - c.unread + c.unread) := by
    rw [Nat.sub_add_cancel hbefore]
    exact position_of_seek_error hstorage hunmoved hlags hfailed
  have hshadows : Shadows R skipped c' := shadows_of_seek_error hunmoved hfailed
  refine ⟨hplace, fun later => answers_of_shadows hunmoved hshadows, fun hsame => ?_,
    fun hnone => ?_⟩
  · -- to ask for the position is enough
    have hsteady : ¬ChannelRequest.position.Relapses c := by
      rintro ⟨n, hwanted, -⟩
      cases hwanted
    have hanswers := hsame [.position] (by simp [ChannelRequest.IsReading]) ⟨hsteady, trivial⟩
    have hplaces : c'.position.1.map ChannelReply.place = c.position.1.map ChannelReply.place :=
      (List.cons.inj hanswers).1
    rw [hplace, hposition] at hplaces
    have := ChannelReply.place.inj (Except.ok.inj hplaces)
    omega
  · have hsame : skipped = c := by
      simp only [skipped, readSome_unread, hnone]
      rfl
    rw [← hsame]
    exact fun later => answers_of_shadows hunmoved hshadows

end Channel

/-! ### Storage in memory -/

/-- A seek that is refused leaves storage in memory as it was. -/
theorem MemoryStore.unmoved : Unmoved (Eq : MemoryStore → MemoryStore → Prop) where
  seek := by
    intro s s' place failure failed
    change s.seek place = _ at failed
    simp only [MemoryStore.seek] at failed
    split at failed <;> cases failed
    rfl
  read := by
    rintro s _ n rfl
    exact ⟨rfl, rfl⟩
  position := by
    rintro s _ rfl
    exact ⟨rfl, rfl⟩

namespace Channel

/-- Storage in memory serves every read, and so no channel over it relapses. -/
theorem steady_memory (requests : List ChannelRequest) (c : Channel MemoryStore) :
    Steady requests c := by
  induction requests generalizing c with
  | nil => trivial
  | cons request later ih =>
    refine ⟨?_, ih _⟩
    rintro ⟨n, -, -, -, failure, s', hfailed⟩
    cases hfailed

/-- Of four bytes one is read, and a seek to a negative position is refused: the position goes from 1
to 4, and the second byte does not come any more. -/
theorem failed_seek_unnoticed_iff_four :
    let c := (([ChannelRequest.readSome 1].mapM ChannelRequest.onChannel).run
      (ofStorage (MemoryStore.ofList [10, 11, 12, 13]))).2
    let c' : Channel MemoryStore := ofStorage ⟨#[10, 11, 12, 13], 4⟩
    let later : List ChannelRequest := [.readSome 1]
    Advancing (fun (s : MemoryStore) p => s.position = p) ∧
      Unmoved (Eq : MemoryStore → MemoryStore → Prop) ∧
      (∀ request ∈ later, request.IsReading) ∧ Steady later (c.readSome c.unread).2 ∧
      c.position.1 = .ok 1 ∧
      c.seek (.current (-5)) = (.error (.storage (.custom "seek 位置不能为负")), c') ∧
      c'.position.1 = .ok 4 ∧ c'.answers later = [.ok (.bytes [])] ∧
      c.answers later = [.ok (.bytes [11])] ∧ c.unread ≠ 0 := by
  intro c c' later
  have hc : c = ⟨⟨#[10, 11, 12, 13], 4⟩, #[10, 11, 12, 13], 1⟩ := by
    decide +kernel
  have hunread : c.unread = 3 := by rw [hc]; rfl
  have hone : c.position.1 = .ok 1 := by rw [hc]; rfl
  have hseek : c.seek (.current (-5)) =
      (.error (.storage (.custom "seek 位置不能为负")), c') := by
    rw [hc]
    decide +kernel
  have hreading : ∀ request ∈ later, request.IsReading := by simp [later, ChannelRequest.IsReading]
  obtain ⟨p, hposition, hfailed⟩ := failed_seek_unnoticed_iff MemoryStore.advancing
    MemoryStore.unmoved (s := MemoryStore.ofList [10, 11, 12, 13]) rfl [.readSome 1]
  change c.position.1 = .ok p at hposition
  obtain rfl : p = 1 := by
    rw [hone] at hposition
    exact (Except.ok.inj hposition).symm
  obtain ⟨hplace, hlater, -⟩ := hfailed _ _ c' hseek
  change c'.position.1 = .ok (1 + c.unread) at hplace
  rw [hunread] at hplace
  refine ⟨MemoryStore.advancing, MemoryStore.unmoved, hreading, steady_memory .., hone, hseek, hplace,
    ?_, ?_, by omega⟩
  · rw [hlater later hreading (steady_memory ..)]
    change (readSome c c.unread).2.answers later = _
    rw [hc]
    decide +kernel
  · rw [hc]
    decide +kernel

end Channel
end AnnexB
