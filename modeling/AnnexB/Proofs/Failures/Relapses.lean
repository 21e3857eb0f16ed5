/-
# When a channel delivers bytes again

A read of the storage that fails makes the block of the channel count as unread, from its first byte
on.  A block from which bytes are delivered is a relapse then: the position goes back by their number,
and they come again with the next read (`position_of_failed`, `readSome_of_relapse`).  Where the storage
has served a block in the same request, or nothing of the last one is delivered, a failure leaves no
trace but that it loses the bytes which came before it.

`Logged` keeps all bytes that the storage has served.  What a channel delivers is part of these
(`Account`), and without relapses it is all from different places of them, whatever else is asked
between the reads, and whatever the storage fails at (`account_of_requests`).
-/

import AnnexB.Proofs.Blocks
import AnnexB.Proofs.Failures.Storage

namespace AnnexB

/-! ### The bytes served -/

/-- Storage, and the bytes that its reads have served, one read after the other. -/
structure Logged (σ : Type) where
  storage : σ
  served : List UInt8 := []
  deriving DecidableEq, Repr

namespace Logged

variable {σ α : Type}

def ofStorage (storage : σ) : Logged σ := { storage }

/-- Makes a call that serves nothing. -/
def pass (call : σ → α × σ) (l : Logged σ) : α × Logged σ :=
  let (answer, storage) := call l.storage
  (answer, { l with storage })

variable [Storage σ]

def read (n : Nat) (l : Logged σ) : Except StorageFailure (Array UInt8) × Logged σ :=
  match Storage.read n l.storage with
  | (.ok block, storage) => (.ok block, ⟨storage, l.served ++ block.toList⟩)
  | (.error failure, storage) => (.error failure, ⟨storage, l.served⟩)

instance : Storage (Logged σ) where
  read := read
  write bytes := pass (Storage.write bytes)
  seek place := pass (Storage.seek place)
  position := pass Storage.position
  size l := Storage.size l.storage
  contents l := Storage.contents l.storage
  remaining l := Storage.remaining l.storage

theorem served_of_ok {n : Nat} {l l' : Logged σ} {block : Array UInt8}
    (h : Storage.read n l = (.ok block, l')) : l'.served = l.served ++ block.toList := by
  change l.read n = _ at h
  unfold read at h
  rcases hread : Storage.read n l.storage with ⟨failure | block, s'⟩ <;> rw [hread] at h <;>
    cases h
  rfl

theorem served_of_error {n : Nat} {l l' : Logged σ} {failure : StorageFailure}
    (h : Storage.read n l = (.error failure, l')) : l'.served = l.served := by
  change l.read n = _ at h
  unfold read at h
  rcases hread : Storage.read n l.storage with ⟨failure | block, s'⟩ <;> rw [hread] at h <;>
    cases h
  rfl

end Logged

/-- Storage that has a position has it with a log as well. -/
theorem Advancing.logged {σ : Type} [Storage σ] {At : σ → Nat → Prop} (h : Advancing At) :
    Advancing fun (l : Logged σ) p => At l.storage p where
  read := by
    intro l p n stands
    change (∃ failure l', l.read n = _ ∧ _) ∨ ∃ block l', l.read n = _ ∧ _
    unfold Logged.read
    rcases h.read (n := n) stands with ⟨failure, s', hread, hat⟩ | ⟨block, s', hread, hsize, hat⟩
    · rw [hread]
      exact .inl ⟨failure, _, rfl, hat⟩
    · rw [hread]
      exact .inr ⟨block, _, rfl, hsize, hat⟩
  write := fun bytes stands => h.write bytes stands
  seek := fun place stands => h.seek place stands
  position := by
    intro l p stands
    obtain ⟨s', hposition, hat⟩ := h.position stands
    refine ⟨{ l with storage := s' }, ?_, hat⟩
    change Logged.pass Storage.position l = _
    rw [Logged.pass, hposition]

namespace Channel

variable {σ : Type} {n : Nat} {bytes : List UInt8}

variable [Storage σ]

/-! ### Relapses -/

/-- A read of `n` bytes needs a new block, which the storage fails to serve, and something of the
last one is delivered. -/
def Relapses (c : Channel σ) (n : Nat) : Prop :=
  c.unread < n ∧ 0 < c.delivered ∧
    ∃ failure s', Storage.read blockSize c.storage = (.error failure, s')

end Channel

/-- The request is a read with which the channel relapses. -/
def ChannelRequest.Relapses {σ : Type} [Storage σ] (request : ChannelRequest) (c : Channel σ) :
    Prop :=
  ∃ n, request.wanted? = some n ∧ c.Relapses n

namespace Channel

variable {σ : Type} {n raw : Nat} {bytes earlier base : List UInt8}

variable [Storage σ]

/-- No request makes the channel relapse. -/
def Steady : List ChannelRequest → Channel σ → Prop
  | [], _ => True
  | request :: later, c => ¬request.Relapses c ∧ Steady later (request.onChannel c).2

section

variable {At : σ → Nat → Prop} {c c' : Channel σ}

/-- **Where a read that fails leaves the storage:** where it was, with the block as it was, or behind
a block that was served meanwhile. -/
theorem Draws.lags_of_failed {failure : StorageFailure} (hstorage : Advancing At)
    (hdraws : Draws c n bytes (some failure) c') (h : Lags At c raw) :
    ∃ raw', Lags At c' raw' ∧ c'.delivered = 0 ∧
      ((c'.block = c.block ∧ raw' = raw ∧ c.unread < n ∧
          ∃ failure s', Storage.read blockSize c.storage = (.error failure, s')) ∨
        (raw ≤ raw' - c'.block.size ∧
          ∃ block s', Storage.read blockSize c.storage = (.ok block, s'))) := by
  generalize hfailure : some failure = outcome at hdraws
  induction hdraws generalizing raw with
  | within => cases hfailure
  | fails short read =>
    exact ⟨raw, h.failed hstorage read, rfl, .inl ⟨rfl, rfl, short, _, _, read⟩⟩
  | ends => cases hfailure
  | goesOn _ read _ _ ih =>
    obtain ⟨raw', hlags, hdelivered, hplace⟩ := ih (h.next hstorage read) hfailure
    refine ⟨raw', hlags, hdelivered, .inr ⟨?_, _, _, read⟩⟩
    rcases hplace with ⟨hblock, rfl, -⟩ | ⟨hle, -⟩
    · rw [hblock]
      simp
    · omega

/-- **A read that fails goes back if and only if the channel relapses**, and then by all that is
delivered of the block. -/
theorem position_of_failed {failure : StorageFailure} (hstorage : Advancing At)
    (hdraws : Draws c n bytes (some failure) c') (h : Lags At c raw) :
    ∃ raw', Lags At c' raw' ∧ (raw' - c'.unread < raw - c.unread ↔ c.Relapses n) ∧
      (c.Relapses n → c'.block = c.block ∧ c'.delivered = 0 ∧
        raw - c.unread = raw' - c'.unread + c.delivered) := by
  obtain ⟨raw', hlags, hdelivered, hplace⟩ := hdraws.lags_of_failed hstorage h
  have hbefore := h.block
  have hbelow := h.delivered
  have hsize : c'.unread = c'.block.size := by rw [unread, hdelivered, Nat.sub_zero]
  have hunread : c.unread = c.block.size - c.delivered := rfl
  refine ⟨raw', hlags, ?_⟩
  rw [hsize]
  rcases hplace with ⟨hblock, rfl, hshort, failure', s', hread⟩ | ⟨hle, block, s', hread⟩
  · rw [hblock, hunread]
    refine ⟨⟨fun hlt => ⟨hshort, by omega, failure', s', hread⟩, ?_⟩, ?_⟩
    · rintro ⟨-, hpos, -⟩
      omega
    · rintro ⟨-, hpos, -⟩
      exact ⟨rfl, hdelivered, by omega⟩
  · have hmade : ¬c.Relapses n := by
      rintro ⟨-, -, failure', s₁, hfailed⟩
      rw [hread] at hfailed
      cases hfailed
    exact ⟨⟨fun hlt => by omega, fun hrelapses => absurd hrelapses hmade⟩,
      fun hrelapses => absurd hrelapses hmade⟩

end

/-! ### What is delivered, against what is served -/

section

variable {σ : Type} {c : Channel σ}

/-- The bytes of the block that are delivered. -/
def behind (c : Channel σ) : List UInt8 := c.block.toList.take c.delivered

theorem behind_append_ahead (c : Channel σ) : c.behind ++ c.ahead = c.block.toList :=
  List.take_append_drop ..

theorem behind_of_delivered (h : c.delivered = 0) : c.behind = [] := by
  rw [behind, h, List.take_zero]

/-- A channel that has delivered `earlier`: its block is the last of what the storage has served,
behind `base`, and what is delivered of the block is the last of `earlier`. -/
structure Account (c : Channel (Logged σ)) (base earlier : List UInt8) : Prop where
  served : c.storage.served = base ++ c.block.toList
  behind : c.behind <:+ earlier

theorem account_ofStorage (s : σ) : Account (ofStorage (Logged.ofStorage s)) [] [] :=
  ⟨rfl, List.nil_suffix⟩

/-- What is served up to the place of the channel. -/
theorem Account.behind_prefix {c : Channel (Logged σ)} {base earlier : List UInt8}
    (h : Account c base earlier) : base ++ c.behind <+: c.storage.served := by
  rw [h.served]
  exact (List.prefix_append_right_inj base).2 (List.take_prefix ..)

end

variable {c c' : Channel (Logged σ)} {failure : Option StorageFailure}

/-- A new block comes behind the old one. -/
theorem Account.next {block : Array UInt8} {l' : Logged σ} (h : Account c base earlier)
    (hread : Storage.read blockSize c.storage = (.ok block, l')) (later : List UInt8) :
    Account { storage := l', block } (base ++ c.behind ++ c.ahead) later := by
  refine ⟨?_, List.nil_suffix⟩
  rw [List.append_assoc base, behind_append_ahead, ← h.served]
  exact Logged.served_of_ok hread

/-- **What a read draws is the next of what is served.**  If it fails, it goes back at most in a
relapse. -/
theorem Draws.account (hdraws : Draws c n bytes failure c') (h : Account c base earlier) :
    ∃ base', Account c' base' (earlier ++ bytes) ∧ c.storage.served <+: c'.storage.served ∧
      (failure = none → base' ++ c'.behind = base ++ c.behind ++ bytes) ∧
      (failure ≠ none → c'.behind = [] ∧ (¬c.Relapses n → base ++ c.behind <+: base')) := by
  induction hdraws generalizing base earlier with
  | @within c n enough =>
    have hbehind : Channel.behind { c with delivered := c.delivered + n } =
        c.behind ++ c.ahead.take n := List.take_add
    obtain ⟨older, hearlier⟩ := h.behind
    refine ⟨base, ⟨h.served, older, ?_⟩, List.prefix_rfl, fun _ => ?_, fun hfailed =>
      absurd rfl hfailed⟩
    · rw [hbehind, ← List.append_assoc, hearlier]
    · rw [hbehind, List.append_assoc]
  | @fails c n failure l' short read =>
    have hserved : l'.served = c.storage.served := Logged.served_of_error read
    refine ⟨base, ⟨hserved.trans h.served, List.nil_suffix⟩, ⟨[], ?_⟩, nofun,
      fun _ => ⟨rfl, fun hsteady => ?_⟩⟩
    · rw [List.append_nil, hserved]
    -- nothing of the block is delivered, or this were a relapse
    · have hnone : c.delivered = 0 := by
        by_contra hpos
        exact hsteady ⟨short, Nat.pos_of_ne_zero hpos, failure, l', read⟩
      exact ⟨[], by rw [behind_of_delivered hnone, List.append_nil, List.append_nil]⟩
  | @ends c n block l' short read empty =>
    have hserved : l'.served = c.storage.served ++ block.toList := Logged.served_of_ok read
    exact ⟨_, h.next read _, ⟨_, hserved.symm⟩, fun _ => List.append_nil _,
      fun hfailed => absurd rfl hfailed⟩
  | @goesOn c c' n block l' bytes failure short read some draws ih =>
    have hserved : l'.served = c.storage.served ++ block.toList := Logged.served_of_ok read
    obtain ⟨base', haccount, hprefix, hdrawn, hfailed⟩ := ih (h.next read (earlier ++ c.ahead))
    have hfresh : Channel.behind { storage := l', block } = [] := rfl
    rw [hfresh, List.append_nil] at hdrawn hfailed
    refine ⟨base', ?_, ?_, fun hnone => ?_, fun hsome => ?_⟩
    · rwa [List.append_assoc] at haccount
    · exact List.IsPrefix.trans ⟨_, hserved.symm⟩ hprefix
    · rw [hdrawn hnone, List.append_assoc]
    · obtain ⟨hbehind, hkept⟩ := hfailed hsome
      refine ⟨hbehind, fun _ => List.IsPrefix.trans (List.prefix_append ..) (hkept ?_)⟩
      rintro ⟨-, hpos, -⟩
      exact absurd hpos (Nat.lt_irrefl 0)

/-! ### Requests in a row -/

/-- What a request does to the account of a channel: it brings bytes that the storage has served, and
the next of them unless the channel relapses. -/
structure Settles (request : ChannelRequest) (c : Channel (Logged σ))
    (base earlier base' : List UInt8) : Prop where
  account : Account (request.onChannel c).2 base' (earlier ++ brought (request.onChannel c).1)
  served : c.storage.served <+: (request.onChannel c).2.storage.served
  brought : brought (request.onChannel c).1 <:+: (request.onChannel c).2.storage.served
  inOrder : ¬request.Relapses c →
    (base ++ c.behind ++ Channel.brought (request.onChannel c).1).Sublist
      (base' ++ (request.onChannel c).2.behind)

/-- A read that brings nothing loses what it has drawn. -/
theorem settles_of_nothing {base' : List UInt8} {request : ChannelRequest}
    (hbrought : brought (request.onChannel c).1 = [])
    (hserved : c.storage.served <+: (request.onChannel c).2.storage.served)
    (haccount : Account (request.onChannel c).2 base' earlier)
    (hkept : ¬request.Relapses c →
      (base ++ c.behind).Sublist (base' ++ (request.onChannel c).2.behind)) :
    Settles request c base earlier base' := by
  refine ⟨?_, hserved, ?_, fun hsteady => ?_⟩ <;> rw [hbrought]
  · rwa [List.append_nil]
  · exact List.nil_infix
  · rw [List.append_nil]
    exact hkept hsteady

theorem settles_of_wanted (h : Account c base earlier) {request : ChannelRequest}
    (hwanted : request.wanted? = some n) : ∃ base', Settles request c base earlier base' := by
  obtain ⟨bytes, failure, hdraws, hanswer⟩ := onChannel_of_wanted hwanted c
  obtain ⟨base', haccount, hserved, hdrawn, hfailed⟩ := hdraws.account h
  refine ⟨base', ?_⟩
  rcases hanswer with ⟨rfl, hanswer⟩ | ⟨rfl, hshort, hanswer⟩ | ⟨failed, rfl, hanswer⟩
  · have hbytes : brought (request.onChannel c).1 = bytes := by rw [hanswer]; rfl
    refine ⟨?_, hserved, ?_, fun _ => ?_⟩ <;> rw [hbytes]
    · exact haccount
    · refine List.IsInfix.trans ?_ haccount.behind_prefix.isInfix
      rw [hdrawn rfl]
      exact (List.suffix_append ..).isInfix
    · rw [hdrawn rfl]
  · have hbehind := behind_of_delivered (hdraws.delivered_of_short hshort)
    refine settles_of_nothing (by rw [hanswer]; rfl) hserved ⟨haccount.served, ?_⟩ fun _ => ?_
    · rw [hbehind]
      exact List.nil_suffix
    · rw [hdrawn rfl]
      exact List.sublist_append_left _ bytes
  · obtain ⟨hbehind, hkept⟩ := hfailed nofun
    refine settles_of_nothing (by rw [hanswer]; rfl) hserved ⟨haccount.served, ?_⟩ fun hsteady => ?_
    · rw [hbehind]
      exact List.nil_suffix
    · rw [hbehind, List.append_nil]
      exact (hkept fun hrelapses => hsteady ⟨n, hwanted, hrelapses⟩).sublist

/-- **A request brings bytes that the storage has served**, and the next of them unless the channel
relapses. -/
theorem exists_settles (h : Account c base earlier) (request : ChannelRequest) :
    ∃ base', Settles request c base earlier base' := by
  have hmap : ∀ {α : Type} (f : α → ChannelReply) (answer : Except Error α),
      (∀ a, brought (.ok (f a)) = []) → brought (answer.map f) = [] := by
    intro α f answer hf
    cases answer with
    | error e => rfl
    | ok a => exact hf a
  cases request with
  | readSome n => exact settles_of_wanted h rfl
  | readExact n => exact settles_of_wanted h rfl
  | write bytes =>
    exact ⟨base, settles_of_nothing (hmap _ _ fun _ => rfl) List.prefix_rfl ⟨h.served, h.behind⟩
      fun _ => .refl _⟩
  | seek place =>
    refine ⟨c.storage.served, settles_of_nothing (hmap _ _ fun _ => rfl) List.prefix_rfl
      ⟨(List.append_nil _).symm, List.nil_suffix⟩ fun _ => ?_⟩
    exact h.behind_prefix.sublist.trans (List.sublist_append_left ..)
  | position =>
    exact ⟨base, settles_of_nothing (hmap _ _ fun _ => rfl) List.prefix_rfl ⟨h.served, h.behind⟩
      fun _ => .refl _⟩

/-- **What requests in a row bring** is served by the storage, and without relapses no byte of it
twice. -/
theorem account_of_requests (h : Account c base earlier) (requests : List ChannelRequest) :
    let run := (requests.mapM ChannelRequest.onChannel).run c
    ∃ base', Account run.2 base' (earlier ++ run.1.flatMap brought) ∧
      c.storage.served <+: run.2.storage.served ∧
      (∀ answer ∈ run.1, brought answer <:+: run.2.storage.served) ∧
      (Steady requests c → ∀ taken, List.Sublist taken (base ++ c.behind) →
        (taken ++ run.1.flatMap brought).Sublist (base' ++ run.2.behind)) := by
  induction requests generalizing c base earlier with
  | nil =>
    refine ⟨base, ⟨h.served, ?_⟩, List.prefix_rfl, nofun, fun _ taken htaken => ?_⟩
    · change c.behind <:+ earlier ++ []
      rw [List.append_nil]
      exact h.behind
    · change (taken ++ []).Sublist (base ++ c.behind)
      rwa [List.append_nil]
  | cons request requests ih =>
    obtain ⟨base₁, hsettles⟩ := exists_settles h request
    obtain ⟨base', haccount, hserved, hbrought, hinOrder⟩ := ih hsettles.account
    rw [run_mapM_cons]
    refine ⟨base', ?_, hsettles.served.trans hserved, ?_, ?_⟩
    · rwa [List.flatMap_cons, ← List.append_assoc]
    · rintro answer (_ | ⟨_, hmem⟩)
      · exact hsettles.brought.trans hserved.isInfix
      · exact hbrought answer hmem
    · rintro ⟨hsteady, hlater⟩ taken htaken
      rw [List.flatMap_cons, ← List.append_assoc]
      exact hinOrder hlater _ ((htaken.append_right _).trans (hsettles.inOrder hsteady))

/-- What a channel has relapsed to is what it delivered last. -/
theorem readSome_of_relapse {earlier base : List UInt8} (h : Account c base earlier)
    {later : Channel (Logged σ)} (hblock : later.block = c.block) (hdelivered : later.delivered = 0)
    (hbelow : c.delivered ≤ c.block.size) :
    ∃ older again, earlier = older ++ again ∧ again.length = c.delivered ∧
      (later.readSome c.delivered).1 = .ok again := by
  obtain ⟨older, hearlier⟩ := h.behind
  refine ⟨older, c.behind, hearlier.symm, ?_, ?_⟩
  · rw [behind, List.length_take, Array.length_toList, Nat.min_eq_left hbelow]
  · have hahead : later.ahead.take c.delivered = c.behind := by
      rw [ahead, hdelivered, List.drop_zero, hblock, behind]
    rw [readSome, receive_of_le (by rw [unread, hdelivered, hblock]; exact hbelow), hahead]

/-- **A failed read replays bytes exactly where it goes back, and that is exactly in a relapse.**
Over storage that has a position, any of whose calls may fail, a channel is asked anything: reads,
writes, seeks and positions.  All that its reads bring is served by the storage; and if the channel
has not relapsed, it is served at places one behind the other, so that no byte comes twice.  With a
read that fails, the position gets smaller if and only if the channel relapses, that is, where the
first read of the storage fails and something of the block is delivered.  It gets smaller by all
of that, and the same bytes come again when they are read. -/
theorem failed_read_replays_iff {At : σ → Nat → Prop} (hstorage : Advancing At) {s : σ} {p₀ : Nat}
    (hs : At s p₀) (requests : List ChannelRequest) :
    let fresh := ofStorage (Logged.ofStorage s)
    let run := (requests.mapM ChannelRequest.onChannel).run fresh
    let c := run.2
    let earlier := run.1.flatMap brought
    (∀ answer ∈ run.1, brought answer <:+: c.storage.served) ∧
      (Steady requests fresh → earlier.Sublist c.storage.served) ∧
      ∀ (request : ChannelRequest) (failure : StorageFailure) (c' : Channel (Logged σ)),
        request.wanted?.isSome → request.onChannel c = (.error (.storage failure), c') →
        ∃ p p', c.position.1 = .ok p ∧ c'.position.1 = .ok p' ∧
          (p' < p ↔ request.Relapses c) ∧
          (request.Relapses c → p = p' + c.delivered ∧
            ∃ older again, earlier = older ++ again ∧ again ≠ [] ∧ again.length = c.delivered ∧
              (c'.readSome c.delivered).1 = .ok again) := by
  intro fresh run c earlier
  obtain ⟨base, haccount, -, hbrought, hinOrder⟩ :=
    account_of_requests (account_ofStorage s) requests
  obtain ⟨raw, hlags⟩ := lags_of_requests hstorage.logged
    (lags_ofStorage (s := Logged.ofStorage s) hs) requests
  refine ⟨hbrought, fun hsteady => ?_, ?_⟩
  · exact (hinOrder hsteady [] (List.nil_sublist _)).trans haccount.behind_prefix.sublist
  intro request failure c' hisSome hfailed
  obtain ⟨n, hwanted⟩ := Option.isSome_iff_exists.1 hisSome
  obtain ⟨bytes, outcome, hdraws, hanswer⟩ := onChannel_of_wanted hwanted c
  have hiff : request.Relapses c ↔ c.Relapses n := by
    refine ⟨?_, fun hrelapses => ⟨n, hwanted, hrelapses⟩⟩
    rintro ⟨m, hm, hrelapses⟩
    obtain rfl := Option.some.inj (hm.symm.trans hwanted)
    exact hrelapses
  rw [hfailed] at hdraws hanswer
  simp only [hiff]
  rcases hanswer with ⟨-, hanswer⟩ | ⟨-, -, hanswer⟩ | ⟨failed, rfl, -⟩
  · cases hanswer
  · cases hanswer
  obtain ⟨raw', hlags', hback, hagain⟩ :=
    position_of_failed hstorage.logged hdraws hlags
  obtain ⟨c₁, hposition, -⟩ := position_of_lags hstorage.logged hlags
  obtain ⟨c₂, hposition', -⟩ := position_of_lags hstorage.logged hlags'
  refine ⟨raw - c.unread, raw' - c'.unread, by rw [hposition], by rw [hposition'], hback,
    fun hrelapses => ?_⟩
  obtain ⟨hblock, hdelivered, hless⟩ := hagain hrelapses
  obtain ⟨older, again, hearlier, hlength, hread⟩ :=
    readSome_of_relapse haccount hblock hdelivered hlags.delivered
  refine ⟨hless, older, again, hearlier, ?_, hlength, hread⟩
  rintro rfl
  exact absurd hlength.symm (Nat.ne_of_gt hrelapses.2.1)

end Channel

/-! ### Storage with a script -/

theorem ScriptedStore.advancing : Advancing fun (s : ScriptedStore) p => s.store.position = p where
  read := by
    rintro s _ n rfl
    rcases follow_eq (fun portion => Storage.read (min n (max (portion.getD n) 1))) s with
      hfails | ⟨portion, hmade⟩
    · exact .inl ⟨_, _, hfails, rfl⟩
    rcases MemoryStore.advancing.read (n := min n (max (portion.getD n) 1)) (s := s.store) rfl with
      ⟨failure, store, hread, hat⟩ | ⟨block, store, hread, hsize, hat⟩ <;>
      simp only [hread] at hmade
    · exact .inl ⟨failure, _, hmade, hat⟩
    · exact .inr ⟨block, _, hmade, Nat.le_trans hsize (Nat.min_le_left ..), hat⟩
  write := by
    rintro s _ bytes rfl
    change ∃ p' ≥ _, (follow (fun _ => Storage.write bytes) s).2.store.position = p'
    rcases follow_eq (fun _ => Storage.write bytes) s with hfails | ⟨_, hmade⟩
    · exact ⟨_, Nat.le_refl _, by rw [hfails]⟩
    · rw [hmade]
      exact MemoryStore.advancing.write bytes rfl
  seek := fun _ _ => ⟨_, rfl⟩
  position := by
    rintro s _ rfl
    exact ⟨s, rfl, rfl⟩

/-- Four bytes are read, and the next read of the storage fails: they come again. -/
theorem Channel.failed_read_replays_iff_scripted :
    let s : ScriptedStore := ⟨.ofList [10, 11, 12, 13, 14, 15], [some 4, none]⟩
    let fresh := ofStorage (Logged.ofStorage s)
    let log := [10, 11, 12, 13]
    let c : Channel (Logged ScriptedStore) :=
      ⟨⟨⟨⟨#[10, 11, 12, 13, 14, 15], 4⟩, [none]⟩, log⟩, log.toArray, 4⟩
    let c' : Channel (Logged ScriptedStore) :=
      ⟨⟨⟨⟨#[10, 11, 12, 13, 14, 15], 4⟩, []⟩, log⟩, log.toArray, 0⟩
    Advancing (fun (s : ScriptedStore) p => s.store.position = p) ∧ s.store.position = 0 ∧
      ([ChannelRequest.readSome 4].mapM ChannelRequest.onChannel).run fresh =
        ([.ok (.bytes log)], c) ∧
      Steady [.readSome 4] fresh ∧ (ChannelRequest.readExact 1).wanted?.isSome ∧
      (ChannelRequest.readExact 1).onChannel c = (.error (.storage .system), c') ∧
      (ChannelRequest.readExact 1).Relapses c ∧
      ∃ p p', c.position.1 = .ok p ∧ c'.position.1 = .ok p' ∧ p' < p ∧ p = p' + 4 ∧
        ∃ older again, log = older ++ again ∧ again ≠ [] ∧ again.length = 4 ∧
          (c'.readSome 4).1 = .ok again := by
  intro s fresh log c c'
  have hrun : ([ChannelRequest.readSome 4].mapM ChannelRequest.onChannel).run fresh =
      ([.ok (.bytes log)], c) := by
    change @Eq (List (Except Error ChannelReply) × Channel (Logged ScriptedStore)) _ _
    decide +kernel
  have hsteady : Steady [.readSome 4] fresh := by
    refine ⟨?_, trivial⟩
    rintro ⟨_, _, _, hpos, _⟩
    exact absurd hpos (Nat.lt_irrefl 0)
  have hfails : (ChannelRequest.readExact 1).onChannel c = (.error (.storage .system), c') := by
    change @Eq (Except Error ChannelReply × Channel (Logged ScriptedStore)) _ _
    decide +kernel
  have hrelapses : (ChannelRequest.readExact 1).Relapses c :=
    ⟨1, rfl, by decide, by decide, _, _, rfl⟩
  have hclaim := failed_read_replays_iff ScriptedStore.advancing (s := s) rfl [.readSome 4]
  dsimp only at hclaim
  rw [hrun] at hclaim
  obtain ⟨p, p', hp, hp', hiff, hback⟩ := hclaim.2.2 (.readExact 1) .system c' rfl hfails
  obtain ⟨hless, hagain⟩ := hback hrelapses
  exact ⟨ScriptedStore.advancing, rfl, hrun, hsteady, rfl, hfails, hrelapses, p, p', hp, hp',
    hiff.2 hrelapses, hless, hagain⟩

end AnnexB
