/-
# Storage that fails

A backend over some data serves its bytes in portions of any size, and seeks to any place in them.
Any read and any seek of it can fail, and what it does after that is left open (`Backend`).  A
channel over it reads a portion of the data at some place, or fails (`Channel.readAt_of_backend`).

`Watched` remembers whether a call has failed.  It is a backend if the storage below is one
(`Backend.watched`): as long as no call has failed, it serves its bytes.

Storage in memory that follows a script of portions and failures is a backend for every script
(`ScriptedStore.backend`).
-/

import AnnexB.Proofs.Channel

namespace AnnexB

/-- Storage that holds `data`, and whose reads and seeks fail now and then, with a state for which
`Fails` holds then.  Where this holds of no state, none fails. -/
structure Backend {σ : Type} [Storage σ] (Fails : σ → Prop) (data : List UInt8)
    (Serves : σ → List UInt8 → Prop) : Prop extends Lapses Fails Serves where
  seek {s : σ} {bytes : List UInt8} {offset : UInt64} (serves : Serves s bytes)
    (within : offset.toNat ≤ data.length) :
    (∃ failure s', Storage.seek (.start offset) s = (.error failure, s') ∧ Fails s') ∨
      ∃ n s', Storage.seek (.start offset) s = (.ok n, s') ∧ Serves s' (data.drop offset.toNat)
  /-- The size, where it is known, is that of the data. -/
  size {s : σ} {bytes : List UInt8} {n : Nat} (serves : Serves s bytes)
    (known : Storage.size s = some n) : n = data.length

/-- The next `n` of the data from a place on, and an error if there are fewer. -/
def portionAt (data : List UInt8) (place n : Nat) : Except Error (List UInt8) :=
  if (data.drop place).length < n then .error .endOfData else .ok ((data.drop place).take n)

namespace Channel

variable {σ : Type} [Storage σ]

/-- Seeks to an offset, and reads exactly `n` bytes. -/
def readAt (c : Channel σ) (offset : UInt64) (n : Nat) : Except Error (List UInt8) × Channel σ :=
  match c.seek (.start offset) with
  | (.error e, c) => (.error e, c)
  | (.ok _, c) => c.readExact n

variable {Fails : σ → Prop} {data bytes : List UInt8} {Serves : σ → List UInt8 → Prop} {c : Channel σ}
  {offset : UInt64}

theorem seek_of_backend (hbackend : Backend Fails data Serves) (h : Pending Serves c bytes)
    (within : offset.toNat ≤ data.length) :
    (∃ e c', c.seek (.start offset) = (.error e, c') ∧ Fails c'.storage) ∨
      ∃ n c', c.seek (.start offset) = (.ok n, c') ∧
        Pending Serves c' (data.drop offset.toNat) := by
  obtain ⟨tail, hserves, -⟩ := h
  unfold seek
  rcases hbackend.seek hserves within with ⟨failure, s', hseek, hfails⟩ | ⟨n, s', hseek, hserves'⟩
  · rw [hseek]
    exact .inl ⟨_, _, rfl, hfails⟩
  · rw [hseek]
    exact .inr ⟨n, _, rfl, pending_ofStorage hserves'⟩

/-- **A channel reads the data at an offset**, or fails with its storage. -/
theorem readAt_of_backend (hbackend : Backend Fails data Serves) (h : Pending Serves c bytes)
    (within : offset.toNat ≤ data.length) (n : Nat) :
    (∃ e c', c.readAt offset n = (.error e, c') ∧ Fails c'.storage) ∨
      ∃ c', c.readAt offset n = (portionAt data offset.toNat n, c') ∧
        ∃ bytes', Pending Serves c' bytes' := by
  unfold readAt
  rcases seek_of_backend hbackend h within with ⟨e, c₁, hseek, hfails⟩ | ⟨m, c₁, hseek, hpending⟩
  · rw [hseek]
    exact .inl ⟨e, c₁, rfl, hfails⟩
  · rw [hseek]
    simp only
    rcases readExact_of_reads hbackend.toLapses.reads hpending n with
      ⟨e, c', hread, hfails⟩ | ⟨c', hread, hpending'⟩
    · exact .inl ⟨e, c', hread, hfails⟩
    · exact .inr ⟨c', hread, _, hpending'⟩

/-- Over two backends of the same data, a read gives the same, or fails with the first one. -/
theorem readAt_of_backends {τ : Type} [Storage τ] {Serves' : τ → List UInt8 → Prop} {c' : Channel τ}
    {bytes' : List UInt8} (hbackend : Backend Fails data Serves)
    (hfine : Backend (fun _ => False) data Serves') (h : Pending Serves c bytes)
    (h' : Pending Serves' c' bytes') (within : offset.toNat ≤ data.length) (n : Nat) :
    (∃ e c₁, c.readAt offset n = (.error e, c₁) ∧ Fails c₁.storage) ∨
      ∃ answer c₁ c₂, c.readAt offset n = (answer, c₁) ∧ c'.readAt offset n = (answer, c₂) ∧
        (∃ bytes₁, Pending Serves c₁ bytes₁) ∧ ∃ bytes₂, Pending Serves' c₂ bytes₂ := by
  obtain ⟨c₂, hread', hpending'⟩ :=
    (readAt_of_backend hfine h' within n).resolve_left (by simp)
  refine (readAt_of_backend hbackend h within n).imp_right ?_
  rintro ⟨c₁, hread, hpending⟩
  exact ⟨_, c₁, c₂, hread, hread', hpending, hpending'⟩

end Channel

/-! ### Whether a call has failed -/

/-- Storage, and whether one of its calls has failed. -/
structure Watched (σ : Type) where
  storage : σ
  failed : Bool := false

namespace Watched

variable {σ α : Type}

/-- Makes a call, and remembers whether it fails. -/
def watch (call : σ → Except StorageFailure α × σ) (w : Watched σ) :
    Except StorageFailure α × Watched σ :=
  match call w.storage with
  | (.ok answer, storage) => (.ok answer, { w with storage })
  | (.error failure, storage) => (.error failure, { storage, failed := true })

theorem watch_ok {call : σ → Except StorageFailure α × σ} {w : Watched σ} {answer : α} {s' : σ}
    (h : call w.storage = (.ok answer, s')) :
    watch call w = (.ok answer, { w with storage := s' }) := by
  rw [watch, h]

theorem watch_error {call : σ → Except StorageFailure α × σ} {w : Watched σ}
    {failure : StorageFailure} {s' : σ} (h : call w.storage = (.error failure, s')) :
    watch call w = (.error failure, ⟨s', true⟩) := by
  rw [watch, h]

instance [Storage σ] : Storage (Watched σ) where
  read n := watch (Storage.read n)
  write bytes := watch (Storage.write bytes)
  seek place := watch (Storage.seek place)
  position := watch Storage.position
  size w := Storage.size w.storage
  contents w := Storage.contents w.storage
  remaining w := Storage.remaining w.storage

/-- The storage serves bytes, and no call has failed. -/
def Serves (below : σ → List UInt8 → Prop) (w : Watched σ) (bytes : List UInt8) : Prop :=
  w.failed = false ∧ below w.storage bytes

end Watched

theorem Backend.watched {σ : Type} [Storage σ] {Fails : σ → Prop} {data : List UInt8}
    {below : σ → List UInt8 → Prop} (h : Backend Fails data below) :
    Backend (fun w : Watched σ => w.failed = true) data (Watched.Serves below) where
  read := by
    rintro w bytes n ⟨hfine, hserves⟩ hpos
    rcases h.read hserves hpos with
      ⟨failure, s', hread, -⟩ | ⟨block, s', hread, hfirst, hempty, hserves'⟩
    · exact .inl ⟨failure, _, Watched.watch_error hread, rfl⟩
    · exact .inr ⟨block, _, Watched.watch_ok hread, hfirst, hempty, hfine, hserves'⟩
  remaining := fun ⟨_, hserves⟩ => h.remaining hserves
  seek := by
    rintro w bytes offset ⟨hfine, hserves⟩ within
    rcases h.seek hserves within with ⟨failure, s', hseek, -⟩ | ⟨n, s', hseek, hserves'⟩
    · exact .inl ⟨failure, _, Watched.watch_error hseek, rfl⟩
    · exact .inr ⟨n, _, Watched.watch_ok hseek, hfine, hserves'⟩
  size := fun ⟨_, hserves⟩ known => h.size hserves known

namespace Channel

variable {σ : Type} {below : σ → List UInt8 → Prop}

/-- As long as a channel delivers its bytes, no call has failed. -/
theorem Pending.failed_eq_false {c : Channel (Watched σ)} {bytes : List UInt8}
    (h : c.Pending (Watched.Serves below) bytes) : c.storage.failed = false := by
  obtain ⟨tail, hserves, -⟩ := h
  exact hserves.1

theorem not_failed_of_pending {channel : Option (Channel (Watched σ))}
    (h : ∃ c bytes, channel = some c ∧ c.Pending (Watched.Serves below) bytes) :
    ¬∀ c ∈ channel, c.storage.failed = true := by
  obtain ⟨c, bytes, rfl, hpending⟩ := h
  intro hfailed
  have hc := hfailed c rfl
  rw [hpending.failed_eq_false] at hc
  cases hc

end Channel

/-! ### Storage with a script -/

namespace MemoryStore

/-- Storage in memory is a backend that does not fail. -/
theorem backend {data : List UInt8} (hdata : data.length ≤ maxPosition) :
    Backend (fun _ => False) data (Serves data) where
  toLapses := (delivers data).lapses
  seek := by
    intro s bytes offset hserves within
    have hseek := seek_start (Nat.le_trans within hdata) s
    rw [UInt64.ofNat_toNat] at hseek
    exact .inr ⟨_, _, hseek, hserves.1, rfl⟩
  size := by
    rintro ⟨_, position⟩ bytes n ⟨rfl, -⟩ known
    exact (Option.some.inj known).symm

end MemoryStore

/-- Storage in memory with a script for its next reads and seeks: a call fails at `none`, and a read
at `some n` gives at most `n` bytes, but one where there is one.  Behind the script all goes well. -/
structure ScriptedStore where
  store : MemoryStore
  script : List (Option Nat)
  deriving DecidableEq, Repr

namespace ScriptedStore

/-- Makes a call as the script has it. -/
def follow {α : Type} (call : Option Nat → MemoryStore → Except StorageFailure α × MemoryStore)
    (s : ScriptedStore) : Except StorageFailure α × ScriptedStore :=
  match s.script with
  | none :: script => (.error .system, { s with script })
  | script =>
    let (answer, store) := call script.head?.join s.store
    (answer, { store, script := script.tail })

instance : Storage ScriptedStore where
  read n := follow fun portion => Storage.read (min n (max (portion.getD n) 1))
  write bytes := follow fun _ => Storage.write bytes
  seek place := follow fun _ => Storage.seek place
  position s := (.ok s.store.position, s)
  size s := Storage.size s.store
  contents s := Storage.contents s.store
  remaining s := Storage.remaining s.store

/-- The storage below serves bytes. -/
def Serves (data : List UInt8) (s : ScriptedStore) (bytes : List UInt8) : Prop :=
  MemoryStore.Serves data s.store bytes

/-- A call fails, where the script says so, or is made. -/
theorem follow_cases {α : Type}
    (call : Option Nat → MemoryStore → Except StorageFailure α × MemoryStore) (s : ScriptedStore) :
    (none ∈ s.script ∧ ∃ failure s', follow call s = (.error failure, s')) ∨
      ∃ portion, ∀ answer store, call portion s.store = (.ok answer, store) →
        follow call s = (.ok answer, ⟨store, s.script.tail⟩) := by
  obtain ⟨store, script⟩ := s
  rcases script with _ | ⟨_ | portion, script⟩
  · refine .inr ⟨none, ?_⟩
    rintro answer store' hcall
    simp only [follow, List.head?_nil, Option.join_none, hcall]
  · exact .inl ⟨List.mem_cons_self .., _, _, rfl⟩
  · refine .inr ⟨portion, ?_⟩
    rintro answer store' hcall
    simp only [follow, List.head?_cons, Option.join_some, hcall, List.tail_cons]

/-- A call fails and leaves the storage below, or is made. -/
theorem follow_eq {α : Type}
    (call : Option Nat → MemoryStore → Except StorageFailure α × MemoryStore) (s : ScriptedStore) :
    follow call s = (.error .system, { s with script := s.script.tail }) ∨
      ∃ portion, follow call s =
        ((call portion s.store).1, ⟨(call portion s.store).2, s.script.tail⟩) := by
  obtain ⟨store, script⟩ := s
  rcases script with _ | ⟨_ | portion, script⟩
  · exact .inr ⟨none, rfl⟩
  · exact .inl rfl
  · exact .inr ⟨some portion, rfl⟩

/-- **Storage with any script is a backend.** -/
theorem backend {data : List UInt8} (hdata : data.length ≤ MemoryStore.maxPosition) :
    Backend (fun _ => True) data (Serves data) where
  read := by
    intro s bytes n hserves hpos
    rcases follow_cases (fun portion => Storage.read (min n (max (portion.getD n) 1))) s with
      ⟨-, failure, s', hfails⟩ | ⟨portion, hmade⟩
    · exact .inl ⟨failure, s', hfails, trivial⟩
    · obtain ⟨block, store, hread, hfirst, hempty, hserves'⟩ :=
        (MemoryStore.delivers data).read (n := min n (max (portion.getD n) 1)) hserves (by omega)
      exact .inr ⟨block, _, hmade block store hread, hfirst, hempty, hserves'⟩
  remaining := fun hserves => (MemoryStore.delivers data).remaining hserves
  seek := by
    intro s bytes offset hserves within
    rcases follow_cases (fun _ => Storage.seek (.start offset)) s with
      ⟨-, failure, s', hfails⟩ | ⟨portion, hmade⟩
    · exact .inl ⟨failure, s', hfails, trivial⟩
    · obtain ⟨n, store, hseek, hserves'⟩ :=
        ((MemoryStore.backend hdata).seek hserves within).resolve_left (by simp)
      exact .inr ⟨n, _, hmade n store hseek, hserves'⟩
  size := fun hserves known => (MemoryStore.backend hdata).size hserves known

end ScriptedStore

end AnnexB
