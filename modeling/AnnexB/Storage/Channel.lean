/-
# Buffered channels

A channel reads its storage in blocks and delivers the bytes of a block in any portions.  Writing
goes straight to the storage.

| call | what happens to the block |
| --- | --- |
| read | a new block is read when the last one is used up |
| a read of a block that fails | the last block counts as unread again, from its first byte on |
| seek | the block is dropped, whether the seek succeeds or not |
| write | nothing |

The position of a channel is that of its storage less the bytes not delivered yet.
-/

import AnnexB.Storage.Basic

namespace AnnexB

/-- Storage, the block last read from it, and how many bytes of that block are delivered. -/
structure Channel (σ : Type) where
  storage : σ
  block : Array UInt8 := #[]
  delivered : Nat := 0
  deriving DecidableEq, Repr, Inhabited

namespace Channel

variable {σ : Type}

/-- The largest block. -/
def blockSize : Nat := 32768

def ofStorage (storage : σ) : Channel σ := { storage }

/-- The number of bytes of the block that are not delivered yet. -/
def unread (c : Channel σ) : Nat := c.block.size - c.delivered

variable [Storage σ]

/-- A bound on the bytes that reads can still deliver. -/
def remaining (c : Channel σ) : Nat := c.unread + Storage.remaining c.storage

/-- What a read delivers: bytes, and the failure that ended it early, if there was one. -/
structure Delivery where
  bytes : List UInt8
  failure : Option StorageFailure
  deriving DecidableEq, Repr, Inhabited

/-- Reads the next block, when the last one is used up. -/
def nextBlock (c : Channel σ) : Option StorageFailure × Channel σ :=
  if c.unread ≠ 0 then (none, c)
  else
    match Storage.read blockSize c.storage with
    | (.ok block, storage) => (none, { storage, block })
    | (.error failure, storage) => (some failure, { c with storage, delivered := 0 })

/-- Takes at most `n` bytes from the block. -/
def takePortion (c : Channel σ) (n : Nat) : Array UInt8 × Channel σ :=
  let portion := c.block.extract c.delivered (c.delivered + n)
  (portion, { c with delivered := c.delivered + portion.size })

/-- Appends at most `n` bytes to those delivered so far. -/
def deliver (c : Channel σ) (n : Nat) (bytes : Array UInt8) : Delivery × Channel σ :=
  if n = 0 then (⟨bytes.toList, none⟩, c)
  else
    match c.nextBlock with
    | (some failure, c) => (⟨bytes.toList, some failure⟩, c)
    | (none, c) =>
      let (portion, c) := c.takePortion n
      if portion.isEmpty then (⟨bytes.toList, none⟩, c)
      else deliver c (n - portion.size) (bytes ++ portion)
termination_by n
decreasing_by
  have : portion.size ≠ 0 := by simpa [Array.isEmpty] using ‹¬portion.isEmpty = true›
  omega

/-- Reads `n` bytes, or as many as there are.  Bytes read before a failure are part of the
delivery, and do not come again. -/
def receive (c : Channel σ) (n : Nat) : Delivery × Channel σ := c.deliver n #[]

/-- Reads `n` bytes, or as many as there are. -/
def readSome (c : Channel σ) (n : Nat) : Except Error (List UInt8) × Channel σ :=
  match c.receive n with
  | (⟨bytes, none⟩, c) => (.ok bytes, c)
  | (⟨_, some failure⟩, c) => (.error (.storage failure), c)

/-- Reads exactly `n` bytes.  Where fewer are left, they are used up. -/
def readExact (c : Channel σ) (n : Nat) : Except Error (List UInt8) × Channel σ :=
  match c.readSome n with
  | (.ok bytes, c) => (if bytes.length < n then .error .endOfData else .ok bytes, c)
  | (.error e, c) => (.error e, c)

/-- Writes bytes at the position of the storage. -/
def write (c : Channel σ) (bytes : List UInt8) : Except Error Unit × Channel σ :=
  let (answer, storage) := Storage.write bytes c.storage
  (answer.mapError .storage, { c with storage })

/-- Moves the position.  A relative target counts from the position of the storage. -/
def seek (c : Channel σ) (place : SeekTarget) : Except Error Nat × Channel σ :=
  let (answer, storage) := Storage.seek place c.storage
  (answer.mapError .storage, { storage })

/-- The position of the next byte to be delivered. -/
def position (c : Channel σ) : Except Error Nat × Channel σ :=
  let (answer, storage) := Storage.position c.storage
  ((answer.map (· - c.unread)).mapError .storage, { c with storage })

def size (c : Channel σ) : Option Nat := Storage.size c.storage

/-- The bytes of the storage, where they are in memory. -/
def contents (c : Channel σ) : Option (List UInt8) := Storage.contents c.storage

end Channel

end AnnexB
