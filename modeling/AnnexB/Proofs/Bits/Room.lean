/-
# A writer stays inside of its storage

`CheckedWriter` is a bit writer that stops at an access outside of its storage.  It counts the whole
bytes written and the bits of a byte begun, and needs fewer than eight of these.

| access | bytes of the storage |
| --- | --- |
| a field of whole bytes at a byte boundary, a run of bytes | as many from the current byte on |
| another field | one at a time from the current byte on |
| a reset, the bytes written | those begun, behind the reserve |
| the finished buffer | the reserve and those begun |

What a writer holds (`BitWriter.Holds`) leaves room for all of them, once room is made for what is
written.  So the checked writer never stops, and does what the writer does (`onChecked_of_holds`).

Room is made by `BitWriter.reserve` only, which at least doubles the capacity, and makes it no more than
four times what is in use then (`grows_reserve`).
-/

import AnnexB.Proofs.Bits.Operations

namespace AnnexB

open Bits

/-- A bit writer whose accesses to its storage are checked. -/
structure CheckedWriter where
  storage : List UInt8
  front : Nat
  /-- The number of whole bytes written. -/
  byte : Nat
  /-- The number of bits written of the next byte. -/
  bit : Nat
  deriving DecidableEq, Repr

namespace CheckedWriter

/-! ### Checked accesses -/

/-- The `n` bytes from a position on, where there are as many. -/
def slice? (storage : List UInt8) (start n : Nat) : Option (List UInt8) :=
  if start + n ≤ storage.length then some ((storage.drop start).take n) else none

/-- Bytes in place of others, where there are as many. -/
def overwrite? (storage : List UInt8) (start : Nat) (bytes : List UInt8) : Option (List UInt8) :=
  if start + bytes.length ≤ storage.length then some (BitWriter.overwrite storage start bytes)
  else none

/-- A mask put over a byte, where there is one. -/
def mask? (storage : List UInt8) (i : Nat) (mask : UInt8) : Option (List UInt8) :=
  if i < storage.length then some (storage.modify i (· ||| mask)) else none

/-- The storage cut off behind `n` bytes, or filled up with zeros to as many. -/
def resize (storage : List UInt8) (n : Nat) : List UInt8 :=
  storage.take n ++ List.replicate (n - storage.length) 0

/-! ### Operations -/

/-- The number of bytes behind the reserve, where the storage holds the reserve. -/
def capacity? (w : CheckedWriter) : Option Nat :=
  if w.front ≤ w.storage.length then some (w.storage.length - w.front) else none

/-- The number of bytes begun. -/
def bytesUsed (w : CheckedWriter) : Nat := w.byte + if w.bit = 0 then 0 else 1

def reserve? (w : CheckedWriter) (bits : Nat) : Option CheckedWriter :=
  w.capacity?.map fun capacity =>
    let needed := (w.bit + bits + 7) / 8
    if w.byte + needed ≤ capacity then w
    else
      { w with
        storage := resize w.storage (w.front + max (capacity * 2) ((capacity + needed) * 2)) }

/-- Puts the low `n` bits of `value` over the zeros from the current bit on.  A byte of which eight
bits or more are written has none left to count. -/
def putBits? (w : CheckedWriter) (value n : Nat) : Option CheckedWriter :=
  if n = 0 then some w
  else if 8 ≤ w.bit then none
  else
    let free := 8 - w.bit
    let count := min n free
    let bits := (value >>> (n - count)) % (1 <<< count)
    (mask? w.storage (w.front + w.byte) (UInt8.ofNat (bits <<< (free - count)))).bind fun storage =>
      putBits?
        (if 8 ≤ w.bit + count then { w with storage, byte := w.byte + 1, bit := 0 }
          else { w with storage, bit := w.bit + count })
        value (n - count)
termination_by n
decreasing_by omega

def writeBits? (w : CheckedWriter) (value n : Nat) : Option CheckedWriter :=
  let n := min n 32
  if n = 0 then some w
  else
    (w.reserve? n).bind fun w =>
      if w.bit = 0 ∧ n % 8 = 0 then
        (overwrite? w.storage (w.front + w.byte) (BitWriter.bigEndian value (n / 8))).map
          fun storage => { w with storage, byte := w.byte + n / 8 }
      else w.putBits? value n

def writeBits64? (w : CheckedWriter) (value n : Nat) : Option CheckedWriter :=
  if n ≤ 32 then w.writeBits? value n
  else (w.writeBits? (value >>> 32) (min n 64 - 32)).bind fun w => w.writeBits? value 32

/-- Appends whole bytes; off a byte boundary nothing changes. -/
def writeBytes? (w : CheckedWriter) (bytes : List UInt8) : Option CheckedWriter :=
  if w.bit ≠ 0 then some w
  else
    (w.reserve? (8 * bytes.length)).bind fun w =>
      (overwrite? w.storage (w.front + w.byte) bytes).map fun storage =>
        { w with storage, byte := w.byte + bytes.length }

/-- Moves bytes from a reader; where that is refused, nothing changes. -/
def transferBytes? (w : CheckedWriter) (r : BitReader) (n : Nat) : Option CheckedWriter :=
  if w.bit ≠ 0 ∨ r.bitsLeft % 8 ≠ 0 ∨ r.bytesLeft < n then some w
  else w.writeBytes? (r.takeBytes n).1

def align (w : CheckedWriter) : CheckedWriter :=
  if w.bit = 0 then w else { w with byte := w.byte + 1, bit := 0 }

def reset? (w : CheckedWriter) : Option CheckedWriter :=
  (overwrite? w.storage w.front (List.replicate w.bytesUsed 0)).map fun storage =>
    { w with storage, byte := 0, bit := 0 }

/-- The bytes written. -/
def toList? (w : CheckedWriter) : Option (List UInt8) := slice? w.storage w.front w.bytesUsed

/-- The bytes written as a buffer. -/
def toBuffer? (w : CheckedWriter) : Option ByteBuffer :=
  (slice? w.storage 0 (w.front + w.bytesUsed)).map fun bytes => .ofListWithFront bytes w.front

/-- The checked writer with the storage and the counts of a writer. -/
def ofWriter (w : BitWriter) : CheckedWriter :=
  ⟨w.storage, w.front, w.position / 8, w.position % 8⟩

theorem bytesUsed_ofWriter (w : BitWriter) : (ofWriter w).bytesUsed = w.bytesUsed := by
  unfold bytesUsed ofWriter BitWriter.bytesUsed
  simp only
  split <;> omega

end CheckedWriter

/-! ### Room -/

namespace BitWriter

variable {w : BitWriter} {bits : List Bool} {free : Nat}

/-- Every byte begun stands behind the reserve in the storage. -/
theorem Holds.front_add_bytesUsed_le (h : Holds w bits free) :
    w.front + w.bytesUsed ≤ w.storage.length := by
  rw [h.length_storage]
  exact Nat.add_le_add_left h.bytesUsed_le _

/-- There is room for the bits that room was made for. -/
theorem Holds.room (h : Holds w bits free) (n : Nat) :
    (w.position + n + 7) / 8 ≤ (w.reserve n).capacity := by
  obtain ⟨free', hroom, hreserve⟩ := h.reserve n
  have hcapacity := hreserve.capacity_eq
  have hposition := h.position
  omega

@[simp] theorem length_putBits (storage : List UInt8) (front pos value n : Nat) :
    (putBits storage front pos value n).length = storage.length := by
  fun_induction putBits storage front pos value n with
  | case1 storage pos => rfl
  | case2 storage pos n hn free count bits mask ih => simpa using ih

@[simp] theorem length_bigEndian (value n : Nat) : (bigEndian value n).length = n := by
  induction n with
  | zero => rfl
  | succ n ih => rw [bigEndian, List.length_cons, ih]

theorem length_overwrite_of_le {storage bytes : List UInt8} {start : Nat}
    (h : start + bytes.length ≤ storage.length) :
    (overwrite storage start bytes).length = storage.length := by
  simp only [overwrite, List.length_append, List.length_take, List.length_drop]
  omega

end BitWriter

/-- A capacity that does not shrink.  Where it grows, it doubles at least, and becomes at most four
times what is in use then. -/
def Grows (used before behind : Nat) : Prop :=
  before ≤ behind ∧ (before < behind → 2 * before ≤ behind ∧ behind ≤ 4 * used)

theorem Grows.refl (used n : Nat) : Grows used n n := ⟨Nat.le_refl n, by omega⟩

theorem Grows.trans {used used' a b c : Nat} (h : Grows used a b) (h' : Grows used' b c)
    (hused : used ≤ used') : Grows used' a c := by
  unfold Grows at *
  omega

namespace BitWriter

variable {w : BitWriter} {bits : List Bool} {free : Nat}

/-- **Room is made by doubling the capacity** at least. -/
theorem grows_reserve (w : BitWriter) (n : Nat) :
    Grows ((w.position + n + 7) / 8) w.capacity (w.reserve n).capacity := by
  unfold reserve
  simp only
  split
  · exact .refl ..
  · simp only [Grows, capacity, List.length_append, List.length_replicate] at *
    omega

@[simp] theorem writeBits_position (w : BitWriter) (value n : Nat) :
    (w.writeBits value n).position = w.position + min n 32 := by
  unfold writeBits
  simp only
  split
  · omega
  · split
    · exact congrArg (· + _) (w.reserve_position _)
    · exact congrArg (· + _) (w.reserve_position _)

theorem capacity_eq_of_length {w' : BitWriter} (hfront : w'.front = w.front)
    (hlength : w'.storage.length = w.storage.length) : w'.capacity = w.capacity := by
  rw [capacity, capacity, hfront, hlength]

/-- Bytes put at the position, where there is room for them, leave the capacity. -/
theorem Holds.capacity_overwrite (h : Holds w bits free) {bytes : List UInt8} {position : Nat}
    (hroom : w.position / 8 + bytes.length ≤ w.capacity) :
    BitWriter.capacity { w with
      storage := overwrite w.storage (w.front + w.position / 8) bytes, position } = w.capacity := by
  have hlength := h.length_storage
  exact capacity_eq_of_length rfl (length_overwrite_of_le (by omega))

theorem Holds.capacity_reset (h : Holds w bits free) : w.reset.capacity = w.capacity :=
  capacity_eq_of_length rfl
    (length_overwrite_of_le (by rw [List.length_replicate]; exact h.front_add_bytesUsed_le))

theorem Holds.grows_writeBits (h : Holds w bits free) (value n : Nat) :
    Grows (w.writeBits value n).bytesUsed w.capacity (w.writeBits value n).capacity := by
  rw [bytesUsed, writeBits_position]
  unfold BitWriter.writeBits
  simp only
  generalize min n 32 = n
  split
  · exact .refl ..
  · obtain ⟨free', -, hreserve⟩ := h.reserve n
    have hroom := h.room n
    have hgrows := grows_reserve w n
    split
    · rename_i hfast
      rw [Bool.and_eq_true, isAligned, beq_iff_eq, beq_iff_eq, reserve_position] at hfast
      rwa [hreserve.capacity_overwrite (by rw [length_bigEndian, reserve_position]; omega)]
    · simpa [capacity] using hgrows

theorem Holds.grows_writeBits64 (h : Holds w bits free) (value n : Nat) :
    Grows (w.writeBits64 value n).bytesUsed w.capacity (w.writeBits64 value n).capacity := by
  unfold BitWriter.writeBits64
  split
  · exact h.grows_writeBits value n
  · obtain ⟨free', hhigh⟩ := h.writeBits (value >>> 32) (min n 64 - 32)
    refine (h.grows_writeBits _ _).trans (hhigh.grows_writeBits value 32) ?_
    simp only [bytesUsed, writeBits_position]
    omega

theorem Holds.grows_writeBytes (h : Holds w bits free) (bytes : List UInt8) :
    Grows (w.writeBytes bytes).2.bytesUsed w.capacity (w.writeBytes bytes).2.capacity := by
  unfold BitWriter.writeBytes
  split
  · exact .refl ..
  · rename_i haligned
    obtain ⟨free', -, hreserve⟩ := h.reserve (8 * bytes.length)
    have hroom := h.room (8 * bytes.length)
    have hgrows := grows_reserve w (8 * bytes.length)
    rw [isAligned, Bool.not_eq_true', beq_eq_false_iff_ne, not_not] at haligned
    simp only
    rwa [hreserve.capacity_overwrite (by rw [reserve_position]; omega), bytesUsed,
      reserve_position]

end BitWriter

namespace CheckedWriter

open BitWriter

variable {w : BitWriter} {bits : List Bool} {free : Nat}

theorem reserve?_ofWriter (h : Holds w bits free) (n : Nat) :
    (ofWriter w).reserve? n = some (ofWriter (w.reserve n)) := by
  have hlength := h.length_storage
  unfold reserve? capacity? ofWriter BitWriter.reserve
  simp only [if_pos (show w.front ≤ w.storage.length by omega), Option.map_some,
    show w.storage.length - w.front = w.capacity from rfl]
  congr 1
  split
  · rfl
  · simp only [resize]
    congr 1
    rw [List.take_of_length_le (by omega), Nat.mul_comm w.capacity, Nat.mul_comm (w.capacity + _)]
    congr 2
    omega

/-- Bits of one byte are counted as the bits of all. -/
theorem counted_eq_ofWriter (storage : List UInt8) (front : Nat) {position count : Nat}
    (h : count ≤ 8 - position % 8) :
    (if 8 ≤ position % 8 + count then ⟨storage, front, position / 8 + 1, 0⟩
      else ⟨storage, front, position / 8, position % 8 + count⟩ : CheckedWriter) =
      ofWriter ⟨storage, front, position + count⟩ := by
  unfold ofWriter
  split <;> simp only [CheckedWriter.mk.injEq, true_and] <;> omega

/-- **Bits put one byte at a time** stay inside of the storage. -/
theorem putBits?_ofWriter (value n : Nat)
    (h : w.front + (w.position + n + 7) / 8 ≤ w.storage.length) :
    (ofWriter w).putBits? value n = some (ofWriter { w with
      storage := putBits w.storage w.front w.position value n, position := w.position + n }) := by
  induction n using Nat.strongRecOn generalizing w with
  | ind n ih =>
    unfold ofWriter
    rw [putBits?, putBits]
    by_cases hn : n = 0
    · subst hn
      rfl
    · have hin : w.front + w.position / 8 < w.storage.length := by omega
      simp only [if_neg hn, if_neg (show ¬8 ≤ w.position % 8 by omega), mask?, if_pos hin,
        Option.bind_some]
      generalize UInt8.ofNat _ = mask
      generalize hcount : min n (8 - w.position % 8) = count
      have hrest := @ih (n - count) (by omega)
        { w with storage := w.storage.modify (w.front + w.position / 8) (· ||| mask)
                 position := w.position + count }
        (by simp only [List.length_modify]; omega)
      simp only [show w.position + count + (n - count) = w.position + n by omega] at hrest
      rw [counted_eq_ofWriter _ _ (by omega), hrest]
      rfl

/-- **Whole bytes put at a byte boundary** stay inside of the storage. -/
theorem overwrite?_ofWriter (h : Holds w bits free) (bytes : List UInt8)
    (haligned : w.position % 8 = 0) (hroom : w.position / 8 + bytes.length ≤ w.capacity) :
    ((overwrite? w.storage (w.front + w.position / 8) bytes).map fun storage =>
        (⟨storage, w.front, w.position / 8 + bytes.length, w.position % 8⟩ : CheckedWriter)) =
      some (ofWriter { w with
        storage := overwrite w.storage (w.front + w.position / 8) bytes
        position := w.position + 8 * bytes.length }) := by
  have hlength := h.length_storage
  rw [overwrite?, if_pos (by omega), Option.map_some]
  simp only [ofWriter, Option.some.injEq, CheckedWriter.mk.injEq, true_and]
  omega

theorem writeBits?_ofWriter (h : Holds w bits free) (value n : Nat) :
    (ofWriter w).writeBits? value n = some (ofWriter (w.writeBits value n)) := by
  unfold writeBits? BitWriter.writeBits
  simp only
  generalize min n 32 = n
  by_cases hn : n = 0
  · rw [if_pos hn, if_pos hn]
  · obtain ⟨free', -, hreserve⟩ := h.reserve n
    have hroom := h.room n
    have hposition := reserve_position w n
    have hlength := hreserve.length_storage
    rw [if_neg hn, if_neg hn, reserve?_ofWriter h n, Option.bind_some]
    by_cases hfast : w.position % 8 = 0 ∧ n % 8 = 0
    · have hbytes := overwrite?_ofWriter hreserve (bigEndian value (n / 8))
        (by omega) (by rw [length_bigEndian]; omega)
      rw [length_bigEndian, show 8 * (n / 8) = n by omega] at hbytes
      rw [if_pos (by simpa [ofWriter] using hfast), if_pos (by simpa [isAligned] using hfast)]
      exact hbytes
    · rw [if_neg (by simpa [ofWriter] using hfast), if_neg (by simpa [isAligned] using hfast)]
      exact putBits?_ofWriter value n (by omega)

theorem writeBits64?_ofWriter (h : Holds w bits free) (value n : Nat) :
    (ofWriter w).writeBits64? value n = some (ofWriter (w.writeBits64 value n)) := by
  unfold writeBits64? BitWriter.writeBits64
  split
  · exact writeBits?_ofWriter h value n
  · obtain ⟨free', hhigh⟩ := h.writeBits (value >>> 32) (min n 64 - 32)
    rw [writeBits?_ofWriter h, Option.bind_some, writeBits?_ofWriter hhigh]

theorem writeBytes?_ofWriter (h : Holds w bits free) (bytes : List UInt8) :
    (ofWriter w).writeBytes? bytes = some (ofWriter (w.writeBytes bytes).2) := by
  unfold writeBytes? BitWriter.writeBytes
  by_cases haligned : w.position % 8 = 0
  · obtain ⟨free', -, hreserve⟩ := h.reserve (8 * bytes.length)
    have hroom := h.room (8 * bytes.length)
    have hposition := reserve_position w (8 * bytes.length)
    rw [if_neg (by simpa [ofWriter] using haligned), if_neg (by simpa [isAligned] using haligned),
      reserve?_ofWriter h, Option.bind_some]
    exact overwrite?_ofWriter hreserve bytes (by omega) (by omega)
  · rw [if_pos (by simpa [ofWriter] using haligned), if_pos (by simpa [isAligned] using haligned)]

theorem align_ofWriter (w : BitWriter) : (ofWriter w).align = ofWriter w.align := by
  unfold align ofWriter BitWriter.align
  split <;> simp only [CheckedWriter.mk.injEq, true_and] at * <;> omega

theorem reset?_ofWriter (h : Holds w bits free) :
    (ofWriter w).reset? = some (ofWriter w.reset) := by
  have hfit := h.front_add_bytesUsed_le
  rw [reset?, bytesUsed_ofWriter]
  simp only [ofWriter, BitWriter.reset, overwrite?, List.length_replicate, if_pos hfit,
    Option.map_some, Nat.zero_div, Nat.zero_mod]

/-- The bytes begun have their place behind the reserve. -/
theorem slice?_ofWriter (h : Holds w bits free) :
    slice? w.storage w.front w.bytesUsed = some w.toList ∧
      slice? w.storage 0 (w.front + w.bytesUsed) = some (w.storage.take (w.front + w.bytesUsed)) := by
  have hfit := h.front_add_bytesUsed_le
  exact ⟨if_pos hfit, if_pos (by omega)⟩

theorem toList?_ofWriter (h : Holds w bits free) : (ofWriter w).toList? = some w.toList := by
  rw [toList?, bytesUsed_ofWriter]
  exact (slice?_ofWriter h).1

theorem toBuffer?_ofWriter (h : Holds w bits free) :
    (ofWriter w).toBuffer? = some w.toBuffer := by
  rw [toBuffer?, bytesUsed_ofWriter]
  exact congrArg (Option.map _) (slice?_ofWriter h).2

end CheckedWriter

/-! ### Operations and transfers in a row -/

/-- An operation of a writer, or a transfer of bytes from some reader. -/
inductive WriterStep where
  | write (op : WriteOp)
  | transfer (r : BitReader) (n : Nat)
  deriving DecidableEq, Repr

namespace WriterStep

/-- The writer behind a step. -/
def onWriter : WriterStep → BitWriter → BitWriter
  | write op, w => (op.onWriter w).2
  | transfer r n, w => (w.transferBytes r n).2.1

/-- The checked writer behind a step, unless it stops. -/
def onChecked? : WriterStep → CheckedWriter → Option CheckedWriter
  | write (.bit b), w => w.writeBits? (b % 2) 1
  | write (.flag b), w => w.writeBits? b.toNat 1
  | write (.bits value n), w => w.writeBits? value n
  | write (.bits64 value n), w => w.writeBits64? value n
  | write (.bytes bs), w => w.writeBytes? bs
  | write .align, w => some w.align
  | write .reset, w => w.reset?
  | transfer r n, w => w.transferBytes? r n

end WriterStep

namespace BitWriter

open CheckedWriter

variable {w : BitWriter} {bits : List Bool} {free : Nat}

/-- A transfer writes bytes, or leaves the writer as it is. -/
theorem transferBytes_cases (w : BitWriter) (r : BitReader) (n : Nat) :
    (w.isAligned = true ∧ r.bitsLeft % 8 = 0 ∧ n ≤ r.bytesLeft ∧
        (w.transferBytes r n).2.1 = (w.writeBytes (r.takeBytes n).1).2) ∨
      ((w.isAligned = false ∨ r.bitsLeft % 8 ≠ 0 ∨ r.bytesLeft < n) ∧
        (w.transferBytes r n).2.1 = w) := by
  unfold transferBytes
  split
  · simp_all
  · split
    · simp_all
    · split
      · simp_all
      · simp_all

theorem writeBytes_of_holds (h : Holds w bits free) (bytes : List UInt8) :
    ∃ bits' free', Holds (w.writeBytes bytes).2 bits' free' := by
  obtain ⟨-, free', hstep⟩ := onWriter_of_holds (.bytes bytes) h
  exact ⟨_, free', hstep⟩

/-- **A step inside of the storage:** the checked writer does it too, the writer holds some bits again
behind the same reserve, and its capacity grows as `Grows` says. -/
theorem onChecked_of_holds (step : WriterStep) (h : Holds w bits free) :
    step.onChecked? (ofWriter w) = some (ofWriter (step.onWriter w)) ∧
      (step.onWriter w).front = w.front ∧
      Grows (step.onWriter w).bytesUsed w.capacity (step.onWriter w).capacity ∧
      ∃ bits' free', Holds (step.onWriter w) bits' free' := by
  cases step with
  | write op =>
    obtain ⟨-, free', hstep⟩ := onWriter_of_holds op h
    refine ⟨?_, onWriter_front op w, ?_, _, free', hstep⟩
    · cases op with
      | bit b => exact writeBits?_ofWriter h (b % 2) 1
      | flag b => exact writeBits?_ofWriter h b.toNat 1
      | bits value n => exact writeBits?_ofWriter h ..
      | bits64 value n => exact writeBits64?_ofWriter h ..
      | bytes bs => exact writeBytes?_ofWriter h bs
      | align => exact congrArg some (align_ofWriter w)
      | reset => exact reset?_ofWriter h
    · cases op with
      | bit b => exact h.grows_writeBits ..
      | flag b => exact h.grows_writeBits ..
      | bits value n => exact h.grows_writeBits ..
      | bits64 value n => exact h.grows_writeBits64 ..
      | bytes bs => exact h.grows_writeBytes bs
      | align => exact .refl ..
      | reset =>
        rw [show (WriterStep.write .reset).onWriter w = w.reset from rfl, h.capacity_reset]
        exact .refl ..
  | transfer r n =>
    have hrefused : (w.isAligned = false ∨ r.bitsLeft % 8 ≠ 0 ∨ r.bytesLeft < n) ↔
        ((ofWriter w).bit ≠ 0 ∨ r.bitsLeft % 8 ≠ 0 ∨ r.bytesLeft < n) := by
      simp [isAligned, ofWriter]
    rw [WriterStep.onChecked?, WriterStep.onWriter, transferBytes?]
    rcases transferBytes_cases w r n with ⟨haligned, hr, hn, hmoved⟩ | ⟨hstays, hsame⟩
    · obtain ⟨bits', free', hstep⟩ := writeBytes_of_holds h (r.takeBytes n).1
      rw [hmoved, if_neg (by rw [← hrefused]; simp [haligned, hr, hn])]
      exact ⟨writeBytes?_ofWriter h _, writeBytes_front .., h.grows_writeBytes _, bits', free',
        hstep⟩
    · rw [hsame, if_pos (hrefused.1 hstays)]
      exact ⟨rfl, rfl, .refl .., bits, free, h⟩

/-- Steps in a row keep what one step keeps. -/
theorem run_of_holds (steps : List WriterStep) (h : Holds w bits free) :
    let w' := steps.foldl (fun w step => step.onWriter w) w
    steps.foldlM (fun w step => step.onChecked? w) (ofWriter w) = some (ofWriter w') ∧
      w'.front = w.front ∧ w.capacity ≤ w'.capacity ∧ ∃ bits' free', Holds w' bits' free' := by
  induction steps generalizing w bits free with
  | nil => exact ⟨rfl, rfl, Nat.le_refl _, bits, free, h⟩
  | cons step steps ih =>
    obtain ⟨hchecked, hfront, hgrows, bits₁, free₁, hstep⟩ := onChecked_of_holds step h
    obtain ⟨hrun, hfront', hle, hholds⟩ := ih hstep
    refine ⟨?_, hfront'.trans hfront, hgrows.1.trans hle, hholds⟩
    rw [List.foldlM_cons, hchecked]
    exact hrun

/-- **A writer stays inside of its storage.**  Unless storage cannot have as many bytes, there is a
writer with the room and the reserve that are asked for; and after any operations and transfers from
any readers

* the writer whose accesses are checked has not stopped, and has done the same;
* the bytes begun fit into the capacity, and a byte that is begun and not full stands in it;
* the bits from the position on are zeros, and so are the bytes of the reserve;
* the bytes written and the finished buffer can be taken out of the storage;
* the capacity has not become smaller than at first, and with another step it stays, or is at least
  doubled, and then is at most four times the bytes begun. -/
theorem stays_inside (capacity front : Nat) (steps : List WriterStep) :
    if front + capacity ≤ maxSize then
      ∃ new, withFront capacity front = .ok new ∧
        let w := steps.foldl (fun w step => step.onWriter w) new
        let c := ofWriter w
        steps.foldlM (fun w step => step.onChecked? w) (ofWriter new) = some c ∧
          c.bytesUsed = w.bytesUsed ∧ w.bytesUsed ≤ w.capacity ∧
          c.bit < 8 ∧ (c.bit ≠ 0 → c.byte < w.capacity) ∧
          (∀ bit ∈ (ofBytes w.storage).drop (8 * front + w.position), bit = false) ∧
          w.storage.take front = List.replicate front 0 ∧
          c.toList? = some w.toList ∧ c.toBuffer? = some w.toBuffer ∧
          capacity ≤ w.capacity ∧
          ∀ step : WriterStep, w.capacity ≤ (step.onWriter w).capacity ∧
            (w.capacity < (step.onWriter w).capacity →
              2 * w.capacity ≤ (step.onWriter w).capacity ∧
              (step.onWriter w).capacity ≤ 4 * (step.onWriter w).bytesUsed)
    else withFront capacity front = .error .fault := by
  refine withFront_spec ?_
  intro w c
  obtain ⟨hchecked, hfront, hle, bits, free, h⟩ :=
    run_of_holds steps (holds_blank capacity front)
  replace hfront : w.front = front := hfront
  have hzeros : (zeros (8 * front) ++ bits).length = 8 * front + w.position := by
    rw [List.length_append, List.length_replicate, h.position]
  have hused : w.bytesUsed ≤ w.capacity := h.bytesUsed_le
  refine ⟨hchecked, bytesUsed_ofWriter w, hused, Nat.mod_lt _ (by decide), ?_, ?_, ?_,
    toList?_ofWriter h, toBuffer?_ofWriter h, ?_, ?_⟩
  · intro hbegun
    simp only [c, ofWriter] at hbegun ⊢
    rw [bytesUsed] at hused
    omega
  · intro bit hbit
    rw [h.storage, hfront, ← hzeros, List.drop_left] at hbit
    exact List.eq_of_mem_replicate hbit
  · apply ofBytes_injective
    rw [← take_ofBytes, h.storage, hfront, List.append_assoc, ofBytes_replicate_zero]
    exact List.take_left' List.length_replicate
  · rwa [show (blank capacity front).capacity = capacity by simp [blank, BitWriter.capacity]] at hle
  · intro step
    exact (onChecked_of_holds step h).2.2.1

end BitWriter

end AnnexB
