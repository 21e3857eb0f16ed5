/-
# A writer is a growing bit string

`Holds w bits free` says what a writer's storage is: the reserve, all zeros, then the bits written,
then `free` zeros.  It is the zeros behind the position that the writer relies on when it puts a
field bit by bit over them, and every operation keeps them: growth appends zeros, a field takes as
many as it has bits, alignment turns some of them into content, and a reset turns all content back
into zeros.

So each operation does to the writer what it does to the string of bits held (`Holds.writeBits`,
`Holds.writeBytes`, `Holds.align`, `Holds.reset`), and what the writer shows is that string, filled
up with zeros to whole bytes (`Holds.toList`, `Holds.toBuffer`).
-/

import AnnexB.Proofs.Bits.BitString

namespace AnnexB

open Bits

/-! ### Bytes put over zeros -/

namespace BitWriter

variable {storage : List UInt8} {before after : List Bool} {free : Nat}

/-- Bytes in place of others. -/
theorem ofBytes_overwrite {start : Nat} {bytes : List UInt8} {middle : List Bool}
    (h : ofBytes storage = before ++ middle ++ after) (hstart : before.length = 8 * start)
    (hmiddle : middle.length = 8 * bytes.length) :
    ofBytes (overwrite storage start bytes) = before ++ ofBytes bytes ++ after := by
  have htake : ofBytes (storage.take start) = before := by
    rw [← take_ofBytes, h, ← hstart, List.append_assoc, List.take_left]
  have hdrop : ofBytes (storage.drop (start + bytes.length)) = after := by
    have hlength : (before ++ middle).length = 8 * (start + bytes.length) := by
      rw [List.length_append]
      omega
    rw [← drop_ofBytes, h, ← hlength, List.drop_left]
  rw [overwrite, ofBytes_append, ofBytes_append, htake, hdrop]

/-- The most significant bytes first are the bits in order. -/
theorem ofBytes_bigEndian (value n : Nat) :
    ofBytes (bigEndian value n) = ofField value (8 * n) := by
  induction n with
  | zero => rfl
  | succ n ih =>
    have hbyte : ofByte (UInt8.ofNat (value >>> (8 * n))) = ofField (value >>> (8 * n)) 8 := by
      rw [ofByte, UInt8.toNat_ofNat']
      exact ofField_mod (Nat.le_refl 8) _
    rw [bigEndian, ofBytes_cons, ih, hbyte, Nat.mul_succ, Nat.add_comm, ofField_add]

/-- A mask put over a byte is put over its bits. -/
theorem getElem?_ofBytes_modify (storage : List UInt8) (q : Nat) (mask : UInt8) (k : Nat) :
    (ofBytes (storage.modify q (· ||| mask)))[k]? =
      (ofBytes storage)[k]?.map fun bit =>
        bit || (decide (k / 8 = q) && mask.toNat.testBit (7 - k % 8)) := by
  rw [getElem?_ofBytes, getElem?_ofBytes, List.getElem?_modify, Option.map_map]
  by_cases hbyte : q = k / 8
  · simp only [hbyte, if_true, decide_true, Bool.true_and, Option.map_eq_map, Option.map_map]
    congr 1
    funext byte
    simp only [Function.comp_apply, UInt8.toNat_or, Nat.testBit_or]
  · have hbyte' : ¬ k / 8 = q := fun h => hbyte h.symm
    simp only [hbyte, hbyte', if_false, decide_false, Bool.false_and, Bool.or_false,
      Option.map_eq_map, Option.map_id_fun', id_eq]
    rfl

/-- The mask of a field that begins at bit `p` and ends in the same byte. -/
theorem testBit_mask {count p : Nat} (value k : Nat) (hcount : count ≤ 8 - p % 8) :
    (decide (k / 8 = p / 8) &&
        (UInt8.ofNat ((value % (1 <<< count)) <<< (8 - p % 8 - count))).toNat.testBit
          (7 - k % 8)) =
      (decide (p ≤ k ∧ k < p + count) && value.testBit (count - 1 - (k - p))) := by
  rw [UInt8.toNat_ofNat', Nat.testBit_mod_two_pow, Nat.testBit_shiftLeft, Nat.one_shiftLeft,
    Nat.testBit_mod_two_pow, decide_eq_true (by omega : 7 - k % 8 < 8), Bool.true_and]
  by_cases hk : p ≤ k ∧ k < p + count
  · rw [decide_eq_true (by omega : k / 8 = p / 8),
      decide_eq_true (by omega : 7 - k % 8 ≥ 8 - p % 8 - count),
      decide_eq_true (by omega : 7 - k % 8 - (8 - p % 8 - count) < count), decide_eq_true hk,
      show 7 - k % 8 - (8 - p % 8 - count) = count - 1 - (k - p) by omega]
    rfl
  · rw [decide_eq_false hk, Bool.false_and]
    by_cases hbyte : k / 8 = p / 8
    · rcases Nat.lt_or_ge k p with hlow | hlow
      · rw [decide_eq_false (by omega : ¬ 7 - k % 8 - (8 - p % 8 - count) < count),
          Bool.false_and, Bool.and_false, Bool.and_false]
      · rw [decide_eq_false (by omega : ¬ 7 - k % 8 ≥ 8 - p % 8 - count), Bool.false_and,
          Bool.and_false]
    · rw [decide_eq_false hbyte, Bool.false_and]

/-- A field put over the first of the zeros behind a string. -/
theorem getElem?_append_field (before : List Bool) {count : Nat} (hfree : count ≤ free)
    (value k : Nat) :
    ((before ++ zeros free)[k]?.map fun bit => bit ||
        (decide (before.length ≤ k ∧ k < before.length + count) &&
          value.testBit (count - 1 - (k - before.length)))) =
      (before ++ ofField value count ++ zeros (free - count))[k]? := by
  rw [List.append_assoc]
  rcases Nat.lt_or_ge k before.length with hlow | hlow
  · rw [List.getElem?_append_left hlow, List.getElem?_append_left hlow,
      decide_eq_false (by omega)]
    simp
  · obtain ⟨j, rfl⟩ := Nat.exists_eq_add_of_le hlow
    rw [List.getElem?_append_right hlow, List.getElem?_append_right hlow, Nat.add_sub_cancel_left,
      List.getElem?_replicate]
    rcases Nat.lt_or_ge j count with hj | hj
    · rw [List.getElem?_append_left (by rwa [length_ofField]), getElem?_ofField, if_pos hj,
        if_pos (by omega), decide_eq_true (by omega)]
      simp
    · rw [List.getElem?_append_right (by rwa [length_ofField]), length_ofField,
        List.getElem?_replicate, decide_eq_false (by omega)]
      simp only [Bool.false_and, Bool.or_false, Option.map_id_fun', id_eq,
        show j - count < free - count ↔ j < free by omega]

/-- **Part of a byte is put over zeros**, and the rest of the byte stays. -/
theorem ofBytes_modify {count : Nat} (value : Nat) (h : ofBytes storage = before ++ zeros free)
    (hcount : count ≤ 8 - before.length % 8) (hfree : count ≤ free) :
    ofBytes (storage.modify (before.length / 8)
        (· ||| UInt8.ofNat ((value % (1 <<< count)) <<< (8 - before.length % 8 - count)))) =
      before ++ ofField value count ++ zeros (free - count) := by
  apply List.ext_getElem?
  intro k
  rw [getElem?_ofBytes_modify, h, ← getElem?_append_field before hfree]
  congr 1
  funext bit
  rw [testBit_mask value k hcount]

/-- **A field is put over zeros**, as much of a byte at a time as it fills. -/
theorem ofBytes_putBits {front pos value n : Nat} (h : ofBytes storage = before ++ zeros free)
    (hpos : before.length = 8 * front + pos) (hfree : n ≤ free) :
    ofBytes (putBits storage front pos value n) =
      before ++ ofField value n ++ zeros (free - n) := by
  induction storage, pos, n using putBits.induct front value generalizing before free with
  | case1 storage pos =>
    rw [putBits, if_pos rfl, ofField, List.append_nil, Nat.sub_zero, h]
  | case2 storage pos n hn room count bits =>
    rename_i mask ih
    have hpart := @ofBytes_modify storage before free count (value >>> (n - count)) h (by omega)
      (by omega)
    rw [show before.length / 8 = front + pos / 8 by omega,
      show before.length % 8 = pos % 8 by omega] at hpart
    have hfield : ofField (value >>> (n - count)) count ++ ofField value (n - count) =
        ofField value n := by
      rw [← ofField_add, show count + (n - count) = n by omega]
    have hrest := ih hpart (by rw [List.length_append, length_ofField]; omega) (by omega)
    rw [putBits, if_neg hn]
    refine hrest.trans ?_
    rw [List.append_assoc before, hfield,
      show free - count - (n - count) = free - n by omega]

/-! ### The invariant -/

/-- A writer holds some bits: its storage is the reserve, all zeros, the bits, and `free` zeros. -/
structure Holds (w : BitWriter) (bits : List Bool) (free : Nat) : Prop where
  position : w.position = bits.length
  storage : ofBytes w.storage = zeros (8 * w.front) ++ bits ++ zeros free

variable {w : BitWriter} {bits added : List Bool}

theorem holds_blank (capacity front : Nat) :
    Holds (blank capacity front) [] (8 * capacity) := by
  refine ⟨rfl, ?_⟩
  rw [blank, ofBytes_replicate_zero, Nat.mul_add, ← zeros_append, List.append_nil]

theorem withFront_of_le {capacity front : Nat} (h : front + capacity ≤ maxSize) :
    withFront capacity front = .ok (blank capacity front) := if_pos h

/-- What holds of a blank writer holds of the one that is made, if there is one. -/
theorem withFront_spec {P : BitWriter → Prop} {capacity front : Nat} (h : P (blank capacity front)) :
    if front + capacity ≤ maxSize then ∃ new, withFront capacity front = .ok new ∧ P new
    else withFront capacity front = .error .fault := by
  split
  · rename_i hsize
    exact ⟨_, withFront_of_le hsize, h⟩
  · rename_i hsize
    exact if_neg hsize

/-- A writer as it is made. -/
def IsNew (w : BitWriter) : Prop := ∃ capacity front, withFront capacity front = .ok w

theorem isNew_blank {capacity front : Nat} (h : front + capacity ≤ maxSize) :
    IsNew (blank capacity front) := ⟨capacity, front, withFront_of_le h⟩

theorem isNew_empty : IsNew empty := isNew_blank (by decide)

/-- A new writer holds nothing. -/
theorem IsNew.holds (h : IsNew w) : ∃ free, Holds w [] free := by
  obtain ⟨capacity, front, hw⟩ := h
  unfold withFront at hw
  split at hw
  · obtain rfl := Except.ok.inj hw
    exact ⟨_, holds_blank capacity front⟩
  · cases hw

/-- The storage behind the reserve is the bits and the zeros. -/
theorem Holds.capacity_eq (h : Holds w bits free) : 8 * w.capacity = bits.length + free := by
  have hlength := congrArg List.length h.storage
  simp only [length_ofBytes, List.length_append, List.length_replicate] at hlength
  rw [capacity]
  omega

/-- The reserve, and so the first byte behind it, is in the storage. -/
theorem Holds.length_storage (h : Holds w bits free) :
    w.storage.length = w.front + w.capacity := by
  have hlength := congrArg List.length h.storage
  simp only [length_ofBytes, List.length_append, List.length_replicate] at hlength
  rw [capacity]
  omega

/-- **Every byte begun has its place in the storage.** -/
theorem Holds.bytesUsed_le (h : Holds w bits free) : w.bytesUsed ≤ w.capacity := by
  have hcapacity := h.capacity_eq
  rw [bytesUsed, h.position]
  omega

/-- Room for `n` more bits is room for what a field of `n` bits takes. -/
theorem Holds.reserve (h : Holds w bits free) (n : Nat) :
    ∃ free', n ≤ free' ∧ Holds (w.reserve n) bits free' := by
  have hcapacity := h.capacity_eq
  have hposition := h.position
  unfold BitWriter.reserve
  simp only
  split
  · rename_i hroom
    refine ⟨free, ?_, h⟩
    omega
  · rename_i hroom
    refine ⟨free + 8 * (max (2 * w.capacity)
      (2 * (w.capacity + (w.position % 8 + n + 7) / 8)) - w.capacity), ?_, hposition, ?_⟩
    · omega
    · rw [ofBytes_append, h.storage, ofBytes_replicate_zero, List.append_assoc, zeros_append]

@[simp] theorem reserve_front (w : BitWriter) (n : Nat) : (w.reserve n).front = w.front := by
  unfold reserve
  simp only
  split <;> rfl

@[simp] theorem reserve_position (w : BitWriter) (n : Nat) :
    (w.reserve n).position = w.position := by
  unfold reserve
  simp only
  split <;> rfl

/-- Storage with more bits behind those held, and the position behind them. -/
theorem Holds.append {storage : List UInt8} {free' n : Nat} (h : Holds w bits free)
    (hstorage : ofBytes storage = zeros (8 * w.front) ++ bits ++ added ++ zeros free')
    (hn : n = added.length) :
    Holds { w with storage := storage, position := w.position + n } (bits ++ added) free' := by
  constructor
  · rw [List.length_append, ← hn, ← h.position]
  · rw [hstorage, List.append_assoc _ bits]

/-- Whole bytes put over zeros at a byte boundary. -/
theorem Holds.append_bytes {bytes : List UInt8} (h : Holds w bits free)
    (haligned : w.position % 8 = 0) (hfree : 8 * bytes.length ≤ free) :
    Holds { w with storage := overwrite w.storage (w.front + w.position / 8) bytes,
                   position := w.position + 8 * bytes.length }
      (bits ++ ofBytes bytes) (free - 8 * bytes.length) := by
  have hposition := h.position
  have hsplit : ofBytes w.storage = zeros (8 * w.front) ++ bits ++ zeros (8 * bytes.length) ++
      zeros (free - 8 * bytes.length) := by
    rw [List.append_assoc _ (zeros _), zeros_append, Nat.add_sub_cancel' hfree, h.storage]
  refine h.append (ofBytes_overwrite hsplit ?_ List.length_replicate) (length_ofBytes bytes).symm
  rw [List.length_append, List.length_replicate]
  omega

/-! ### What each operation appends -/

/-- **A field is appended**, whole bytes at a byte boundary as any other. -/
theorem Holds.writeBits (h : Holds w bits free) (value n : Nat) :
    ∃ free', Holds (w.writeBits value n) (bits ++ ofField value (min n 32)) free' := by
  unfold BitWriter.writeBits
  simp only
  generalize min n 32 = n
  split
  · rename_i hzero
    rw [hzero, ofField, List.append_nil]
    exact ⟨free, h⟩
  · obtain ⟨free', hroom, hreserve⟩ := h.reserve n
    split
    · rename_i hfast
      rw [Bool.and_eq_true, isAligned, beq_iff_eq, beq_iff_eq] at hfast
      have hlength : (bigEndian value (n / 8)).length = n / 8 := by
        have hbits := congrArg List.length (ofBytes_bigEndian value (n / 8))
        rw [length_ofBytes, length_ofField] at hbits
        omega
      have hfit : 8 * (bigEndian value (n / 8)).length ≤ free' := by
        rw [hlength]
        omega
      have hbytes := hreserve.append_bytes hfast.1 hfit
      rw [ofBytes_bigEndian, hlength, show 8 * (n / 8) = n by omega] at hbytes
      exact ⟨_, hbytes⟩
    · have hposition := hreserve.position
      refine ⟨free' - n, hreserve.append (ofBytes_putBits hreserve.storage ?_ hroom)
        (length_ofField value n).symm⟩
      rw [List.length_append, List.length_replicate]
      omega

theorem Holds.writeBits64 (h : Holds w bits free) (value n : Nat) :
    ∃ free', Holds (w.writeBits64 value n) (bits ++ ofField value (min n 64)) free' := by
  unfold BitWriter.writeBits64
  split
  · have hmin : min n 64 = min n 32 := by omega
    rw [hmin]
    exact h.writeBits value n
  · obtain ⟨free₁, hhigh⟩ := h.writeBits (value >>> 32) (min n 64 - 32)
    obtain ⟨free₂, hlow⟩ := hhigh.writeBits value 32
    have hfield : ofField (value >>> 32) (min (min n 64 - 32) 32) ++ ofField value (min 32 32) =
        ofField value (min n 64) := by
      rw [Nat.min_self, ← ofField_add, show min (min n 64 - 32) 32 + 32 = min n 64 by omega]
    rw [List.append_assoc, hfield] at hlow
    exact ⟨free₂, hlow⟩

theorem Holds.writeBytes (h : Holds w bits free) (bytes : List UInt8)
    (haligned : bits.length % 8 = 0) :
    (w.writeBytes bytes).1 = .ok () ∧
      ∃ free', Holds (w.writeBytes bytes).2 (bits ++ ofBytes bytes) free' := by
  obtain ⟨free', hroom, hreserve⟩ := h.reserve (8 * bytes.length)
  rw [← h.position] at haligned
  rw [BitWriter.writeBytes, isAligned, haligned]
  exact ⟨rfl, _, hreserve.append_bytes (by rwa [reserve_position]) hroom⟩

/-- Off a byte boundary, whole bytes are refused and nothing changes. -/
theorem Holds.writeBytes_unaligned (h : Holds w bits free) (bytes : List UInt8)
    (hunaligned : bits.length % 8 ≠ 0) :
    w.writeBytes bytes = (.error (.unaligned "write_bytes"), w) := by
  rw [← h.position] at hunaligned
  have haligned : w.isAligned = false := by
    rw [isAligned, beq_eq_false_iff_ne]
    exact hunaligned
  rw [BitWriter.writeBytes, haligned]
  rfl

end BitWriter

/-- The number of bits from bit `n` to the next byte boundary. -/
def Bits.padding (n : Nat) : Nat := (8 - n % 8) % 8

/-- A string filled up with zeros to whole bytes. -/
def Bits.fillUp (bits : List Bool) : List Bool := bits ++ zeros (padding bits.length)

theorem Bits.length_fillUp (bits : List Bool) :
    (fillUp bits).length = (bits.length + 7) / 8 * 8 := by
  rw [fillUp, List.length_append, List.length_replicate, padding]
  omega

namespace BitWriter

variable {w : BitWriter} {bits : List Bool} {free : Nat}

/-- Whole bytes that are written or begun, and zeros. -/
theorem Holds.fillUp_append (h : Holds w bits free) :
    padding bits.length ≤ free ∧
      bits ++ zeros free = fillUp bits ++ zeros (free - padding bits.length) := by
  have hcapacity := h.capacity_eq
  have hle : padding bits.length ≤ free := by
    rw [padding]
    omega
  refine ⟨hle, ?_⟩
  rw [fillUp, List.append_assoc, zeros_append, Nat.add_sub_cancel' hle]

theorem Holds.align (h : Holds w bits free) :
    Holds w.align (fillUp bits) (free - padding bits.length) := by
  constructor
  · rw [length_fillUp, ← h.position]
    rfl
  · rw [List.append_assoc, ← h.fillUp_append.2, ← List.append_assoc]
    exact h.storage

theorem Holds.reset (h : Holds w bits free) : ∃ free', Holds w.reset [] free' := by
  have hused : (fillUp bits).length = 8 * (List.replicate w.bytesUsed (0 : UInt8)).length := by
    rw [length_fillUp, List.length_replicate, bytesUsed, h.position, Nat.mul_comm]
  have hstorage := h.storage
  rw [List.append_assoc, h.fillUp_append.2, ← List.append_assoc] at hstorage
  have hreset := ofBytes_overwrite hstorage List.length_replicate hused
  rw [ofBytes_replicate_zero, List.append_assoc, zeros_append] at hreset
  exact ⟨_, rfl, by rw [BitWriter.reset, List.append_nil, hreset]⟩

/-! ### What a writer shows -/

/-- **The bytes written are the bits held**, filled up with zeros. -/
theorem Holds.toList (h : Holds w bits free) : ofBytes w.toList = fillUp bits := by
  have hlength : (fillUp bits).length = 8 * w.bytesUsed := by
    rw [length_fillUp, bytesUsed, h.position, Nat.mul_comm]
  have hdrop : (ofBytes w.storage).drop (8 * w.front) = bits ++ zeros free := by
    rw [h.storage, List.append_assoc]
    exact List.drop_left' List.length_replicate
  rw [BitWriter.toList, ← take_ofBytes, ← drop_ofBytes, hdrop, h.fillUp_append.2, ← hlength,
    List.take_left]

/-- The finished buffer has the writer's reserve, and behind it the bytes written. -/
theorem Holds.toBuffer (h : Holds w bits free) :
    w.toBuffer = ⟨w.storage.take (w.front + w.bytesUsed), w.front, 0⟩ ∧
      w.toBuffer.toList = w.toList := by
  have hstorage := h.length_storage
  have hused := h.bytesUsed_le
  have hlength : (w.storage.take (w.front + w.bytesUsed)).length = w.front + w.bytesUsed := by
    rw [List.length_take]
    omega
  have hbuffer : w.toBuffer = ⟨w.storage.take (w.front + w.bytesUsed), w.front, 0⟩ := by
    rw [BitWriter.toBuffer, ByteBuffer.ofListWithFront, hlength, Nat.min_eq_left (by omega)]
  refine ⟨hbuffer, ?_⟩
  have hsize : w.front + w.bytesUsed - w.front - 0 = w.bytesUsed := by omega
  have hrest : w.front + w.bytesUsed - w.front = w.bytesUsed := by omega
  rw [hbuffer, ByteBuffer.toList, ByteBuffer.size, hlength, hsize, List.drop_take, hrest,
    List.take_take, Nat.min_self]
  rfl

end BitWriter

end AnnexB
