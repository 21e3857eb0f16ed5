/-
# Bits, most significant first

Writer and reader agree on one view of bytes, the string of their bits (`ofBytes`).  A field of `n`
bits of a number is such a string too (`ofField`), and so is a byte.

A string stands for a number again (`number`): that of a field is the number modulo `2 ^ n`
(`number_ofField`), and the field of that number is the string (`ofField_number`).  Fields can be cut
in two (`ofField_add`), and bytes with the same bits are the same (`ofBytes_injective`).

`getElem?_ofField` and `getElem?_ofBytes` give a string bit by bit.  What a writer puts into a byte
and what a reader takes out of one are compared in this form.
-/

import AnnexB.Bits.Writer
import Mathlib.Data.List.Basic
import Mathlib.Data.Nat.Bitwise
import Mathlib.Tactic.Ring

namespace AnnexB
namespace Bits

/-- The low `n` bits of a number. -/
def ofField (value : Nat) : (n : Nat) → List Bool
  | 0 => []
  | n + 1 => value.testBit n :: ofField value n

/-- The bits of a byte. -/
def ofByte (byte : UInt8) : List Bool := ofField byte.toNat 8

/-- The bits of some bytes. -/
def ofBytes (bytes : List UInt8) : List Bool := bytes.flatMap ofByte

/-- The number with some binary digits. -/
def number : List Bool → Nat
  | [] => 0
  | bit :: rest => bit.toNat * 2 ^ rest.length + number rest

/-- `n` zeros. -/
abbrev zeros (n : Nat) : List Bool := List.replicate n false

theorem zeros_append (m n : Nat) : zeros m ++ zeros n = zeros (m + n) :=
  List.replicate_append_replicate

/-! ### Fields -/

@[simp] theorem length_ofField (value n : Nat) : (ofField value n).length = n := by
  induction n with
  | zero => rfl
  | succ n ih => rw [ofField, List.length_cons, ih]

theorem getElem?_ofField (value n k : Nat) :
    (ofField value n)[k]? = if k < n then some (value.testBit (n - 1 - k)) else none := by
  induction n generalizing k with
  | zero => rfl
  | succ n ih =>
    cases k with
    | zero => simp [ofField]
    | succ k =>
      rw [ofField, List.getElem?_cons_succ, ih, show n + 1 - 1 - (k + 1) = n - 1 - k by omega]
      simp only [Nat.add_lt_add_iff_right]

/-- A field begins with the field of its high bits. -/
theorem ofField_add (value m n : Nat) :
    ofField value (m + n) = ofField (value >>> n) m ++ ofField value n := by
  induction m with
  | zero => rw [Nat.zero_add, ofField, List.nil_append]
  | succ m ih =>
    rw [Nat.succ_add, ofField, ih, ofField, Nat.testBit_shiftRight, Nat.add_comm n m,
      List.cons_append]

theorem ofField_mod {m n : Nat} (h : n ≤ m) (value : Nat) :
    ofField (value % 2 ^ m) n = ofField value n := by
  induction n with
  | zero => rfl
  | succ n ih =>
    have hbit : (value % 2 ^ m).testBit n = value.testBit n := by
      rw [Nat.testBit_mod_two_pow, decide_eq_true (by omega : n < m), Bool.true_and]
    rw [ofField, ofField, hbit, ih (by omega)]

/-- A string begins with the digits of the high part of its number. -/
theorem number_append (a b : List Bool) :
    number (a ++ b) = number a * 2 ^ b.length + number b := by
  induction a with
  | nil => simp [number]
  | cons bit a ih =>
    rw [List.cons_append, number, ih, number, List.length_append, Nat.pow_add]
    ring

/-- **A field stands for its number** modulo a power of two. -/
theorem number_ofField (value n : Nat) : number (ofField value n) = value % 2 ^ n := by
  induction n with
  | zero => rw [ofField, number, Nat.pow_zero, Nat.mod_one]
  | succ n ih =>
    rw [ofField, number, ih, length_ofField, Nat.mod_pow_succ, Nat.toNat_testBit]
    ring

theorem number_zeros (n : Nat) : number (zeros n) = 0 := by
  induction n with
  | zero => rfl
  | succ n ih =>
    rw [zeros, List.replicate_succ, number, ih]
    simp

theorem number_lt (bits : List Bool) : number bits < 2 ^ bits.length := by
  induction bits with
  | nil => exact Nat.one_pos
  | cons bit rest ih =>
    have hbit : bit.toNat * 2 ^ rest.length ≤ 1 * 2 ^ rest.length :=
      Nat.mul_le_mul_right _ (Bool.toNat_le bit)
    rw [number, List.length_cons, Nat.pow_succ]
    omega

theorem number_take_lt (bits : List Bool) (n : Nat) : number (bits.take n) < 2 ^ n :=
  (number_lt _).trans_le (Nat.pow_le_pow_right (by decide) (List.length_take_le ..))

/-- **Bits are the field of their number.** -/
theorem ofField_number (bits : List Bool) : ofField (number bits) bits.length = bits := by
  induction bits with
  | nil => rfl
  | cons bit rest ih =>
    have hlt := number_lt rest
    have hhigh : (bit.toNat * 2 ^ rest.length + number rest).testBit rest.length = bit := by
      rw [Nat.mul_comm, Nat.testBit_two_pow_mul_add _ hlt, if_neg (Nat.lt_irrefl _), Nat.sub_self]
      cases bit <;> rfl
    have hlow : ofField (bit.toNat * 2 ^ rest.length + number rest) rest.length =
        ofField (number rest) rest.length := by
      rw [← ofField_mod (Nat.le_refl _) (_ + _), Nat.mul_add_mod_self_right, Nat.mod_eq_of_lt hlt]
    rw [number, List.length_cons, ofField, hhigh, hlow, ih]

/-! ### Bytes -/

@[simp] theorem length_ofByte (byte : UInt8) : (ofByte byte).length = 8 := length_ofField ..

theorem ofBytes_cons (byte : UInt8) (rest : List UInt8) :
    ofBytes (byte :: rest) = ofByte byte ++ ofBytes rest := List.flatMap_cons

theorem ofBytes_append (a b : List UInt8) : ofBytes (a ++ b) = ofBytes a ++ ofBytes b :=
  List.flatMap_append

@[simp] theorem length_ofBytes (bytes : List UInt8) :
    (ofBytes bytes).length = 8 * bytes.length := by
  induction bytes with
  | nil => rfl
  | cons byte rest ih =>
    rw [ofBytes_cons, List.length_append, length_ofByte, ih, List.length_cons]
    omega

/-- Bit `k` of some bytes stands in byte `k / 8`. -/
theorem getElem?_ofBytes (bytes : List UInt8) (k : Nat) :
    (ofBytes bytes)[k]? = bytes[k / 8]?.map fun byte => byte.toNat.testBit (7 - k % 8) := by
  induction bytes generalizing k with
  | nil => rfl
  | cons byte rest ih =>
    rw [ofBytes_cons]
    rcases Nat.lt_or_ge k 8 with hk | hk
    · rw [List.getElem?_append_left (by rwa [length_ofByte]), ofByte, getElem?_ofField, if_pos hk,
        Nat.div_eq_of_lt hk, Nat.mod_eq_of_lt hk]
      rfl
    · obtain ⟨j, rfl⟩ := Nat.exists_eq_add_of_le hk
      rw [List.getElem?_append_right (by rw [length_ofByte]; omega), length_ofByte,
        Nat.add_sub_cancel_left, ih, show (8 + j) / 8 = j / 8 + 1 by omega,
        show (8 + j) % 8 = j % 8 by omega, List.getElem?_cons_succ]

theorem take_ofBytes (bytes : List UInt8) (n : Nat) :
    (ofBytes bytes).take (8 * n) = ofBytes (bytes.take n) := by
  induction bytes generalizing n with
  | nil => simp [ofBytes]
  | cons byte rest ih =>
    cases n with
    | zero => rfl
    | succ n =>
      rw [ofBytes_cons, List.take_succ_cons, ofBytes_cons, ← ih, List.take_append, length_ofByte,
        List.take_of_length_le (by rw [length_ofByte]; omega),
        show 8 * (n + 1) - 8 = 8 * n by omega]

theorem drop_ofBytes (bytes : List UInt8) (n : Nat) :
    (ofBytes bytes).drop (8 * n) = ofBytes (bytes.drop n) := by
  have hsplit := ofBytes_append (bytes.take n) (bytes.drop n)
  rw [List.take_append_drop, ← take_ofBytes] at hsplit
  exact List.append_cancel_left ((List.take_append_drop (8 * n) (ofBytes bytes)).trans hsplit)

theorem ofBytes_replicate_zero (n : Nat) : ofBytes (List.replicate n 0) = zeros (8 * n) := by
  induction n with
  | zero => rfl
  | succ n ih =>
    rw [List.replicate_succ, ofBytes_cons, ih, Nat.mul_succ, Nat.add_comm, ← zeros_append]
    rfl

theorem ofByte_injective {a b : UInt8} (h : ofByte a = ofByte b) : a = b := by
  have hvalue := congrArg number h
  rw [ofByte, ofByte, number_ofField, number_ofField, Nat.mod_eq_of_lt a.toNat_lt,
    Nat.mod_eq_of_lt b.toNat_lt] at hvalue
  exact UInt8.toNat_inj.1 hvalue

/-- Bytes with the same bits are the same. -/
theorem ofBytes_injective {a b : List UInt8} (h : ofBytes a = ofBytes b) : a = b := by
  induction a generalizing b with
  | nil =>
    have hlength := congrArg List.length h
    rw [length_ofBytes, length_ofBytes, List.length_nil] at hlength
    exact (List.length_eq_zero_iff.1 (by omega)).symm
  | cons byte a ih =>
    rcases b with _ | ⟨byte', b⟩
    · have hlength := congrArg List.length h
      simp at hlength
    · rw [ofBytes_cons, ofBytes_cons] at h
      obtain ⟨hbyte, hrest⟩ := List.append_inj h (by rw [length_ofByte, length_ofByte])
      rw [ofByte_injective hbyte, ih hrest]

end Bits
end AnnexB
