/-
# Fields are read off a bit string

A reader stands somewhere in the string of its bits, and `rest` is what it has before it.  A field
of `n` bits is the number that the next `n` bits stand for, however they lie in the bytes
(`readField_eq`).  So a reader that has the fields of some numbers before it reads those numbers
(`readFields_of_rest`).
-/

import AnnexB.Proofs.Bits.BitString

namespace AnnexB

open Bits

namespace BitReader

variable {data : List UInt8} {r : BitReader}

/-- The bits that are not read yet. -/
def rest (r : BitReader) : List Bool := (ofBytes r.data).drop r.position

theorem length_rest (r : BitReader) : r.rest.length = r.bitsLeft := by
  rw [rest, List.length_drop, length_ofBytes, bitsLeft]

/-- The reader `n` bits on. -/
theorem rest_advance (r : BitReader) (n : Nat) :
    rest { r with position := r.position + n } = r.rest.drop n := by
  rw [rest, rest, List.drop_drop]

theorem bitsLeft_advance (r : BitReader) (n : Nat) :
    bitsLeft { r with position := r.position + n } = r.bitsLeft - n :=
  Nat.sub_add_eq ..

/-- Bits that lie in one byte are a field of it. -/
theorem ofField_byte {pos count : Nat} (hcount : count ≤ 8 - pos % 8)
    (hin : pos + count ≤ 8 * data.length) :
    ofField ((data[pos / 8]?.getD 0).toNat >>> (8 - pos % 8 - count)) count =
      ((ofBytes data).drop pos).take count := by
  apply List.ext_getElem?
  intro k
  rw [getElem?_ofField, List.getElem?_take]
  split
  · have hbyte : pos / 8 < data.length := by omega
    rw [List.getElem?_drop, getElem?_ofBytes, show (pos + k) / 8 = pos / 8 by omega,
      List.getElem?_eq_getElem hbyte, Option.getD_some, Option.map_some, Nat.testBit_shiftRight,
      show 8 - pos % 8 - count + (count - 1 - k) = 7 - (pos + k) % 8 by omega]
  · rfl

/-- **A field is the number of its bits**, as many of a byte at a time as there are. -/
theorem fieldAt_eq {pos n : Nat} (acc : Nat) (hin : pos + n ≤ 8 * data.length) :
    fieldAt data pos n acc = acc * 2 ^ n + number (((ofBytes data).drop pos).take n) := by
  induction pos, n, acc using fieldAt.induct data with
  | case1 pos acc =>
    rw [fieldAt, if_pos rfl, List.take_zero, number, Nat.pow_zero, Nat.mul_one, Nat.add_zero]
  | case2 pos n acc hn room count byte =>
    rename_i bits ih
    have hcount : count ≤ n := Nat.min_le_left ..
    have hbits : bits = number (((ofBytes data).drop pos).take count) := by
      have hfield := @ofField_byte data pos count (by omega) (by omega)
      rw [← hfield, number_ofField, ← Nat.one_shiftLeft]
    have hsplit : ((ofBytes data).drop pos).take n =
        ((ofBytes data).drop pos).take count ++
          ((ofBytes data).drop (pos + count)).take (n - count) := by
      rw [← List.drop_drop, ← List.take_add, Nat.add_sub_cancel' hcount]
    have hlength : (((ofBytes data).drop (pos + count)).take (n - count)).length = n - count := by
      rw [List.length_take, List.length_drop, length_ofBytes]
      omega
    have hpow : 2 ^ n = 2 ^ count * 2 ^ (n - count) := by
      rw [← Nat.pow_add, Nat.add_sub_cancel' hcount]
    rw [fieldAt, if_neg hn]
    refine (ih (by omega)).trans ?_
    rw [hsplit, number_append, hlength, ← hbits, hpow, Nat.shiftLeft_eq]
    ring

/-- **Reading a field** of a width that its type has, where there are as many bits. -/
theorem readField_eq {type : FieldType} {n : Nat} (hwidth : n ≤ type.width)
    (hleft : n ≤ r.bitsLeft) :
    readField type n r = (.ok (number (r.rest.take n)), { r with position := r.position + n }) := by
  rw [readField, if_neg (by omega), if_neg (by omega), rest]
  rcases Nat.eq_zero_or_pos n with rfl | hpos
  · rw [fieldAt, if_pos rfl]
    rfl
  · rw [fieldAt_eq 0 (by rw [bitsLeft] at hleft; omega), Nat.zero_mul, Nat.zero_add]

/-- A reader with a field of a number before it reads the number, and has before it what follows. -/
theorem readField_of_rest {type : FieldType} {value n : Nat} {later : List Bool}
    (hwidth : n ≤ type.width) (h : r.rest = ofField value n ++ later) :
    readField type n r = (.ok (value % 2 ^ n), { r with position := r.position + n }) ∧
      rest { r with position := r.position + n } = later := by
  have hlength := congrArg List.length h
  rw [length_rest, List.length_append, length_ofField] at hlength
  constructor
  · rw [readField_eq hwidth (by omega), h, List.take_left' (length_ofField ..), number_ofField]
  · rw [rest_advance, h, List.drop_left' (length_ofField ..)]

theorem bind_of_ok {α β : Type} {r' : BitReader} {read : Read α} {a : α}
    (h : read r = (.ok a, r')) (next : α → Read β) :
    (read >>= next) r = next a r' := by
  simp only [bind, ExceptT.bind, ExceptT.mk, StateT.bind, h, ExceptT.bindCont]

/-- Reads fields of some widths one after the other. -/
def readFields (type : FieldType) (widths : List Nat) : Read (List Nat) :=
  widths.mapM (readField type)

/-- One field, and then the others. -/
theorem readFields_cons {type : FieldType} {n : Nat} {widths : List Nat} {value : Nat}
    {values : List Nat} {r₁ r₂ : BitReader} (hfirst : readField type n r = (.ok value, r₁))
    (hrest : readFields type widths r₁ = (.ok values, r₂)) :
    readFields type (n :: widths) r = (.ok (value :: values), r₂) := by
  rw [readFields] at hrest ⊢
  rw [List.mapM_cons, bind_of_ok hfirst, bind_of_ok hrest]
  rfl

/-- **A reader with the fields of some numbers before it reads the numbers.** -/
theorem readFields_of_rest {type : FieldType} {fields : List (Nat × Nat)} {later : List Bool}
    (hwidth : ∀ f ∈ fields, f.2 ≤ type.width)
    (h : r.rest = (fields.flatMap fun f => ofField f.1 f.2) ++ later) :
    ∃ r', readFields type (fields.map Prod.snd) r =
        (.ok (fields.map fun f => f.1 % 2 ^ f.2), r') ∧ r'.rest = later := by
  induction fields generalizing r with
  | nil => exact ⟨r, rfl, h⟩
  | cons f fields ih =>
    rw [List.flatMap_cons, List.append_assoc] at h
    obtain ⟨hfirst, hbehind⟩ := readField_of_rest (hwidth f (List.mem_cons_self ..)) h
    obtain ⟨r', hrest, hlater⟩ := ih (fun g hg => hwidth g (List.mem_cons_of_mem _ hg)) hbehind
    exact ⟨r', readFields_cons hfirst hrest, hlater⟩

end BitReader

end AnnexB
