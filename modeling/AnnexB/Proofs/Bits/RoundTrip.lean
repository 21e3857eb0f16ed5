/-
# What is written is read back

A finished buffer holds the fields written and, behind them, at most seven zeros.  A reader of the
buffer has just that before it, which gives the round trip (`readFields_writeFields`).
-/

import AnnexB.Proofs.Bits.Reader
import AnnexB.Proofs.Bits.Writer

namespace AnnexB

open Bits

namespace BitWriter

open BitReader

/-- Appends fields one after the other. -/
def writeFields (w : BitWriter) (fields : List (Nat × Nat)) : BitWriter :=
  fields.foldl (fun w f => w.writeBits64 f.1 f.2) w

theorem Holds.writeFields {w : BitWriter} {bits : List Bool} {free : Nat} (h : Holds w bits free)
    {fields : List (Nat × Nat)} (hwidth : ∀ f ∈ fields, f.2 ≤ 64) :
    ∃ free', Holds (w.writeFields fields) (bits ++ fields.flatMap fun f => ofField f.1 f.2)
      free' := by
  induction fields generalizing w bits free with
  | nil => exact ⟨free, by rwa [List.flatMap_nil, List.append_nil]⟩
  | cons f fields ih =>
    obtain ⟨free₁, hfirst⟩ := h.writeBits64 f.1 f.2
    rw [Nat.min_eq_left (hwidth f (List.mem_cons_self ..))] at hfirst
    obtain ⟨free₂, hrest⟩ := ih hfirst fun g hg => hwidth g (List.mem_cons_of_mem _ hg)
    rw [List.flatMap_cons, ← List.append_assoc]
    exact ⟨free₂, hrest⟩

/-- **Fields that are written are read back**, each modulo its width, whatever room and reserve the
writer is made with; and the bits left behind them are zeros, less than a byte of them.  There is such
a writer unless storage cannot have as many bytes. -/
theorem readFields_writeFields (capacity front : Nat) {fields : List (Nat × Nat)}
    (hwidth : ∀ f ∈ fields, f.2 ≤ 64) :
    if front + capacity ≤ maxSize then
      ∃ w, withFront capacity front = .ok w ∧
        let buffer := (w.writeFields fields).toBuffer
        ∃ r, readFields .u64 (fields.map Prod.snd) (BitReader.ofBuffer buffer) =
            (.ok (fields.map fun f => f.1 % 2 ^ f.2), r) ∧
          r.bitsLeft < 8 ∧ r.rest = zeros r.bitsLeft ∧
          (readField .u64 r.bitsLeft r).1 = .ok 0
    else withFront capacity front = .error .fault := by
  refine withFront_spec ?_
  intro buffer
  obtain ⟨free, hwritten⟩ := (holds_blank capacity front).writeFields hwidth
  have hrest : (BitReader.ofBuffer buffer).rest =
      fillUp (fields.flatMap fun f => ofField f.1 f.2) := by
    rw [rest, BitReader.ofBuffer, BitReader.ofList, List.drop_zero, hwritten.toBuffer.2,
      hwritten.toList]
    rfl
  have hwidth' : ∀ f ∈ fields, f.2 ≤ FieldType.u64.width := hwidth
  obtain ⟨r, hread, hlater⟩ := readFields_of_rest hwidth' hrest
  have hleft := length_rest r
  rw [hlater, List.length_replicate] at hleft
  have hshort : r.bitsLeft < 8 := by
    rw [← hleft, padding]
    omega
  refine ⟨r, hread, hshort, by rw [hlater, hleft], ?_⟩
  have hwidth : r.bitsLeft ≤ FieldType.u64.width := by
    rw [FieldType.width]
    omega
  rw [readField_eq hwidth (Nat.le_refl _), hlater, ← hleft, List.take_of_length_le (by simp),
    number_zeros]

/-- Fields at all offsets in a byte, a whole byte among them, one that is cut off and an empty
one. -/
theorem readFields_writeFields_mixed :
    (∀ f ∈ [(5, 3), (171, 8), (2 ^ 33 + 7, 33), (0, 0), (2 ^ 64 - 1, 64)], f.2 ≤ 64) ∧
      ∃ w, withFront 1 2 = .ok w ∧ ∃ r, readFields .u64 [3, 8, 33, 0, 64] (BitReader.ofBuffer
          (w.writeFields
            [(5, 3), (171, 8), (2 ^ 33 + 7, 33), (0, 0), (2 ^ 64 - 1, 64)]).toBuffer) =
        (.ok [5, 171, 7, 0, 2 ^ 64 - 1], r) ∧
        r.bitsLeft < 8 ∧ r.rest = zeros r.bitsLeft ∧ (readField .u64 r.bitsLeft r).1 = .ok 0 := by
  have hmixed := @readFields_writeFields 1 2
    [(5, 3), (171, 8), (2 ^ 33 + 7, 33), (0, 0), (2 ^ 64 - 1, 64)] (by decide)
  rw [if_pos (by decide)] at hmixed
  exact ⟨by decide, hmixed⟩

end BitWriter
end AnnexB
