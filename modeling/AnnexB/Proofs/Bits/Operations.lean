/-
# Any operations on a writer

An operation of a writer is one of a string of bits too (`WriteOp`): a field appends its bits, whole
bytes are appended at a byte boundary and refused elsewhere, alignment fills up with zeros, a reset
leaves nothing.  The string is all that a writer shows: after any operations it gives the same
answers, its position is the string's length, and the bytes written are the string filled up with
zeros (`perform_refines`).

The room and the reserve that a writer begins with show in one place only, the finished buffer,
which has the reserve in front of the bytes written.
-/

import AnnexB.Proofs.Bits.Writer
import AnnexB.Proofs.Regions

namespace AnnexB

open Bits

/-- An operation that appends to a writer, aligns it or resets it. -/
inductive WriteOp where
  | bit (bit : Nat)
  | flag (flag : Bool)
  | bits (value n : Nat)
  | bits64 (value n : Nat)
  | bytes (bytes : List UInt8)
  | align
  | reset
  deriving DecidableEq, Repr

/-- The answers to some operations in a row, and the state behind them. -/
def perform {σ : Type} (step : WriteOp → σ → Except Error Unit × σ) :
    List WriteOp → σ → List (Except Error Unit) × σ
  | [], s => ([], s)
  | op :: ops, s =>
    let (answer, s) := step op s
    let (answers, s) := perform step ops s
    (answer :: answers, s)

theorem perform_cons {σ : Type} (step : WriteOp → σ → Except Error Unit × σ) (op : WriteOp)
    (ops : List WriteOp) (s : σ) :
    perform step (op :: ops) s =
      ((step op s).1 :: (perform step ops (step op s).2).1,
        (perform step ops (step op s).2).2) := rfl

namespace WriteOp

/-- The answer to an operation, and the writer behind it. -/
def onWriter (op : WriteOp) (w : BitWriter) : Except Error Unit × BitWriter :=
  match op with
  | bit b => (.ok (), w.writeBit b)
  | flag b => (.ok (), w.writeFlag b)
  | bits value n => (.ok (), w.writeBits value n)
  | bits64 value n => (.ok (), w.writeBits64 value n)
  | bytes bs => w.writeBytes bs
  | align => (.ok (), w.align)
  | reset => (.ok (), w.reset)

/-- The same on the string of the bits written. -/
def onBits (op : WriteOp) (written : List Bool) : Except Error Unit × List Bool :=
  match op with
  | bit b => (.ok (), written ++ ofField b 1)
  | flag b => (.ok (), written ++ [b])
  | bits value n => (.ok (), written ++ ofField value (min n 32))
  | bits64 value n => (.ok (), written ++ ofField value (min n 64))
  | bytes bs =>
    if written.length % 8 = 0 then (.ok (), written ++ ofBytes bs)
    else (.error (.unaligned "write_bytes"), written)
  | align => (.ok (), fillUp written)
  | reset => (.ok (), [])

end WriteOp

namespace BitWriter

variable {w : BitWriter} {bits : List Bool} {free front : Nat}

/-! ### One operation -/

@[simp] theorem writeBits_front (w : BitWriter) (value n : Nat) :
    (w.writeBits value n).front = w.front := by
  unfold writeBits
  simp only
  split
  · rfl
  · split <;> exact reserve_front ..

@[simp] theorem writeBits64_front (w : BitWriter) (value n : Nat) :
    (w.writeBits64 value n).front = w.front := by
  unfold writeBits64
  split
  · exact writeBits_front ..
  · rw [writeBits_front, writeBits_front]

@[simp] theorem writeBytes_front (w : BitWriter) (bytes : List UInt8) :
    (w.writeBytes bytes).2.front = w.front := by
  unfold writeBytes
  split
  · rfl
  · exact reserve_front ..

/-- No operation touches the reserve. -/
theorem onWriter_front (op : WriteOp) (w : BitWriter) : (op.onWriter w).2.front = w.front := by
  cases op with
  | bit b => exact writeBits_front ..
  | flag b => exact writeBits_front ..
  | bits value n => exact writeBits_front ..
  | bits64 value n => exact writeBits64_front ..
  | bytes bs => exact writeBytes_front ..
  | align => rfl
  | reset => rfl

/-- **An operation does to a writer what it does to the bits that it holds.** -/
theorem onWriter_of_holds (op : WriteOp) (h : Holds w bits free) :
    (op.onWriter w).1 = (op.onBits bits).1 ∧
      ∃ free', Holds (op.onWriter w).2 (op.onBits bits).2 free' := by
  cases op with
  | bit b =>
    have hbit : ofField (b % 2) 1 = ofField b 1 := ofField_mod (Nat.le_refl 1) b
    obtain ⟨free', hwrite⟩ := h.writeBits (b % 2) 1
    rw [Nat.min_eq_left (by decide), hbit] at hwrite
    exact ⟨rfl, free', hwrite⟩
  | flag b =>
    obtain ⟨free', hwrite⟩ := h.writeBits b.toNat 1
    have hflag : ofField b.toNat (min 1 32) = [b] := by cases b <;> rfl
    rw [hflag] at hwrite
    exact ⟨rfl, free', hwrite⟩
  | bits value n => exact ⟨rfl, h.writeBits value n⟩
  | bits64 value n => exact ⟨rfl, h.writeBits64 value n⟩
  | bytes bs =>
    rw [WriteOp.onWriter, WriteOp.onBits]
    by_cases haligned : bits.length % 8 = 0
    · rw [if_pos haligned]
      exact h.writeBytes bs haligned
    · rw [if_neg haligned, h.writeBytes_unaligned bs haligned]
      exact ⟨rfl, free, h⟩
  | align => exact ⟨rfl, _, h.align⟩
  | reset => exact ⟨rfl, h.reset⟩

/-! ### Operations in a row -/

/-- Operations in a row keep what one operation keeps. -/
theorem perform_of_holds (ops : List WriteOp) (h : Holds w bits free) :
    (perform WriteOp.onWriter ops w).1 = (perform WriteOp.onBits ops bits).1 ∧
      (perform WriteOp.onWriter ops w).2.front = w.front ∧
      ∃ free',
        Holds (perform WriteOp.onWriter ops w).2 (perform WriteOp.onBits ops bits).2 free' := by
  induction ops generalizing w bits free with
  | nil => exact ⟨rfl, rfl, free, h⟩
  | cons op ops ih =>
    obtain ⟨hanswer, free₁, hstep⟩ := onWriter_of_holds op h
    obtain ⟨hanswers, hfront, hrun⟩ := ih hstep
    refine ⟨?_, ?_, hrun⟩
    · exact congrArg₂ List.cons hanswer hanswers
    · exact hfront.trans (onWriter_front op w)

/-- **A writer is a growing bit string.**  Whatever room and reserve it is made with, after any
operations it has given the answers of the string, stands at the end of the string, and shows the
string filled up with zeros to whole bytes, for which there is room; and any other new writer shows
the same.  The finished buffer holds just that, behind the reserve, into which a header goes if it
fits; and off a byte boundary whole bytes are refused, and nothing changes.  There is such a writer
unless storage cannot have as many bytes. -/
theorem perform_refines (capacity front : Nat) (ops : List WriteOp) :
    if front + capacity ≤ maxSize then
      ∃ new, withFront capacity front = .ok new ∧
        let run := perform WriteOp.onWriter ops new
        let string := perform WriteOp.onBits ops []
        let w := run.2
        run.1 = string.1 ∧ w.position = string.2.length ∧ ofBytes w.toList = fillUp string.2 ∧
          w.bytesUsed ≤ w.capacity ∧
          (∀ other : BitWriter, other.IsNew →
            let w' := (perform WriteOp.onWriter ops other).2
            w'.position = w.position ∧ w'.toList = w.toList) ∧
          w.toBuffer.toList = w.toList ∧ w.toBuffer.front = front ∧ w.toBuffer.back = 0 ∧
          (∀ header : List UInt8, header.length ≤ front →
            ∃ b, w.toBuffer.prepend header = .ok b ∧ b.toList = header ++ w.toList) ∧
          ∀ bytes, string.2.length % 8 ≠ 0 →
            w.writeBytes bytes = (.error (.unaligned "write_bytes"), w)
    else withFront capacity front = .error .fault := by
  refine withFront_spec ?_
  intro run string w
  obtain ⟨hanswers, hfront, free, h⟩ := perform_of_holds ops (holds_blank capacity front)
  obtain ⟨hbuffer, hdata⟩ := h.toBuffer
  have hreserve : w.toBuffer.front = front := by
    rw [hbuffer]
    exact hfront
  refine ⟨hanswers, h.position, h.toList, h.bytesUsed_le, ?_, hdata, hreserve, ?_, ?_, ?_⟩
  · intro other hother
    obtain ⟨_, hnew⟩ := hother.holds
    obtain ⟨-, -, free', h'⟩ := perform_of_holds ops hnew
    exact ⟨h'.position.trans h.position.symm, ofBytes_injective (h'.toList.trans h.toList.symm)⟩
  · rw [hbuffer]
  · intro header hfit
    have hlength := h.length_storage
    have hused := h.bytesUsed_le
    have hfits : header.length ≤ w.toBuffer.front := by rwa [hreserve]
    have hreserves : w.toBuffer.front + w.toBuffer.back ≤ w.toBuffer.storage.length := by
      rw [hbuffer]
      simp only [List.length_take]
      omega
    obtain ⟨b, hprepend, hlist⟩ := ByteBuffer.toList_prepend hfits hreserves
    exact ⟨b, hprepend, hlist.trans (congrArg (header ++ ·) hdata)⟩
  · intro bytes hunaligned
    exact h.writeBytes_unaligned bytes hunaligned

/-- A field of five bits that grows the storage, in front of which a byte fits, and behind which no
whole byte is taken. -/
theorem perform_refines_growing :
    ∃ new other, withFront 0 1 = .ok new ∧ withFront 7 3 = .ok other ∧
      let w := (perform WriteOp.onWriter [.bytes [171], .bits 21 5] new).2
      other.IsNew ∧
        (perform WriteOp.onWriter [.bytes [171], .bits 21 5] other).2.toList = w.toList ∧
        ([9] : List UInt8).length ≤ 1 ∧
        (∃ b, w.toBuffer.prepend [9] = .ok b ∧ b.toList = [9] ++ w.toList) ∧
        (perform WriteOp.onBits [.bytes [171], .bits 21 5] []).2.length % 8 ≠ 0 ∧
        w.writeBytes [1] = (.error (.unaligned "write_bytes"), w) ∧
        w.toList = [171, 168] := by
  have hgrowing := perform_refines 0 1 [.bytes [171], .bits 21 5]
  rw [if_pos (by decide)] at hgrowing
  obtain ⟨new, hnew, -, -, hlist, -, hsame, -, -, -, hprepend, hunaligned⟩ := hgrowing
  have hother : (blank 7 3).IsNew := isNew_blank (by decide)
  have hbits : fillUp (perform WriteOp.onBits [.bytes [171], .bits 21 5] []).2 =
      ofBytes [171, 168] := by decide
  exact ⟨new, _, hnew, rfl, hother, (hsame _ hother).2, by decide, hprepend [9] (by decide),
    by decide, hunaligned [1] (by decide), ofBytes_injective (hlist.trans hbits)⟩

end BitWriter
end AnnexB
