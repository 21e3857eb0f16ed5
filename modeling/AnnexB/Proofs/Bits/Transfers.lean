/-
# Bytes from a reader to a writer

A transfer looks at both sides before it takes a byte: writer and reader must stand at byte
boundaries, and the reader must have as many bytes left.  So it moves all the bytes asked for, or
leaves both sides as they are (`transferBytes_of_holds`, `transferBytes_refused`).

Transfers in a row, with writing between them, are a merge (`merge`).  What is written between two
transfers appends the same bits at whatever byte boundary it begins (`perform_onBits_append`).  So
a merge that asks for no more than there is hands on the reader's bytes in order, each of them once,
and between them stands what was written (`merge_of_holds`).
-/

import AnnexB.Proofs.Bits.Operations
import AnnexB.Proofs.Bits.Requests
import Mathlib.Algebra.BigOperators.Group.List.Basic

namespace AnnexB

open Bits

variable {w w' : BitWriter} {r r' : BitReader} {bits : List Bool} {free n : Nat}

/-! ### One transfer -/

namespace BitReader

/-- Behind the last whole byte there is none, so the bits left tell whether a reader stands at a
boundary. -/
theorem bitsLeft_mod_eq_zero_iff (hin : r.position ≤ 8 * r.data.length) :
    r.bitsLeft % 8 = 0 ↔ r.isAligned = true := by
  rw [isAligned, beq_iff_eq, bitsLeft]
  omega

/-- The reader `n` bytes on. -/
def advanceBytes (r : BitReader) (n : Nat) : BitReader :=
  { r with position := r.position + 8 * n }

theorem advanceBytes_add (r : BitReader) (m n : Nat) :
    (r.advanceBytes m).advanceBytes n = r.advanceBytes (m + n) := by
  rw [advanceBytes, advanceBytes, advanceBytes, Nat.mul_add, Nat.add_assoc]

theorem drop_advanceBytes (r : BitReader) (n : Nat) :
    (r.advanceBytes n).data.drop (r.advanceBytes n).bytePosition =
      (r.data.drop r.bytePosition).drop n := by
  rw [List.drop_drop]
  congr 1
  exact Nat.add_mul_div_left _ _ (by decide)

theorem bytesLeft_advanceBytes (r : BitReader) (n : Nat) :
    (r.advanceBytes n).bytesLeft = r.bytesLeft - n := by
  rw [bytesLeft, bytesLeft, advanceBytes, bitsLeft_advance]
  omega

theorem isAligned_advanceBytes (r : BitReader) (n : Nat) :
    (r.advanceBytes n).isAligned = r.isAligned := by
  rw [isAligned, isAligned, advanceBytes, Nat.add_mul_mod_self_left]

theorem position_advanceBytes_le (hn : n ≤ r.bytesLeft) (hin : r.position ≤ 8 * r.data.length) :
    (r.advanceBytes n).position ≤ 8 * (r.advanceBytes n).data.length := by
  rw [bytesLeft, bitsLeft] at hn
  simp only [advanceBytes]
  omega

theorem length_drop_bytePosition (hin : r.position ≤ 8 * r.data.length)
    (haligned : r.isAligned = true) : (r.data.drop r.bytePosition).length = r.bytesLeft := by
  rw [isAligned, beq_iff_eq] at haligned
  rw [List.length_drop, bytePosition, bytesLeft, bitsLeft]
  omega

end BitReader

namespace BitWriter

open BitReader

theorem Holds.isAligned_iff (h : Holds w bits free) :
    w.isAligned = true ↔ bits.length % 8 = 0 := by
  rw [isAligned, beq_iff_eq, h.position]

/-- At a byte boundary the bytes written are the bits held, and no more. -/
theorem Holds.toList_of_isAligned (h : Holds w bits free) (haligned : w.isAligned = true) :
    ofBytes w.toList = bits := by
  rw [h.isAligned_iff] at haligned
  rw [h.toList, fillUp, padding, haligned]
  exact List.append_nil _

/-- Whole bytes behind whole bytes are written behind them. -/
theorem Holds.toList_append {added : List Bool} {free' : Nat} (h : Holds w bits free)
    (haligned : w.isAligned = true) (h' : Holds w' (bits ++ added) free')
    (hadded : added.length % 8 = 0) :
    w'.isAligned = true ∧ ofBytes w'.toList = ofBytes w.toList ++ added := by
  have haligned' : w'.isAligned = true := by
    have hbits := h.isAligned_iff.1 haligned
    rw [h'.isAligned_iff, List.length_append]
    omega
  exact ⟨haligned', by
    rw [h'.toList_of_isAligned haligned', h.toList_of_isAligned haligned]⟩

/-- **A transfer moves the next bytes of the reader** behind the bits of the writer. -/
theorem transferBytes_of_holds (h : Holds w bits free) (hw : w.isAligned = true)
    (hin : r.position ≤ 8 * r.data.length) (hr : r.isAligned = true) (hn : n ≤ r.bytesLeft) :
    ∃ w' free', w.transferBytes r n = (.ok (), w', r.advanceBytes n) ∧ w'.front = w.front ∧
      Holds w' (bits ++ ofBytes ((r.data.drop r.bytePosition).take n)) free' := by
  obtain ⟨hanswer, free', hwrite⟩ :=
    h.writeBytes ((r.data.drop r.bytePosition).take n) (h.isAligned_iff.1 hw)
  refine ⟨_, free', ?_, writeBytes_front .., hwrite⟩
  have hguard := (bitsLeft_mod_eq_zero_iff hin).2 hr
  rw [transferBytes, hw, if_neg (by decide), hguard, if_neg (by decide), if_neg (by omega)]
  simp only [takeBytes]
  rw [← hanswer]
  rfl

theorem toList_transferBytes (h : Holds w bits free) (hw : w.isAligned = true)
    (hin : r.position ≤ 8 * r.data.length) (hr : r.isAligned = true) (hn : n ≤ r.bytesLeft) :
    ∃ w', w.transferBytes r n = (.ok (), w', r.advanceBytes n) ∧ w'.front = w.front ∧
      w'.position = w.position + 8 * n ∧
      w'.toList = w.toList ++ (r.data.drop r.bytePosition).take n := by
  obtain ⟨w', free', htransfer, hfront, hholds⟩ := transferBytes_of_holds h hw hin hr hn
  have hlength : ((r.data.drop r.bytePosition).take n).length = n := by
    rw [List.length_take, length_drop_bytePosition hin hr, Nat.min_eq_left hn]
  refine ⟨w', htransfer, hfront, ?_, ?_⟩
  · rw [hholds.position, h.position, List.length_append, length_ofBytes, hlength]
  · obtain ⟨-, hbytes⟩ := h.toList_append hw hholds (by rw [length_ofBytes]; omega)
    exact ofBytes_injective (hbytes.trans (ofBytes_append _ _).symm)

/-- **A transfer that cannot be made changes nothing.** -/
theorem transferBytes_refused (w : BitWriter) (hin : r.position ≤ 8 * r.data.length)
    (h : ¬ (w.isAligned = true ∧ r.isAligned = true ∧ n ≤ r.bytesLeft)) :
    ∃ e, w.transferBytes r n = (.error e, w, r) := by
  by_cases hw : w.isAligned = true
  · by_cases hr : r.isAligned = true
    · have hguard := (bitsLeft_mod_eq_zero_iff hin).2 hr
      have hshort : r.bytesLeft < n := by
        rw [not_and, not_and, Nat.not_le] at h
        exact h hw hr
      exact ⟨_, by
        rw [transferBytes, hw, if_neg (by decide), hguard, if_neg (by decide), if_pos hshort]⟩
    · have hguard : (r.bitsLeft % 8 != 0) = true := by
        rwa [bne_iff_ne, Ne, bitsLeft_mod_eq_zero_iff hin]
      exact ⟨_, by rw [transferBytes, hw, if_neg (by decide), if_pos hguard]⟩
  · exact ⟨_, by rw [transferBytes, if_pos (by simpa using hw)]⟩

/-! ### Writing at a boundary -/

/-- Zeros up to the next boundary do not depend on the whole bytes in front. -/
theorem fillUp_append {front : List Bool} (hfront : front.length % 8 = 0) (bits : List Bool) :
    fillUp (front ++ bits) = front ++ fillUp bits := by
  have hpadding : padding (front ++ bits).length = padding bits.length := by
    rw [List.length_append, padding, padding]
    omega
  rw [fillUp, fillUp, hpadding, List.append_assoc]

/-- An operation other than a reset does the same behind whole bytes. -/
theorem onBits_append {front : List Bool} (hfront : front.length % 8 = 0) {op : WriteOp}
    (hop : op ≠ .reset) (bits : List Bool) :
    op.onBits (front ++ bits) = ((op.onBits bits).1, front ++ (op.onBits bits).2) := by
  cases op with
  | bit b => simp only [WriteOp.onBits, List.append_assoc]
  | flag b => simp only [WriteOp.onBits, List.append_assoc]
  | bits value n => simp only [WriteOp.onBits, List.append_assoc]
  | bits64 value n => simp only [WriteOp.onBits, List.append_assoc]
  | bytes bs =>
    have hboundary : (front ++ bits).length % 8 = bits.length % 8 := by
      rw [List.length_append]
      omega
    rw [WriteOp.onBits, WriteOp.onBits, hboundary]
    split
    · rw [List.append_assoc]
    · rfl
  | align => rw [WriteOp.onBits, WriteOp.onBits, fillUp_append hfront]
  | reset => exact absurd rfl hop

/-- **Operations in a row append the same bits behind whole bytes** as in front of nothing. -/
theorem perform_onBits_append {front : List Bool} (hfront : front.length % 8 = 0)
    {ops : List WriteOp} (hops : WriteOp.reset ∉ ops) (bits : List Bool) :
    perform WriteOp.onBits ops (front ++ bits) =
      ((perform WriteOp.onBits ops bits).1, front ++ (perform WriteOp.onBits ops bits).2) := by
  induction ops generalizing bits with
  | nil => rfl
  | cons op ops ih =>
    rw [List.mem_cons, not_or] at hops
    have hstep := onBits_append hfront (Ne.symm hops.1) bits
    rw [perform_cons, perform_cons, hstep, ih hops.2]

end BitWriter

/-! ### A merge -/

/-- A turn of a merge: what is written, and the number of bytes that are moved behind it. -/
structure MergeTurn where
  own : List WriteOp
  moved : Nat
  deriving DecidableEq, Repr

namespace MergeTurn

/-- The bits that are written. -/
def ownBits (t : MergeTurn) : List Bool := (perform WriteOp.onBits t.own []).2

/-- What is written fills whole bytes, and takes nothing back. -/
def IsWhole (t : MergeTurn) : Prop := t.ownBits.length % 8 = 0 ∧ WriteOp.reset ∉ t.own

/-- The answers when the bytes are moved. -/
def answers (t : MergeTurn) : List (Except Error Unit) :=
  (perform WriteOp.onBits t.own []).1 ++ [.ok ()]

/-- The number of bytes moved in some turns. -/
def total (turns : List MergeTurn) : Nat := (turns.map moved).sum

theorem total_cons (t : MergeTurn) (turns : List MergeTurn) :
    total (t :: turns) = t.moved + total turns := by
  rw [total, total, List.map_cons, List.sum_cons]

end MergeTurn

namespace BitWriter

open BitReader MergeTurn

/-- Takes turns at writing and moving bytes: the answers, and both sides behind them. -/
def merge : List MergeTurn → BitWriter → BitReader →
    List (Except Error Unit) × BitWriter × BitReader
  | [], w, r => ([], w, r)
  | t :: turns, w, r =>
    let own := perform WriteOp.onWriter t.own w
    let moved := own.2.transferBytes r t.moved
    let later := merge turns moved.2.1 moved.2.2
    (own.1 ++ moved.1 :: later.1, later.2)

/-- What a merge appends: in each turn what is written, and behind it the bytes moved. -/
def merged (turns : List MergeTurn) (pieces : List (List UInt8)) : List Bool :=
  (List.zipWith (fun t piece => t.ownBits ++ ofBytes piece) turns pieces).flatten

/-- **A merge hands on the bytes of the reader in order**, each of them once. -/
theorem merge_of_holds {turns : List MergeTurn} (hturns : ∀ t ∈ turns, t.IsWhole)
    (h : Holds w bits free) (hw : w.isAligned = true) (hin : r.position ≤ 8 * r.data.length)
    (hr : r.isAligned = true) (hleft : total turns ≤ r.bytesLeft) :
    ∃ w' free' pieces,
      merge turns w r = (turns.flatMap answers, w', r.advanceBytes (total turns)) ∧
      w'.front = w.front ∧ w'.isAligned = true ∧
      pieces.map List.length = turns.map moved ∧
      pieces.flatten = (r.data.drop r.bytePosition).take (total turns) ∧
      Holds w' (bits ++ merged turns pieces) free' := by
  induction turns generalizing w r bits free with
  | nil =>
    exact ⟨w, free, [], rfl, rfl, hw, rfl, rfl, by simpa [merged] using h⟩
  | cons t turns ih =>
    rw [total_cons] at hleft
    obtain ⟨⟨hwhole, hkept⟩, hlater⟩ := List.forall_mem_cons.1 hturns
    have hbits := h.isAligned_iff.1 hw
    -- what is written
    obtain ⟨hanswers, hfront, free₁, hown⟩ := perform_of_holds t.own h
    have happend := perform_onBits_append hbits hkept []
    rw [List.append_nil] at happend
    rw [happend] at hanswers hown
    set w₁ := (perform WriteOp.onWriter t.own w).2 with hw₁
    obtain ⟨haligned, -⟩ := h.toList_append hw hown hwhole
    -- the bytes that are moved
    obtain ⟨w₂, free₂, htransfer, hfront₂, hmoved⟩ :=
      transferBytes_of_holds hown haligned hin hr (show t.moved ≤ r.bytesLeft by omega)
    obtain ⟨haligned₂, -⟩ := hown.toList_append haligned hmoved (by rw [length_ofBytes]; omega)
    -- the turns that are left
    have hrest := drop_advanceBytes r t.moved
    have hleft₂ := bytesLeft_advanceBytes r t.moved
    have hin₂ := position_advanceBytes_le (show t.moved ≤ r.bytesLeft by omega) hin
    have hr₂ : (r.advanceBytes t.moved).isAligned = true := by rwa [isAligned_advanceBytes]
    obtain ⟨w', free', pieces, hmerge, hfront', haligned', hlengths, hpieces, hholds⟩ :=
      ih hlater hmoved haligned₂ hin₂ hr₂ (by omega)
    refine ⟨w', free', (r.data.drop r.bytePosition).take t.moved :: pieces, ?_, ?_, haligned', ?_,
      ?_, ?_⟩
    · simp only [merge, ← hw₁, htransfer, hmerge, hanswers, List.flatMap_cons, answers, total_cons,
        advanceBytes_add, List.append_assoc, List.singleton_append]
    · rw [hfront', hfront₂, hw₁, hfront]
    · rw [List.map_cons, List.map_cons, hlengths, List.length_take,
        length_drop_bytePosition hin hr, Nat.min_eq_left (by omega)]
    · rw [List.flatten_cons, hpieces, hrest, total_cons, List.take_add]
    · rw [merged, List.zipWith_cons_cons, List.flatten_cons, ← merged]
      rw [ownBits]
      simpa only [List.append_assoc] using hholds

/-! ### All or nothing -/

/-- The writers and readers that operations, requests and transfers lead to from new ones.  Any writer
takes bytes from any reader. -/
inductive Reached : BitWriter → BitReader → Prop where
  | start {w : BitWriter} (hw : w.IsNew) {data : List UInt8} (hdata : data.length < 2 ^ 64) :
      Reached w (BitReader.ofList data)
  | write (op : WriteOp) {w : BitWriter} {r : BitReader} (h : Reached w r) :
      Reached (op.onWriter w).2 r
  | read (op : ReadOp) {w : BitWriter} {r : BitReader} (h : Reached w r) :
      Reached w (op.onReader r).2
  | bytes (n : UInt64) {w : BitWriter} {r : BitReader} (h : Reached w r) :
      Reached w (r.readBytes n).2
  | transfer (n : Nat) {w : BitWriter} {r : BitReader} (h : Reached w r) :
      Reached (w.transferBytes r n).2.1 (w.transferBytes r n).2.2
  | pair {w w' : BitWriter} {r r' : BitReader} (h : Reached w r) (h' : Reached w' r') :
      Reached w r'

/-- A writer that is reached holds some bits, and a reader stands at one of its bits or behind
them. -/
theorem Reached.holds (h : Reached w r) :
    (∃ bits free, Holds w bits free) ∧ r.data.length < 2 ^ 64 ∧ ∃ c, StandsAt r c := by
  induction h with
  | start hw hdata => exact ⟨⟨_, hw.holds⟩, hdata, _, standsAt_ofList _⟩
  | write op h ih =>
    obtain ⟨⟨bits, free, hw⟩, hr⟩ := ih
    obtain ⟨-, free', hstep⟩ := onWriter_of_holds op hw
    exact ⟨⟨_, free', hstep⟩, hr⟩
  | read op h ih =>
    obtain ⟨hw, hdata, c, hr⟩ := ih
    obtain ⟨-, hstep, hkept⟩ := onReader_of_standsAt op hr
    exact ⟨hw, by rwa [hkept], _, hstep⟩
  | bytes n h ih =>
    obtain ⟨hw, hdata, c, hr⟩ := ih
    obtain ⟨hkept, hstep⟩ := standsAt_readBytes hdata hr n
    exact ⟨hw, by rwa [hkept], hstep⟩
  | @transfer n w r h ih =>
    obtain ⟨⟨bits, free, hw⟩, hdata, c, hr⟩ := ih
    have hlength := hr.position_add_bitsLeft
    by_cases hmoves : w.isAligned = true ∧ r.isAligned = true ∧ n ≤ r.bytesLeft
    · obtain ⟨haligned, hraligned, hn⟩ := hmoves
      obtain ⟨w', free', htransfer, -, hholds⟩ :=
        transferBytes_of_holds hw haligned (by omega) hraligned hn
      rw [bytesLeft] at hn
      rw [htransfer]
      exact ⟨⟨_, free', hholds⟩, hdata, _, hr.advance (by omega)⟩
    · obtain ⟨e, htransfer⟩ := transferBytes_refused w (by omega) hmoves
      rw [htransfer]
      exact ⟨⟨bits, free, hw⟩, hdata, c, hr⟩
  | pair h h' ih ih' => exact ⟨ih.1, ih'.2⟩

/-- **Transfers are all or nothing.**  A transfer succeeds just where both sides are at a byte
boundary and the reader has the bytes; then the bytes written are followed by the next bytes of the
reader, and the reader stands behind them.  Else both sides are unchanged.  The same holds for the
transfer of all that is left.  However that is split into transfers with writing of whole bytes
between them, they all succeed, and their pieces, put together again, are what was left. -/
theorem transferBytes_all_or_nothing (h : Reached w r) :
    let left := r.data.drop r.bytePosition
    (∀ n, if w.isAligned = true ∧ r.isAligned = true ∧ n ≤ r.bytesLeft then
        ∃ w', w.transferBytes r n = (.ok (), w', r.advanceBytes n) ∧ w'.front = w.front ∧
          w'.position = w.position + 8 * n ∧ w'.toList = w.toList ++ left.take n
      else ∃ e, w.transferBytes r n = (.error e, w, r)) ∧
    (if w.isAligned = true ∧ r.isAligned = true then
        ∃ w' r', w.transfer r = (.ok (), w', r') ∧ w'.front = w.front ∧
          w'.toList = w.toList ++ left ∧ r'.data = r.data ∧ r'.bitsLeft = 0
      else ∃ e, w.transfer r = (.error e, w, r)) ∧
    ∀ turns : List MergeTurn, w.isAligned = true → r.isAligned = true →
      (∀ t ∈ turns, t.IsWhole) → total turns = r.bytesLeft →
        ∃ w' pieces, merge turns w r = (turns.flatMap answers, w', r.advanceBytes r.bytesLeft) ∧
          w'.front = w.front ∧ pieces.map List.length = turns.map moved ∧ pieces.flatten = left ∧
          ofBytes w'.toList = ofBytes w.toList ++ merged turns pieces := by
  intro left
  obtain ⟨⟨bits, free, hw⟩, -, c, hc⟩ := h.holds
  have hin : r.position ≤ 8 * r.data.length := by
    have := hc.position_add_bitsLeft
    omega
  have hleft := fun hr => length_drop_bytePosition hin hr
  refine ⟨fun n => ?_, ?_, fun turns haligned hr hturns htotal => ?_⟩
  · split
    · rename_i hmoves
      exact toList_transferBytes hw hmoves.1 hin hmoves.2.1 hmoves.2.2
    · rename_i hstays
      exact transferBytes_refused w hin hstays
  · split
    · rename_i hmoves
      obtain ⟨w', htransfer, hfront, -, hbytes⟩ :=
        toList_transferBytes hw hmoves.1 hin hmoves.2 (Nat.le_refl r.bytesLeft)
      rw [← hleft hmoves.2, List.take_length] at hbytes
      refine ⟨w', _, htransfer, hfront, hbytes, rfl, ?_⟩
      have hend := (bitsLeft_mod_eq_zero_iff hin).2 hmoves.2
      simp only [advanceBytes, bytesLeft, bitsLeft] at hend ⊢
      omega
    · rename_i hstays
      exact transferBytes_refused w hin (by simpa using hstays)
  · obtain ⟨w', free', pieces, hmerge, hfront, haligned', hlengths, hpieces, hholds⟩ :=
      merge_of_holds hturns hw haligned hin hr (by omega)
    rw [htotal] at hmerge hpieces
    rw [← hleft hr, List.take_length] at hpieces
    refine ⟨w', pieces, hmerge, hfront, hlengths, hpieces, ?_⟩
    rw [hholds.toList_of_isAligned haligned', hw.toList_of_isAligned haligned]

/-- A byte is written, and a byte skipped, of four.  Four more are too many; the three that are left
go over behind a byte of two fields, and the last of them behind another byte. -/
theorem transferBytes_all_or_nothing_split :
    let w := (WriteOp.onWriter (.bits 171 8) (blank 0 1)).2
    let r := (ReadOp.onReader (.skipBytes 1) (BitReader.ofList [1, 2, 3, 4])).2
    let turns : List MergeTurn := [⟨[.flag true, .bits 5 7], 2⟩, ⟨[.bytes [9]], 1⟩]
    Reached w r ∧ w.isAligned = true ∧ r.isAligned = true ∧ (∀ t ∈ turns, t.IsWhole) ∧
      total turns = r.bytesLeft ∧ (∃ e, w.transferBytes r 4 = (.error e, w, r)) ∧
      ∃ w', (merge turns w r).2 = (w', r.advanceBytes 3) ∧
        w'.toList = [171, 133, 2, 3, 9, 4] := by
  intro w r turns
  have h : Reached w r := .read _ (.write _ (.start (isNew_blank (by decide)) (by decide)))
  have hw : w.isAligned = true := by decide
  have hr : r.isAligned = true := by decide
  have hturns : ∀ t ∈ turns, t.IsWhole := by
    simp only [turns, IsWhole]
    decide
  have htotal : total turns = r.bytesLeft := by decide
  obtain ⟨hsome, -, hall⟩ := transferBytes_all_or_nothing h
  have hmany := hsome 4
  rw [if_neg (by decide)] at hmany
  obtain ⟨w', pieces, hmerge, -, hlengths, hpieces, hbytes⟩ := hall turns hw hr hturns htotal
  have hthree : r.bytesLeft = 3 := by decide
  have hrest : r.data.drop r.bytePosition = [2, 3] ++ ([4] ++ []) := by decide
  -- the lengths of the pieces tell where they are cut
  obtain ⟨first, _, rfl, hfirst, htail⟩ := List.map_eq_cons_iff.1 hlengths
  obtain ⟨second, _, rfl, -, hnil⟩ := List.map_eq_cons_iff.1 htail
  obtain rfl := List.map_eq_nil_iff.1 hnil
  rw [hrest, List.flatten_cons, List.flatten_cons, List.flatten_nil] at hpieces
  obtain ⟨rfl, hsecond⟩ := List.append_inj hpieces hfirst
  obtain rfl := List.append_cancel_right hsecond
  refine ⟨h, hw, hr, hturns, htotal, hmany, w', by rw [hmerge, hthree], ?_⟩
  have hown : w.toList = [171] := by decide
  rw [hown] at hbytes
  exact ofBytes_injective (hbytes.trans (by decide))

end BitWriter
end AnnexB
