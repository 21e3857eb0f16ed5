/-
# Any requests to a reader

A request to a reader is one to a cursor in the string of its bits too (`ReadOp`), which has the
bits behind it and the bits ahead:

| request | is served where | and answered with |
| --- | --- | --- |
| a field | the type and the bits ahead have room for it | the number of its bits |
| a look at the byte | there are bits ahead | all eight bits of that byte |
| to skip bits, or whole bytes | the bits ahead suffice; bytes at a boundary only | nothing |
| to align | always | nothing |

The cursor is all that a reader shows: after any requests it has given the same answers, and its
position is the number of bits behind the cursor (`requests_refine`).  So it never passes the end,
and inside of a byte that byte is there.

A run of bytes is guarded in another way than a skip: its end is computed in 64 bits first.  Both go
well in the same cases, but where the end passes 2^64 the program faults
(`readBytes_agrees_skipBytes`).
-/

import AnnexB.Proofs.Bits.Reader
import AnnexB.Proofs.Bits.Writer
import AnnexB.Proofs.Steps

namespace AnnexB

open Bits

/-- A request to a reader. -/
inductive ReadOp where
  | bit
  | flag
  | field (type : FieldType) (n : Nat)
  | peek (n : Nat)
  | peekByte
  | skipBits (n : Nat)
  | skipBytes (n : Nat)
  | align
  deriving DecidableEq, Repr

/-- What a request that is served is answered with. -/
inductive ReadAnswer where
  | number (n : Nat)
  | flag (flag : Bool)
  | byte (byte : UInt8)
  | done
  deriving DecidableEq, Repr

/-- A place in a string of bits: those behind it, and those ahead. -/
structure BitCursor where
  behind : List Bool
  ahead : List Bool
  deriving DecidableEq, Repr

namespace BitCursor

/-- The place in front of a string. -/
def start (bits : List Bool) : BitCursor := ⟨[], bits⟩

/-- The whole string. -/
def bits (c : BitCursor) : List Bool := c.behind ++ c.ahead

/-- The place `n` bits on. -/
def advance (c : BitCursor) (n : Nat) : BitCursor := ⟨c.behind ++ c.ahead.take n, c.ahead.drop n⟩

/-- The number of the next `n` bits, if a type and the bits ahead have room for it. -/
def field (c : BitCursor) (type : FieldType) (n : Nat) : Except Error Nat :=
  if type.width < n then .error (.fieldTooWide type.readerName n type.width)
  else if c.ahead.length < n then .error .endOfData
  else .ok (number (c.ahead.take n))

/-- The bits of the byte in which the place lies. -/
def currentByte (c : BitCursor) : List Bool := (c.bits.drop (8 * (c.behind.length / 8))).take 8

/-- An answer, and the place behind it: `n` bits on where the request is served, else the same. -/
def reply (c : BitCursor) (n : Nat) (answer : Except Error ReadAnswer) :
    Except Error ReadAnswer × BitCursor :=
  match answer with
  | .ok a => (.ok a, c.advance n)
  | .error e => (.error e, c)

end BitCursor

namespace ReadOp

/-- The answer to a request, and the reader behind it. -/
def onReader (op : ReadOp) : StateM BitReader (Except Error ReadAnswer) :=
  match op with
  | bit => (ReadAnswer.number <$> BitReader.readBit).run
  | flag => (ReadAnswer.flag <$> BitReader.readFlag).run
  | field type n => (ReadAnswer.number <$> BitReader.readField type n).run
  | peek n => (ReadAnswer.number <$> BitReader.peekBits n).run
  | peekByte => (ReadAnswer.byte <$> BitReader.peekByte).run
  | skipBits n => ((fun _ => ReadAnswer.done) <$> BitReader.skipBits n).run
  | skipBytes n => ((fun _ => ReadAnswer.done) <$> BitReader.skipBytes n).run
  | align => fun r => (.ok .done, r.align)

/-- The same on a cursor in the string of the bits. -/
def onCursor (op : ReadOp) : StateM BitCursor (Except Error ReadAnswer) := fun c =>
  match op with
  | bit => c.reply 1 ((c.field .u32 1).map .number)
  | flag => c.reply 1 ((c.field .u32 1).map fun n => .flag (n != 0))
  | field type n => c.reply n ((c.field type n).map .number)
  | peek n => c.reply 0 ((c.field .u32 n).map .number)
  | peekByte =>
    c.reply 0 (if c.ahead = [] then .error .endOfData
      else .ok (.byte (UInt8.ofNat (number c.currentByte))))
  | skipBits n => c.reply n (if c.ahead.length < n then .error .endOfData else .ok .done)
  | skipBytes n =>
    c.reply (8 * n) (if c.behind.length % 8 ≠ 0 then .error (.unaligned "skip_bytes")
      else if c.ahead.length < 8 * n then .error .endOfData
      else .ok .done)
  | align => c.reply (padding c.behind.length) (.ok .done)

end ReadOp

namespace BitReader

variable {data : List UInt8} {r r' : BitReader} {c c' : BitCursor} {n : Nat}

/-- A reader stands where a cursor does, in the same string. -/
structure StandsAt (r : BitReader) (c : BitCursor) : Prop where
  bits : ofBytes r.data = c.bits
  position : r.position = c.behind.length

theorem standsAt_ofList (data : List UInt8) : StandsAt (ofList data) (.start (ofBytes data)) :=
  ⟨rfl, rfl⟩

/-- What a reader has before it lies ahead of the cursor. -/
theorem StandsAt.rest (h : StandsAt r c) : r.rest = c.ahead := by
  rw [BitReader.rest, h.bits, h.position, BitCursor.bits, List.drop_left]

theorem StandsAt.bitsLeft (h : StandsAt r c) : r.bitsLeft = c.ahead.length := by
  rw [← length_rest, h.rest]

/-- The position never passes the end. -/
theorem StandsAt.position_add_bitsLeft (h : StandsAt r c) :
    r.position + r.bitsLeft = 8 * r.data.length := by
  rw [h.bitsLeft, h.position, ← length_ofBytes, h.bits, BitCursor.bits, List.length_append]

/-- Both go on by the same number of bits. -/
theorem StandsAt.advance (h : StandsAt r c) (hn : n ≤ r.bitsLeft) :
    StandsAt { r with position := r.position + n } (c.advance n) := by
  rw [h.bitsLeft] at hn
  constructor
  · rw [BitCursor.bits, BitCursor.advance, List.append_assoc, List.take_append_drop]
    exact h.bits
  · rw [BitCursor.advance, List.length_append, List.length_take, Nat.min_eq_left hn, h.position]

/-- An answer, and the reader behind it: `n` bits on where the request is served, else the same. -/
def reply (r : BitReader) (n : Nat) (answer : Except Error ReadAnswer) :
    Except Error ReadAnswer × BitReader :=
  match answer with
  | .ok a => (.ok a, { r with position := r.position + n })
  | .error e => (.error e, r)

theorem StandsAt.reply {answer : Except Error ReadAnswer} (h : StandsAt r c)
    (hn : ∀ a, answer = .ok a → n ≤ r.bitsLeft) :
    StandsAt (r.reply n answer).2 (c.reply n answer).2 := by
  cases answer with
  | ok a => exact h.advance (hn a rfl)
  | error e => exact h

/-! ### One request -/

/-- What a read becomes when its answer is rewritten. -/
theorem run_map {α β : Type} (f : α → β) (read : Read α) (r : BitReader) :
    (f <$> read).run r = ((read r).1.map f, (read r).2) := by
  simp only [Functor.map, ExceptT.run, ExceptT.map, ExceptT.mk, bind, StateT.bind]
  rcases read r with ⟨_ | _, _⟩ <;> rfl

theorem le_bitsLeft_of_field {type : FieldType} {value : Nat} (h : StandsAt r c)
    (hfield : c.field type n = .ok value) : n ≤ r.bitsLeft := by
  unfold BitCursor.field at hfield
  rw [h.bitsLeft]
  split at hfield
  · cases hfield
  · split at hfield
    · cases hfield
    · omega

/-- **A field is the number of the next bits**, where the type and the bits ahead have room. -/
theorem readField_of_standsAt (h : StandsAt r c) (type : FieldType) (n : Nat) :
    readField type n r =
      match c.field type n with
      | .ok value => (.ok value, { r with position := r.position + n })
      | .error e => (.error e, r) := by
  unfold BitCursor.field
  by_cases hwidth : type.width < n
  · rw [readField, if_pos hwidth, if_pos hwidth]
  · rw [if_neg hwidth]
    by_cases hleft : c.ahead.length < n
    · rw [readField, if_neg hwidth, if_pos (by rwa [h.bitsLeft]), if_pos hleft]
    · rw [if_neg hleft, readField_eq (by omega) (by rw [h.bitsLeft]; omega), h.rest]

theorem map_readField_of_standsAt (h : StandsAt r c) (type : FieldType) (n : Nat)
    (f : Nat → ReadAnswer) :
    (f <$> readField type n).run r = r.reply n ((c.field type n).map f) := by
  rw [run_map, readField_of_standsAt h]
  cases c.field type n <;> rfl

/-- The byte in which a reader stands is there exactly where bits are left. -/
theorem getElem?_bytePosition_of_standsAt (h : StandsAt r c) :
    r.data[r.bytePosition]? =
      if c.ahead = [] then none else some (UInt8.ofNat (number c.currentByte)) := by
  have hlength := h.position_add_bitsLeft
  rw [h.bitsLeft] at hlength
  by_cases hahead : c.ahead = []
  · rw [hahead, List.length_nil] at hlength
    rw [if_pos hahead, List.getElem?_eq_none (by rw [bytePosition]; omega)]
  · have hpos : 0 < c.ahead.length := List.length_pos_of_ne_nil hahead
    have hbyte : r.position / 8 < r.data.length := by omega
    have hcurrent : c.currentByte = ofByte r.data[r.position / 8] := by
      rw [BitCursor.currentByte, ← h.bits, ← h.position, drop_ofBytes]
      refine (take_ofBytes (r.data.drop (r.position / 8)) 1).trans ?_
      rw [List.drop_eq_getElem_cons hbyte, List.take_succ_cons, List.take_zero, ofBytes_cons]
      exact List.append_nil _
    rw [if_neg hahead, bytePosition, List.getElem?_eq_getElem hbyte, hcurrent, ofByte,
      number_ofField, Nat.mod_eq_of_lt (UInt8.toNat_lt _), UInt8.ofNat_toNat]

theorem le_bitsLeft_of_map_field {type : FieldType} {f : Nat → ReadAnswer} {a : ReadAnswer}
    (h : StandsAt r c) (ha : (c.field type n).map f = .ok a) : n ≤ r.bitsLeft := by
  cases hfield : c.field type n with
  | ok value => exact le_bitsLeft_of_field h hfield
  | error e =>
    rw [hfield] at ha
    cases ha

theorem peek_of_standsAt (h : StandsAt r c) (n : Nat) :
    (ReadOp.peek n).onReader r = r.reply 0 ((c.field .u32 n).map .number) := by
  rw [ReadOp.onReader, run_map, peekBits, readField_of_standsAt h]
  cases c.field .u32 n <;> rfl

theorem peekByte_of_standsAt (h : StandsAt r c) :
    ReadOp.peekByte.onReader r =
      r.reply 0 (if c.ahead = [] then .error .endOfData
        else .ok (.byte (UInt8.ofNat (number c.currentByte)))) := by
  rw [ReadOp.onReader, run_map, peekByte, getElem?_bytePosition_of_standsAt h]
  by_cases hahead : c.ahead = []
  · rw [if_pos hahead, if_pos hahead]
    rfl
  · rw [if_neg hahead, if_neg hahead]
    rfl

theorem skipBits_of_standsAt (h : StandsAt r c) (n : Nat) :
    (ReadOp.skipBits n).onReader r =
      r.reply n (if c.ahead.length < n then .error .endOfData else .ok .done) := by
  rw [ReadOp.onReader, run_map, skipBits, h.bitsLeft]
  by_cases hn : c.ahead.length < n
  · rw [if_pos hn, if_pos hn]
    rfl
  · rw [if_neg hn, if_neg hn]
    rfl

/-- The guards of a skip of bytes count whole bytes, those of the cursor bits. -/
theorem skipBytes_of_standsAt (h : StandsAt r c) (n : Nat) :
    (ReadOp.skipBytes n).onReader r =
      r.reply (8 * n) (if c.behind.length % 8 ≠ 0 then .error (.unaligned "skip_bytes")
        else if c.ahead.length < 8 * n then .error .endOfData
        else .ok .done) := by
  rw [ReadOp.onReader, run_map, skipBytes, isAligned, bytesLeft, ← h.position, ← h.bitsLeft]
  by_cases haligned : r.position % 8 = 0
  · by_cases hn : r.bitsLeft < 8 * n
    · rw [haligned, if_neg (by decide), if_pos (by omega), if_neg (by simp), if_pos hn]
      rfl
    · rw [haligned, if_neg (by decide), if_neg (by omega), if_neg (by simp), if_neg hn]
      rfl
  · rw [if_pos (by simpa using haligned), if_pos haligned]
    rfl

theorem align_of_standsAt (h : StandsAt r c) :
    ReadOp.align.onReader r = r.reply (padding c.behind.length) (.ok .done) := by
  have hnext : (r.position + 7) / 8 * 8 = r.position + padding r.position := by
    rw [padding]
    omega
  rw [← h.position, reply, ← hnext]
  rfl

/-- **A request asks the same of a reader and of the cursor where it stands:** both give one answer,
and go on by the same number of bits, of which there are enough. -/
theorem exists_reply (op : ReadOp) (h : StandsAt r c) :
    ∃ n answer, op.onReader r = r.reply n answer ∧ op.onCursor c = c.reply n answer ∧
      ∀ a, answer = .ok a → n ≤ r.bitsLeft := by
  cases op with
  | bit =>
    exact ⟨1, _, map_readField_of_standsAt h .u32 1 .number, rfl,
      fun _ => le_bitsLeft_of_map_field h⟩
  | flag =>
    have hflag : readFlag = (fun n => n != 0) <$> readField .u32 1 := rfl
    refine ⟨1, _, ?_, rfl, fun _ => le_bitsLeft_of_map_field h⟩
    rw [ReadOp.onReader, hflag, ← LawfulFunctor.comp_map]
    exact map_readField_of_standsAt h .u32 1 _
  | field type n =>
    exact ⟨n, _, map_readField_of_standsAt h type n .number, rfl,
      fun _ => le_bitsLeft_of_map_field h⟩
  | peek n => exact ⟨0, _, peek_of_standsAt h n, rfl, fun _ _ => Nat.zero_le _⟩
  | peekByte => exact ⟨0, _, peekByte_of_standsAt h, rfl, fun _ _ => Nat.zero_le _⟩
  | skipBits n =>
    refine ⟨n, _, skipBits_of_standsAt h n, rfl, fun a ha => ?_⟩
    rw [h.bitsLeft]
    split at ha
    · cases ha
    · omega
  | skipBytes n =>
    refine ⟨8 * n, _, skipBytes_of_standsAt h n, rfl, fun a ha => ?_⟩
    rw [h.bitsLeft]
    split at ha
    · cases ha
    · split at ha
      · cases ha
      · omega
  | align =>
    have hlength := h.position_add_bitsLeft
    refine ⟨_, .ok .done, align_of_standsAt h, rfl, fun _ _ => ?_⟩
    rw [← h.position, padding]
    omega

@[simp] theorem data_reply (r : BitReader) (n : Nat) (answer : Except Error ReadAnswer) :
    (r.reply n answer).2.data = r.data := by
  cases answer <;> rfl

/-- A request keeps the reader where the cursor is, and reads from the same bytes. -/
theorem onReader_of_standsAt (op : ReadOp) (h : StandsAt r c) :
    (op.onReader r).1 = (op.onCursor c).1 ∧ StandsAt (op.onReader r).2 (op.onCursor c).2 ∧
      (op.onReader r).2.data = r.data := by
  obtain ⟨n, answer, hreader, hcursor, hn⟩ := exists_reply op h
  rw [hreader, hcursor]
  refine ⟨?_, h.reply hn, data_reply ..⟩
  cases answer <;> rfl

/-- A request that is not served leaves the reader where it is. -/
theorem onReader_of_error {op : ReadOp} {e : Error} (h : StandsAt r c)
    (herror : (op.onReader r).1 = .error e) : (op.onReader r).2 = r := by
  obtain ⟨n, answer, hreader, -, -⟩ := exists_reply op h
  rw [hreader] at herror ⊢
  cases answer with
  | ok a => cases herror
  | error e => rfl

/-! ### Requests in a row -/

/-- Requests in a row keep what one request keeps. -/
theorem run_of_standsAt (ops : List ReadOp) (h : StandsAt r c) :
    ((ops.mapM ReadOp.onReader).run r).1 = ((ops.mapM ReadOp.onCursor).run c).1 ∧
      StandsAt ((ops.mapM ReadOp.onReader).run r).2 ((ops.mapM ReadOp.onCursor).run c).2 ∧
      ((ops.mapM ReadOp.onReader).run r).2.data = r.data := by
  refine run_mapM_of_rel (R := fun r' c' => StandsAt r' c' ∧ r'.data = r.data) ?_ ⟨h, rfl⟩
  rintro op - r' c' ⟨hc, hdata⟩
  obtain ⟨hanswer, hstep, hkept⟩ := onReader_of_standsAt op hc
  exact ⟨hanswer, hstep, hkept.trans hdata⟩

/-- **A reader is a cursor in the string of its bits.**  After any requests it has given the answers
of the cursor, and stands where the cursor does.  So the bits read and those left are all the bits
there are, and inside of a byte that byte is there to be read.  A request that is not served leaves
the reader where it is. -/
theorem requests_refine (data : List UInt8) (ops : List ReadOp) :
    let run := (ops.mapM ReadOp.onReader).run (ofList data)
    let string := (ops.mapM ReadOp.onCursor).run (.start (ofBytes data))
    let r := run.2
    run.1 = string.1 ∧ r.data = data ∧ string.2.behind ++ string.2.ahead = ofBytes data ∧
      r.position = string.2.behind.length ∧ r.bitsLeft = string.2.ahead.length ∧
      r.position + r.bitsLeft = 8 * data.length ∧
      (r.position % 8 ≠ 0 → r.bytePosition < data.length) ∧
      ∀ (op : ReadOp) (e : Error), (op.onReader r).1 = .error e → (op.onReader r).2 = r := by
  intro run string r
  obtain ⟨hanswers, h, hdata⟩ := run_of_standsAt ops (standsAt_ofList data)
  have hbits : string.2.behind ++ string.2.ahead = ofBytes data := by
    rw [← show r.data = data from hdata]
    exact h.bits.symm
  have hlength : r.position + r.bitsLeft = 8 * data.length := by
    rw [← show r.data = data from hdata]
    exact h.position_add_bitsLeft
  refine ⟨hanswers, hdata, hbits, h.position, h.bitsLeft, hlength, fun hinside => ?_, ?_⟩
  · rw [bytePosition]
    omega
  · intro op e
    exact onReader_of_error h

/-- Three bits, a skip that is refused there, a look at the byte, and a field over its end that
leaves one bit, at which two more are too many. -/
theorem requests_refine_inside :
    let ops := [.field .u8 3, .skipBytes 1, .peekByte, .field .u16 12]
    let r := ((ops.mapM ReadOp.onReader).run (ofList [177, 85])).2
    ((ops.mapM ReadOp.onCursor).run (.start (ofBytes [177, 85]))).1 =
        [.ok (.number 5), .error (.unaligned "skip_bytes"), .ok (.byte 177), .ok (.number 2218)] ∧
      r.position % 8 ≠ 0 ∧ r.bytePosition < [177, 85].length ∧
      (ReadOp.onReader (.peek 2) r).1 = .error .endOfData ∧
      (ReadOp.onReader (.peek 2) r).2 = r := by
  intro ops r
  obtain ⟨-, -, -, hposition, hleft, -, hinside, herror⟩ := requests_refine [177, 85] ops
  have hpos : r.position = 15 := hposition.trans (by decide)
  have hmid : r.position % 8 ≠ 0 := by rw [hpos]; decide
  have hone : r.bitsLeft = 1 := hleft.trans (by decide)
  have hpeek : (ReadOp.onReader (.peek 2) r).1 = .error .endOfData := by
    have htwo : r.bitsLeft < 2 := by rw [hone]; decide
    rw [ReadOp.onReader, run_map, peekBits, readField, if_neg (by decide), if_pos htwo]
    rfl
  exact ⟨by decide, hmid, hinside hmid, hpeek, herror _ _ hpeek⟩

/-! ### A run of bytes -/

/-- The readers to which requests lead, those for runs of bytes among them. -/
inductive Reachable (data : List UInt8) : BitReader → Prop where
  | start : Reachable data (ofList data)
  | request (op : ReadOp) {r : BitReader} (h : Reachable data r) : Reachable data (op.onReader r).2
  | bytes (n : UInt64) {r : BitReader} (h : Reachable data r) : Reachable data (r.readBytes n).2

/-- How a request for bytes ends at a byte boundary.  The end of the run is wrapped round where it
does not fit into 64 bits, and then lies before the start. -/
theorem readBytes_of_isAligned (haligned : r.isAligned = true) (hdata : r.data.length < 2 ^ 64)
    (hin : r.position ≤ 8 * r.data.length) (n : UInt64) :
    r.readBytes n =
      if n.toNat ≤ r.bytesLeft then
        (.ok ((r.data.drop r.bytePosition).take n.toNat),
          { r with position := r.position + 8 * n.toNat })
      else if r.bytePosition + n.toNat < 2 ^ 64 then (.error (.error .endOfData), r)
      else (.error .fault, r) := by
  have hbyte : r.bytePosition ≤ r.data.length := by rw [bytePosition]; omega
  have hleft : r.bytePosition + r.bytesLeft = r.data.length := by
    rw [isAligned, beq_iff_eq] at haligned
    rw [bytePosition, bytesLeft, bitsLeft]
    omega
  have hstop : (UInt64.ofNat r.bytePosition + n).toNat = (r.bytePosition + n.toNat) % 2 ^ 64 := by
    rw [UInt64.toNat_add, UInt64.toNat_ofNat_of_lt' (by rw [UInt64.size]; omega)]
  have hn := n.toNat_lt
  unfold readBytes
  rw [haligned, if_neg (by decide), hstop]
  by_cases hfits : r.bytePosition + n.toNat < 2 ^ 64
  · rw [Nat.mod_eq_of_lt hfits]
    by_cases henough : n.toNat ≤ r.bytesLeft
    · rw [if_neg (by omega), if_neg (by omega), if_pos henough]
      rfl
    · rw [if_pos (by omega), if_neg henough, if_pos hfits]
  · -- less than `2 ^ 64` is lost, so what remains is below the position
    rw [if_neg (by omega), if_pos (by omega), if_neg (by omega), if_neg hfits]

/-- A request for bytes leaves a reader somewhere in the same string. -/
theorem standsAt_readBytes (hdata : r.data.length < 2 ^ 64) (h : StandsAt r c) (n : UInt64) :
    (r.readBytes n).2.data = r.data ∧ ∃ c', StandsAt (r.readBytes n).2 c' := by
  by_cases haligned : r.isAligned = true
  · have hlength := h.position_add_bitsLeft
    rw [readBytes_of_isAligned haligned hdata (by omega)]
    by_cases henough : n.toNat ≤ r.bytesLeft
    · rw [if_pos henough]
      rw [bytesLeft] at henough
      exact ⟨rfl, _, h.advance (by omega)⟩
    · rw [if_neg henough]
      split <;> exact ⟨rfl, c, h⟩
  · rw [readBytes, if_pos (by simpa using haligned)]
    exact ⟨rfl, c, h⟩

/-- Every reader that is reached stands somewhere in the string of the data's bits. -/
theorem Reachable.standsAt (hdata : data.length < 2 ^ 64) (h : Reachable data r) :
    r.data = data ∧ ∃ c, StandsAt r c := by
  induction h with
  | start => exact ⟨rfl, _, standsAt_ofList data⟩
  | request op h ih =>
    obtain ⟨hread, c, hc⟩ := ih
    obtain ⟨-, hstep, hkept⟩ := onReader_of_standsAt op hc
    exact ⟨hkept.trans hread, _, hstep⟩
  | bytes n h ih =>
    obtain ⟨hread, c, hc⟩ := ih
    obtain ⟨hkept, hstep⟩ := standsAt_readBytes (by rwa [hread]) hc n
    exact ⟨hkept.trans hread, hstep⟩

/-- **To take bytes and to skip them succeed in the same cases,** at a byte boundary that as many
bytes follow, and with the same reader behind.  Else both fail with the reader unchanged: the skip
with an error, and the run of bytes too where its end is a number of 64 bits.  Where it is not, the
program faults. -/
theorem readBytes_agrees_skipBytes (hdata : data.length < 2 ^ 64) (h : Reachable data r)
    (n : UInt64) :
    let next : BitReader := { r with position := r.position + 8 * n.toNat }
    if r.isAligned = true ∧ n.toNat ≤ r.bytesLeft then
      (∃ bytes, bytes.length = n.toNat ∧ bytes <+: data.drop r.bytePosition ∧
        r.readBytes n = (.ok bytes, next)) ∧
      skipBytes n.toNat r = (.ok (), next)
    else
      ∃ (halt : Halt) (e : Error), r.readBytes n = (.error halt, r) ∧
        skipBytes n.toNat r = (.error e, r) ∧
        (halt = .fault ↔ r.isAligned = true ∧ 2 ^ 64 ≤ r.bytePosition + n.toNat) := by
  intro next
  obtain ⟨hread, c, hc⟩ := h.standsAt hdata
  subst hread
  have hlength := hc.position_add_bitsLeft
  by_cases haligned : r.isAligned = true
  · have hbytes := readBytes_of_isAligned haligned hdata (by omega) n
    have hskip : skipBytes n.toNat r =
        if n.toNat > r.bytesLeft then (.error .endOfData, r) else (.ok (), next) := by
      rw [skipBytes, haligned, if_neg (by decide)]
    by_cases henough : n.toNat ≤ r.bytesLeft
    · rw [if_pos henough] at hbytes
      rw [if_neg (by omega)] at hskip
      rw [if_pos ⟨haligned, henough⟩]
      refine ⟨⟨_, ?_, List.take_prefix .., hbytes⟩, hskip⟩
      rw [bytesLeft, bitsLeft] at henough
      rw [List.length_take, List.length_drop, bytePosition]
      omega
    · rw [if_neg henough] at hbytes
      rw [if_pos (by omega)] at hskip
      rw [if_neg (by simp [henough])]
      by_cases hfits : r.bytePosition + n.toNat < 2 ^ 64
      · rw [if_pos hfits] at hbytes
        exact ⟨_, _, hbytes, hskip, iff_of_false (by simp) (by omega)⟩
      · rw [if_neg hfits] at hbytes
        exact ⟨_, _, hbytes, hskip, iff_of_true rfl ⟨haligned, by omega⟩⟩
  · have hmid : (!r.isAligned) = true := by simpa using haligned
    rw [if_neg (by simp [haligned])]
    refine ⟨_, _, by rw [readBytes, if_pos hmid], by rw [skipBytes, if_pos hmid], ?_⟩
    simp [haligned]

/-- One byte into two, 2^64 - 1 more are an error for a skip and a fault for a run of bytes. -/
theorem readBytes_agrees_skipBytes_past_end :
    let r : BitReader := (ReadOp.onReader (.skipBytes 1) (ofList [1, 2])).2
    Reachable [1, 2] r ∧ r.readBytes 18446744073709551615 = (.error .fault, r) ∧
      skipBytes 18446744073709551615 r = (.error .endOfData, r) := by
  intro r
  have h : Reachable [1, 2] r := .request _ .start
  have hagree := readBytes_agrees_skipBytes (by decide) h 18446744073709551615
  rw [if_neg (by decide)] at hagree
  obtain ⟨halt, e, hbytes, hskip, hfault⟩ := hagree
  have hhalt : halt = .fault := hfault.mpr (by decide)
  exact ⟨h, by rw [hbytes, hhalt], by rw [skipBytes, if_neg (by decide), if_pos (by decide)]⟩

end BitReader
end AnnexB
