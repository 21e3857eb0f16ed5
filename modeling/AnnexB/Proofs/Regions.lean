/-
# A buffer is three adjacent regions

A buffer shows a front reserve, data and a back reserve (`Regions`).  Its storage is these three, one
behind the other, and its two counts are the lengths of the reserves (`Lays`).  Every operation keeps
that, and does to the regions what its name says:

| operation | is served where | and leaves |
| --- | --- | --- |
| replace | always | the bytes as data, no reserves |
| replace with reserves | both fit into the bytes | the bytes, cut in three |
| prepend | the front reserve is as long | the front reserve shortened at its end, the data lengthened |
| extend | the back reserve is as long | its first bytes as the last of the data |
| put, fill | always | the data changed in place |

So any operations in a row are answered as they are on three separate lists (`operations_refine`), and
the reserves never overlap.  The guard of the reserves adds in 64 bits without wrapping round, which
is the exact sum for all sizes that storage can have (`reservesFit_iff`).
-/

import AnnexB.ByteBuffer
import AnnexB.Proofs.Steps

namespace AnnexB

/-- What a buffer shows: its data, and the reserves around it. -/
structure Regions where
  front : List UInt8
  data : List UInt8
  back : List UInt8
  deriving DecidableEq, Repr

namespace Regions

/-- The three regions one behind the other. -/
def bytes (s : Regions) : List UInt8 := s.front ++ s.data ++ s.back

theorem length_bytes (s : Regions) :
    s.bytes.length = s.front.length + s.data.length + s.back.length := by
  rw [bytes, List.length_append, List.length_append]

/-- Bytes cut in three, with reserves of `front` and `back` bytes. -/
def cut (bytes : List UInt8) (front back : Nat) : Regions :=
  ⟨bytes.take front, (bytes.take (bytes.length - back)).drop front, bytes.drop (bytes.length - back)⟩

end Regions

/-- An operation on a buffer.  There is none for a copy, which is the buffer itself. -/
inductive BufferOp where
  | replace (bytes : List UInt8)
  | replaceWithReserves (bytes : List UInt8) (front back : Nat)
  | prepend (bytes : List UInt8)
  | extend (n : Nat)
  | put (i : Nat) (value : UInt8)
  | fill (value : UInt8)
  deriving DecidableEq, Repr

namespace ByteBuffer

/-- The answer to an operation that can fail, and the buffer behind it. -/
def attempt (b : ByteBuffer) : Except Error ByteBuffer → Except Error Unit × ByteBuffer
  | .ok b' => (.ok (), b')
  | .error e => (.error e, b)

/-- What a buffer shows. -/
def regions (b : ByteBuffer) : Regions := ⟨b.frontReserve, b.toList, b.backReserve⟩

end ByteBuffer

namespace BufferOp

/-- The answer to an operation, and the buffer behind it. -/
def onBuffer (op : BufferOp) : StateM ByteBuffer (Except Error Unit) := fun b =>
  match op with
  | replace bytes => (.ok (), .ofList bytes)
  | replaceWithReserves bytes front back => b.attempt (ByteBuffer.ofListWithReserves bytes front back)
  | prepend bytes => b.attempt (b.prepend bytes)
  | extend n => b.attempt (b.extend n)
  | put i value => (.ok (), (b.set? i value).getD b)
  | fill value => (.ok (), b.fill value)

/-- The same on three separate lists. -/
def onRegions (op : BufferOp) : StateM Regions (Except Error Unit) := fun s =>
  match op with
  | replace bytes => (.ok (), ⟨[], bytes, []⟩)
  | replaceWithReserves bytes front back =>
    if front + back ≤ bytes.length then (.ok (), .cut bytes front back)
    else (.error (.reservesTooLarge front back bytes.length), s)
  | prepend bytes =>
    if bytes.length ≤ s.front.length then
      (.ok (), { s with front := s.front.take (s.front.length - bytes.length),
                        data := bytes ++ s.data })
    else (.error (.frontReserveTooSmall bytes.length s.front.length), s)
  | extend n =>
    if n ≤ s.back.length then
      (.ok (), { s with data := s.data ++ s.back.take n, back := s.back.drop n })
    else (.error (.backReserveTooSmall n s.back.length), s)
  | put i value => (.ok (), { s with data := s.data.set i value })
  | fill value => (.ok (), { s with data := List.replicate s.data.length value })

/-- Whether the operation gives the buffer other storage. -/
def isReplacement : BufferOp → Bool
  | replace _ | replaceWithReserves _ _ _ => true
  | _ => false

/-- Whether the bytes that are to be cut are as few as storage can have: with the reserves they have
to be compared in 64 bits. -/
def IsStorable : BufferOp → Prop
  | replaceWithReserves bytes _ _ => bytes.length < UInt64.size - 1
  | _ => True

instance (op : BufferOp) : Decidable op.IsStorable :=
  match op with
  | replaceWithReserves bytes _ _ => inferInstanceAs (Decidable (bytes.length < _))
  | replace _ | prepend _ | extend _ | put _ _ | fill _ => .isTrue trivial

end BufferOp

namespace ByteBuffer

variable {b : ByteBuffer} {s : Regions}

/-- The storage of a buffer is three regions, one behind the other. -/
structure Lays (b : ByteBuffer) (s : Regions) : Prop where
  storage : b.storage = s.bytes
  front : b.front = s.front.length
  back : b.back = s.back.length

theorem Lays.size (h : Lays b s) : b.size = s.data.length := by
  rw [ByteBuffer.size, h.storage, h.front, h.back, Regions.length_bytes]
  omega

/-- **The reserves do not overlap.** -/
theorem Lays.storageSize (h : Lays b s) : b.storageSize = b.front + b.size + b.back := by
  rw [ByteBuffer.storageSize, h.storage, h.front, h.size, h.back, Regions.length_bytes]

theorem Lays.frontReserve (h : Lays b s) : b.frontReserve = s.front := by
  rw [ByteBuffer.frontReserve, h.storage, h.front, Regions.bytes, List.append_assoc,
    List.take_left]

theorem Lays.toList (h : Lays b s) : b.toList = s.data := by
  rw [ByteBuffer.toList, h.size, h.storage, h.front, Regions.bytes, List.append_assoc,
    List.drop_left, List.take_left]

theorem Lays.backReserve (h : Lays b s) : b.backReserve = s.back := by
  have hlength : b.storage.length - b.back = (s.front ++ s.data).length := by
    rw [h.storage, h.back, Regions.bytes, List.length_append, Nat.add_sub_cancel]
  rw [ByteBuffer.backReserve, hlength, h.storage, Regions.bytes, List.drop_left]

/-- Positions count from the start of the data. -/
theorem Lays.get? (h : Lays b s) (i : Nat) : b.get? i = s.data[i]? := by
  rw [ByteBuffer.get?, h.size]
  by_cases hi : i < s.data.length
  · rw [if_pos hi, h.storage, h.front, Regions.bytes, List.append_assoc,
      List.getElem?_append_right (by omega), Nat.add_sub_cancel_left,
      List.getElem?_append_left hi]
  · rw [if_neg hi, List.getElem?_eq_none (by omega)]

/-- **A buffer shows the regions that it has.** -/
theorem Lays.regions (h : Lays b s) : b.regions = s := by
  rw [ByteBuffer.regions, h.frontReserve, h.toList, h.backReserve]

/-! ### Buffers that are made -/

theorem lays_ofList (bytes : List UInt8) : Lays (ofList bytes) ⟨[], bytes, []⟩ :=
  ⟨(List.append_nil bytes).symm, rfl, rfl⟩

/-- Bytes in storage, and counts of reserves that they have room for. -/
theorem lays_cut {bytes : List UInt8} {front back : Nat} (hfit : front + back ≤ bytes.length) :
    Lays ⟨bytes, front, back⟩ (.cut bytes front back) := by
  refine ⟨?_, ?_, ?_⟩
  · have htake : bytes.take front = (bytes.take (bytes.length - back)).take front := by
      rw [List.take_take, Nat.min_eq_left (by omega)]
    rw [Regions.bytes, Regions.cut, htake, List.take_append_drop, List.take_append_drop]
  · rw [Regions.cut, List.length_take, Nat.min_eq_left (by omega)]
  · have hback : bytes.length - (bytes.length - back) = back := by omega
    rw [Regions.cut, List.length_drop, hback]

theorem lays_ofListWithFront (bytes : List UInt8) (front : Nat) :
    Lays (ofListWithFront bytes front) (.cut bytes (min front bytes.length) 0) :=
  lays_cut (by omega)

/-- **The guard of the reserves is exact** for every size but the largest number of 64 bits, at which
the sum stays.  No storage has so many bytes. -/
theorem reservesFit_iff {front back size : Nat} (hsize : size < UInt64.size - 1) :
    reservesFit front back size = true ↔ front + back ≤ size := by
  rw [reservesFit, decide_eq_true_iff]
  omega

theorem ofListWithReserves_eq {bytes : List UInt8} (hsize : bytes.length < UInt64.size - 1)
    (front back : Nat) :
    ofListWithReserves bytes front back =
      if front + back ≤ bytes.length then .ok ⟨bytes, front, back⟩
      else .error (.reservesTooLarge front back bytes.length) := by
  simp only [ofListWithReserves, reservesFit_iff hsize]

/-! ### One operation -/

/-- Bytes in front of the data take the place of the last ones of the front reserve. -/
theorem Lays.prepend (h : Lays b s) {bytes : List UInt8} (hfit : bytes.length ≤ s.front.length) :
    ∃ b', b.prepend bytes = .ok b' ∧
      Lays b' { s with front := s.front.take (s.front.length - bytes.length),
                       data := bytes ++ s.data } := by
  have hprepend : b.prepend bytes =
      .ok { b with storage := b.storage.take (b.front - bytes.length) ++ bytes ++
                     b.storage.drop b.front,
                   front := b.front - bytes.length } := by
    rw [ByteBuffer.prepend, if_neg (by rw [h.front]; omega)]
  refine ⟨_, hprepend, ?_, ?_, h.back⟩
  · simp only [h.storage, h.front, Regions.bytes, List.append_assoc]
    rw [List.take_append_of_le_length (Nat.sub_le ..), List.drop_left]
  · rw [List.length_take, Nat.min_eq_left (Nat.sub_le ..), h.front]

/-- Bytes that fit in the front reserve come in front of the data. -/
theorem toList_prepend {bytes : List UInt8} (hfit : bytes.length ≤ b.front)
    (hreserves : b.front + b.back ≤ b.storage.length) :
    ∃ b', b.prepend bytes = .ok b' ∧ b'.toList = bytes ++ b.toList := by
  have h : Lays b (.cut b.storage b.front b.back) := lays_cut hreserves
  have hfit' : bytes.length ≤ (Regions.cut b.storage b.front b.back).front.length := by
    rwa [← h.front]
  obtain ⟨b', hprepend, h'⟩ := h.prepend hfit'
  exact ⟨b', hprepend, by rw [h'.toList, h.toList]⟩

/-- The first bytes of the back reserve become the last ones of the data. -/
theorem Lays.extend (h : Lays b s) {n : Nat} (hn : n ≤ s.back.length) :
    ∃ b', b.extend n = .ok b' ∧
      Lays b' { s with data := s.data ++ s.back.take n, back := s.back.drop n } := by
  have hextend : b.extend n = .ok { b with back := b.back - n } := by
    rw [ByteBuffer.extend, if_neg (by rw [h.back]; omega)]
  refine ⟨_, hextend, ?_, h.front, ?_⟩
  · simp only [h.storage, Regions.bytes, List.append_assoc, List.take_append_drop]
  · rw [List.length_drop, h.back]

/-- A byte of the data is replaced where it stands; behind the data nothing is. -/
theorem Lays.put (h : Lays b s) (i : Nat) (value : UInt8) :
    Lays ((b.set? i value).getD b) { s with data := s.data.set i value } := by
  rw [set?, h.size]
  by_cases hi : i < s.data.length
  · rw [if_pos hi, Option.getD_some]
    refine ⟨?_, h.front, h.back⟩
    have hinside : i < (s.data ++ s.back).length := by
      rw [List.length_append]
      omega
    simp only [h.storage, h.front, Regions.bytes, List.append_assoc]
    rw [List.set_append_right _ _ (by omega), Nat.add_sub_cancel_left,
      List.set_append_left _ _ hi]
  · rw [if_neg hi, Option.getD_none, List.set_eq_of_length_le (by omega)]
    exact h

theorem Lays.fill (h : Lays b s) (value : UInt8) :
    Lays (b.fill value) { s with data := List.replicate s.data.length value } := by
  refine ⟨?_, h.front, h.back⟩
  rw [ByteBuffer.fill, h.frontReserve, h.size, h.backReserve, Regions.bytes]

/-- **An operation does to a buffer what it does to its regions.** -/
theorem onBuffer_of_lays (op : BufferOp) (hop : op.IsStorable) (h : Lays b s) :
    (op.onBuffer b).1 = (op.onRegions s).1 ∧ Lays (op.onBuffer b).2 (op.onRegions s).2 := by
  cases op with
  | replace bytes => exact ⟨rfl, lays_ofList bytes⟩
  | replaceWithReserves bytes front back =>
    rw [BufferOp.onBuffer, BufferOp.onRegions, ofListWithReserves_eq hop]
    by_cases hfit : front + back ≤ bytes.length
    · rw [if_pos hfit, if_pos hfit]
      exact ⟨rfl, lays_cut hfit⟩
    · rw [if_neg hfit, if_neg hfit]
      exact ⟨rfl, h⟩
  | prepend bytes =>
    rw [BufferOp.onBuffer, BufferOp.onRegions]
    by_cases hfit : bytes.length ≤ s.front.length
    · obtain ⟨b', hprepend, h'⟩ := h.prepend hfit
      rw [if_pos hfit, hprepend]
      exact ⟨rfl, h'⟩
    · rw [if_neg hfit, ByteBuffer.prepend, h.front, if_pos (by omega)]
      exact ⟨rfl, h⟩
  | extend n =>
    rw [BufferOp.onBuffer, BufferOp.onRegions]
    by_cases hn : n ≤ s.back.length
    · obtain ⟨b', hextend, h'⟩ := h.extend hn
      rw [if_pos hn, hextend]
      exact ⟨rfl, h'⟩
    · rw [if_neg hn, ByteBuffer.extend, h.back, if_pos (by omega)]
      exact ⟨rfl, h⟩
  | put i value => exact ⟨rfl, h.put i value⟩
  | fill value => exact ⟨rfl, h.fill value⟩

/-- An operation that gives a buffer no other storage keeps the number of bytes in it. -/
theorem length_bytes_onRegions {op : BufferOp} (hop : op.isReplacement = false) (s : Regions) :
    (op.onRegions s).2.bytes.length = s.bytes.length := by
  cases op with
  | replace bytes => cases hop
  | replaceWithReserves bytes front back => cases hop
  | prepend bytes =>
    rw [BufferOp.onRegions]
    split
    · simp only [Regions.length_bytes, List.length_append, List.length_take]
      omega
    · rfl
  | extend n =>
    rw [BufferOp.onRegions]
    split
    · simp only [Regions.length_bytes, List.length_append, List.length_take, List.length_drop]
      omega
    · rfl
  | put i value => simp only [BufferOp.onRegions, Regions.length_bytes, List.length_set]
  | fill value => simp only [BufferOp.onRegions, Regions.length_bytes, List.length_replicate]

theorem storageSize_onBuffer (h : Lays b s) {op : BufferOp} (hop : op.isReplacement = false) :
    (op.onBuffer b).2.storageSize = b.storageSize := by
  have hstorable : op.IsStorable := by
    cases op with
    | replaceWithReserves bytes front back => cases hop
    | _ => trivial
  obtain ⟨-, hstep⟩ := onBuffer_of_lays op hstorable h
  rw [storageSize, storageSize, hstep.storage, h.storage, length_bytes_onRegions hop]

theorem onBuffer_of_error {op : BufferOp} {e : Error} (herror : (op.onBuffer b).1 = .error e) :
    (op.onBuffer b).2 = b := by
  have hattempt : ∀ {r : Except Error ByteBuffer},
      (b.attempt r).1 = .error e → (b.attempt r).2 = b := by
    rintro (_ | _) h
    · rfl
    · cases h
  cases op with
  | replaceWithReserves bytes front back => exact hattempt herror
  | prepend bytes => exact hattempt herror
  | extend n => exact hattempt herror
  | _ => cases herror

/-! ### Operations in a row -/

/-- The buffers that operations begin with. -/
inductive Made : ByteBuffer → Prop where
  | empty : Made empty
  | zeros (size : Nat) : Made (zeros size)
  | ofList (bytes : List UInt8) : Made (ofList bytes)
  | ofListWithFront (bytes : List UInt8) (front : Nat) : Made (ofListWithFront bytes front)
  | withReserves {size front back : Nat} {b : ByteBuffer} (hsize : size < UInt64.size - 1)
      (h : withReserves size front back = .ok b) : Made b

/-- Zeros with reserves cut out of them are had just where the reserves fit. -/
theorem withReserves_eq {size : Nat} (hsize : size < UInt64.size - 1) (front back : Nat) :
    withReserves size front back =
      if front + back ≤ size then .ok ⟨List.replicate size 0, front, back⟩
      else .error (.reservesTooLarge front back size) := by
  have hlength : (List.replicate size (0 : UInt8)).length = size := List.length_replicate
  rw [withReserves, ofListWithReserves_eq (by rwa [hlength]), hlength]

theorem Made.lays (h : Made b) : ∃ s, Lays b s := by
  cases h with
  | empty => exact ⟨_, lays_ofList []⟩
  | zeros size => exact ⟨_, lays_ofList _⟩
  | ofList bytes => exact ⟨_, lays_ofList bytes⟩
  | ofListWithFront bytes front => exact ⟨_, lays_ofListWithFront bytes front⟩
  | @withReserves size front back _ hsize h =>
    rw [withReserves_eq hsize] at h
    split at h
    · rename_i hfit
      obtain rfl := Except.ok.inj h
      exact ⟨_, lays_cut (by rwa [List.length_replicate])⟩
    · cases h

/-- **A buffer is three adjacent regions.**  Whatever it is made of, after any operations it has given
the answers of three separate lists, and shows these lists; its storage is the three of them, one
behind the other.  So the reserves never overlap, and the size of the data is what they leave.  Only
the operations that give it other storage change how much of that there is, and one that fails leaves
everything as it is.  A buffer with reserves is had just where they fit. -/
theorem operations_refine (hb : Made b) {ops : List BufferOp} (hops : ∀ op ∈ ops, op.IsStorable) :
    let run := (ops.mapM BufferOp.onBuffer).run b
    let lists := (ops.mapM BufferOp.onRegions).run b.regions
    let b' := run.2
    let s := lists.2
    run.1 = lists.1 ∧ b'.regions = s ∧ b'.storage = s.front ++ s.data ++ s.back ∧
      b'.front = s.front.length ∧ b'.back = s.back.length ∧ b'.size = s.data.length ∧
      b'.front + b'.back ≤ b'.storageSize ∧ (∀ i, b'.get? i = s.data[i]?) ∧
      (∀ op : BufferOp, op.isReplacement = false →
        (op.onBuffer b').2.storageSize = b'.storageSize) ∧
      (∀ (op : BufferOp) (e : Error), (op.onBuffer b').1 = .error e → (op.onBuffer b').2 = b') ∧
      ∀ size front back, size < UInt64.size - 1 →
        ((∃ made, withReserves size front back = .ok made) ↔ front + back ≤ size) := by
  intro run lists b' s
  obtain ⟨s₀, hmade⟩ := hb.lays
  obtain ⟨hanswers, h⟩ := run_mapM_of_rel (fun op hop _ _ => onBuffer_of_lays op (hops op hop)) hmade
  rw [← hmade.regions] at hanswers h
  refine ⟨hanswers, h.regions, h.storage, h.front, h.back, h.size, ?_, h.get?, ?_, ?_, ?_⟩
  · have hsize : b'.storageSize = b'.front + b'.size + b'.back := h.storageSize
    omega
  · intro op hop
    exact storageSize_onBuffer h hop
  · intro op e
    exact onBuffer_of_error
  · intro size front back hsize
    rw [withReserves_eq hsize]
    split
    · rename_i hfit
      exact iff_of_true ⟨_, rfl⟩ hfit
    · rename_i hlarge
      exact iff_of_false (by rintro ⟨made, h⟩; cases h) hlarge

/-- Six zeros, two in reserve at either end: two bytes fit in front of the data, a third does not;
one is taken over behind it, and written.  Reserves whose sum does not fit into 64 bits are refused. -/
theorem operations_refine_around :
    let made : ByteBuffer := ⟨[0, 0, 0, 0, 0, 0], 2, 2⟩
    let ops : List BufferOp := [.prepend [8, 9], .prepend [7], .extend 1, .put 4 5,
      .replaceWithReserves [1, 2, 3] 18446744073709551615 1]
    let run := (ops.mapM BufferOp.onBuffer).run made
    6 < UInt64.size - 1 ∧ withReserves 6 2 2 = .ok made ∧ (∀ op ∈ ops, op.IsStorable) ∧
      run.1 = [.ok (), .error (.frontReserveTooSmall 1 0), .ok (), .ok (),
        .error (.reservesTooLarge 18446744073709551615 1 3)] ∧
      run.2.regions = ⟨[], [8, 9, 0, 0, 5], [0]⟩ ∧
      (BufferOp.extend 1).isReplacement = false ∧
      ((BufferOp.extend 1).onBuffer run.2).2.storageSize = run.2.storageSize := by
  intro made ops run
  have hsize : 6 < UInt64.size - 1 := by decide
  have hmade : withReserves 6 2 2 = .ok made := rfl
  have hops : ∀ op ∈ ops, op.IsStorable := by decide
  obtain ⟨hanswers, hregions, -, -, -, -, -, -, hkept, -, -⟩ :=
    operations_refine (.withReserves hsize hmade) hops
  exact ⟨hsize, hmade, hops, hanswers.trans rfl, hregions.trans rfl, rfl, hkept _ rfl⟩

end ByteBuffer
end AnnexB
