/-
# An extension header is its bits

`Takes read n value` says that a read takes the next `n` bits, and nothing else, for a value that
hangs on those bits alone, and that it reports the end of the data wherever there are less.  It holds
of a field (`takes_readField`), and of two reads in a row if it holds of both (`Takes.bind`).  So it
holds of the header, read field by field, and an end that falls into any field is an end of the data
(`takes_read`).

| bits | field | written as |
| ---: | --- | --- |
| 0 | `idr` | flag |
| 1 to 6 | `priorityId` | field of 6 |
| 7 | `noInterLayerPrediction` | flag |
| 8 to 10, 11 to 14, 15 to 17 | `dependencyId`, `qualityId`, `temporalId` | fields of 3, 4, 3 |
| 18, 19, 20 | `useRefBasePicture`, `discardable`, `output` | flags |
| 21, 22 | `reserved` | field of 2 |

The header of 23 bits and the 23 bits of a header whose numbers fit their fields are inverse to each
other (`bits_ofBits`, `ofBits_bits`).  The writer puts the same bits behind a set flag
(`ofBytes_extensionBytes`), so that what is parsed is what would be written.
-/

import AnnexB.AccessUnit.Layers
import AnnexB.Proofs.Bits.Operations
import AnnexB.Proofs.Bits.Reader

namespace AnnexB

/-! ### Strings cut at a bit -/

namespace Bits

variable {bits : List Bool} {k : Nat}

/-- The bits from `k` on are a field and the bits behind it. -/
theorem ofField_append_drop {n : Nat} (h : k + n ≤ bits.length) :
    ofField (number ((bits.drop k).take n)) n ++ bits.drop (k + n) = bits.drop k := by
  have hlength : ((bits.drop k).take n).length = n := by
    rw [List.length_take, List.length_drop]
    omega
  have hfield := ofField_number ((bits.drop k).take n)
  rw [hlength] at hfield
  rw [hfield, ← List.drop_drop, List.take_append_drop]

/-- The bits from `k` on are a flag and the bits behind it. -/
theorem flag_cons_drop (h : k < bits.length) :
    (number ((bits.drop k).take 1) != 0) :: bits.drop (k + 1) = bits.drop k := by
  rw [List.drop_eq_getElem_cons h]
  cases bits[k] <;> rfl

end Bits

open Bits

/-! ### Reads of a fixed number of bits -/

namespace BitReader

variable {α β : Type} {r : BitReader}

theorem bind_of_error {read : Read α} {e : Error} (h : (read r).1 = .error e)
    (next : α → Read β) : ((read >>= next) r).1 = .error e := by
  rcases hr : read r with ⟨_ | _, r'⟩
  · rw [hr] at h
    simp only [bind, ExceptT.bind, ExceptT.mk, StateT.bind, hr, ExceptT.bindCont]
    exact congrArg Except.error (Except.error.inj h)
  · rw [hr] at h
    cases h

/-- A read of the next `n` bits, all of them or none, for a value that they alone decide. -/
structure Takes (read : Read α) (n : Nat) (value : List Bool → α) : Prop where
  served (r : BitReader) (h : n ≤ r.bitsLeft) :
    read r = (.ok (value (r.rest.take n)), { r with position := r.position + n })
  short (r : BitReader) (h : r.bitsLeft < n) : (read r).1 = .error .endOfData

theorem takes_pure (a : α) : Takes (pure a) 0 fun _ => a :=
  ⟨fun _ _ => rfl, fun _ h => absurd h (Nat.not_lt_zero _)⟩

theorem takes_readField {type : FieldType} {n : Nat} (hwidth : n ≤ type.width) :
    Takes (readField type n) n number where
  served _ h := readField_eq hwidth h
  short r h := by rw [readField, if_neg (by omega), if_pos h]

theorem takes_readFlag : Takes readFlag 1 fun bits => number bits != 0 where
  served r h := bind_of_ok (readField_eq (by decide) h) _
  short r h := bind_of_error ((takes_readField (by decide)).short r h) _

/-- **Two reads in a row take the bits of both.** -/
theorem Takes.bind {read : Read α} {next : α → Read β} {m n : Nat} {value : List Bool → α}
    {value' : α → List Bool → β} (hread : Takes read m value)
    (hnext : ∀ a, Takes (next a) n (value' a)) :
    Takes (read >>= next) (m + n) fun bits =>
      value' (value (bits.take m)) (bits.drop m) where
  served r h := by
    have hbehind : n ≤ bitsLeft { r with position := r.position + m } := by
      rw [bitsLeft_advance]
      omega
    have hnext := (hnext (value (r.rest.take m))).served _ hbehind
    rw [bind_of_ok (hread.served r (by omega)), hnext, rest_advance, List.take_take,
      Nat.min_eq_left (Nat.le_add_right m n), List.drop_take, Nat.add_sub_cancel_left,
      Nat.add_assoc]
  short r h := by
    rcases Nat.lt_or_ge r.bitsLeft m with hfirst | hfirst
    · exact bind_of_error (hread.short r hfirst) _
    · rw [bind_of_ok (hread.served r hfirst)]
      refine (hnext _).short _ ?_
      rw [bitsLeft_advance]
      omega

/-- The answer to such a read, by the bits that are left. -/
theorem Takes.answer {read : Read α} {n : Nat} {value : List Bool → α} {bits : List Bool}
    (h : Takes read n value) (hrest : r.rest = bits) :
    (read r).1 = if bits.length < n then .error .endOfData else .ok (value (bits.take n)) := by
  have hleft := length_rest r
  rw [hrest] at hleft
  split
  · rename_i hshort
    exact h.short r (by omega)
  · rename_i hlong
    rw [h.served r (by omega), hrest]

/-- A reader with a flag before it reads the flag, and has before it what follows. -/
theorem readFlag_of_rest {flag : Bool} {behind : List Bool} (h : r.rest = flag :: behind) :
    readFlag r = (.ok flag, { r with position := r.position + 1 }) ∧
      rest { r with position := r.position + 1 } = behind := by
  have hleft := length_rest r
  rw [h, List.length_cons] at hleft
  have hvalue : (number ((flag :: behind).take 1) != 0) = flag := by
    rw [List.take_succ_cons, List.take_zero]
    cases flag <;> rfl
  constructor
  · rw [takes_readFlag.served r (by omega), h, hvalue]
  · rw [rest_advance, h, List.drop_one, List.tail_cons]

end BitReader

/-! ### The bits of a header -/

namespace SvcHeader

open BitReader

variable {h : SvcHeader} {w : BitWriter} {string : List Bool}

/-- The numbers of a header fit their fields. -/
structure InRange (h : SvcHeader) : Prop where
  priorityId : h.priorityId < 2 ^ 6
  dependencyId : h.dependencyId < 2 ^ 3
  qualityId : h.qualityId < 2 ^ 4
  temporalId : h.temporalId < 2 ^ 3
  reserved : h.reserved < 2 ^ 2

/-- The bits of a header, behind the extension flag. -/
def bits (h : SvcHeader) : List Bool :=
  h.idr :: (ofField h.priorityId 6 ++ h.noInterLayerPrediction :: (ofField h.dependencyId 3 ++
    (ofField h.qualityId 4 ++ (ofField h.temporalId 3 ++
      h.useRefBasePicture :: h.discardable :: h.output :: ofField h.reserved 2))))

theorem length_bits (h : SvcHeader) : h.bits.length = 23 := rfl

/-- The header that some bits, the first 23 of them, stand for. -/
def ofBits (string : List Bool) : SvcHeader where
  idr := number ((string.drop 0).take 1) != 0
  priorityId := number ((string.drop 1).take 6)
  noInterLayerPrediction := number ((string.drop 7).take 1) != 0
  dependencyId := number ((string.drop 8).take 3)
  qualityId := number ((string.drop 11).take 4)
  temporalId := number ((string.drop 15).take 3)
  useRefBasePicture := number ((string.drop 18).take 1) != 0
  discardable := number ((string.drop 19).take 1) != 0
  output := number ((string.drop 20).take 1) != 0
  reserved := number ((string.drop 21).take 2)

theorem inRange_ofBits (string : List Bool) : (ofBits string).InRange where
  priorityId := number_take_lt _ 6
  dependencyId := number_take_lt _ 3
  qualityId := number_take_lt _ 4
  temporalId := number_take_lt _ 3
  reserved := number_take_lt _ 2

/-- No bit is lost: the fields are cut off one behind the other. -/
theorem bits_ofBits (hlength : string.length = 23) : (ofBits string).bits = string := by
  have hend : string.drop 23 = [] := List.drop_eq_nil_of_le (by omega)
  have hreserved := @ofField_append_drop string 21 2 (by omega)
  rw [hend, List.append_nil] at hreserved
  rw [SvcHeader.bits, ofBits]
  simp only
  rw [hreserved, @flag_cons_drop string 20 (by omega), @flag_cons_drop string 19 (by omega),
    @flag_cons_drop string 18 (by omega), @ofField_append_drop string 15 3 (by omega),
    @ofField_append_drop string 11 4 (by omega), @ofField_append_drop string 8 3 (by omega),
    @flag_cons_drop string 7 (by omega), @ofField_append_drop string 1 6 (by omega),
    @flag_cons_drop string 0 (by omega), List.drop_zero]

/-- No field is lost: a number that fits its field is that of its bits. -/
theorem ofBits_bits (hrange : h.InRange) : ofBits h.bits = h := by
  have hfield : ∀ {value n : Nat}, value < 2 ^ n → number (ofField value n) = value :=
    fun hvalue => (number_ofField ..).trans (Nat.mod_eq_of_lt hvalue)
  have hflag : ∀ flag : Bool, (number [flag] != 0) = flag := by decide
  have hpriority : number ((h.bits.drop 1).take 6) = h.priorityId := hfield hrange.priorityId
  have hdependency : number ((h.bits.drop 8).take 3) = h.dependencyId := hfield hrange.dependencyId
  have hquality : number ((h.bits.drop 11).take 4) = h.qualityId := hfield hrange.qualityId
  have htemporal : number ((h.bits.drop 15).take 3) = h.temporalId := hfield hrange.temporalId
  have hreserved : number ((h.bits.drop 21).take 2) = h.reserved := hfield hrange.reserved
  have hidr : (number ((h.bits.drop 0).take 1) != 0) = h.idr := hflag _
  have hinter : (number ((h.bits.drop 7).take 1) != 0) = h.noInterLayerPrediction := hflag _
  have href : (number ((h.bits.drop 18).take 1) != 0) = h.useRefBasePicture := hflag _
  have hdiscardable : (number ((h.bits.drop 19).take 1) != 0) = h.discardable := hflag _
  have houtput : (number ((h.bits.drop 20).take 1) != 0) = h.output := hflag _
  rw [ofBits, hpriority, hdependency, hquality, htemporal, hreserved, hidr, hinter, href,
    hdiscardable, houtput]

/-! ### Reading and writing -/

/-- **The header is read as its 23 bits**, and an end in any of its fields ends the data. -/
theorem takes_read : Takes read 23 ofBits := by
  have hfield : ∀ {n : Nat}, n ≤ 8 → Takes (readField .u8 n) n number :=
    fun hwidth => takes_readField hwidth
  have hread := takes_readFlag.bind fun idr =>
    (hfield (n := 6) (by decide)).bind fun priorityId =>
    takes_readFlag.bind fun noInterLayerPrediction =>
    (hfield (n := 3) (by decide)).bind fun dependencyId =>
    (hfield (n := 4) (by decide)).bind fun qualityId =>
    (hfield (n := 3) (by decide)).bind fun temporalId =>
    takes_readFlag.bind fun useRefBasePicture =>
    takes_readFlag.bind fun discardable =>
    takes_readFlag.bind fun output =>
    (hfield (n := 2) (by decide)).bind fun reserved =>
    takes_pure (SvcHeader.mk idr priorityId noInterLayerPrediction dependencyId qualityId
      temporalId useRefBasePicture discardable output reserved)
  simp only [List.drop_drop] at hread
  exact hread

/-- Behind the header byte, the extension flag decides whether a header is read. -/
theorem readExtension_cons (first : UInt8) (tail : List UInt8) :
    (readExtension (BitReader.ofList (first :: tail))).1 =
      match ofBytes tail with
      | [] => .error .endOfData
      | false :: _ => .ok none
      | true :: behind =>
        if behind.length < 23 then .error .endOfData else .ok (some (ofBits (behind.take 23))) := by
  have hskip : skipBits 8 (BitReader.ofList (first :: tail)) = (.ok (), ⟨first :: tail, 8⟩) := by
    have hbyte : ¬ 8 > 8 * (first :: tail).length - 0 := by
      rw [List.length_cons]
      omega
    exact if_neg hbyte
  have hrest : rest ⟨first :: tail, 8⟩ = ofBytes tail := drop_ofBytes (first :: tail) 1
  rw [readExtension, bind_of_ok hskip]
  rcases hbits : ofBytes tail with _ | ⟨flag, behind⟩
  · exact bind_of_error (takes_readFlag.answer (hrest.trans hbits)) _
  · obtain ⟨hflag, hbehind⟩ := readFlag_of_rest (hrest.trans hbits)
    rw [bind_of_ok hflag]
    cases flag with
    | false => rfl
    | true =>
      have hread := (takes_read.bind fun h => takes_pure (some h)).answer hbehind
      simp only [Nat.add_zero, List.take_take, Nat.min_self] at hread
      exact hread

/-- The operations that write the extension flag and the fields behind it, in their order. -/
def writes (h : SvcHeader) : List WriteOp :=
  [.flag true, .flag h.idr, .bits h.priorityId 6, .flag h.noInterLayerPrediction,
    .bits h.dependencyId 3, .bits h.qualityId 4, .bits h.temporalId 3, .flag h.useRefBasePicture,
    .flag h.discardable, .flag h.output, .bits h.reserved 2]

/-- The finished buffer of a writer to which the flag and the header are written. -/
def extensionBytes (h : SvcHeader) (w : BitWriter) : List UInt8 :=
  (perform WriteOp.onWriter h.writes w).2.toBuffer.toList

theorem ofBytes_extensionBytes (h : SvcHeader) (hw : w.IsNew) :
    ofBytes (h.extensionBytes w) = true :: h.bits := by
  obtain ⟨_, hnew⟩ := hw.holds
  obtain ⟨-, -, free, hholds⟩ := BitWriter.perform_of_holds h.writes hnew
  have hstring : (perform WriteOp.onBits h.writes []).2 = true :: h.bits := rfl
  have hpadding : padding (true :: h.bits).length = 0 := by
    rw [List.length_cons, length_bits]
    rfl
  rw [extensionBytes, hholds.toBuffer.2, hholds.toList, hstring, fillUp, hpadding]
  exact List.append_nil _

/-! ### Parsing -/

/-- The low five bits of the first byte say whether an extension header may follow. -/
theorem extended_iff (first : UInt8) :
    (AvcNalType.ofHeaderByte first = .prefixNal ∨
        AvcNalType.ofHeaderByte first = .sliceExtension) ↔ first.toNat % 32 ∈ [14, 20] := by
  have hid : (first &&& 0x1F).toNat = first.toNat % 32 := by
    rw [UInt8.toNat_and]
    exact Nat.and_two_pow_sub_one_eq_mod _ 5
  rw [AvcNalType.ofHeaderByte, AvcNalType.ofId, hid]
  split <;> simp_all

theorem ofNal_of_extended {first : UInt8} (hextended : first.toNat % 32 ∈ [14, 20])
    (tail : List UInt8) :
    ofNal (first :: tail) = (readExtension (BitReader.ofList (first :: tail))).1 := by
  rcases (extended_iff first).2 hextended with htype | htype <;> rw [ofNal, htype]

theorem ofNal_of_not_extended {first : UInt8} (hother : first.toNat % 32 ∉ [14, 20])
    (tail : List UInt8) : ofNal (first :: tail) = .ok none := by
  rw [← extended_iff, not_or] at hother
  rw [ofNal]
  split
  · rename_i htype
    exact absurd htype hother.1
  · rename_i htype
    exact absurd htype hother.2
  · rfl

/-- What is written is parsed, whatever follows. -/
theorem ofNal_extensionBytes {first : UInt8} (hextended : first.toNat % 32 ∈ [14, 20])
    (hrange : h.InRange) (hw : w.IsNew) (trailing : List UInt8) :
    ofNal (first :: (h.extensionBytes w ++ trailing)) = .ok (some h) := by
  have hlength : ¬ (h.bits ++ ofBytes trailing).length < 23 := by
    rw [List.length_append, length_bits]
    omega
  rw [ofNal_of_extended hextended, readExtension_cons, ofBytes_append, ofBytes_extensionBytes h hw]
  simp only [List.cons_append]
  rw [if_neg hlength, List.take_left' h.length_bits, ofBits_bits hrange]

/-- What is parsed is written, where there are three bytes of it. -/
theorem exists_ofNal {first : UInt8} {extension : List UInt8} {behind : List Bool}
    (hextended : first.toNat % 32 ∈ [14, 20]) (hlength : extension.length = 3)
    (hbits : ofBytes extension = true :: behind) (trailing : List UInt8) :
    ∃ h : SvcHeader, h.InRange ∧ ofNal (first :: (extension ++ trailing)) = .ok (some h) ∧
      ∀ w : BitWriter, w.IsNew → h.extensionBytes w = extension := by
  have hbehind : behind.length = 23 := by
    have := congrArg List.length hbits
    rw [length_ofBytes, hlength, List.length_cons] at this
    omega
  have hwritten : ∀ w : BitWriter, w.IsNew → (ofBits behind).extensionBytes w = extension := by
    intro w hw
    refine ofBytes_injective ?_
    rw [ofBytes_extensionBytes _ hw, bits_ofBits hbehind, hbits]
  refine ⟨ofBits behind, inRange_ofBits behind, ?_, hwritten⟩
  rw [← hwritten .empty BitWriter.isNew_empty]
  exact ofNal_extensionBytes hextended (inRange_ofBits behind) BitWriter.isNew_empty trailing

/-- **Parsing inverts the layout.**  An empty unit is invalid, and one of another type has no
extension header.  Of the types 14 and 20, a unit has one just if the top bit behind the first byte
is set; then three bytes hold it, less are the end of the data, and what is parsed of them is the
header for which a new writer, whatever room and reserve it is made with, writes the same three.  And
a header whose numbers fit their fields is parsed when it is written, whatever follows. -/
theorem ofNal_inverts_extensionBytes :
    (∃ detail, ofNal [] = .error (.invalidData detail)) ∧
      ∀ (first : UInt8) (tail : List UInt8),
        (first.toNat % 32 ∉ [14, 20] → ofNal (first :: tail) = .ok none) ∧
        (first.toNat % 32 ∈ [14, 20] →
          (tail = [] → ofNal (first :: tail) = .error .endOfData) ∧
          (∀ second, tail.head? = some second →
            (second.toNat.testBit 7 = false → ofNal (first :: tail) = .ok none) ∧
            (second.toNat.testBit 7 = true → (first :: tail).length < 4 →
              ofNal (first :: tail) = .error .endOfData) ∧
            (second.toNat.testBit 7 = true → 4 ≤ (first :: tail).length →
              ∃ h : SvcHeader, h.InRange ∧ ofNal (first :: tail) = .ok (some h) ∧
                ∀ w : BitWriter, w.IsNew → h.extensionBytes w = tail.take 3)) ∧
          ∀ (h : SvcHeader) (w : BitWriter), h.InRange → w.IsNew →
            ofNal (first :: (h.extensionBytes w ++ tail)) = .ok (some h)) := by
  refine ⟨⟨_, rfl⟩, fun first tail => ⟨fun hother => ofNal_of_not_extended hother tail,
    fun hextended => ⟨?_, ?_, ?_⟩⟩⟩
  · rintro rfl
    rw [ofNal_of_extended hextended, readExtension_cons]
    rfl
  · intro second hsecond
    obtain ⟨rest, rfl⟩ := List.head?_eq_some_iff.1 hsecond
    have hbits : ofBytes (second :: rest) =
        second.toNat.testBit 7 :: (ofField second.toNat 7 ++ ofBytes rest) := ofBytes_cons ..
    refine ⟨fun htop => ?_, fun htop hshort => ?_, fun htop hlong => ?_⟩
    · rw [ofNal_of_extended hextended, readExtension_cons, hbits, htop]
    · have hlength : (ofField second.toNat 7 ++ ofBytes rest).length < 23 := by
        rw [List.length_cons, List.length_cons] at hshort
        rw [List.length_append, length_ofField, length_ofBytes]
        omega
      rw [ofNal_of_extended hextended, readExtension_cons, hbits, htop]
      exact if_pos hlength
    · rw [List.length_cons, List.length_cons] at hlong
      have hlength : ((second :: rest).take 3).length = 3 := by
        rw [List.length_take, List.length_cons]
        omega
      have hextension : ofBytes ((second :: rest).take 3) =
          true :: (ofField second.toNat 7 ++ ofBytes (rest.take 2)) := by
        rw [List.take_succ_cons, ← htop]
        exact ofBytes_cons ..
      have hparsed := exists_ofNal hextended hlength hextension ((second :: rest).drop 3)
      rwa [List.take_append_drop] at hparsed
  · intro h w hrange hw
    exact ofNal_extensionBytes hextended hrange hw tail

/-- A slice of layer (1, 2) with a byte behind its header, the same cut off in the header, a unit
with another extension, and one of another type. -/
theorem ofNal_inverts_extensionBytes_layer :
    let h : SvcHeader := ⟨false, 5, true, 1, 2, 2, false, true, true, 3⟩
    let w := BitWriter.blank 0 1
    h.InRange ∧ w.IsNew ∧ (0x74 : UInt8).toNat % 32 ∈ [14, 20] ∧ (0x65 : UInt8).toNat % 32 ∉ [14, 20] ∧
      ofNal (0x74 :: (h.extensionBytes w ++ [0xAB])) = .ok (some h) ∧
      ofNal [0x74, 0x85, 0x92] = .error .endOfData ∧ ofNal [0x74] = .error .endOfData ∧
      ofNal [0x74, 0x00, 0x00, 0x00] = .ok none ∧ ofNal [0x65, 0x88] = .ok none ∧
      ∃ h' : SvcHeader, h'.InRange ∧ ofNal [0x74, 0x85, 0x92, 0x4F, 0xAB] = .ok (some h') ∧
        h'.extensionBytes w = [0x85, 0x92, 0x4F] := by
  intro h w
  have hrange : h.InRange := by constructor <;> decide
  have hw : w.IsNew := BitWriter.isNew_blank (by decide)
  have hof := ofNal_inverts_extensionBytes.2
  refine ⟨hrange, hw, by decide, by decide, ?_, ?_, ?_, ?_, ?_, ?_⟩
  · exact ((hof 0x74 [0xAB]).2 (by decide)).2.2 h w hrange hw
  · exact (((hof 0x74 [0x85, 0x92]).2 (by decide)).2.1 0x85 rfl).2.1 (by decide) (by decide)
  · exact ((hof 0x74 []).2 (by decide)).1 rfl
  · exact (((hof 0x74 [0, 0, 0]).2 (by decide)).2.1 0 rfl).1 (by decide)
  · exact (hof 0x65 [0x88]).1 (by decide)
  · obtain ⟨h', hrange', hparsed, hwritten⟩ :=
      (((hof 0x74 [0x85, 0x92, 0x4F, 0xAB]).2 (by decide)).2.1 0x85 rfl).2.2 (by decide) (by decide)
    exact ⟨h', hrange', hparsed, hwritten w hw⟩

end SvcHeader
end AnnexB
