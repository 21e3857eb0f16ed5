/-
# Delimiters in front of access units

A writer that inserts delimiters puts one in front of each access unit that does not begin with one
(`withDelimiter`).  The units in between stay as they are: a delimiter makes no pattern with its
neighbours, and its start code is a long one, which may follow a zero
(`Separable.flatMap_withDelimiter`).

Where access units begin is asked again when the output is read.  A delimiter opens one, and the
unit behind it opens the next if it would open one behind a delimiter.  Then the delimiter stands
alone, and the access unit behind it is as it was (`reread`).  The units in front do not matter, so
the question is one for each access unit by itself (`Extractor.groupUnits_flatMap_withDelimiter`).
-/

import AnnexB.Proofs.ReadBack
import AnnexB.Proofs.Runs

namespace AnnexB

open NalHeader

/-! ### Putting a delimiter in front -/

section

variable {γ δ : Type}

/-- Whether an access unit begins with a delimiter. -/
def hasDelimiter (codec : VideoCodec) (payloads : List (List UInt8)) : Bool :=
  payloads.head?.any fun payload => (ofPayload codec payload).isAud

/-- Whether a delimiter in front of an access unit, which has none, is an access unit of its own. -/
def delimiterStandsAlone (codec : VideoCodec) (payloads : List (List UInt8)) : Bool :=
  payloads.head?.any fun payload =>
    !(ofPayload codec payload).isAud &&
      !continues codec (ofPayload codec (delimiter codec).toList) (ofPayload codec payload)

/-- An access unit with a delimiter in front of it, behind the start code `code`, if it had none. -/
def withDelimiter (code : γ) (codec : VideoCodec) (unit : List (γ × List UInt8)) :
    List (γ × List UInt8) :=
  if hasDelimiter codec (unit.map Prod.snd) then unit
  else (code, (delimiter codec).toList) :: unit

/-- What an access unit is read as that a delimiter was put in front of, if it had none. -/
def reread (code : γ) (codec : VideoCodec) (unit : List (γ × List UInt8)) :
    List (List (γ × List UInt8)) :=
  if delimiterStandsAlone codec (unit.map Prod.snd) then
    [[(code, (delimiter codec).toList)], unit]
  else [withDelimiter code codec unit]

variable {code : γ} {codec : VideoCodec} {unit : List (γ × List UInt8)}

theorem toList_delimiter_avc : (delimiter .h264).toList = [0x09, 0xF0] := by cbv

theorem toList_delimiter_hevc : (delimiter .h265).toList = [0x46, 0x01, 0x50] := by cbv

theorem isAud_delimiter (codec : VideoCodec) :
    (ofPayload codec (delimiter codec).toList).isAud = true := by
  cases codec
  · rw [toList_delimiter_avc]
    rfl
  · rw [toList_delimiter_hevc]
    rfl

theorem isNalUnit_delimiter (codec : VideoCodec) : IsNalUnit (delimiter codec).toList := by
  cases codec
  · rw [toList_delimiter_avc]
    decide
  · rw [toList_delimiter_hevc]
    decide

theorem hasDelimiter_eq_false_of_standsAlone {payloads : List (List UInt8)}
    (h : delimiterStandsAlone codec payloads = true) : hasDelimiter codec payloads = false := by
  rcases payloads with _ | ⟨payload, rest⟩
  · rfl
  · simp_all [delimiterStandsAlone, hasDelimiter]

theorem hasDelimiter_withDelimiter :
    hasDelimiter codec ((withDelimiter code codec unit).map Prod.snd) = true := by
  rw [withDelimiter]
  split
  · assumption
  · exact isAud_delimiter codec

theorem withDelimiter_of_hasDelimiter (h : hasDelimiter codec (unit.map Prod.snd) = true) :
    withDelimiter code codec unit = unit := if_pos h

theorem withDelimiter_of_standsAlone (h : delimiterStandsAlone codec (unit.map Prod.snd) = true) :
    withDelimiter code codec unit = (code, (delimiter codec).toList) :: unit := by
  rw [withDelimiter, hasDelimiter_eq_false_of_standsAlone h]
  rfl

theorem withDelimiter_ne_nil : withDelimiter code codec unit ≠ [] := by
  intro hnil
  have h := @hasDelimiter_withDelimiter _ code codec unit
  rw [hnil] at h
  simp [hasDelimiter] at h

theorem reread_of_standsAlone (h : delimiterStandsAlone codec (unit.map Prod.snd) = true) :
    reread code codec unit = [[(code, (delimiter codec).toList)], unit] := if_pos h

theorem reread_of_not_standsAlone (h : delimiterStandsAlone codec (unit.map Prod.snd) = false) :
    reread code codec unit = [withDelimiter code codec unit] := if_neg (by simp [h])

theorem flatten_reread : (reread code codec unit).flatten = withDelimiter code codec unit := by
  rw [reread]
  split
  · rename_i h
    rw [withDelimiter_of_standsAlone h]
    simp
  · exact List.flatten_singleton

theorem map_reread (f : γ → δ) :
    (reread code codec unit).map (List.map (Prod.map f id)) =
      reread (f code) codec (unit.map (Prod.map f id)) := by
  have hpayloads : (unit.map (Prod.map f id)).map Prod.snd = unit.map Prod.snd := by
    rw [List.map_map]
    rfl
  rw [reread, reread, withDelimiter, withDelimiter, hpayloads]
  split
  · rfl
  · split <;> rfl

end

/-! ### What is read of it -/

section

variable {codec : VideoCodec}

theorem NalHeader.opensBehind_of_isAud {payload : List UInt8} {before : NalHeader}
    (h : (ofPayload codec payload).isAud = true) :
    (ofPayload codec payload).OpensBehind codec before := by
  cases codec <;> exact .inl (beq_iff_eq.1 h)

/-- A unit of an encoder can be put between separable units behind a long start code. -/
theorem Separable.insert {before later : List CodedUnit} {payload : List UInt8}
    (hpayload : IsNalUnit payload) (hlater : later ≠ []) (h : Separable (before ++ later)) :
    Separable (before ++ (.long, payload) :: later) := by
  induction before with
  | nil =>
    obtain ⟨next, rest, rfl⟩ := List.exists_cons_of_ne_nil hlater
    exact .cons (hpayload.hasPattern_drop 0) (fun _ => hpayload.last_ne_zero) h
  | cons u before ih =>
    rcases before with _ | ⟨v, before⟩
    · obtain ⟨next, rest, rfl⟩ := List.exists_cons_of_ne_nil hlater
      cases h with
      | cons hu hnext hrest => exact .cons hu (fun hshort => nomatch hshort) (ih hrest)
    · cases h with
      | cons hu hnext hrest => exact .cons hu hnext (ih hrest)

/-- Units stay separable when delimiters are put in front of access units. -/
theorem Separable.flatMap_withDelimiter {before : List CodedUnit} {groups : List (List CodedUnit)}
    (hne : ∀ unit ∈ groups, unit ≠ []) (h : Separable (before ++ groups.flatten)) :
    Separable (before ++ groups.flatMap (withDelimiter .long codec)) := by
  induction groups generalizing before with
  | nil => exact h
  | cons unit groups ih =>
    have hrest : ∀ unit ∈ groups, unit ≠ [] := fun u hu => hne u (List.mem_cons_of_mem _ hu)
    rw [List.flatMap_cons, ← List.append_assoc]
    refine ih hrest ?_
    rw [withDelimiter]
    split
    · rwa [List.append_assoc]
    · rw [List.append_assoc]
      refine Separable.insert (isNalUnit_delimiter codec) ?_ h
      simp [hne unit (List.mem_cons_self ..)]

/-- Cut by its own headers, an access unit with a delimiter in front of it is what `reread` says. -/
theorem Extractor.groupUnits_withDelimiter {unit : List CodedUnit} (hne : unit ≠ [])
    (hinside : unit.IsChain fun before u =>
      ¬ (ofPayload codec u.2).OpensBehind codec (ofPayload codec before.2)) :
    groupUnits codec (withDelimiter .long codec unit) = reread .long codec unit := by
  have hrun : unit.IsChain fun before u =>
      continues codec (ofPayload codec before.2) (ofPayload codec u.2) = true :=
    hinside.imp fun _ _ => continues_eq_true_iff.2
  obtain ⟨first, rest, rfl⟩ := List.exists_cons_of_ne_nil hne
  rw [groupUnits, Boundary.group_eq_splitBy, Boundary.codec_ofCodec, reread]
  split
  · rename_i halone
    rw [withDelimiter_of_standsAlone halone]
    have hopens : continues codec (ofPayload codec (delimiter codec).toList)
        (ofPayload codec first.2) = false := by
      simpa [delimiterStandsAlone] using (Bool.and_eq_true_iff.1 halone).2
    refine (List.splitBy_append_cons (l := [_]) rest ?_).trans ?_
    · simpa using hopens
    · rw [List.splitBy_of_isChain hne hrun]
      rfl
  · rename_i hstays
    refine List.splitBy_of_isChain withDelimiter_ne_nil ?_
    rw [withDelimiter]
    split
    · exact hrun
    · rename_i hbare
      refine .cons_cons ?_ hrun
      have hbare : (ofPayload codec first.2).isAud = false := by simpa [hasDelimiter] using hbare
      simpa [delimiterStandsAlone, hbare] using hstays

theorem isAud_head?_flatMap_withDelimiter {γ : Type} {code : γ}
    {groups : List (List (γ × List UInt8))} :
    ∀ u ∈ (groups.flatMap (withDelimiter code codec)).head?,
      (ofPayload codec u.2).isAud = true := by
  intro u hu
  rcases groups with _ | ⟨unit, groups⟩
  · simp at hu
  · have hhas := @hasDelimiter_withDelimiter _ code codec unit
    obtain ⟨first, rest, hunit⟩ :=
      List.exists_cons_of_ne_nil (@withDelimiter_ne_nil _ code codec unit)
    rw [hunit] at hhas
    obtain rfl : first = u := by simpa [hunit] using hu
    exact hhas

/-- **Where access units begin behind delimiters** is asked of each access unit for itself. -/
theorem Extractor.groupUnits_flatMap_withDelimiter {groups : List (List CodedUnit)}
    (hne : ∀ unit ∈ groups, unit ≠ [])
    (hinside : ∀ unit ∈ groups, unit.IsChain fun before u =>
      ¬ (ofPayload codec u.2).OpensBehind codec (ofPayload codec before.2)) :
    groupUnits codec (groups.flatMap (withDelimiter .long codec)) =
      groups.flatMap (reread .long codec) := by
  induction groups with
  | nil => rfl
  | cons unit groups ih =>
    have hfirst := groupUnits_withDelimiter (hne unit (List.mem_cons_self ..))
      (hinside unit (List.mem_cons_self ..))
    have hrest := ih (fun u hu => hne u (List.mem_cons_of_mem _ hu))
      fun u hu => hinside u (List.mem_cons_of_mem _ hu)
    rw [List.flatMap_cons, List.flatMap_cons, ← hfirst, ← hrest]
    simp only [groupUnits, Boundary.group_eq_splitBy]
    refine List.splitBy_append fun before _ u hu => ?_
    rw [continues_eq_false_iff, Boundary.codec_ofCodec]
    exact opensBehind_of_isAud (isAud_head?_flatMap_withDelimiter u hu)

end

/-! ### Putting delimiters in front again -/

section

variable {γ : Type} {code : γ} {codec : VideoCodec} {unit : List (γ × List UInt8)}
  {groups : List (List (γ × List UInt8))}

theorem length_reread :
    (reread code codec unit).length =
      1 + if delimiterStandsAlone codec (unit.map Prod.snd) then 1 else 0 := by
  rw [reread]
  split <;> rfl

/-- A delimiter that stands alone leaves the access unit behind it without one. -/
theorem length_flatMap_withDelimiter_reread :
    ((reread code codec unit).flatMap (withDelimiter code codec)).length =
      (withDelimiter code codec unit).length +
        if delimiterStandsAlone codec (unit.map Prod.snd) then 1 else 0 := by
  rw [reread]
  split
  · rename_i halone
    have hdelimiter : withDelimiter code codec [(code, (delimiter codec).toList)] =
        [(code, (delimiter codec).toList)] :=
      withDelimiter_of_hasDelimiter (isAud_delimiter codec)
    simp [hdelimiter]
  · rw [List.flatMap_singleton, withDelimiter_of_hasDelimiter hasDelimiter_withDelimiter,
      Nat.add_zero]

/-- The access units stay as many exactly if no delimiter stands alone. -/
theorem length_flatMap_reread_eq_iff :
    (groups.flatMap (reread code codec)).length = groups.length ↔
      ∀ unit ∈ groups, delimiterStandsAlone codec (unit.map Prod.snd) = false := by
  have hlength : (groups.flatMap (reread code codec)).length =
      groups.length + groups.countP fun unit => delimiterStandsAlone codec (unit.map Prod.snd) := by
    induction groups with
    | nil => rfl
    | cons unit groups ih =>
      rw [List.flatMap_cons, List.length_append, ih, length_reread, List.countP_cons,
        List.length_cons]
      omega
  rw [hlength, Nat.add_eq_left, List.countP_eq_zero]
  simp only [Bool.not_eq_true]

/-- Nothing is put in front again exactly if no delimiter stands alone. -/
theorem flatMap_withDelimiter_reread_eq_iff :
    (groups.flatMap (reread code codec)).flatMap (withDelimiter code codec) =
        groups.flatMap (withDelimiter code codec) ↔
      ∀ unit ∈ groups, delimiterStandsAlone codec (unit.map Prod.snd) = false := by
  have hlength : ((groups.flatMap (reread code codec)).flatMap (withDelimiter code codec)).length =
      (groups.flatMap (withDelimiter code codec)).length +
        groups.countP fun unit => delimiterStandsAlone codec (unit.map Prod.snd) := by
    induction groups with
    | nil => rfl
    | cons unit groups ih =>
      rw [List.flatMap_cons, List.flatMap_append, List.length_append, ih, List.flatMap_cons,
        List.length_append, length_flatMap_withDelimiter_reread, List.countP_cons]
      omega
  constructor
  · intro heq
    rw [heq, Nat.left_eq_add, List.countP_eq_zero] at hlength
    simpa only [Bool.not_eq_true] using hlength
  · intro hstays
    rw [List.flatMap_assoc]
    refine List.flatMap_congr fun unit hunit => ?_
    rw [reread_of_not_standsAlone (hstays unit hunit), List.flatMap_singleton,
      withDelimiter_of_hasDelimiter hasDelimiter_withDelimiter]

theorem flatten_flatMap_reread :
    (groups.flatMap (reread code codec)).flatten = groups.flatMap (withDelimiter code codec) := by
  rw [← List.flatMap_id, List.flatMap_assoc]
  exact List.flatMap_congr fun unit _ => List.flatMap_id.trans flatten_reread

theorem ne_nil_of_mem_flatMap_reread (hne : ∀ unit ∈ groups, unit ≠ []) :
    ∀ unit ∈ groups.flatMap (reread code codec), unit ≠ [] := by
  intro unit hunit
  obtain ⟨g, hg, hunit⟩ := List.mem_flatMap.1 hunit
  rw [reread] at hunit
  split at hunit
  · obtain rfl | rfl : unit = [(code, (delimiter codec).toList)] ∨ unit = g := by
      simpa using hunit
    · exact List.cons_ne_nil _ _
    · exact hne _ hg
  · obtain rfl := List.mem_singleton.1 hunit
    exact withDelimiter_ne_nil

end

end AnnexB
