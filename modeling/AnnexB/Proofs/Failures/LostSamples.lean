/-
# Samples that a failed call loses

A call of `readUnit` is some calls of `nextSample` in a row, up to one that gives a marked sample,
none, or an error.  What it answers hangs on their answers alone (`unitOf`): the first error, or else
the samples.  So calls of `readUnit` in a row are one run of calls of `nextSample`, cut into pieces
(`readUnits_eq`).

With an error, the samples of the piece are given up.  A reader that kept them for its next call
would give the access units of `carried`.  The two are the same exactly where no call that fails with
samples at hand is followed by one that does not (`given_eq_carried_iff`).
-/

import AnnexB.Source.Stream
import AnnexB.Proofs.Failures.Storage
import AnnexB.Proofs.Steps

namespace AnnexB
namespace StreamReader

/-- What calls of `nextSample` in a row have answered. -/
abbrev Replies : Type := List (Except Error (Option Sample))

/-- The samples that some calls have given. -/
def samplesOf (answers : Replies) : List Sample :=
  answers.filterMap fun answer => answer.toOption.join

/-- The first error among some answers. -/
def errorOf : Replies → Option Error
  | [] => none
  | .error e :: _ => some e
  | .ok _ :: later => errorOf later

/-- What a call of `readUnit` makes of the answers. -/
def unitOf (answers : Replies) : Except Error (Option AccessUnit) :=
  match errorOf answers, samplesOf answers with
  | some e, _ => .error e
  | none, [] => .ok none
  | none, samples => .ok (some samples)

/-- What is collected of the answers, behind some samples, latest first. -/
def collected (earlier : List Sample) (answers : Replies) : Except Error (List Sample) :=
  match errorOf answers with
  | some e => .error e
  | none => .ok (earlier.reverse ++ samplesOf answers)

/-- All but the last of the answers are samples that are not marked. -/
def GoesOn (answers : Replies) : Prop :=
  ∀ answer ∈ answers.dropLast, ∃ sample : Sample,
    answer = .ok (some sample) ∧ sample.marker = false

theorem GoesOn.cons {answers : Replies} (h : GoesOn answers) {sample : Sample}
    (hmarker : sample.marker = false) : GoesOn (.ok (some sample) :: answers) := by
  rcases answers with _ | ⟨next, later⟩
  · exact nofun
  · rintro answer (_ | ⟨_, hmem⟩)
    · exact ⟨sample, rfl, hmarker⟩
    · exact h answer hmem

/-! ### Calls as runs of calls -/

section

variable {σ : Type} [Storage σ]

/-- Collecting is asking for samples again and again. -/
theorem collect_eq (r : StreamReader σ) (earlier : List Sample) (limit : Nat) :
    ∃ n, let run := (again nextSample n).run r
      r.collect earlier limit = (collected earlier run.1, run.2) ∧ GoesOn run.1 := by
  induction limit generalizing r earlier with
  | zero => exact ⟨0, by simp [collect, collected, errorOf, samplesOf], nofun⟩
  | succ limit ih =>
    rw [collect]
    rcases hnext : r.nextSample with ⟨answer, r'⟩
    have hfirst : (again nextSample 1).run r = ([answer], r') := by
      rw [run_again_succ, hnext]
      rfl
    have hlast : GoesOn [answer] := nofun
    rcases answer with e | _ | sample
    · exact ⟨1, by rw [hfirst]; rfl, by rwa [hfirst]⟩
    · refine ⟨1, ?_, by rwa [hfirst]⟩
      rw [hfirst]
      simp [collected, errorOf, samplesOf, Except.toOption]
    · cases hmarker : sample.marker with
      | true =>
        refine ⟨1, ?_, by rwa [hfirst]⟩
        rw [hfirst]
        simp [collected, errorOf, samplesOf, Except.toOption, hmarker]
      | false =>
        obtain ⟨n, hcollect, hgoesOn⟩ := ih r' (sample :: earlier)
        refine ⟨n + 1, ?_, ?_⟩ <;> rw [run_again_succ, hnext]
        · simp only [hmarker, Bool.false_eq_true, if_false, hcollect]
          simp [collected, errorOf, samplesOf, Except.toOption]
        · exact hgoesOn.cons hmarker

/-- **A call of `readUnit` is some calls of `nextSample`.** -/
theorem readUnit_eq (r : StreamReader σ) :
    ∃ n, let run := (again nextSample n).run r
      r.readUnit = (unitOf run.1, run.2) ∧ GoesOn run.1 := by
  obtain ⟨n, hcollect, hgoesOn⟩ := r.collect_eq [] (r.roundsLeft + 2)
  refine ⟨n, ?_, hgoesOn⟩
  rw [readUnit, hcollect, unitOf, collected]
  rcases errorOf ((again nextSample n).run r).1 with _ | e
  · rcases samplesOf ((again nextSample n).run r).1 with _ | ⟨sample, later⟩ <;> rfl
  · rfl

/-- **Calls of `readUnit` cut a run of calls of `nextSample` into pieces.** -/
theorem readUnits_eq (r : StreamReader σ) (calls : Nat) :
    let run := (again readUnit calls).run r
    ∃ pieces : List Replies, pieces.length = calls ∧
      (again nextSample pieces.flatten.length).run r = (pieces.flatten, run.2) ∧
      run.1 = pieces.map unitOf ∧ ∀ piece ∈ pieces, GoesOn piece := by
  induction calls generalizing r with
  | zero => exact ⟨[], rfl, rfl, rfl, nofun⟩
  | succ calls ih =>
    obtain ⟨n, hunit, hgoesOn⟩ := r.readUnit_eq
    obtain ⟨pieces, hlength, hrun, hanswers, hgoOn⟩ := ih r.readUnit.2
    have hn : ((again nextSample n).run r).1.length = n := length_run_again n r
    refine ⟨((again nextSample n).run r).1 :: pieces, ?_, ?_, ?_, ?_⟩
    · rw [List.length_cons, hlength]
    · rw [hunit] at hrun
      rw [List.flatten_cons, List.length_append, hn, run_again_add, hrun, run_again_succ, hunit]
    · rw [run_again_succ, List.map_cons, hanswers, hunit]
    · exact List.forall_mem_cons.2 ⟨hgoesOn, hgoOn⟩

end

/-! ### Samples kept for the next call -/

/-- The access unit that an answer gives. -/
def unit? (answer : Except Error (Option AccessUnit)) : Option AccessUnit := answer.toOption.join

/-- The access units of calls that keep `owed` of the calls before, and whatever a call has at hand
when it fails. -/
def carried (owed : List Sample) : List Replies → List AccessUnit
  | [] => []
  | piece :: later =>
    match errorOf piece, owed ++ samplesOf piece with
    | some _, samples => carried samples later
    | none, [] => carried [] later
    | none, samples => samples :: carried [] later

/-- No call that fails with samples at hand comes before one that does not fail. -/
def Keeps (pieces : List Replies) : Prop :=
  pieces.Pairwise fun piece later =>
    (errorOf piece).isSome → errorOf later = none → samplesOf piece = []

variable {piece : Replies} {pieces : List Replies} {owed : List Sample}

/-- The access units of calls. -/
def given (pieces : List Replies) : List AccessUnit := (pieces.map unitOf).filterMap unit?

theorem given_cons_of_error (h : (errorOf piece).isSome) :
    given (piece :: pieces) = given pieces := by
  obtain ⟨e, he⟩ := Option.isSome_iff_exists.1 h
  have hunit : unitOf piece = .error e := by rw [unitOf, he]
  rw [given, List.map_cons, hunit]
  rfl

theorem carried_cons_of_error (h : (errorOf piece).isSome) :
    carried owed (piece :: pieces) = carried (owed ++ samplesOf piece) pieces := by
  obtain ⟨e, he⟩ := Option.isSome_iff_exists.1 h
  rw [carried, he]

theorem given_cons (h : errorOf piece = none) :
    given (piece :: pieces) =
      if samplesOf piece = [] then given pieces else samplesOf piece :: given pieces := by
  rw [given, List.map_cons, unitOf, h]
  rcases samplesOf piece with _ | ⟨sample, later⟩
  · rfl
  · rfl

theorem carried_cons (h : errorOf piece = none) :
    carried owed (piece :: pieces) =
      if owed ++ samplesOf piece = [] then carried [] pieces
      else (owed ++ samplesOf piece) :: carried [] pieces := by
  rw [carried, h]
  rcases owed ++ samplesOf piece with _ | ⟨sample, later⟩
  · rfl
  · rfl

theorem flatten_given_cons (h : errorOf piece = none) :
    (given (piece :: pieces)).flatten = samplesOf piece ++ (given pieces).flatten := by
  rw [given_cons h]
  split <;> simp [*]

theorem flatten_carried_cons (h : errorOf piece = none) :
    (carried owed (piece :: pieces)).flatten =
      owed ++ samplesOf piece ++ (carried [] pieces).flatten := by
  rw [carried_cons h]
  split <;> simp_all

/-- What is given is the samples of the calls that do not fail. -/
theorem flatten_given (pieces : List Replies) :
    (given pieces).flatten =
      (pieces.filter fun piece => (errorOf piece).isNone).flatMap samplesOf := by
  induction pieces with
  | nil => rfl
  | cons piece pieces ih =>
    rcases herror : errorOf piece with _ | e
    · rw [flatten_given_cons herror, List.filter_cons_of_pos (by rw [herror]; rfl),
        List.flatMap_cons, ih]
    · rw [given_cons_of_error (by rw [herror]; rfl),
        List.filter_cons_of_neg (by rw [herror]; nofun), ih]

/-- Nothing is given that would not be given with the samples kept. -/
theorem length_given_le (owed : List Sample) (pieces : List Replies) :
    (given pieces).flatten.length ≤ (carried owed pieces).flatten.length := by
  induction pieces generalizing owed with
  | nil => exact Nat.le_refl _
  | cons piece pieces ih =>
    rcases herror : errorOf piece with _ | e
    · have hle := ih []
      rw [flatten_given_cons herror, flatten_carried_cons herror, List.length_append,
        List.length_append, List.length_append]
      omega
    · rw [given_cons_of_error (by rw [herror]; rfl), carried_cons_of_error (by rw [herror]; rfl)]
      exact ih _

/-- **Samples kept make a difference exactly if there are some**, and a call to give them. -/
theorem given_eq_carried_iff (owed : List Sample) (pieces : List Replies) :
    given pieces = carried owed pieces ↔
      (owed = [] ∨ ∀ piece ∈ pieces, (errorOf piece).isSome) ∧ Keeps pieces := by
  induction pieces generalizing owed with
  | nil => exact ⟨fun _ => ⟨.inr nofun, .nil⟩, fun _ => rfl⟩
  | cons piece pieces ih =>
    rw [Keeps, List.pairwise_cons, ← Keeps]
    rcases herror : errorOf piece with _ | e
    · rcases owed with _ | ⟨sample, owed⟩
      · have hsame : given (piece :: pieces) = carried [] (piece :: pieces) ↔
            given pieces = carried [] pieces := by
          rw [given_cons herror, carried_cons herror, List.nil_append]
          split <;> simp
        rw [hsame, ih []]
        simp [herror]
      · -- the samples kept come with this call, and then more is given
        refine iff_of_false (fun hsame => ?_) ?_
        · have hlength := congrArg (fun units => units.flatten.length) hsame
          have hle := length_given_le [] pieces
          simp only [flatten_given_cons herror, flatten_carried_cons herror, List.length_append,
            List.length_cons] at hlength
          omega
        · rintro ⟨hnone | hfail, -⟩
          · cases hnone
          · have := hfail piece (List.mem_cons_self ..)
            rw [herror] at this
            cases this
    · have hsome : (errorOf piece).isSome := by rw [herror]; rfl
      rw [given_cons_of_error hsome, carried_cons_of_error hsome, ih, List.append_eq_nil_iff]
      by_cases hall : ∀ later ∈ pieces, (errorOf later).isSome
      · constructor
        · rintro ⟨-, hkeeps⟩
          refine ⟨.inr (List.forall_mem_cons.2 ⟨hsome, hall⟩), ?_, hkeeps⟩
          intro later hmem _ hlater
          have := hall later hmem
          rw [hlater] at this
          cases this
        · rintro ⟨-, -, hkeeps⟩
          exact ⟨.inr hall, hkeeps⟩
      · obtain ⟨later, hmem, hlater⟩ : ∃ later ∈ pieces, errorOf later = none := by
          simpa using hall
        constructor
        · rintro ⟨⟨rfl, hnone⟩ | hfail, hkeeps⟩
          · exact ⟨.inl rfl, fun _ _ _ _ => hnone, hkeeps⟩
          · exact absurd hfail hall
        · rintro ⟨hnone | hfail, hfirst, hkeeps⟩
          · exact ⟨.inl ⟨hnone, hfirst later hmem rfl hlater⟩, hkeeps⟩
          · exact absurd (fun q hq => hfail q (List.mem_cons_of_mem _ hq)) hall

section

variable {σ : Type} [Storage σ]

/-- **A call that fails loses its samples.**  Over storage of any kind, a reader is asked for access
units again and again.  That is one run of calls of `nextSample`, cut into pieces, one for each call:
the piece ends with a marked sample, or with the end of the stream or an error, and what the call
answers is the error of its piece, or else the samples of it.  So the access units hold the samples of
the pieces without an error, and no others.  They would be the same with the samples of a call that
fails given by the next one that does not, if and only if no call fails with samples at hand before
one that does not fail. -/
theorem failed_calls_lose_samples_iff (c : Channel σ) (mediaType : MediaType) (mode : TimestampMode)
    (size calls : Nat) :
    let fresh := (ofChannel c mediaType mode).withChunkSize size
    let run := (again readUnit calls).run fresh
    ∃ pieces : List Replies, pieces.length = calls ∧
      (again nextSample pieces.flatten.length).run fresh = (pieces.flatten, run.2) ∧
      run.1 = pieces.map unitOf ∧ (∀ piece ∈ pieces, GoesOn piece) ∧
      (run.1.filterMap unit?).flatten =
        (pieces.filter fun piece => (errorOf piece).isNone).flatMap samplesOf ∧
      (run.1.filterMap unit? = carried [] pieces ↔ Keeps pieces) := by
  intro fresh run
  obtain ⟨pieces, hlength, hrun, hanswers, hgoOn⟩ := fresh.readUnits_eq calls
  have hgiven : run.1.filterMap unit? = given pieces := congrArg (List.filterMap unit?) hanswers
  refine ⟨pieces, hlength, hrun, hanswers, hgoOn, ?_, ?_⟩ <;> rw [hgiven]
  · exact flatten_given pieces
  · rw [given_eq_carried_iff]
    simp

/-- The delimiter that opens an access unit is taken, and then a chunk fails for which the slice
behind it waits: the access unit is given without the delimiter. -/
example :
    let s : ScriptedStore :=
      ⟨.ofList [0, 0, 1, 9, 16, 0, 0, 1, 101, 136, 0, 0, 1, 65, 154, 0, 0, 1, 9, 16,
        0, 0, 1, 65, 154, 128], [some 13, some 13, none]⟩
    let r := (ofChannel (.ofStorage s) .h264 .untimed).withChunkSize 16
    ((again readUnit 2).run r).1.map
        (Except.map (Option.map (List.map fun sample => sample.data.toList))) =
      [.error (.storage .system), .ok (some [[101, 136], [65, 154]])] := by
  decide +kernel

end

end StreamReader
end AnnexB
