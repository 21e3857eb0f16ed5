/-
# The loop of a report

A report reads access units until its source is not good, its limit is reached, or an access unit is
empty or cannot be written.  Nothing else bounds its rounds.  `Options.RunsTo` says where they lead, and
a state leads to one end (`RunsTo.unique`).

`readUnits` makes no more rounds than its source has access units left, and no more than the limit
(`lt_roundsFor_iff`).  These are enough to come to the end (`runsTo_readUnits`): each round leaves one
access unit less, and counts one more.  So the outcome of a report is that of its loop
(`finishes_report`).
-/

import Mathlib.Data.List.Basic
import AnnexB.Report.Run

namespace AnnexB

namespace Options

/-! ### Rounds -/

variable {α : Type} {o : Options} {codec : VideoCodec} {s s' : State α}

/-- An access unit that is taken goes into the summary, and changes nothing of the source. -/
theorem takeUnit_keeps (o : Options) (codec : VideoCodec) (s : State α) (unit : AccessUnit) :
    (takeUnit o codec s unit).2.source = s.source ∧
      (takeUnit o codec s unit).2.summary = s.summary.record codec unit := by
  unfold takeUnit
  simp only
  split
  · exact ⟨rfl, rfl⟩
  · exact ⟨rfl, rfl⟩

/-- Without a writer, an access unit is always taken. -/
theorem takeUnit_of_no_writer (o : Options) (codec : VideoCodec) (hwriter : s.writer = none)
    (unit : AccessUnit) :
    (takeUnit o codec s unit).1 = .ok () ∧ (takeUnit o codec s unit).2.writer = none := by
  unfold takeUnit
  simp only [hwriter, and_self]

/-- The limit is reached. -/
def Full (o : Options) (summary : Summary) : Prop :=
  ∃ limit ∈ o.limit, limit.toNat ≤ summary.accessUnits

theorem full_iff : (o.limit.any fun limit => s.summary.accessUnits ≥ limit.toNat) = true ↔
    o.Full s.summary := by
  rw [Option.any_eq_true]
  simp only [decide_eq_true_iff]
  rfl

variable [MediaSource α]

/-- One round of the loop: gives the answer of the run, if it ends. -/
def turn (o : Options) (codec : VideoCodec) (s : State α) :
    Option (Except Error Unit) × State α :=
  if !MediaSource.isGood s.source then (some (.ok ()), s)
  else if o.limit.any fun limit => s.summary.accessUnits ≥ limit.toNat then (some (.ok ()), s)
  else
    let (unit, source) := MediaSource.next s.source
    let s := { s with source }
    if unit.isEmpty then (some (.ok ()), s)
    else
      match takeUnit o codec s unit with
      | (.error e, s) => (some (.error e), s)
      | (.ok _, s) => (none, s)

/-- The loop leads from a state to an answer and a state, in any number of rounds. -/
inductive RunsTo (o : Options) (codec : VideoCodec) :
    State α → Except Error Unit × State α → Prop
  | ends {s s' : State α} {answer : Except Error Unit} (turn : o.turn codec s = (some answer, s')) :
      RunsTo o codec s (answer, s')
  | goesOn {s s' : State α} {result : Except Error Unit × State α}
      (turn : o.turn codec s = (none, s')) (later : RunsTo o codec s' result) :
      RunsTo o codec s result

/-- A state leads to one end. -/
theorem RunsTo.unique {r r' : Except Error Unit × State α} (h : RunsTo o codec s r)
    (h' : RunsTo o codec s r') : r = r' := by
  induction h with
  | ends turn =>
    cases h' with
    | ends turn' =>
      obtain ⟨heq, rfl⟩ := Prod.mk.inj (turn.symm.trans turn')
      rw [Option.some.inj heq]
    | goesOn turn' => cases turn.symm.trans turn'
  | goesOn turn later ih =>
    cases h' with
    | ends turn' => cases turn.symm.trans turn'
    | goesOn turn' later' =>
      obtain ⟨-, rfl⟩ := Prod.mk.inj (turn.symm.trans turn')
      exact ih later'

/-- What is read with a bound is read round by round. -/
theorem readUnits_succ (s : State α) (rounds : Nat) : readUnits o codec s (rounds + 1) =
    match o.turn codec s with
    | (some answer, s) => (answer, s)
    | (none, s) => readUnits o codec s rounds := by
  rw [readUnits, turn]
  split
  · rfl
  · split
    · rfl
    · simp only
      split
      · rfl
      · rcases takeUnit o codec _ _ with ⟨e | _, s'⟩ <;> rfl

/-- A round ends the loop where the source is not good or the limit is reached. -/
theorem turn_of_over (h : MediaSource.isGood s.source = false ∨ o.Full s.summary) :
    o.turn codec s = (some (.ok ()), s) := by
  unfold turn
  rcases h with hbad | hfull
  · rw [hbad]
    rfl
  · split
    · rfl
    · rw [if_pos (full_iff.2 hfull)]

/-- A round that does not end the loop takes in an access unit. -/
theorem turn_eq_none (h : o.turn codec s = (none, s')) :
    MediaSource.isGood s.source = true ∧ ¬o.Full s.summary ∧
      (MediaSource.next s.source).1 ≠ [] ∧ s'.source = (MediaSource.next s.source).2 ∧
      s'.summary = s.summary.record codec (MediaSource.next s.source).1 := by
  unfold turn at h
  split at h
  · cases h
  · split at h
    · cases h
    · simp only at h
      split at h
      · cases h
      · have hkeeps := takeUnit_keeps o codec
          { s with source := (MediaSource.next s.source).2 } (MediaSource.next s.source).1
        rcases htake : takeUnit o codec { s with source := (MediaSource.next s.source).2 }
          (MediaSource.next s.source).1 with ⟨e | _, s₁⟩ <;> rw [htake] at h hkeeps <;> cases h
        refine ⟨by simpa using ‹¬(!MediaSource.isGood s.source) = true›, mt full_iff.2 ‹_›, ?_,
          hkeeps⟩
        simpa using ‹¬(MediaSource.next s.source).1.isEmpty = true›

/-- **The loop ends.**  Where the source leaves a bounded number of access units, one less with each
that it hands out, or there is a limit, as many rounds as the smaller of both lead to the end. -/
theorem runsTo_readUnits {Left : α → Nat → Prop}
    (hend : ∀ a, Left a 0 → MediaSource.isGood a = false)
    (hnext : ∀ a n, Left a (n + 1) → (MediaSource.next a).1 ≠ [] → Left (MediaSource.next a).2 n)
    {rounds : Nat}
    (h : Left s.source rounds ∨ ∃ limit ∈ o.limit, limit.toNat ≤ s.summary.accessUnits + rounds) :
    RunsTo o codec s (readUnits o codec s rounds) := by
  induction rounds generalizing s with
  | zero => exact .ends (turn_of_over (h.imp (hend _) id))
  | succ rounds ih =>
    rw [readUnits_succ]
    rcases hturn : o.turn codec s with ⟨_ | answer, s'⟩
    · obtain ⟨hgood, hfull, hne, hsource, hsummary⟩ := turn_eq_none hturn
      refine .goesOn hturn (ih (h.imp (fun hleft => ?_) ?_))
      · rw [hsource]
        exact hnext _ _ hleft hne
      · rintro ⟨limit, hlimit, hle⟩
        refine ⟨limit, hlimit, ?_⟩
        have hcount : s'.summary.accessUnits = s.summary.accessUnits + 1 := by rw [hsummary]; rfl
        omega
    · exact .ends hturn

/-! ### The summary -/

/-- A round leaves the summary as it is, or takes an access unit into it. -/
theorem summary_turn (o : Options) (codec : VideoCodec) (s : State α) :
    (o.turn codec s).2.summary = s.summary ∨
    ∃ unit, (o.turn codec s).2.summary = s.summary.record codec unit := by
  unfold turn
  split
  · exact .inl rfl
  · split
    · exact .inl rfl
    · simp only
      split
      · exact .inl rfl
      · have hkeeps := takeUnit_keeps o codec
          { s with source := (MediaSource.next s.source).2 } (MediaSource.next s.source).1
        right
        refine ⟨_, Eq.trans ?_ hkeeps.2⟩
        rcases takeUnit o codec _ _ with ⟨e | _, s'⟩ <;> rfl

/-- What each access unit keeps of the summary, the loop keeps. -/
theorem RunsTo.summary {P : Summary → Prop}
    (hrecord : ∀ summary unit, P summary → P (summary.record codec unit))
    {r : Except Error Unit × State α} (h : RunsTo o codec s r) (hs : P s.summary) :
    P r.2.summary := by
  have hturn : ∀ s : State α, P s.summary → P (o.turn codec s).2.summary := by
    intro s hs
    rcases summary_turn o codec s with heq | ⟨unit, heq⟩
    · exact heq ▸ hs
    · exact heq ▸ hrecord _ _ hs
  induction h with
  | ends turn =>
    have hlast := hturn _ hs
    rwa [turn] at hlast
  | goesOn turn later ih =>
    have hnext := hturn _ hs
    rw [turn] at hnext
    exact ih hnext

/-- Without a writer, a bound within the limit reads as many access units of the source. -/
theorem readUnits_of_no_writer (codec : VideoCodec) (hwriter : s.writer = none) {rounds : Nat}
    (hroom : ∀ limit ∈ o.limit, s.summary.accessUnits + rounds ≤ limit.toNat) :
    (readUnits o codec s rounds).1 = .ok () ∧
      (readUnits o codec s rounds).2.summary =
        (MediaSource.units s.source rounds).1.foldl (fun s unit => s.record codec unit)
          s.summary := by
  induction rounds generalizing s with
  | zero => exact ⟨rfl, rfl⟩
  | succ rounds ih =>
    have hfull : ¬(o.limit.any fun limit => s.summary.accessUnits ≥ limit.toNat) = true := by
      rw [full_iff]
      rintro ⟨limit, hlimit, hle⟩
      have := hroom limit hlimit
      omega
    unfold readUnits MediaSource.units
    split
    · exact ⟨rfl, rfl⟩
    · rcases MediaSource.next s.source with ⟨_ | ⟨sample, rest⟩, source⟩
      · exact ⟨rfl, rfl⟩
      · obtain ⟨hsource, hsummary⟩ := takeUnit_keeps o codec
          { s with source } (sample :: rest)
        obtain ⟨hanswer, hnone⟩ := takeUnit_of_no_writer o codec
          (s := { s with source }) hwriter (sample :: rest)
        rcases htake : takeUnit o codec { s with source } (sample :: rest) with ⟨answer, s'⟩
        rw [htake] at hsource hsummary hanswer hnone
        simp only at hsource hsummary hanswer hnone
        subst hanswer
        obtain ⟨hok, hrest⟩ := ih hnone fun limit hlimit => by
          have := hroom limit hlimit
          rw [hsummary, Summary.record]
          simp only
          omega
        simp only [List.isEmpty_cons, Bool.false_eq_true, if_false, htake, List.foldl_cons]
        refine ⟨hok, ?_⟩
        rw [hrest, hsource, hsummary]

/-! ### Reports -/

/-- The state in which a report begins. -/
def beginning (o : Options) (codec : VideoCodec) (source : α) : State α where
  source
  writer := o.baseLayer.map fun _ => StreamWriter.ofChannel (.ofStorage FileHandle.create) codec
  summary := { fileName := o.input, mediaType := MediaSource.name source }

omit [MediaSource α] in
/-- What a report leaves behind at the end of its loop. -/
def outcome (o : Options) : Except Error Unit × State α → Outcome
  | (answer, s) =>
    let written := do some (← o.baseLayer, (← s.writer).channel.storage.data.toList)
    match answer with
    | .error e => { unitLines := s.lines.reverse, error := some e.message, written }
    | .ok _ =>
      let baseLayerUnits := s.writer.map (·.unitsWritten)
      { unitLines := s.lines.reverse, summary := some { s.summary with baseLayerUnits }, written }

theorem report_eq (o : Options) (codec : VideoCodec) (source : α) : report o codec source =
    o.outcome (readUnits o codec (o.beginning codec source) (roundsFor o source)) := rfl

/-- The loop of a report on the source ends, and leaves the outcome behind. -/
def Finishes (o : Options) (codec : VideoCodec) (source : α) (r : Outcome) : Prop :=
  ∃ result, RunsTo o codec (o.beginning codec source) result ∧ r = o.outcome result

/-- The rounds that are made are within the bound of the source and within the limit. -/
theorem lt_roundsFor_iff {source : α} {k : Nat}
    (hbound : MediaSource.bound source = none → o.limit ≠ none) :
    k < roundsFor o source ↔
      (∀ n ∈ MediaSource.bound source, k < n) ∧ ∀ limit ∈ o.limit, k < limit.toNat := by
  unfold roundsFor
  rcases hsource : MediaSource.bound source with _ | n <;> rcases hlimit : o.limit with _ | limit
  · exact absurd hlimit (hbound hsource)
  · simp
  · simp
  · simp only [Option.mem_def, Option.some.injEq, forall_eq', Nat.lt_min]

theorem finishes_report (Left : α → Nat → Prop)
    (hend : ∀ a, Left a 0 → MediaSource.isGood a = false)
    (hnext : ∀ a n, Left a (n + 1) → (MediaSource.next a).1 ≠ [] → Left (MediaSource.next a).2 n)
    {source : α} (hleft : ∀ n ∈ MediaSource.bound source, ∀ m, n ≤ m → Left source m)
    (hbound : MediaSource.bound source = none → o.limit ≠ none) :
    Finishes o codec source (report o codec source) := by
  refine ⟨_, runsTo_readUnits hend hnext ?_, report_eq o codec source⟩
  change Left source (roundsFor o source) ∨ ∃ limit ∈ o.limit, limit.toNat ≤ 0 + roundsFor o source
  have hmost := mt (lt_roundsFor_iff hbound).2 (Nat.lt_irrefl (roundsFor o source))
  simp only [not_and_or, not_forall, Nat.not_lt, exists_prop] at hmost
  rw [Nat.zero_add]
  refine hmost.imp_left ?_
  rintro ⟨n, hn, hle⟩
  exact hleft n hn _ hle

end Options

end AnnexB
