/-
# A stream reader over storage that fails

Two readers alike in all but their channels, with the same bytes to be read, keep step: round for
round they do the same until a read of the first one fails (`round_of_twins`).  The bounds on their
loops differ with their channels, but play no part, since rounds without answer lower the measure,
and samples lower the `budget`.  So the calls of the two give the same until the storage of the first
one fails (`nextSample_of_twins`, `collect_of_twins`), and so do their access units
(`next_of_twins`).
-/

import AnnexB.Proofs.Rounds

namespace AnnexB
namespace StreamReader

variable {σ τ : Type} {Fails : σ → Prop} {Serves : σ → List UInt8 → Prop}
  {Serves' : τ → List UInt8 → Prop} {a a' : StreamReader σ} {c : Channel τ} {rest : List UInt8}

/-- The reader `a` has `rest` to read, and so has the same reader with the channel `c`. -/
structure Twins (Serves : σ → List UInt8 → Prop) (Serves' : τ → List UInt8 → Prop)
    (a : StreamReader σ) (c : Channel τ) (rest : List UInt8) : Prop where
  fed : Fed Serves a rest
  pending : c.Pending Serves' rest

theorem Twins.fed' (h : Twins Serves Serves' a c rest) : Fed Serves' (a.withChannel c) rest :=
  ⟨h.pending, h.fed.inputDone, h.fed.chunkSize⟩

theorem Twins.of_aligns (h : Twins Serves Serves' a c rest) (aligns : Aligns a a') :
    Twins Serves Serves' a' c rest :=
  ⟨aligns.fed h.fed, h.pending⟩

/-- A bound on the samples to come. -/
def budget (r : StreamReader σ) (rest : List UInt8) : Nat :=
  r.measure rest + (if r.finished then 0 else 1)

/-- What a round of two readers gives that keep step: the same, or a failure of the first one. -/
inductive Agree (Fails : σ → Prop) (Serves : σ → List UInt8 → Prop)
    (Serves' : τ → List UInt8 → Prop) (a : StreamReader σ) (rest : List UInt8) :
    Answer × StreamReader σ → Answer × StreamReader τ → Prop
  | fails {e : Error} {a' : StreamReader σ} {other : Answer × StreamReader τ}
      (fails : Fails a'.channel.storage) :
      Agree Fails Serves Serves' a rest (some (.error e), a') other
  | goesOn {a' : StreamReader σ} {c' : Channel τ} {rest' : List UInt8}
      (twins : Twins Serves Serves' a' c' rest') (finished : a'.finished = a.finished)
      (less : a'.measure rest' < a.measure rest) :
      Agree Fails Serves Serves' a rest (none, a') (none, a'.withChannel c')
  | gives {answer : Except Error (Option Sample)} {a' : StreamReader σ} {c' : Channel τ}
      {rest' : List UInt8} (twins : Twins Serves Serves' a' c' rest')
      (less : ∀ s, answer = .ok (some s) → a'.budget rest' < a.budget rest) :
      Agree Fails Serves Serves' a rest (some answer, a') (some answer, a'.withChannel c')

/-- The search for the first start code is no part of what is compared. -/
theorem Agree.of_aligns (aligns : Aligns a a') {answer : Answer × StreamReader σ}
    {other : Answer × StreamReader τ} (h : Agree Fails Serves Serves' a' rest answer other) :
    Agree Fails Serves Serves' a rest answer other := by
  have hle := aligns.measure_le rest
  have hfinished : a'.finished = a.finished := by
    obtain ⟨k, -, rfl⟩ := aligns.eq_drop
    rfl
  cases h with
  | fails fails => exact .fails fails
  | goesOn twins finished less =>
    exact .goesOn twins (finished.trans hfinished) (Nat.lt_of_lt_of_le less hle)
  | gives twins less =>
    refine .gives twins fun s hsome => Nat.lt_of_lt_of_le (less s hsome) ?_
    rw [budget, budget, hfinished]
    exact Nat.add_le_add_right hle _

variable [Storage σ] [Storage τ]

/-- Both readers read the same chunk. -/
theorem readChunk_of_twins (hlapses : Lapses Fails Serves)
    (hfine : Lapses (fun _ => False) Serves')
    (h : Twins Serves Serves' a c rest) (more : a.inputDone = false) :
    Agree Fails Serves Serves' a rest a.readChunk (a.withChannel c).readChunk := by
  rcases readChunk_of_fed hlapses h.fed more with ⟨e, a', hread, hfails⟩ | ⟨channel, hread, hfed⟩
  · rw [hread]
    exact .fails hfails
  · obtain ⟨c', hread', hfed'⟩ :=
      (readChunk_of_fed hfine h.fed' more).resolve_left (by simp)
    have htwins : Twins Serves Serves' (a.filled channel (rest.take a.chunkSize)) c'
        (rest.drop a.chunkSize) := ⟨hfed, hfed'.pending⟩
    rw [hread, hread']
    exact .goesOn htwins rfl (measure_filled_lt h.fed.chunkSize more channel rest)

/-- **Readers that differ in their channels alone keep step.** -/
theorem round_of_twins (hlapses : Lapses Fails Serves)
    (hfine : Lapses (fun _ => False) Serves')
    (h : Twins Serves Serves' a c rest) :
    Agree Fails Serves Serves' a rest a.round (a.withChannel c).round := by
  obtain ⟨move, hturn⟩ := a.exists_turn
  rw [round_of_turn hturn, round_of_turn (hturn.withChannel c)]
  cases hturn with
  | rests finished => exact .gives h nofun
  | searches _ _ _ _ more => exact readChunk_of_twins hlapses hfine h more
  | loses => exact .gives h nofun
  | waits _ aligns more =>
    exact (readChunk_of_twins hlapses hfine (h.of_aligns aligns) more).of_aligns aligns
  | fails _ aligns => exact .gives (h.of_aligns aligns) nofun
  | @stops a₁ sample e' going aligns call =>
    obtain ⟨hfed, hpending⟩ := h.of_aligns aligns
    have htwins : Twins Serves Serves' { a₁ with extractor := e', finished := true } c rest :=
      ⟨⟨hfed.pending, hfed.inputDone, hfed.chunkSize⟩, hpending⟩
    refine .gives htwins fun _ _ => ?_
    rw [budget, budget, going]
    exact Nat.lt_succ_of_le (aligns.measure_le rest)
  | @takes a₁ sample n e' _ aligns call =>
    obtain ⟨hfed, hpending⟩ := h.of_aligns aligns
    have hless := measure_drop_lt call rest
    have htwins : Twins Serves Serves'
        { a₁ with extractor := e', accumulator := a₁.accumulator.drop n } c rest :=
      ⟨⟨hfed.pending, hfed.inputDone, hfed.chunkSize⟩, hpending⟩
    refine Agree.of_aligns aligns ?_
    cases sample with
    | none => exact .goesOn htwins rfl hless
    | some s => exact .gives htwins fun _ _ => Nat.add_lt_add_right hless _

/-- The rounds of a call keep step. -/
theorem returns_of_twins (hlapses : Lapses Fails Serves) (hfine : Lapses (fun _ => False) Serves')
    (h : Twins Serves Serves' a c rest) :
    (∃ n e a', Returns a n (.error e) a' ∧ n ≤ a.measure rest + 1 ∧ Fails a'.channel.storage) ∨
      ∃ n answer a' c' rest', Returns a n answer a' ∧
        Returns (a.withChannel c) n answer (a'.withChannel c') ∧ n ≤ a.measure rest + 1 ∧
        Twins Serves Serves' a' c' rest' ∧
        ∀ s, answer = .ok (some s) → a'.budget rest' < a.budget rest := by
  induction hm : a.measure rest using Nat.strongRecOn generalizing a c rest with
  | ind m ih =>
    have hround := round_of_twins hlapses hfine h
    generalize hanswer : a.round = answer at hround
    generalize hother : (a.withChannel c).round = other at hround
    cases hround with
    | fails fails => exact .inl ⟨1, _, _, .now hanswer, by omega, fails⟩
    | @goesOn a₁ c₁ rest₁ twins finished less =>
      have hbudget : a₁.budget rest₁ ≤ a.budget rest := by
        rw [budget, budget, finished]
        omega
      rcases ih _ (hm ▸ less) twins rfl with ⟨n, e, a', hreturns, hn, hfails⟩ |
        ⟨n, answer, a', c', rest', hreturns, hother', hn, hlater, hless⟩
      · exact .inl ⟨n + 1, e, a', .later hanswer hreturns, by omega, hfails⟩
      · exact .inr ⟨n + 1, answer, a', c', rest', .later hanswer hreturns, .later hother hother',
          by omega, hlater, fun s hsome => Nat.lt_of_lt_of_le (hless s hsome) hbudget⟩
    | gives twins less =>
      exact .inr ⟨1, _, _, _, _, .now hanswer, .now hother, by omega, twins, less⟩

theorem nextSample_of_twins (hlapses : Lapses Fails Serves)
    (hfine : Lapses (fun _ => False) Serves') (h : Twins Serves Serves' a c rest) :
    (∃ e a', a.nextSample = (.error e, a') ∧ Fails a'.channel.storage) ∨
      ∃ answer a' c' rest', a.nextSample = (answer, a') ∧
        (a.withChannel c).nextSample = (answer, a'.withChannel c') ∧
        Twins Serves Serves' a' c' rest' ∧
        ∀ s, answer = .ok (some s) → a'.budget rest' < a.budget rest := by
  rcases returns_of_twins hlapses hfine h with ⟨n, e, a', hreturns, hn, hfails⟩ |
    ⟨n, answer, a', c', rest', hreturns, hother, hn, hlater, hless⟩
  · exact .inl ⟨e, a', nextSample_of_returns hlapses h.fed hreturns hn, hfails⟩
  · exact .inr ⟨answer, a', c', rest', nextSample_of_returns hlapses h.fed hreturns hn,
      nextSample_of_returns hfine h.fed' hother hn, hlater, hless⟩

/-- Limits above the budget play no part. -/
theorem collect_of_twins (hlapses : Lapses Fails Serves) (hfine : Lapses (fun _ => False) Serves')
    (h : Twins Serves Serves' a c rest) (earlier : List Sample) {limit limit' : Nat}
    (hlimit : a.budget rest < limit) (hlimit' : a.budget rest < limit') :
    (∃ e a', a.collect earlier limit = (.error e, a') ∧ Fails a'.channel.storage) ∨
      ∃ answer a' c' rest', a.collect earlier limit = (answer, a') ∧
        (a.withChannel c).collect earlier limit' = (answer, a'.withChannel c') ∧
        Twins Serves Serves' a' c' rest' := by
  induction limit generalizing a c rest earlier limit' with
  | zero => omega
  | succ limit ih =>
    obtain ⟨limit', rfl⟩ : ∃ k, limit' = k + 1 := ⟨limit' - 1, by omega⟩
    unfold collect
    rcases nextSample_of_twins hlapses hfine h with ⟨e, a', hnext, hfails⟩ |
      ⟨answer, a₁, c₁, rest₁, hnext, hother, hlater, hless⟩
    · rw [hnext]
      exact .inl ⟨e, a', rfl, hfails⟩
    · rw [hnext, hother]
      rcases answer with e | _ | s
      · exact .inr ⟨_, _, _, _, rfl, rfl, hlater⟩
      · exact .inr ⟨_, _, _, _, rfl, rfl, hlater⟩
      · have hbudget := hless s rfl
        cases hmarker : s.marker with
        | true =>
          simp only [hmarker, if_true]
          exact .inr ⟨_, _, _, _, rfl, rfl, hlater⟩
        | false =>
          simp only [hmarker, Bool.false_eq_true, if_false]
          exact ih hlater (s :: earlier) (by omega) (by omega)

theorem budget_lt_of_fed (hlapses : Lapses Fails Serves) (h : Fed Serves a rest) :
    a.budget rest < a.roundsLeft + 2 := by
  have hrounds := measure_le_roundsLeft hlapses h
  unfold budget
  split <;> omega

/-- **The access units of two readers are the same**, until the storage of the first one fails. -/
theorem next_of_twins (hlapses : Lapses Fails Serves) (hfine : Lapses (fun _ => False) Serves')
    (a : StreamReader σ) (c : Channel τ) (h : ∃ rest, Twins Serves Serves' a c rest) :
    (∃ a', a.next = ([], a') ∧ a'.intact = false ∧ Fails a'.channel.storage) ∨
      ∃ unit a' c', a.next = (unit, a') ∧ (a.withChannel c).next = (unit, a'.withChannel c') ∧
        ∃ rest', Twins Serves Serves' a' c' rest' := by
  obtain ⟨rest, h⟩ := h
  unfold next
  cases hintact : a.intact with
  | false =>
    simp only [show (a.withChannel c).intact = false from hintact, Bool.not_false, if_true]
    exact .inr ⟨_, _, _, rfl, rfl, rest, h⟩
  | true =>
    simp only [show (a.withChannel c).intact = true from hintact, Bool.not_true,
      Bool.false_eq_true, if_false]
    unfold readUnit
    have hlimit := budget_lt_of_fed hlapses h.fed
    have hlimit' : a.budget rest < (a.withChannel c).roundsLeft + 2 :=
      budget_lt_of_fed hfine h.fed'
    rcases collect_of_twins hlapses hfine h [] hlimit hlimit' with
      ⟨e, a', hcollect, hfails⟩ | ⟨answer, a', c', rest', hcollect, hother, hlater⟩
    · rw [hcollect]
      exact .inl ⟨_, rfl, rfl, hfails⟩
    · rw [hcollect, hother]
      rcases answer with e | _ | ⟨s, later⟩
      · exact .inr ⟨_, { a' with intact := false }, c', rfl, rfl, rest',
          ⟨hlater.fed.pending, hlater.fed.inputDone, hlater.fed.chunkSize⟩, hlater.pending⟩
      · exact .inr ⟨_, a', c', rfl, rfl, rest', hlater⟩
      · exact .inr ⟨_, a', c', rfl, rfl, rest', hlater⟩

end StreamReader

end AnnexB
