/-
# Passes that the counter of passes does not hold

A cursor counts in 64 bits what it serves, and in 32 bits how often it goes back to the first access
unit.  `ReplayCursor.returns` counts the latter without a bound.

| replay | returns behind `k` access units, `n` a pass | as counted |
| --- | --- | --- |
| ends | at most the passes behind the first one, a number of 32 bits | the same |
| without end | `k / n` | the remainder modulo `2 ^ 32` |

A call adds to the counters in their width (`advance_counts`), and so does any number of calls
(`counts_advanced`).  A replay that ends goes back after a comparison with its number of passes, which
keeps the addition in its width.  One without end goes back without a comparison.

A program that checks its sums makes the same calls up to the first sum that leaves its width, and
faults there (`advancedChecked_eq`).
-/

import Mathlib.Data.Nat.Count
import AnnexB.Proofs.Passes

namespace AnnexB

namespace ReplayCursor

variable {r : Replay} {n k : Nat}

/-- The cursor after `k` calls. -/
def advanced (r : Replay) (n k : Nat) : ReplayCursor := advance^[k] (start r n)

/-- The cursor after `k` calls that check their sums. -/
def advancedChecked (r : Replay) (n : Nat) : Nat → Except Halt ReplayCursor
  | 0 => .ok (start r n)
  | k + 1 => (advancedChecked r n k).bind advanceChecked

/-- How many of `k` calls go back to the first access unit. -/
def returns (r : Replay) (n k : Nat) : Nat :=
  Nat.count (fun i => (advanced r n (i + 1)).position = 0) k

/-- Each of `k` calls is made with an access unit to be served. -/
def Live (r : Replay) (n k : Nat) : Prop := ∀ i < k, (advanced r n i).atEnd = false

theorem advanced_zero : advanced r n 0 = start r n := rfl

theorem advanced_succ : advanced r n (k + 1) = (advanced r n k).advance :=
  Function.iterate_succ_apply' ..

theorem returns_zero : returns r n 0 = 0 := Nat.count_zero _

theorem returns_succ : returns r n (k + 1) =
    returns r n k + if (advanced r n (k + 1)).position = 0 then 1 else 0 := Nat.count_succ ..

/-- What a call adds to the counters. -/
theorem advance_counts (c : ReplayCursor) :
    c.advance.served = c.served + 1 ∧
      c.advance.completedPasses =
        c.completedPasses + if c.advance.position = 0 then 1 else 0 := by
  unfold advance
  simp only
  split
  · simp
  · split <;> simp

/-- A call that ends the passes does not go back. -/
theorem position_advance_ne_zero {c : ReplayCursor} (hlive : c.atEnd = false)
    (hend : c.advance.atEnd = true) : c.advance.position ≠ 0 := by
  unfold advance at hend ⊢
  simp only at hend ⊢
  split at hend
  · simp [hlive] at hend
  · split at hend
    · simp [hlive] at hend
    · simp [*]

/-- **Any number of calls counts in the width of the counters.** -/
theorem counts_advanced (r : Replay) (n k : Nat) :
    (advanced r n k).served = UInt64.ofNat k ∧
      (advanced r n k).completedPasses = UInt32.ofNat (returns r n k) := by
  induction k with
  | zero =>
    rw [advanced_zero, returns_zero]
    exact ⟨rfl, rfl⟩
  | succ k ih =>
    obtain ⟨hserved, hpasses⟩ := advance_counts (advanced r n k)
    rw [← advanced_succ] at hserved hpasses
    constructor
    · rw [hserved, ih.1, UInt64.ofNat_add]
      rfl
    · rw [hpasses, ih.2, returns_succ, UInt32.ofNat_add]
      split <;> rfl

/-! ### Calls that check their sums -/

/-- The sums of a call stay in their width. -/
def SumsFit (c : ReplayCursor) : Prop :=
  c.served.toNat + 1 < 2 ^ 64 ∧
    (c.advance.position = 0 → c.completedPasses.toNat + 1 < 2 ^ 32)

/-- The sum that counts the access units served. -/
theorem checked_served (c : ReplayCursor) :
    Halt.checked (fun word : UInt64 => (word.toNat : Int)) (c.served + 1) (c.served.toNat + 1) =
      if c.served.toNat + 1 < 2 ^ 64 then .ok (c.served + 1) else .error .fault := by
  refine Halt.checked_of_iff ?_
  have hword := c.served.toNat_lt
  have hone : (1 : UInt64).toNat = 1 := rfl
  rw [UInt64.toNat_add]
  omega

/-- The sum that counts the passes. -/
theorem checked_completedPasses (c : ReplayCursor) :
    Halt.checked (fun word : UInt32 => (word.toNat : Int)) (c.completedPasses + 1)
        (c.completedPasses.toNat + 1) =
      if c.completedPasses.toNat + 1 < 2 ^ 32 then .ok (c.completedPasses + 1)
      else .error .fault := by
  refine Halt.checked_of_iff ?_
  have hword := c.completedPasses.toNat_lt
  have hone : (1 : UInt32).toNat = 1 := rfl
  rw [UInt32.toNat_add]
  omega

instance (c : ReplayCursor) : Decidable c.SumsFit := inferInstanceAs (Decidable (_ ∧ _))

/-- **A call that checks its sums** is the call, if they stay in their width, and else a fault. -/
theorem advanceChecked_eq (c : ReplayCursor) :
    c.advanceChecked = if c.SumsFit then .ok c.advance else .error .fault := by
  rw [advanceChecked, checked_served]
  by_cases hserved : c.served.toNat + 1 < 2 ^ 64
  swap
  · rw [if_neg hserved, if_neg fun h => hserved h.1]
    rfl
  rw [if_pos hserved]
  simp only [SumsFit, hserved, true_and, bind, Except.bind, pure, Except.pure,
    checked_completedPasses]
  -- the cases of `advance`, of which only the return to the first access unit has another sum
  unfold advance
  simp only
  split
  · simp
  · split
    · by_cases hpasses : c.completedPasses.toNat + 1 < 2 ^ 32
      · rw [if_pos hpasses, if_pos fun _ => hpasses]
      · rw [if_neg hpasses, if_neg fun h => hpasses (h rfl)]
    · simp

/-- Calls that check their sums are the calls, as long as all sums stay in their width. -/
theorem advancedChecked_eq (r : Replay) (n k : Nat) :
    advancedChecked r n k =
      if ∀ i < k, (advanced r n i).SumsFit then .ok (advanced r n k) else .error .fault := by
  induction k with
  | zero => rw [if_pos nofun]; rfl
  | succ k ih =>
    have hall : (∀ i < k + 1, (advanced r n i).SumsFit) ↔
        (∀ i < k, (advanced r n i).SumsFit) ∧ (advanced r n k).SumsFit := Nat.forall_lt_succ_right
    rw [advancedChecked, ih, advanced_succ]
    by_cases hbefore : ∀ i < k, (advanced r n i).SumsFit
    · rw [if_pos hbefore]
      refine (advanceChecked_eq _).trans (if_congr ?_ rfl rfl)
      rw [hall, and_iff_right hbefore]
    · rw [if_neg hbefore, if_neg fun h => hbefore (hall.1 h).1]
      rfl

/-! ### Calls with an access unit to be served -/

/-- A call made with an access unit to be served is made behind those before it. -/
theorem Live.behind (h : Live r n k) {i : Nat} (hi : i < k) :
    0 < n ∧ r.Includes n i ∧ advanced r n i = behind r n i := by
  induction i with
  | zero =>
    have hn : 0 < n := Nat.pos_of_ne_zero fun hzero => by
      simpa [advanced_zero, start, hzero] using h 0 hi
    exact ⟨hn, Replay.includes_zero hn, advanced_zero.trans (start_eq_behind hn)⟩
  | succ i ih =>
    obtain ⟨hn, hincludes, hbehind⟩ := ih (Nat.lt_of_succ_lt hi)
    have hstep := advance_behind hn hincludes
    rw [← hbehind, ← advanced_succ, h (i + 1) hi] at hstep
    by_cases hlater : r.Includes n (i + 1)
    · rw [if_pos hlater] at hstep
      exact ⟨hn, hlater, hstep⟩
    · simp [hlater] at hstep

/-- The passes of a replay without end do not end. -/
theorem advanced_of_isEndless (hendless : r.isEndless = true) (hn : 0 < n) (k : Nat) :
    advanced r n k = ReplayCursor.behind r n k := by
  have hall : ∀ i, r.Includes n i := fun i => (Replay.includes_iff hn).2 (.inl hendless)
  induction k with
  | zero => exact advanced_zero.trans (start_eq_behind hn)
  | succ k ih =>
    have hstep := advance_behind hn (hall k)
    rw [if_pos (hall (k + 1))] at hstep
    rw [advanced_succ, ih, hstep]

theorem live_of_isEndless (hendless : r.isEndless = true) (hn : 0 < n) (k : Nat) : Live r n k := by
  intro i _
  rw [advanced_of_isEndless hendless hn, ReplayCursor.behind]

/-- Behind `k` access units, where another one comes, as many passes were completed as fit into
`k`. -/
theorem returns_of_behind (h : ∀ i ≤ k, advanced r n i = ReplayCursor.behind r n i) :
    returns r n k = k / n := by
  induction k with
  | zero => rw [returns_zero, Nat.zero_div]
  | succ k ih =>
    have hposition : (advanced r n (k + 1)).position = (k + 1) % n := by rw [h (k + 1) le_rfl]; rfl
    rw [returns_succ, ih fun i hi => h i (Nat.le_succ_of_le hi), hposition, Nat.succ_div]
    simp only [Nat.dvd_iff_mod_eq_zero]

theorem returns_of_isEndless (hendless : r.isEndless = true) (h : Live r n k) :
    returns r n k = k / n := by
  rcases Nat.eq_zero_or_pos k with rfl | hk
  · rw [returns_zero, Nat.zero_div]
  · have hn := (h.behind hk).1
    exact returns_of_behind fun i _ => advanced_of_isEndless hendless hn i

/-- The returns of a replay that ends are among the passes behind the first one. -/
theorem Live.returns_le (h : Live r n k) (hends : r.isEndless = false) :
    returns r n k ≤ r.again := by
  have hpasses : ∀ {i}, 0 < n → r.Includes n i → i / n ≤ r.again := fun hn hi =>
    ((Replay.includes_iff hn).1 hi).resolve_left (by simp [hends])
  cases k with
  | zero =>
    rw [returns_zero]
    exact Nat.zero_le _
  | succ k =>
    obtain ⟨hn, hincludes, hbehind⟩ := h.behind (Nat.lt_succ_self k)
    have hbefore : ∀ i ≤ k, advanced r n i = ReplayCursor.behind r n i := fun i hi =>
      (h.behind (Nat.lt_succ_of_le hi)).2.2
    have hstep := advance_behind hn hincludes
    rw [← hbehind, ← advanced_succ] at hstep
    by_cases hlater : r.Includes n (k + 1)
    · rw [if_pos hlater] at hstep
      rw [returns_of_behind fun i hi =>
        (Nat.le_succ_iff.1 hi).elim (hbefore i) fun heq => heq ▸ hstep]
      exact hpasses hn hlater
    · rw [if_neg hlater, advanced_succ] at hstep
      have hposition := position_advance_ne_zero (h k (Nat.lt_succ_self k)) hstep
      rw [returns_succ, advanced_succ, if_neg hposition, returns_of_behind hbefore]
      exact hpasses hn hincludes

/-! ### What the counter of passes holds -/

theorem toNat_completedPasses (r : Replay) (n k : Nat) :
    (advanced r n k).completedPasses.toNat = returns r n k % 2 ^ 32 := by
  rw [(counts_advanced r n k).2, UInt32.toNat_ofNat']

/-- The additions to the counter of passes stay in its width as long as it holds all returns. -/
theorem additions_fit_iff : (∀ i < k, (advanced r n (i + 1)).position = 0 →
    (advanced r n i).completedPasses.toNat + 1 < 2 ^ 32) ↔ returns r n k < 2 ^ 32 := by
  induction k with
  | zero =>
    rw [returns_zero]
    exact iff_of_true nofun (by decide)
  | succ k ih =>
    rw [Nat.forall_lt_succ_right, ih, toNat_completedPasses, returns_succ]
    split
    · constructor
      · rintro ⟨hbefore, hlast⟩
        have := hlast ‹_›
        omega
      · intro hall
        exact ⟨by omega, fun _ => by omega⟩
    · constructor
      · rintro ⟨hbefore, -⟩
        exact hbefore
      · intro hall
        exact ⟨hall, fun hreturn => absurd hreturn ‹_›⟩

theorem again_lt (r : Replay) : r.again < 2 ^ 32 := by
  unfold Replay.again
  split
  · exact r.count.toNat_lt
  · decide

/-- The returns of a replay without end are as many as whole passes fit into the calls. -/
theorem Live.returns_lt_iff (h : Live r n k) :
    returns r n k < 2 ^ 32 ↔ r.isEndless = false ∨ k / n < 2 ^ 32 := by
  cases hendless : r.isEndless with
  | false => exact iff_of_true ((h.returns_le hendless).trans_lt (again_lt r)) (.inl rfl)
  | true => simp [returns_of_isEndless hendless h]

/-- **The counter of passes is exact if and only if the replay ends, or does not go on for too long.**
Let `k` calls, fewer than `2 ^ 64`, be made, each with an access unit to be served.

* The count of access units served is exact, and no addition to it or to the position exceeds what
  these hold.
* The returns to the first access unit are at most the passes behind the first one, for a replay that
  ends, and `k / n` for one without end.  The counter of passes has them modulo `2 ^ 32`.
* So it has them all if and only if the replay ends or `k / n` is below `2 ^ 32`.  The same holds for
  each addition to the counter to stay in its width, and so for calls that check their sums not to
  fault. -/
theorem completedPasses_exact_iff (h : Live r n k) (hk : k < 2 ^ 64) :
    let fits := r.isEndless = false ∨ k / n < 2 ^ 32
    (advanced r n k).served.toNat = k ∧
      (∀ i < k, (advanced r n i).served.toNat + 1 < 2 ^ 64 ∧ (advanced r n i).position + 1 ≤ n) ∧
      (if r.isEndless then returns r n k = k / n else returns r n k ≤ r.again) ∧
      (advanced r n k).completedPasses.toNat = returns r n k % 2 ^ 32 ∧
      ((advanced r n k).completedPasses.toNat = returns r n k ↔ fits) ∧
      ((∀ i < k, (advanced r n (i + 1)).position = 0 →
        (advanced r n i).completedPasses.toNat + 1 < 2 ^ 32) ↔ fits) ∧
      advancedChecked r n k = if fits then .ok (advanced r n k) else .error .fault := by
  intro fits
  have hserved : ∀ i ≤ k, (advanced r n i).served.toNat = i := fun i hi => by
    rw [(counts_advanced r n i).1, UInt64.toNat_ofNat', Nat.mod_eq_of_lt (hi.trans_lt hk)]
  have hsums : ∀ i < k, (advanced r n i).served.toNat + 1 < 2 ^ 64 := fun i hi => by
    rw [hserved i hi.le]
    omega
  have hadditions := additions_fit_iff.trans h.returns_lt_iff
  refine ⟨hserved k le_rfl, ?_, ?_, toNat_completedPasses r n k, ?_, hadditions, ?_⟩
  · intro i hi
    obtain ⟨hn, -, hbehind⟩ := h.behind hi
    refine ⟨hsums i hi, ?_⟩
    rw [hbehind]
    exact Nat.mod_lt i hn
  · split
    · exact returns_of_isEndless ‹_› h
    · exact h.returns_le (Bool.eq_false_of_not_eq_true ‹_›)
  · rw [toNat_completedPasses, Nat.mod_eq_iff_lt (by decide)]
    exact h.returns_lt_iff
  · refine (advancedChecked_eq r n k).trans (if_congr (Iff.trans ?_ hadditions) rfl rfl)
    simp only [advanced_succ]
    exact ⟨fun hall i hi => (hall i hi).2, fun hall i hi => ⟨hsums i hi, hall i hi⟩⟩

/-- One access unit, played without end: with the return number `2 ^ 32` the counter is 0 again, or the
program faults. -/
theorem completedPasses_exact_iff_wrapped :
    let r := Replay.repeating 0
    Live r 1 (2 ^ 32) ∧ 2 ^ 32 < 2 ^ 64 ∧ returns r 1 (2 ^ 32) = 2 ^ 32 ∧
      (advanced r 1 (2 ^ 32)).completedPasses.toNat = 0 ∧
      (¬∀ i < 2 ^ 32, (advanced r 1 (i + 1)).position = 0 →
        (advanced r 1 i).completedPasses.toNat + 1 < 2 ^ 32) ∧
      advancedChecked r 1 (2 ^ 32) = .error .fault := by
  intro r
  have hlive : Live r 1 (2 ^ 32) := live_of_isEndless rfl Nat.one_pos _
  obtain ⟨-, -, hreturns, hcounted, -, hadditions, hchecked⟩ :=
    completedPasses_exact_iff hlive (by decide)
  rw [if_pos (show r.isEndless = true from rfl), Nat.div_one] at hreturns
  have hwide : ¬(r.isEndless = false ∨ 2 ^ 32 / 1 < 2 ^ 32) := by decide
  refine ⟨hlive, by decide, hreturns, ?_, mt hadditions.1 hwide, hchecked.trans (if_neg hwide)⟩
  rw [hcounted, hreturns, Nat.mod_self]

end ReplayCursor

end AnnexB
