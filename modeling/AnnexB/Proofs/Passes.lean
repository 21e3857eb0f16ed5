/-
# Counting through the passes of a source

The access units that a source hands out are counted through, over all its passes, from 0 on:
number `k` of a source with `n` of them is number `k % n` of pass `k / n`.  `Replay.Includes` says
which numbers there are.

`ReplayCursor.behind` is the cursor behind `k` of them in closed form.  To advance it is to go from
`k` to `k + 1`, or to end (`advance_behind`).

So a source that stands behind `k` access units after `k` calls does so until all passes are over, and
nothing comes of it from there on (`after_of_passes`).
-/

import AnnexB.Proofs.Sources

namespace AnnexB

namespace Replay

variable {r : Replay} {n k : Nat}

/-- The number of access units in all passes over `n`, or none if there is no end. -/
def total (r : Replay) (n : Nat) : Option Nat :=
  if r.enabled then if r.count = 0 then none else some (n * (r.count.toNat + 1))
  else some n

/-- Access unit `k` is one of those in all passes over `n`. -/
def Includes (r : Replay) (n k : Nat) : Prop := ∀ t ∈ r.total n, k < t

instance : Decidable (r.Includes n k) := inferInstanceAs (Decidable (∀ t ∈ r.total n, k < t))

/-- The number of passes behind the first one. -/
def again (r : Replay) : Nat := if r.enabled then r.count.toNat else 0

theorem includes_iff (hn : 0 < n) :
    r.Includes n k ↔ r.isEndless = true ∨ k / n ≤ r.again := by
  unfold Includes total isEndless again
  rcases r.enabled with _ | _
  · simp [Nat.div_eq_zero_iff_lt hn]
  · by_cases hcount : r.count = 0
    · simp [hcount]
    · simp [hcount, ← Nat.lt_succ_iff, Nat.div_lt_iff_lt_mul hn, Nat.mul_comm n]

theorem includes_zero (hn : 0 < n) : r.Includes n 0 := by
  rw [includes_iff hn, Nat.zero_div]
  exact .inr (Nat.zero_le _)

theorem Includes.of_succ (h : r.Includes n (k + 1)) : r.Includes n k :=
  fun t ht => Nat.lt_of_succ_lt (h t ht)

end Replay

namespace ReplayCursor

variable {r : Replay} {n k : Nat}

/-- The cursor behind `k` access units, where another one comes. -/
def behind (replay : Replay) (n k : Nat) : ReplayCursor :=
  { replay, length := n, position := k % n, completedPasses := UInt32.ofNat (k / n)
    served := UInt64.ofNat k, atEnd := false }

theorem start_eq_behind (hn : 0 < n) : start r n = behind r n 0 := by
  rw [start, behind, Nat.zero_mod, Nat.zero_div, beq_false_of_ne (Nat.ne_of_gt hn)]
  rfl

/-- At the end of a pass that is played, another pass comes unless it was the last one.  The
completed passes are compared in 32 bits, in which a finite number of them fits. -/
theorem plays_again_iff (hn : 0 < n) (hk : r.Includes n k) (hlast : (k + 1) / n = k / n + 1) :
    (r.isEndless || r.enabled && decide (UInt32.ofNat (k / n) < r.count)) = true ↔
      r.Includes n (k + 1) := by
  rw [Replay.includes_iff hn] at hk ⊢
  rw [Bool.or_eq_true, hlast]
  refine or_congr_right' fun hendless => ?_
  have hpass := hk.resolve_left hendless
  unfold Replay.again at hpass ⊢
  cases henabled : r.enabled with
  | false => simp
  | true =>
    rw [henabled, if_pos rfl] at hpass
    rw [if_pos rfl]
    have hlt := r.count.toNat_lt
    rw [Bool.true_and, decide_eq_true_iff, UInt32.lt_iff_toNat_lt,
      UInt32.toNat_ofNat_of_lt' (by rw [UInt32.size]; omega)]
    exact Nat.lt_iff_add_one_le

/-- **One more access unit:** the cursor stands behind it, or it was the last of all passes. -/
theorem advance_behind (hn : 0 < n) (hk : r.Includes n k) :
    if r.Includes n (k + 1) then (behind r n k).advance = behind r n (k + 1)
    else (behind r n k).advance.atEnd = true := by
  have hmod := Nat.mod_lt k hn
  have hdiv := Nat.div_add_mod k n
  have hserved : UInt64.ofNat k + 1 = UInt64.ofNat (k + 1) := (UInt64.ofNat_add k 1).symm
  unfold advance behind
  simp only
  by_cases hnext : k % n + 1 < n
  · -- inside of a pass
    obtain ⟨hpass, hposition⟩ := (Nat.div_mod_unique hn).2
      ⟨show k % n + 1 + n * (k / n) = k + 1 by omega, hnext⟩
    have hlater : r.Includes n (k + 1) := by
      rwa [Replay.includes_iff hn, hpass, ← Replay.includes_iff hn]
    rw [if_pos hlater, if_pos hnext, hpass, hposition, hserved]
  · -- at the end of a pass
    obtain ⟨hpass, hposition⟩ := (Nat.div_mod_unique hn).2
      ⟨show 0 + n * (k / n + 1) = k + 1 by rw [Nat.mul_add]; omega, hn⟩
    have hagain := plays_again_iff hn hk hpass
    rw [if_neg hnext]
    by_cases hlater : r.Includes n (k + 1)
    · rw [if_pos hlater, if_pos (hagain.2 hlater), hpass, hposition, hserved, UInt32.ofNat_add]
      rfl
    · rw [if_neg hlater, if_neg (mt hagain.1 hlater)]

end ReplayCursor

/-- **From call to call through the passes.**  If each call leads from behind `k` access units behind
`k + 1` of them, or to the end behind the last of all passes, any number of calls leads from the first
access unit behind as many, or to the end. -/
theorem MediaSource.after_of_passes {α : Type} [MediaSource α] {r : Replay} {n : Nat} (hn : 0 < n)
    {Behind : α → Nat → Prop}
    (hstep : ∀ s k, Behind s k → r.Includes n k →
      if r.Includes n (k + 1) then Behind (next s).2 (k + 1) else Spent (next s).2)
    {s : α} (h : Behind s 0) (k : Nat) :
    if r.Includes n k then Behind (after s k) k else Spent (after s k) := by
  induction k with
  | zero =>
    rw [if_pos (Replay.includes_zero hn)]
    exact h
  | succ k ih =>
    rw [after_succ]
    by_cases hk : r.Includes n k
    · rw [if_pos hk] at ih
      exact hstep _ k ih hk
    · rw [if_neg hk] at ih
      rw [if_neg fun hlater => hk hlater.of_succ, ih.next]
      exact ih

end AnnexB
