/-
# Requests in a row

A request is a step of a state monad, and requests in a row are `mapM` of that step: a list of
answers, and a state.  A state is refined by another one as long as each request is answered alike by
both, and keeps them related; then requests in a row are answered alike (`run_mapM_of_rel`).

One request made again and again is `again`, and its answers can be cut anywhere (`run_again_add`).
-/

import Mathlib.Data.List.Basic

namespace AnnexB

variable {ι σ τ α : Type}

theorem run_mapM_cons (step : ι → StateM σ α) (op : ι) (ops : List ι) (s : σ) :
    ((op :: ops).mapM step).run s =
      ((step op s).1 :: ((ops.mapM step).run (step op s).2).1,
        ((ops.mapM step).run (step op s).2).2) := by
  rw [List.mapM_cons]
  rfl

/-- **What one request keeps of two states, requests in a row keep**, and they are answered alike. -/
theorem run_mapM_of_rel {step : ι → StateM σ α} {spec : ι → StateM τ α} {R : σ → τ → Prop}
    {ops : List ι}
    (hstep : ∀ op ∈ ops, ∀ s t, R s t →
      (step op s).1 = (spec op t).1 ∧ R (step op s).2 (spec op t).2)
    {s : σ} {t : τ} (h : R s t) :
    ((ops.mapM step).run s).1 = ((ops.mapM spec).run t).1 ∧
      R ((ops.mapM step).run s).2 ((ops.mapM spec).run t).2 := by
  induction ops generalizing s t with
  | nil => exact ⟨rfl, h⟩
  | cons op ops ih =>
    obtain ⟨hanswer, hkept⟩ := hstep op (List.mem_cons_self ..) s t h
    obtain ⟨hanswers, hrun⟩ := ih (fun op' hop => hstep op' (List.mem_cons_of_mem _ hop)) hkept
    rw [run_mapM_cons, run_mapM_cons]
    exact ⟨congrArg₂ List.cons hanswer hanswers, hrun⟩

/-- What one request keeps of a state, requests in a row keep. -/
theorem run_mapM_of_inv {step : ι → StateM σ α} {I : σ → Prop}
    (hstep : ∀ op s, I s → I (step op s).2) (ops : List ι) {s : σ} (h : I s) :
    I ((ops.mapM step).run s).2 := by
  induction ops generalizing s with
  | nil => exact h
  | cons op ops ih =>
    rw [run_mapM_cons]
    exact ih (hstep op s h)

/-- The same step, `n` times. -/
def again (step : StateM σ α) (n : Nat) : StateM σ (List α) :=
  (List.replicate n ()).mapM fun _ => step

variable {step : StateM σ α}

@[simp] theorem run_again_zero (s : σ) : (again step 0).run s = ([], s) := rfl

theorem run_again_succ (n : Nat) (s : σ) :
    (again step (n + 1)).run s =
      ((step s).1 :: ((again step n).run (step s).2).1, ((again step n).run (step s).2).2) :=
  run_mapM_cons (fun _ => step) () (List.replicate n ()) s

theorem length_run_again (n : Nat) (s : σ) : ((again step n).run s).1.length = n := by
  induction n generalizing s with
  | zero => rfl
  | succ n ih => rw [run_again_succ, List.length_cons, ih]

/-- The first `m` answers, then the others. -/
theorem run_again_add (m n : Nat) (s : σ) :
    (again step (m + n)).run s =
      (((again step m).run s).1 ++ ((again step n).run ((again step m).run s).2).1,
        ((again step n).run ((again step m).run s).2).2) := by
  induction m generalizing s with
  | zero => rw [Nat.zero_add]; rfl
  | succ m ih => rw [Nat.succ_add, run_again_succ, run_again_succ, ih, List.cons_append]

end AnnexB
