import Mathlib
import KetSim.Engine.State
import KetSim.Proofs.Exact

/-! # Parallel reductions

A parallel reduction may bracket a sum in any way; cutting the summands into halves
is one of them. In exact arithmetic every way comes to the sum from the left, so the
value of a product in a state does not depend on the device.
-/
namespace KetSim.Engine

variable {α : Type} [Scalar α]

/-- The sums that a parallel reduction may return: runs are summed from the left, and neighbouring
results are joined in any bracketing. -/
inductive Reduces : List (Cplx α) → Cplx α → Prop
  | run (xs : List (Cplx α)) : Reduces xs (Cplx.sum xs)
  | join {xs ys : List (Cplx α)} {a b : Cplx α} (left : Reduces xs a) (right : Reduces ys b) :
      Reduces (xs ++ ys) (a + b)

theorem Reduces.eq_sum {xs : List (Cplx ℝ)} {a : Cplx ℝ} (h : Reduces xs a) : a = Cplx.sum xs := by
  induction h with
  | run xs => rfl
  | join left right hl hr =>
    apply Cplx.toComplex_injective
    rw [Cplx.toComplex_add, hl, hr]
    simp

theorem reduces_forkJoin (depth : ℕ) (xs : List (Cplx α)) :
    Reduces xs (forkJoin Cplx.sum (· + ·) depth xs) := by
  induction depth generalizing xs with
  | zero => exact .run xs
  | succ depth ih =>
    rw [forkJoin]
    split
    · exact .run xs
    · have h := Reduces.join (ih (xs.take (xs.length / 2))) (ih (xs.drop (xs.length / 2)))
      rwa [List.take_append_drop] at h

theorem reduces_sumOn (device : Device) (xs : List (Cplx α)) : Reduces xs (sumOn device xs) := by
  cases device with
  | cpu => exact .run xs
  | gpu => exact reduces_forkJoin forks xs

theorem StateVector.pauliValue_real (s : StateVector ℝ) (m : Masks) :
    s.pauliValue m = Cplx.sum (s.pauliTerms m) :=
  (reduces_sumOn s.options.device (s.pauliTerms m)).eq_sum

end KetSim.Engine
