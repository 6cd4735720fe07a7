import Mathlib.Algebra.BigOperators.Intervals
import Mathlib.Algebra.BigOperators.Ring.Finset
import Mathlib.Tactic.Ring

/-!
# Forward substitution

A strictly lower triangular matrix `A` defines a system `u = w + A u`, which determines the entries
of `u` one after the other. `T` is the matrix with `(1 - A)⁻¹ = 1 + T`; it satisfies
`T = A + A T`, and the solution of the system is `w + T w`.
-/

namespace Triangular

open Finset

variable {F : Type} [CommRing F]

/-- `T = A + A T`, for strictly lower triangular matrices of size `n`. -/
structure IsResolvent (n : ℕ) (A T : ℕ → ℕ → F) : Prop where
  strict : ∀ i j, i < n → i ≤ j → T i j = 0
  lower : ∀ i j, i < n → j < i → T i j = A i j + ∑ m ∈ range i, A i m * T m j

/-- A row of the resolvent only sees the entries in front of it. -/
theorem IsResolvent.sum_eq {n : ℕ} {A T : ℕ → ℕ → F} (h : IsResolvent n A T) (w : ℕ → F) {i k : ℕ}
    (hi : i < n) (hik : i ≤ k) : ∑ j ∈ range k, T i j * w j = ∑ j ∈ range i, T i j * w j := by
  symm
  refine Finset.sum_subset (Finset.range_mono hik) fun j _ hj => ?_
  rw [h.strict i j hi (by simpa using hj), zero_mul]

/-- `w + T w` solves `u = w + A u`. -/
theorem IsResolvent.solves {n : ℕ} {A T : ℕ → ℕ → F} (h : IsResolvent n A T) (w : ℕ → F) {i : ℕ}
    (hi : i < n) :
    w i + ∑ j ∈ range i, T i j * w j
      = w i + ∑ m ∈ range i, A i m * (w m + ∑ j ∈ range m, T m j * w j) := by
  congr 1
  calc ∑ j ∈ range i, T i j * w j
      = ∑ j ∈ range i, (A i j * w j + ∑ m ∈ range i, A i m * (T m j * w j)) := by
        refine Finset.sum_congr rfl fun j hj => ?_
        rw [h.lower i j hi (Finset.mem_range.mp hj), add_mul, Finset.sum_mul]
        simp only [mul_assoc]
    _ = ∑ m ∈ range i, A i m * w m + ∑ m ∈ range i, A i m * ∑ j ∈ range i, T m j * w j := by
        rw [Finset.sum_add_distrib, Finset.sum_comm]
        simp only [Finset.mul_sum]
    _ = ∑ m ∈ range i, A i m * (w m + ∑ j ∈ range m, T m j * w j) := by
        rw [← Finset.sum_add_distrib]
        refine Finset.sum_congr rfl fun m hm => ?_
        have hlt := Finset.mem_range.mp hm
        rw [h.sum_eq w (hlt.trans hi) hlt.le, mul_add]

end Triangular
