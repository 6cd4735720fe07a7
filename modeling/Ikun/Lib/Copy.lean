import Mathlib.Logic.Function.Basic
import Mathlib.Data.List.Nodup

/-!
# Lists of copies

A list of pairs (source, destination), executed from left to right: every copy reads the source
memory, which the copies do not change, and writes the destination memory. If no destination occurs
twice, the order does not matter: every destination ends up with its own source.
-/

/-- Copies `src i` to destination `j`, for every pair `(i, j)` in order. -/
def copyAll {ι ι' κ : Type} [DecidableEq ι'] (pairs : List (ι × ι')) (src : ι → κ) (dst : ι' → κ) :
    ι' → κ :=
  pairs.foldl (fun d p => Function.update d p.2 (src p.1)) dst

section copyAll

variable {ι ι' κ : Type} [DecidableEq ι'] {src : ι → κ} {dst : ι' → κ} {pairs : List (ι × ι')}

/-- What is no destination is left as it was. -/
theorem copyAll_of_notMem {j : ι'} (h : j ∉ pairs.map Prod.snd) : copyAll pairs src dst j = dst j := by
  induction pairs generalizing dst with
  | nil => rfl
  | cons p ps ih =>
    simp only [List.map_cons, List.mem_cons, not_or] at h
    show copyAll ps src _ j = dst j
    rw [ih h.2]
    exact Function.update_of_ne h.1 _ _

/-- Every destination receives its source. -/
theorem copyAll_of_mem (hn : (pairs.map Prod.snd).Nodup) {i : ι} {j : ι'} (h : (i, j) ∈ pairs) :
    copyAll pairs src dst j = src i := by
  induction pairs generalizing dst with
  | nil => exact absurd h List.not_mem_nil
  | cons p ps ih =>
    rw [List.map_cons, List.nodup_cons] at hn
    show copyAll ps src _ j = src i
    rcases List.mem_cons.mp h with rfl | h
    · rw [copyAll_of_notMem hn.1]
      exact Function.update_self _ _ _
    · exact ih hn.2 h

end copyAll
