import Mathlib.Data.List.Basic
import Mathlib.Order.Nat
import Mathlib.Tactic.Common

/-!
# Equal blocks of a list

A flat list read as a matrix: `block size i` is its `i`-th row of the given size. The blocks of a block
are blocks of the list (`block_block`), and a list put together from blocks gives them back
(`block_flatMap`).
-/

namespace List

variable {α β : Type} {size n i h : ℕ} {l : List α}

/-- The elements from `i * size` up to `(i + 1) * size`. -/
def block (size i : ℕ) (l : List α) : List α := (l.drop (i * size)).take size

theorem map_block (f : α → β) : (l.block size i).map f = (l.map f).block size i := by
  unfold block
  rw [map_take, map_drop]

theorem length_block (hi : i < n) (hl : l.length = n * size) : (l.block size i).length = size := by
  unfold block
  rw [length_take, length_drop, hl, ← Nat.sub_mul]
  exact Nat.min_eq_left (Nat.le_mul_of_pos_left size (Nat.sub_pos_of_lt hi))

theorem getElem?_block {j : ℕ} (hj : j < size) : (l.block size i)[j]? = l[i * size + j]? := by
  unfold block
  rw [getElem?_take_of_lt hj, getElem?_drop]

/-- Block `h` of a block of `n` blocks. -/
theorem block_block (hh : h < n) :
    (l.block (n * size) i).block size h = l.block size (i * n + h) := by
  have hfit : size ≤ n * size - h * size := by
    rw [← Nat.sub_mul]
    exact Nat.le_mul_of_pos_left size (Nat.sub_pos_of_lt hh)
  unfold block
  rw [drop_take, drop_drop, take_take, Nat.min_eq_left hfit, Nat.add_mul, Nat.mul_assoc]

theorem flatMap_range_length {f : ℕ → List α} (hf : ∀ i < n, (f i).length = size) :
    ((range n).flatMap f).length = n * size := by
  induction n with
  | zero => rw [range_zero, flatMap_nil, length_nil, Nat.zero_mul]
  | succ n ih =>
    rw [range_succ, flatMap_append, flatMap_singleton, length_append,
      ih fun i hi => hf i (Nat.lt_succ_of_lt hi), hf n (Nat.lt_succ_self n), Nat.succ_mul]

/-- The blocks that a list is put together from. -/
theorem block_flatMap {f : ℕ → List α} (hf : ∀ i < n, (f i).length = size) (hi : i < n) :
    ((range n).flatMap f).block size i = f i := by
  induction n with
  | zero => exact absurd hi (Nat.not_lt_zero i)
  | succ n ih =>
    have hfront := flatMap_range_length fun i hi => hf i (Nat.lt_succ_of_lt hi)
    rw [range_succ, flatMap_append, flatMap_singleton]
    unfold block at ih ⊢
    cases Nat.lt_or_ge i n with
    | inl hlt =>
      have hle : i * size ≤ n * size := Nat.mul_le_mul_right size hlt.le
      have hfit : size ≤ (drop (i * size) ((range n).flatMap f)).length := by
        rw [length_drop, hfront, ← Nat.sub_mul]
        exact Nat.le_mul_of_pos_left size (Nat.sub_pos_of_lt hlt)
      rw [drop_append_of_le_length (hle.trans_eq hfront.symm), take_append_of_le_length hfit]
      exact ih (fun i hi => hf i (Nat.lt_succ_of_lt hi)) hlt
    | inr hge =>
      obtain rfl := Nat.le_antisymm hge (Nat.le_of_lt_succ hi)
      rw [drop_left' hfront]
      exact take_of_length_le (hf n hi).le

end List
