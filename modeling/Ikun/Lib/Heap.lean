import Mathlib.Order.Lattice
import Mathlib.Data.List.Basic
import Mathlib.Order.Defs.LinearOrder
import Mathlib.Data.List.MinMax

/-!
# Priority queues

A heap as the multiset of its elements: `heappop` takes a least element out. What the array layout
of a binary heap decides besides (which of two equal elements comes first) cannot be observed when
elements that compare equal are equal.
-/

section heap

variable {α : Type} [LinearOrder α]

/-- The least element of the heap, and the heap without it. -/
def heappop (heap : List α) : Option (α × List α) :=
  heap.min?.map fun x => (x, heap.erase x)

theorem heappop_eq_some_iff {heap rest : List α} {x : α} :
    heappop heap = some (x, rest) ↔ x ∈ heap ∧ (∀ y ∈ heap, x ≤ y) ∧ rest = heap.erase x := by
  unfold heappop
  rw [Option.map_eq_some_iff]
  constructor
  · rintro ⟨m, hm, he⟩
    obtain ⟨rfl, rfl⟩ := Prod.mk.inj he
    obtain ⟨hmem, hle⟩ := List.min?_eq_some_iff.mp hm
    exact ⟨hmem, hle, rfl⟩
  · rintro ⟨hmem, hle, rfl⟩
    exact ⟨x, List.min?_eq_some_iff.mpr ⟨hmem, hle⟩, rfl⟩

theorem heappop_mem {heap rest : List α} {x : α} (h : heappop heap = some (x, rest)) : x ∈ heap :=
  (heappop_eq_some_iff.mp h).1

theorem heappop_rest {heap rest : List α} {x : α} (h : heappop heap = some (x, rest)) :
    rest = heap.erase x :=
  (heappop_eq_some_iff.mp h).2.2

theorem heappop_length {heap rest : List α} {x : α} (h : heappop heap = some (x, rest)) :
    rest.length + 1 = heap.length := by
  rw [heappop_rest h, List.length_erase_of_mem (heappop_mem h)]
  exact Nat.sub_add_cancel (List.length_pos_of_mem (heappop_mem h))

theorem heappop_eq_none_iff {heap : List α} : heappop heap = none ↔ heap = [] := by
  unfold heappop
  rw [Option.map_eq_none_iff, List.min?_eq_none_iff]

/-- What is in the heap and is not popped stays. -/
theorem mem_of_heappop {heap rest : List α} {x y : α} (h : heappop heap = some (x, rest))
    (hy : y ∈ heap) (hne : y ≠ x) : y ∈ rest := by
  rw [heappop_rest h]
  exact (List.mem_erase_of_ne hne).mpr hy

end heap
