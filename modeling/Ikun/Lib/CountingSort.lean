import Mathlib.Algebra.Ring.Nat
import Mathlib.Data.Fintype.EquivFin
import Mathlib.Data.List.FinRange
import Mathlib.Tactic.Common

/-!
# Counting sort

Indices are sorted by their keys by giving each of them a place among those of its key. The places
of a key start at its `offset`, the number of smaller keys. A `Placement` that gives no place twice
is a permutation (`Placement.exists_perm`) that lists the keys in order
(`Placement.sorted_eq`).
-/

namespace CountingSort

variable (keys : List ℕ)

/-- The number of keys below `k`. -/
def offset (k : ℕ) : ℕ := keys.countP (· < k)

@[simp] theorem offset_zero : offset keys 0 = 0 := by
  simp [offset]

theorem offset_succ (k : ℕ) : offset keys (k + 1) = offset keys k + keys.count k := by
  induction keys with
  | nil => rfl
  | cons a keys ih =>
    simp only [offset, List.countP_cons, List.count_cons, decide_eq_true_eq, beq_iff_eq] at ih ⊢
    rw [ih]
    split_ifs <;> omega

theorem offset_mono {k k' : ℕ} (h : k ≤ k') : offset keys k ≤ offset keys k' :=
  List.countP_mono_left fun _ _ hlt => decide_eq_true ((of_decide_eq_true hlt).trans_le h)

theorem offset_le_length (k : ℕ) : offset keys k ≤ keys.length := List.countP_le_length

theorem sum_count_eq_offset (k : ℕ) : ((List.range k).map keys.count).sum = offset keys k := by
  induction k with
  | zero => simp
  | succ k ih => simp [List.range_succ, ih, offset_succ]

variable {keys}

theorem offset_eq_length {n : ℕ} (h : ∀ k ∈ keys, k < n) : offset keys n = keys.length :=
  List.countP_eq_length.mpr fun k hk => decide_eq_true (h k hk)

/-- Different keys have no place in common. -/
theorem eq_of_places {k k' p : ℕ} (h : offset keys k ≤ p) (h' : p < offset keys (k + 1))
    (hk : offset keys k' ≤ p) (hk' : p < offset keys (k' + 1)) : k = k' := by
  cases Nat.lt_trichotomy k k' with
  | inl hlt => exact absurd (h'.trans_le (offset_mono keys hlt)) (Nat.not_lt.mpr hk)
  | inr hge =>
    cases hge with
    | inl heq => exact heq
    | inr hgt => exact absurd (hk'.trans_le (offset_mono keys hgt)) (Nat.not_lt.mpr h)

/-- Every key as often as it occurs, in order. -/
def groups (keys : List ℕ) (n : ℕ) : List ℕ :=
  (List.range n).flatMap fun k => List.replicate (keys.count k) k

theorem length_groups (n : ℕ) : (groups keys n).length = offset keys n := by
  induction n with
  | zero => simp [groups]
  | succ n ih =>
    unfold groups at ih ⊢
    rw [List.range_succ, List.flatMap_append, List.length_append, ih, offset_succ]
    simp

theorem getElem?_groups {n k p : ℕ} (hk : k < n) (h : offset keys k ≤ p)
    (h' : p < offset keys (k + 1)) : (groups keys n)[p]? = some k := by
  induction n with
  | zero => exact absurd hk (Nat.not_lt_zero k)
  | succ n ih =>
    have hsplit : groups keys (n + 1) = groups keys n ++ List.replicate (keys.count n) n := by
      unfold groups
      rw [List.range_succ, List.flatMap_append]
      simp
    rw [hsplit]
    cases Nat.lt_succ_iff_lt_or_eq.mp hk with
    | inl hlt =>
      have hp : p < (groups keys n).length := by
        rw [length_groups]
        exact h'.trans_le (offset_mono keys hlt)
      rw [List.getElem?_append_left hp]
      exact ih hlt
    | inr heq =>
      subst heq
      rw [List.getElem?_append_right (by rwa [length_groups]), length_groups,
        List.getElem?_replicate, if_pos]
      rw [offset_succ] at h'
      omega

/-- The number of indices in `s` with key `k`. -/
def tally (keys : List ℕ) (s : Finset ℕ) (k : ℕ) : ℕ := (s.filter fun i => keys[i]? = some k).card

theorem tally_insert {s : Finset ℕ} {i k : ℕ} (hi : i ∉ s) (k' : ℕ) (hk : keys[i]? = some k) :
    tally keys (insert i s) k' = tally keys s k' + if k' = k then 1 else 0 := by
  unfold tally
  rw [Finset.filter_insert, hk]
  split_ifs with h h' h'
  · exact Finset.card_insert_of_notMem fun hmem => hi (Finset.mem_of_mem_filter i hmem)
  · exact absurd (Option.some.inj h).symm h'
  · exact absurd (congrArg some h'.symm) h
  · rfl

theorem tally_mono (keys : List ℕ) {s s' : Finset ℕ} (h : s ⊆ s') (k : ℕ) :
    tally keys s k ≤ tally keys s' k :=
  Finset.card_le_card (Finset.filter_subset_filter _ h)

theorem tally_range (keys : List ℕ) (k : ℕ) :
    tally keys (Finset.range keys.length) k = keys.count k := by
  induction keys using List.reverseRecOn with
  | nil => rfl
  | append_singleton keys a ih =>
    have hprefix : tally (keys ++ [a]) (Finset.range keys.length) k =
        tally keys (Finset.range keys.length) k := by
      refine congrArg Finset.card (Finset.filter_congr fun i hi => ?_)
      rw [List.getElem?_append_left (Finset.mem_range.mp hi)]
    rw [List.length_append, List.length_singleton, Finset.range_add_one,
      tally_insert Finset.notMem_range_self k (k := a) (by simp), hprefix, ih, List.count_append]
    by_cases h : k = a
    · simp [h]
    · simp [h, Ne.symm h]

/-- An index that is not in `s` leaves room for its key. -/
theorem tally_lt_count {s : Finset ℕ} {i k : ℕ} (hs : s ⊆ Finset.range keys.length) (hi : i ∉ s)
    (hk : keys[i]? = some k) : tally keys s k < keys.count k := by
  have hlt : i < keys.length := (List.getElem?_eq_some_iff.mp hk).1
  have hinsert := tally_mono keys
    (Finset.insert_subset (Finset.mem_range.mpr hlt) hs) k
  rw [tally_insert hi k hk, if_pos rfl, tally_range] at hinsert
  exact hinsert

/-- A place for every index, among those of its key. -/
structure Placement (keys : List ℕ) (pos : ℕ → ℕ) : Prop where
  place : ∀ i k, keys[i]? = some k → offset keys k ≤ pos i ∧ pos i < offset keys (k + 1)
  injective : ∀ i j, i < keys.length → j < keys.length → pos i = pos j → i = j

namespace Placement

variable {pos : ℕ → ℕ}

theorem pos_lt (h : Placement keys pos) {i : ℕ} (hi : i < keys.length) : pos i < keys.length :=
  (h.place i keys[i] (List.getElem?_eq_getElem hi)).2.trans_le (offset_le_length keys _)

theorem exists_perm (h : Placement keys pos) :
    ∃ σ : Equiv.Perm (Fin keys.length), ∀ i, (σ i : ℕ) = pos i := by
  let f : Fin keys.length → Fin keys.length := fun i => ⟨pos i, h.pos_lt i.isLt⟩
  have hinj : Function.Injective f := fun i j hij =>
    Fin.ext (h.injective i j i.isLt j.isLt (congrArg Fin.val hij))
  exact ⟨Equiv.ofBijective f (Finite.injective_iff_bijective.mp hinj), fun _ => rfl⟩

/-- The keys are listed in order. -/
theorem sorted_eq (h : Placement keys pos) {n : ℕ} (hn : ∀ k ∈ keys, k < n)
    (σ : Equiv.Perm (Fin keys.length)) (hσ : ∀ i, (σ i : ℕ) = pos i) :
    List.ofFn (fun p => keys[σ.symm p]) = groups keys n := by
  refine List.ext_getElem? fun p => ?_
  cases Nat.lt_or_ge p keys.length with
  | inl hp =>
    have hpos : pos (σ.symm ⟨p, hp⟩) = p := by
      rw [← hσ, Equiv.apply_symm_apply]
    have hplace := h.place _ _ (List.getElem?_eq_getElem (σ.symm ⟨p, hp⟩).isLt)
    rw [hpos] at hplace
    rw [getElem?_groups (hn _ (List.getElem_mem _)) hplace.1 hplace.2, List.getElem?_ofFn,
      dif_pos hp]
    rfl
  | inr hp =>
    rw [List.getElem?_eq_none (by simpa using hp), List.getElem?_eq_none]
    rw [length_groups, offset_eq_length hn]
    exact hp

end Placement

/-- The place that a walk from the front gives an index. -/
def serialPos (keys : List ℕ) (i : ℕ) : ℕ :=
  offset keys (keys.getD i 0) + tally keys (Finset.range i) (keys.getD i 0)

theorem placement_serialPos (keys : List ℕ) : Placement keys (serialPos keys) := by
  have hplace : ∀ i k, keys[i]? = some k → offset keys k ≤ serialPos keys i ∧
      serialPos keys i < offset keys (k + 1) := by
    intro i k hk
    have hlt : i < keys.length := (List.getElem?_eq_some_iff.mp hk).1
    have htally := tally_lt_count (Finset.range_subset_range.mpr hlt.le) Finset.notMem_range_self hk
    unfold serialPos
    rw [List.getD_eq_getElem?_getD, hk, Option.getD_some, offset_succ]
    exact ⟨Nat.le_add_right _ _, Nat.add_lt_add_left htally _⟩
  have hmono : ∀ i j k, keys[i]? = some k → keys[j]? = some k → i < j →
      serialPos keys i < serialPos keys j := by
    intro i j k hi hj hij
    have hinsert := tally_mono keys
      (Finset.insert_subset (Finset.mem_range.mpr hij) (Finset.range_subset_range.mpr hij.le)) k
    rw [tally_insert Finset.notMem_range_self k hi, if_pos rfl] at hinsert
    unfold serialPos
    rw [List.getD_eq_getElem?_getD, List.getD_eq_getElem?_getD, hi, hj, Option.getD_some]
    exact Nat.add_lt_add_left hinsert _
  refine ⟨hplace, fun i j hi hj heq => ?_⟩
  have hi := List.getElem?_eq_getElem hi
  have hj := List.getElem?_eq_getElem hj
  have hkey : keys[i] = keys[j] := by
    refine eq_of_places (hplace i _ hi).1 (hplace i _ hi).2 ?_ ?_
    · exact heq ▸ (hplace j _ hj).1
    · exact heq ▸ (hplace j _ hj).2
  rw [hkey] at hi
  cases Nat.lt_trichotomy i j with
  | inl hlt => exact absurd heq (hmono i j _ hi hj hlt).ne
  | inr hge =>
    cases hge with
    | inl h => exact h
    | inr hgt => exact absurd heq (hmono j i _ hj hi hgt).ne'

end CountingSort
