import Mathlib.Data.List.Nodup
import Mathlib.Data.List.Infix
import Mathlib.Tactic.Common

/-!
# Bounded sets in the order of their last use

A list without repetitions whose last element is the one used last. Admitting an element makes it the
last one, and the oldest ones over the capacity are evicted.

Who is only told which elements were evicted, and which ones were admitted, can follow the set
without knowing its order (`mem_admitAll`). The elements at the end of the list survive as long as
there is room for them and for what is admitted (`not_mem_evicted`).
-/

namespace Recency

variable {α : Type} [BEq α] [LawfulBEq α]

/-! ## Operations -/

/-- The element becomes the one used last. -/
def touch (l : List α) (a : α) : List α := l.erase a ++ [a]

/-- The oldest elements over the capacity. -/
def overflow (capacity : ℕ) (l : List α) : List α := l.take (l.length - capacity)

/-- The list without its oldest elements over the capacity. -/
def trim (capacity : ℕ) (l : List α) : List α := l.drop (l.length - capacity)

/-- Admits elements one after another: the evicted elements and the list that is left. -/
def admitAll (capacity : ℕ) : List α → List α → List α × List α
  | [], l => ([], l)
  | a :: rest, l =>
    let later := admitAll capacity rest (trim capacity (touch l a))
    (overflow capacity (touch l a) ++ later.1, later.2)

/-! ## One element -/

variable {capacity : ℕ} {l keep : List α} {a b : α}

theorem mem_touch : b ∈ touch l a ↔ b = a ∨ b ∈ l := by
  unfold touch
  rw [List.mem_append, List.mem_singleton]
  constructor
  · intro h
    cases h with
    | inl h => exact .inr (List.mem_of_mem_erase h)
    | inr h => exact .inl h
  · intro h
    by_cases heq : b = a
    · exact .inr heq
    · exact .inl ((List.mem_erase_of_ne heq).mpr (h.resolve_left heq))

theorem nodup_touch (h : l.Nodup) : (touch l a).Nodup := by
  refine List.Nodup.append (h.erase a) (List.nodup_singleton a) ?_
  intro b hb hsingle
  obtain rfl := List.mem_singleton.mp hsingle
  exact absurd hb h.not_mem_erase

theorem length_touch_of_mem (h : a ∈ l) : (touch l a).length = l.length := by
  unfold touch
  rw [List.length_append, List.length_erase_of_mem h, List.length_singleton]
  exact Nat.sub_add_cancel (List.length_pos_of_mem h)

omit [LawfulBEq α] in
theorem length_touch_le : (touch l a).length ≤ l.length + 1 := by
  unfold touch
  rw [List.length_append, List.length_singleton]
  exact Nat.succ_le_succ (List.length_erase_le ..)

omit [BEq α] [LawfulBEq α] in
theorem overflow_append_trim (capacity : ℕ) (l : List α) : overflow capacity l ++ trim capacity l = l :=
  List.take_append_drop _ _

omit [BEq α] [LawfulBEq α] in
theorem length_trim_le : (trim capacity l).length ≤ capacity := by
  unfold trim
  rw [List.length_drop]
  omega

omit [BEq α] [LawfulBEq α] in
theorem nodup_trim (h : l.Nodup) : (trim capacity l).Nodup := h.sublist (List.drop_sublist _ _)

omit [BEq α] [LawfulBEq α] in
/-- What is evicted is gone. -/
theorem mem_trim (h : l.Nodup) : b ∈ trim capacity l ↔ b ∈ l ∧ b ∉ overflow capacity l := by
  rw [← overflow_append_trim capacity l] at h
  have hdisjoint := List.disjoint_of_nodup_append h
  constructor
  · intro hb
    refine ⟨?_, fun hover => hdisjoint hover hb⟩
    rw [← overflow_append_trim capacity l]
    exact List.mem_append_right _ hb
  · rintro ⟨hb, hover⟩
    rw [← overflow_append_trim capacity l] at hb
    exact (List.mem_append.mp hb).resolve_left hover

omit [BEq α] [LawfulBEq α] in
/-- The end of the list survives when it fits. -/
theorem suffix_trim (hkeep : keep <:+ l) (hroom : keep.length ≤ capacity) :
    keep <:+ trim capacity l := by
  obtain ⟨front, rfl⟩ := hkeep
  refine ⟨front.drop ((front ++ keep).length - capacity), ?_⟩
  unfold trim
  rw [List.drop_append_of_le_length]
  rw [List.length_append]
  omega

/-- The end of the list stays behind the rest when an element is touched. -/
theorem suffix_touch (hl : l.Nodup) (hkeep : keep <:+ l) : touch keep a <:+ touch l a := by
  obtain ⟨front, rfl⟩ := hkeep
  unfold touch
  by_cases hfront : a ∈ front
  · have hother : a ∉ keep := List.disjoint_of_nodup_append hl hfront
    rw [List.erase_append_left _ hfront, List.erase_of_not_mem hother, List.append_assoc]
    exact List.suffix_append _ _
  · rw [List.erase_append_right _ hfront, List.append_assoc]
    exact List.suffix_append _ _

/-! ## Several elements -/

theorem admitAll_spec (keys : List α) (hl : l.Nodup) (hle : l.length ≤ capacity) :
    (admitAll capacity keys l).2.Nodup ∧ (admitAll capacity keys l).2.length ≤ capacity := by
  induction keys generalizing l with
  | nil => exact ⟨hl, hle⟩
  | cons key rest ih => exact ih (nodup_trim (nodup_touch hl)) length_trim_le

/-- An element at the end of the list is not evicted while there is room for the end and for what is
admitted. -/
theorem not_mem_evicted {keys : List α} (hl : l.Nodup) (hkeep : keep <:+ l)
    (hroom : keep.length + keys.length ≤ capacity) (hb : b ∈ keep) :
    b ∉ (admitAll capacity keys l).1 := by
  induction keys generalizing l keep with
  | nil => exact List.not_mem_nil
  | cons key rest ih =>
    have hlength : (touch keep key).length ≤ keep.length + 1 := length_touch_le
    have hend : touch keep key <:+ trim capacity (touch l key) :=
      suffix_trim (suffix_touch hl hkeep) (by rw [List.length_cons] at hroom; omega)
    have hmem : b ∈ touch keep key := mem_touch.mpr (.inr hb)
    intro hevicted
    cases List.mem_append.mp hevicted with
    | inl hnow => exact ((mem_trim (nodup_touch hl)).mp (hend.subset hmem)).2 hnow
    | inr hlater =>
      refine ih (nodup_trim (nodup_touch hl)) hend ?_ hmem hlater
      rw [List.length_cons] at hroom
      omega

/-- What is admitted stays while there is room for all of it, and what was there stays unless it is
evicted. -/
theorem mem_admitAll {keys : List α} (hl : l.Nodup) (hroom : keys.length ≤ capacity) :
    b ∈ (admitAll capacity keys l).2 ↔
      b ∈ keys ∨ b ∈ l ∧ b ∉ (admitAll capacity keys l).1 := by
  induction keys generalizing l with
  | nil =>
    constructor
    · intro hb
      exact .inr ⟨hb, List.not_mem_nil⟩
    · intro hb
      cases hb with
      | inl hb => exact absurd hb List.not_mem_nil
      | inr hb => exact hb.1
  | cons key rest ih =>
    rw [List.length_cons] at hroom
    have hnodup : (touch l key).Nodup := nodup_touch hl
    have htrimmed : (trim capacity (touch l key)).Nodup := nodup_trim hnodup
    -- the admitted key is at the end, so that the rest does not evict it
    have hend : [key] <:+ trim capacity (touch l key) :=
      suffix_trim (List.suffix_append _ _) (by rw [List.length_singleton]; omega)
    have hlast : key ∉ (admitAll capacity rest (trim capacity (touch l key))).1 :=
      not_mem_evicted htrimmed hend (by rw [List.length_singleton]; omega) List.mem_cons_self
    refine (ih htrimmed (by omega)).trans ?_
    rw [mem_trim hnodup, mem_touch, List.mem_cons]
    change _ ↔ _ ∨ _ ∧ b ∉ overflow capacity (touch l key) ++ _
    rw [List.mem_append]
    by_cases hkey : b = key
    · subst hkey
      have hhere : b ∉ overflow capacity (touch l b) :=
        ((mem_trim hnodup).mp (hend.subset List.mem_cons_self)).2
      tauto
    · tauto

end Recency
