import Mathlib.Data.List.Nodup
import Mathlib.Data.List.Perm.Basic
import Mathlib.Tactic.Common

/-!
# Insertion-ordered dictionaries

A dictionary that remembers the order in which its keys were first inserted: an association list
whose keys are pairwise distinct, by construction. Assigning to a key that is present keeps the
position of the entry, assigning to a new key appends it.

Every operation is described by what it does to `get?`; the order of the entries is only visible
through `items`, `keys` and `values`.
-/

/-- An insertion-ordered dictionary. -/
structure Dict (κ ν : Type) where
  /-- The entries, oldest first. -/
  items : List (κ × ν)
  /-- No key occurs twice. -/
  nodup : (items.map Prod.fst).Nodup

namespace Dict

variable {κ ν : Type} [DecidableEq κ]

/-! ## Operations -/

/-- The dictionary without entries. -/
def empty : Dict κ ν := ⟨[], List.nodup_nil⟩

omit [DecidableEq κ] in
@[ext] theorem ext {d d' : Dict κ ν} (h : d.items = d'.items) : d = d' := by
  cases d; cases d'; simp only [Dict.mk.injEq]; exact h

instance [DecidableEq ν] : DecidableEq (Dict κ ν) := fun d d' =>
  decidable_of_iff (d.items = d'.items) ⟨ext, fun h => h ▸ rfl⟩

/-- The keys, oldest first. -/
def keys (d : Dict κ ν) : List κ := d.items.map Prod.fst

/-- The values, in the order of their keys. -/
def values (d : Dict κ ν) : List ν := d.items.map Prod.snd

/-- The number of entries. -/
def length (d : Dict κ ν) : Nat := d.items.length

/-- The value stored at `k`. -/
def get? (d : Dict κ ν) (k : κ) : Option ν := d.items.lookup k

/-- Is there an entry for `k`? -/
def contains (d : Dict κ ν) (k : κ) : Bool := (d.get? k).isSome

/-- The entries with the value at `k` replaced; the positions stay. -/
def replaceAt (k : κ) (v : ν) (l : List (κ × ν)) : List (κ × ν) :=
  l.map fun e => if e.1 = k then (k, v) else e

namespace DictLemmas

theorem map_fst_replaceAt (k : κ) (v : ν) (l : List (κ × ν)) :
    (replaceAt k v l).map Prod.fst = l.map Prod.fst := by
  simp only [replaceAt, List.map_map]
  refine List.map_congr_left fun e _ => ?_
  simp only [Function.comp_apply]
  split
  · next h => exact h.symm
  · rfl

theorem lookup_isSome_iff (k : κ) (l : List (κ × ν)) :
    (l.lookup k).isSome ↔ k ∈ l.map Prod.fst := by
  induction l with
  | nil => simp
  | cons e l ih =>
    obtain ⟨k', v⟩ := e
    by_cases h : k = k'
    · simp [h]
    · simp [List.lookup_cons, h, beq_false_of_ne h, ih]

theorem lookup_eq_some_iff {l : List (κ × ν)} (hl : (l.map Prod.fst).Nodup) (k : κ) (v : ν) :
    l.lookup k = some v ↔ (k, v) ∈ l := by
  induction l with
  | nil => simp
  | cons e l ih =>
    obtain ⟨k', v'⟩ := e
    simp only [List.map_cons, List.nodup_cons] at hl
    by_cases h : k = k'
    · subst h
      simp only [List.lookup_cons, beq_self_eq_true, Option.some.injEq, List.mem_cons,
        Prod.mk.injEq, true_and]
      constructor
      · exact fun h => Or.inl h.symm
      · rintro (h | h)
        · exact h.symm
        · exact absurd (List.mem_map_of_mem (f := Prod.fst) h) hl.1
    · simp [List.lookup_cons, beq_false_of_ne h, h, ih hl.2]

end DictLemmas

open DictLemmas

/-- `d[k] = v`: replaces the value in place, or appends a new entry. -/
def set (d : Dict κ ν) (k : κ) (v : ν) : Dict κ ν :=
  if h : k ∈ d.keys then
    ⟨replaceAt k v d.items, by rw [map_fst_replaceAt]; exact d.nodup⟩
  else
    ⟨d.items ++ [(k, v)], by
      rw [List.map_append, List.nodup_append]
      refine ⟨d.nodup, by simp, ?_⟩
      rintro a ha b hb rfl
      simp only [List.map_cons, List.map_nil, List.mem_singleton] at hb
      exact h (hb ▸ ha)⟩

/-- `d.pop(k, None)`: removes the entry of `k` if there is one. -/
def erase (d : Dict κ ν) (k : κ) : Dict κ ν :=
  ⟨d.items.filter fun e => e.1 ≠ k,
    d.nodup.sublist (List.Sublist.map _ List.filter_sublist)⟩

/-- `d.move_to_end(k)` for a key that is present; otherwise `d` itself. -/
def moveToEnd (d : Dict κ ν) (k : κ) : Dict κ ν :=
  match d.get? k with
  | some v => (d.erase k).set k v
  | none => d

/-! ## Lookup -/

theorem mem_items {d : Dict κ ν} {k : κ} {v : ν} : (k, v) ∈ d.items ↔ d.get? k = some v :=
  (lookup_eq_some_iff d.nodup k v).symm

theorem mem_keys {d : Dict κ ν} {k : κ} : k ∈ d.keys ↔ ∃ v, d.get? k = some v := by
  rw [keys, ← lookup_isSome_iff, Option.isSome_iff_exists]
  rfl

theorem mem_values {d : Dict κ ν} {v : ν} : v ∈ d.values ↔ ∃ k, d.get? k = some v := by
  simp only [values, List.mem_map, Prod.exists, exists_eq_right, mem_items]

@[simp] theorem contains_iff {d : Dict κ ν} {k : κ} : d.contains k = true ↔ d.get? k ≠ none := by
  rw [contains, Option.isSome_iff_ne_none]

@[simp] theorem contains_eq_false_iff {d : Dict κ ν} {k : κ} :
    d.contains k = false ↔ d.get? k = none := by
  rw [contains, Option.isSome_eq_false_iff, Option.isNone_iff_eq_none]

theorem contains_iff_mem_keys {d : Dict κ ν} {k : κ} : d.contains k = true ↔ k ∈ d.keys := by
  rw [contains_iff, mem_keys, Option.ne_none_iff_exists']

theorem get?_eq_none_iff {d : Dict κ ν} {k : κ} : d.get? k = none ↔ k ∉ d.keys := by
  rw [mem_keys, Option.eq_none_iff_forall_ne_some]
  simp

omit [DecidableEq κ] in
theorem length_keys (d : Dict κ ν) : d.keys.length = d.length := by
  rw [keys, List.length_map, length]

omit [DecidableEq κ] in
theorem nodup_keys (d : Dict κ ν) : d.keys.Nodup := d.nodup

@[simp] theorem get?_empty (k : κ) : (empty : Dict κ ν).get? k = none := rfl

omit [DecidableEq κ] in
@[simp] theorem keys_empty : (empty : Dict κ ν).keys = [] := rfl

omit [DecidableEq κ] in
@[simp] theorem values_empty : (empty : Dict κ ν).values = [] := rfl

omit [DecidableEq κ] in
@[simp] theorem items_empty : (empty : Dict κ ν).items = [] := rfl

theorem get?_set (d : Dict κ ν) (k k' : κ) (v : ν) :
    (d.set k v).get? k' = if k' = k then some v else d.get? k' := by
  refine Option.ext fun w => ?_
  rw [← mem_items, set]
  split
  · next hk =>
    simp only [replaceAt, List.mem_map, Prod.exists]
    constructor
    · rintro ⟨a, b, hab, he⟩
      split at he
      · next ha => simp only [Prod.mk.injEq] at he; simp [he.1.symm, he.2]
      · next ha =>
        simp only [Prod.mk.injEq] at he
        obtain ⟨rfl, rfl⟩ := he
        rw [if_neg ha]
        exact mem_items.mp hab
    · intro h
      split at h
      · next he =>
        subst he
        obtain ⟨⟨a, b⟩, hab, ha⟩ := List.mem_map.mp hk
        simp only at ha
        exact ⟨a, b, hab, by simp [ha, Option.some.inj h]⟩
      · next he => exact ⟨k', w, mem_items.mpr h, by simp [he]⟩
  · next hk =>
    simp only [List.mem_append, List.mem_singleton, Prod.mk.injEq, mem_items]
    split
    · next he =>
      subst he
      have hn : d.get? k' = none := get?_eq_none_iff.mpr hk
      simp [hn, eq_comm]
    · next he => simp [he]

@[simp] theorem get?_set_self (d : Dict κ ν) (k : κ) (v : ν) : (d.set k v).get? k = some v := by
  rw [get?_set, if_pos rfl]

theorem get?_set_ne (d : Dict κ ν) {k k' : κ} (h : k' ≠ k) (v : ν) :
    (d.set k v).get? k' = d.get? k' := by
  rw [get?_set, if_neg h]

theorem get?_erase (d : Dict κ ν) (k k' : κ) :
    (d.erase k).get? k' = if k' = k then none else d.get? k' := by
  refine Option.ext fun w => ?_
  rw [← mem_items]
  simp only [erase, List.mem_filter, mem_items, ne_eq, decide_not, Bool.not_eq_eq_eq_not,
    Bool.not_true, decide_eq_false_iff_not]
  split
  · next h => simp [h]
  · next h => simp [h]

@[simp] theorem get?_erase_self (d : Dict κ ν) (k : κ) : (d.erase k).get? k = none := by
  rw [get?_erase, if_pos rfl]

theorem get?_erase_ne (d : Dict κ ν) {k k' : κ} (h : k' ≠ k) :
    (d.erase k).get? k' = d.get? k' := by
  rw [get?_erase, if_neg h]

theorem get?_of_erase {d : Dict κ ν} {k k' : κ} {v : ν} (h : (d.erase k).get? k' = some v) :
    d.get? k' = some v := by
  rw [get?_erase] at h
  split at h
  · exact absurd h (by simp)
  · exact h

/-- Popping a key that is not there changes nothing. -/
theorem erase_eq_self {d : Dict κ ν} {k : κ} (h : k ∉ d.keys) : d.erase k = d := by
  refine Dict.ext (List.filter_eq_self.mpr fun e he => ?_)
  refine decide_eq_true fun heq => h (heq ▸ ?_)
  exact List.mem_map_of_mem he

@[simp] theorem get?_moveToEnd (d : Dict κ ν) (k k' : κ) :
    (d.moveToEnd k).get? k' = d.get? k' := by
  unfold moveToEnd
  split
  · next v hv =>
    rw [get?_set]
    split
    · next h => rw [h, hv]
    · next h => rw [get?_erase_ne _ h]
  · rfl

/-! ## Order -/

theorem items_set_of_not_mem {d : Dict κ ν} {k : κ} (h : k ∉ d.keys) (v : ν) :
    (d.set k v).items = d.items ++ [(k, v)] := by
  unfold set
  rw [dif_neg h]

theorem mem_keys_set {d : Dict κ ν} {k k' : κ} {v : ν} :
    k' ∈ (d.set k v).keys ↔ k' = k ∨ k' ∈ d.keys := by
  simp only [mem_keys, get?_set]
  by_cases h : k' = k <;> simp [h]

theorem mem_keys_erase {d : Dict κ ν} {k k' : κ} :
    k' ∈ (d.erase k).keys ↔ k' ≠ k ∧ k' ∈ d.keys := by
  simp only [mem_keys, get?_erase]
  by_cases h : k' = k <;> simp [h]

@[simp] theorem mem_keys_moveToEnd {d : Dict κ ν} {k k' : κ} :
    k' ∈ (d.moveToEnd k).keys ↔ k' ∈ d.keys := by
  simp only [mem_keys, get?_moveToEnd]

end Dict
