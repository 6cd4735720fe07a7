import Mathlib.Data.Finset.Card
import Mathlib.Data.Finset.Image
import Mathlib.Logic.Equiv.Basic
import Ikun.Mamba.Cache

/-!
# Slots and the state of their owners

A pair of a request and a sequence owns the slot that the mapping gives it. The manager rearranges
the slots by swaps and by moves to a free slot; both are `Relocated` along a permutation of the
slots, under which every pair keeps its state. The other steps put a new pair on a slot that nobody
owns, and release the pairs of finished requests.
-/

namespace Ikun.MambaCacheManager

open Exec

variable {ρ S : Type} [DecidableEq ρ] {m m' m'' : MambaCacheManager ρ S} {r : ρ} {s i j : ℕ}

/-! ## Slots -/

/-- The slot of a pair. -/
def slotOf (m : MambaCacheManager ρ S) (p : ρ × ℕ) : Option ℕ :=
  (m.indicesMapping.get? p.1).bind fun d => d.get? p.2

/-- The state of a pair that owns a slot. -/
def stateOf (m : MambaCacheManager ρ S) (p : ρ × ℕ) : Option S := (m.slotOf p).map m.mambaCache

/-- The pairs that own a slot. -/
def livePairs (m : MambaCacheManager ρ S) : Finset (ρ × ℕ) :=
  (m.indicesMapping.items.flatMap fun e => e.2.keys.map fun s => (e.1, s)).toFinset

/-- Every slot of the mapping exists and has one owner, and every request of the mapping owns a
slot. -/
structure SlotsOk (m : MambaCacheManager ρ S) : Prop where
  inj : ∀ p q i, m.slotOf p = some i → m.slotOf q = some i → p = q
  lt : ∀ p i, m.slotOf p = some i → i < m.capacity
  inhabited : ∀ r, m.indicesMapping.get? r ≠ none → ∃ s, m.slotOf (r, s) ≠ none

/-- The pairs have moved along a permutation of the slots. -/
structure Relocated (e : Equiv.Perm ℕ) (m m' : MambaCacheManager ρ S) : Prop where
  capacity : m'.capacity = m.capacity
  requests : ∀ r, m'.indicesMapping.get? r ≠ none ↔ m.indicesMapping.get? r ≠ none
  slots : ∀ p, m'.slotOf p = (m.slotOf p).map e
  contents : ∀ p i, m.slotOf p = some i → m'.mambaCache (e i) = m.mambaCache i

/-- The slots have been rearranged: the same pairs own slots, and keep their state. -/
structure Rearranged (m m' : MambaCacheManager ρ S) : Prop where
  capacity : m'.capacity = m.capacity
  requests : ∀ r, m'.indicesMapping.get? r ≠ none ↔ m.indicesMapping.get? r ≠ none
  stateOf : ∀ p, m'.stateOf p = m.stateOf p
  ok : SlotsOk m'

/-! ## Helpers -/

namespace SlotLemmas

theorem get?_mapValues {κ ν : Type} [DecidableEq κ] (f : ν → ν) (d : Dict κ ν) (k : κ) :
    (mapValues f d).get? k = (d.get? k).map f := by
  show ((d.items.map fun e => (e.1, f e.2)).lookup k) = (d.items.lookup k).map f
  induction d.items with
  | nil => rfl
  | cons e l ih =>
    obtain ⟨k', v⟩ := e
    by_cases hk : k = k'
    · simp [hk]
    · simp [List.lookup_cons, beq_false_of_ne hk, ih]

theorem mem_livePairs {p : ρ × ℕ} : p ∈ m.livePairs ↔ m.slotOf p ≠ none := by
  obtain ⟨r, s⟩ := p
  unfold livePairs slotOf
  simp only [List.mem_toFinset, List.mem_flatMap, List.mem_map, Prod.mk.injEq, Prod.exists]
  constructor
  · rintro ⟨r', d, hd, s', hs, rfl, rfl⟩
    obtain ⟨i, hi⟩ := Dict.mem_keys.mp hs
    rw [Dict.mem_items.mp hd, Option.bind_some, hi]
    simp
  · intro h
    obtain ⟨i, hi⟩ := Option.ne_none_iff_exists'.mp h
    obtain ⟨d, hd, hs⟩ := Option.bind_eq_some_iff.mp hi
    exact ⟨r, d, Dict.mem_items.mpr hd, s, Dict.mem_keys.mpr ⟨i, hs⟩, rfl, rfl⟩

theorem mem_livePairs_of_slot {p : ρ × ℕ} (h : m.slotOf p = some i) : p ∈ m.livePairs :=
  mem_livePairs.mpr (by simp [h])

theorem mem_livePairs_iff_stateOf {p : ρ × ℕ} : p ∈ m.livePairs ↔ m.stateOf p ≠ none := by
  rw [mem_livePairs, stateOf, ne_eq, ne_eq, Option.map_eq_none_iff]

theorem mem_allOccupiedIndices : i ∈ m.allOccupiedIndices ↔ ∃ p, m.slotOf p = some i := by
  unfold allOccupiedIndices slotOf
  simp only [List.mem_flatMap, Dict.mem_values, Prod.exists]
  constructor
  · rintro ⟨d, ⟨r, hr⟩, s, hs⟩
    exact ⟨r, s, by rw [hr, Option.bind_some, hs]⟩
  · rintro ⟨r, s, h⟩
    obtain ⟨d, hd, hs⟩ := Option.bind_eq_some_iff.mp h
    exact ⟨d, ⟨r, hd⟩, s, hs⟩

/-- If some slot of a list has no owner, the first such slot is found. -/
theorem exists_free {l : List ℕ} (h : ¬ ∀ i ∈ l, ∃ p, m.slotOf p = some i) :
    ∃ i, l.find? (· ∉ m.allOccupiedIndices) = some i := by
  obtain ⟨i, hi⟩ := not_forall.mp h
  obtain ⟨hmem, hfree⟩ := Classical.not_imp.mp hi
  have hocc : i ∉ m.allOccupiedIndices := fun hocc => hfree (mem_allOccupiedIndices.mp hocc)
  exact Option.isSome_iff_exists.mp (List.find?_isSome.mpr ⟨i, hmem, by simpa using hocc⟩)

/-- The owners of a set of slots. -/
theorem card_le_of_owned {A : Finset ℕ} {P : Finset (ρ × ℕ)}
    (h : ∀ i ∈ A, ∃ p ∈ P, m.slotOf p = some i) : A.card ≤ P.card := by
  classical
  have hsub : A.image some ⊆ P.image m.slotOf := by
    intro x hx
    obtain ⟨i, hi, rfl⟩ := Finset.mem_image.mp hx
    obtain ⟨p, hp, hs⟩ := h i hi
    exact Finset.mem_image.mpr ⟨p, hp, hs⟩
  calc A.card = (A.image some).card :=
        (Finset.card_image_of_injective A (Option.some_injective ℕ)).symm
    _ ≤ (P.image m.slotOf).card := Finset.card_le_card hsub
    _ ≤ P.card := Finset.card_image_le

end SlotLemmas

open SlotLemmas

namespace Relocated

variable {e e' : Equiv.Perm ℕ}

omit [DecidableEq ρ] in
theorem refl [DecidableEq ρ] (m : MambaCacheManager ρ S) : Relocated (Equiv.refl ℕ) m m where
  capacity := rfl
  requests _ := Iff.rfl
  slots p := by simp
  contents _ _ _ := rfl

/-- Every pair keeps its state. -/
theorem stateOf_eq (h : Relocated e m m') (p : ρ × ℕ) : m'.stateOf p = m.stateOf p := by
  unfold stateOf
  rw [h.slots p]
  cases hs : m.slotOf p with
  | none => rfl
  | some i => simp [h.contents p i hs]

theorem slotsOk (h : Relocated e m m') (hm : SlotsOk m) (he : ∀ i < m.capacity, e i < m.capacity) :
    SlotsOk m' where
  inj p q i hp hq := by
    rw [h.slots] at hp hq
    obtain ⟨j, hj, rfl⟩ := Option.map_eq_some_iff.mp hp
    obtain ⟨k, hk, hjk⟩ := Option.map_eq_some_iff.mp hq
    obtain rfl := e.injective hjk
    exact hm.inj p q k hj hk
  lt p i hp := by
    rw [h.slots] at hp
    obtain ⟨j, hj, rfl⟩ := Option.map_eq_some_iff.mp hp
    rw [h.capacity]
    exact he j (hm.lt p j hj)
  inhabited r hr := by
    obtain ⟨s, hs⟩ := hm.inhabited r ((h.requests r).mp hr)
    exact ⟨s, by rw [h.slots]; simpa using hs⟩

theorem rearranged (h : Relocated e m m') (hm : SlotsOk m)
    (he : ∀ i < m.capacity, e i < m.capacity) : Rearranged m m' where
  capacity := h.capacity
  requests := h.requests
  stateOf := h.stateOf_eq
  ok := h.slotsOk hm he

end Relocated

namespace Rearranged

theorem refl (hm : SlotsOk m) : Rearranged m m where
  capacity := rfl
  requests _ := Iff.rfl
  stateOf _ := rfl
  ok := hm

theorem trans (h : Rearranged m m') (h' : Rearranged m' m'') : Rearranged m m'' where
  capacity := h'.capacity.trans h.capacity
  requests r := (h'.requests r).trans (h.requests r)
  stateOf p := (h'.stateOf p).trans (h.stateOf p)
  ok := h'.ok

theorem livePairs_eq (h : Rearranged m m') : m'.livePairs = m.livePairs := by
  ext p
  rw [mem_livePairs_iff_stateOf, mem_livePairs_iff_stateOf, h.stateOf]

end Rearranged

end Ikun.MambaCacheManager
