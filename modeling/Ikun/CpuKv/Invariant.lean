import Mathlib.Data.Finset.Dedup
import Ikun.CpuKv.Cache

/-!
# The representation invariant of the CPU KV cache

Six index structures describe which slot holds what: the two hash maps, the ready set, the LRU
order, the free heap and the set of slots published by the next step. Within a step four more say
what the step does with the slots. This module says how they hang together.

* `Index`: the part that holds at any time.
* `Transfers`: the part about the transfers that the current step has committed.
* `Waiting`: the part about stores that are deferred until the step is drained.
* `InStep` = `Index` + `Transfers` + `Waiting`: within a step. `Idle`: between two steps.

Results: every method that returns keeps `InStep` (`claimLoad_inStep`, `cancelLoad_inStep`,
`stageLoad_inStep`, `stageStore_inStep`); `begin_step` leads from `Idle` to `InStep`
(`beginStep_inStep`) and `drain_step` back (`drainStep_idle`).
-/

namespace Ikun.CpuKvContentCache

open Exec

variable {Hash : Type} [DecidableEq Hash]

/-! ## The invariant -/

/-- What holds of the slot index at any time. -/
structure Index (c : CpuKvContentCache Hash) : Prop where
  inverse : ∀ h s, c.hashToSlot.get? h = some s ↔ c.slotToHash.get? s = some h
  ready : ∀ s ∈ c.readySlots, c.slotToHash.get? s ≠ none
  lru : ∀ s ∈ c.lru.keys, c.slotToHash.get? s ≠ none
  free : ∀ s ∈ c.freeSlots, c.slotToHash.get? s = none
  freeNodup : c.freeSlots.Nodup
  freeLt : ∀ s ∈ c.freeSlots, s < c.capacity
  residentLt : ∀ s, c.slotToHash.get? s ≠ none → s < c.capacity

/-- What holds of the transfers that the step has committed so far. -/
structure Transfers (c : CpuKvContentCache Hash) : Prop where
  noPending : c.pendingReadySlots = ∅
  inUse : ∀ s, s ∈ c.stepSlotsInUse ↔ s ∈ c.stepLoadSlots ∨ s ∈ c.stepD2h.values
  loadReady : ∀ s ∈ c.stepLoadSlots, s ∈ c.readySlots
  h2dLoad : ∀ s ∈ c.stepH2d.keys, s ∈ c.stepLoadSlots
  h2dInj : ∀ s s' b, c.stepH2d.get? s = some b → c.stepH2d.get? s' = some b → s = s'
  d2hFresh : ∀ s ∈ c.stepD2h.values, s ∉ c.readySlots ∧ c.slotToHash.get? s ≠ none
  d2hInj : ∀ b b' s, c.stepD2h.get? b = some s → c.stepD2h.get? b' = some s → b = b'

/-- Stores that still wait for a slot: their content is not resident, their block is not yet a
source, and no two of them share a block or a content. -/
structure Waiting (hashToSlot : Dict Hash ℕ) (d2h : Dict ℕ ℕ) (xs : List (ℕ × Hash)) : Prop where
  absent : ∀ e ∈ xs, hashToSlot.get? e.2 = none
  newSource : ∀ e ∈ xs, d2h.get? e.1 = none
  blocks : (xs.map Prod.fst).Nodup
  hashes : (xs.map Prod.snd).Nodup

/-- The invariant within a step. -/
structure InStep (c : CpuKvContentCache Hash) : Prop extends Index c, Transfers c where
  waiting : Waiting c.hashToSlot c.stepD2h c.deferredD2h.items
  deferred : ∀ h, h ∈ c.deferredHashes ↔ h ∈ c.deferredD2h.values

/-- The invariant between two steps. -/
structure Idle (c : CpuKvContentCache Hash) : Prop extends Index c where
  pending : ∀ s ∈ c.pendingReadySlots, c.slotToHash.get? s ≠ none
  noSlots : c.stepSlotsInUse = ∅
  noLoads : c.stepLoadSlots = ∅
  noH2d : c.stepH2d = .empty
  noD2h : c.stepD2h = .empty
  noDeferred : c.deferredD2h = .empty
  noDeferredHashes : c.deferredHashes = ∅

/-! ## Helpers -/

namespace InvariantLemmas

omit [DecidableEq Hash] in
theorem mem_keys_touched {c : CpuKvContentCache Hash} {slot s : ℕ} :
    s ∈ ((c.lru.erase slot).set slot ()).keys ↔ s = slot ∨ s ∈ c.lru.keys := by
  rw [Dict.mem_keys_set, Dict.mem_keys_erase]
  tauto

omit [DecidableEq Hash] in
theorem find_lru {c : CpuKvContentCache Hash} {s : ℕ}
    (h : c.lru.keys.find? (· ∉ c.stepSlotsInUse) = some s) :
    s ∈ c.lru.keys ∧ s ∉ c.stepSlotsInUse := by
  refine ⟨List.mem_of_find?_eq_some h, ?_⟩
  simpa using List.find?_some h

end InvariantLemmas

open InvariantLemmas

namespace Index

variable {c : CpuKvContentCache Hash}

/-- The index without the content of one slot. -/
theorem get?_indexWithout (c : CpuKvContentCache Hash) (slot : ℕ) (h : Hash) :
    (c.indexWithout slot).get? h =
      if c.slotToHash.get? slot = some h then none else c.hashToSlot.get? h := by
  unfold indexWithout
  cases ho : c.slotToHash.get? slot with
  | none => simp
  | some o =>
    simp only [Dict.get?_erase, Option.some.injEq]
    by_cases he : h = o
    · simp [he]
    · simp [he, Ne.symm he]

theorem touched (hc : c.Index) {slot : ℕ} (hs : c.slotToHash.get? slot ≠ none) :
    Index { c with lru := (c.lru.erase slot).set slot () } where
  inverse := hc.inverse
  ready := hc.ready
  lru s h := by
    rcases mem_keys_touched.mp h with rfl | h
    · exact hs
    · exact hc.lru s h
  free := hc.free
  freeNodup := hc.freeNodup
  freeLt := hc.freeLt
  residentLt := hc.residentLt

theorem popped (hc : c.Index) {slot : ℕ} {rest : List ℕ}
    (h : heappop c.freeSlots = some (slot, rest)) :
    Index { c with freeSlots := rest } := by
  obtain rfl := heappop_rest h
  exact
    { inverse := hc.inverse
      ready := hc.ready
      lru := hc.lru
      free := fun s hs => hc.free s (List.mem_of_mem_erase hs)
      freeNodup := hc.freeNodup.erase slot
      freeLt := fun s hs => hc.freeLt s (List.mem_of_mem_erase hs)
      residentLt := hc.residentLt }

theorem not_mem_popped (hc : c.Index) {slot : ℕ} {rest : List ℕ}
    (h : heappop c.freeSlots = some (slot, rest)) : slot ∉ rest := by
  obtain rfl := heappop_rest h
  exact fun hm => (List.Nodup.mem_erase_iff hc.freeNodup).mp hm |>.1 rfl

theorem resident_of_hash (hc : c.Index) {h : Hash} {s : ℕ} (hs : c.hashToSlot.get? h = some s) :
    c.slotToHash.get? s = some h :=
  (hc.inverse h s).mp hs

/-- Committing a store of new content to a slot outside the free heap keeps the index. -/
theorem committed (hc : c.Index) {h : Hash} {b slot : ℕ} (hh : c.hashToSlot.get? h = none)
    (hfree : slot ∉ c.freeSlots) (hlt : slot < c.capacity) : (c.committed h b slot).Index where
  inverse h' s' := by
    have hs' := hc.inverse h' s'
    have hslot := hc.inverse h' slot
    have hnew := hc.inverse h s'
    simp only [CpuKvContentCache.committed, Dict.get?_set, get?_indexWithout]
    grind
  ready s hs := by
    simp only [CpuKvContentCache.committed, Finset.mem_erase, Dict.get?_set] at hs ⊢
    rw [if_neg hs.1]
    exact hc.ready s hs.2
  lru s hs := by
    simp only [CpuKvContentCache.committed, Dict.get?_set] at hs ⊢
    split
    · simp
    · next hne => exact hc.lru s ((mem_keys_touched.mp hs).resolve_left hne)
  free s hs := by
    have hne : s ≠ slot := fun he => hfree (he ▸ hs)
    simp only [CpuKvContentCache.committed, Dict.get?_set, if_neg hne]
    exact hc.free s hs
  freeNodup := hc.freeNodup
  freeLt := hc.freeLt
  residentLt s hs := by
    simp only [CpuKvContentCache.committed, Dict.get?_set] at hs ⊢
    split at hs
    · next he => exact he ▸ hlt
    · exact hc.residentLt s hs

end Index

namespace Transfers

variable {c : CpuKvContentCache Hash}

/-- Under the invariant, a slot that is not a claimed source or a destination of the step can take
new content. -/
theorem canCommit (hi : c.Index) (ht : c.Transfers) {slot : ℕ} (hs : slot ∉ c.stepSlotsInUse) :
    c.CanCommit slot where
  notInUse _ _ := hs
  indexed o ho := by
    rw [(hi.inverse o slot).mpr ho]
    simp
  notSource := by
    rw [Dict.get?_eq_none_iff]
    exact fun h => hs ((ht.inUse slot).mpr (Or.inl (ht.h2dLoad slot h)))
  notDestination h := hs ((ht.inUse slot).mpr (Or.inr h))

/-- An empty slot is not used by the step. -/
theorem not_inUse_of_empty (hi : c.Index) (ht : c.Transfers) {slot : ℕ}
    (hs : c.slotToHash.get? slot = none) : slot ∉ c.stepSlotsInUse := by
  intro hu
  rcases (ht.inUse slot).mp hu with h | h
  · exact hi.ready slot (ht.loadReady slot h) hs
  · exact (ht.d2hFresh slot h).2 hs

theorem committed (ht : c.Transfers) {h : Hash} {b slot : ℕ}
    (hs : slot ∉ c.stepSlotsInUse) (hb : c.stepD2h.get? b = none) :
    (c.committed h b slot).Transfers := by
  have hslot : slot ∉ c.stepD2h.values := fun hv => hs ((ht.inUse slot).mpr (Or.inr hv))
  have hload : slot ∉ c.stepLoadSlots := fun hv => hs ((ht.inUse slot).mpr (Or.inl hv))
  have hvals : ∀ s, s ∈ (c.stepD2h.set b slot).values ↔ s = slot ∨ s ∈ c.stepD2h.values := by
    intro s
    simp only [Dict.mem_values, Dict.get?_set]
    grind
  have hget : ∀ b', c.stepD2h.get? b' ≠ some slot := fun b' hb' =>
    hslot (Dict.mem_values.mpr ⟨b', hb'⟩)
  exact
    { noPending := ht.noPending
      inUse := fun s => by
        have := ht.inUse s
        simp only [CpuKvContentCache.committed, Finset.mem_insert, hvals]
        tauto
      loadReady := fun s hm => by
        simp only [CpuKvContentCache.committed, Finset.mem_erase]
        exact ⟨fun he => hload (he ▸ hm), ht.loadReady s hm⟩
      h2dLoad := ht.h2dLoad
      h2dInj := ht.h2dInj
      d2hFresh := fun s hm => by
        simp only [CpuKvContentCache.committed, hvals, Finset.mem_erase, Dict.get?_set] at hm ⊢
        rcases hm with rfl | hm
        · simp
        · obtain ⟨hr, hn⟩ := ht.d2hFresh s hm
          refine ⟨fun h' => hr h'.2, ?_⟩
          split
          · simp
          · exact hn
      d2hInj := fun b₁ b₂ s h₁ h₂ => by
        have := ht.d2hInj b₁ b₂ s
        simp only [CpuKvContentCache.committed, Dict.get?_set] at h₁ h₂
        grind }

end Transfers

namespace Waiting

variable {hashToSlot : Dict Hash ℕ} {d2h : Dict ℕ ℕ} {xs : List (ℕ × Hash)}

/-- Committing the store of `h` from block `b` keeps the stores of other contents and other blocks
waiting. -/
theorem committed {c : CpuKvContentCache Hash} (hw : Waiting c.hashToSlot c.stepD2h xs) {h : Hash}
    {b slot : ℕ} (hh : h ∉ xs.map Prod.snd) (hb : b ∉ xs.map Prod.fst) :
    Waiting (c.committed h b slot).hashToSlot (c.committed h b slot).stepD2h xs where
  absent e he := by
    have hne : e.2 ≠ h := fun h' => hh (h' ▸ List.mem_map_of_mem he)
    simp only [CpuKvContentCache.committed, Dict.get?_set_ne _ hne, Index.get?_indexWithout,
      hw.absent e he, ite_self]
  newSource e he := by
    have hne : e.1 ≠ b := fun h' => hb (h' ▸ List.mem_map_of_mem he)
    simp only [CpuKvContentCache.committed, Dict.get?_set_ne _ hne]
    exact hw.newSource e he
  blocks := hw.blocks
  hashes := hw.hashes

/-- A new store joins the waiting ones. -/
theorem append (hw : Waiting hashToSlot d2h xs) {h : Hash} {b : ℕ}
    (habs : hashToSlot.get? h = none) (hsrc : d2h.get? b = none) (hh : h ∉ xs.map Prod.snd)
    (hb : b ∉ xs.map Prod.fst) : Waiting hashToSlot d2h (xs ++ [(b, h)]) where
  absent e he := by
    rcases List.mem_append.mp he with he | he
    · exact hw.absent e he
    · rw [List.mem_singleton.mp he]
      exact habs
  newSource e he := by
    rcases List.mem_append.mp he with he | he
    · exact hw.newSource e he
    · rw [List.mem_singleton.mp he]
      exact hsrc
  blocks := by
    rw [List.map_append, List.nodup_append]
    refine ⟨hw.blocks, List.nodup_singleton _, ?_⟩
    rintro b' hb' _ hm rfl
    rw [List.mem_singleton.mp hm] at hb'
    exact hb hb'
  hashes := by
    rw [List.map_append, List.nodup_append]
    refine ⟨hw.hashes, List.nodup_singleton _, ?_⟩
    rintro h' hh' _ hm rfl
    rw [List.mem_singleton.mp hm] at hh'
    exact hh hh'

theorem tail {e : ℕ × Hash} (hw : Waiting hashToSlot d2h (e :: xs)) :
    Waiting hashToSlot d2h xs where
  absent e' he := hw.absent e' (List.mem_cons_of_mem _ he)
  newSource e' he := hw.newSource e' (List.mem_cons_of_mem _ he)
  blocks := (List.nodup_cons.mp hw.blocks).2
  hashes := (List.nodup_cons.mp hw.hashes).2

end Waiting

/-! ## The fresh cache and the beginning of a step -/

theorem fresh_idle (capacity : ℕ) : (fresh capacity : CpuKvContentCache Hash).Idle where
  inverse h s := by simp [fresh]
  ready s hs := absurd hs (Finset.notMem_empty s)
  lru s hs := absurd hs List.not_mem_nil
  free _ _ := rfl
  freeNodup := List.nodup_range
  freeLt _ hs := List.mem_range.mp hs
  residentLt s hs := absurd rfl hs
  pending s hs := absurd hs (Finset.notMem_empty s)
  noSlots := rfl
  noLoads := rfl
  noH2d := rfl
  noD2h := rfl
  noDeferred := rfl
  noDeferredHashes := rfl

theorem beginStep_ok {c : CpuKvContentCache Hash} (hc : c.Idle) :
    beginStep c = .ok () { c with
      readySlots := c.readySlots ∪ c.pendingReadySlots
      pendingReadySlots := ∅ } := by
  rw [beginStep_ok_iff, hc.noSlots, hc.noH2d, hc.noD2h, hc.noDeferred, hc.noDeferredHashes]
  simp

theorem beginStep_inStep {c : CpuKvContentCache Hash} (hc : c.Idle) :
    InStep { c with
      readySlots := c.readySlots ∪ c.pendingReadySlots
      pendingReadySlots := ∅ } where
  inverse := hc.inverse
  ready s hs := (Finset.mem_union.mp hs).elim (hc.ready s) (hc.pending s)
  lru := hc.lru
  free := hc.free
  freeNodup := hc.freeNodup
  freeLt := hc.freeLt
  residentLt := hc.residentLt
  noPending := rfl
  inUse s := by simp [hc.noSlots, hc.noLoads, hc.noD2h]
  loadReady s hs := by simp [hc.noLoads] at hs
  h2dLoad s hs := by simp [hc.noH2d] at hs
  h2dInj s s' b h := by simp [hc.noH2d] at h
  d2hFresh s hs := by simp [hc.noD2h] at hs
  d2hInj b b' s h := by simp [hc.noD2h] at h
  waiting := by
    rw [hc.noDeferred]
    exact ⟨by simp, by simp, List.nodup_nil, List.nodup_nil⟩
  deferred h := by simp [hc.noDeferred, hc.noDeferredHashes]

/-! ## The methods of a step -/

section methods

variable {c c' : CpuKvContentCache Hash} {h : Hash}

theorem claimLoad_inStep {r : Option ℕ} (hc : c.InStep) (hr : claimLoad h c = .ok r c') :
    c'.InStep := by
  obtain ⟨_, ⟨_, _, rfl⟩ | ⟨slot, hs, hready, hfree, _, rfl⟩⟩ := claimLoad_ok_iff.mp hr
  · exact
      { hc.toIndex, hc.toTransfers with
        waiting := hc.waiting
        deferred := hc.deferred }
  · have hres : c.slotToHash.get? slot ≠ none := hc.ready slot hready
    exact
      { hc.toIndex.touched hres with
        noPending := hc.noPending
        inUse := fun s => by
          have := hc.inUse s
          simp only [claimed, Finset.mem_insert]
          tauto
        loadReady := fun s hm => by
          rcases Finset.mem_insert.mp hm with rfl | hm
          · exact hready
          · exact hc.loadReady s hm
        h2dLoad := fun s hm => Finset.mem_insert_of_mem (hc.h2dLoad s hm)
        h2dInj := hc.h2dInj
        d2hFresh := hc.d2hFresh
        d2hInj := hc.d2hInj
        waiting := hc.waiting
        deferred := hc.deferred }

theorem cancelLoad_inStep {slot : ℕ} {u : Unit} (hc : c.InStep)
    (hr : cancelLoad h slot c = .ok u c') : c'.InStep := by
  obtain ⟨_, hh2d, _, hload, rfl⟩ := cancelLoad_ok_iff.mp hr
  have hd2h : slot ∉ c.stepD2h.values := fun hv => (hc.d2hFresh slot hv).1 (hc.loadReady slot hload)
  exact
    { hc.toIndex with
      noPending := hc.noPending
      inUse := fun s => by
        have := hc.inUse s
        simp only [Finset.mem_erase]
        by_cases he : s = slot
        · subst he
          tauto
        · tauto
      loadReady := fun s hm => hc.loadReady s (Finset.mem_of_mem_erase hm)
      h2dLoad := fun s hm => by
        refine Finset.mem_erase.mpr ⟨?_, hc.h2dLoad s hm⟩
        rintro rfl
        exact (Dict.get?_eq_none_iff.mp hh2d) hm
      h2dInj := hc.h2dInj
      d2hFresh := hc.d2hFresh
      d2hInj := hc.d2hInj
      waiting := hc.waiting
      deferred := hc.deferred }

theorem stageLoad_inStep {slot b : ℕ} {u : Unit} (hc : c.InStep)
    (hr : stageLoad h slot b c = .ok u c') : c'.InStep := by
  obtain ⟨_, _, huse, hnew, hb, hd2h, rfl⟩ := stageLoad_ok_iff.mp hr
  have hload : slot ∈ c.stepLoadSlots := ((hc.inUse slot).mp huse).resolve_right hd2h
  exact
    { hc.toIndex with
      noPending := hc.noPending
      inUse := hc.inUse
      loadReady := hc.loadReady
      h2dLoad := fun s hm => by
        rcases Dict.mem_keys_set.mp hm with rfl | hm
        · exact hload
        · exact hc.h2dLoad s hm
      h2dInj := fun s s' b' hs hs' => by
        have hne : ∀ s, c.stepH2d.get? s ≠ some b := fun s h' => hb (Dict.mem_values.mpr ⟨s, h'⟩)
        have := hc.h2dInj s s' b'
        simp only [Dict.get?_set] at hs hs'
        grind
      d2hFresh := hc.d2hFresh
      d2hInj := hc.d2hInj
      waiting := hc.waiting
      deferred := hc.deferred }

theorem stageStore_inStep {b : ℕ} {r : Bool} (hc : c.InStep)
    (hr : stageStore h b c = .ok r c') : c'.InStep := by
  obtain ⟨_, ⟨_, _, rfl⟩ | ⟨hh, hdef, hd2h, hb, _, hstore⟩⟩ := stageStore_ok_iff.mp hr
  · have hlru : Index (c.deduplicated h) := by
      unfold deduplicated
      cases hs : c.hashToSlot.get? h with
      | none => exact { hc.toIndex with }
      | some slot =>
        have hres := hc.resident_of_hash hs
        have hne : c.slotToHash.get? slot ≠ none := by simp [hres]
        exact { hc.toIndex.touched hne with }
    exact
      { hlru, hc.toTransfers with
        waiting := hc.waiting
        deferred := hc.deferred }
  · have hhash : h ∉ c.deferredD2h.items.map Prod.snd := fun hm => hdef ((hc.deferred h).mpr hm)
    have hblock : b ∉ c.deferredD2h.items.map Prod.fst := Dict.get?_eq_none_iff.mp hb
    obtain ⟨slot, rest, hpop, _, rfl⟩ | ⟨_, rfl⟩ := hstore
    · have hmem : slot ∈ c.freeSlots := heappop_mem hpop
      have huse := hc.toTransfers.not_inUse_of_empty hc.toIndex (hc.free slot hmem)
      have hidx := (hc.toIndex.popped hpop).committed (b := b) hh (hc.not_mem_popped hpop)
        (hc.freeLt slot hmem)
      have htr := Transfers.committed (c := { c with freeSlots := rest }) (h := h)
        { hc.toTransfers with } huse hd2h
      exact
        { hidx, htr with
          waiting := Waiting.committed (c := { c with freeSlots := rest }) hc.waiting hhash hblock
          deferred := hc.deferred }
    · exact
        { hc.toIndex, hc.toTransfers with
          waiting := by
            simp only [Dict.items_set_of_not_mem hblock]
            exact hc.waiting.append hh hd2h hhash hblock
          deferred := fun h' => by
            have := hc.deferred h'
            have hnone : ∀ b', c.deferredD2h.get? b' = some h' → b' ≠ b := by
              rintro b' h₁ rfl
              rw [hb] at h₁
              exact absurd h₁ (by simp)
            simp only [Finset.mem_insert, Dict.mem_values, Dict.get?_set] at this ⊢
            grind }

end methods

/-! ## The capacity -/

section capacity

variable {n : ℕ} {h : Hash} {slot b : ℕ}

/-- The capacity is `n`. -/
def HasCapacity (n : ℕ) (c : CpuKvContentCache Hash) : Prop := c.capacity = n

omit [DecidableEq Hash] in
theorem preserves_touch : Preserves (HasCapacity n) (touch slot : Method Hash Unit) :=
  .modify fun _ hc => hc

omit [DecidableEq Hash] in
theorem preserves_requireStepStarted :
    Preserves (HasCapacity n) (requireStepStarted : Method Hash Unit) :=
  .get_bind fun _ _ => .raiseIf

theorem preserves_commitStore : Preserves (HasCapacity n) (commitStore h b slot) := by
  refine .bind (.get_bind fun c hc => ?_) fun _ => .get_bind fun c hc => ?_
  · cases c.slotToHash.get? slot with
    | none => exact .pure _
    | some oldHash => exact .bind .raiseIf fun _ => .bind .raiseIf fun _ => .set hc
  · refine .bind .raiseIf fun _ => .bind .raiseIf fun _ => .bind (.set (by exact hc)) fun _ => ?_
    exact .bind preserves_touch fun _ => .modify fun _ hc => hc

theorem preserves_claimLoad : Preserves (HasCapacity n) (claimLoad h) := by
  refine .bind preserves_requireStepStarted fun _ => .get_bind fun c hc => ?_
  cases c.hashToSlot.get? h with
  | none => exact .bind (.set (by exact hc)) fun _ => .pure _
  | some slot =>
    refine .ite (fun _ => .bind (.set (by exact hc)) fun _ => .pure _) fun _ => ?_
    refine .bind .raiseIf fun _ => .bind (.set (by exact hc)) fun _ => .bind preserves_touch ?_
    exact fun _ => .bind (.modify fun _ hc => hc) fun _ => .pure _

theorem preserves_cancelLoad : Preserves (HasCapacity n) (cancelLoad h slot) := by
  refine .get_bind fun c hc => .bind .raiseIf fun _ => .bind .raiseIf fun _ => ?_
  refine .bind .raiseIf fun _ => .bind (.set (by exact hc)) fun _ => .bind .raiseIf fun _ => ?_
  exact .modify fun _ hc => hc

theorem preserves_stageLoad : Preserves (HasCapacity n) (stageLoad h slot b) := by
  refine .get_bind fun c hc => .bind .raiseIf fun _ => .bind .raiseIf fun _ => ?_
  refine .bind .raiseIf fun _ => .bind .raiseIf fun _ => .bind .raiseIf fun _ => ?_
  exact .bind .raiseIf fun _ => .set (by exact hc)

theorem preserves_stageStore : Preserves (HasCapacity n) (stageStore h b) := by
  refine .bind preserves_requireStepStarted fun _ => .get_bind fun c hc => ?_
  refine .ite (fun _ => ?_) fun _ => ?_
  · have hrest : Preserves (HasCapacity n) (do
        modify fun c : CpuKvContentCache Hash =>
          { c with deduplicatedStores := c.deduplicatedStores + 1 }
        pure false : Method Hash Bool) := .bind (.modify fun _ hc => hc) fun _ => .pure _
    cases c.hashToSlot.get? h with
    | none => exact hrest
    | some slot => exact .bind preserves_touch fun _ => hrest
  · refine .bind .raiseIf fun _ => ?_
    cases heappop c.freeSlots with
    | none => exact .bind (.set (by exact hc)) fun _ => .pure _
    | some p =>
      refine .bind (.set (by exact hc)) fun _ => ?_
      exact .bind preserves_commitStore fun _ => .pure _

theorem preserves_resolveDeferredStores :
    Preserves (HasCapacity n) (resolveDeferredStores : Method Hash Unit) := by
  have hrest : Preserves (HasCapacity n) (modify fun c : CpuKvContentCache Hash =>
      { c with deferredD2h := .empty, deferredHashes := ∅ } : Method Hash Unit) :=
    .modify fun _ hc => hc
  refine .get_bind fun c hc => .ite (fun _ => .bind (.set (by exact hc)) fun _ => hrest) ?_
  refine fun _ => .bind (.forM (fun e => .bind (.get_bind fun c hc => ?_) fun r => ?_) _) ?_
  · cases heappop c.freeSlots with
    | none => exact .pure _
    | some p => exact .bind (.set (by exact hc)) fun _ => .pure _
  · cases r with
    | none => exact .modify fun _ hc => hc
    | some slot => exact preserves_commitStore
  · exact fun _ => hrest

theorem preserves_drainStep :
    Preserves (HasCapacity n) (drainStep : Method Hash (SwapMapping × SwapMapping)) := by
  refine .bind preserves_resolveDeferredStores fun _ => .get_bind fun c hc => ?_
  refine .bind .raiseIf fun _ => .bind .raiseIf fun _ => .bind .raiseIf fun _ => ?_
  exact .bind (.set (by exact hc)) fun _ => .pure _

end capacity

end Ikun.CpuKvContentCache
