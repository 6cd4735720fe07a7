import Ikun.Block.Invariant

/-!
# The CPU tier during a step of the allocator

The allocator calls the methods of the CPU tier when it looks up content that no GPU block holds
(`claim_load`, `cancel_load`, `stage_load`) and when it reuses a block (`stage_store`). As long as
no block that the step has allocated is given up, the invariant `Tier` keeps the calls from raising,
and every call keeps `Tier`.
-/

namespace Ikun.PrefixCachingBlockAllocator

open Exec CpuKvContentCache

variable {Token Hash : Type} [DecidableEq Hash] {cfg : AllocatorConfig Token Hash}
  {K : Finset ObjId} {ids : List BlockId} {claims : List (Hash × ℕ)}
  {a : PrefixCachingBlockAllocator Token Hash} {c c' : CpuKvContentCache Hash}
  {h : Hash} {x y : BlockId} {slot b : ℕ}

/-! ## Helpers -/

namespace TierLemmas

omit [DecidableEq Hash] in
theorem physicalBlockId_inj (hx : x ∈ cfg.blockIds)
    (hxy : physicalBlockId cfg x = physicalBlockId cfg y) : x = y :=
  (List.idxOf_inj (List.mem_insertionSort _ |>.mpr hx)).mp hxy

/-- A block that is not in use is not one that the step has allocated. -/
theorem ne_of_allocated (ht : Tier cfg claims a c) (hc : Counts cfg K ids a)
    (hzero : a.refcounts x = 0) (hy : .allocated y ∈ a.history) :
    physicalBlockId cfg y ≠ physicalBlockId cfg x := by
  intro hxy
  have hpos := ht.alive y hy
  obtain rfl := physicalBlockId_inj (hc.held y hpos) hxy
  omega

/-- What `stage_store` leaves alone, and the one source that it adds. -/
theorem stageStore_frame (hc : c.InStep) {r : Bool} (hr : stageStore h b c = .ok r c') :
    c'.stepLoadSlots = c.stepLoadSlots ∧ c'.stepH2d = c.stepH2d ∧
      (∀ h s, c.hashToSlot.get? h = some s → c'.hashToSlot.get? h = some s) ∧
      (∀ s h, c.slotToHash.get? s = some h → c'.slotToHash.get? s = some h) ∧
      ∀ b', c'.stepD2h.get? b' ≠ none ∨ c'.deferredD2h.get? b' ≠ none →
        b' = b ∨ c.stepD2h.get? b' ≠ none ∨ c.deferredD2h.get? b' ≠ none := by
  obtain ⟨_, ⟨_, _, rfl⟩ | ⟨hh, _, _, _, _, hstore⟩⟩ := stageStore_ok_iff.mp hr
  · exact ⟨rfl, rfl, fun _ _ hs => hs, fun _ _ hs => hs, fun _ hb => Or.inr hb⟩
  · obtain ⟨slot, rest, hpop, _, rfl⟩ | ⟨_, rfl⟩ := hstore
    · have hfree : c.slotToHash.get? slot = none := hc.free slot (heappop_mem hpop)
      refine ⟨rfl, rfl, fun h' s hs => ?_, fun s h' hs => ?_, fun b' hb => ?_⟩
      · have hne : h' ≠ h := by
          rintro rfl
          rw [hh] at hs
          exact absurd hs (by simp)
        simp only [committed, indexWithout, hfree, Dict.get?_set_ne _ hne]
        exact hs
      · have hne : s ≠ slot := by
          rintro rfl
          rw [hfree] at hs
          exact absurd hs (by simp)
        simp only [committed, Dict.get?_set_ne _ hne]
        exact hs
      · simp only [committed, Dict.get?_set] at hb
        split at hb
        · next he => exact Or.inl he
        · exact Or.inr hb
    · refine ⟨rfl, rfl, fun _ _ hs => hs, fun _ _ hs => hs, fun b' hb => ?_⟩
      simp only [Dict.get?_set] at hb
      split at hb
      · next he => exact Or.inl he
      · exact Or.inr hb

end TierLemmas

open TierLemmas

/-! ## Stores -/

/-- `stage_store` of a block that is about to be reused does not raise. -/
theorem Tier.stageStore_ok (ht : Tier cfg claims a c) (hc : Counts cfg K ids a)
    (hzero : a.refcounts x = 0) :
    ∃ r c', stageStore h (physicalBlockId cfg x) c = .ok r c' := by
  have hnew : c.stepD2h.get? (physicalBlockId cfg x) = none ∧
      c.deferredD2h.get? (physicalBlockId cfg x) = none := by
    by_contra hb
    obtain ⟨y, hy, hphys⟩ := ht.saved (physicalBlockId cfg x) (by tauto)
    exact ne_of_allocated ht hc hzero hy hphys
  by_cases hkept : c.hashToSlot.get? h ≠ none ∨ h ∈ c.deferredHashes
  · exact ⟨_, _, stageStore_ok_iff.mpr ⟨ht.inStep.noPending, Or.inl ⟨hkept, rfl, rfl⟩⟩⟩
  · have hh : c.hashToSlot.get? h = none := by tauto
    have hdef : h ∉ c.deferredHashes := by tauto
    cases hpop : heappop c.freeSlots with
    | none =>
      exact ⟨_, _, stageStore_ok_iff.mpr ⟨ht.inStep.noPending,
        Or.inr ⟨hh, hdef, hnew.1, hnew.2, rfl, Or.inr ⟨hpop, rfl⟩⟩⟩⟩
    | some p =>
      obtain ⟨slot, rest⟩ := p
      have hfree := ht.inStep.free slot (heappop_mem hpop)
      have huse := ht.inStep.toTransfers.not_inUse_of_empty ht.inStep.toIndex hfree
      have hcan : ({ c with freeSlots := rest } : CpuKvContentCache Hash).CanCommit slot := by
        have hcan := ht.inStep.toTransfers.canCommit ht.inStep.toIndex huse
        exact ⟨hcan.notInUse, hcan.indexed, hcan.notSource, hcan.notDestination⟩
      exact ⟨_, _, stageStore_ok_iff.mpr ⟨ht.inStep.noPending,
        Or.inr ⟨hh, hdef, hnew.1, hnew.2, rfl, Or.inl ⟨slot, rest, hpop, hcan, rfl⟩⟩⟩⟩

theorem Tier.stored (ht : Tier cfg claims a c) {r : Bool} (hx : .allocated x ∈ a.history)
    (hr : stageStore h (physicalBlockId cfg x) c = .ok r c') : Tier cfg claims a c' := by
  obtain ⟨hloads, hh2d, hhash, hslot, hsrc⟩ := stageStore_frame ht.inStep hr
  exact
    { inStep := stageStore_inStep ht.inStep hr
      loads := by
        rw [hloads, hh2d]
        exact ht.loads
      claimed := fun p hp => by
        obtain ⟨h₁, h₂, h₃, h₄⟩ := ht.claimed p hp
        exact ⟨hhash _ _ h₁, hloads ▸ h₂, hh2d ▸ h₃, h₄⟩
      alive := ht.alive
      promoted := fun s b hs => by
        obtain ⟨y, h', hy, hphys, hs', hcache⟩ := ht.promoted s b (hh2d ▸ hs)
        exact ⟨y, h', hy, hphys, hslot _ _ hs', hcache⟩
      saved := fun b' hb => by
        rcases hsrc b' hb with rfl | hb
        · exact ⟨x, hx, rfl⟩
        · exact ht.saved b' hb }

/-! ## Loads -/

/-- A slot with content that no GPU block holds is not in use. -/
theorem Tier.not_inUse (ht : Tier cfg [] a c) (hh : a.cachedBlocks.get? h = none)
    (hslot : c.hashToSlot.get? h = some slot) (hready : slot ∈ c.readySlots) :
    slot ∉ c.stepSlotsInUse := by
  intro huse
  rcases (ht.inStep.inUse slot).mp huse with hload | hd2h
  · rcases ht.loads slot hload with hkey | hclaim
    · obtain ⟨b, hb⟩ := Dict.mem_keys.mp hkey
      obtain ⟨y, h', _, _, hs, hcache⟩ := ht.promoted slot b hb
      obtain rfl : h' = h :=
        Option.some.inj (hs.symm.trans ((ht.inStep.inverse h slot).mp hslot))
      rw [hh] at hcache
      exact absurd hcache (by simp)
    · exact absurd hclaim (by simp)
  · exact (ht.inStep.d2hFresh slot hd2h).1 hready

/-- `claim_load` of content that no GPU block holds does not raise. -/
theorem Tier.claimLoad_ok (ht : Tier cfg [] a c) (hh : a.cachedBlocks.get? h = none) :
    ∃ r c', claimLoad h c = .ok r c' := by
  by_cases hs : ∃ slot, c.hashToSlot.get? h = some slot ∧ slot ∈ c.readySlots
  · obtain ⟨slot, hslot, hready⟩ := hs
    exact ⟨_, _, claimLoad_ok_iff.mpr ⟨ht.inStep.noPending,
      Or.inr ⟨slot, hslot, hready, ht.not_inUse hh hslot hready, rfl, rfl⟩⟩⟩
  · exact ⟨_, _, claimLoad_ok_iff.mpr ⟨ht.inStep.noPending,
      Or.inl ⟨fun slot hslot hready => hs ⟨slot, hslot, hready⟩, rfl, rfl⟩⟩⟩

theorem Tier.missed (ht : Tier cfg [] a c) (hr : claimLoad h c = .ok none c') :
    Tier cfg [] a c' := by
  have hin := claimLoad_inStep ht.inStep hr
  obtain ⟨_, ⟨_, _, rfl⟩ | ⟨slot, _, _, _, he, _⟩⟩ := claimLoad_ok_iff.mp hr
  · exact { ht with inStep := hin }
  · exact absurd he (by simp)

theorem Tier.claim (ht : Tier cfg [] a c) (hh : a.cachedBlocks.get? h = none)
    (hr : claimLoad h c = .ok (some slot) c') : Tier cfg [(h, slot)] a c' := by
  have hin := claimLoad_inStep ht.inStep hr
  obtain ⟨_, ⟨_, he, _⟩ | ⟨s, hslot, _, huse, he, rfl⟩⟩ := claimLoad_ok_iff.mp hr
  · exact absurd he (by simp)
  · obtain rfl := Option.some.inj he
    refine { ht with inStep := hin, loads := fun s hs => ?_, claimed := fun p hp => ?_ }
    · rcases Finset.mem_insert.mp hs with rfl | hs
      · exact Or.inr (by simp)
      · exact Or.inl ((ht.loads s hs).resolve_right (by simp))
    · obtain rfl := List.mem_singleton.mp hp
      refine ⟨hslot, Finset.mem_insert_self _ _, ?_, hh⟩
      -- a slot that is already an H2D source is in use
      have hload : slot ∉ c.stepLoadSlots :=
        fun hs => huse ((ht.inStep.inUse slot).mpr (Or.inl hs))
      by_contra hkey
      exact hload (ht.inStep.h2dLoad slot (Dict.mem_keys.mpr (Option.ne_none_iff_exists'.mp hkey)))

/-- Giving up the claim does not raise. -/
theorem Tier.cancelLoad_ok (ht : Tier cfg [(h, slot)] a c) :
    ∃ c', cancelLoad h slot c = .ok () c' ∧ Tier cfg [] a c' := by
  obtain ⟨hslot, hload, hkey, _⟩ := ht.claimed (h, slot) (by simp)
  have huse : slot ∈ c.stepSlotsInUse := (ht.inStep.inUse slot).mpr (Or.inl hload)
  have hr : cancelLoad h slot c = .ok () _ :=
    cancelLoad_ok_iff.mpr ⟨hslot, hkey, huse, hload, rfl⟩
  refine ⟨_, hr, { ht with
    inStep := cancelLoad_inStep ht.inStep hr, loads := fun s hs => ?_,
    claimed := fun p hp => absurd hp (by simp) }⟩
  obtain ⟨hne, hs⟩ := Finset.mem_erase.mp hs
  refine Or.inl ((ht.loads s hs).resolve_right fun hm => hne ?_)
  simpa using hm

/-- Staging the claimed load into a block that the step has just allocated does not raise, and
the content index receives the block. -/
theorem Tier.stageLoad_ok (ht : Tier cfg [(h, slot)] a c) (hc : Counts cfg K ids a)
    (hx : .allocated x ∈ a.history) (hfresh : x ∉ a.cachedBlocks.values) :
    ∃ c', stageLoad h slot (physicalBlockId cfg x) c = .ok () c' ∧
      Tier cfg [] { a with cachedBlocks := a.cachedBlocks.set h x } c' := by
  obtain ⟨hslot, hload, hkey, hnone⟩ := ht.claimed (h, slot) (by simp)
  have huse : slot ∈ c.stepSlotsInUse := (ht.inStep.inUse slot).mpr (Or.inl hload)
  have hready := ht.inStep.loadReady slot hload
  have hdest : physicalBlockId cfg x ∉ c.stepH2d.values := by
    intro hm
    obtain ⟨s, hs⟩ := Dict.mem_values.mp hm
    obtain ⟨y, h', hy, hphys, _, hcache⟩ := ht.promoted s _ hs
    obtain rfl := physicalBlockId_inj (hc.held y (ht.alive y hy)) hphys
    exact hfresh (Dict.mem_values.mpr ⟨h', hcache⟩)
  have hd2h : slot ∉ c.stepD2h.values := fun hm => (ht.inStep.d2hFresh slot hm).1 hready
  have hr : stageLoad h slot (physicalBlockId cfg x) c = .ok () _ :=
    stageLoad_ok_iff.mpr ⟨hslot, hready, huse, hkey, hdest, hd2h, rfl⟩
  refine ⟨_, hr, { ht with
    inStep := stageLoad_inStep ht.inStep hr, loads := fun s hs => ?_,
    claimed := fun p hp => absurd hp (by simp), promoted := fun s b hs => ?_ }⟩
  · left
    simp only [Dict.mem_keys_set]
    rcases ht.loads s hs with hs | hs
    · exact Or.inr hs
    · exact Or.inl (by simpa using hs)
  · simp only [Dict.get?_set] at hs
    split at hs
    · next he =>
      obtain rfl := Option.some.inj hs
      refine ⟨x, h, hx, rfl, he ▸ (ht.inStep.inverse h slot).mp hslot, ?_⟩
      exact Dict.get?_set_self _ _ _
    · obtain ⟨y, h', hy, hphys, hs', hcache⟩ := ht.promoted s b hs
      refine ⟨y, h', hy, hphys, hs', ?_⟩
      have hne : h' ≠ h := by
        rintro rfl
        rw [hnone] at hcache
        exact absurd hcache (by simp)
      simp only [Dict.get?_set_ne _ hne]
      exact hcache

/-! ## Exceptions

Whatever state the tier is in, its methods do not raise `NoFreeBlocksError`. -/

theorem wp_claimLoad_raises :
    wp (claimLoad h) (fun _ _ => True) (fun e _ => e ≠ .noFreeBlocks) c := by
  unfold claimLoad requireStepStarted
  simp only [wp_bind, wp_get, wp_raiseIf]
  refine ⟨fun _ => by simp, fun _ => ?_⟩
  split
  · simp
  · split <;> simp [touch]

theorem wp_cancelLoad_raises :
    wp (cancelLoad h slot) (fun _ _ => True) (fun e _ => e ≠ .noFreeBlocks) c := by
  unfold cancelLoad
  simp

theorem wp_stageLoad_raises :
    wp (stageLoad h slot b) (fun _ _ => True) (fun e _ => e ≠ .noFreeBlocks) c := by
  unfold stageLoad
  simp

theorem wp_stageStore_raises :
    wp (stageStore h b) (fun _ _ => True) (fun e _ => e ≠ .noFreeBlocks) c := by
  unfold stageStore requireStepStarted
  simp only [wp_bind, wp_get, wp_raiseIf]
  refine ⟨fun _ => by simp, fun _ => ?_⟩
  split
  · split <;> simp [touch]
  · simp only [wp_bind, wp_raiseIf]
    refine ⟨fun _ => by simp, fun _ => ?_⟩
    split
    · unfold commitStore dropOldContent
      simp only [wp_bind, wp_set, wp_get]
      split <;> simp [touch]
    · simp

end Ikun.PrefixCachingBlockAllocator
