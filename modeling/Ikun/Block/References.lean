import Ikun.Block.Physical

/-!
# References of objects to physical blocks

The specifications of the methods that take a reference for an object (`_incr_refcount_cached_block`),
give one up (`_decr_refcount_*_block`, `_free_block_id`, `free`), or move an object to another block
(`promote_to_immutable_block`).
-/

namespace Ikun.PrefixCachingBlockAllocator

open Exec ChainLemmas HolderLemmas CoreLemmas

variable {Token Hash : Type} [DecidableEq Hash] {cfg : AllocatorConfig Token Hash}
  {g : Prop} {K : Finset ObjId} {ids : List BlockId} {claims : List (Hash × ℕ)}
  {filling : Option ObjId} {a a' a'' : PrefixCachingBlockAllocator Token Hash}
  {o : ObjId} {x y : BlockId} {h : Hash}

/-! ## Frames -/

/-- Object `o` moved to `v`. The other objects of `K` and the pool's free list stay. -/
structure Moved (K : Finset ObjId) (o : ObjId) (v : Option BlockId)
    (a a' : PrefixCachingBlockAllocator Token Hash) : Prop where
  others : Keeps (K.erase o) a a'
  self : SameNode { a.pool o with blockId := v } (a'.pool o)
  poolSize : a'.poolSize = a.poolSize
  freeIds : a'.freeIds = a.freeIds

omit [DecidableEq Hash] in
theorem Moved.of_pool {v : Option BlockId} {b : Block Token Hash}
    (hpool : a'.pool = Function.update a.pool o b)
    (hb : SameNode { a.pool o with blockId := v } b)
    (hs : a'.poolSize = a.poolSize) (hf : a'.freeIds = a.freeIds) : Moved K o v a a' where
  others := Keeps.of_update (Finset.notMem_erase o K) hpool
  self := by
    rw [hpool, Function.update_self]
    exact hb
  poolSize := hs
  freeIds := hf

omit [DecidableEq Hash] in
theorem Moved.trans {v w : Option BlockId} (h : Moved K o v a a') (h' : Moved K o w a' a'') :
    Moved K o w a a'' where
  others := h.others.trans h'.others
  self := by
    obtain ⟨h₁, h₂, h₃, h₄, _⟩ := h.self
    obtain ⟨h₁', h₂', h₃', h₄', h₅'⟩ := h'.self
    exact ⟨h₁'.trans h₁, h₂'.trans h₂, h₃'.trans h₃, h₄'.trans h₄, h₅'⟩
  poolSize := h'.poolSize.trans h.poolSize
  freeIds := h'.freeIds.trans h.freeIds

omit [DecidableEq Hash] in
/-- Caching hashes before a move. -/
theorem Rehashed.moved {v : Option BlockId} (hr : Rehashed cfg a a') (h : Moved K o v a' a'') :
    Moved K o v a a'' where
  others := (hr.keeps _).trans h.others
  self := by
    have hself := h.self
    rw [hr.content o] at hself
    exact hself
  poolSize := by rw [h.poolSize, hr.fields]
  freeIds := by rw [h.freeIds, hr.fields]

omit [DecidableEq Hash] in
theorem Moved.blockId {v : Option BlockId} (h : Moved K o v a a') : (a'.pool o).blockId = v :=
  h.self.2.2.2.2

omit [DecidableEq Hash] in
/-- A move keeps the hashes. -/
theorem Moved.hashOf {v : Option BlockId} (hm : Moved K o v a a') (hc : Chains cfg K a.pool)
    {q : ObjId} (hq : q ∈ K) : HashOf cfg a'.pool q h ↔ HashOf cfg a.pool q h := by
  refine hc.hashOf_congr_on (fun q hq => ?_) hq
  by_cases hqo : q = o
  · subst hqo
    exact ⟨hm.self.1, hm.self.2.1, hm.self.2.2.1⟩
  · obtain ⟨h₁, h₂, h₃, _⟩ := hm.others q (Finset.mem_erase.mpr ⟨hqo, hq⟩)
    exact ⟨h₁, h₂, h₃⟩

/-! ## Giving up a reference -/

/-- `_decr_refcount_hashless_block`. The block returns to the free list with its last reference, so
the content index must not have it then. -/
theorem wp_decrRefcountHashlessBlock (hc : Core cfg g K ⟨ids, claims, filling⟩ a) (ho : o ∈ K)
    (hx : (a.pool o).blockId = some x) (hlast : a.refcounts x = 1 → x ∉ a.cachedBlocks.values) :
    wp (decrRefcountHashlessBlock cfg o)
      (fun _ a' => Core cfg g K ⟨ids, claims, filling⟩ a' ∧ Moved K o none a a' ∧
        a'.cachedBlocks = a.cachedBlocks ∧ a'.externalCache = a.externalCache ∧
        (a'.history = a.history ∨ a'.history = .released x :: a.history))
      (fun _ _ => False) a := by
  have hpos := counts_pos_of_holder hc.counts ho hx
  have hxb := hc.counts.held x hpos
  have hdetach := hc.detach ho hx
  unfold decrRefcountHashlessBlock
  simp only [wp_bind, wp_get, hx, wp_assertSome_some]
  refine (wp_refcount hxb).mpr ?_
  by_cases hone : a.refcounts x = 1
  · have hactive : (a.blockTracker x).active = true := (hc.counts.tracked x).mpr hpos
    simp only [hone, if_true, wp_bind]
    refine (wp_untrackBlockId hxb hactive).mpr ?_
    simp only [wp_modifyBlock]
    refine (wp_decr_last hxb (by exact hone)).mpr ?_
    simp only [if_true, wp_modify]
    refine ⟨hdetach.releaseLast hone
        { refcounts := rfl
          tracked := fun y => ?_
          evictorWf := hc.counts.evictorWf
          cached := rfl
          pool := rfl
          history := rfl
          externalCache := rfl }
        (Or.inl ⟨hlast hone, rfl, rfl⟩),
      Moved.of_pool rfl (SameNode.refl _) rfl rfl, trivial, trivial, Or.inr trivial⟩
    by_cases hy : y = x
    · simp [hy]
    · simp [hy, setBlockId]
  · simp only [hone, if_false, wp_bind, wp_modifyBlock]
    have hmany : 1 < a.refcounts x := by omega
    have hne : a.refcounts x - 1 ≠ 0 := by omega
    refine (wp_decr_shared hxb (by exact hmany)).mpr ?_
    simp only [hne, if_false, wp_pure]
    exact ⟨hdetach.unshare hmany, Moved.of_pool rfl (SameNode.refl _) rfl rfl, trivial, trivial,
      Or.inl trivial⟩

/-- `_decr_refcount_cached_block`. The block becomes evictable with its last reference. -/
theorem wp_decrRefcountCachedBlock (hc : Core cfg g K ⟨ids, claims, filling⟩ a) (ho : o ∈ K)
    (hfill : filling ≠ some o) (hx : (a.pool o).blockId = some x) (hh : HashOf cfg a.pool o h) :
    wp (decrRefcountCachedBlock cfg o)
      (fun _ a' => Core cfg g K ⟨ids, claims, filling⟩ a' ∧ Moved K o none a a')
      (fun _ _ => False) a := by
  unfold decrRefcountCachedBlock
  simp only [wp_bind]
  refine wp_mono (wp_contentHash hc.chains ho) ?_ fun _ _ he => he
  rintro r a₁ ⟨hr, hiff⟩
  obtain rfl : r = some h := (hiff h).mpr hh
  have hc₁ := hc.rehashed hr
  have hx₁ : (a₁.pool o).blockId = some x := by
    rw [hr.content o]
    exact hx
  have hh₁ : HashOf cfg a₁.pool o h := (hashOf_sameContent hr.content).mpr hh
  have hcache := hc₁.contents.hashed o ho hfill x h hx₁ hh₁
  have hpos := counts_pos_of_holder hc₁.counts ho hx₁
  have hxb := hc₁.counts.held x hpos
  have hdetach := hc₁.detach ho hx₁
  simp only [wp_assertSome_some, wp_get, hx₁]
  by_cases hone : a₁.refcounts x = 1
  · refine (wp_decr_last hxb hone).mpr ?_
    have hcontains : a₁.cachedBlocks.contains h = true := Dict.contains_iff.mpr (by simp [hcache])
    have hactive : (a₁.blockTracker x).active = true := (hc₁.counts.tracked x).mpr hpos
    simp only [lt_irrefl, if_false, wp_bind, wp_get, wp_assertThat, hcontains, not_true_eq_false,
      false_imp_iff, true_imp_iff, true_and, onEvictor, wp_focus]
    obtain ⟨e', hrun, htable, hwf⟩ := Evictor.add_ok (b := x) (h := h)
      (n := (a₁.pool o).cachedNumTokensTotal) (t := (a₁.blockTracker x).lastAccessed)
      hc₁.counts.evictorWf
    refine (wp_ok hrun).mpr ?_
    refine (wp_untrackBlockId hxb (by exact hactive)).mpr ?_
    simp only [wp_modifyBlock]
    refine ⟨hdetach.releaseLast hone
        { refcounts := rfl
          tracked := fun y => ?_
          evictorWf := hwf
          cached := rfl
          pool := rfl
          history := rfl
          externalCache := rfl }
        (Or.inr ⟨⟨h, (a₁.pool o).cachedNumTokensTotal, (a₁.blockTracker x).lastAccessed⟩, hcache, rfl,
          fun y => ?_⟩),
      hr.moved (Moved.of_pool rfl (SameNode.refl _) rfl rfl)⟩
    · by_cases hy : y = x
      · simp [hy]
      · simp [hy, setBlockId]
    · simp only [htable, Dict.get?_set]
      rfl
  · have hmany : 1 < a₁.refcounts x := by omega
    have hpos' : 0 < a₁.refcounts x - 1 := by omega
    refine (wp_decr_shared hxb hmany).mpr ?_
    simp only [hpos', if_true, wp_modifyBlock]
    exact ⟨hdetach.unshare hmany,
      hr.moved (Moved.of_pool rfl (SameNode.refl _) rfl rfl)⟩

/-- `_free_block_id`. -/
theorem wp_freeBlockId (hc : Core cfg g K ⟨ids, claims, none⟩ a) (ho : o ∈ K) :
    wp (freeBlockId cfg o)
      (fun _ a' => Core cfg g K ⟨ids, claims, none⟩ a' ∧ Moved K o none a a')
      (fun e _ => e = .assertionError) a := by
  unfold freeBlockId
  simp only [wp_bind, wp_get, wp_discard]
  cases hx : (a.pool o).blockId with
  | none => rfl
  | some x =>
    simp only [wp_assertSome_some]
    refine wp_mono (wp_contentHash hc.chains ho) ?_ fun _ _ he => he.elim
    rintro r a₁ ⟨hr, hiff⟩
    have hc₁ := hc.rehashed hr
    have hx₁ : (a₁.pool o).blockId = some x := by
      rw [hr.content o]
      exact hx
    have hdone : ∀ a₂, Core cfg g K ⟨ids, claims, none⟩ a₂ ∧ Moved K o none a₁ a₂ →
        wp (assertThat ((a₂.pool o).blockId = none))
          (fun _ a' => Core cfg g K ⟨ids, claims, none⟩ a' ∧ Moved K o none a a')
          (fun e _ => e = .assertionError) a₂ := by
      rintro a₂ ⟨hc₂, hm⟩
      rw [wp_assertThat]
      exact ⟨fun hn => absurd hm.blockId hn, fun _ => ⟨hc₂, hr.moved hm⟩⟩
    cases r with
    | some h =>
      have hh := (hiff h).mp rfl
      simp only [wp_bind]
      refine wp_mono (wp_decrRefcountCachedBlock hc₁ ho (by simp) hx₁
        ((hashOf_sameContent hr.content).mpr hh)) ?_ fun _ _ he => he.elim
      exact fun _ a₂ h₂ => hdone a₂ h₂
    | none =>
      have hnot : ¬ isFull cfg (a₁.pool o) := by
        intro hf
        obtain ⟨h, hh⟩ := hc₁.chains.hashOf_of_full ho hf
        have := (hiff h).mpr ((hashOf_sameContent hr.content).mp hh)
        exact absurd this (by simp)
      simp only [wp_bind]
      refine wp_mono (wp_decrRefcountHashlessBlock hc₁ ho hx₁ fun _ =>
        hc₁.contents.unhashed o ho (by simp) x hx₁ hnot) ?_ fun _ _ he => he.elim
      exact fun _ a₂ h₂ => hdone a₂ ⟨h₂.1, h₂.2.1⟩

/-! ## Taking a reference to cached content -/

/-- An object moves to the block on its way that has its content. -/
theorem Core.onCached (hc : Core cfg g K ⟨y :: ids, claims, filling⟩ a) (ho : o ∈ K)
    (hnone : (a.pool o).blockId = none) (hh : HashOf cfg a.pool o h)
    (hcache : a.cachedBlocks.get? h = some y) {b : Block Token Hash}
    (hb : b = { a.pool o with blockId := some y, computed := true }) :
    Core cfg g K ⟨ids, claims, filling⟩ { a with pool := Function.update a.pool o b } := by
  have hattach := hc.attach ho hnone
    (fun _ h' hh' => hashOf_unique hh hh' ▸ hcache) (fun _ hn => absurd (hashOf_full hh) hn)
  refine hattach.congr_pool fun q _ => ?_
  by_cases hq : q = o
  · subst hq
    simp only [setBlockId_self, Function.update_self, hb]
    exact ⟨⟨rfl, rfl, rfl⟩, rfl, rfl, rfl⟩
  · simp only [setBlockId_of_ne hq, Function.update_of_ne hq]
    exact ⟨⟨rfl, rfl, rfl⟩, rfl, rfl, rfl⟩

/-- `_incr_refcount_cached_block`, after the object was set to the block that has its content. -/
theorem wp_incrRefcountCachedBlock (hc : Core cfg g K ⟨ids, claims, filling⟩ a) (ho : o ∈ K)
    (hnone : (a.pool o).blockId = none) (hh : HashOf cfg a.pool o h)
    (hcache : a.cachedBlocks.get? h = some y) :
    wp (incrRefcountCachedBlock cfg o)
      (fun _ a' => Core cfg g K ⟨ids, claims, filling⟩ a' ∧ Moved K o (some y) a a' ∧
        a'.cachedBlocks = a.cachedBlocks)
      (fun _ _ => False) (a.setBlockId o (some y)) := by
  have hyb := hc.counts.cachedIds h y hcache
  have hset : ∀ b : Block Token Hash,
      Function.update (a.setBlockId o (some y)).pool o b = Function.update a.pool o b :=
    fun b => by unfold setBlockId; simp only [Function.update_idem]
  unfold incrRefcountCachedBlock
  simp only [wp_bind, wp_modifyBlock, wp_get, Function.update_self, setBlockId_self,
    wp_assertSome_some, hset]
  refine (wp_incr hyb).mpr ?_
  by_cases hzero : a.refcounts y = 0
  · have hmem : a.evictor.freeTable.get? y ≠ none := by
      rcases hc.counts.idle y hyb hzero with hf | he
      · exact absurd (Dict.mem_values.mpr ⟨h, hcache⟩) (hc.counts.free y hf).2.2
      · exact he
    have hinactive : (a.blockTracker y).active = false := by
      have := hc.counts.tracked y
      rw [hzero] at this
      simpa using this
    obtain ⟨e', hrun, htable, hwf⟩ := Evictor.remove_ok hc.counts.evictorWf hmem
    have hcontains : a.evictor.freeTable.contains y = true := Dict.contains_iff.mpr hmem
    have hcount : (a.setBlockId o (some y)).refcounts y + 1 = 1 := congrArg (· + 1) hzero
    have hev : (a.setBlockId o (some y)).evictor = a.evictor := rfl
    simp only [hcount, if_true, wp_bind, wp_get, hev, hcontains, onEvictor, wp_focus]
    refine (wp_ok hrun).mpr ?_
    refine (wp_trackBlockId hyb (by exact hinactive)).mpr ?_
    have hrevive : Core cfg g K ⟨y :: ids, claims, filling⟩ { a with
        evictor := e'
        refcounts := Function.update a.refcounts y 1
        blockTracker := Function.update a.blockTracker y ⟨true, defaultLastAccessedTime, true⟩ } :=
      hc.revive hzero hcache
      { refcounts := rfl
        tracked := fun z => by by_cases hz : z = y <;> simp [hz]
        evictor := fun z => by simp only [htable, Dict.get?_erase]
        evictorWf := hwf
        cached := rfl
        free := rfl
        pool := rfl
        history := rfl
        externalCache := rfl }
    exact ⟨hrevive.onCached ho hnone hh hcache rfl,
      Moved.of_pool rfl ⟨rfl, rfl, rfl, rfl, rfl⟩ rfl rfl, rfl⟩
  · have hne : (a.setBlockId o (some y)).refcounts y + 1 ≠ 1 := by
      show a.refcounts y + 1 ≠ 1
      omega
    simp only [hne, if_false, wp_pure]
    exact ⟨(hc.share (by omega)).onCached ho hnone hh hcache rfl,
      Moved.of_pool rfl ⟨rfl, rfl, rfl, rfl, rfl⟩ rfl rfl, rfl⟩

/-! ## Promotion -/

/-- `promote_to_immutable_block` of an object that was just filled: it enters its block into the
content index, or moves to the block that has the same content. -/
theorem wp_promoteToImmutableBlock (hc : Core cfg g K ⟨ids, [], some o⟩ a) (ho : o ∈ K)
    (hx : (a.pool o).blockId = some x) (hone : a.refcounts x = 1)
    (hfresh : x ∉ a.cachedBlocks.values) (hh : HashOf cfg a.pool o h) :
    wp (promoteToImmutableBlock cfg o)
      (fun y a' => Core cfg g K ⟨ids, [], none⟩ a' ∧ Moved K o (some y) a a')
      (fun _ _ => False) a := by
  unfold promoteToImmutableBlock
  simp only [wp_bind]
  refine wp_mono (wp_contentHash hc.chains ho) ?_ fun _ _ he => he
  rintro r a₁ ⟨hr, hiff⟩
  obtain rfl : r = some h := (hiff h).mpr hh
  have hc₁ := hc.rehashed hr
  have hx₁ : (a₁.pool o).blockId = some x := by
    rw [hr.content o]
    exact hx
  have hh₁ : HashOf cfg a₁.pool o h := (hashOf_sameContent hr.content).mpr hh
  have hone₁ : a₁.refcounts x = 1 := by rw [hr.fields]; exact hone
  have hfresh₁ : x ∉ a₁.cachedBlocks.values := by rw [hr.fields]; exact hfresh
  have hxb := hc₁.counts.held x (by omega)
  simp only [wp_assertSome_some, wp_get, hx₁]
  refine (wp_refcount hxb).mpr ?_
  simp only [hone₁, wp_assertThat, Nat.one_pos, not_true_eq_false, false_imp_iff, true_imp_iff,
    true_and]
  cases hnew : a₁.cachedBlocks.get? h with
  | none =>
    simp only [wp_bind, wp_modify, wp_pure]
    have henter := hc₁.enter a₁.externalCache [] ho hx₁ hone₁ hfresh₁ hnew hh₁
      fun hg hn c hcc => (hc₁.tier hg hn c hcc).mono (fun _ => Iff.rfl)
        (fun y hy => (hc₁.tier hg hn c hcc).alive y hy)
        (fun h' y _ hy => by
          have hne : h' ≠ h := by
            rintro rfl
            rw [hnew] at hy
            exact absurd hy (by simp)
          simp only [Dict.get?_set_ne _ hne]
          exact hy)
        fun p hp => absurd hp (by simp)
    refine ⟨henter.metadata rfl fun _ => rfl, hr.moved ?_⟩
    refine ⟨Keeps.of_eq fun _ _ => rfl, ?_, rfl, rfl⟩
    exact ⟨rfl, rfl, rfl, rfl, hx₁⟩
  | some y =>
    simp only [wp_bind]
    refine wp_mono (wp_decrRefcountHashlessBlock hc₁ ho hx₁ fun _ => hfresh₁) ?_ fun _ _ he => he
    rintro _ a₂ ⟨hc₂, hm₂, hcached₂, _, _⟩
    have hh₂ : HashOf cfg a₂.pool o h := (hm₂.hashOf hc₁.chains ho).mpr hh₁
    have hnew₂ : a₂.cachedBlocks.get? h = some y := hcached₂ ▸ hnew
    simp only [wp_modifyBlock]
    refine wp_mono (wp_incrRefcountCachedBlock hc₂ ho hm₂.blockId hh₂ hnew₂) ?_ fun _ _ he => he
    rintro _ a₃ ⟨hc₃, hm₃, hcached₃⟩
    have hh₃ : HashOf cfg a₃.pool o h := (hm₃.hashOf hc₂.chains ho).mpr hh₂
    refine ⟨hc₃.stopFilling (fun z hz h' hh' => ?_) (fun z _ hn => absurd (hashOf_full hh₃) hn),
      hr.moved (hm₂.trans hm₃)⟩
    rw [hm₃.blockId] at hz
    rw [hashOf_unique hh' hh₃, hcached₃, ← hz]
    exact hnew₂

end Ikun.PrefixCachingBlockAllocator
