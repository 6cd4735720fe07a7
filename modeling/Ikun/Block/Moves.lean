import Ikun.Block.Invariant

/-!
# Moves that change objects and the content index

`Invariant` has the moves of physical blocks. Here are those of `Block` objects, which come and go
and are filled, and of blocks that the content index knows: revived from the evictor, or newly
entered into the index.
-/

namespace Ikun.PrefixCachingBlockAllocator

open ChainLemmas HolderLemmas CoreLemmas

variable {Token Hash : Type} [DecidableEq Hash] {cfg : AllocatorConfig Token Hash}
  {g : Prop} {K : Finset ObjId} {fl : InFlight Hash} {ids : List BlockId}
  {claims : List (Hash × ℕ)} {filling : Option ObjId}
  {a a' : PrefixCachingBlockAllocator Token Hash} {o : ObjId} {x : BlockId} {h : Hash}

/-! ## Data that the invariant does not read -/

/-- Metadata: what `mark_blocks_as_accessed`, `mark_blocks_as_computed`, the metrics and the list of
copies change. -/
theorem Core.metadata (hc : Core cfg g K fl a)
    (heq : a' = { a with
      touchedBlocks := a'.touchedBlocks
      blockTracker := a'.blockTracker
      poolSize := a'.poolSize
      freeIds := a'.freeIds
      copyOnWrites := a'.copyOnWrites
      metricData := a'.metricData })
    (hactive : ∀ x, (a'.blockTracker x).active = (a.blockTracker x).active) :
    Core cfg g K fl a' := by
  rw [heq]
  exact
    { chains := hc.chains
      counts := { hc.counts with
        tracked := fun x => by
          rw [← hc.counts.tracked x, ← hactive x] }
      contents := { hc.contents with }
      tier := fun hg hn c hcc => (hc.tier hg hn c hcc).congr rfl (fun _ hx => hx) rfl }

/-- New metadata of a block in the evictor. -/
theorem Core.evictorUpdated {e : Evictor Hash} (hc : Core cfg g K fl a) (hwf : e.Wf)
    (htable : ∀ x, (e.freeTable.get? x).map (·.contentHash) =
      (a.evictor.freeTable.get? x).map (·.contentHash)) :
    Core cfg g K fl { a with evictor := e } where
  chains := hc.chains
  counts := { hc.counts with
    evictable := fun x m hm => by
      have he := htable x
      rw [hm] at he
      obtain ⟨m', hm', hh⟩ := Option.map_eq_some_iff.mp he.symm
      obtain ⟨h₁, h₂, h₃⟩ := hc.counts.evictable x m' hm'
      exact ⟨h₁, h₂, by rw [← h₃, hh]⟩
    idle := fun x hx hz => by
      refine (hc.counts.idle x hx hz).imp_right fun hne hnone => hne ?_
      have he := htable x
      rw [hnone] at he
      exact Option.map_eq_none_iff.mp he.symm
    evictorWf := hwf }
  contents := { hc.contents with }
  tier hg hn c hcc := (hc.tier hg hn c hcc).congr rfl (fun _ hx => hx) rfl

/-! ## Blocks of the content index -/

/-- A block of the content index that nobody uses becomes active, with one reference. -/
structure Revived (x : BlockId) (a a' : PrefixCachingBlockAllocator Token Hash) : Prop where
  refcounts : a'.refcounts = Function.update a.refcounts x 1
  tracked : ∀ y, (a'.blockTracker y).active = if y = x then true else (a.blockTracker y).active
  evictor : ∀ y, a'.evictor.freeTable.get? y =
    if y = x then none else a.evictor.freeTable.get? y
  evictorWf : a'.evictor.Wf
  cached : a'.cachedBlocks = a.cachedBlocks
  free : a'.freeBlockIndices = a.freeBlockIndices
  pool : a'.pool = a.pool
  history : a'.history = a.history
  externalCache : a'.externalCache = a.externalCache

theorem Core.revive (hc : Core cfg g K ⟨ids, claims, filling⟩ a) (hx : a.refcounts x = 0)
    (hh : a.cachedBlocks.get? h = some x) (hr : Revived x a a') :
    Core cfg g K ⟨x :: ids, claims, filling⟩ a' := by
  have hcount : ∀ y, y ≠ x → a'.refcounts y = a.refcounts y := fun y hy => by
    rw [hr.refcounts, Function.update_of_ne hy]
  have hone : a'.refcounts x = 1 := by rw [hr.refcounts, Function.update_self]
  refine ⟨hr.pool ▸ hc.chains, ?_, ?_, ?_⟩
  · refine
      { refcount := fun y => ?_
        tracked := fun y => ?_
        held := fun y hy => ?_
        free := fun y hy => ?_
        freeNodup := hr.free ▸ hc.counts.freeNodup
        evictable := fun y m hy => ?_
        idle := fun y hy hz => ?_
        evictorWf := hr.evictorWf
        cachedInj := hr.cached ▸ hc.counts.cachedInj
        cachedIds := hr.cached ▸ hc.counts.cachedIds }
    · have hold := hc.counts.refcount y
      rw [hr.pool]
      show a'.refcounts y = holders K a.pool y + (x :: ids).count y
      change a.refcounts y = holders K a.pool y + ids.count y at hold
      rw [List.count_cons]
      by_cases hy : y = x
      · subst hy
        simp only [beq_self_eq_true, if_true]
        omega
      · simp only [beq_iff_eq, Ne.symm hy, if_false]
        rw [hcount y hy, hold, Nat.add_zero]
    · rw [hr.tracked]
      by_cases hy : y = x
      · simp [hy, hone]
      · rw [if_neg hy, hcount y hy]
        exact hc.counts.tracked y
    · by_cases he : y = x
      · exact he ▸ hc.counts.cachedIds h x hh
      · rw [hcount y he] at hy
        exact hc.counts.held y hy
    · rw [hr.free] at hy
      obtain ⟨h₁, h₂, h₃⟩ := hc.counts.free y hy
      have hne : y ≠ x := by
        rintro rfl
        exact h₃ (Dict.mem_values.mpr ⟨h, hh⟩)
      rw [hcount y hne, hr.cached]
      exact ⟨h₁, h₂, h₃⟩
    · rw [hr.evictor] at hy
      split at hy
      · exact absurd hy (by simp)
      · next hne =>
        rw [hcount y hne, hr.cached]
        exact hc.counts.evictable y m hy
    · have hne : y ≠ x := by
        rintro rfl
        omega
      rw [hcount y hne] at hz
      rw [hr.free, hr.evictor, if_neg hne]
      exact hc.counts.idle y hy hz
  · refine ⟨?_, ?_⟩
    · rw [hr.pool, hr.cached]
      exact hc.contents.hashed
    · rw [hr.pool, hr.cached]
      exact hc.contents.unhashed
  · intro hg hn c hcc
    rw [hr.history] at hn
    rw [hr.externalCache] at hcc
    refine (hc.tier hg hn c hcc).congr hr.history (fun y hy => ?_) hr.cached
    by_cases he : y = x
    · rw [he, hone]
      exact Nat.one_pos
    · rw [hcount y he]
      exact hy

/-- Entering the block of the object that is being filled into the content index. No other object
stands on the block. -/
theorem Core.enter (c : Option (CpuKvContentCache Hash)) (newClaims : List (Hash × ℕ))
    (hc : Core cfg g K ⟨ids, claims, some o⟩ a) (ho : o ∈ K)
    (hx : (a.pool o).blockId = some x) (hone : a.refcounts x = 1)
    (hfresh : x ∉ a.cachedBlocks.values) (hnew : a.cachedBlocks.get? h = none)
    (hh : HashOf cfg a.pool o h)
    (htier : g → NoDrop a.history → ∀ c', c = some c' →
      Tier cfg newClaims { a with cachedBlocks := a.cachedBlocks.set h x } c') :
    Core cfg g K ⟨ids, newClaims, none⟩
      { a with cachedBlocks := a.cachedBlocks.set h x, externalCache := c } := by
  have hxb : x ∈ cfg.blockIds := hc.counts.held x (by omega)
  have hother : ∀ q ∈ K, q ≠ o → (a.pool q).blockId ≠ some x := by
    intro q hq hne hqx
    have hcount := hc.counts.refcount x
    change a.refcounts x = holders K a.pool x + ids.count x at hcount
    exact hne (eq_of_holders_le_one (by omega) hq ho hqx hx)
  have hget : ∀ h', (a.cachedBlocks.set h x).get? h' =
      if h' = h then some x else a.cachedBlocks.get? h' := fun h' => Dict.get?_set _ _ _ _
  have hvalues : ∀ y, y ∈ (a.cachedBlocks.set h x).values ↔ y = x ∨ y ∈ a.cachedBlocks.values := by
    intro y
    simp only [Dict.mem_values, hget]
    constructor
    · rintro ⟨h', hy⟩
      split at hy
      · exact Or.inl (Option.some.inj hy).symm
      · exact Or.inr ⟨h', hy⟩
    · rintro (rfl | ⟨h', hy⟩)
      · exact ⟨h, if_pos rfl⟩
      · refine ⟨h', ?_⟩
        rw [if_neg]
        · exact hy
        · rintro rfl
          rw [hnew] at hy
          exact absurd hy (by simp)
  refine ⟨hc.chains, ?_, ?_, ?_⟩
  · exact
      { hc.counts with
        free := fun y hy => by
          obtain ⟨h₁, h₂, h₃⟩ := hc.counts.free y hy
          refine ⟨h₁, h₂, fun hv => ?_⟩
          rcases (hvalues y).mp hv with rfl | hv
          · omega
          · exact h₃ hv
        evictable := fun y m hy => by
          obtain ⟨h₁, h₂, h₃⟩ := hc.counts.evictable y m hy
          refine ⟨h₁, h₂, ?_⟩
          rw [hget, if_neg]
          · exact h₃
          · intro he
            rw [he, hnew] at h₃
            exact absurd h₃ (by simp)
        cachedInj := fun h₁ h₂ y hy₁ hy₂ => by
          rw [hget] at hy₁ hy₂
          split at hy₁ <;> split at hy₂
          · next he he' => exact he.trans he'.symm
          · obtain rfl := Option.some.inj hy₁
            exact absurd hy₂ (not_mem_values hfresh)
          · obtain rfl := Option.some.inj hy₂
            exact absurd hy₁ (not_mem_values hfresh)
          · exact hc.counts.cachedInj h₁ h₂ y hy₁ hy₂
        cachedIds := fun h' y hy => by
          rw [hget] at hy
          split at hy
          · exact Option.some.inj hy ▸ hxb
          · exact hc.counts.cachedIds h' y hy }
  · refine ⟨fun q hq _ y h' hy hh' => ?_, fun q hq _ y hy hn => ?_⟩
    · rw [hget]
      by_cases hqo : q = o
      · subst hqo
        obtain rfl := hashOf_unique hh hh'
        rw [if_pos rfl, ← hy, hx]
      · have hcache := hc.contents.hashed q hq (fun he => hqo (Option.some.inj he).symm) y h' hy hh'
        rw [if_neg]
        · exact hcache
        · rintro rfl
          rw [hnew] at hcache
          exact absurd hcache (by simp)
    · intro hv
      by_cases hqo : q = o
      · exact hn (hqo ▸ hashOf_full hh)
      · rcases (hvalues y).mp hv with rfl | hv
        · exact hother q hq hqo hy
        · exact hc.contents.unhashed q hq (fun he => hqo (Option.some.inj he).symm) y hy hn hv
  · intro hg hn c' hcc
    exact (htier hg hn c' hcc).congr rfl (fun _ hy => hy) rfl

/-! ## Objects -/

/-- A new object that stands on no physical block yet. -/
theorem Core.withObject {b : Block Token Hash} (hc : Core cfg g K fl a) (ho : o ∉ K)
    (hid : b.blockId = none) (hhash : b.cachedContentHash = none)
    (hlen : b.tokenIds.length ≤ cfg.blockSize)
    (hprev : ∀ p, b.prevBlock = some p → p ∈ K ∧ (a.pool p).depth < b.depth ∧
      (b.tokenIds ≠ [] → isFull cfg (a.pool p))) :
    Core cfg g (insert o K) fl { a with pool := Function.update a.pool o b } := by
  have hne : ∀ q ∈ K, q ≠ o := fun q hq he => ho (he ▸ hq)
  have hold : ∀ q ∈ K, Function.update a.pool o b q = a.pool q := fun q hq =>
    Function.update_of_ne (hne q hq) _ _
  have hself : Function.update a.pool o b o = b := Function.update_self _ _ _
  have hsame : ∀ q ∈ K, (Function.update a.pool o b q).prevBlock = (a.pool q).prevBlock ∧
      (Function.update a.pool o b q).tokenIds = (a.pool q).tokenIds ∧
      (Function.update a.pool o b q).cacheNamespace = (a.pool q).cacheNamespace :=
    fun q hq => by rw [hold q hq]; exact ⟨rfl, rfl, rfl⟩
  have hK : Chains cfg K (Function.update a.pool o b) :=
    hc.chains.congr_on hsame (fun q hq => by rw [hold q hq]) fun q hq => by rw [hold q hq]
  refine ⟨?_, ?_, ?_, ?_⟩
  · show Chains cfg (insert o K) (Function.update a.pool o b)
    refine ⟨fun q hq p hp => ?_, fun q hq p hp ht => ?_, fun q hq => ?_, fun q hq h' hh => ?_⟩
    · rcases Finset.mem_insert.mp hq with rfl | hq
      · rw [hself] at hp ⊢
        obtain ⟨hpK, hd, _⟩ := hprev p hp
        exact ⟨Finset.mem_insert_of_mem hpK, by rw [hold p hpK]; exact hd⟩
      · obtain ⟨hpK, hd⟩ := hK.prev q hq p hp
        exact ⟨Finset.mem_insert_of_mem hpK, hd⟩
    · rcases Finset.mem_insert.mp hq with rfl | hq
      · rw [hself] at hp ht
        obtain ⟨hpK, _, hf⟩ := hprev p hp
        rw [hold p hpK]
        exact hf ht
      · exact hK.fill q hq p hp ht
    · rcases Finset.mem_insert.mp hq with rfl | hq
      · rw [hself]
        exact hlen
      · exact hK.short q hq
    · rcases Finset.mem_insert.mp hq with rfl | hq
      · rw [hself, hhash] at hh
        exact absurd hh (by simp)
      · exact hK.cached q hq h' hh
  · exact
      { hc.counts with
        refcount := fun y => by
          have hh : holders K (Function.update a.pool o b) y = holders K a.pool y :=
            holders_congr fun q hq => congrArg Block.blockId (hold q hq)
          rw [holders_insert ho, hh]
          simp only [hself, hid, reduceCtorEq, if_false, Nat.add_zero]
          exact hc.counts.refcount y }
  · refine ⟨fun q hq hfill y h' hy hh => ?_, fun q hq hfill y hy hn => ?_⟩
    · rcases Finset.mem_insert.mp hq with rfl | hq
      · simp [hid] at hy
      · simp only [hold q hq] at hy
        exact hc.contents.hashed q hq hfill y h' hy ((hc.chains.hashOf_congr_on hsame hq).mp hh)
    · rcases Finset.mem_insert.mp hq with rfl | hq
      · simp [hid] at hy
      · simp only [hold q hq] at hy hn
        exact hc.contents.unhashed q hq hfill y hy hn
  · intro hg hn c hcc
    exact (hc.tier hg hn c hcc).congr rfl (fun _ hx => hx) rfl

/-- Objects that stand on no physical block, and that no kept object has before it, can go. -/
theorem Core.restrict {K' : Finset ObjId} (hc : Core cfg g K fl a) (hsub : K' ⊆ K)
    (hnone : ∀ o ∈ K, o ∉ K' → (a.pool o).blockId = none)
    (hclosed : ∀ o ∈ K', ∀ p, (a.pool o).prevBlock = some p → p ∈ K') :
    Core cfg g K' fl a where
  chains :=
    { prev := fun o ho p hp => ⟨hclosed o ho p hp, (hc.chains.prev o (hsub ho) p hp).2⟩
      fill := fun o ho => hc.chains.fill o (hsub ho)
      short := fun o ho => hc.chains.short o (hsub ho)
      cached := fun o ho => hc.chains.cached o (hsub ho) }
  counts := { hc.counts with
    refcount := fun y => by
      rw [hc.counts.refcount y]
      unfold holders
      congr 2
      ext q
      simp only [Finset.mem_filter]
      constructor
      · rintro ⟨hq, hy⟩
        by_contra hn
        have := hnone q hq fun hq' => hn ⟨hq', hy⟩
        rw [this] at hy
        exact absurd hy (by simp)
      · exact fun ⟨hq, hy⟩ => ⟨hsub hq, hy⟩ }
  contents :=
    { hashed := fun o ho => hc.contents.hashed o (hsub ho)
      unhashed := fun o ho => hc.contents.unhashed o (hsub ho) }
  tier := hc.tier

/-- An object without a physical block needs no agreement with the content index. -/
theorem Core.stopFilling (hc : Core cfg g K ⟨ids, claims, some o⟩ a)
    (hhashed : ∀ x, (a.pool o).blockId = some x → ∀ h, HashOf cfg a.pool o h →
      a.cachedBlocks.get? h = some x)
    (hunhashed : ∀ x, (a.pool o).blockId = some x → ¬ isFull cfg (a.pool o) →
      x ∉ a.cachedBlocks.values) :
    Core cfg g K ⟨ids, claims, none⟩ a where
  chains := hc.chains
  counts := hc.counts
  contents :=
    { hashed := fun q hq _ x h hx hh => by
        by_cases hqo : q = o
        · subst hqo
          exact hhashed x hx h hh
        · exact hc.contents.hashed q hq (fun he => hqo (Option.some.inj he).symm) x h hx hh
      unhashed := fun q hq _ x hx hn => by
        by_cases hqo : q = o
        · subst hqo
          exact hunhashed x hx hn
        · exact hc.contents.unhashed q hq (fun he => hqo (Option.some.inj he).symm) x hx hn }
  tier := hc.tier

/-- Filling an object that is not full, behind full blocks. -/
theorem Core.fill {b : Block Token Hash} (hc : Core cfg g K ⟨ids, claims, none⟩ a) (ho : o ∈ K)
    (hnot : ¬ isFull cfg (a.pool o))
    (hprev : ∀ p, (a.pool o).prevBlock = some p → isFull cfg (a.pool p))
    (hlen : b.tokenIds.length ≤ cfg.blockSize)
    (hb : b.prevBlock = (a.pool o).prevBlock ∧ b.depth = (a.pool o).depth ∧
      b.blockId = (a.pool o).blockId ∧ b.cachedContentHash = (a.pool o).cachedContentHash ∧
      b.cacheNamespace = (a.pool o).cacheNamespace) :
    Core cfg g K ⟨ids, claims, some o⟩ { a with pool := Function.update a.pool o b } := by
  obtain ⟨hbp, hbd, hbi, hbh, hbn⟩ := hb
  have hself : Function.update a.pool o b o = b := Function.update_self _ _ _
  have hother : ∀ q, q ≠ o → Function.update a.pool o b q = a.pool q := fun q hq =>
    Function.update_of_ne hq _ _
  have hprevs : ∀ q, (Function.update a.pool o b q).prevBlock = (a.pool q).prevBlock := by
    intro q
    by_cases hq : q = o
    · rw [hq, hself, hbp]
    · rw [hother q hq]
  have hdepths : ∀ q, (Function.update a.pool o b q).depth = (a.pool q).depth := by
    intro q
    by_cases hq : q = o
    · rw [hq, hself, hbd]
    · rw [hother q hq]
  have hids : ∀ q, (Function.update a.pool o b q).blockId = (a.pool q).blockId := by
    intro q
    by_cases hq : q = o
    · rw [hq, hself, hbi]
    · rw [hother q hq]
  have hocached : (a.pool o).cachedContentHash = none := by
    cases hh : (a.pool o).cachedContentHash with
    | none => rfl
    | some h => exact absurd (hashOf_full (hc.chains.cached o ho h hh)) hnot
  -- whatever has a hash does not have `o` in its chain, since `o` is not full
  have hhash : ∀ {q h}, HashOf cfg a.pool q h → HashOf cfg (Function.update a.pool o b) q h := by
    intro q h hh
    induction hh with
    | @first q hp hf =>
      have hq : q ≠ o := fun he => hnot (he ▸ hf)
      rw [← hother q hq] at hp hf ⊢
      exact HashOf.first hp hf
    | @next q p ph hp hf _ ih =>
      have hq : q ≠ o := fun he => hnot (he ▸ hf)
      rw [← hother q hq] at hp hf ⊢
      exact HashOf.next hp hf ih
  have hempty : ∀ q ∈ K, (a.pool q).prevBlock = some o → (a.pool q).tokenIds = [] := by
    intro q hq hp
    by_contra ht
    exact hnot (hc.chains.fill q hq o hp ht)
  have hzero : ∀ {q h}, HashOf cfg (Function.update a.pool o b) q h → q ∈ K → q ≠ o →
      HashOf cfg a.pool q h := by
    intro q h hh
    induction hh with
    | @first q hp hf =>
      intro _ hq
      rw [hother q hq] at hp hf ⊢
      exact HashOf.first hp hf
    | @next q p ph hp hf _ ih =>
      intro hqK hq
      rw [hother q hq] at hp hf ⊢
      refine HashOf.next hp hf (ih (hc.chains.prev q hqK p hp).1 ?_)
      rintro rfl
      unfold isFull at hf
      rw [hempty q hqK hp] at hf
      exact absurd hf (Nat.ne_of_lt cfg.blockSize_pos)
  refine ⟨⟨fun q hq p hp => ?_, fun q hq p hp ht => ?_, fun q hq => ?_, fun q hq h hh => ?_⟩,
    ?_, ⟨fun q hq hfill x h hx hh => ?_, fun q hq hfill x hx hn => ?_⟩, ?_⟩
  · simp only [hprevs, hdepths] at hp ⊢
    exact hc.chains.prev q hq p hp
  · simp only [hprevs] at hp
    by_cases hqo : q = o
    · subst hqo
      have hpq : p ≠ q := by
        rintro rfl
        exact absurd (hc.chains.prev p hq p hp).2 (lt_irrefl _)
      simp only [hother p hpq]
      exact hprev p hp
    · simp only [hother q hqo] at ht
      have hpo : p ≠ o := by
        rintro rfl
        exact ht (hempty q hq hp)
      simp only [hother p hpo]
      exact hc.chains.fill q hq p hp ht
  · by_cases hqo : q = o
    · rw [hqo]
      simp only [hself]
      exact hlen
    · simp only [hother q hqo]
      exact hc.chains.short q hq
  · by_cases hqo : q = o
    · subst hqo
      simp only [hself, hbh, hocached] at hh
      exact absurd hh (by simp)
    · simp only [hother q hqo] at hh
      exact hhash (hc.chains.cached q hq h hh)
  · exact
      { hc.counts with
        refcount := fun y => by
          rw [holders_congr fun q _ => hids q]
          exact hc.counts.refcount y }
  · have hqo : q ≠ o := fun he => hfill (he ▸ rfl)
    simp only [hids] at hx
    exact hc.contents.hashed q hq (by simp) x h hx (hzero hh hq hqo)
  · have hqo : q ≠ o := fun he => hfill (he ▸ rfl)
    simp only [hother q hqo] at hx hn
    exact hc.contents.unhashed q hq (by simp) x hx hn
  · intro hg hn c hcc
    exact (hc.tier hg hn c hcc).congr rfl (fun _ hx => hx) rfl

end Ikun.PrefixCachingBlockAllocator
