import Ikun.Block.Chain
import Ikun.CpuKv.Invariant

/-!
# The invariant of the allocator

Within an operation a physical block can be on its way: allocated and not yet given to a `Block`
object, or taken from one and not yet released. `InFlight` says what is on its way, and the parts of
the invariant take it into account.

* `Counts`: reference counts, tracker, free list, evictor and content index agree.
* `Contents`: an object with a hash stands on the block that the index has for the hash, an object
  without one on a block that is not in the index.
* `Tier`: the transfers that the CPU tier has staged in this step belong to blocks that the step has
  allocated.
* `PoolOk`: the kept objects are those that are not in the pool's free list.

The lemmas of this module are the moves that the methods are made of: a block is acquired, attached
to an object, detached from it, shared, revived from the evictor, or released.
-/

namespace Ikun.PrefixCachingBlockAllocator

open Exec ChainLemmas HolderLemmas

variable {Token Hash : Type} [DecidableEq Hash] {cfg : AllocatorConfig Token Hash}

/-! ## The log of a step -/

/-- No block that the step allocated had its reference count drop to zero later in the step. The
newest event comes first. -/
def NoDrop : List RefEvent → Prop
  | [] => True
  | .allocated _ :: events => NoDrop events
  | .released x :: events => .allocated x ∉ events ∧ NoDrop events

/-- `NoDrop` can be evaluated. -/
def decidableNoDrop : (events : List RefEvent) → Decidable (NoDrop events)
  | [] => inferInstanceAs (Decidable True)
  | .allocated _ :: events => decidableNoDrop events
  | .released x :: events =>
    haveI := decidableNoDrop events
    inferInstanceAs (Decidable (.allocated x ∉ events ∧ NoDrop events))

instance : DecidablePred NoDrop := decidableNoDrop

/-! ## The invariant -/

/-- What is on its way: physical blocks that no object stands on yet, contents claimed from the CPU
tier with their slots, and the object that is being filled. -/
structure InFlight (Hash : Type) where
  ids : List BlockId
  claims : List (Hash × ℕ)
  filling : Option ObjId

structure Counts (cfg : AllocatorConfig Token Hash) (K : Finset ObjId) (ids : List BlockId)
    (a : PrefixCachingBlockAllocator Token Hash) : Prop where
  refcount : ∀ x, a.refcounts x = holders K a.pool x + ids.count x
  tracked : ∀ x, (a.blockTracker x).active = true ↔ 0 < a.refcounts x
  held : ∀ x, 0 < a.refcounts x → x ∈ cfg.blockIds
  free : ∀ x ∈ a.freeBlockIndices, x ∈ cfg.blockIds ∧ a.refcounts x = 0 ∧ x ∉ a.cachedBlocks.values
  freeNodup : a.freeBlockIndices.Nodup
  evictable : ∀ x m, a.evictor.freeTable.get? x = some m →
    x ∈ cfg.blockIds ∧ a.refcounts x = 0 ∧ a.cachedBlocks.get? m.contentHash = some x
  idle : ∀ x ∈ cfg.blockIds, a.refcounts x = 0 →
    x ∈ a.freeBlockIndices ∨ a.evictor.freeTable.get? x ≠ none
  evictorWf : a.evictor.Wf
  cachedInj : ∀ h h' x, a.cachedBlocks.get? h = some x → a.cachedBlocks.get? h' = some x → h = h'
  cachedIds : ∀ h x, a.cachedBlocks.get? h = some x → x ∈ cfg.blockIds

/-- Objects stand on the blocks that the index has for their hashes. The object that is being filled
is left out. -/
structure Contents (cfg : AllocatorConfig Token Hash) (K : Finset ObjId) (filling : Option ObjId)
    (a : PrefixCachingBlockAllocator Token Hash) : Prop where
  hashed : ∀ o ∈ K, filling ≠ some o → ∀ x h, (a.pool o).blockId = some x →
    HashOf cfg a.pool o h → a.cachedBlocks.get? h = some x
  unhashed : ∀ o ∈ K, filling ≠ some o → ∀ x, (a.pool o).blockId = some x →
    ¬ isFull cfg (a.pool o) → x ∉ a.cachedBlocks.values

/-- The step of the CPU tier `c` and the blocks of the allocator. -/
structure Tier (cfg : AllocatorConfig Token Hash) (claims : List (Hash × ℕ))
    (a : PrefixCachingBlockAllocator Token Hash) (c : CpuKvContentCache Hash) : Prop where
  inStep : c.InStep
  loads : ∀ s ∈ c.stepLoadSlots, s ∈ c.stepH2d.keys ∨ s ∈ claims.map Prod.snd
  claimed : ∀ p ∈ claims, c.hashToSlot.get? p.1 = some p.2 ∧ p.2 ∈ c.stepLoadSlots ∧
    c.stepH2d.get? p.2 = none ∧ a.cachedBlocks.get? p.1 = none
  alive : ∀ x, .allocated x ∈ a.history → 0 < a.refcounts x
  promoted : ∀ s b, c.stepH2d.get? s = some b → ∃ x h, .allocated x ∈ a.history ∧
    physicalBlockId cfg x = b ∧ c.slotToHash.get? s = some h ∧ a.cachedBlocks.get? h = some x
  saved : ∀ b, c.stepD2h.get? b ≠ none ∨ c.deferredD2h.get? b ≠ none →
    ∃ x, .allocated x ∈ a.history ∧ physicalBlockId cfg x = b

/-- The pool's free list and the kept objects. -/
structure PoolOk (cfg : AllocatorConfig Token Hash) (K : Finset ObjId)
    (a : PrefixCachingBlockAllocator Token Hash) : Prop where
  freeIdsNodup : a.freeIds.Nodup
  freeIdsLt : ∀ o ∈ a.freeIds, o < a.poolSize
  keptLt : ∀ o ∈ K, o < a.poolSize
  live : ∀ o, o < a.poolSize → (o ∈ K ↔ o ∉ a.freeIds)
  nonempty : cfg.blockIds ≠ [] → 0 < a.poolSize

/-- The invariant without the pool. `g` says whether the CPU tier is within a step. -/
structure Core (cfg : AllocatorConfig Token Hash) (g : Prop) (K : Finset ObjId)
    (fl : InFlight Hash) (a : PrefixCachingBlockAllocator Token Hash) : Prop where
  chains : Chains cfg K a.pool
  counts : Counts cfg K fl.ids a
  contents : Contents cfg K fl.filling a
  tier : g → NoDrop a.history → ∀ c, a.externalCache = some c → Tier cfg fl.claims a c

/-- The invariant of the allocator, with the objects `K` in use. -/
structure Inv (cfg : AllocatorConfig Token Hash) (g : Prop) (K : Finset ObjId)
    (fl : InFlight Hash) (a : PrefixCachingBlockAllocator Token Hash) : Prop extends
    Core cfg g K fl a, PoolOk cfg K a

/-! ## Helpers -/

namespace CoreLemmas

variable {g : Prop} {K : Finset ObjId} {fl : InFlight Hash} {ids : List BlockId}
  {a a' : PrefixCachingBlockAllocator Token Hash} {o : ObjId} {x : BlockId}

theorem not_mem_values {h : Hash} {d : Dict Hash BlockId} (hx : x ∉ d.values) :
    d.get? h ≠ some x :=
  fun hh => hx (Dict.mem_values.mpr ⟨h, hh⟩)

theorem counts_pos_of_holder (hc : Counts cfg K ids a) (ho : o ∈ K)
    (hx : (a.pool o).blockId = some x) : 0 < a.refcounts x := by
  have := holders_pos ho hx
  rw [hc.refcount x]
  omega

end CoreLemmas

open CoreLemmas

/-! ## Moves -/

section moves

variable {g : Prop} {K : Finset ObjId} {fl : InFlight Hash} {ids : List BlockId}
  {a a' : PrefixCachingBlockAllocator Token Hash} {o : ObjId} {x : BlockId}

/-- The object with another physical block. -/
def setBlockId (a : PrefixCachingBlockAllocator Token Hash) (o : ObjId) (v : Option BlockId) :
    PrefixCachingBlockAllocator Token Hash :=
  { a with pool := Function.update a.pool o { a.pool o with blockId := v } }

/-- What the tier's part of the invariant reads of the allocator. -/
theorem Tier.mono {claims : List (Hash × ℕ)} {c : CpuKvContentCache Hash}
    (ht : Tier cfg claims a c) (hh : ∀ x, .allocated x ∈ a'.history ↔ .allocated x ∈ a.history)
    (hr : ∀ x, .allocated x ∈ a.history → 0 < a'.refcounts x)
    (hcached : ∀ h x, .allocated x ∈ a.history → a.cachedBlocks.get? h = some x →
      a'.cachedBlocks.get? h = some x)
    (hnone : ∀ p ∈ claims, a'.cachedBlocks.get? p.1 = none) : Tier cfg claims a' c where
  inStep := ht.inStep
  loads := ht.loads
  claimed p hp := by
    obtain ⟨h₁, h₂, h₃, _⟩ := ht.claimed p hp
    exact ⟨h₁, h₂, h₃, hnone p hp⟩
  alive x hx := hr x ((hh x).mp hx)
  promoted s b hs := by
    obtain ⟨x, h, hx, hphys, hslot, hcache⟩ := ht.promoted s b hs
    exact ⟨x, h, (hh x).mpr hx, hphys, hslot, hcached h x hx hcache⟩
  saved b hb := by
    obtain ⟨x, hx, hphys⟩ := ht.saved b hb
    exact ⟨x, (hh x).mpr hx, hphys⟩

/-- A change that the tier's part of the invariant does not read. -/
theorem Tier.congr {claims : List (Hash × ℕ)} {c : CpuKvContentCache Hash}
    (ht : Tier cfg claims a c) (hh : a'.history = a.history)
    (hr : ∀ x, 0 < a.refcounts x → 0 < a'.refcounts x)
    (hcached : a'.cachedBlocks = a.cachedBlocks) : Tier cfg claims a' c :=
  ht.mono (fun x => by rw [hh]) (fun x hx => hr x (ht.alive x hx))
    (fun h x _ hx => by rw [hcached]; exact hx)
    fun p hp => by rw [hcached]; exact (ht.claimed p hp).2.2.2

/-- Caching hashes. -/
theorem Core.rehashed (hc : Core cfg g K fl a) (hr : Rehashed cfg a a') : Core cfg g K fl a' := by
  have hid : ∀ o, (a'.pool o).blockId = (a.pool o).blockId := fun o => by rw [hr.content o]
  have htok : ∀ o, (a'.pool o).tokenIds = (a.pool o).tokenIds := fun o => by rw [hr.content o]
  have hold : ∀ x, holders K a'.pool x = holders K a.pool x := fun x =>
    holders_congr fun o _ => hid o
  refine ⟨?_, ?_, ?_, ?_⟩
  · refine hc.chains.sameContent hr.content fun o ho h hh => ?_
    rcases hr.cached o h hh with hh | hh
    · exact hc.chains.cached o ho h hh
    · exact hh
  · rw [hr.fields]
    exact { hc.counts with refcount := fun x => (hc.counts.refcount x).trans (by rw [← hold x]) }
  · refine ⟨fun o ho hfill x h hx hh => ?_, fun o ho hfill x hx hn => ?_⟩
    · rw [hr.fields]
      exact hc.contents.hashed o ho hfill x h (hid o ▸ hx)
        ((hashOf_sameContent hr.content).mp hh)
    · rw [hr.fields]
      unfold isFull at hn
      rw [htok o] at hn
      exact hc.contents.unhashed o ho hfill x (hid o ▸ hx) hn
  · intro hg hn c hcc
    rw [hr.fields] at hn hcc ⊢
    exact (hc.tier hg hn c hcc).congr rfl (fun _ h => h) rfl

/-- What an object says of its place in its chain, its tokens and its physical block. -/
def SamePlace (b b' : Block Token Hash) : Prop :=
  (b'.prevBlock = b.prevBlock ∧ b'.tokenIds = b.tokenIds ∧
    b'.cacheNamespace = b.cacheNamespace) ∧
  b'.depth = b.depth ∧ b'.cachedContentHash = b.cachedContentHash ∧ b'.blockId = b.blockId

/-- Objects outside `K`, and other fields of those in `K`, do not matter. -/
theorem Core.congr_pool {pool' : ObjId → Block Token Hash} (hc : Core cfg g K fl a)
    (heq : ∀ o ∈ K, SamePlace (a.pool o) (pool' o)) :
    Core cfg g K fl { a with pool := pool' } where
  chains := hc.chains.congr_on (fun o ho => (heq o ho).1) (fun o ho => (heq o ho).2.1)
    fun o ho => (heq o ho).2.2.1
  counts := { hc.counts with
    refcount := fun x => (hc.counts.refcount x).trans
      (by rw [holders_congr fun o ho => (heq o ho).2.2.2]) }
  contents :=
    { hashed := fun o ho hfill x h hx hh =>
        hc.contents.hashed o ho hfill x h ((heq o ho).2.2.2 ▸ hx)
          ((hc.chains.hashOf_congr_on (fun o ho => (heq o ho).1) ho).mp hh)
      unhashed := fun o ho hfill x hx hn => by
        unfold isFull at hn
        rw [(heq o ho).1.2.1] at hn
        exact hc.contents.unhashed o ho hfill x ((heq o ho).2.2.2 ▸ hx) hn }
  tier h hn c hcc := (hc.tier h hn c hcc).congr rfl (fun _ h => h) rfl

omit [DecidableEq Hash] in
/-- The hash of a chain does not depend on physical blocks. -/
theorem hashOf_setBlockId {v : Option BlockId} {q : ObjId} {h : Hash} :
    HashOf cfg (a.setBlockId o v).pool q h ↔ HashOf cfg a.pool q h := by
  have hf : ∀ q, ((a.setBlockId o v).pool q).prevBlock = (a.pool q).prevBlock ∧
      ((a.setBlockId o v).pool q).tokenIds = (a.pool q).tokenIds ∧
      ((a.setBlockId o v).pool q).cacheNamespace = (a.pool q).cacheNamespace := by
    intro q
    by_cases hq : q = o
    · simp [setBlockId, hq]
    · simp [setBlockId, Function.update_of_ne hq]
  constructor
  · exact hashOf_congr (fun _ _ _ _ => trivial) (fun q _ => (hf q).1.symm)
      (fun q _ => (hf q).2.1.symm) (fun q _ => (hf q).2.2.symm) trivial
  · exact hashOf_congr (fun _ _ _ _ => trivial) (fun q _ => (hf q).1)
      (fun q _ => (hf q).2.1) (fun q _ => (hf q).2.2) trivial

omit [DecidableEq Hash] in
theorem chains_setBlockId (hc : Chains cfg K a.pool) (o : ObjId) (v : Option BlockId) :
    Chains cfg K (a.setBlockId o v).pool := by
  refine hc.congr_on (fun q _ => ?_) (fun q _ => ?_) fun q _ => ?_
  all_goals
    by_cases hq : q = o
    · simp [setBlockId, hq]
    · simp [setBlockId, Function.update_of_ne hq]

omit [DecidableEq Hash] in
@[simp] theorem setBlockId_self (v : Option BlockId) :
    (a.setBlockId o v).pool o = { a.pool o with blockId := v } := Function.update_self _ _ _

omit [DecidableEq Hash] in
theorem setBlockId_of_ne {q : ObjId} (hq : q ≠ o) (v : Option BlockId) :
    (a.setBlockId o v).pool q = a.pool q := Function.update_of_ne hq _ _

omit [DecidableEq Hash] in
theorem isFull_setBlockId {q : ObjId} {v : Option BlockId} :
    isFull cfg ((a.setBlockId o v).pool q) ↔ isFull cfg (a.pool q) := by
  by_cases hq : q = o
  · rw [hq, setBlockId_self]
    exact Iff.rfl
  · rw [setBlockId_of_ne hq]

/-- Giving a block that is on its way to an object. -/
theorem Core.attach {claims : List (Hash × ℕ)} {filling : Option ObjId}
    (hc : Core cfg g K ⟨x :: ids, claims, filling⟩ a) (ho : o ∈ K)
    (hnone : (a.pool o).blockId = none)
    (hhash : filling ≠ some o → ∀ h, HashOf cfg a.pool o h → a.cachedBlocks.get? h = some x)
    (hnot : filling ≠ some o → ¬ isFull cfg (a.pool o) → x ∉ a.cachedBlocks.values) :
    Core cfg g K ⟨ids, claims, filling⟩ (a.setBlockId o (some x)) where
  chains := chains_setBlockId hc.chains o _
  counts := { hc.counts with
    refcount := fun y => by
      have h := hc.counts.refcount y
      have hu := holders_update (a.setBlockId o (some x)).pool y ho
        fun q _ hq => by rw [setBlockId_of_ne hq]
      simp only [setBlockId_self, hnone, reduceCtorEq, if_false, Option.some.injEq] at hu
      simp only [List.count_cons, beq_iff_eq] at h
      show a.refcounts y = holders K (a.setBlockId o (some x)).pool y + ids.count y
      omega }
  contents :=
    { hashed := fun q hq hfill y h hy hh => by
        rw [hashOf_setBlockId] at hh
        by_cases hqo : q = o
        · subst hqo
          rw [setBlockId_self] at hy
          obtain rfl := Option.some.inj hy
          exact hhash hfill h hh
        · rw [setBlockId_of_ne hqo] at hy
          exact hc.contents.hashed q hq hfill y h hy hh
      unhashed := fun q hq hfill y hy hn => by
        rw [isFull_setBlockId] at hn
        by_cases hqo : q = o
        · subst hqo
          rw [setBlockId_self] at hy
          obtain rfl := Option.some.inj hy
          exact hnot hfill hn
        · rw [setBlockId_of_ne hqo] at hy
          exact hc.contents.unhashed q hq hfill y hy hn }
  tier h hn c hcc := (hc.tier h hn c hcc).congr rfl (fun _ h => h) rfl

/-- Taking the block from an object. -/
theorem Core.detach (hc : Core cfg g K fl a) (ho : o ∈ K) (hx : (a.pool o).blockId = some x) :
    Core cfg g K ⟨x :: fl.ids, fl.claims, fl.filling⟩ (a.setBlockId o none) where
  chains := chains_setBlockId hc.chains o _
  counts := { hc.counts with
    refcount := fun y => by
      have h := hc.counts.refcount y
      have hu := holders_update (a.setBlockId o none).pool y ho
        fun q _ hq => by rw [setBlockId_of_ne hq]
      simp only [setBlockId_self, hx, reduceCtorEq, if_false, Option.some.injEq] at hu
      simp only [List.count_cons, beq_iff_eq]
      show a.refcounts y = holders K (a.setBlockId o none).pool y + _
      omega }
  contents :=
    { hashed := fun q hq hfill y h hy hh => by
        rw [hashOf_setBlockId] at hh
        by_cases hqo : q = o
        · rw [hqo, setBlockId_self] at hy
          exact absurd hy (by simp)
        · rw [setBlockId_of_ne hqo] at hy
          exact hc.contents.hashed q hq hfill y h hy hh
      unhashed := fun q hq hfill y hy hn => by
        rw [isFull_setBlockId] at hn
        by_cases hqo : q = o
        · rw [hqo, setBlockId_self] at hy
          exact absurd hy (by simp)
        · rw [setBlockId_of_ne hqo] at hy
          exact hc.contents.unhashed q hq hfill y hy hn }
  tier h hn c hcc := (hc.tier h hn c hcc).congr rfl (fun _ h => h) rfl

/-- An idle block becomes active, with one reference, and leaves the free list, the evictor and
the content index. -/
structure Acquired (cfg : AllocatorConfig Token Hash) (K : Finset ObjId) (x : BlockId)
    (a a' : PrefixCachingBlockAllocator Token Hash) : Prop where
  inRange : x ∈ cfg.blockIds
  zero : a.refcounts x = 0
  refcounts : a'.refcounts = Function.update a.refcounts x 1
  tracked : ∀ y, (a'.blockTracker y).active = if y = x then true else (a.blockTracker y).active
  free : a'.freeBlockIndices = a.freeBlockIndices.filter (· ≠ x)
  evictor : ∀ y, a'.evictor.freeTable.get? y =
    if y = x then none else a.evictor.freeTable.get? y
  evictorWf : a'.evictor.Wf
  cached : ∀ h, a'.cachedBlocks.get? h =
    if a.cachedBlocks.get? h = some x then none else a.cachedBlocks.get? h
  pool : ∀ o ∈ K, a'.pool o = a.pool o

namespace Acquired

theorem cached_of_ne (ha : Acquired cfg K x a a') {h : Hash} {y : BlockId} (hne : y ≠ x)
    (hy : a.cachedBlocks.get? h = some y) : a'.cachedBlocks.get? h = some y := by
  rw [ha.cached, hy, if_neg]
  exact fun he => hne (Option.some.inj he)

theorem cached_old (ha : Acquired cfg K x a a') {h : Hash} {y : BlockId}
    (hy : a'.cachedBlocks.get? h = some y) : a.cachedBlocks.get? h = some y ∧ y ≠ x := by
  rw [ha.cached] at hy
  split at hy
  · exact absurd hy (by simp)
  · next h' => exact ⟨hy, fun he => h' (he ▸ hy)⟩

theorem not_mem_values (ha : Acquired cfg K x a a') : x ∉ a'.cachedBlocks.values := by
  intro hx
  obtain ⟨h, hh⟩ := Dict.mem_values.mp hx
  exact (ha.cached_old hh).2 rfl

theorem counts (ha : Acquired cfg K x a a') (hc : Counts cfg K ids a) :
    Counts cfg K (x :: ids) a' where
  refcount y := by
    have h := hc.refcount y
    have hold : holders K a'.pool y = holders K a.pool y :=
      holders_congr fun o ho => by rw [ha.pool o ho]
    rw [ha.refcounts, hold, List.count_cons]
    by_cases hy : y = x
    · subst hy
      rw [ha.zero] at h
      simp only [Function.update_self, beq_self_eq_true, if_true]
      omega
    · rw [Function.update_of_ne hy, h]
      simp [Ne.symm hy]
  tracked y := by
    rw [ha.tracked, ha.refcounts]
    by_cases hy : y = x
    · simp [hy]
    · simp only [if_neg hy, Function.update_of_ne hy]
      exact hc.tracked y
  held y hy := by
    rw [ha.refcounts] at hy
    by_cases he : y = x
    · exact he ▸ ha.inRange
    · rw [Function.update_of_ne he] at hy
      exact hc.held y hy
  free y hy := by
    rw [ha.free, List.mem_filter] at hy
    have hne : y ≠ x := by simpa using hy.2
    obtain ⟨h₁, h₂, h₃⟩ := hc.free y hy.1
    refine ⟨h₁, by rw [ha.refcounts, Function.update_of_ne hne]; exact h₂, fun hv => ?_⟩
    obtain ⟨h, hh⟩ := Dict.mem_values.mp hv
    exact h₃ (Dict.mem_values.mpr ⟨h, (ha.cached_old hh).1⟩)
  freeNodup := by
    rw [ha.free]
    exact hc.freeNodup.filter _
  evictable y m hy := by
    rw [ha.evictor] at hy
    split at hy
    · exact absurd hy (by simp)
    · next hne =>
      obtain ⟨h₁, h₂, h₃⟩ := hc.evictable y m hy
      exact ⟨h₁, by rw [ha.refcounts, Function.update_of_ne hne]; exact h₂, ha.cached_of_ne hne h₃⟩
  idle y hy hz := by
    rw [ha.refcounts] at hz
    have hne : y ≠ x := by
      rintro rfl
      simp at hz
    rw [Function.update_of_ne hne] at hz
    rw [ha.free, ha.evictor, if_neg hne, List.mem_filter]
    exact (hc.idle y hy hz).imp_left fun h => ⟨h, by simpa using hne⟩
  evictorWf := ha.evictorWf
  cachedInj h h' y hy hy' := hc.cachedInj h h' y (ha.cached_old hy).1 (ha.cached_old hy').1
  cachedIds h y hy := hc.cachedIds h y (ha.cached_old hy).1

theorem contents (ha : Acquired cfg K x a a') (hch : Chains cfg K a.pool)
    (hcn : Counts cfg K ids a) {filling : Option ObjId} (hc : Contents cfg K filling a) :
    Contents cfg K filling a' where
  hashed o ho hfill y h hy hh := by
    rw [ha.pool o ho] at hy
    have hne : y ≠ x := by
      rintro rfl
      exact absurd ha.zero (Nat.ne_of_gt (counts_pos_of_holder hcn ho hy))
    refine ha.cached_of_ne hne (hc.hashed o ho hfill y h hy ?_)
    exact (hch.hashOf_congr_on (fun q hq => by rw [ha.pool q hq]; exact ⟨rfl, rfl, rfl⟩) ho).mp hh
  unhashed o ho hfill y hy hn := by
    rw [ha.pool o ho] at hy hn
    intro hv
    obtain ⟨h, hh⟩ := Dict.mem_values.mp hv
    exact hc.unhashed o ho hfill y hy hn (Dict.mem_values.mpr ⟨h, (ha.cached_old hh).1⟩)

theorem chains (ha : Acquired cfg K x a a') (hc : Chains cfg K a.pool) : Chains cfg K a'.pool :=
  hc.congr_on (fun o ho => by rw [ha.pool o ho]; exact ⟨rfl, rfl, rfl⟩)
    (fun o ho => by rw [ha.pool o ho]) fun o ho => by rw [ha.pool o ho]

/-- The tier, if the block is logged as allocated and the tier itself is not involved. -/
theorem tier (ha : Acquired cfg K x a a')
    (hh : a'.history = .allocated x :: a.history) {claims : List (Hash × ℕ)}
    {c : CpuKvContentCache Hash} (ht : Tier cfg claims a c) : Tier cfg claims a' c where
  inStep := ht.inStep
  loads := ht.loads
  claimed p hp := by
    obtain ⟨h₁, h₂, h₃, h₄⟩ := ht.claimed p hp
    exact ⟨h₁, h₂, h₃, by rw [ha.cached, h₄]; rfl⟩
  alive y hy := by
    rw [ha.refcounts]
    by_cases he : y = x
    · simp [he]
    · rw [Function.update_of_ne he]
      rw [hh, List.mem_cons] at hy
      exact ht.alive y (hy.resolve_left fun h => he (RefEvent.allocated.inj h))
  promoted s b hs := by
    obtain ⟨y, h, hy, hphys, hslot, hcache⟩ := ht.promoted s b hs
    refine ⟨y, h, hh ▸ List.mem_cons_of_mem _ hy, hphys, hslot, ha.cached_of_ne ?_ hcache⟩
    rintro rfl
    exact absurd ha.zero (Nat.ne_of_gt (ht.alive y hy))
  saved b hb := by
    obtain ⟨y, hy, hphys⟩ := ht.saved b hb
    exact ⟨y, hh ▸ List.mem_cons_of_mem _ hy, hphys⟩

end Acquired

/-- One more reference to an active block. -/
theorem Core.share (hc : Core cfg g K fl a) (hx : 0 < a.refcounts x) :
    Core cfg g K ⟨x :: fl.ids, fl.claims, fl.filling⟩
      { a with refcounts := Function.update a.refcounts x (a.refcounts x + 1) } := by
  have hpos : ∀ y, 0 < Function.update a.refcounts x (a.refcounts x + 1) y ↔ 0 < a.refcounts y := by
    intro y
    by_cases hy : y = x
    · simp [hy, hx]
    · rw [Function.update_of_ne hy]
  have hzero : ∀ y, Function.update a.refcounts x (a.refcounts x + 1) y = 0 ↔ a.refcounts y = 0 := by
    intro y
    have := hpos y
    omega
  exact
    { chains := hc.chains
      counts := { hc.counts with
        refcount := fun y => by
          have h := hc.counts.refcount y
          rw [List.count_cons]
          show Function.update a.refcounts x (a.refcounts x + 1) y = holders K a.pool y + _
          by_cases hy : y = x
          · subst hy
            simp only [Function.update_self, beq_self_eq_true, if_true]
            omega
          · rw [Function.update_of_ne hy]
            simp only [beq_iff_eq, Ne.symm hy, if_false]
            omega
        tracked := fun y => (hc.counts.tracked y).trans (hpos y).symm
        held := fun y hy => hc.counts.held y ((hpos y).mp hy)
        free := fun y hy => by
          obtain ⟨h₁, h₂, h₃⟩ := hc.counts.free y hy
          exact ⟨h₁, (hzero y).mpr h₂, h₃⟩
        evictable := fun y m hy => by
          obtain ⟨h₁, h₂, h₃⟩ := hc.counts.evictable y m hy
          exact ⟨h₁, (hzero y).mpr h₂, h₃⟩
        idle := fun y hy hz => hc.counts.idle y hy ((hzero y).mp hz) }
      contents := { hc.contents with }
      tier := fun h hn c hcc => (hc.tier h hn c hcc).congr rfl (fun y hy => (hpos y).mpr hy) rfl }

/-- Giving up a block on its way that others still use. -/
theorem Core.unshare (hc : Core cfg g K ⟨x :: ids, fl.claims, fl.filling⟩ a)
    (hx : 1 < a.refcounts x) :
    Core cfg g K ⟨ids, fl.claims, fl.filling⟩
      { a with refcounts := Function.update a.refcounts x (a.refcounts x - 1) } := by
  have hpos : ∀ y, 0 < Function.update a.refcounts x (a.refcounts x - 1) y ↔ 0 < a.refcounts y := by
    intro y
    by_cases hy : y = x
    · rw [hy, Function.update_self]
      omega
    · rw [Function.update_of_ne hy]
  have hzero : ∀ y, Function.update a.refcounts x (a.refcounts x - 1) y = 0 ↔ a.refcounts y = 0 := by
    intro y
    have := hpos y
    omega
  exact
    { chains := hc.chains
      counts := { hc.counts with
        refcount := fun y => by
          have h := hc.counts.refcount y
          rw [List.count_cons] at h
          show Function.update a.refcounts x (a.refcounts x - 1) y = holders K a.pool y + ids.count y
          by_cases hy : y = x
          · subst hy
            simp only [beq_self_eq_true, if_true] at h
            rw [Function.update_self]
            omega
          · rw [Function.update_of_ne hy]
            simp only [beq_iff_eq, Ne.symm hy, if_false] at h
            omega
        tracked := fun y => (hc.counts.tracked y).trans (hpos y).symm
        held := fun y hy => hc.counts.held y ((hpos y).mp hy)
        free := fun y hy => by
          obtain ⟨h₁, h₂, h₃⟩ := hc.counts.free y hy
          exact ⟨h₁, (hzero y).mpr h₂, h₃⟩
        evictable := fun y m hy => by
          obtain ⟨h₁, h₂, h₃⟩ := hc.counts.evictable y m hy
          exact ⟨h₁, (hzero y).mpr h₂, h₃⟩
        idle := fun y hy hz => hc.counts.idle y hy ((hzero y).mp hz) }
      contents := { hc.contents with }
      tier := fun h hn c hcc => (hc.tier h hn c hcc).congr rfl (fun y hy => (hpos y).mpr hy) rfl }

/-- The last reference to a block goes. -/
structure LastReleased (x : BlockId) (a a' : PrefixCachingBlockAllocator Token Hash) : Prop where
  refcounts : a'.refcounts = Function.update a.refcounts x 0
  tracked : ∀ y, (a'.blockTracker y).active = if y = x then false else (a.blockTracker y).active
  evictorWf : a'.evictor.Wf
  cached : a'.cachedBlocks = a.cachedBlocks
  pool : a'.pool = a.pool
  history : a'.history = .released x :: a.history
  externalCache : a'.externalCache = a.externalCache

/-- After the last reference to a block on its way, the block is free or evictable. -/
theorem Core.releaseLast (hc : Core cfg g K ⟨x :: ids, fl.claims, fl.filling⟩ a)
    (hx : a.refcounts x = 1) (hr : LastReleased x a a')
    (hplace : x ∉ a.cachedBlocks.values ∧ a'.freeBlockIndices = x :: a.freeBlockIndices ∧
        a'.evictor.freeTable = a.evictor.freeTable ∨
      ∃ m, a.cachedBlocks.get? m.contentHash = some x ∧
        a'.freeBlockIndices = a.freeBlockIndices ∧
        ∀ y, a'.evictor.freeTable.get? y =
          if y = x then some m else a.evictor.freeTable.get? y) :
    Core cfg g K ⟨ids, fl.claims, fl.filling⟩ a' := by
  have hxb : x ∈ cfg.blockIds := hc.counts.held x (by omega)
  have hzero : ∀ y, y ≠ x → a'.refcounts y = a.refcounts y := fun y hy => by
    rw [hr.refcounts, Function.update_of_ne hy]
  have hzx : a'.refcounts x = 0 := by rw [hr.refcounts, Function.update_self]
  have hfree : x ∉ a.freeBlockIndices := fun h => by
    have := (hc.counts.free x h).2.1
    omega
  have hev : a.evictor.freeTable.get? x = none := by
    cases hm : a.evictor.freeTable.get? x with
    | none => rfl
    | some m =>
      have := (hc.counts.evictable x m hm).2.1
      omega
  have hdrop : NoDrop a'.history → .allocated x ∉ a.history ∧ NoDrop a.history := by
    rw [hr.history]
    exact id
  refine ⟨hr.pool ▸ hc.chains, ?_, ?_, ?_⟩
  · refine
      { refcount := fun y => ?_
        tracked := fun y => ?_
        held := fun y hy => ?_
        free := fun y hy => ?_
        freeNodup := ?_
        evictable := fun y m hy => ?_
        idle := fun y hy hz => ?_
        evictorWf := hr.evictorWf
        cachedInj := by rw [hr.cached]; exact hc.counts.cachedInj
        cachedIds := by rw [hr.cached]; exact hc.counts.cachedIds }
    · have h := hc.counts.refcount y
      rw [List.count_cons] at h
      rw [hr.pool]
      by_cases hy : y = x
      · subst hy
        simp only [beq_self_eq_true, if_true] at h
        show a'.refcounts y = holders K a.pool y + ids.count y
        omega
      · simp only [beq_iff_eq, Ne.symm hy, if_false] at h
        rw [hzero y hy]
        exact h
    · rw [hr.tracked]
      by_cases hy : y = x
      · simp [hy, hzx]
      · rw [if_neg hy, hzero y hy]
        exact hc.counts.tracked y
    · by_cases he : y = x
      · exact he ▸ hxb
      · rw [hzero y he] at hy
        exact hc.counts.held y hy
    · rw [hr.cached]
      by_cases he : y = x
      · subst he
        rcases hplace with ⟨hv, _, _⟩ | ⟨m, _, hf, _⟩
        · exact ⟨hxb, hzx, hv⟩
        · rw [hf] at hy
          exact absurd hy hfree
      · rw [hzero y he]
        refine hc.counts.free y ?_
        rcases hplace with ⟨_, hf, _⟩ | ⟨m, _, hf, _⟩
        · rw [hf] at hy
          exact (List.mem_cons.mp hy).resolve_left he
        · exact hf ▸ hy
    · rcases hplace with ⟨_, hf, _⟩ | ⟨m, _, hf, _⟩
      · rw [hf]
        exact List.nodup_cons.mpr ⟨hfree, hc.counts.freeNodup⟩
      · rw [hf]
        exact hc.counts.freeNodup
    · rw [hr.cached]
      rcases hplace with ⟨_, _, he⟩ | ⟨m', hm', _, he⟩
      · rw [he] at hy
        have hne : y ≠ x := by
          rintro rfl
          rw [hev] at hy
          exact absurd hy (by simp)
        rw [hzero y hne]
        exact hc.counts.evictable y m hy
      · rw [he] at hy
        by_cases hne : y = x
        · subst hne
          rw [if_pos rfl] at hy
          obtain rfl := Option.some.inj hy
          exact ⟨hxb, hzx, hm'⟩
        · rw [if_neg hne] at hy
          rw [hzero y hne]
          exact hc.counts.evictable y m hy
    · by_cases hne : y = x
      · subst hne
        rcases hplace with ⟨_, hf, _⟩ | ⟨m', _, _, he⟩
        · exact Or.inl (hf ▸ List.mem_cons_self)
        · exact Or.inr (by rw [he, if_pos rfl]; simp)
      · rw [hzero y hne] at hz
        rcases hplace with ⟨_, hf, he⟩ | ⟨m', _, hf, he⟩
        · rw [hf, he]
          exact (hc.counts.idle y hy hz).imp_left (List.mem_cons_of_mem _)
        · rw [hf, he, if_neg hne]
          exact hc.counts.idle y hy hz
  · refine ⟨?_, ?_⟩
    · rw [hr.pool, hr.cached]
      exact hc.contents.hashed
    · rw [hr.pool, hr.cached]
      exact hc.contents.unhashed
  · intro hg hn c hcc
    rw [hr.externalCache] at hcc
    obtain ⟨hna, hn'⟩ := hdrop hn
    have ht := hc.tier hg hn' c hcc
    refine ht.mono (fun y => ?_) (fun y hy => ?_) (fun h y _ hy => ?_) fun p hp => ?_
    · rw [hr.history, List.mem_cons]
      exact ⟨fun h => h.resolve_left (by simp), Or.inr⟩
    · have hne : y ≠ x := fun he => hna (he ▸ hy)
      rw [hzero y hne]
      exact ht.alive y hy
    · rw [hr.cached]
      exact hy
    · rw [hr.cached]
      exact (ht.claimed p hp).2.2.2

end moves

end Ikun.PrefixCachingBlockAllocator
