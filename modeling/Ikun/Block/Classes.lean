import Mathlib.Data.Finset.Card
import Ikun.Block.Runs

/-!
# The classes of physical blocks

A physical block is in the hashless free list, in the evictor, or active.

* `Reachable.representation`: in every state that a run reaches whose operations returned or raised
  `NoFreeBlocksError`, the classes partition the blocks and agree with the content index, the
  tracker, the reference counts and the count of free blocks.
* `runtimeError_loses_block`: an operation that raises a `RuntimeError` of the CPU tier can leave a
  block in none of the classes.
-/

namespace Ikun.PrefixCachingBlockAllocator

open HolderLemmas

variable {Token Hash : Type} [DecidableEq Hash] {cfg : AllocatorConfig Token Hash}
  {K : Finset ObjId} {a : PrefixCachingBlockAllocator Token Hash} {x : BlockId}

/-! ## Statement -/

inductive BlockClass
  | hashless
  | evictable
  | active
  deriving DecidableEq

/-- The class that the structures of the allocator name for a block. -/
def Member (a : PrefixCachingBlockAllocator Token Hash) (x : BlockId) : BlockClass → Prop
  | .hashless => x ∈ a.freeBlockIndices
  | .evictable => a.evictor.freeTable.contains x = true
  | .active => (a.blockTracker x).active = true

instance (a : PrefixCachingBlockAllocator Token Hash) (x : BlockId) (cls : BlockClass) :
    Decidable (Member a x cls) :=
  match cls with
  | .hashless => inferInstanceAs (Decidable (x ∈ a.freeBlockIndices))
  | .evictable => inferInstanceAs (Decidable (a.evictor.freeTable.contains x = true))
  | .active => inferInstanceAs (Decidable ((a.blockTracker x).active = true))

/-- The pool ids of the `Block` objects that are in use. -/
def liveBlocks (a : PrefixCachingBlockAllocator Token Hash) : Finset ObjId :=
  (Finset.range a.poolSize).filter (· ∉ a.freeIds)

/-- What a block's class promises. -/
def ClassOk (a : PrefixCachingBlockAllocator Token Hash) (x : BlockId) : BlockClass → Prop
  | .hashless => a.refcounts x = 0 ∧ x ∉ a.cachedBlocks.values
  | .evictable => a.refcounts x = 0 ∧ ∃ m, a.evictor.freeTable.get? x = some m ∧
      a.cachedBlocks.get? m.contentHash = some x
  | .active => 0 < a.refcounts x ∧
      a.refcounts x = (a.liveBlocks.filter fun o => (a.pool o).blockId = some x).card

/-- The representation of the allocator. -/
structure Representation (cfg : AllocatorConfig Token Hash)
    (a : PrefixCachingBlockAllocator Token Hash) : Prop where
  oneClass : ∀ x ∈ cfg.blockIds, ∃! cls, Member a x cls
  classOk : ∀ x ∈ cfg.blockIds, ∀ cls, Member a x cls → ClassOk a x cls
  cachedInj : ∀ h h' x, a.cachedBlocks.get? h = some x → a.cachedBlocks.get? h' = some x → h = h'
  activeIff : ∀ x ∈ cfg.blockIds, (a.blockTracker x).active = true ↔ 0 < a.refcounts x
  numFree : a.numFreeBlocks + (cfg.blockIds.filter fun x => (a.blockTracker x).active).length =
    cfg.blockIds.length

/-! ## Proof -/

namespace ClassLemmas

omit [DecidableEq Hash] in
/-- The kept objects are the live ones. -/
theorem liveBlocks_eq (hp : PoolOk cfg K a) : a.liveBlocks = K := by
  ext o
  simp only [liveBlocks, Finset.mem_filter, Finset.mem_range]
  constructor
  · rintro ⟨hlt, hfree⟩
    exact (hp.live o hlt).mpr hfree
  · intro ho
    have hlt := hp.keptLt o ho
    exact ⟨hlt, (hp.live o hlt).mp ho⟩

theorem active_eq_false_iff (hc : Counts cfg K [] a) :
    (a.blockTracker x).active = false ↔ a.refcounts x = 0 := by
  rw [← Bool.not_eq_true, hc.tracked x]
  omega

/-- The members of the three classes, one class after the other. -/
theorem perm_blockIds (hc : Counts cfg K [] a) :
    (a.freeBlockIndices ++ a.evictor.freeTable.keys ++
      cfg.blockIds.filter fun x => (a.blockTracker x).active).Perm cfg.blockIds := by
  have hnodup : (a.freeBlockIndices ++ a.evictor.freeTable.keys ++
      cfg.blockIds.filter fun x => (a.blockTracker x).active).Nodup := by
    refine List.Nodup.append (List.Nodup.append hc.freeNodup (Dict.nodup_keys _) ?_)
      (cfg.blockIds_nodup.filter _) ?_
    · intro x hfree hkey
      obtain ⟨m, hm⟩ := Dict.mem_keys.mp hkey
      exact (hc.free x hfree).2.2 (Dict.mem_values.mpr ⟨_, (hc.evictable x m hm).2.2⟩)
    · intro x hx hactive
      have hzero : a.refcounts x = 0 := by
        rcases List.mem_append.mp hx with hfree | hkey
        · exact (hc.free x hfree).2.1
        · obtain ⟨m, hm⟩ := Dict.mem_keys.mp hkey
          exact (hc.evictable x m hm).2.1
      have := (active_eq_false_iff hc).mpr hzero
      simp [this] at hactive
  refine (List.perm_ext_iff_of_nodup hnodup cfg.blockIds_nodup).mpr fun x => ?_
  constructor
  · intro hx
    rcases List.mem_append.mp hx with hx | hx
    · rcases List.mem_append.mp hx with hfree | hkey
      · exact (hc.free x hfree).1
      · obtain ⟨m, hm⟩ := Dict.mem_keys.mp hkey
        exact (hc.evictable x m hm).1
    · exact List.mem_of_mem_filter hx
  · intro hx
    by_cases hzero : a.refcounts x = 0
    · refine List.mem_append_left _ ?_
      rcases hc.idle x hx hzero with hfree | hkey
      · exact List.mem_append_left _ hfree
      · exact List.mem_append_right _ (Dict.mem_keys.mpr (Option.ne_none_iff_exists'.mp hkey))
    · refine List.mem_append_right _ (List.mem_filter.mpr ⟨hx, ?_⟩)
      exact (hc.tracked x).mpr (Nat.pos_of_ne_zero hzero)

/-- Members of a class have what it promises. -/
theorem classOk (hc : Counts cfg K [] a) (hp : PoolOk cfg K a) (cls : BlockClass)
    (hm : Member a x cls) : ClassOk a x cls := by
  cases cls with
  | hashless => exact (hc.free x hm).2
  | evictable =>
    obtain ⟨m, hget⟩ := Option.ne_none_iff_exists'.mp (Dict.contains_iff.mp hm)
    obtain ⟨_, hzero, hcached⟩ := hc.evictable x m hget
    exact ⟨hzero, m, hget, hcached⟩
  | active =>
    refine ⟨(hc.tracked x).mp hm, ?_⟩
    rw [liveBlocks_eq hp, hc.refcount x]
    rfl

/-- The class that the reference count and the content index determine. -/
def classOf (a : PrefixCachingBlockAllocator Token Hash) (x : BlockId) : BlockClass :=
  if 0 < a.refcounts x then .active
  else if x ∈ a.cachedBlocks.values then .evictable
  else .hashless

theorem eq_classOf {cls : BlockClass} (hok : ClassOk a x cls) : cls = classOf a x := by
  unfold classOf
  cases cls with
  | hashless =>
    obtain ⟨hzero, hcached⟩ := hok
    rw [if_neg (by omega), if_neg hcached]
  | evictable =>
    obtain ⟨hzero, m, _, hget⟩ := hok
    rw [if_neg (by omega), if_pos (Dict.mem_values.mpr ⟨_, hget⟩)]
  | active => rw [if_pos hok.1]

theorem oneClass (hc : Counts cfg K [] a) (hp : PoolOk cfg K a) (hx : x ∈ cfg.blockIds) :
    ∃! cls, Member a x cls := by
  have hexists : ∃ cls, Member a x cls := by
    by_cases hzero : a.refcounts x = 0
    · rcases hc.idle x hx hzero with hfree | hkey
      · exact ⟨.hashless, hfree⟩
      · exact ⟨.evictable, Dict.contains_iff.mpr hkey⟩
    · exact ⟨.active, (hc.tracked x).mpr (Nat.pos_of_ne_zero hzero)⟩
  obtain ⟨cls, hm⟩ := hexists
  refine ⟨cls, hm, fun cls' hm' => ?_⟩
  rw [eq_classOf (classOk hc hp cls hm), eq_classOf (classOk hc hp cls' hm')]

end ClassLemmas

open ClassLemmas

/-- The invariant is about the representation. -/
theorem representation_of_counts (hc : Counts cfg K [] a) (hp : PoolOk cfg K a) :
    Representation cfg a where
  oneClass x hx := oneClass hc hp hx
  classOk x _ cls hm := classOk hc hp cls hm
  cachedInj := hc.cachedInj
  activeIff x _ := hc.tracked x
  numFree := by
    have hlen := (perm_blockIds hc).length_eq
    rw [List.length_append, List.length_append, Dict.length_keys] at hlen
    exact hlen

end Ikun.PrefixCachingBlockAllocator

namespace Ikun.BlockTables

open Exec PrefixCachingBlockAllocator

variable {Token Hash : Type} [DecidableEq Hash] {cfg : AllocatorConfig Token Hash}
  {policy : EvictionPolicy} {external : Option (CpuKvContentCache Hash)}
  {w : BlockTables Token Hash}

/-- In every reachable state each physical block is in exactly one class, with what the class
promises, and the content index, the tracker and the number of free blocks agree with it. -/
theorem Reachable.representation (h : Reachable cfg policy external w) :
    Representation cfg w.alloc := by
  obtain ⟨K, hw⟩ := h.holds
  exact representation_of_counts hw.core.counts hw.pool

/-- An allocator with one block of one token. -/
def oneBlock : AllocatorConfig ℕ (List ℕ) where
  blockSize := 1
  blockSize_pos := by decide
  blockIds := [0]
  blockIds_nodup := by decide
  hashBlockTokens := fun prevBlockHash tokenIds _ => prevBlockHash.getD [] ++ tokenIds

/-- It has a CPU tier of two slots. -/
def oneBlockInit : BlockTables ℕ (List ℕ) :=
  BlockTables.init oneBlock .lru (some (CpuKvContentCache.fresh 2))

/-- Two prompts that come and go within one step. The second one takes the block of the first, whose
content is staged for the CPU tier. -/
def twoPrompts : List (Op ℕ) :=
  [.beginStep, .new [], .allocate 0 [1], .free 0, .new [], .allocate 1 [2], .free 1, .new []]

theorem representation_twoPrompts :
    Representation oneBlock (stateOf (runOps oneBlock twoPrompts oneBlockInit)).alloc :=
  have h : Reachable oneBlock .lru (some (CpuKvContentCache.fresh 2))
      (stateOf (runOps oneBlock twoPrompts oneBlockInit)) :=
    runOps_steps (eq_ok_of_exnOf (by decide +kernel))
  Reachable.representation h

/-- A third prompt in the same step: the evictor has given the block up, but its content cannot be
staged for the CPU tier a second time, and the block is lost. -/
theorem runtimeError_loses_block :
    ∃ w w', runOps oneBlock twoPrompts oneBlockInit = .ok () w ∧
      (Op.allocate 2 [3]).run oneBlock w =
        .error (.runtimeError "duplicate D2H source GPU block 0") w' ∧
      ¬ Representation oneBlock w'.alloc := by
  refine ⟨_, _, eq_ok_of_exnOf (by decide +kernel), eq_error_of_exnOf (by decide +kernel), ?_⟩
  intro h
  obtain ⟨cls, hm, _⟩ := h.oneClass 0 (by decide)
  revert hm
  cases cls <;> decide +kernel

end Ikun.BlockTables
