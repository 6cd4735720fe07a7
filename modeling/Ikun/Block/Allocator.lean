import Mathlib.Data.List.Sort
import Mathlib.Data.Finset.Basic
import Ikun.Block.Evictor
import Ikun.CpuKv.Cache

/-!
# The prefix-caching block allocator

`PrefixCachingBlockAllocator` hands out physical GPU blocks for KV data. Full blocks are addressed
by content: the hash of a block covers its tokens and, through the hash of the preceding block, the
whole prefix before it. A block that no sequence uses any more stays cached until it is evicted.

The allocator's objects live in a heap: `Block` objects are pooled and reinitialised, and refer to
each other by pool id. The methods are programs over the allocator, under the source's names, with
the helper objects (`RefCounter`, `BlockPool`, the hashless `NaiveBlockAllocator`,
`CopyOnWriteTracker`) laid out flat. The callbacks of the external cache are the methods of a
`CpuKvContentCache`, as `CpuGpuBlockAllocator` installs them.
-/

namespace Ikun

open Exec

/-- `assert c`. -/
def assertThat {σ : Type} (c : Prop) [Decidable c] : EStateM Exn σ Unit :=
  raiseIf (¬ c) .assertionError

/-- `assert x is not None`, and its value. -/
def assertSome {σ α : Type} : Option α → EStateM Exn σ α
  | some a => pure a
  | none => throw .assertionError

/-- A byte string. -/
abbrev Bytes := List UInt8

/-- The pool id of a `Block` object. -/
abbrev ObjId := ℕ

/-- A physical block id. -/
abbrev BlockId := ℕ

/-! ## Data -/

/-- What an allocator is built with. `hashBlockTokens prevBlockHash tokenIds cacheNamespace` is the
hash of a full block; the first block of a chain has no `prevBlockHash`. -/
structure AllocatorConfig (Token Hash : Type) where
  blockSize : ℕ
  blockSize_pos : 0 < blockSize
  blockIds : List BlockId
  blockIds_nodup : blockIds.Nodup
  hashBlockTokens : Option Hash → List Token → Bytes → Hash

/-- `BlockTracker`. -/
structure BlockTracker where
  active : Bool
  lastAccessed : ℚ
  computed : Bool

/-- `_DEFAULT_LAST_ACCESSED_TIME`. -/
def defaultLastAccessedTime : ℚ := -1

/-- `PrefixCachingBlock`, with the `NaiveBlock` inside it. `depth` is the number of blocks before it
in its chain; it is not in the source and only bounds the recursion along `prevBlock`. -/
structure Block (Token Hash : Type) where
  prevBlock : Option ObjId
  tokenIds : List Token
  blockId : Option BlockId
  computed : Bool
  cachedContentHash : Option Hash
  cacheNamespace : Bytes
  cachedNumTokensTotal : ℕ
  depth : ℕ

/-- `CacheMetricData`, with the hit rate as a rational. -/
structure CacheMetricData where
  numCompletedBlocks : ℕ
  completedBlockCacheHitRate : ℚ
  numIncompletedBlockQueries : ℕ
  numIncompletedBlockHit : ℕ

/-- `CacheMetricData.query`; a block of queries has 1000. -/
def CacheMetricData.query (m : CacheMetricData) (hit : Bool) : CacheMetricData :=
  let queries := m.numIncompletedBlockQueries + 1
  let hits := m.numIncompletedBlockHit + if hit then 1 else 0
  if queries = 1000 then
    { numCompletedBlocks := m.numCompletedBlocks + 1
      completedBlockCacheHitRate :=
        (m.completedBlockCacheHitRate * m.numCompletedBlocks + hits / queries) /
          (m.numCompletedBlocks + 1)
      numIncompletedBlockQueries := 0
      numIncompletedBlockHit := 0 }
  else { m with numIncompletedBlockQueries := queries, numIncompletedBlockHit := hits }

/-- What happened to the physical blocks, for statements about runs; no method reads it. -/
inductive RefEvent
  /-- `_allocate_block_id` returned this block. -/
  | allocated (x : BlockId)
  /-- The reference count of this block dropped to zero. -/
  | released (x : BlockId)
  deriving DecidableEq

/-- The fields of the allocator and of the objects it owns. -/
structure PrefixCachingBlockAllocator (Token Hash : Type) where
  cachedBlocks : Dict Hash BlockId
  touchedBlocks : Finset BlockId
  blockTracker : BlockId → BlockTracker
  -- `_block_pool`
  poolSize : ℕ
  freeIds : List ObjId
  pool : ObjId → Block Token Hash
  -- `_hashless_allocator` and the shared `_refcounter`
  freeBlockIndices : List BlockId
  refcounts : BlockId → ℕ
  evictor : Evictor Hash
  copyOnWrites : List (BlockId × BlockId)
  metricData : CacheMetricData
  /-- The object behind the external-cache callbacks, if they are set. -/
  externalCache : Option (CpuKvContentCache Hash)
  /-- A log of this scheduler step, newest event first; not in the source. What a handler undoes after
  an exception is not logged. -/
  history : List RefEvent

namespace PrefixCachingBlockAllocator

variable {Token Hash : Type} [DecidableEq Hash]

/-- A method of the allocator. -/
abbrev Method (Token Hash α : Type) := EStateM Exn (PrefixCachingBlockAllocator Token Hash) α

/-- A `Block` object of the pool before its first use. -/
def blankBlock : Block Token Hash where
  prevBlock := none
  tokenIds := []
  blockId := none
  computed := false
  cachedContentHash := none
  cacheNamespace := []
  cachedNumTokensTotal := 0
  depth := 0

/-- `__init__`, and `set_external_cache_callbacks` if there is an external cache. -/
def init (cfg : AllocatorConfig Token Hash) (policy : EvictionPolicy)
    (externalCache : Option (CpuKvContentCache Hash)) : PrefixCachingBlockAllocator Token Hash where
  cachedBlocks := .empty
  touchedBlocks := ∅
  blockTracker := fun _ => ⟨false, defaultLastAccessedTime, false⟩
  poolSize := cfg.blockIds.length * 4
  freeIds := List.range (cfg.blockIds.length * 4)
  pool := fun _ => blankBlock
  freeBlockIndices := cfg.blockIds
  refcounts := fun _ => 0
  evictor := Evictor.make policy
  copyOnWrites := []
  metricData := ⟨0, 0, 0, 0⟩
  externalCache := externalCache
  history := []

variable (cfg : AllocatorConfig Token Hash)

/-! ## Helper objects -/

/-- Changes a `Block` object in place. -/
def modifyBlock (o : ObjId) (f : Block Token Hash → Block Token Hash) : Method Token Hash Unit :=
  modify fun a => { a with pool := Function.update a.pool o (f (a.pool o)) }

/-- Logs an event. -/
def log (e : RefEvent) : Method Token Hash Unit :=
  modify fun a => { a with history := e :: a.history }

/-- Runs a handler. The log ends where the exception was raised. -/
def unlogged (handler : Method Token Hash Unit) : Method Token Hash Unit :=
  focus id (fun a' a => { a' with history := a.history }) handler

/-- `RefCounter.incr`. -/
def incr (x : BlockId) : Method Token Hash ℕ := do
  assertThat (x ∈ cfg.blockIds)
  let a ← get
  set { a with refcounts := Function.update a.refcounts x (a.refcounts x + 1) }
  pure (a.refcounts x + 1)

/-- `RefCounter.decr`. -/
def decr (x : BlockId) : Method Token Hash ℕ := do
  assertThat (x ∈ cfg.blockIds)
  let a ← get
  assertThat (0 < a.refcounts x)
  set { a with refcounts := Function.update a.refcounts x (a.refcounts x - 1) }
  if a.refcounts x - 1 = 0 then log (.released x)
  pure (a.refcounts x - 1)

/-- `RefCounter.get`. -/
def refcount (x : BlockId) : Method Token Hash ℕ := do
  assertThat (x ∈ cfg.blockIds)
  pure ((← get).refcounts x)

/-- `_track_block_id`. -/
def trackBlockId (x : BlockId) (computed : Bool) : Method Token Hash Unit := do
  let a ← get
  raiseIf (x ∉ cfg.blockIds) .keyError
  assertThat ((a.blockTracker x).active = false)
  set { a with
    blockTracker := Function.update a.blockTracker x ⟨true, defaultLastAccessedTime, computed⟩ }

/-- `_untrack_block_id`. -/
def untrackBlockId (x : BlockId) : Method Token Hash Unit := do
  let a ← get
  raiseIf (x ∉ cfg.blockIds) .keyError
  assertThat ((a.blockTracker x).active = true)
  set { a with
    blockTracker := Function.update a.blockTracker x ⟨false, defaultLastAccessedTime, false⟩ }

/-- A method of the evictor. -/
def onEvictor {α : Type} (m : EStateM Exn (Evictor Hash) α) : Method Token Hash α :=
  focus evictor (fun e a => { a with evictor := e }) m

/-- An external-cache callback. -/
def onExternalCache {α : Type} (m : CpuKvContentCache.Method Hash α) : Method Token Hash α := do
  let c ← assertSome (← get).externalCache
  focus (fun _ => c) (fun c' a => { a with externalCache := some c' }) m

/-- `BlockPool.increase_pool`. -/
def increasePool : Method Token Hash Unit :=
  modify fun a => { a with
    poolSize := a.poolSize * 2
    freeIds := a.freeIds ++ List.range' a.poolSize a.poolSize
    pool := fun o => if a.poolSize ≤ o ∧ o < a.poolSize * 2 then blankBlock else a.pool o }

/-- `num_tokens_total` of the block before, as `_update_num_tokens_total` reads it. -/
def prevNumTokensTotal (a : PrefixCachingBlockAllocator Token Hash) : Option ObjId → ℕ
  | none => 0
  | some p => (a.pool p).cachedNumTokensTotal

/-- The beginning of `BlockPool.init_block`: a free pool id. -/
def takePoolId : Method Token Hash ObjId := do
  if (← get).freeIds = [] then increasePool
  match (← get).freeIds with
  | [] => throw .assertionError
  | o :: rest =>
    modify fun a => { a with freeIds := rest }
    pure o

/-- The namespace of the block before. -/
def inheritedNamespace (a : PrefixCachingBlockAllocator Token Hash) : Option ObjId → Bytes
  | none => []
  | some p => (a.pool p).cacheNamespace

/-- The number of blocks up to the block before. -/
def prevDepth (a : PrefixCachingBlockAllocator Token Hash) : Option ObjId → ℕ
  | none => 0
  | some p => (a.pool p).depth + 1

/-- `BlockPool.init_block`, which runs `PrefixCachingBlock.__init__` on a pooled object. The
namespace is inherited from the block before. -/
def poolInitBlock (prevBlock : Option ObjId) (tokenIds : List Token)
    (physicalBlockId : Option BlockId) : Method Token Hash ObjId := do
  let o ← takePoolId
  let a ← get
  modifyBlock o fun _ => { blankBlock with
    prevBlock := prevBlock
    blockId := physicalBlockId
    cacheNamespace := a.inheritedNamespace prevBlock
    depth := a.prevDepth prevBlock }
  assertThat (tokenIds.length ≤ cfg.blockSize)
  modifyBlock o fun b => { b with
    tokenIds := tokenIds
    cachedNumTokensTotal := a.prevNumTokensTotal prevBlock + tokenIds.length }
  pure o

/-- `BlockPool.free_block`. -/
def poolFreeBlock (o : ObjId) : Method Token Hash Unit :=
  modify fun a => { a with freeIds := o :: a.freeIds }

/-! ## Blocks -/

/-- `is_full`. -/
def isFull (b : Block Token Hash) : Prop := b.tokenIds.length = cfg.blockSize

instance (b : Block Token Hash) : Decidable (isFull cfg b) := inferInstanceAs (Decidable (_ = _))

/-- The recursion of `content_hash` along the chain. -/
def contentHashRec : ℕ → ObjId → Method Token Hash (Option Hash)
  | 0, _ => throw .recursionError
  | fuel + 1, o => do
    let b := (← get).pool o
    match b.cachedContentHash with
    | some h => pure (some h)
    | none =>
      if ¬ isFull cfg b then pure none
      else
        match b.prevBlock with
        | none =>
          let h := cfg.hashBlockTokens none b.tokenIds b.cacheNamespace
          modifyBlock o fun b => { b with cachedContentHash := some h }
          pure (some h)
        | some p =>
          match ← contentHashRec fuel p with
          | none => pure none
          | some prevBlockHash =>
            let h := cfg.hashBlockTokens (some prevBlockHash) b.tokenIds b.cacheNamespace
            modifyBlock o fun b => { b with cachedContentHash := some h }
            pure (some h)

/-- `PrefixCachingBlock.content_hash`: the cached hash, or the hash of a full block whose
predecessors are full, which is cached from then on. -/
def contentHash (o : ObjId) : Method Token Hash (Option Hash) := do
  contentHashRec cfg (((← get).pool o).depth + 1) o

/-- The namespace of a block: the given one, or else that of the block before. -/
def resolvedNamespace (a : PrefixCachingBlockAllocator Token Hash) (prevBlock : Option ObjId)
    (cacheNamespace : Bytes) : Bytes :=
  if cacheNamespace = [] then a.inheritedNamespace prevBlock else cacheNamespace

/-- `_init_block`. -/
def initBlock (prevBlock : Option ObjId) (tokenIds : List Token)
    (physicalBlockId : Option BlockId) (cacheNamespace : Bytes) : Method Token Hash ObjId := do
  let o ← poolInitBlock cfg prevBlock tokenIds physicalBlockId
  let a ← get
  raiseIf ((a.pool o).cachedContentHash ≠ none)
    (.runtimeError "pooled prefix block retained a content hash during init")
  modifyBlock o fun b => { b with cacheNamespace := a.resolvedNamespace prevBlock cacheNamespace }
  pure o

/-! ## Physical blocks -/

/-- `get_physical_block_id`: the position among the allocator's ids. -/
def physicalBlockId (x : BlockId) : ℕ := (cfg.blockIds.insertionSort (· ≤ ·)).idxOf x

/-- `_maybe_allocate_hashless_block_id`. The `Block` object that the hashless allocator makes is
given back at once. -/
def maybeAllocateHashlessBlockId : Method Token Hash (Option BlockId) := do
  match (← get).freeBlockIndices with
  | [] => pure none
  | x :: rest =>
    modify fun a => { a with freeBlockIndices := rest }
    discard (incr cfg x)
    let o ← poolInitBlock cfg none [] (some x)
    poolFreeBlock o
    trackBlockId cfg x false
    pure (some x)

/-- `_maybe_allocate_evicted_block_id`. -/
def maybeAllocateEvictedBlockId : Method Token Hash (Option BlockId) := do
  if (← get).evictor.numBlocks = 0 then
    pure none
  else
    let (x, contentHashToEvict) ← onEvictor Evictor.evict
    let x' ← assertSome ((← get).cachedBlocks.get? contentHashToEvict)
    let count ← refcount cfg x'
    assertThat (count = 0)
    assertThat (x' = x)
    if (← get).externalCache.isSome then
      discard (onExternalCache
        (CpuKvContentCache.stageStore contentHashToEvict (physicalBlockId cfg x)))
    modify fun a => { a with cachedBlocks := a.cachedBlocks.erase contentHashToEvict }
    discard (incr cfg x)
    trackBlockId cfg x false
    pure (some x)

/-- `_allocate_block_id`: a hashless block, else an evicted one. -/
def allocateBlockId : Method Token Hash BlockId := do
  match ← maybeAllocateHashlessBlockId cfg with
  | some x =>
    log (.allocated x)
    pure x
  | none =>
    match ← maybeAllocateEvictedBlockId cfg with
    | some x =>
      log (.allocated x)
      pure x
    | none => throw .noFreeBlocks

/-- `_incr_refcount_cached_block`. -/
def incrRefcountCachedBlock (o : ObjId) : Method Token Hash Unit := do
  modifyBlock o fun b => { b with computed := true }
  let x ← assertSome ((← get).pool o).blockId
  let count ← incr cfg x
  if count = 1 then
    if (← get).evictor.freeTable.contains x then onEvictor (Evictor.remove x)
    trackBlockId cfg x true

/-- `_decr_refcount_cached_block`. -/
def decrRefcountCachedBlock (o : ObjId) : Method Token Hash Unit := do
  let h ← assertSome (← contentHash cfg o)
  let x ← assertSome ((← get).pool o).blockId
  let count ← decr cfg x
  if 0 < count then
    modifyBlock o fun b => { b with blockId := none }
  else
    let a ← get
    assertThat (a.cachedBlocks.contains h = true)
    onEvictor (Evictor.add x h (a.pool o).cachedNumTokensTotal (a.blockTracker x).lastAccessed)
    untrackBlockId cfg x
    modifyBlock o fun b => { b with blockId := none }

/-- `_decr_refcount_hashless_block`. -/
def decrRefcountHashlessBlock (o : ObjId) : Method Token Hash Unit := do
  let x ← assertSome ((← get).pool o).blockId
  let count ← refcount cfg x
  if count = 1 then untrackBlockId cfg x
  modifyBlock o fun b => { b with blockId := none }
  let count ← decr cfg x
  if count = 0 then modify fun a => { a with freeBlockIndices := x :: a.freeBlockIndices }

/-- `_free_block_id`. -/
def freeBlockId (o : ObjId) : Method Token Hash Unit := do
  discard (assertSome ((← get).pool o).blockId)
  match ← contentHash cfg o with
  | some _ => decrRefcountCachedBlock cfg o
  | none => decrRefcountHashlessBlock cfg o
  assertThat (((← get).pool o).blockId = none)

/-- `free`. -/
def free (o : ObjId) : Method Token Hash Unit := do
  freeBlockId cfg o
  poolFreeBlock o

/-- `promote_to_immutable_block`. -/
def promoteToImmutableBlock (o : ObjId) : Method Token Hash BlockId := do
  let h ← assertSome (← contentHash cfg o)
  let x ← assertSome ((← get).pool o).blockId
  let count ← refcount cfg x
  assertThat (0 < count)
  match (← get).cachedBlocks.get? h with
  | none =>
    modify fun a => { a with
      cachedBlocks := a.cachedBlocks.set h x
      touchedBlocks := insert x a.touchedBlocks }
    pure x
  | some y =>
    decrRefcountHashlessBlock cfg o
    modifyBlock o fun b => { b with blockId := some y }
    incrRefcountCachedBlock cfg o
    pure y

/-- `cow_block_if_not_appendable`. It is called on the inner `NaiveBlock`, which has no content
hash, so that `_free_block_id` takes the hashless path. -/
def cowBlockIfNotAppendable (o : ObjId) : Method Token Hash BlockId := do
  let srcBlockId ← assertSome ((← get).pool o).blockId
  let count ← refcount cfg srcBlockId
  if count ≤ 1 then
    pure srcBlockId
  else
    decrRefcountHashlessBlock cfg o
    assertThat (((← get).pool o).blockId = none)
    let trgBlockId ← allocateBlockId cfg
    modify fun a => { a with copyOnWrites := a.copyOnWrites ++ [(srcBlockId, trgBlockId)] }
    pure trgBlockId

/-- `NaiveBlock.append_token_ids` of the inner block. -/
def naiveAppendTokenIds (o : ObjId) (tokenIds : List Token) : Method Token Hash Unit := do
  let b := (← get).pool o
  assertThat (tokenIds.length ≤ cfg.blockSize - b.tokenIds.length)
  modifyBlock o fun b => { b with tokenIds := b.tokenIds ++ tokenIds }
  if b.blockId.isSome then
    let x ← cowBlockIfNotAppendable cfg o
    modifyBlock o fun b => { b with blockId := some x }

/-- `PrefixCachingBlock.append_token_ids`. -/
def appendTokenIds (o : ObjId) (tokenIds : List Token) : Method Token Hash Unit := do
  assertThat ((← contentHash cfg o).isNone)
  assertThat (((← get).pool o).computed = false)
  if tokenIds = [] then
    pure ()
  else
    naiveAppendTokenIds cfg o tokenIds
    modify fun a => { a with pool := Function.update a.pool o { a.pool o with
      cachedNumTokensTotal :=
        a.prevNumTokensTotal (a.pool o).prevBlock + (a.pool o).tokenIds.length } }
    match ← contentHash cfg o with
    | none => pure ()
    | some _ =>
      let x ← promoteToImmutableBlock cfg o
      modifyBlock o fun b => { b with blockId := some x }

/-- `allocate_mutable_block_with_cache_namespace`; without a namespace, `allocate_mutable_block`. -/
def allocateMutableBlock (prevBlock : Option ObjId) (cacheNamespace : Bytes) :
    Method Token Hash ObjId := do
  let x ← allocateBlockId cfg
  let o ← initBlock cfg prevBlock [] (some x) cacheNamespace
  assertThat (((← get).pool o).computed = false)
  assertThat ((← contentHash cfg o).isNone)
  pure o

/-- The end of `_maybe_restore_external_cached_block`: the content of the claimed slot is staged for
the block that `o` stands on. -/
def loadClaimedBlock (o : ObjId) (h : Hash) (cpuSlot : ℕ) (x : BlockId) :
    Method Token Hash Bool := do
  onException
    (onExternalCache (CpuKvContentCache.stageLoad h cpuSlot (physicalBlockId cfg x)))
    (unlogged do
      decrRefcountHashlessBlock cfg o
      onExternalCache (CpuKvContentCache.cancelLoad h cpuSlot)
      poolFreeBlock o)
  raiseIf ((← get).cachedBlocks.contains h = true)
    (.runtimeError "external prefix promotion raced with a GPU cache insert")
  modify fun a => { a with
    cachedBlocks := a.cachedBlocks.set h x
    blockTracker :=
      Function.update a.blockTracker x { a.blockTracker x with computed := true } }
  modifyBlock o fun b => { b with computed := true }
  pure true

/-- `_maybe_restore_external_cached_block`, once a slot is claimed. -/
def restoreClaimedBlock (o : ObjId) (h : Hash) (cpuSlot : ℕ) : Method Token Hash Bool := do
  let x ← onException (allocateBlockId cfg)
    (onExternalCache (CpuKvContentCache.cancelLoad h cpuSlot))
  modifyBlock o fun b => { b with blockId := some x }
  loadClaimedBlock cfg o h cpuSlot x

/-- `_maybe_restore_external_cached_block`. -/
def maybeRestoreExternalCachedBlock (o : ObjId) : Method Token Hash Bool := do
  if (← get).externalCache.isNone then
    pure false
  else
    let h ← assertSome (← contentHash cfg o)
    assertThat (((← get).pool o).blockId = none)
    match ← onExternalCache (CpuKvContentCache.claimLoad h) with
    | none => pure false
    | some cpuSlot => restoreClaimedBlock cfg o h cpuSlot

/-- `metric_data.query`. -/
def query (hit : Bool) : Method Token Hash Unit :=
  modify fun a => { a with metricData := a.metricData.query hit }

/-- The end of `allocate_immutable_block_with_cache_namespace`: a mutable block is filled. -/
def allocateFilledBlock (prevBlock : Option ObjId) (tokenIds : List Token)
    (cacheNamespace : Bytes) : Method Token Hash ObjId := do
  let o ← allocateMutableBlock cfg prevBlock cacheNamespace
  appendTokenIds cfg o tokenIds
  pure o

/-- `allocate_immutable_block_with_cache_namespace`. -/
def allocateImmutableBlock (prevBlock : Option ObjId) (tokenIds : List Token)
    (cacheNamespace : Bytes) : Method Token Hash ObjId := do
  let o ← initBlock cfg prevBlock tokenIds none cacheNamespace
  let h ← assertSome (← contentHash cfg o)
  match (← get).cachedBlocks.get? h with
  | some cachedBlockId =>
    query true
    modifyBlock o fun b => { b with blockId := some cachedBlockId }
    incrRefcountCachedBlock cfg o
    pure o
  | none =>
    if ← maybeRestoreExternalCachedBlock cfg o then
      query true
      pure o
    else
      query false
      poolFreeBlock o
      allocateFilledBlock cfg prevBlock tokenIds cacheNamespace

/-- `get_all_blocks_recursively`: the chain that ends in `o`. -/
def allBlocks (a : PrefixCachingBlockAllocator Token Hash) : ℕ → ObjId → List ObjId
  | 0, _ => []
  | fuel + 1, o =>
    match (a.pool o).prevBlock with
    | none => [o]
    | some p => allBlocks a fuel p ++ [o]

/-- The loop of `fork`. -/
def forkBlocks : Option ObjId → List ObjId → Method Token Hash (List ObjId)
  | _, [] => pure []
  | prevBlock, o :: rest => do
    let b := (← get).pool o
    let x ← assertSome b.blockId
    let count ← incr cfg x
    assertThat (count ≠ 1)
    let forked ← initBlock cfg prevBlock b.tokenIds (some x) b.cacheNamespace
    let forkedRest ← forkBlocks (some forked) rest
    pure (forked :: forkedRest)

/-- `fork`. -/
def fork (lastBlock : ObjId) : Method Token Hash (List ObjId) := do
  let a ← get
  forkBlocks cfg none (allBlocks a ((a.pool lastBlock).depth + 1) lastBlock)

/-- One round of `mark_blocks_as_accessed`. -/
def markBlockAsAccessed (now : ℚ) (x : BlockId) : Method Token Hash PUnit := do
  let a ← get
  raiseIf (x ∉ cfg.blockIds) .keyError
  if (a.blockTracker x).active = true then
    set { a with
      blockTracker := Function.update a.blockTracker x { a.blockTracker x with lastAccessed := now } }
  else if a.evictor.freeTable.contains x = true then
    onEvictor (Evictor.update x now)
  else
    throw (.valueError "Mark block as accessed which is not belonged to GPU")

/-- `mark_blocks_as_accessed`. -/
def markBlocksAsAccessed (blockIds : List BlockId) (now : ℚ) : Method Token Hash PUnit :=
  forM blockIds (markBlockAsAccessed cfg now)

/-- `mark_blocks_as_computed`: every touched block, whatever the argument. -/
def markBlocksAsComputed : Method Token Hash Unit :=
  modify fun a => { a with
    blockTracker := fun x =>
      if x ∈ a.touchedBlocks then { a.blockTracker x with computed := true } else a.blockTracker x
    touchedBlocks := ∅ }

/-- `clear_copy_on_writes`. -/
def clearCopyOnWrites : Method Token Hash (List (BlockId × BlockId)) := do
  let a ← get
  set { a with copyOnWrites := [] }
  pure a.copyOnWrites

/-- `get_num_free_blocks`. -/
def numFreeBlocks (a : PrefixCachingBlockAllocator Token Hash) : ℕ :=
  a.freeBlockIndices.length + a.evictor.numBlocks

end PrefixCachingBlockAllocator

end Ikun
