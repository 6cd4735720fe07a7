import Ikun.Lib.Dict
import Ikun.Scheduler.SequenceGroup

/-!
# The block manager

`BlockSpaceManagerV2` keeps a block table for every sequence that has blocks, and a namespace for
every request whose multimodal data cannot be hashed. The block tables and the allocator behind them
are the types `T` and `A` of `BlockTableOps`; a block table includes what the trackers of computed
blocks and of accesses remember of its sequence.
-/

namespace Ikun.Scheduling

open Except

/-- `Device`. -/
inductive Device
  | gpu
  | cpu
  deriving DecidableEq, Repr

/-- `AllocStatus`. -/
inductive AllocStatus
  | ok
  | later
  | never
  deriving DecidableEq, Repr

/-- What a cache namespace is hashed from. -/
structure CacheIdentity (δ : Type) where
  adapter : δ
  multiModal : Option δ

/-- Block tables and their allocator. -/
structure BlockTableOps (A T δ : Type) where
  /-- The digest of a cache namespace. -/
  hashNamespace : CacheIdentity δ → δ
  /-- `_allocate_sequence`, with the new entries of the trackers. -/
  allocateSequence : A → List ℕ → δ → Except Exn (T × A)
  /-- `append_token_ids` with the unseen tokens, and `clear_copy_on_writes`. -/
  appendTokenIds : A → T → List ℕ → ℕ → ℕ → Except Exn (List (ℕ × ℕ) × T × A)
  /-- `get_num_blocks_touched_by_append_slots` for the unseen tokens. -/
  numBlocksTouchedByAppendSlots : T → List ℕ → ℕ → ℕ
  /-- `get_num_full_blocks_touched`. -/
  numFullBlocksTouched : A → T → Device → ℕ
  /-- `swap` from the first device to the second one, and `update`. -/
  swap : A → T → Device → Device → Except Exn (List (ℕ × ℕ) × T × A)
  /-- `free`, with the last access of its blocks. -/
  free : A → T → Except Exn A
  /-- `get_num_free_blocks`. -/
  numFreeBlocks : A → Device → ℕ
  /-- `get_num_total_blocks`. -/
  numTotalBlocks : A → Device → ℕ
  /-- `physical_block_ids`. -/
  physicalBlockIds : T → List ℕ
  /-- `get_cached_computed_blocks_and_update`, then the common prefix of the one sequence. -/
  computedBlockIds : A → T → Except Exn (List ℕ × T)
  /-- `get_content_hashes`. -/
  contentHashes : T → List δ
  /-- `update_last_access`. -/
  updateLastAccess : T → ℕ → T
  /-- `mark_blocks_as_computed`. -/
  markBlocksAsComputed : A → A
  /-- `begin_prefix_cache_step`. -/
  beginPrefixCacheStep : A → A
  /-- `get_and_reset_prefix_swaps`. -/
  getAndResetPrefixSwaps : A → (List (ℕ × ℕ) × List (ℕ × ℕ)) × A
  /-- `content_offload_enabled`. -/
  contentOffloadEnabled : Bool

/-- `BlockSpaceManagerV2`. -/
structure BlockSpaceManager (ρ δ A T : Type) where
  blockSize : ℕ
  numTotalGpuBlocks : ℕ
  watermarkBlocks : ℕ
  blockAllocator : A
  blockTables : Dict ℕ T := .empty
  warnedMmNamespaceRequests : List ρ := []
  requestLocalNamespace : Dict ρ δ := .empty

namespace BlockSpaceManager

variable {ρ δ A T : Type} [DecidableEq ρ] (ops : BlockTableOps A T δ)
variable (m : BlockSpaceManager ρ δ A T) (g : SequenceGroup ρ δ)

/-- The block table of the group, `self.block_tables[seq.seq_id]`. -/
def blockTable : Except Exn T :=
  match m.blockTables.get? g.seqId with
  | some table => .ok table
  | none => .error .keyError

/-- The manager with a block table and its allocator. -/
def withTable (table : T) (allocator : A) : BlockSpaceManager ρ δ A T :=
  { m with blockAllocator := allocator, blockTables := m.blockTables.set g.seqId table }

/-- `can_allocate`. -/
def canAllocate (numLookaheadSlots : ℕ) : AllocStatus :=
  let numRequiredBlocks := (g.len + numLookaheadSlots + m.blockSize - 1) / m.blockSize
  let numFreeGpuBlocks := ops.numFreeBlocks m.blockAllocator .gpu
  if m.numTotalGpuBlocks < numRequiredBlocks + m.watermarkBlocks then .never
  else if numRequiredBlocks + m.watermarkBlocks ≤ numFreeGpuBlocks then .ok
  else .later

/-- `_request_local_fallback_cache_namespace`, where `fresh` is the digest with new random bytes. -/
def requestLocalFallbackCacheNamespace (requestId : ρ) (fresh : δ) :
    δ × BlockSpaceManager ρ δ A T :=
  match m.requestLocalNamespace.get? requestId with
  | some cacheNamespace => (cacheNamespace, m)
  | none =>
    (fresh, { m with requestLocalNamespace := m.requestLocalNamespace.set requestId fresh })

/-- `_get_cache_namespace`. -/
def getCacheNamespace (fresh : δ) : δ × BlockSpaceManager ρ δ A T :=
  match g.multiModalData with
  | .none => (ops.hashNamespace ⟨g.adapterCacheNamespace, none⟩, m)
  | .hashed digest => (ops.hashNamespace ⟨g.adapterCacheNamespace, some digest⟩, m)
  | .unsupported =>
    let warned :=
      if g.requestId ∈ m.warnedMmNamespaceRequests then m
      else { m with warnedMmNamespaceRequests := g.requestId :: m.warnedMmNamespaceRequests }
    let fallback := warned.requestLocalFallbackCacheNamespace g.requestId fresh
    (ops.hashNamespace ⟨g.adapterCacheNamespace, some fallback.1⟩, fallback.2)

/-- `allocate`. -/
def allocate (fresh : δ) : Except Exn (BlockSpaceManager ρ δ A T) := do
  raiseIf (g.status ≠ .waiting) .indexError
  raiseIf (m.blockTables.contains g.seqId) .assertionError
  let named := m.getCacheNamespace ops g fresh
  let allocated ← ops.allocateSequence named.2.blockAllocator g.tokenIds named.1
  return named.2.withTable g allocated.1 allocated.2

/-- `can_append_slots`. -/
def canAppendSlots (numLookaheadSlots : ℕ) : Except Exn Bool :=
  let numFreeGpuBlocks := ops.numFreeBlocks m.blockAllocator .gpu
  if g.status = .running then do
    let table ← m.blockTable g
    return ops.numBlocksTouchedByAppendSlots table g.tokenIds numLookaheadSlots ≤ numFreeGpuBlocks
  else return true

/-- `append_slots`: the copies on write. -/
def appendSlots (numLookaheadSlots : ℕ) :
    Except Exn (List (ℕ × ℕ) × BlockSpaceManager ρ δ A T) := do
  let table ← m.blockTable g
  let appended ← ops.appendTokenIds m.blockAllocator table g.tokenIds numLookaheadSlots
    g.numComputedTokens
  return (appended.1, m.withTable g appended.2.1 appended.2.2)

/-- `free`. -/
def free : Except Exn (BlockSpaceManager ρ δ A T) :=
  match m.blockTables.get? g.seqId with
  | none => return m
  | some table => do
    let allocator ← ops.free m.blockAllocator table
    return { m with blockAllocator := allocator, blockTables := m.blockTables.erase g.seqId }

/-- `release_request_cache_namespace`. -/
def releaseRequestCacheNamespace (requestId : ρ) : BlockSpaceManager ρ δ A T :=
  { m with
    requestLocalNamespace := m.requestLocalNamespace.erase requestId
    warnedMmNamespaceRequests := m.warnedMmNamespaceRequests.filter (· ≠ requestId) }

/-- The blocks that `_can_swap` finds touched. -/
def numBlocksTouchedBySwap (device : Device) (status : SequenceStatus) (numLookaheadSlots : ℕ) :
    Except Exn ℕ :=
  if g.status = status then do
    let table ← m.blockTable g
    return ops.numBlocksTouchedByAppendSlots table g.tokenIds numLookaheadSlots +
      ops.numFullBlocksTouched m.blockAllocator table device
  else return 0

/-- `_can_swap`. -/
def canSwap (device : Device) (status : SequenceStatus) (numLookaheadSlots : ℕ) :
    Except Exn AllocStatus := do
  let numBlocksTouched ← m.numBlocksTouchedBySwap ops g device status numLookaheadSlots
  let watermarkBlocks := if device = .gpu then m.watermarkBlocks else 0
  return if ops.numTotalBlocks m.blockAllocator device < numBlocksTouched then .never
    else if numBlocksTouched + watermarkBlocks ≤ ops.numFreeBlocks m.blockAllocator device then .ok
    else .later

/-- `can_swap_in`. -/
def canSwapIn (numLookaheadSlots : ℕ) : Except Exn AllocStatus :=
  if ops.contentOffloadEnabled then return .never
  else m.canSwap ops g .gpu .swapped numLookaheadSlots

/-- `can_swap_out`. -/
def canSwapOut : Except Exn Bool :=
  if ops.contentOffloadEnabled then return false
  else do return (← m.canSwap ops g .cpu .running 0) = .ok

/-- `swap_in` and `swap_out`, for a group with the given status. -/
def swap (source target : Device) (status : SequenceStatus) :
    Except Exn (List (ℕ × ℕ) × BlockSpaceManager ρ δ A T) :=
  if g.status = status then do
    let table ← m.blockTable g
    let swapped ← ops.swap m.blockAllocator table source target
    return (swapped.1, m.withTable g swapped.2.1 swapped.2.2)
  else return ([], m)

/-- `swap_in`. -/
def swapIn : Except Exn (List (ℕ × ℕ) × BlockSpaceManager ρ δ A T) :=
  m.swap ops g .cpu .gpu .swapped

/-- `swap_out`. -/
def swapOut : Except Exn (List (ℕ × ℕ) × BlockSpaceManager ρ δ A T) :=
  m.swap ops g .gpu .cpu .running

/-- `get_common_computed_block_ids`, for the sequence of the group. -/
def getCommonComputedBlockIds : Except Exn (List ℕ × BlockSpaceManager ρ δ A T) := do
  let table ← m.blockTable g
  let computed ← ops.computedBlockIds m.blockAllocator table
  return (computed.1, m.withTable g computed.2 m.blockAllocator)

/-- `get_content_hashes`. -/
def getContentHashes : Except Exn (List δ) := do
  return ops.contentHashes (← m.blockTable g)

/-- `access_all_blocks_in_seq`. -/
def accessAllBlocksInSeq (now : ℕ) : Except Exn (BlockSpaceManager ρ δ A T) := do
  return m.withTable g (ops.updateLastAccess (← m.blockTable g) now) m.blockAllocator

/-- `mark_blocks_as_computed`, for every scheduled group the same. -/
def markBlocksAsComputed : BlockSpaceManager ρ δ A T :=
  { m with blockAllocator := ops.markBlocksAsComputed m.blockAllocator }

/-- `begin_prefix_cache_step`. -/
def beginPrefixCacheStep : BlockSpaceManager ρ δ A T :=
  { m with blockAllocator := ops.beginPrefixCacheStep m.blockAllocator }

/-- `get_and_reset_prefix_swaps`. -/
def getAndResetPrefixSwaps :
    (List (ℕ × ℕ) × List (ℕ × ℕ)) × BlockSpaceManager ρ δ A T :=
  let drained := ops.getAndResetPrefixSwaps m.blockAllocator
  (drained.1, { m with blockAllocator := drained.2 })

end BlockSpaceManager

end Ikun.Scheduling
