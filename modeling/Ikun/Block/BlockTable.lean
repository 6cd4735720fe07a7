import Ikun.Block.Allocator

/-!
# Block tables

A `BlockTable` maps the tokens of one sequence to a chain of blocks. `BlockTables` is an allocator
with any number of tables over it, and `Op` is what a block manager does with them; within a
scheduler step of the external cache, the operations stand between `beginStep` and `drainStep`.
-/

namespace Ikun

open Exec

/-! ## Chunks -/

/-- The rounds of `chunk_list`. -/
def chunkListRec {α : Type} (n : ℕ) : ℕ → List α → List (List α)
  | 0, _ => []
  | fuel + 1, xs => if xs = [] then [] else xs.take n :: chunkListRec n fuel (xs.drop n)

/-- `chunk_list`: successive chunks of `n` elements, the last one possibly shorter. -/
def chunkList {α : Type} (n : ℕ) (xs : List α) : List (List α) := chunkListRec n xs.length xs

/-- `cdiv`: division rounding up. -/
def cdiv (a b : ℕ) : ℕ := (a + b - 1) / b

/-! ## Tables -/

/-- The fields of a `BlockTable`, with its `BlockList`. A missing cache namespace and the empty one
are the same to the allocator. -/
structure BlockTable where
  cacheNamespace : Bytes
  blocks : List ObjId
  blockIds : List BlockId
  numFullSlots : ℕ
  deriving DecidableEq

/-- A table, and the allocator it works on. -/
structure TableState (Token Hash : Type) where
  alloc : PrefixCachingBlockAllocator Token Hash
  table : BlockTable

namespace BlockTable

open PrefixCachingBlockAllocator (contentHash)

variable {Token Hash : Type} [DecidableEq Hash]

/-- A method of a block table. -/
abbrev Method (Token Hash α : Type) := EStateM Exn (TableState Token Hash) α

/-- A method of the allocator. -/
def onAllocator {α : Type} (m : PrefixCachingBlockAllocator.Method Token Hash α) :
    Method Token Hash α :=
  focus TableState.alloc (fun a s => { s with alloc := a }) m

/-- Changes the table. -/
def modifyTable (f : BlockTable → BlockTable) : Method Token Hash Unit :=
  modify fun s => { s with table := f s.table }

/-- `BlockTable(...)` without blocks. -/
def empty (cacheNamespace : Bytes) : BlockTable := ⟨cacheNamespace, [], [], 0⟩

variable (cfg : AllocatorConfig Token Hash)

/-- `BlockList._add_block_id` for each of the blocks. -/
def addBlockIds (blocks : List ObjId) : Method Token Hash PUnit :=
  forM blocks fun o => do
    let x ← assertSome ((← get).alloc.pool o).blockId
    modifyTable fun t => { t with blockIds := t.blockIds ++ [x] }

/-- `update`: replaces the blocks. -/
def update (blocks : List ObjId) : Method Token Hash PUnit := do
  modifyTable fun t => { t with blocks := blocks, blockIds := [] }
  addBlockIds blocks

/-- The loop of `allocate_immutable_blocks_with_cache_namespace`. -/
def allocateImmutableBlocks (cacheNamespace : Bytes) :
    Option ObjId → List (List Token) → PrefixCachingBlockAllocator.Method Token Hash (List ObjId)
  | _, [] => pure []
  | prevBlock, tokenIds :: rest => do
    let o ← PrefixCachingBlockAllocator.allocateImmutableBlock cfg prevBlock tokenIds cacheNamespace
    let blocks ← allocateImmutableBlocks cacheNamespace (some o) rest
    pure (o :: blocks)

/-- `_allocate_blocks_for_token_ids` for a table without blocks. -/
def allocateBlocksForTokenIds (cacheNamespace : Bytes) (tokenIds : List Token) :
    PrefixCachingBlockAllocator.Method Token Hash (List ObjId) := do
  let chunks := chunkList cfg.blockSize tokenIds
  let blockTokenIds := chunks.filter (·.length = cfg.blockSize)
  let tailTokenIds := chunks.filter (·.length ≠ cfg.blockSize)
  let blocks ← allocateImmutableBlocks cfg cacheNamespace none blockTokenIds
  match tailTokenIds with
  | [] => pure blocks
  | [curTokenIds] =>
    let o ← PrefixCachingBlockAllocator.allocateMutableBlock cfg blocks.getLast? cacheNamespace
    PrefixCachingBlockAllocator.appendTokenIds cfg o curTokenIds
    pure (blocks ++ [o])
  | _ => throw .assertionError

/-- `allocate`. -/
def allocate (tokenIds : List Token) : Method Token Hash Unit := do
  let t := (← get).table
  assertThat (t.blocks = [])
  assertThat (tokenIds.length ≠ 0)
  let blocks ← onAllocator (allocateBlocksForTokenIds cfg t.cacheNamespace tokenIds)
  update blocks
  modifyTable fun t => { t with numFullSlots := tokenIds.length }

/-- `BlockList.append` of a new mutable block. -/
def appendMutableBlock : Method Token Hash Unit := do
  let t := (← get).table
  assertThat (t.blocks ≠ [])
  let o ← onAllocator
    (PrefixCachingBlockAllocator.allocateMutableBlock cfg t.blocks.getLast? [])
  modifyTable fun t => { t with blocks := t.blocks ++ [o] }
  addBlockIds [o]

/-- `ensure_num_empty_slots`. -/
def ensureNumEmptySlots (numEmptySlots : ℕ) : Method Token Hash PUnit := do
  let t := (← get).table
  assertThat (t.blocks ≠ [])
  -- `_num_empty_slots` is `len(blocks) * block_size - num_full_slots`
  if t.numFullSlots + numEmptySlots ≤ t.blocks.length * cfg.blockSize then
    pure ()
  else
    let slotsToAllocate := t.numFullSlots + numEmptySlots - t.blocks.length * cfg.blockSize
    forM (List.range (cdiv slotsToAllocate cfg.blockSize)) fun _ => appendMutableBlock cfg

/-- `BlockList.append_token_ids`. -/
def blockListAppendTokenIds (blockIndex : ℕ) (tokenIds : List Token) : Method Token Hash Unit := do
  let s ← get
  match s.table.blocks[blockIndex]? with
  | none => throw .indexError
  | some o =>
    onAllocator (PrefixCachingBlockAllocator.appendTokenIds cfg o tokenIds)
    let newBlockId := ((← get).alloc.pool o).blockId
    if (s.alloc.pool o).blockId ≠ newBlockId then
      let x ← assertSome newBlockId
      modifyTable fun t => { t with blockIds := t.blockIds.set blockIndex x }

/-- `_chunk_token_blocks_for_append`. -/
def chunkTokenBlocksForAppend (t : BlockTable) (tokenIds : List Token) : List (List Token) :=
  if tokenIds.length = 0 then []
  else
    let firstChunkSize := cfg.blockSize - t.numFullSlots % cfg.blockSize
    tokenIds.take firstChunkSize :: chunkList cfg.blockSize (tokenIds.drop firstChunkSize)

/-- The loop of `append_token_ids`: one chunk for each block from `blockIndex` on. -/
def appendTokenBlocks : ℕ → List (List Token) → Method Token Hash Unit
  | _, [] => pure ()
  | blockIndex, tokenBlock :: rest => do
    blockListAppendTokenIds cfg blockIndex tokenBlock
    appendTokenBlocks (blockIndex + 1) rest

/-- `append_token_ids`. -/
def appendTokenIds (tokenIds : List Token) (numLookaheadSlots : ℕ) : Method Token Hash Unit := do
  assertThat ((← get).table.blocks ≠ [])
  ensureNumEmptySlots cfg (tokenIds.length + numLookaheadSlots)
  let t := (← get).table
  appendTokenBlocks cfg (t.numFullSlots / cfg.blockSize) (chunkTokenBlocksForAppend cfg t tokenIds)
  modifyTable fun t => { t with numFullSlots := t.numFullSlots + tokenIds.length }

/-- `fork`: the new table. -/
def fork : Method Token Hash BlockTable := do
  let s ← get
  match s.table.blocks.getLast? with
  | none => throw .assertionError
  | some last =>
    let forkedBlocks ← onAllocator (PrefixCachingBlockAllocator.fork cfg last)
    let a := (← get).alloc
    match forkedBlocks.mapM fun o => (a.pool o).blockId with
    | none => throw .assertionError
    | some blockIds =>
      pure
        { cacheNamespace := s.table.cacheNamespace
          blocks := forkedBlocks
          blockIds := blockIds
          numFullSlots := (forkedBlocks.map fun o => (a.pool o).tokenIds.length).sum }

/-- `free`. -/
def free : Method Token Hash Unit := do
  let t := (← get).table
  onAllocator (forM t.blocks (PrefixCachingBlockAllocator.free cfg))
  modifyTable fun t => { t with blocks := [], blockIds := [] }

end BlockTable

/-! ## An allocator and its tables -/

structure BlockTables (Token Hash : Type) where
  alloc : PrefixCachingBlockAllocator Token Hash
  tables : List BlockTable

namespace BlockTables

variable {Token Hash : Type} [DecidableEq Hash]

/-- An operation on tables, which are referred to by their number. -/
inductive Op (Token : Type)
  /-- A new table. -/
  | new (cacheNamespace : Bytes)
  | allocate (t : ℕ) (tokenIds : List Token)
  | appendTokenIds (t : ℕ) (tokenIds : List Token) (numLookaheadSlots : ℕ)
  | ensureNumEmptySlots (t : ℕ) (numEmptySlots : ℕ)
  /-- The forked table is a new table. -/
  | fork (t : ℕ)
  | free (t : ℕ)
  | markBlocksAsAccessed (blockIds : List BlockId) (now : ℚ)
  | markBlocksAsComputed
  | clearCopyOnWrites
  /-- `begin_prefix_cache_step`. -/
  | beginStep
  /-- `get_and_reset_prefix_swaps`. -/
  | drainStep

/-- The fresh allocator without tables. -/
def init (cfg : AllocatorConfig Token Hash) (policy : EvictionPolicy)
    (externalCache : Option (CpuKvContentCache Hash)) : BlockTables Token Hash :=
  ⟨.init cfg policy externalCache, []⟩

/-- A method of an allocator with tables. -/
abbrev Method (Token Hash α : Type) := EStateM Exn (BlockTables Token Hash) α

/-- A method of table `i`. -/
def onTable {α : Type} (i : ℕ) (m : BlockTable.Method Token Hash α) : Method Token Hash α :=
  fun w =>
    match w.tables[i]? with
    | none => .error .indexError w
    | some t =>
      match m ⟨w.alloc, t⟩ with
      | .ok a s => .ok a ⟨s.alloc, w.tables.set i s.table⟩
      | .error e s => .error e ⟨s.alloc, w.tables.set i s.table⟩

/-- A method of the allocator. -/
def onAllocator {α : Type} (m : PrefixCachingBlockAllocator.Method Token Hash α) :
    Method Token Hash α :=
  focus alloc (fun a w => { w with alloc := a }) m

/-- `begin_prefix_cache_step`; the log of the step starts anew. -/
def beginStep : PrefixCachingBlockAllocator.Method Token Hash Unit := do
  if (← get).externalCache.isSome then
    PrefixCachingBlockAllocator.onExternalCache CpuKvContentCache.beginStep
  modify fun a => { a with history := [] }

/-- `get_and_reset_prefix_swaps`: the maps of the step, if there is an external cache. -/
def drainStep : PrefixCachingBlockAllocator.Method Token Hash (SwapMapping × SwapMapping) := do
  if (← get).externalCache.isSome then
    PrefixCachingBlockAllocator.onExternalCache CpuKvContentCache.drainStep
  else
    pure ([], [])

variable (cfg : AllocatorConfig Token Hash)

/-- Performs an operation. Its result is the maps of the step, for `drainStep`. -/
def Op.run : Op Token → Method Token Hash (SwapMapping × SwapMapping)
  | .new cacheNamespace => do
    modify fun w => { w with tables := w.tables ++ [BlockTable.empty cacheNamespace] }
    pure ([], [])
  | .allocate t tokenIds => do
    onTable t (BlockTable.allocate cfg tokenIds)
    pure ([], [])
  | .appendTokenIds t tokenIds numLookaheadSlots => do
    onTable t (BlockTable.appendTokenIds cfg tokenIds numLookaheadSlots)
    pure ([], [])
  | .ensureNumEmptySlots t numEmptySlots => do
    onTable t (BlockTable.ensureNumEmptySlots cfg numEmptySlots)
    pure ([], [])
  | .fork t => do
    let forked ← onTable t (BlockTable.fork cfg)
    modify fun w => { w with tables := w.tables ++ [forked] }
    pure ([], [])
  | .free t => do
    onTable t (BlockTable.free cfg)
    pure ([], [])
  | .markBlocksAsAccessed blockIds now => do
    onAllocator (PrefixCachingBlockAllocator.markBlocksAsAccessed cfg blockIds now)
    pure ([], [])
  | .markBlocksAsComputed => do
    onAllocator PrefixCachingBlockAllocator.markBlocksAsComputed
    pure ([], [])
  | .clearCopyOnWrites => do
    discard (onAllocator PrefixCachingBlockAllocator.clearCopyOnWrites)
    pure ([], [])
  | .beginStep => do
    onAllocator BlockTables.beginStep
    pure ([], [])
  | .drainStep => onAllocator BlockTables.drainStep

end BlockTables

end Ikun
