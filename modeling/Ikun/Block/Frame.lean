import Ikun.Block.BlockTable

/-!
# What the methods leave alone

The allocator reaches the CPU tier through four callbacks only, and most methods do not call them.

* `preserves_free`: freeing a table does not touch the tier.
* `preserves_run`: every operation on blocks keeps what the four callbacks keep.
-/

namespace Ikun.PrefixCachingBlockAllocator

open Exec

variable {Token Hash : Type} [DecidableEq Hash] {cfg : AllocatorConfig Token Hash}
  {Q : Option (CpuKvContentCache Hash) → Prop} {o : ObjId} {x : BlockId}

/-- A property of the CPU tier behind the callbacks. -/
def OfTier (Q : Option (CpuKvContentCache Hash) → Prop)
    (a : PrefixCachingBlockAllocator Token Hash) : Prop :=
  Q a.externalCache

/-- The callbacks keep `P`. -/
structure Callbacks (P : CpuKvContentCache Hash → Prop) : Prop where
  claimLoad : ∀ h, Preserves P (CpuKvContentCache.claimLoad h)
  cancelLoad : ∀ h s, Preserves P (CpuKvContentCache.cancelLoad h s)
  stageLoad : ∀ h s b, Preserves P (CpuKvContentCache.stageLoad h s b)
  stageStore : ∀ h b, Preserves P (CpuKvContentCache.stageStore h b)

/-- There is a tier, with `P`. -/
def HasTier (P : CpuKvContentCache Hash → Prop) (external : Option (CpuKvContentCache Hash)) :
    Prop :=
  ∃ c, external = some c ∧ P c

/-! ## Methods without callbacks -/

section plain

omit [DecidableEq Hash]

theorem preserves_assertThat {σ : Type} {P : σ → Prop} {c : Prop} [Decidable c] :
    Preserves P (assertThat c : EStateM Exn σ Unit) := Preserves.raiseIf

theorem preserves_assertSome {σ α : Type} {P : σ → Prop} (v : Option α) :
    Preserves P (assertSome v : EStateM Exn σ α) := by
  cases v with
  | none => exact .throw _
  | some v => exact .pure v

theorem preserves_modifyBlock (f : Block Token Hash → Block Token Hash) :
    Preserves (OfTier Q) (modifyBlock o f) := .modify fun _ ha => ha

theorem preserves_log (e : RefEvent) :
    Preserves (OfTier Q) (log e : Method Token Hash Unit) := .modify fun _ ha => ha

theorem preserves_poolFreeBlock : Preserves (OfTier Q) (poolFreeBlock o : Method Token Hash Unit) :=
  .modify fun _ ha => ha

theorem preserves_incr : Preserves (OfTier Q) (incr cfg x) :=
  .bind preserves_assertThat fun _ => .get_bind fun _ ha => .bind (.set ha) fun _ => .pure _

theorem preserves_decr : Preserves (OfTier Q) (decr cfg x) := by
  refine .bind preserves_assertThat fun _ => .get_bind fun a ha => ?_
  refine .bind preserves_assertThat fun _ => .bind (.set ha) fun _ => ?_
  exact .ite_bind (fun _ => preserves_log _) (.pure _)

theorem preserves_refcount : Preserves (OfTier Q) (refcount cfg x) :=
  .bind preserves_assertThat fun _ => .get_bind fun _ _ => .pure _

theorem preserves_trackBlockId (computed : Bool) :
    Preserves (OfTier Q) (trackBlockId cfg x computed) :=
  .get_bind fun _ ha => .bind .raiseIf fun _ => .bind preserves_assertThat fun _ => .set ha

theorem preserves_untrackBlockId : Preserves (OfTier Q) (untrackBlockId cfg x) :=
  .get_bind fun _ ha => .bind .raiseIf fun _ => .bind preserves_assertThat fun _ => .set ha

theorem preserves_onEvictor {α : Type} (m : EStateM Exn (Evictor Hash) α) :
    Preserves (OfTier Q) (onEvictor m : Method Token Hash α) := fun _ ha =>
  wp_focus.mpr (wp_iff.mpr ⟨fun _ _ _ => ha, fun _ _ _ => ha⟩)

theorem preserves_takePoolId : Preserves (OfTier Q) (takePoolId : Method Token Hash ObjId) := by
  refine .get_bind fun a _ => .ite_bind (fun _ => .modify fun _ ha => ha) ?_
  refine .get_bind fun a _ => ?_
  cases a.freeIds with
  | nil => exact .throw _
  | cons o rest => exact .bind (.modify fun _ ha => ha) fun _ => .pure _

theorem preserves_poolInitBlock (prevBlock : Option ObjId) (tokenIds : List Token)
    (physicalBlockId : Option BlockId) :
    Preserves (OfTier Q) (poolInitBlock cfg prevBlock tokenIds physicalBlockId) := by
  refine .bind preserves_takePoolId fun o => .get_bind fun a _ => ?_
  refine .bind (preserves_modifyBlock _) fun _ => .bind preserves_assertThat fun _ => ?_
  exact .bind (preserves_modifyBlock _) fun _ => .pure _

theorem preserves_contentHashRec (fuel : ℕ) :
    Preserves (OfTier Q) (contentHashRec cfg fuel o) := by
  induction fuel generalizing o with
  | zero => exact .throw _
  | succ fuel ih =>
    refine .get_bind fun a _ => ?_
    dsimp only
    cases (a.pool o).cachedContentHash with
    | some h => exact .pure _
    | none =>
      refine .ite (fun _ => .pure _) fun _ => ?_
      cases (a.pool o).prevBlock with
      | none => exact .bind (preserves_modifyBlock _) fun _ => .pure _
      | some p =>
        refine .bind ih fun r => ?_
        cases r with
        | none => exact .pure _
        | some h => exact .bind (preserves_modifyBlock _) fun _ => .pure _

theorem preserves_contentHash : Preserves (OfTier Q) (contentHash cfg o) :=
  .get_bind fun _ _ => preserves_contentHashRec _

theorem preserves_initBlock (prevBlock : Option ObjId) (tokenIds : List Token)
    (physicalBlockId : Option BlockId) (cacheNamespace : Bytes) [DecidableEq Hash] :
    Preserves (OfTier Q)
      (initBlock cfg prevBlock tokenIds physicalBlockId cacheNamespace) := by
  refine .bind (preserves_poolInitBlock _ _ _) fun o => .get_bind fun a _ => ?_
  exact .bind .raiseIf fun _ => .bind (preserves_modifyBlock _) fun _ => .pure _

theorem preserves_maybeAllocateHashlessBlockId :
    Preserves (OfTier Q) (maybeAllocateHashlessBlockId cfg) := by
  refine .get_bind fun a _ => ?_
  cases a.freeBlockIndices with
  | nil => exact .pure _
  | cons x rest =>
    refine .bind (.modify fun _ ha => ha) fun _ => .bind (.map _ preserves_incr) fun _ => ?_
    refine .bind (preserves_poolInitBlock _ _ _) fun o => .bind preserves_poolFreeBlock fun _ => ?_
    exact .bind (preserves_trackBlockId _) fun _ => .pure _

end plain

theorem preserves_incrRefcountCachedBlock : Preserves (OfTier Q) (incrRefcountCachedBlock cfg o) := by
  refine .bind (preserves_modifyBlock _) fun _ => .get_bind fun a _ => ?_
  refine .bind (preserves_assertSome _) fun x => .bind preserves_incr fun count => ?_
  refine .ite (fun _ => .get_bind fun a _ => ?_) fun _ => .pure _
  exact .ite_bind (fun _ => preserves_onEvictor _) (preserves_trackBlockId _)

theorem preserves_decrRefcountCachedBlock : Preserves (OfTier Q) (decrRefcountCachedBlock cfg o) := by
  refine .bind preserves_contentHash fun h => .bind (preserves_assertSome _) fun h => ?_
  refine .get_bind fun a _ => .bind (preserves_assertSome _) fun x => ?_
  refine .bind preserves_decr fun count => .ite (fun _ => preserves_modifyBlock _) fun _ => ?_
  refine .get_bind fun a _ => .bind preserves_assertThat fun _ => ?_
  refine .bind (preserves_onEvictor _) fun _ => .bind preserves_untrackBlockId fun _ => ?_
  exact preserves_modifyBlock _

omit [DecidableEq Hash] in
theorem preserves_decrRefcountHashlessBlock :
    Preserves (OfTier Q) (decrRefcountHashlessBlock cfg o) := by
  refine .get_bind fun a _ => .bind (preserves_assertSome _) fun x => ?_
  refine .bind preserves_refcount fun count => ?_
  refine .ite_bind (fun _ => preserves_untrackBlockId) ?_
  refine .bind (preserves_modifyBlock _) fun _ => .bind preserves_decr fun count => ?_
  exact .ite (fun _ => .modify fun _ ha => ha) fun _ => .pure _

theorem preserves_freeBlockId : Preserves (OfTier Q) (freeBlockId cfg o) := by
  refine .get_bind fun a _ => .bind (.map _ (preserves_assertSome _)) fun _ => ?_
  refine .bind preserves_contentHash fun h => ?_
  cases h with
  | none => exact .bind preserves_decrRefcountHashlessBlock fun _ => .get_bind fun _ _ =>
      preserves_assertThat
  | some h => exact .bind preserves_decrRefcountCachedBlock fun _ => .get_bind fun _ _ =>
      preserves_assertThat

theorem preserves_free : Preserves (OfTier Q) (free cfg o) :=
  .bind preserves_freeBlockId fun _ => preserves_poolFreeBlock

theorem preserves_promoteToImmutableBlock :
    Preserves (OfTier Q) (promoteToImmutableBlock cfg o) := by
  refine .bind preserves_contentHash fun h => .bind (preserves_assertSome _) fun h => ?_
  refine .get_bind fun a _ => .bind (preserves_assertSome _) fun x => ?_
  refine .bind preserves_refcount fun count => .bind preserves_assertThat fun _ => ?_
  refine .get_bind fun a _ => ?_
  cases a.cachedBlocks.get? h with
  | none => exact .bind (.modify fun _ ha => ha) fun _ => .pure _
  | some y =>
    refine .bind preserves_decrRefcountHashlessBlock fun _ => ?_
    refine .bind (preserves_modifyBlock _) fun _ => ?_
    exact .bind preserves_incrRefcountCachedBlock fun _ => .pure _

/-! ## Methods with callbacks -/

section callbacks

variable {P : CpuKvContentCache Hash → Prop}

omit [DecidableEq Hash] in
theorem preserves_onExternalCache {α : Type} {m : CpuKvContentCache.Method Hash α}
    (hm : Preserves P m) :
    Preserves (OfTier (HasTier P)) (onExternalCache m : Method Token Hash α) := by
  refine .get_bind fun a ha => ?_
  obtain ⟨c, hext, hc⟩ := ha
  rw [hext]
  intro s _
  refine wp_focus.mpr (wp_mono (hm c hc) ?_ ?_)
  · exact fun r c' hc' => ⟨c', rfl, hc'⟩
  · exact fun e c' hc' => ⟨c', rfl, hc'⟩

theorem preserves_maybeAllocateEvictedBlockId (hP : Callbacks P) :
    Preserves (OfTier (HasTier P)) (maybeAllocateEvictedBlockId cfg) := by
  refine .get_bind fun a _ => .ite (fun _ => .pure _) fun _ => ?_
  refine .bind (preserves_onEvictor _) fun r => .get_bind fun a _ => ?_
  refine .bind (preserves_assertSome _) fun x' => .bind preserves_refcount fun count => ?_
  refine .bind preserves_assertThat fun _ => .bind preserves_assertThat fun _ => ?_
  refine .get_bind fun a _ => .ite_bind (fun _ => ?_) ?_
  · exact .map _ (preserves_onExternalCache (hP.stageStore _ _))
  · refine .bind (.modify fun _ ha => ha) fun _ => .bind (.map _ preserves_incr) fun _ => ?_
    exact .bind (preserves_trackBlockId _) fun _ => .pure _

theorem preserves_allocateBlockId (hP : Callbacks P) :
    Preserves (OfTier (HasTier P)) (allocateBlockId cfg) := by
  refine .bind preserves_maybeAllocateHashlessBlockId fun r => ?_
  cases r with
  | some x => exact .bind (preserves_log _) fun _ => .pure _
  | none =>
    refine .bind (preserves_maybeAllocateEvictedBlockId hP) fun r => ?_
    cases r with
    | some x => exact .bind (preserves_log _) fun _ => .pure _
    | none => exact .throw _

theorem preserves_cowBlockIfNotAppendable (hP : Callbacks P) :
    Preserves (OfTier (HasTier P)) (cowBlockIfNotAppendable cfg o) := by
  refine .get_bind fun a _ => .bind (preserves_assertSome _) fun x => ?_
  refine .bind preserves_refcount fun count => .ite (fun _ => .pure _) fun _ => ?_
  refine .bind preserves_decrRefcountHashlessBlock fun _ => .get_bind fun a _ => ?_
  refine .bind preserves_assertThat fun _ => .bind (preserves_allocateBlockId hP) fun y => ?_
  exact .bind (.modify fun _ ha => ha) fun _ => .pure _

theorem preserves_naiveAppendTokenIds (hP : Callbacks P) (tokenIds : List Token) :
    Preserves (OfTier (HasTier P)) (naiveAppendTokenIds cfg o tokenIds) := by
  refine .get_bind fun a _ => .bind preserves_assertThat fun _ => ?_
  refine .bind (preserves_modifyBlock _) fun _ => .ite (fun _ => ?_) fun _ => .pure _
  exact .bind (preserves_cowBlockIfNotAppendable hP) fun x => preserves_modifyBlock _

theorem preserves_appendTokenIds (hP : Callbacks P) (tokenIds : List Token) :
    Preserves (OfTier (HasTier P)) (appendTokenIds cfg o tokenIds) := by
  refine .bind preserves_contentHash fun h => .bind preserves_assertThat fun _ => ?_
  refine .get_bind fun a _ => .bind preserves_assertThat fun _ => ?_
  refine .ite (fun _ => .pure _) fun _ => ?_
  refine .bind (preserves_naiveAppendTokenIds hP _) fun _ => .bind (.modify fun _ ha => ha) ?_
  refine fun _ => .bind preserves_contentHash fun h => ?_
  cases h with
  | none => exact .pure _
  | some h => exact .bind preserves_promoteToImmutableBlock fun x => preserves_modifyBlock _

theorem preserves_allocateMutableBlock (hP : Callbacks P) (prevBlock : Option ObjId)
    (cacheNamespace : Bytes) :
    Preserves (OfTier (HasTier P)) (allocateMutableBlock cfg prevBlock cacheNamespace) := by
  refine .bind (preserves_allocateBlockId hP) fun x => ?_
  refine .bind (preserves_initBlock _ _ _ _) fun o => .get_bind fun a _ => ?_
  refine .bind preserves_assertThat fun _ => .bind preserves_contentHash fun h => ?_
  exact .bind preserves_assertThat fun _ => .pure _

theorem preserves_cancelLoad (hP : Callbacks P) (h : Hash) (slot : ℕ) :
    Preserves (OfTier (HasTier P))
      (onExternalCache (CpuKvContentCache.cancelLoad h slot) : Method Token Hash Unit) :=
  preserves_onExternalCache (hP.cancelLoad h slot)

omit [DecidableEq Hash] in
theorem preserves_unlogged {handler : Method Token Hash Unit} (hh : Preserves (OfTier Q) handler) :
    Preserves (OfTier Q) (unlogged handler) := fun a ha => wp_focus.mpr (hh a ha)

theorem preserves_loadClaimedBlock (hP : Callbacks P) (h : Hash) (slot : ℕ) :
    Preserves (OfTier (HasTier P)) (loadClaimedBlock cfg o h slot x) := by
  refine .bind (.onException (preserves_onExternalCache (hP.stageLoad _ _ _)) ?_) fun _ => ?_
  · refine preserves_unlogged (.bind preserves_decrRefcountHashlessBlock fun _ => ?_)
    exact .bind (preserves_cancelLoad hP _ _) fun _ => preserves_poolFreeBlock
  · refine .get_bind fun a _ => .bind .raiseIf fun _ => .bind (.modify fun _ ha => ha) ?_
    exact fun _ => .bind (preserves_modifyBlock _) fun _ => .pure _

theorem preserves_maybeRestoreExternalCachedBlock (hP : Callbacks P) :
    Preserves (OfTier (HasTier P)) (maybeRestoreExternalCachedBlock cfg o) := by
  refine .get_bind fun a _ => .ite (fun _ => .pure _) fun _ => ?_
  refine .bind preserves_contentHash fun h => .bind (preserves_assertSome _) fun h => ?_
  refine .get_bind fun a _ => .bind preserves_assertThat fun _ => ?_
  refine .bind (preserves_onExternalCache (hP.claimLoad h)) fun r => ?_
  cases r with
  | none => exact .pure _
  | some cpuSlot =>
    refine .bind (.onException (preserves_allocateBlockId hP) (preserves_cancelLoad hP _ _)) ?_
    exact fun x => .bind (preserves_modifyBlock _) fun _ => preserves_loadClaimedBlock hP _ _

theorem preserves_allocateFilledBlock (hP : Callbacks P) (prevBlock : Option ObjId)
    (tokenIds : List Token) (cacheNamespace : Bytes) :
    Preserves (OfTier (HasTier P)) (allocateFilledBlock cfg prevBlock tokenIds cacheNamespace) :=
  .bind (preserves_allocateMutableBlock hP _ _) fun _ =>
    .bind (preserves_appendTokenIds hP _) fun _ => .pure _

theorem preserves_allocateImmutableBlock (hP : Callbacks P) (prevBlock : Option ObjId)
    (tokenIds : List Token) (cacheNamespace : Bytes) :
    Preserves (OfTier (HasTier P)) (allocateImmutableBlock cfg prevBlock tokenIds cacheNamespace) := by
  have hquery : ∀ hit, Preserves (OfTier (HasTier P)) (query hit : Method Token Hash Unit) :=
    fun hit => .modify fun _ ha => ha
  refine .bind (preserves_initBlock _ _ _ _) fun o => .bind preserves_contentHash fun h => ?_
  refine .bind (preserves_assertSome _) fun h => .get_bind fun a _ => ?_
  cases a.cachedBlocks.get? h with
  | some x =>
    refine .bind (hquery true) fun _ => .bind (preserves_modifyBlock _) fun _ => ?_
    exact .bind preserves_incrRefcountCachedBlock fun _ => .pure _
  | none =>
    refine .bind (preserves_maybeRestoreExternalCachedBlock hP) fun restored => ?_
    refine .ite (fun _ => .bind (hquery true) fun _ => .pure _) fun _ => ?_
    refine .bind (hquery false) fun _ => .bind preserves_poolFreeBlock fun _ => ?_
    exact preserves_allocateFilledBlock hP _ _ _

end callbacks

/-! ## Other methods -/

theorem preserves_forkBlocks (blocks : List ObjId) (prevBlock : Option ObjId) :
    Preserves (OfTier Q) (forkBlocks cfg prevBlock blocks) := by
  induction blocks generalizing prevBlock with
  | nil => exact .pure _
  | cons o rest ih =>
    refine .get_bind fun a _ => .bind (preserves_assertSome _) fun x => ?_
    refine .bind preserves_incr fun count => .bind preserves_assertThat fun _ => ?_
    exact .bind (preserves_initBlock _ _ _ _) fun o => .bind (ih _) fun _ => .pure _

theorem preserves_fork : Preserves (OfTier Q) (fork cfg o) :=
  .get_bind fun _ _ => preserves_forkBlocks _ _

omit [DecidableEq Hash] in
theorem preserves_markBlocksAsAccessed (blockIds : List BlockId) (now : ℚ) [DecidableEq Hash] :
    Preserves (OfTier Q) (markBlocksAsAccessed cfg blockIds now : Method Token Hash PUnit) := by
  refine .forM (fun x => ?_) _
  refine .get_bind fun a ha => .bind .raiseIf fun _ => .ite (fun _ => .set ha) fun _ => ?_
  exact .ite (fun _ => preserves_onEvictor _) fun _ => .throw _

end Ikun.PrefixCachingBlockAllocator

namespace Ikun.BlockTable

open Exec PrefixCachingBlockAllocator

variable {Token Hash : Type} [DecidableEq Hash] {cfg : AllocatorConfig Token Hash}
  {Q : Option (CpuKvContentCache Hash) → Prop} {P : CpuKvContentCache Hash → Prop}

/-- A property of the CPU tier behind the allocator of a table. -/
def OfTier (Q : Option (CpuKvContentCache Hash) → Prop) (s : TableState Token Hash) : Prop :=
  PrefixCachingBlockAllocator.OfTier Q s.alloc

section

omit [DecidableEq Hash]

theorem preserves_onAllocator {α : Type} {m : PrefixCachingBlockAllocator.Method Token Hash α}
    (hm : Preserves (PrefixCachingBlockAllocator.OfTier Q) m) :
    Preserves (OfTier Q) (onAllocator m) := fun s hs => wp_focus.mpr (hm s.alloc hs)

theorem preserves_modifyTable (f : BlockTable → BlockTable) :
    Preserves (OfTier Q) (modifyTable f : Method Token Hash Unit) := .modify fun _ hs => hs

theorem preserves_addBlockIds (blocks : List ObjId) :
    Preserves (OfTier Q) (addBlockIds blocks : Method Token Hash PUnit) := by
  refine .forM (fun o => .get_bind fun s _ => ?_) _
  exact .bind (preserves_assertSome _) fun x => preserves_modifyTable _

theorem preserves_update (blocks : List ObjId) :
    Preserves (OfTier Q) (update blocks : Method Token Hash PUnit) :=
  .bind (preserves_modifyTable _) fun _ => preserves_addBlockIds _

end

theorem preserves_allocateImmutableBlocks (hP : Callbacks P) (cacheNamespace : Bytes)
    (chunks : List (List Token)) (prevBlock : Option ObjId) :
    Preserves (PrefixCachingBlockAllocator.OfTier (HasTier P))
      (allocateImmutableBlocks cfg cacheNamespace prevBlock chunks) := by
  induction chunks generalizing prevBlock with
  | nil => exact .pure _
  | cons tokenIds rest ih =>
    refine .bind (preserves_allocateImmutableBlock hP _ _ _) fun o => ?_
    exact .bind (ih _) fun blocks => .pure _

theorem preserves_allocateBlocksForTokenIds (hP : Callbacks P) (cacheNamespace : Bytes)
    (tokenIds : List Token) :
    Preserves (PrefixCachingBlockAllocator.OfTier (HasTier P))
      (allocateBlocksForTokenIds cfg cacheNamespace tokenIds) := by
  refine .bind (preserves_allocateImmutableBlocks hP _ _ _) fun blocks => ?_
  split
  · exact .pure _
  · refine .bind (preserves_allocateMutableBlock hP _ _) fun o => ?_
    exact .bind (preserves_appendTokenIds hP _) fun _ => .pure _
  · exact .throw _

theorem preserves_allocate (hP : Callbacks P) (tokenIds : List Token) :
    Preserves (OfTier (HasTier P)) (allocate cfg tokenIds) := by
  refine .get_bind fun s _ => .bind preserves_assertThat fun _ => ?_
  refine .bind preserves_assertThat fun _ => ?_
  refine .bind (preserves_onAllocator (preserves_allocateBlocksForTokenIds hP _ _)) fun blocks => ?_
  exact .bind (preserves_update _) fun _ => preserves_modifyTable _

theorem preserves_appendMutableBlock (hP : Callbacks P) :
    Preserves (OfTier (HasTier P)) (appendMutableBlock cfg) := by
  refine .get_bind fun s _ => .bind preserves_assertThat fun _ => ?_
  refine .bind (preserves_onAllocator (preserves_allocateMutableBlock hP _ _)) fun o => ?_
  exact .bind (preserves_modifyTable _) fun _ => preserves_addBlockIds _

theorem preserves_ensureNumEmptySlots (hP : Callbacks P) (numEmptySlots : ℕ) :
    Preserves (OfTier (HasTier P)) (ensureNumEmptySlots cfg numEmptySlots) := by
  refine .get_bind fun s _ => .bind preserves_assertThat fun _ => ?_
  exact .ite (fun _ => .pure _) fun _ => .forM (fun _ => preserves_appendMutableBlock hP) _

theorem preserves_blockListAppendTokenIds (hP : Callbacks P) (blockIndex : ℕ)
    (tokenIds : List Token) :
    Preserves (OfTier (HasTier P)) (blockListAppendTokenIds cfg blockIndex tokenIds) := by
  refine .get_bind fun s _ => ?_
  cases s.table.blocks[blockIndex]? with
  | none => exact .throw _
  | some o =>
    refine .bind (preserves_onAllocator (preserves_appendTokenIds hP _)) fun _ => ?_
    refine .get_bind fun s' _ => .ite (fun _ => ?_) fun _ => .pure _
    exact .bind (preserves_assertSome _) fun x => preserves_modifyTable _

theorem preserves_appendTokenBlocks (hP : Callbacks P) (chunks : List (List Token))
    (blockIndex : ℕ) : Preserves (OfTier (HasTier P)) (appendTokenBlocks cfg blockIndex chunks) := by
  induction chunks generalizing blockIndex with
  | nil => exact .pure _
  | cons chunk rest ih => exact .bind (preserves_blockListAppendTokenIds hP _ _) fun _ => ih _

theorem preserves_appendTokenIds (hP : Callbacks P) (tokenIds : List Token)
    (numLookaheadSlots : ℕ) :
    Preserves (OfTier (HasTier P)) (appendTokenIds cfg tokenIds numLookaheadSlots) := by
  refine .get_bind fun s _ => .bind preserves_assertThat fun _ => ?_
  refine .bind (preserves_ensureNumEmptySlots hP _) fun _ => .get_bind fun s _ => ?_
  exact .bind (preserves_appendTokenBlocks hP _ _) fun _ => preserves_modifyTable _

theorem preserves_fork : Preserves (OfTier Q) (fork cfg) := by
  refine .get_bind fun s _ => ?_
  cases s.table.blocks.getLast? with
  | none => exact .throw _
  | some last =>
    refine .bind (preserves_onAllocator PrefixCachingBlockAllocator.preserves_fork) fun blocks => ?_
    refine .get_bind fun s' _ => ?_
    dsimp only
    split
    · exact .throw _
    · exact .pure _

theorem preserves_free : Preserves (OfTier Q) (free cfg) := by
  refine .get_bind fun s _ => ?_
  refine .bind (preserves_onAllocator (.forM (fun _ => ?_) _)) fun _ => preserves_modifyTable _
  exact PrefixCachingBlockAllocator.preserves_free

end Ikun.BlockTable

namespace Ikun.BlockTables

open Exec PrefixCachingBlockAllocator

variable {Token Hash : Type} [DecidableEq Hash] {cfg : AllocatorConfig Token Hash}
  {Q : Option (CpuKvContentCache Hash) → Prop} {P : CpuKvContentCache Hash → Prop}

/-- A property of the CPU tier behind the allocator of all tables. -/
def OfTier (Q : Option (CpuKvContentCache Hash) → Prop) (w : BlockTables Token Hash) : Prop :=
  PrefixCachingBlockAllocator.OfTier Q w.alloc

/-- The operations other than `beginStep` and `drainStep`. -/
def Op.onBlocks : Op Token → Prop
  | .beginStep | .drainStep => False
  | _ => True

omit [DecidableEq Hash] in
theorem preserves_onTable {α : Type} {m : BlockTable.Method Token Hash α} {i : ℕ}
    (hm : Preserves (BlockTable.OfTier Q) m) : Preserves (OfTier Q) (onTable i m) := by
  intro w hw
  unfold wp onTable
  cases w.tables[i]? with
  | none => exact hw
  | some t =>
    have h := hm ⟨w.alloc, t⟩ hw
    unfold wp at h
    dsimp only
    cases hr : m ⟨w.alloc, t⟩ with
    | ok r s =>
      rw [hr] at h
      exact h
    | error e s =>
      rw [hr] at h
      exact h

omit [DecidableEq Hash] in
theorem preserves_onAllocator {α : Type} {m : PrefixCachingBlockAllocator.Method Token Hash α}
    (hm : Preserves (PrefixCachingBlockAllocator.OfTier Q) m) :
    Preserves (OfTier Q) (onAllocator m) := fun w hw => wp_focus.mpr (hm w.alloc hw)

/-- Freeing a table does not touch the CPU tier. -/
theorem preserves_free (i : ℕ) : Preserves (OfTier Q) ((Op.free i : Op Token).run cfg) :=
  .bind (preserves_onTable BlockTable.preserves_free) fun _ => .pure _

/-- Operations on blocks keep what the callbacks keep. -/
theorem preserves_run (hP : Callbacks P) {op : Op Token} (hop : op.onBlocks) :
    Preserves (OfTier (HasTier P)) (op.run cfg) := by
  cases op with
  | new cacheNamespace => exact .bind (.modify fun _ hw => hw) fun _ => .pure _
  | allocate t tokenIds =>
    exact .bind (preserves_onTable (BlockTable.preserves_allocate hP _)) fun _ => .pure _
  | appendTokenIds t tokenIds n =>
    exact .bind (preserves_onTable (BlockTable.preserves_appendTokenIds hP _ _)) fun _ => .pure _
  | ensureNumEmptySlots t n =>
    exact .bind (preserves_onTable (BlockTable.preserves_ensureNumEmptySlots hP _)) fun _ => .pure _
  | fork t =>
    refine .bind (preserves_onTable BlockTable.preserves_fork) fun forked => ?_
    exact .bind (.modify fun _ hw => hw) fun _ => .pure _
  | free t => exact preserves_free t
  | markBlocksAsAccessed blockIds now =>
    refine .bind (preserves_onAllocator (preserves_markBlocksAsAccessed _ _)) fun _ => .pure _
  | markBlocksAsComputed =>
    exact .bind (preserves_onAllocator (.modify fun _ ha => ha)) fun _ => .pure _
  | clearCopyOnWrites =>
    have hclear : Preserves (PrefixCachingBlockAllocator.OfTier (HasTier P))
        (clearCopyOnWrites : PrefixCachingBlockAllocator.Method Token Hash _) :=
      .get_bind fun _ ha => .bind (.set ha) fun _ => .pure _
    exact .bind (.map _ (preserves_onAllocator hclear)) fun _ => .pure _
  | beginStep => exact hop.elim
  | drainStep => exact hop.elim

end Ikun.BlockTables
