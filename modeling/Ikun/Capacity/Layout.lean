import Mathlib.Data.Int.ModEq
import Mathlib.Data.Int.CardIntervalMod
import Mathlib.Data.List.FinRange
import Mathlib.Algebra.BigOperators.Fin
import Mathlib.Algebra.Order.BigOperators.Group.Finset
import Mathlib.Tactic.Ring
import Ikun.Basic
import Ikun.Lib.Except

/-!
# Layerwise split

The full-attention layers of a model are divided among the ranks of a split group by their absolute
indices. The worker marks the layers that its rank owns, and two estimators count the blocks that
every rank can afford: one from the description of the model, one from the number of full-attention
layers alone, as if these were the first layers of the model.

Sizes are integers without a bound; a failed `CHECK` is an exception. Layer indices, group sizes and
ranks are natural numbers.
-/

namespace Ikun.KvCapacity

open Except

/-- The `CHECK`s of this code, each named after what it demands. -/
inductive CheckFailure
  | positiveSplitSize
  | positiveNumLayers
  | positiveFullLayers
  | positiveLayerBytes
  | positiveScratchBytes
  | someRankOwnsLayer
  | oneSplitBlock
  | nonnegativeIndexerLayers
  | indexerLayersAtMostFull
  | positiveBlockBytes
  | positiveLinearBytes
  | requestedSlotsFit
  | linearCacheFits
  | memoryLeft
  | positiveBlocks
  | positiveCacheSize
  deriving DecidableEq, Repr

/-- `CHECK(c)`. -/
def check (c : Prop) [Decidable c] (failure : CheckFailure) : Except CheckFailure Unit :=
  raiseIf (¬ c) failure

theorem check_eq_ok {c : Prop} [Decidable c] {failure : CheckFailure} {u : Unit} :
    check c failure = .ok u ↔ c := raiseIf_eq_ok.trans not_not

/-! ## The model -/

/-- `ModelArgs`, as far as the estimates read it. -/
structure ModelArgs where
  modelType : String := ""
  nLayers : ℕ := 0
  headDim : ℤ := 0
  fullAttentionInterval : ℤ := 1
  layerTypes : List String := []
  linearNumValueHeads : ℤ := 0
  linearKeyHeadDim : ℤ := 0
  linearValueHeadDim : ℤ := 0
  linearConvKernelDim : ℤ := 0
  enableMla : Bool := false
  kvLoraRank : ℤ := 0
  qkRopeHeadDim : ℤ := 0

/-- `is_full_attention_layer`. -/
def isFullAttentionLayer (args : ModelArgs) (layerId : ℕ) : Bool :=
  match args.layerTypes[layerId]? with
  | some layerType => layerType = "full_attention" || layerType = "attention"
  | none =>
    let attentionInterval := toInt32 args.fullAttentionInterval
    if attentionInterval ≤ 1 then true else ((layerId + 1 : ℕ) : ℤ) % attentionInterval = 0

/-- `KVCacheCapacity`, as far as the estimates use it. -/
structure KVCacheCapacity where
  nBlocks : ℤ := 0
  cacheSizeInBytes : ℤ := 0
  blockSize : ℤ := 0
  slotSize : ℤ := 0
  indexSlotSize : ℤ := 0
  numIndexerLayers : ℤ := 0
  scaleSlotSize : ℤ := 0
  linearSlotSize : ℤ := 0
  linearCacheSizeInBytes : ℤ := 0
  linearConvStateLen : ℤ := 0
  linearSsmCheckpointStride : ℤ := 1
  nLayers : ℕ := 0
  numLinearStateBlocks : ℤ := 0
  numFullAttentionLayers : ℤ := 0
  numLinearAttentionLayers : ℤ := 0

/-! ## Ownership -/

/-- `LayerwiseSplitLayout`; its constructor checks that the rank is one of the group. -/
structure LayerwiseSplitLayout where
  enabled : Bool
  groupSize : ℕ
  localRank : ℕ
  localRank_lt : localRank < groupSize

namespace LayerwiseSplitLayout

/-- The layout of a rank of the group. -/
def ofRank {groupSize : ℕ} (rank : Fin groupSize) : LayerwiseSplitLayout :=
  ⟨true, groupSize, rank, rank.isLt⟩

variable (layout : LayerwiseSplitLayout)

/-- `owner_rank`. -/
def ownerRank (layerId : ℕ) : ℕ := layerId % layout.groupSize

/-- `owns`. -/
def owns (layerId : ℕ) : Bool := !layout.enabled || layout.ownerRank layerId = layout.localRank

end LayerwiseSplitLayout

/-- `build_layer_cache_owned`. -/
def buildLayerCacheOwned (args : ModelArgs) (layout : LayerwiseSplitLayout) (numLayers : ℕ) :
    List Bool :=
  (List.range numLayers).map fun layerId =>
    isFullAttentionLayer args layerId && layout.owns layerId

/-- `worker_compute_layer_cache_owned`. -/
def workerComputeLayerCacheOwned (layerTypes : List String) (layerwiseSplitSize rank numLayers : ℕ) :
    Except CheckFailure (List Bool) := do
  check (1 ≤ layerwiseSplitSize) .positiveSplitSize
  check (0 < numLayers) .positiveNumLayers
  if h : layerwiseSplitSize ≤ 1 then return List.replicate numLayers true
  else
    let args : ModelArgs := { nLayers := numLayers, layerTypes := layerTypes }
    let layout := LayerwiseSplitLayout.ofRank
      (⟨rank % layerwiseSplitSize, Nat.mod_lt _ (by omega)⟩ : Fin layerwiseSplitSize)
    return buildLayerCacheOwned args layout numLayers

/-! ## The estimators -/

/-- `std::numeric_limits<int64_t>::max()`. -/
def int64Max : ℤ := 2 ^ 63 - 1

/-- The loop of both estimators over the ranks: the blocks that every rank with a layer can afford,
at `extra` bytes over those of its layers. -/
def commonBlockCount {groupSize : ℕ} (ownedBytes : Fin groupSize → ℤ) (extra availableBytes : ℤ) :
    ℤ :=
  (List.finRange groupSize).foldl (fun common rank =>
    if ownedBytes rank = 0 then common
    else min common (availableBytes.tdiv (ownedBytes rank + extra))) int64Max

section perLayer

variable (args : ModelArgs) (cap : KVCacheCapacity)

/-- The bytes that a layer has in a block, by its index. No layer is excluded from the indexer. -/
def layerBytes (layerId : ℕ) : ℤ :=
  if isFullAttentionLayer args layerId then
    cap.blockSize * (cap.slotSize + cap.scaleSlotSize +
      if 0 < cap.indexSlotSize then cap.indexSlotSize else 0)
  else 0

/-- `any_indexer_layer`. -/
def anyIndexerLayer : Bool :=
  (List.range cap.nLayers).any fun layerId =>
    isFullAttentionLayer args layerId && decide (0 < cap.indexSlotSize)

/-- `scratch_bytes_per_block`. -/
def scratchBytesPerBlock : ℤ :=
  cap.blockSize * (cap.slotSize + cap.scaleSlotSize +
    if anyIndexerLayer args cap then cap.indexSlotSize else 0)

/-- `owned_bytes`: those of the layers that the mask marks. -/
def ownedBytes (layout : LayerwiseSplitLayout) : ℤ :=
  (((List.range cap.nLayers).zip (buildLayerCacheOwned args layout cap.nLayers)).map fun layer =>
    if layer.2 then layerBytes args cap layer.1 else 0).sum

/-- `layerwise_split_block_count`. -/
def layerwiseSplitBlockCount (layerwiseSplitSize : ℕ) (availableBytes additionalBlockBytes : ℤ) :
    Except CheckFailure ℤ := do
  let scratchBytes := scratchBytesPerBlock args cap
  check (0 < scratchBytes) .positiveScratchBytes
  let common := commonBlockCount
    (fun rank : Fin layerwiseSplitSize => ownedBytes args cap (.ofRank rank))
    (scratchBytes + additionalBlockBytes) availableBytes
  check (common ≠ int64Max) .someRankOwnsLayer
  check (0 < common) .oneSplitBlock
  return common

end perLayer

/-- The bytes of the layers of a rank when the full-attention layers are numbered among themselves. -/
def denseOwnedBytes (numFullAttnLayers : ℕ) (perLayerBlockBytes : ℤ)
    (layout : LayerwiseSplitLayout) : ℤ :=
  ((List.range numFullAttnLayers).map fun layerId =>
    if layout.owns layerId then perLayerBlockBytes else 0).sum

/-- `estimate_layerwise_split_block_count`, for a number of full-attention layers. -/
def estimateLayerwiseSplitBlockCount (layerwiseSplitSize numFullAttnLayers : ℕ)
    (perLayerBlockBytes scratchBlockBytes availableBytes : ℤ) : Except CheckFailure ℤ := do
  check (1 ≤ layerwiseSplitSize) .positiveSplitSize
  check (0 < numFullAttnLayers) .positiveFullLayers
  check (0 < perLayerBlockBytes) .positiveLayerBytes
  check (0 < scratchBlockBytes) .positiveScratchBytes
  let common := commonBlockCount
    (fun rank : Fin layerwiseSplitSize => denseOwnedBytes numFullAttnLayers perLayerBlockBytes
      (.ofRank rank)) scratchBlockBytes availableBytes
  return if common = int64Max then availableBytes.tdiv scratchBlockBytes else common

end Ikun.KvCapacity
