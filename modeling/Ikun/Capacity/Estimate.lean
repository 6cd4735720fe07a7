import Mathlib.Data.Rat.Floor
import Ikun.Capacity.Balance

/-!
# The capacity plan

The cache budget is first divided between the states of the linear-attention layers and the blocks
of the full-attention ones. The pool of states gets the least of three quotients, but two blocks at
least; what is left over is divided by the bytes of a block, or by those of the rank that owns most
under a layerwise split.

Every plan that passes the checks fits, and one block more would not (`capacity_plan_fits`). Without
a split and without a requested number of states, a budget for two states and a block is enough
(`estimateKvCacheCapacity_plan`, for the slots that a model and its options give); but blocks of no
tokens are refused at any budget (`noBlockSize_refused`).
-/

namespace Ikun.KvCapacity

open Except

/-- `KVCacheEstimateOptions`, as far as the estimates read it. -/
structure KVCacheEstimateOptions where
  dtypeEnum : ℤ := 15
  kvCacheDtype : String := "auto"
  cacheSizeInBytes : ℤ := 0
  blockSize : ℤ := 0
  nLocalKvHeads : ℤ := 0
  nLocalLinearKHeads : ℤ := 0
  nLocalLinearVHeads : ℤ := 0
  maxSeqsPerBatch : ℤ := 0
  numSpeculativeTokens : ℤ := 0
  maxLinearStateCacheSlots : ℤ := 0
  isDraftEngine : Bool := false
  enablePrefixCache : Bool := false
  layerwiseSplitSize : ℤ := 1

/-! ## Slot sizes -/

/-- `dtype_size_from_enum`. -/
def dtypeSizeFromEnum (dtypeEnum : ℤ) : ℤ :=
  if dtypeEnum = 5 then 2
  else if dtypeEnum = 15 then 2
  else if dtypeEnum = 6 then 4
  else if dtypeEnum = 2 then 1
  else 2

/-- `kv_cache_dtype_size`. -/
def kvCacheDtypeSize (kvCacheDtype : String) (modelDtypeSize : ℤ) : ℤ :=
  if kvCacheDtype = "auto" then modelDtypeSize
  else if kvCacheDtype = "int8" then 1
  else if kvCacheDtype = "fp8_e4m3" ∨ kvCacheDtype = "fp8_e5m2" then 1
  else modelDtypeSize

/-- `sizeof(float)`. -/
def sizeofFloat : ℤ := 4

variable (args : ModelArgs) (options : KVCacheEstimateOptions) (cap : KVCacheCapacity)

/-- `kv_slot_size`. -/
def kvSlotSize (cacheDtypeSize : ℤ) : ℤ :=
  if args.enableMla then cacheDtypeSize * (args.kvLoraRank + args.qkRopeHeadDim)
  else 2 * cacheDtypeSize * args.headDim * options.nLocalKvHeads

/-- `scale_slot_size`. -/
def scaleSlotSize : ℤ :=
  if options.kvCacheDtype = "auto" then 0
  else if args.enableMla then sizeofFloat
  else 2 * sizeofFloat * options.nLocalKvHeads

/-- `is_qwen3_5_target_model_type`. -/
def isQwen35TargetModelType (modelType : String) : Bool :=
  modelType = "qwen3_5" || modelType = "qwen3_5_moe" || modelType = "qwen3_5_text" ||
    modelType = "qwen3_5_moe_text"

/-- `enable_qwen3_5_spec_verify`. -/
def enableQwen35SpecVerify : Bool :=
  options.numSpeculativeTokens > 0 && !options.isDraftEngine && isQwen35TargetModelType args.modelType

/-- `num_speculative_tokens`, as the estimates compute it. -/
def numSpeculativeTokens : ℤ :=
  if enableQwen35SpecVerify args options then options.numSpeculativeTokens else 0

/-- `linear_slot_size`. -/
def linearSlotSize (dtypeSize : ℤ) : ℤ :=
  if args.linearNumValueHeads ≤ 0 then 0
  else
    let linearSsmSlotSize :=
      dtypeSize * options.nLocalLinearVHeads * args.linearKeyHeadDim * args.linearValueHeadDim
    let linearConvStateLen := args.linearConvKernelDim - 1 + numSpeculativeTokens args options
    let linearConvSlotSize :=
      dtypeSize * (args.linearKeyHeadDim * options.nLocalLinearKHeads * 2 +
        args.linearValueHeadDim * options.nLocalLinearVHeads) * linearConvStateLen
    linearConvSlotSize + linearSsmSlotSize * (numSpeculativeTokens args options + 1)

/-! ## The plan -/

/-- `standard_full_cache_block_size_in_bytes`. -/
def standardFullCacheBlockSizeInBytes : Except CheckFailure ℤ := do
  let fullAttentionLayers := max cap.numFullAttentionLayers 1
  let indexerLayers := cap.numIndexerLayers
  check (0 ≤ indexerLayers) .nonnegativeIndexerLayers
  check (indexerLayers ≤ fullAttentionLayers) .indexerLayersAtMostFull
  let logicalBlockBytes := cap.blockSize * (fullAttentionLayers *
    (cap.slotSize + cap.scaleSlotSize) + indexerLayers * cap.indexSlotSize)
  check (0 < logicalBlockBytes) .positiveBlockBytes
  return logicalBlockBytes

/-- `kPaddingLinearStateBlocks`. -/
def kPaddingLinearStateBlocks : ℤ := 2

/-- The share of the budget for the states under prefix caching, for a ratio of 0.9. -/
def autoShare : ℚ := (9 / 10) / (1 + 9 / 10)

/-- The most blocks that the pool of states may have. -/
def maxLinearStateBlocks (cacheSizeInBytes linearBytesPerBlock fullCacheBlockSizeInBytes : ℤ) : ℤ :=
  let maxBlocks := (cacheSizeInBytes - 1).tdiv linearBytesPerBlock
  let balanced := (cacheSizeInBytes + kPaddingLinearStateBlocks * fullCacheBlockSizeInBytes).tdiv
    (linearBytesPerBlock + fullCacheBlockSizeInBytes)
  max (min maxBlocks balanced) kPaddingLinearStateBlocks

/-- The conversion of a rational to `int64_t`, towards zero. -/
def truncate (q : ℚ) : ℤ := q.num.tdiv q.den

/-- `calculate_linear_state_blocks`. -/
def calculateLinearStateBlocks (cacheSizeInBytes numLinearAttentionLayers linearSlotSz
    fullCacheBlockSizeInBytes maxSeqsPerBatch maxLinearStateCacheSlots : ℤ)
    (enablePrefixCache : Bool) : Except CheckFailure ℤ :=
  if numLinearAttentionLayers ≤ 0 ∨ linearSlotSz ≤ 0 then return kPaddingLinearStateBlocks
  else do
    let linearBytesPerBlock := numLinearAttentionLayers * linearSlotSz
    check (0 < linearBytesPerBlock) .positiveLinearBytes
    let maxBlocks :=
      maxLinearStateBlocks cacheSizeInBytes linearBytesPerBlock fullCacheBlockSizeInBytes
    if 0 < maxLinearStateCacheSlots then
      let requested := maxLinearStateCacheSlots + kPaddingLinearStateBlocks
      check (requested ≤ maxBlocks) .requestedSlotsFit
      return requested
    else if ¬ enablePrefixCache then
      let live := maxSeqsPerBatch + kPaddingLinearStateBlocks
      return max (min live maxBlocks) kPaddingLinearStateBlocks
    else
      let autoBlocks := max (truncate (cacheSizeInBytes * autoShare / linearBytesPerBlock))
        kPaddingLinearStateBlocks
      return min autoBlocks maxBlocks

/-- The counters of `init_standard_counts` after its loop over the layers. -/
def countLayers : KVCacheCapacity :=
  (List.range cap.nLayers).foldl (fun cap layerId =>
    if isFullAttentionLayer args layerId then
      { cap with numFullAttentionLayers := cap.numFullAttentionLayers + 1 }
    else { cap with numLinearAttentionLayers := cap.numLinearAttentionLayers + 1 }) cap

/-- The blocks for the full-attention layers. -/
def fullAttentionBlocks (availableBytes fullCacheBlockSizeInBytes : ℤ) : Except CheckFailure ℤ :=
  if 1 < options.layerwiseSplitSize then
    layerwiseSplitBlockCount args cap options.layerwiseSplitSize.toNat availableBytes 0
  else return availableBytes.tdiv fullCacheBlockSizeInBytes

/-- `init_standard_counts`. -/
def initStandardCounts : Except CheckFailure KVCacheCapacity := do
  let counted := countLayers args cap
  let fullCacheBlockSizeInBytes ← standardFullCacheBlockSizeInBytes counted
  let linearStateBlocks ← calculateLinearStateBlocks counted.cacheSizeInBytes
    counted.numLinearAttentionLayers counted.linearSlotSize fullCacheBlockSizeInBytes
    options.maxSeqsPerBatch options.maxLinearStateCacheSlots options.enablePrefixCache
  let linearCacheSizeInBytes :=
    counted.numLinearAttentionLayers * linearStateBlocks * counted.linearSlotSize
  let reserved := { counted with
    numLinearStateBlocks := linearStateBlocks
    linearCacheSizeInBytes := linearCacheSizeInBytes }
  let availableFullCacheSizeInBytes := reserved.cacheSizeInBytes - linearCacheSizeInBytes
  check (0 < reserved.linearSlotSize → linearCacheSizeInBytes < reserved.cacheSizeInBytes)
    .linearCacheFits
  check (0 < availableFullCacheSizeInBytes) .memoryLeft
  let nBlocks ← fullAttentionBlocks args options reserved availableFullCacheSizeInBytes
    fullCacheBlockSizeInBytes
  check (0 < nBlocks) .positiveBlocks
  return { reserved with nBlocks := nBlocks }

/-- The capacity that `estimate_kv_cache_capacity` hands to `init_standard_counts`. -/
def initialCapacity : KVCacheCapacity :=
  let dtypeSize := dtypeSizeFromEnum options.dtypeEnum
  let cacheDtypeSize := kvCacheDtypeSize options.kvCacheDtype dtypeSize
  { cacheSizeInBytes := max options.cacheSizeInBytes 0
    blockSize := options.blockSize
    slotSize := kvSlotSize args options cacheDtypeSize
    scaleSlotSize := scaleSlotSize args options
    linearSlotSize := linearSlotSize args options dtypeSize
    nLayers := args.nLayers
    linearConvStateLen := args.linearConvKernelDim - 1 + numSpeculativeTokens args options
    linearSsmCheckpointStride := numSpeculativeTokens args options + 1 }

/-- `estimate_kv_cache_capacity`. -/
def estimateKvCacheCapacity : Except CheckFailure KVCacheCapacity := do
  check (0 < (initialCapacity args options).cacheSizeInBytes) .positiveCacheSize
  initStandardCounts args options (initialCapacity args options)

/-! ## What the plan is made of -/

section counts

variable {args options cap}

theorem foldl_countLayers (layers : List ℕ) (cap : KVCacheCapacity) :
    layers.foldl (fun cap layerId =>
      if isFullAttentionLayer args layerId then
        { cap with numFullAttentionLayers := cap.numFullAttentionLayers + 1 }
      else { cap with numLinearAttentionLayers := cap.numLinearAttentionLayers + 1 }) cap
      = { cap with
          numFullAttentionLayers := cap.numFullAttentionLayers +
            layers.countP fun l => isFullAttentionLayer args l
          numLinearAttentionLayers := cap.numLinearAttentionLayers +
            layers.countP fun l => !isFullAttentionLayer args l } := by
  induction layers generalizing cap with
  | nil => simp
  | cons l layers ih =>
    rw [List.foldl_cons, ih, List.countP_cons, List.countP_cons]
    cases isFullAttentionLayer args l with
    | true => simp; ring
    | false => simp; ring

/-- The number of full-attention layers and the number of the other ones. -/
def numLinearLayers (args : ModelArgs) (numLayers : ℕ) : ℕ :=
  (List.range numLayers).countP fun l => !isFullAttentionLayer args l

/-- A capacity in which nothing has been counted. -/
structure KVCacheCapacity.Fresh (cap : KVCacheCapacity) : Prop where
  numFullAttentionLayers : cap.numFullAttentionLayers = 0
  numLinearAttentionLayers : cap.numLinearAttentionLayers = 0
  numIndexerLayers : cap.numIndexerLayers = 0

/-- The layers are counted. -/
theorem countLayers_eq (hfresh : cap.Fresh) : countLayers args cap = { cap with
    numFullAttentionLayers := ((fullLayers args cap.nLayers).length : ℤ)
    numLinearAttentionLayers := (numLinearLayers args cap.nLayers : ℤ) } := by
  unfold countLayers fullLayers numLinearLayers
  rw [foldl_countLayers, hfresh.numFullAttentionLayers, hfresh.numLinearAttentionLayers,
    Int.zero_add, Int.zero_add, List.countP_eq_length_filter]

/-- The bytes of a block over all full-attention layers. -/
def fullBlockBytes (args : ModelArgs) (cap : KVCacheCapacity) : ℤ :=
  cap.blockSize * ((fullLayers args cap.nLayers).length * (cap.slotSize + cap.scaleSlotSize))

/-- The bytes of a state over all linear-attention layers. -/
def linearBytesPerState (args : ModelArgs) (cap : KVCacheCapacity) : ℤ :=
  numLinearLayers args cap.nLayers * cap.linearSlotSize

/-- The bytes of a block, when there is a full-attention layer. -/
theorem standardFullCacheBlockSizeInBytes_eq_ok {bytes : ℤ} (hfresh : cap.Fresh)
    (hfull : 0 < (fullLayers args cap.nLayers).length) :
    standardFullCacheBlockSizeInBytes (countLayers args cap) = .ok bytes ↔
      0 < fullBlockBytes args cap ∧ bytes = fullBlockBytes args cap := by
  have hmax : max ((fullLayers args cap.nLayers).length : ℤ) 1
      = ((fullLayers args cap.nLayers).length : ℤ) := max_eq_left (by omega)
  rw [countLayers_eq hfresh]
  unfold standardFullCacheBlockSizeInBytes
  dsimp only
  rw [hfresh.numIndexerLayers, hmax, Int.zero_mul, Int.add_zero]
  constructor
  · intro h
    obtain ⟨_, -, h⟩ := bind_eq_ok.mp h
    obtain ⟨_, -, h⟩ := bind_eq_ok.mp h
    obtain ⟨_, hpos, h⟩ := bind_eq_ok.mp h
    exact ⟨check_eq_ok.mp hpos, (Except.ok.inj h).symm⟩
  · intro ⟨hpos, hbytes⟩
    exact bind_eq_ok.mpr ⟨(), check_eq_ok.mpr le_rfl, bind_eq_ok.mpr ⟨(),
      check_eq_ok.mpr (Int.natCast_nonneg _), bind_eq_ok.mpr ⟨(), check_eq_ok.mpr hpos,
        congrArg Except.ok hbytes.symm⟩⟩⟩

/-- The plan is made of the bytes of a block, the number of states and the number of blocks. -/
theorem initStandardCounts_eq_ok {cap' : KVCacheCapacity} (hfresh : cap.Fresh)
    (hfull : 0 < (fullLayers args cap.nLayers).length) :
    initStandardCounts args options cap = .ok cap' ↔
      0 < fullBlockBytes args cap ∧ ∃ states blocks,
        calculateLinearStateBlocks cap.cacheSizeInBytes (numLinearLayers args cap.nLayers)
            cap.linearSlotSize (fullBlockBytes args cap) options.maxSeqsPerBatch
            options.maxLinearStateCacheSlots options.enablePrefixCache = .ok states ∧
          states * linearBytesPerState args cap < cap.cacheSizeInBytes ∧
          fullAttentionBlocks args options cap
            (cap.cacheSizeInBytes - states * linearBytesPerState args cap)
            (fullBlockBytes args cap) = .ok blocks ∧
          0 < blocks ∧ cap' = { cap with
            numFullAttentionLayers := ((fullLayers args cap.nLayers).length : ℤ)
            numLinearAttentionLayers := (numLinearLayers args cap.nLayers : ℤ)
            numLinearStateBlocks := states
            linearCacheSizeInBytes := states * linearBytesPerState args cap
            nBlocks := blocks } := by
  have hlinear : ∀ states : ℤ, (numLinearLayers args cap.nLayers : ℤ) * states * cap.linearSlotSize
      = states * linearBytesPerState args cap := fun states => by
    unfold linearBytesPerState
    ring
  unfold initStandardCounts
  constructor
  · intro h
    obtain ⟨bytes, hbytes, h⟩ := bind_eq_ok.mp h
    obtain ⟨hpos, rfl⟩ := (standardFullCacheBlockSizeInBytes_eq_ok hfresh hfull).mp hbytes
    rw [countLayers_eq hfresh] at h
    obtain ⟨states, hstates, h⟩ := bind_eq_ok.mp h
    dsimp only at h
    rw [hlinear] at h
    obtain ⟨_, -, h⟩ := bind_eq_ok.mp h
    obtain ⟨_, hleft, h⟩ := bind_eq_ok.mp h
    obtain ⟨blocks, hblocks, h⟩ := bind_eq_ok.mp h
    obtain ⟨_, hone, h⟩ := bind_eq_ok.mp h
    exact ⟨hpos, states, blocks, hstates, Int.sub_pos.mp (check_eq_ok.mp hleft), hblocks,
      check_eq_ok.mp hone, (Except.ok.inj h).symm⟩
  · intro ⟨hpos, states, blocks, hstates, hleft, hblocks, hone, hcap⟩
    refine bind_eq_ok.mpr ⟨_, (standardFullCacheBlockSizeInBytes_eq_ok hfresh hfull).mpr
      ⟨hpos, rfl⟩, ?_⟩
    rw [countLayers_eq hfresh]
    refine bind_eq_ok.mpr ⟨states, hstates, ?_⟩
    dsimp only
    rw [hlinear]
    exact bind_eq_ok.mpr ⟨(), check_eq_ok.mpr fun _ => hleft, bind_eq_ok.mpr ⟨(),
      check_eq_ok.mpr (Int.sub_pos.mpr hleft), bind_eq_ok.mpr ⟨blocks, hblocks, bind_eq_ok.mpr
        ⟨(), check_eq_ok.mpr hone, congrArg Except.ok hcap.symm⟩⟩⟩⟩

/-! ## The plan fits -/

/-- What a quotient pays for. -/
theorem mul_tdiv_le {available cost : ℤ} (havailable : 0 ≤ available) (hcost : 0 < cost) :
    available.tdiv cost * cost ≤ available ∧ available < (available.tdiv cost + 1) * cost := by
  rw [Int.tdiv_eq_ediv_of_nonneg havailable]
  exact ⟨Int.ediv_mul_le _ (Int.ne_of_gt hcost), Int.lt_ediv_add_one_mul_self available hcost⟩

/-- Every rank can afford the blocks of a layerwise split, and the one that owns most cannot afford
another one. -/
theorem layerwiseSplitBlockCount_fits {g : ℕ} {available blocks : ℤ} (hg : 0 < g)
    (hfull : 0 < (fullLayers args cap.nLayers).length) (havailable : 0 < available)
    (hok : layerwiseSplitBlockCount args cap g available 0 = .ok blocks) :
    (∀ r : Fin g, blocks * (ownedBytes args cap (.ofRank r) + scratchBytesPerBlock args cap)
        ≤ available) ∧
      ∀ r : Fin g, (∀ r' : Fin g, ownedBytes args cap (.ofRank r') ≤ ownedBytes args cap (.ofRank r)) →
        available < (blocks + 1) *
          (ownedBytes args cap (.ofRank r) + scratchBytesPerBlock args cap) := by
  obtain ⟨hscratch, hsome, hpos, hcommon⟩ := layerwiseSplitBlockCount_eq_ok.mp hok
  rw [Int.add_zero] at hcommon
  have hsize : 0 < fullLayerBytes cap := scratchBytesPerBlock_eq hfull ▸ hscratch
  have howned : ∀ r : Fin g, 0 ≤ ownedBytes args cap (.ofRank r) := fun r => by
    rw [ownedBytes_ofRank]
    exact Int.mul_nonneg (Int.natCast_nonneg _) (Int.le_of_lt hsize)
  have hself := le_commonBlockCount.mp hcommon.ge
  have hscratch' : scratchBytesPerBlock args cap = fullLayerBytes cap := scratchBytesPerBlock_eq hfull
  have hcost : ∀ r : Fin g, 0 < ownedBytes args cap (.ofRank r) + scratchBytesPerBlock args cap :=
    fun r => Int.add_pos_of_nonneg_of_pos (howned r) hscratch
  have hpays := fun r : Fin g => mul_tdiv_le (Int.le_of_lt havailable) (hcost r)
  obtain ⟨r₀, hcharged, hmost⟩ := exists_charged hfull hg hsize
  have hfits₀ : blocks * (ownedBytes args cap (.ofRank r₀) + scratchBytesPerBlock args cap)
      ≤ available :=
    (Int.mul_le_mul_of_nonneg_right (hself.2 r₀ hcharged) (Int.le_of_lt (hcost r₀))).trans
      (hpays r₀).1
  refine ⟨fun r => ?_, fun r hr => ?_⟩
  · -- a rank without a layer is not charged, but it owns less than one that is
    exact (Int.mul_le_mul_of_nonneg_left (Int.add_le_add_right (hmost r) _)
      (Int.le_of_lt hpos)).trans hfits₀
  · -- no rank pays for fewer blocks than one that owns most, and the count is in range
    have hmin : min (available.tdiv (ownedBytes args cap (.ofRank r) +
        scratchBytesPerBlock args cap)) int64Max ≤ blocks := by
      rw [← hcommon]
      exact le_commonBlockCount.mpr ⟨min_le_right _ _, fun r' _ => (min_le_left _ _).trans
        (tdiv_le_tdiv_of_le (Int.le_of_lt havailable) (hcost r') (Int.add_le_add_right (hr r') _))⟩
    have hquot : available.tdiv (ownedBytes args cap (.ofRank r) +
        scratchBytesPerBlock args cap) ≤ blocks := by
      cases min_le_iff.mp hmin with
      | inl h => exact h
      | inr h => exact absurd (le_antisymm hself.1 h) hsome
    exact Int.lt_of_lt_of_le (hpays r).2
      (Int.mul_le_mul_of_nonneg_right (Int.add_le_add_right hquot 1) (Int.le_of_lt (hcost r)))

/-- Without a split, the blocks are paid for and another one is not. -/
theorem fullAttentionBlocks_fits {available bytes blocks : ℤ} (hsplit : options.layerwiseSplitSize ≤ 1)
    (havailable : 0 < available) (hbytes : 0 < bytes)
    (hok : fullAttentionBlocks args options cap available bytes = .ok blocks) :
    blocks * bytes ≤ available ∧ available < (blocks + 1) * bytes := by
  unfold fullAttentionBlocks at hok
  rw [if_neg (Int.not_lt.mpr hsplit)] at hok
  have hblocks : available.tdiv bytes = blocks := Except.ok.inj hok
  rw [← hblocks]
  exact mul_tdiv_le (Int.le_of_lt havailable) hbytes

/-! ## The plan is not refused -/

/-- A pool of at most the greatest size leaves a block, if the budget has room for two states and a
block. -/
theorem mul_le_of_le_maxLinearStateBlocks {budget perState bytes states : ℤ} (hstate : 0 < perState)
    (hbytes : 0 < bytes) (hbudget : 2 * perState + bytes ≤ budget)
    (hstates : states ≤ maxLinearStateBlocks budget perState bytes) :
    states * perState + bytes ≤ budget := by
  have hsum : 0 < perState + bytes := Int.add_pos hstate hbytes
  have hnum : 0 ≤ budget + kPaddingLinearStateBlocks * bytes := by
    unfold kPaddingLinearStateBlocks
    linarith
  cases le_max_iff.mp hstates with
  | inl h =>
    have hbalanced := h.trans (min_le_right _ _)
    rw [Int.tdiv_eq_ediv_of_nonneg hnum] at hbalanced
    have hmul : states * (perState + bytes) ≤ budget + kPaddingLinearStateBlocks * bytes :=
      (Int.le_ediv_iff_mul_le hsum).mp hbalanced
    unfold kPaddingLinearStateBlocks at hmul
    cases le_or_gt states 2 with
    | inl htwo =>
      have hle : states * perState ≤ 2 * perState :=
        Int.mul_le_mul_of_nonneg_right htwo (Int.le_of_lt hstate)
      linarith
    | inr hmore =>
      -- every state over the second one is balanced by a block
      have hblock : 1 * bytes ≤ (states - 2) * bytes :=
        Int.mul_le_mul_of_nonneg_right (by omega) (Int.le_of_lt hbytes)
      linarith
  | inr h =>
    have hle : states * perState ≤ kPaddingLinearStateBlocks * perState :=
      Int.mul_le_mul_of_nonneg_right h (Int.le_of_lt hstate)
    unfold kPaddingLinearStateBlocks at hle
    linarith

/-- Without a requested number of states, the pool is sized so that a block is left. -/
theorem calculateLinearStateBlocks_leaves {budget layers slot bytes slots : ℤ} (maxSeqs : ℤ)
    (prefixes : Bool) (hslots : slots ≤ 0) (hbytes : 0 < bytes)
    (hbudget : 2 * (layers * slot) + bytes ≤ budget) :
    ∃ states, calculateLinearStateBlocks budget layers slot bytes maxSeqs slots prefixes = .ok states ∧
      states * (layers * slot) + bytes ≤ budget := by
  unfold calculateLinearStateBlocks
  split
  · next hnone =>
    exact ⟨kPaddingLinearStateBlocks, rfl, hbudget⟩
  · next hsome =>
    have hstate : 0 < layers * slot := Int.mul_pos
      (Int.not_le.mp fun h => hsome (.inl h)) (Int.not_le.mp fun h => hsome (.inr h))
    have hleaves : ∀ states, states ≤ maxLinearStateBlocks budget (layers * slot) bytes →
        states * (layers * slot) + bytes ≤ budget :=
      fun _ => mul_le_of_le_maxLinearStateBlocks hstate hbytes hbudget
    dsimp only
    rw [if_neg (Int.not_lt.mpr hslots)]
    cases prefixes with
    | false =>
      refine ⟨_, bind_eq_ok.mpr ⟨(), check_eq_ok.mpr hstate, rfl⟩, hleaves _ ?_⟩
      exact max_le (min_le_right _ _) (le_max_right _ _)
    | true =>
      refine ⟨_, bind_eq_ok.mpr ⟨(), check_eq_ok.mpr hstate, rfl⟩, hleaves _ ?_⟩
      exact min_le_right _ _

/-- The plan fits into the budget and one block more would not: without a split, and on the rank of
a split that owns most. -/
structure PlanFits (args : ModelArgs) (options : KVCacheEstimateOptions) (cap cap' : KVCacheCapacity) :
    Prop where
  hasBlock : 1 ≤ cap'.nBlocks
  states : cap'.linearCacheSizeInBytes = cap'.numLinearStateBlocks * linearBytesPerState args cap
  unsplit : options.layerwiseSplitSize ≤ 1 →
    cap'.linearCacheSizeInBytes + cap'.nBlocks * fullBlockBytes args cap ≤ cap.cacheSizeInBytes ∧
    cap.cacheSizeInBytes <
      cap'.linearCacheSizeInBytes + (cap'.nBlocks + 1) * fullBlockBytes args cap
  split : 1 < options.layerwiseSplitSize →
    (∀ r : Fin options.layerwiseSplitSize.toNat, cap'.linearCacheSizeInBytes +
      cap'.nBlocks * (ownedBytes args cap (.ofRank r) + scratchBytesPerBlock args cap)
        ≤ cap.cacheSizeInBytes) ∧
    ∀ r : Fin options.layerwiseSplitSize.toNat,
      (∀ r' : Fin options.layerwiseSplitSize.toNat,
        ownedBytes args cap (.ofRank r') ≤ ownedBytes args cap (.ofRank r)) →
      cap.cacheSizeInBytes < cap'.linearCacheSizeInBytes +
        (cap'.nBlocks + 1) * (ownedBytes args cap (.ofRank r) + scratchBytesPerBlock args cap)

theorem initStandardCounts_fits {cap' : KVCacheCapacity} (hfresh : cap.Fresh)
    (hfull : 0 < (fullLayers args cap.nLayers).length)
    (hok : initStandardCounts args options cap = .ok cap') : PlanFits args options cap cap' := by
  obtain ⟨hbytes, states, blocks, -, hleft, hblocks, hone, rfl⟩ :=
    (initStandardCounts_eq_ok hfresh hfull).mp hok
  have havailable := Int.sub_pos.mpr hleft
  refine ⟨hone, rfl, fun hsplit => ?_, fun hsplit => ?_⟩
  · have hfits := fullAttentionBlocks_fits hsplit havailable hbytes hblocks
    exact ⟨by linarith [hfits.1], by linarith [hfits.2]⟩
  · unfold fullAttentionBlocks at hblocks
    rw [if_pos hsplit] at hblocks
    have hg : 0 < options.layerwiseSplitSize.toNat := by omega
    have hfits := layerwiseSplitBlockCount_fits hg hfull havailable hblocks
    exact ⟨fun r => by linarith [hfits.1 r], fun r hr => by linarith [hfits.2 r hr]⟩

/-- Without a split and without a requested number of states, no check fails if there is room for
two states and a block. -/
theorem initStandardCounts_accepts (hfresh : cap.Fresh)
    (hfull : 0 < (fullLayers args cap.nLayers).length) (hsplit : options.layerwiseSplitSize ≤ 1)
    (hslots : options.maxLinearStateCacheSlots = 0) (hblock : 0 < cap.blockSize)
    (hslot : 0 < cap.slotSize) (hscale : 0 ≤ cap.scaleSlotSize)
    (hbudget : 2 * linearBytesPerState args cap + fullBlockBytes args cap ≤ cap.cacheSizeInBytes) :
    ∃ cap', initStandardCounts args options cap = .ok cap' := by
  have hbytes : 0 < fullBlockBytes args cap := by
    have hlayers : (0 : ℤ) < (fullLayers args cap.nLayers).length := Int.natCast_pos.mpr hfull
    exact Int.mul_pos hblock (Int.mul_pos hlayers (Int.add_pos_of_pos_of_nonneg hslot hscale))
  obtain ⟨states, hstates, hleaves⟩ := calculateLinearStateBlocks_leaves options.maxSeqsPerBatch
    options.enablePrefixCache (Int.le_of_eq hslots) hbytes hbudget
  have havailable : fullBlockBytes args cap
      ≤ cap.cacheSizeInBytes - states * linearBytesPerState args cap := by
    unfold linearBytesPerState
    linarith
  have hone : 0 < (cap.cacheSizeInBytes - states * linearBytesPerState args cap).tdiv
      (fullBlockBytes args cap) := by
    rw [Int.tdiv_eq_ediv_of_nonneg ((Int.le_of_lt hbytes).trans havailable)]
    exact Int.le_ediv_of_mul_le hbytes (by rwa [Int.zero_add, Int.one_mul])
  refine ⟨_, (initStandardCounts_eq_ok hfresh hfull).mpr ⟨hbytes, states, _, hstates,
    Int.sub_pos.mp (Int.lt_of_lt_of_le hbytes havailable), ?_, hone, rfl⟩⟩
  unfold fullAttentionBlocks
  rw [if_neg (Int.not_lt.mpr hsplit)]
  rfl

/-! ## Slots have a size -/

theorem dtypeSizeFromEnum_pos (dtypeEnum : ℤ) : 0 < dtypeSizeFromEnum dtypeEnum := by
  unfold dtypeSizeFromEnum
  grind

theorem kvCacheDtypeSize_pos {modelDtypeSize : ℤ} (kvCacheDtype : String)
    (hsize : 0 < modelDtypeSize) : 0 < kvCacheDtypeSize kvCacheDtype modelDtypeSize := by
  unfold kvCacheDtypeSize
  grind

/-- Blocks have tokens, and a token has keys and values. -/
structure HasSlots (args : ModelArgs) (options : KVCacheEstimateOptions) : Prop where
  blockSize : 0 < options.blockSize
  latent : args.enableMla → 0 < args.kvLoraRank + args.qkRopeHeadDim
  heads : args.enableMla = false → 0 < args.headDim ∧ 0 < options.nLocalKvHeads

theorem HasSlots.slotSize (h : HasSlots args options) : 0 < (initialCapacity args options).slotSize := by
  have hsize := kvCacheDtypeSize_pos options.kvCacheDtype (dtypeSizeFromEnum_pos options.dtypeEnum)
  unfold initialCapacity kvSlotSize
  dsimp only
  cases hmla : args.enableMla with
  | true => exact Int.mul_pos hsize (h.latent hmla)
  | false =>
    have hheads := h.heads hmla
    exact Int.mul_pos (Int.mul_pos (Int.mul_pos (by decide) hsize) hheads.1) hheads.2

theorem HasSlots.scaleSlotSize (h : HasSlots args options) :
    0 ≤ (initialCapacity args options).scaleSlotSize := by
  unfold initialCapacity KvCapacity.scaleSlotSize
  dsimp only
  split
  · exact le_rfl
  · cases hmla : args.enableMla with
    | true => exact (by decide : 0 ≤ sizeofFloat)
    | false => exact Int.mul_nonneg (by decide) (Int.le_of_lt (h.heads hmla).2)

/-! ## Main results -/

/-- For a model with a full-attention layer, a plan that passes the checks has a block, it fits, and
one block more would not fit: without a split, and on the rank of a split that owns most. Without a
split and without a requested number of states, every budget for two states and a block is
accepted, if blocks have a size. -/
theorem capacity_plan_fits (args : ModelArgs) (options : KVCacheEstimateOptions)
    (cap : KVCacheCapacity) (hfresh : cap.Fresh) (hfull : 0 < (fullLayers args cap.nLayers).length) :
    (∀ cap', initStandardCounts args options cap = .ok cap' → PlanFits args options cap cap') ∧
    (options.layerwiseSplitSize ≤ 1 → options.maxLinearStateCacheSlots = 0 → 0 < cap.blockSize →
      0 < cap.slotSize → 0 ≤ cap.scaleSlotSize →
      2 * linearBytesPerState args cap + fullBlockBytes args cap ≤ cap.cacheSizeInBytes →
      ∃ cap', initStandardCounts args options cap = .ok cap') :=
  ⟨fun _ hok => initStandardCounts_fits hfresh hfull hok,
    fun hsplit hslots hblock hslot hscale hbudget =>
      initStandardCounts_accepts hfresh hfull hsplit hslots hblock hslot hscale hbudget⟩

/-- A model with one linear-attention layer and one full-attention layer. -/
theorem capacity_plan_fits_hybrid :
    let args : ModelArgs := { nLayers := 2, layerTypes := ["linear_attention", "full_attention"] }
    let cap : KVCacheCapacity := {
      cacheSizeInBytes := 1000, blockSize := 16, slotSize := 4, linearSlotSize := 100, nLayers := 2 }
    ∃ cap', initStandardCounts args {} cap = .ok cap' := by
  intro args cap
  have hfits := capacity_plan_fits args {} cap ⟨rfl, rfl, rfl⟩ (by decide +kernel)
  exact hfits.2 (by decide) rfl (by decide) (by decide) (by decide) (by decide +kernel)

/-- Blocks without a size are refused at any budget. -/
theorem noBlockSize_refused :
    let args : ModelArgs := { nLayers := 1 }
    let cap : KVCacheCapacity := {
      cacheSizeInBytes := 1000, slotSize := 4, scaleSlotSize := 1, linearSlotSize := 100, nLayers := 1 }
    cap.Fresh ∧ 0 < (fullLayers args cap.nLayers).length ∧
      2 * linearBytesPerState args cap + fullBlockBytes args cap ≤ cap.cacheSizeInBytes ∧
      initStandardCounts args {} cap = .error .positiveBlockBytes := by
  exact ⟨⟨rfl, rfl, rfl⟩, by decide +kernel, by decide +kernel, rfl⟩

/-- The plan for a model and its options: it fits, and without a split and without a requested number
of states every positive budget for two states and a block is accepted. -/
theorem estimateKvCacheCapacity_plan (hfull : 0 < (fullLayers args args.nLayers).length) :
    (∀ cap', estimateKvCacheCapacity args options = .ok cap' →
      PlanFits args options (initialCapacity args options) cap') ∧
    (HasSlots args options → options.layerwiseSplitSize ≤ 1 → options.maxLinearStateCacheSlots = 0 →
      0 < options.cacheSizeInBytes →
      2 * linearBytesPerState args (initialCapacity args options) +
        fullBlockBytes args (initialCapacity args options) ≤ options.cacheSizeInBytes →
      ∃ cap', estimateKvCacheCapacity args options = .ok cap') := by
  have hfresh : (initialCapacity args options).Fresh := ⟨rfl, rfl, rfl⟩
  constructor
  · intro cap' hok
    obtain ⟨_, -, hinit⟩ := bind_eq_ok.mp hok
    exact initStandardCounts_fits hfresh hfull hinit
  · intro hsized hsplit hslots hpos hbudget
    have hsame : (initialCapacity args options).cacheSizeInBytes = options.cacheSizeInBytes :=
      max_eq_left (Int.le_of_lt hpos)
    obtain ⟨cap', hok⟩ := initStandardCounts_accepts hfresh hfull hsplit hslots hsized.blockSize
      hsized.slotSize hsized.scaleSlotSize (hsame.symm ▸ hbudget)
    exact ⟨cap', bind_eq_ok.mpr ⟨(), check_eq_ok.mpr (hsame.symm ▸ hpos), hok⟩⟩

end counts

end Ikun.KvCapacity
