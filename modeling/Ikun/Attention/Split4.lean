import Ikun.Attention.Prefix
import Ikun.Lib.Device

/-!
# The fused paged prefill in four splits

The device program of the fused prefix attention. The context and the new keys are taken in groups of up
to four tiles. A group is gathered into fixed tiles, multiplied with the queries, masked, normalized with
a maximum that the splits of a row share, multiplied with the values, and merged into the running output
split by split.

Tensors are contiguous buffers of their entries, and the kernels compute the indices into them. The
strided-batched products of the BLAS are those of its documentation, for factors one and zero. The types
and the devices of the tensors are not checked here; a half is the number it stands for.
-/

namespace Ikun.Attention.Split4

open Device

variable {α : Type}

def kBlockSize : ℕ := 16
def kHeadDim : ℕ := 256
def kKeyPack : ℕ := 8
def kNumQueryHeads : ℕ := 4
def kNumKvHeads : ℕ := 1
def kTileTokens : ℕ := 512
def kSplitCount : ℕ := 4
def kGroupTokens : ℕ := kSplitCount * kTileTokens
def kThreads : ℕ := 256
def kMaxQueryTokens : ℕ := 8192
def kMaxSequenceTokens : ℕ := 262144

/-- What the kernels take from the device, beside the arithmetic of the tensor library. -/
structure KernelOps (α : Type) extends TensorOps α where
  one : α
  /-- `fmaxf`, which prefers a number to what is none. -/
  fmaxf : α → α → α
  log : α → α
  /-- `std::isfinite(x) && x > 0.0`. -/
  isFinitePositive : α → Bool

/-- What ends the program: a check of the host with its message, or an index outside of a buffer. -/
inductive Fault
  | check (message : String)
  | outOfRange
  deriving DecidableEq, Repr

/-- `TORCH_CHECK`. -/
def torchCheck (c : Prop) [Decidable c] (message : String) : Except Fault Unit :=
  Except.raiseIf (¬ c) (.check message)

/-- A part of the program that runs on the device. -/
def onDevice (x : Option α) : Except Fault α :=
  match x with
  | some a => .ok a
  | none => .error .outOfRange

/-- A contiguous tensor. -/
structure Tensor (α : Type) where
  sizes : List ℕ
  data : List α
  length_data : data.length = sizes.prod

variable [DecidableEq α] (ops : KernelOps α)

/-! ## Kernels -/

/-- `launch_blocks`. -/
def launchBlocks (elements : ℕ) : ℕ := min ((elements + kThreads - 1) / kThreads) 65535

/-- The iterations of a kernel that `launchBlocks` launches. -/
def launched (elements : ℕ) : List ℕ := gridStride elements (launchBlocks elements * kThreads)

/-- `convert_query_kernel`. -/
def convertQueryKernel (query : List α) (queryLen : ℕ) (scale : α) (converted : List α) :
    Option (List α) :=
  forEach (launched (queryLen * kNumQueryHeads * kHeadDim)) id
    (fun index _ => do
      let dim := index % kHeadDim
      let queryIndex := index / kHeadDim % queryLen
      let head := index / (kHeadDim * queryLen)
      let source := (queryIndex * kNumQueryHeads + head) * kHeadDim + dim
      return ops.mul (← load query source) scale) converted

/-- What the kernels read of a request. -/
structure Request (α : Type) where
  keyNew : List α
  valueNew : List α
  keyCache : List α
  valueCache : List α
  blockTable : List ℤ
  contextLen : ℕ
  queryLen : ℕ

/-- A pointer that is moved by a number of either sign. -/
def loadAt (buf : List α) (i : ℤ) : Option α := if 0 ≤ i then load buf i.toNat else none

/-- The entry of the gathered tiles at an index. -/
def gatherElement (request : Request α) (groupStart groupTokens index : ℕ) : Option (α × α) := do
  let split := index / (kTileTokens * kHeadDim)
  let element := index - split * (kTileTokens * kHeadDim)
  let tokenOffset := element / kHeadDim
  let dim := element - tokenOffset * kHeadDim
  let splitTokens := min (groupTokens - split * kTileTokens) kTileTokens
  let logicalToken := groupStart + split * kTileTokens + tokenOffset
  -- the tail of a tile is filled with zeros
  if splitTokens ≤ tokenOffset then return (ops.zero, ops.zero)
  else if logicalToken < request.contextLen then
    let blockOffset := logicalToken % kBlockSize
    let physicalBlock ← load request.blockTable (logicalToken / kBlockSize)
    let keyIndex := ((physicalBlock * kNumKvHeads * (kHeadDim / kKeyPack : ℕ) + (dim / kKeyPack : ℕ))
      * kBlockSize + blockOffset) * kKeyPack + (dim % kKeyPack : ℕ)
    let valueIndex := (physicalBlock * kNumKvHeads * kHeadDim + dim) * kBlockSize + blockOffset
    return (← loadAt request.keyCache keyIndex, ← loadAt request.valueCache valueIndex)
  else if logicalToken < request.contextLen + request.queryLen then
    let source := (logicalToken - request.contextLen) * kHeadDim + dim
    return (← load request.keyNew source, ← load request.valueNew source)
  else return (ops.zero, ops.zero)

/-- `gather_kv_group_kernel`, launched with 512 blocks. -/
def gatherKvGroupKernel (request : Request α) (groupStart groupTokens activeSplits : ℕ)
    (tiles : List α × List α) : Option (List α × List α) :=
  (gridStride (activeSplits * (kTileTokens * kHeadDim)) (512 * kThreads)).foldlM
    (fun tiles index => do
      let (keyValue, valueValue) ← gatherElement ops request groupStart groupTokens index
      return (← store tiles.1 index keyValue, ← store tiles.2 index valueValue)) tiles

/-- The test of `mask_group_scores_kernel`. -/
def isMasked (queryLen contextLen groupStart groupTokens rows : ℕ) (causal : Bool) (index : ℕ) :
    Bool :=
  let splitElements := rows * kTileTokens
  let split := index / splitElements
  let splitIndex := index - split * splitElements
  let column := splitIndex % kTileTokens
  let row := splitIndex / kTileTokens
  let queryIndex := row % queryLen
  let splitTokens := min (groupTokens - split * kTileTokens) kTileTokens
  let logicalToken := groupStart + split * kTileTokens + column
  decide (splitTokens ≤ column) || (causal && decide (contextLen + queryIndex < logicalToken))

/-- `mask_group_scores_kernel`. -/
def maskGroupScoresKernel (queryLen contextLen groupStart groupTokens activeSplits rows : ℕ)
    (causal : Bool) (scores : List α) : Option (List α) :=
  (launched (activeSplits * (rows * kTileTokens))).foldlM
    (fun scores index =>
      if isMasked queryLen contextLen groupStart groupTokens rows causal index then
        store scores index ops.negInf
      else some scores) scores

/-- The buffers that the normalization of a row changes, and the values that its threads share. -/
structure RowState (α : Type) where
  scores : List α
  corrections : List α
  stateMax : α
  stateSum : α

/-- A split in `normalize_split_scores_kernel`, for one row. -/
def normalizeSplit (row rows : ℕ) (state : RowState α) (split : ℕ) : Option (RowState α) := do
  let base := (split * rows + row) * kTileTokens
  let localMax ← (List.range kThreads).mapM fun t =>
    (strided kTileTokens kThreads t).foldlM
      (fun localMax column => do return ops.fmaxf localMax (← load state.scores (base + column)))
      ops.negInf
  let reduction ← blockReduce ops.fmaxf kThreads (kThreads / 2) localMax
  let nextMax := ops.fmaxf state.stateMax (← load reduction 0)
  let correction :=
    if state.stateMax = ops.negInf ∧ nextMax = ops.negInf then ops.one
    else ops.exp (ops.sub state.stateMax nextMax)
  let corrections ← store state.corrections (split * rows + row) correction
  let (scores, localSum) ← blockLoop (List.range kThreads) (strided kTileTokens kThreads)
    (base + ·) (fun column scores => do
      let score ← load scores (base + column)
      return if score = ops.negInf ∧ nextMax = ops.negInf then ops.zero
        else ops.exp (ops.sub score nextMax)) ops.add ops.zero state.scores
  let reduction ← blockReduce ops.add kThreads (kThreads / 2) localSum
  return { scores, corrections, stateMax := nextMax
           stateSum := ops.add (ops.mul state.stateSum correction) (← load reduction 0) }

/-- The buffers of the program. -/
structure Buffers (α : Type) where
  keyTiles : List α
  valueTiles : List α
  scores : List α
  splitOutput : List α
  runningMax : List α
  runningSum : List α
  runningOutput : List α
  corrections : List α

/-- A block of `normalize_split_scores_kernel`. -/
def normalizeRow (activeSplits rows : ℕ) (buffers : Buffers α) (row : ℕ) : Option (Buffers α) := do
  let state ← (List.range activeSplits).foldlM (normalizeSplit ops row rows)
    { scores := buffers.scores, corrections := buffers.corrections
      stateMax := ← load buffers.runningMax row, stateSum := ← load buffers.runningSum row }
  return { buffers with
    scores := state.scores
    corrections := state.corrections
    runningMax := ← store buffers.runningMax row state.stateMax
    runningSum := ← store buffers.runningSum row state.stateSum }

/-- `normalize_split_scores_kernel`, launched with a block for each row. -/
def normalizeSplitScoresKernel (activeSplits rows : ℕ) (buffers : Buffers α) :
    Option (Buffers α) :=
  (List.range rows).foldlM (normalizeRow ops activeSplits rows) buffers

/-- `merge_split_output_kernel`. -/
def mergeSplitOutputKernel (activeSplits rows outputElements : ℕ)
    (splitOutput corrections runningOutput : List α) : Option (List α) :=
  forEach (launched outputElements) id
    (fun index runningOutput => do
      (List.range activeSplits).foldlM (fun value split => do
        return ops.add (ops.mul value (← load corrections (split * rows + index / kHeadDim)))
          (← load splitOutput (split * outputElements + index))) (← load runningOutput index))
    runningOutput

/-! ## Products -/

/-- A matrix of a strided batch: its buffer, where it starts, its leading dimension and its stride. -/
structure Batched (α : Type) where
  data : List α
  offset : ℕ
  leading : ℕ
  stride : ℕ

/-- `cublasSgemmStridedBatched` for `alpha = 1` and `beta = 0`, in the order of columns; the second
matrix is not transposed. -/
def sgemmStridedBatched (transposed : Bool) (m n k : ℕ) (a b c : Batched α) (batchCount : ℕ) :
    Option (List α) :=
  forEach ((List.range batchCount).flatMap fun batch => (List.range n).flatMap fun column =>
      (List.range m).map fun row => (batch, column, row))
    (fun (batch, column, row) => c.offset + batch * c.stride + column * c.leading + row)
    (fun (batch, column, row) _ => do
      let entries ← (List.range k).mapM fun l =>
        load a.data (a.offset + batch * a.stride
          + if transposed then row * a.leading + l else l * a.leading + row)
      let entries' ← (List.range k).mapM fun l =>
        load b.data (b.offset + batch * b.stride + (column * b.leading + l))
      return ops.dot entries entries') c.data

/-- `qk_batched` on a split. -/
def qkBatched (keyTiles query scores : List α) (split rows queryLen : ℕ) : Option (List α) :=
  sgemmStridedBatched ops true kTileTokens queryLen kHeadDim
    ⟨keyTiles, split * (kTileTokens * kHeadDim), kHeadDim, 0⟩
    ⟨query, 0, kHeadDim, queryLen * kHeadDim⟩
    ⟨scores, split * (rows * kTileTokens), kTileTokens, queryLen * kTileTokens⟩ kNumQueryHeads

/-- `pv_batched` on a split. -/
def pvBatched (valueTiles scores output : List α) (split rows outputElements queryLen : ℕ) :
    Option (List α) :=
  sgemmStridedBatched ops false kHeadDim queryLen kTileTokens
    ⟨valueTiles, split * (kTileTokens * kHeadDim), kHeadDim, 0⟩
    ⟨scores, split * (rows * kTileTokens), kTileTokens, queryLen * kTileTokens⟩
    ⟨output, split * outputElements, kHeadDim, queryLen * kHeadDim⟩ kNumQueryHeads

/-! ## The program -/

/-- The masking of a group, if it is needed. -/
def maskScores (request : Request α) (groupStart groupTokens activeSplits rows : ℕ) (causal : Bool)
    (scores : List α) : Except Fault (List α) :=
  if causal ∨ groupTokens ≠ activeSplits * kTileTokens then
    onDevice (maskGroupScoresKernel ops request.queryLen request.contextLen groupStart groupTokens
      activeSplits rows causal scores)
  else .ok scores

/-- `run_group`. -/
def runGroup (request : Request α) (convertedQuery : List α) (buffers : Buffers α)
    (groupStart groupTokens : ℕ) (causal : Bool) : Except Fault (Buffers α) := do
  let rows := kNumQueryHeads * request.queryLen
  let outputElements := rows * kHeadDim
  let activeSplits := (groupTokens + kTileTokens - 1) / kTileTokens
  torchCheck (0 < activeSplits ∧ activeSplits ≤ kSplitCount)
    "invalid split count for paged-prefill group"
  let (keyTiles, valueTiles) ← onDevice (gatherKvGroupKernel ops request groupStart groupTokens
    activeSplits (buffers.keyTiles, buffers.valueTiles))
  let scores ← onDevice ((List.range activeSplits).foldlM (fun scores split =>
    qkBatched ops keyTiles convertedQuery scores split rows request.queryLen) buffers.scores)
  let scores ← maskScores ops request groupStart groupTokens activeSplits rows causal scores
  let buffers ← onDevice (normalizeSplitScoresKernel ops activeSplits rows
    { buffers with keyTiles, valueTiles, scores })
  let splitOutput ← onDevice ((List.range activeSplits).foldlM (fun splitOutput split =>
    pvBatched ops buffers.valueTiles buffers.scores splitOutput split rows outputElements
      request.queryLen) buffers.splitOutput)
  let runningOutput ← onDevice (mergeSplitOutputKernel ops activeSplits rows outputElements
    splitOutput buffers.corrections buffers.runningOutput)
  return { buffers with splitOutput, runningOutput }

/-- The checks of the arguments. -/
def checkArguments (query keyNew valueNew keyCache valueCache : Tensor α) (blockTable : Tensor ℤ)
    (contextLenArg : ℤ) (scale : α) : Except Fault Unit := do
  torchCheck (blockTable.sizes.length = 1) "block_table must be one-dimensional"
  torchCheck (query.sizes.drop 1 = [kNumQueryHeads, kHeadDim] ∧ query.sizes.length = 3)
    "query must have shape (Q, 4, 256)"
  torchCheck (keyNew.sizes.drop 1 = [kNumKvHeads, kHeadDim] ∧ keyNew.sizes.length = 3)
    "key_new must have shape (Q, 1, 256)"
  torchCheck (valueNew.sizes = keyNew.sizes) "value_new must match key_new"
  torchCheck (keyNew.sizes.head? = query.sizes.head?)
    "query, key_new, and value_new lengths must match"
  torchCheck (keyCache.sizes.drop 1 = [kNumKvHeads, kHeadDim / kKeyPack, kBlockSize, kKeyPack] ∧
    keyCache.sizes.length = 5) "key_cache must have shape (N, 1, 32, 16, 8)"
  torchCheck (valueCache.sizes.drop 1 = [kNumKvHeads, kHeadDim, kBlockSize] ∧
    valueCache.sizes.length = 4) "value_cache must have shape (N, 1, 256, 16)"
  torchCheck (keyCache.sizes.head? = valueCache.sizes.head?) "key/value cache block counts must match"
  torchCheck (0 ≤ contextLenArg ∧ contextLenArg ≤ kMaxSequenceTokens) "context_len is out of range"
  torchCheck (contextLenArg % kBlockSize = 0) "context_len must be block aligned"
  let queryLen := query.sizes.headD 0
  let contextLen := contextLenArg.toNat
  torchCheck (0 < queryLen ∧ queryLen ≤ kMaxQueryTokens) "query length must be in [1, 8192]"
  torchCheck (contextLen + queryLen ≤ kMaxSequenceTokens) "context_len + query_len exceeds 262144"
  let requiredBlocks := (contextLen + kBlockSize - 1) / kBlockSize
  torchCheck (requiredBlocks ≤ blockTable.data.length) "block_table is too short for context_len"
  if 0 < requiredBlocks then
    -- the minimum and the maximum of the active blocks
    torchCheck (∀ block ∈ blockTable.data.take requiredBlocks,
        0 ≤ block ∧ block < (keyCache.sizes.headD 0 : ℕ))
      "block_table contains an out-of-range physical block ID"
  torchCheck (ops.isFinitePositive scale = true) "scale must be finite and positive"
  torchCheck (queryLen ≤ 2147483647 / kNumQueryHeads) "query length overflows row count"

/-- `torch::empty`; `uninitialised` is what the tensor finds there. -/
def torchEmpty (uninitialised : ℕ → α) (elements : ℕ) : List α :=
  (List.range elements).map uninitialised

/-- The groups of the context, then those of the new keys. -/
def groups (contextLen queryLen : ℕ) : List (ℕ × ℕ × Bool) :=
  ((strided contextLen kGroupTokens 0).map fun groupStart =>
      (groupStart, min kGroupTokens (contextLen - groupStart), false))
    ++ (strided queryLen kGroupTokens 0).map fun keyStart =>
      (contextLen + keyStart, min kGroupTokens (queryLen - keyStart), true)

/-- The division and the permutation at the end. -/
def finish (queryLen : ℕ) (buffers : Buffers α) : Option (List α × List α) := do
  let rows := kNumQueryHeads * queryLen
  let divided ← (List.range (rows * kHeadDim)).mapM fun index => do
    return ops.div (← load buffers.runningOutput index) (← load buffers.runningSum (index / kHeadDim))
  let output ← (List.range (rows * kHeadDim)).mapM fun index =>
    let queryIndex := index / kHeadDim / kNumQueryHeads
    let head := index / kHeadDim % kNumQueryHeads
    load divided ((head * queryLen + queryIndex) * kHeadDim + index % kHeadDim)
  let lse ← (List.range rows).mapM fun index => do
    let source := index % kNumQueryHeads * queryLen + index / kNumQueryHeads
    return ops.add (← load buffers.runningMax source) (ops.log (← load buffers.runningSum source))
  return (output, lse)

/-- `fused_paged_prefill_forward`: the output and the logarithms of the sums. `uninitialised k` is what
the `k`th scratch tensor finds. -/
def fusedPagedPrefillForward (uninitialised : ℕ → ℕ → α)
    (query keyNew valueNew keyCache valueCache : Tensor α) (blockTable : Tensor ℤ)
    (contextLenArg : ℤ) (scale : α) : Except Fault (List α × List α) := do
  checkArguments ops query keyNew valueNew keyCache valueCache blockTable contextLenArg scale
  let queryLen := query.sizes.headD 0
  let contextLen := contextLenArg.toNat
  let rows := kNumQueryHeads * queryLen
  let outputElements := rows * kHeadDim
  let request : Request α :=
    ⟨keyNew.data, valueNew.data, keyCache.data, valueCache.data, blockTable.data, contextLen, queryLen⟩
  let convertedQuery ← onDevice (convertQueryKernel ops query.data queryLen scale
    (torchEmpty (uninitialised 0) outputElements))
  let buffers : Buffers α :=
    { keyTiles := torchEmpty (uninitialised 1) (kSplitCount * (kTileTokens * kHeadDim))
      valueTiles := torchEmpty (uninitialised 2) (kSplitCount * (kTileTokens * kHeadDim))
      scores := torchEmpty (uninitialised 3) (kSplitCount * (rows * kTileTokens))
      splitOutput := torchEmpty (uninitialised 4) (kSplitCount * outputElements)
      runningMax := List.replicate rows ops.negInf
      runningSum := List.replicate rows ops.zero
      runningOutput := List.replicate outputElements ops.zero
      corrections := torchEmpty (uninitialised 5) (kSplitCount * rows) }
  let buffers ← (groups contextLen queryLen).foldlM (fun buffers (start, tokens, causal) =>
    runGroup ops request convertedQuery buffers start tokens causal) buffers
  onDevice (finish ops queryLen buffers)

end Ikun.Attention.Split4
