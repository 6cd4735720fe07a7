import Mathlib.Logic.Equiv.Fin.Basic
import Ikun.Attention.Tiles

/-!
# Prefix attention

The PyTorch path of the attention over a cached prefix and the new tokens of a sequence. The query of a
sequence is split at its last strict block boundary; every segment goes over the tiles of its context,
then over the tiles of its own keys with a causal mask, and keeps a running maximum, a running sum and a
running output for every row and head.

The arithmetic is that of the tensor library, `TensorOps`: the functions are written for any. The
caches are indexed as their tensors are: `[block, head, dim / x, offset, dim % x]` for keys and
`[block, head, dim, offset]` for values. The fused kernels are not taken here.
-/

namespace Ikun.Attention

open Except

/-- What the attention takes from the tensor library. -/
structure TensorOps (α : Type) where
  zero : α
  negInf : α
  add : α → α → α
  sub : α → α → α
  mul : α → α → α
  div : α → α → α
  maximum : α → α → α
  exp : α → α
  /-- `amax` over a row. -/
  amax : List α → α
  /-- `sum` over a row. -/
  sum : List α → α
  /-- An entry of `matmul`: a row and a column. -/
  dot : List α → List α → α

/-- The queries of a token; head `kvHead * gqaRatio + g` reads the head `kvHead` of the keys. -/
abbrev QueryToken (α : Type) (kvHeads gqaRatio headDim : ℕ) :=
  Fin (kvHeads * gqaRatio) → Fin headDim → α

/-- The keys, or the values, of a token. -/
abbrev KVToken (α : Type) (kvHeads headDim : ℕ) := Fin kvHeads → Fin headDim → α

variable {α : Type} {kvHeads gqaRatio headDim : ℕ}

/-! ## The online softmax -/

/-- The running values of a row. -/
structure RunningRow (α : Type) (headDim : ℕ) where
  runningMax : α
  runningSum : α
  runningOutput : Fin headDim → α

/-- `m`, `l` and `o` at the start. -/
def RunningRow.init (ops : TensorOps α) : RunningRow α headDim where
  runningMax := ops.negInf
  runningSum := ops.zero
  runningOutput _ := ops.zero

/-- `_update_online_softmax_from_scores` on one row. -/
def updateRow (ops : TensorOps α) (value : List (Fin headDim → α)) (scores : List α)
    (row : RunningRow α headDim) : RunningRow α headDim :=
  let blockMax := ops.amax scores
  let newMax := ops.maximum row.runningMax blockMax
  let expScores := scores.map fun score => ops.exp (ops.sub score newMax)
  let correction := ops.exp (ops.sub row.runningMax newMax)
  { runningMax := newMax
    runningSum := ops.add (ops.mul row.runningSum correction) (ops.sum expScores)
    runningOutput := fun d => ops.add (ops.mul (row.runningOutput d) correction)
      (ops.dot expScores (value.map (· d))) }

/-- The arguments of a call of `_update_online_softmax_from_scores`: the scores by head and row, and the
values by head. -/
structure SoftmaxCall (α : Type) (kvHeads gqaRatio headDim : ℕ) where
  scores : Fin kvHeads → Fin gqaRatio → List (List α)
  value : Fin kvHeads → List (Fin headDim → α)

/-- The running values of all heads and rows. -/
abbrev RunningState (α : Type) (kvHeads gqaRatio headDim : ℕ) :=
  Fin kvHeads → Fin gqaRatio → List (RunningRow α headDim)

/-- `_update_online_softmax_from_scores`. -/
def updateOnlineSoftmaxFromScores (ops : TensorOps α)
    (state : RunningState α kvHeads gqaRatio headDim)
    (call : SoftmaxCall α kvHeads gqaRatio headDim) : RunningState α kvHeads gqaRatio headDim :=
  fun kvHead g => List.zipWith (updateRow ops (call.value kvHead)) (call.scores kvHead g)
    (state kvHead g)

/-! ## A segment -/

section segment

variable (ops : TensorOps α) (scale : α)

/-- A row of `q_seq`. -/
def scaledQuery (query : QueryToken α kvHeads gqaRatio headDim) (kvHead : Fin kvHeads)
    (g : Fin gqaRatio) : List α :=
  List.ofFn fun d => ops.mul (query (finProdFinEquiv (kvHead, g)) d) scale

/-- The score of a query and a key. -/
def score (query : QueryToken α kvHeads gqaRatio headDim) (key : KVToken α kvHeads headDim)
    (kvHead : Fin kvHeads) (g : Fin gqaRatio) : α :=
  ops.dot (scaledQuery ops scale query kvHead g) (List.ofFn (key kvHead))

variable (query : List (QueryToken α kvHeads gqaRatio headDim))

/-- The call for a tile of the context. -/
def contextCall (keys values : List (KVToken α kvHeads headDim)) :
    SoftmaxCall α kvHeads gqaRatio headDim where
  scores kvHead g := query.map fun q => keys.map fun k => score ops scale q k kvHead g
  value kvHead := values.map (· kvHead)

/-- The call for a tile of the segment itself: keys behind the query are masked. -/
def causalCall (key value : List (KVToken α kvHeads headDim)) (tile : ℕ × ℕ) :
    SoftmaxCall α kvHeads gqaRatio headDim where
  scores kvHead g := query.mapIdx fun row q => ((key.take tile.2).drop tile.1).mapIdx fun j k =>
    if row < tile.1 + j then ops.negInf else score ops scale q k kvHead g
  value kvHead := ((value.take tile.2).drop tile.1).map (· kvHead)

/-- The calls of a segment. `readKeys` and `readValues` are the tokens of a block, and `frontKey` and
`frontValue` those of the query in front of the segment. -/
def segmentCalls {β : Type} (readKeys readValues : β → List (KVToken α kvHeads headDim))
    (key value frontKey frontValue : List (KVToken α kvHeads headDim)) (blockTable : List β)
    (blockContextLen blockSize tileSize : ℕ) :
    Except Exn (List (SoftmaxCall α kvHeads gqaRatio headDim)) := do
  let spans ← prefixContextTileSpans blockContextLen frontKey.length tileSize
  return spans.map (fun span =>
      contextCall ops scale query (contextTile readKeys blockTable blockSize frontKey span)
        (contextTile readValues blockTable blockSize frontValue span))
    ++ (tileRanges query.length tileSize).map (causalCall ops scale query key value)

/-- The division at the end of a segment, and the rows of all heads. -/
def finishRows (rows : ℕ) (state : RunningState α kvHeads gqaRatio headDim) :
    List (QueryToken α kvHeads gqaRatio headDim) :=
  (List.range rows).map fun r head d =>
    let row := (state head.divNat head.modNat).getD r (.init ops)
    ops.div (row.runningOutput d) row.runningSum

/-- `_validate_prefix_block_table`. -/
def validatePrefixBlockTable (seqIndex numCtxBlocks blockTableWidth ctxLen : ℕ) : Except Exn ℕ :=
  if numCtxBlocks ≤ blockTableWidth then .ok numCtxBlocks
  else .error (.runtimeError (s!"seq {seqIndex}: num_ctx_blocks={numCtxBlocks} "
    ++ s!"> block_tables.shape[1]={blockTableWidth}, ctx_len={ctxLen}. "
    ++ "Block table is undersized; "
    ++ "refusing to truncate context because attention would be incorrect."))

/-- `_forward_prefix_segment_pytorch`. -/
def forwardPrefixSegmentPytorch {β : Type}
    (readKeys readValues : β → List (KVToken α kvHeads headDim))
    (key value frontKey frontValue : List (KVToken α kvHeads headDim)) (blockTable : List β)
    (seqIndex blockContextLen blockSize tileSize : ℕ) :
    Except Exn (List (QueryToken α kvHeads gqaRatio headDim)) := do
  if 0 < blockContextLen then
    let _ ← validatePrefixBlockTable seqIndex ((blockContextLen + blockSize - 1) / blockSize)
      blockTable.length blockContextLen
  let calls ← segmentCalls ops scale query readKeys readValues key value frontKey frontValue
    blockTable blockContextLen blockSize tileSize
  return finishRows ops query.length (calls.foldl (updateOnlineSoftmaxFromScores ops) fun _ _ =>
    List.replicate query.length (.init ops))

end segment

/-! ## A batch -/

/-- The tensors of a batch. A row of the block table has the ids of the blocks of a sequence; a key has
`dimBlocks * x` components. -/
structure PrefixBatch (α : Type) (numBlocks kvHeads gqaRatio dimBlocks x blockSize width : ℕ) where
  query : List (QueryToken α kvHeads gqaRatio (dimBlocks * x))
  key : List (KVToken α kvHeads (dimBlocks * x))
  value : List (KVToken α kvHeads (dimBlocks * x))
  keyCache : Fin numBlocks → Fin kvHeads → Fin dimBlocks → Fin blockSize → Fin x → α
  valueCache : Fin numBlocks → Fin kvHeads → Fin (dimBlocks * x) → Fin blockSize → α
  blockTables : List (Vector (Fin numBlocks) width)
  queryStartLoc : List ℕ
  contextLens : List ℤ
  batchSize : ℕ

namespace PrefixBatch

variable {numBlocks dimBlocks x blockSize width : ℕ}
variable (batch : PrefixBatch α numBlocks kvHeads gqaRatio dimBlocks x blockSize width)

/-- The keys of a block, `key_cache[id].permute(2, 0, 1, 3).view(-1, num_kv_heads, head_dim)`. -/
def readKeys (block : Fin numBlocks) : List (KVToken α kvHeads (dimBlocks * x)) :=
  List.ofFn fun offset kvHead d => batch.keyCache block kvHead d.divNat offset d.modNat

/-- The values of a block. -/
def readValues (block : Fin numBlocks) : List (KVToken α kvHeads (dimBlocks * x)) :=
  List.ofFn fun offset kvHead d => batch.valueCache block kvHead d offset

/-- A segment of a sequence of the batch, in the rows of the batch. -/
structure Segment where
  seqIndex : ℕ
  ctxLen : ℕ
  qStart : ℕ
  absoluteStart : ℕ
  absoluteEnd : ℕ

/-- `xs[i]`. -/
def getItem {τ : Type} (xs : List τ) (i : ℕ) : Except Exn τ :=
  match xs[i]? with
  | some a => .ok a
  | none => .error .indexError

/-- The context length, or zero if it cannot be one. -/
def guardedCtxLen (ctxLen : ℤ) : ℕ :=
  let maxPhysicalCtx := if batch.blockTables = [] then 0 else width * blockSize
  if ctxLen < 0 ∨ maxPhysicalCtx < ctxLen then 0 else ctxLen.toNat

/-- The segments of a sequence. -/
def sequenceSegments (i : ℕ) : Except Exn (List Segment) := do
  let ctxLen := batch.guardedCtxLen (← getItem batch.contextLens i)
  let qStart ← getItem batch.queryStartLoc i
  let qEnd ← getItem batch.queryStartLoc (i + 1)
  return (strictPrefixQuerySegments ctxLen (qEnd - qStart) blockSize).map fun segment =>
    ⟨i, ctxLen, qStart, qStart + segment.start, qStart + segment.stop⟩

/-- The calls of `_update_online_softmax_from_scores` for a segment. -/
def callsMade (ops : TensorOps α) (scale : α) (tileSize : ℕ) (segment : Segment) :
    Except Exn (List (SoftmaxCall α kvHeads gqaRatio (dimBlocks * x))) := do
  let bounds := (segment.absoluteStart, segment.absoluteEnd)
  let front := (segment.qStart, segment.absoluteStart)
  segmentCalls ops scale (slice batch.query bounds) batch.readKeys batch.readValues
    (slice batch.key bounds) (slice batch.value bounds) (slice batch.key front)
    (slice batch.value front) (← getItem batch.blockTables segment.seqIndex).toList segment.ctxLen
    blockSize tileSize

/-- The output of a segment. -/
def segmentOutput (ops : TensorOps α) (scale : α) (tileSize : ℕ) (segment : Segment) :
    Except Exn (List (QueryToken α kvHeads gqaRatio (dimBlocks * x))) := do
  let bounds := (segment.absoluteStart, segment.absoluteEnd)
  let front := (segment.qStart, segment.absoluteStart)
  forwardPrefixSegmentPytorch ops scale (slice batch.query bounds) batch.readKeys batch.readValues
    (slice batch.key bounds) (slice batch.value bounds) (slice batch.key front)
    (slice batch.value front) (← getItem batch.blockTables segment.seqIndex).toList segment.seqIndex
    segment.ctxLen blockSize tileSize

/-- `output[absolute_start:absolute_end] = rows`. -/
def writeRows {τ : Type} (output : List τ) (segment : Segment) (rows : List τ) : List τ :=
  output.take segment.absoluteStart ++ rows ++ output.drop segment.absoluteEnd

/-- A round of the loops of `_forward_prefix_pytorch`. -/
def writeSegment (ops : TensorOps α) (scale : α) (tileSize : ℕ)
    (output : List (QueryToken α kvHeads gqaRatio (dimBlocks * x))) (segment : Segment) :
    Except Exn (List (QueryToken α kvHeads gqaRatio (dimBlocks * x))) := do
  return writeRows output segment (← batch.segmentOutput ops scale tileSize segment)

/-- The segments of a batch, in the order of the loops. -/
def segments : Except Exn (List Segment) := do
  return (← (List.range batch.batchSize).mapM batch.sequenceSegments).flatten

/-- `_forward_prefix_pytorch`; `output` are the rows that `empty_like` leaves there. -/
def forwardPrefixPytorch (ops : TensorOps α) (scale : α) (tileSize : ℕ)
    (output : List (QueryToken α kvHeads gqaRatio (dimBlocks * x))) :
    Except Exn (List (QueryToken α kvHeads gqaRatio (dimBlocks * x))) := do
  (← batch.segments).foldlM (batch.writeSegment ops scale tileSize) output

end PrefixBatch

end Ikun.Attention
