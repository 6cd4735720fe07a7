import Mathlib.Data.Finset.Sort
import Mathlib.Data.Fintype.Card
import Ikun.Gdn.DeltaRule

/-!
# One gated DeltaNet layer

`GatedDeltaNet.forward` for one sequence: the projected tokens go through a causal convolution over
the channels of query, key and value, then through the gated delta rule of every head, a gated
normalisation and the output projection. The layer keeps two states for a sequence: the last inputs
of the convolution and the recurrent state of every head.

The prefill branch takes a list of tokens, saves copies of the states at its capture offsets, and
cuts the delta rule at the ends of its segments. The decode branch takes one token.

The arithmetic is exact. A token is given by its projections; the channels of `mixed_qkv` are named
by the head and the component that the split and the reshape make of them.
-/

namespace Ikun.Gdn

open Finset

/-- The sizes of a layer: `ratio` value heads share a key head. -/
structure HeadCounts where
  numK : ℕ
  ratio : ℕ

/-- The number of value heads. -/
def HeadCounts.numV (n : HeadCounts) : ℕ := n.numK * n.ratio

/-- The key head of a value head, after `repeat_interleave`. -/
def HeadCounts.kHead (n : HeadCounts) (h : Fin n.numV) : Fin n.numK :=
  ⟨h / n.ratio, Nat.div_lt_of_lt_mul (Nat.mul_comm n.numK n.ratio ▸ h.isLt)⟩

/-- A channel of the convolution. -/
inductive Channel (n : HeadCounts) (κ ν : Type)
  | q (head : Fin n.numK) (d : κ)
  | k (head : Fin n.numK) (d : κ)
  | v (head : Fin n.numV) (e : ν)
  deriving DecidableEq

/-- The parts of the input projection of one token. -/
structure Projected (n : HeadCounts) (F κ ν : Type) where
  mixedQkv : Channel n κ ν → F
  z : Fin n.numV → ν → F
  b : Fin n.numV → F
  a : Fin n.numV → F

/-- The parameters of a layer. `O` is the type of its output rows. -/
structure GatedDeltaNet (n : HeadCounts) (F κ ν O : Type) [Field F] where
  ops : DeltaOps F
  sigmoid : F → F
  softplus : F → F
  convKernelSize : ℕ
  convWeight : Channel n κ ν → ℕ → F
  aLog : Fin n.numV → F
  dtBias : Fin n.numV → F
  normWeight : ν → F
  varianceEpsilon : F
  outProj : (Fin n.numV → ν → F) → O
  /-- `_DNN_CHUNK_SIZE`. -/
  dnnChunkSize : ℕ
  /-- The chunk size of the delta rule. -/
  chunkSize : ℕ
  two_le_kernel : 2 ≤ convKernelSize
  chunk_pos : 0 < chunkSize
  dnnChunk_pos : 0 < dnnChunkSize

/-- The two states that a layer keeps for a sequence. -/
@[ext] structure LayerState (n : HeadCounts) (F κ ν : Type) where
  /-- The last inputs of the convolution, oldest first. -/
  conv : List (Channel n κ ν → F)
  temporal : Fin n.numV → HeadState F κ ν

/-- What a forward pass leaves behind. The captured states are listed with their offsets. -/
structure StepResult (n : HeadCounts) (F κ ν O : Type) where
  outputs : List O
  state : LayerState n F κ ν
  capturedConv : List (ℕ × List (Channel n κ ν → F))
  capturedTemporal : List (ℕ × (Fin n.numV → HeadState F κ ν))

namespace GatedDeltaNet

variable {n : HeadCounts} {F κ ν O : Type} [Field F] [Fintype κ] [Fintype ν]

section parts

variable (layer : GatedDeltaNet n F κ ν O)

/-- The number of inputs that the convolution remembers. -/
def stateLen : ℕ := layer.convKernelSize - 1

/-- `F.silu`. -/
def silu (x : F) : F := x * layer.sigmoid x

/-- The convolution at one position: the window starts there. -/
def convAt (padded : List (Channel n κ ν → F)) (t : ℕ) : Channel n κ ν → F := fun c =>
  ∑ j ∈ range layer.convKernelSize, layer.convWeight c j * padded.getD (t + j) 0 c

/-- `F.conv1d` without padding. -/
def conv1d (padded : List (Channel n κ ν → F)) : List (Channel n κ ν → F) :=
  (List.range (padded.length + 1 - layer.convKernelSize)).map (layer.convAt padded)

/-- What the delta rule of a head reads of a token. -/
def headToken (mixedQkvConv : Channel n κ ν → F) (t : Projected n F κ ν) (h : Fin n.numV) :
    DeltaToken F κ ν where
  query d := mixedQkvConv (.q (n.kHead h) d)
  key d := mixedQkvConv (.k (n.kHead h) d)
  value e := mixedQkvConv (.v h e)
  g := -layer.ops.exp (layer.aLog h) * layer.softplus (t.a h + layer.dtBias h)
  beta := layer.sigmoid (t.b h)

/-- `Qwen3_5RMSNormGated.forward`. -/
def norm (hiddenStates gate : ν → F) : ν → F := fun e =>
  let variance := (∑ e, hiddenStates e * hiddenStates e) / Fintype.card ν
  layer.normWeight e * (hiddenStates e * layer.ops.rsqrt (variance + layer.varianceEpsilon))
    * layer.silu (gate e)

/-- Gate, normalisation and output projection of one token. -/
def project (coreOut : Fin n.numV → ν → F) (t : Projected n F κ ν) : O :=
  layer.outProj fun h => layer.norm (coreOut h) (t.z h)

/-! ## Prefill -/

/-- `_gdn_segment_ends`. -/
def gdnSegmentEnds (seqLen chunkSize : ℕ) (captureOffsets : List ℕ) : List ℕ :=
  let ends := (List.range seqLen).filter (fun e => chunkSize ≤ e ∧ e % chunkSize = 0)
    ++ [seqLen] ++ captureOffsets.filter (fun offset => 0 < offset ∧ offset < seqLen)
  ends.toFinset.sort (· ≤ ·)

/-- The chunked rule on all heads. -/
def chunkHeads (tokens : List (Fin n.numV → DeltaToken F κ ν))
    (curState : Fin n.numV → HeadState F κ ν) :
    List (Fin n.numV → ν → F) × (Fin n.numV → HeadState F κ ν) :=
  let result := fun h =>
    torchChunkGatedDeltaRule layer.ops (tokens.map (· h)) layer.chunkSize (curState h) true
  ((List.range tokens.length).map fun i h => (result h).1.getD i 0, fun h => (result h).2)

/-- The loop over the segments: the outputs, the state, and the states at the captured ends. -/
def segmentLoop (tokens : List (Fin n.numV → DeltaToken F κ ν)) (captureOffsets : List ℕ) :
    ℕ → List ℕ → (Fin n.numV → HeadState F κ ν) →
      List (Fin n.numV → ν → F) × (Fin n.numV → HeadState F κ ν)
        × List (ℕ × (Fin n.numV → HeadState F κ ν))
  | _, [], curState => ([], curState, [])
  | scStart, scEnd :: ends, curState =>
    let (out, curState) := layer.chunkHeads ((tokens.take scEnd).drop scStart) curState
    let rest := segmentLoop tokens captureOffsets scEnd ends curState
    (out ++ rest.1, rest.2.1,
      if scEnd ∈ captureOffsets then (scEnd, curState) :: rest.2.2 else rest.2.2)

/-- The prefill branch of `forward`, for one sequence. -/
def prefill (state : LayerState n F κ ν) (tokens : List (Projected n F κ ν))
    (captureOffsets segmentOffsets : List ℕ) : StepResult n F κ ν O :=
  let seqLen := tokens.length
  let stateLen := layer.stateLen
  let mixedQkv := tokens.map (·.mixedQkv)
  let prevConv := state.conv
  let convState :=
    if stateLen ≤ seqLen then mixedQkv.drop (seqLen - stateLen)
    else List.replicate (stateLen - seqLen) 0 ++ mixedQkv
  let padded := prevConv ++ mixedQkv
  let capturedConv := (captureOffsets.filter fun offset => 0 < offset ∧ offset < seqLen).map
    fun offset => (offset, (padded.drop offset).take stateLen)
  let mixedQkvConv := (layer.conv1d padded).map fun x c => layer.silu (x c)
  let headTokens := List.zipWith layer.headToken mixedQkvConv tokens
  let segmentEnds := gdnSegmentEnds seqLen layer.dnnChunkSize (captureOffsets ++ segmentOffsets)
  let (coreOut, temporal, capturedTemporal) :=
    layer.segmentLoop headTokens captureOffsets 0 segmentEnds state.temporal
  { outputs := List.zipWith layer.project coreOut tokens
    state := ⟨convState, temporal⟩
    capturedConv := capturedConv
    capturedTemporal := capturedTemporal }

/-! ## Decode -/

/-- `_torch_causal_conv1d_update` on one token: its output and the new window. -/
def causalConv1dUpdate (convState : List (Channel n κ ν → F)) (x : Channel n κ ν → F) :
    (Channel n κ ν → F) × List (Channel n κ ν → F) :=
  let cat := convState ++ [x]
  let out := (layer.conv1d cat).getLastD 0
  (fun c => layer.silu (out c), cat.drop (cat.length - convState.length))

/-- The recurrent step of the decode branch. -/
def decodeHead (state : HeadState F κ ν) (t : DeltaToken F κ ν) : (ν → F) × HeadState F κ ν :=
  let q := fun d => l2norm layer.ops t.query d * layer.ops.scale
  let k := l2norm layer.ops t.key
  let decayed : HeadState F κ ν := fun d e => state d e * layer.ops.exp t.g
  let kvMem := fun e => ∑ d, k d * decayed d e
  let delta := fun e => (t.value e - kvMem e) * t.beta
  let state : HeadState F κ ν := fun d e => decayed d e + k d * delta e
  (fun e => ∑ d, q d * state d e, state)

/-- The decode branch of `forward`, for one sequence. -/
def decode (state : LayerState n F κ ν) (t : Projected n F κ ν) : StepResult n F κ ν O :=
  let (mixedQkvConv, convState) := layer.causalConv1dUpdate state.conv t.mixedQkv
  let result := fun h => layer.decodeHead (state.temporal h) (layer.headToken mixedQkvConv t h)
  { outputs := [layer.project (fun h => (result h).1) t]
    state := ⟨convState, fun h => (result h).2⟩
    capturedConv := []
    capturedTemporal := [] }

end parts

end GatedDeltaNet

end Ikun.Gdn
