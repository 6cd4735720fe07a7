import Mathlib.Algebra.BigOperators.Fin
import Mathlib.Algebra.BigOperators.Pi
import Mathlib.Algebra.Field.Defs
import Mathlib.Logic.Equiv.Fin.Basic
import Ikun.Moe.ComputeIndex
import Ikun.Moe.ExpertParallel

/-!
# The tiers of `_pure_pytorch_experts`

The routed experts of a MoE layer on one rank, with `naive_batched_moe_forward`. Which path is taken
depends on the flags, which are set when the module is imported: the fused pipeline of an extension
module, the loop over experts of `naive_batched_experts.py`, or the point-optimised path, with its own
branches for a single token, for the sort of the assignments and for the products.

The arithmetic is exact. The extension modules are functions that the model is given; `topk` is
`torch.topk`, which may break ties in any way.
-/

namespace Ikun.Moe

variable {K : Type} [Field K] {H I m n : ℕ}

/-- The flags that the tiers look at, and whether the tensors are of type `float16`. -/
structure TierFlags where
  useIxFusedMoe : Bool
  useNaiveBatchedMoe : Bool
  useXllmMoe : Bool
  useCorexMoeTopkSoftmax : Bool
  useCorexMoeIndexCombine : Bool
  useGemmGrouped : Bool
  useFusedMoeActivation : Bool
  hasBridgeLinear : Bool
  isHalf : Bool

/-- What is outside of the model: the choice of `torch.topk` and the extension modules. -/
structure Modules (K : Type) where
  topk : List K → ℕ → List ℕ
  fusedMoeForward {H I : ℕ} : List (Fin H → K) → List (List K) → List (ExpertWeights K H I) → ℕ → ℕ →
    List (Fin H → K)
  moeFusedTopk : List (List K) → ℕ → List (List (ℤ × K))
  moeTopkSoftmax : List (List K) → ℕ → List (List (ℤ × K))
  xllmMoeComputeIndex : List ℤ → ℕ → MoeIndex
  corexMoeComputeIndex : List ℤ → ℕ → MoeIndex
  moeCombineResult {n : ℕ} : List (Fin n → K) → List K → Fin n → K
  moeGroupGemm {m n : ℕ} : List (Fin m → K) → List (Fin n → Fin m → K) → List ℤ → List (Fin n → K)
  bridgeLinear {m n : ℕ} : List (Fin m → K) → (Fin n → Fin m → K) → List (Fin n → K)
  siluAndMul {n : ℕ} : (Fin (n + n) → K) → Fin n → K

/-- A MoE layer on a rank. -/
structure MoeLayer (K : Type) (H I : ℕ) where
  flags : TierFlags
  topK : ℕ
  experts : List (ExpertWeights K H I)
  ep : Option EpState

/-! ## Operators -/

/-- `x[i]`: a negative index counts from the end. -/
def getItem {α : Type} (l : List α) (i : ℤ) : Except Exn α :=
  match l[(if i < 0 then i + l.length else i).toNat]? with
  | some a => if i < -l.length then .error .indexError else .ok a
  | none => .error .indexError

/-- `F.linear`, which is also `x @ weight.t()`. -/
def linear (x : List (Fin m → K)) (weight : Fin n → Fin m → K) : List (Fin n → K) :=
  x.map fun row i => ∑ j, row j * weight i j

/-- `silu(gate) * up`, for the two chunks of `gate_up`. -/
def siluMul (silu : K → K) (gateUp : Fin (n + n) → K) (i : Fin n) : K :=
  silu (gateUp (Fin.castAdd n i)) * gateUp (Fin.natAdd n i)

/-- `out.index_add_(0, tok_ids, rows)`. -/
def indexAdd (out : ℕ → Fin H → K) (rows : List (ℕ × (Fin H → K))) : ℕ → Fin H → K :=
  rows.foldl (fun out (t, row) => Function.update out t (out t + row)) out

/-- `x.view(m, n)`. -/
def view (x : Fin (m * n) → K) (i : Fin m) (j : Fin n) : K := x (finProdFinEquiv (i, j))

/-- `w13_sel.reshape(-1, H)`. -/
def reshapeW13 (selected : List (ExpertWeights K H I)) (row : Fin (selected.length * (I + I))) :
    Fin H → K :=
  (selected.get row.divNat).w13 row.modNat

/-- `torch.argsort(ids, stable=True)`. -/
def argsort (ids : List ℤ) : List ℤ :=
  ((List.range ids.length).mergeSort fun i j => ids.getD i 0 ≤ ids.getD j 0).map Nat.cast

/-- `torch.bincount(ids, minlength=minlength)`. -/
def bincount (ids : List ℤ) (minlength : ℕ) : Except Exn (List ℤ) :=
  if ids.any (· < 0) then
    .error (.runtimeError "bincount only supports 1-d non-negative integral inputs.")
  else
    let size := ids.foldl (fun size id => max size (id.toNat + 1)) minlength
    .ok ((List.range size).map fun e : ℕ => (ids.count (e : ℤ) : ℤ))

section tiers

variable (exp silu : K → K) (modules : Modules K) (flags : TierFlags)

/-- `_fast_linear`. -/
def fastLinear (x : List (Fin m → K)) (weight : Fin n → Fin m → K) : List (Fin n → K) :=
  if flags.hasBridgeLinear && flags.isHalf then modules.bridgeLinear x weight else linear x weight

/-- `torch.topk` and the softmax over what it chose. -/
def topkSoftmax (topK : ℕ) (logits : List K) : List (ℤ × K) :=
  let ids := modules.topk logits topK
  let topkLogits := ids.map fun (id : ℕ) => logits.getD id 0
  let total := (topkLogits.map exp).sum
  ids.map fun (id : ℕ) => ((id : ℤ), exp (logits.getD id 0) / total)

/-- The routing: for each token its experts with their weights. -/
def route (topK : ℕ) (routerLogits : List (List K)) : List (List (ℤ × K)) :=
  if flags.useXllmMoe then modules.moeFusedTopk routerLogits topK
  else if flags.useCorexMoeTopkSoftmax then modules.moeTopkSoftmax routerLogits topK
  else routerLogits.map (topkSoftmax exp modules topK)

/-! ## A single token -/

/-- The outputs of the selected experts for one token: one product with all their rows, and a batched
product after the activation. -/
def selectedExperts (lin : ∀ {n : ℕ}, List (Fin H → K) → (Fin n → Fin H → K) → List (Fin n → K))
    (act : (Fin (I + I) → K) → Fin I → K) (x : Fin H → K) (selected : List (ExpertWeights K H I)) :
    List (Fin H → K) :=
  let gateUp := view ((lin [x] (reshapeW13 selected)).headD 0)
  List.ofFn fun i : Fin selected.length => fun h => ∑ j, (selected.get i).w2 h j * act (gateUp i) j

/-- `(expert_out * ws.unsqueeze(-1)).sum(0)`. -/
def weightedSum (expertOut : List (Fin H → K)) (ws : List K) : Fin H → K :=
  ((expertOut.zip ws).map fun p => p.2 • p.1).sum

/-- The path for `T == 1`. -/
def singleToken (layer : MoeLayer K H I) (x : Fin H → K) (topk : List (ℤ × K)) [DecidableEq K] :
    Except Exn (Fin H → K) := do
  let act := if layer.flags.useFusedMoeActivation then modules.siluAndMul else siluMul silu
  if layer.ep.isSome then
    let valid := topk.filter fun p => p.2 ≠ 0
    if valid.length = 0 then
      return 0
    let selected ← valid.mapM fun p => getItem layer.experts p.1
    let expertOut := selectedExperts (fastLinear modules layer.flags) act x selected
    return weightedSum expertOut (valid.map Prod.snd)
  else
    let selected ← topk.mapM fun p => getItem layer.experts p.1
    let expertOut := selectedExperts (fastLinear modules layer.flags) act x selected
    if layer.flags.useXllmMoe then
      return modules.moeCombineResult expertOut (topk.map Prod.snd)
    else
      return weightedSum expertOut (topk.map Prod.snd)

/-! ## Several tokens -/

/-- The assignments of all tokens: `topk_ids.reshape(-1)` with the token of each. -/
def assignments (topk : List (List (ℤ × K))) : List (ℕ × (ℤ × K)) :=
  topk.zipIdx.flatMap fun (row, t) => row.map fun p => (t, p)

/-- The assignments in expert order, as token and weight, and the number of each expert. -/
def sortAssignments (numExperts : ℕ) (flat : List (ℕ × (ℤ × K))) :
    Except Exn (List (ℕ × K) × List ℤ) := do
  let ids := flat.map fun a => a.2.1
  let gather (order : List ℤ) := order.mapM fun i => do
    let a ← getItem flat i
    return (a.1, a.2.2)
  if flags.useXllmMoe then
    let index := modules.xllmMoeComputeIndex ids numExperts
    return (← gather index.dstSrc, index.expertSizes)
  else if flags.useCorexMoeIndexCombine then
    let index := modules.corexMoeComputeIndex ids numExperts
    return (← gather index.dstSrc, index.expertSizes)
  else
    return (← gather (argsort ids), ← bincount ids numExperts)

/-- The products of the CUTLASS path. -/
def groupedGemm (experts : List (ExpertWeights K H I)) (hidden : List (Fin H → K))
    (sorted : List (ℕ × K)) (counts : List ℤ) : Except Exn (ℕ → Fin H → K) := do
  let sortedHidden ← sorted.mapM fun a => getItem hidden a.1
  let gemm1Out := modules.moeGroupGemm sortedHidden (experts.map ExpertWeights.w13) counts
  let actOut := gemm1Out.map (siluMul silu)
  let gemm2Out := modules.moeGroupGemm actOut (experts.map ExpertWeights.w2) counts
  return indexAdd 0 ((sorted.zip gemm2Out).map fun (a, row) => (a.1, a.2 • row))

/-- The fallback: a loop over the experts, from expert `eid` and position `start` on. -/
def expertLoop (experts : List (ExpertWeights K H I)) (hidden : List (Fin H → K))
    (sorted : List (ℕ × K)) : ℕ → ℕ → List ℕ → (ℕ → Fin H → K) → Except Exn (ℕ → Fin H → K)
  | _, _, [], out => .ok out
  | eid, start, count :: counts, out =>
    if count = 0 then expertLoop experts hidden sorted (eid + 1) start counts out
    else do
      let slice := (sorted.drop start).take count
      let tokens ← slice.mapM fun a => getItem hidden a.1
      let expert ← getItem experts eid
      let gateUp := fastLinear modules flags tokens expert.w13
      let act := gateUp.map (siluMul silu)
      let expertOut := fastLinear modules flags act expert.w2
      expertLoop experts hidden sorted (eid + 1) (start + count) counts
        (indexAdd out ((slice.zip expertOut).map fun (a, row) => (a.1, a.2 • row)))

/-- The general path. -/
def severalTokens (layer : MoeLayer K H I) (hidden : List (Fin H → K)) (topk : List (List (ℤ × K))) :
    Except Exn (List (Fin H → K)) := do
  let (sorted, counts) ← sortAssignments modules layer.flags layer.experts.length (assignments topk)
  let out ← if layer.flags.useGemmGrouped && layer.flags.isHalf then
      groupedGemm silu modules layer.experts hidden sorted counts
    else expertLoop silu modules layer.flags layer.experts hidden sorted 0 0 (counts.map Int.toNat) 0
  return (List.range hidden.length).map out

/-! ## `naive_batched_moe_forward` -/

/-- One round of its loop over the experts. -/
def naiveRound (hidden : List (Fin H → K)) (flat : List (ℕ × (ℤ × K)))
    (out : ℕ → Fin H → K) (expert : ExpertWeights K H I × ℕ) : Except Exn (ℕ → Fin H → K) := do
  let selected := flat.filter fun a => a.2.1 = (expert.2 : ℤ)
  if selected.length = 0 then
    return out
  let expertInput ← selected.mapM fun a => getItem hidden a.1
  let act := (linear expertInput expert.1.w13).map modules.siluAndMul
  let expertOut := linear act expert.1.w2
  return indexAdd out ((selected.zip expertOut).map fun (a, row) => (a.1, a.2.2 • row))

def naiveBatchedMoeForward (experts : List (ExpertWeights K H I)) (hidden : List (Fin H → K))
    (topk : List (List (ℤ × K))) : Except Exn (List (Fin H → K)) :=
  match hidden, topk with
  | [x], [row] => do
    let selected ← row.mapM fun p => getItem experts p.1
    let expertOut := selectedExperts linear modules.siluAndMul x selected
    return [weightedSum expertOut (row.map Prod.snd)]
  | _, _ => do
    let out ← experts.zipIdx.foldlM (naiveRound modules hidden (assignments topk)) 0
    return (List.range hidden.length).map out

/-! ## The layer -/

/-- `_pure_pytorch_experts`. -/
def pureTorchExperts (layer : MoeLayer K H I) (hidden : List (Fin H → K))
    (routerLogits : List (List K)) [DecidableEq K] : Except Exn (List (Fin H → K)) := do
  if layer.flags.useIxFusedMoe then
    return modules.fusedMoeForward hidden routerLogits layer.experts layer.topK layer.experts.length
  if layer.flags.useNaiveBatchedMoe && 1 < hidden.length then
    let topk := route exp modules layer.flags layer.topK routerLogits
    return ← naiveBatchedMoeForward modules layer.experts hidden topk
  let topk := route exp modules layer.flags layer.topK routerLogits
  let topk := match layer.ep with
    | some ep => epMaskAndRemap topk ep.startExpertId ep.numExpertsPerRank
    | none => topk
  match hidden with
  | [x] => return [← singleToken silu modules layer x (topk.headD [])]
  | _ => severalTokens silu modules layer hidden topk

end tiers

end Ikun.Moe
