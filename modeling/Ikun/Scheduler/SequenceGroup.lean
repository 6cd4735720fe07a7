import Mathlib.Data.Rat.Defs
import Mathlib.Algebra.Order.Ring.Rat
import Ikun.Basic
import Ikun.Lib.Except

/-!
# Sequence groups and the budget of a step

The engine keeps one sequence group for a request. A group has one sequence: requests with several
samples are split into groups of one sequence before they reach the scheduler.

A step of the scheduler hands out tokens and sequences from a `SchedulingBudget`, which counts a
request once.
-/

namespace Ikun.Scheduling

open Except

/-- The statuses of a `SequenceStatus` from `FINISHED_STOPPED` on. -/
inductive FinishReason
  | stopped
  | lengthCapped
  | aborted
  | ignored
  deriving DecidableEq, Repr

/-- `SequenceStatus`. -/
inductive SequenceStatus
  | waiting
  | running
  | swapped
  | finished (reason : FinishReason)
  deriving DecidableEq, Repr

/-- `SequenceStage`. -/
inductive SequenceStage
  | prefill
  | decode
  deriving DecidableEq, Repr

/-- What the block manager makes of the multimodal data of a request: it has none, it has a digest,
or it cannot be hashed. -/
inductive MultiModalData (δ : Type)
  | none
  | hashed (digest : δ)
  | unsupported
  deriving DecidableEq

/-- A `SequenceGroup` with its only `Sequence`. The tokens are those of the prompt and the generated
ones. -/
structure SequenceGroup (ρ δ : Type) where
  requestId : ρ
  seqId : ℕ
  tokenIds : List ℕ
  numComputedTokens : ℕ := 0
  stage : SequenceStage := .prefill
  status : SequenceStatus := .waiting
  priority : ℤ := 0
  arrivalTime : ℚ := 0
  adapterCacheNamespace : δ
  multiModalData : MultiModalData δ := .none
  deriving DecidableEq

namespace SequenceGroup

variable {ρ δ : Type} (g : SequenceGroup ρ δ)

/-- `get_len`. -/
def len : ℕ := g.tokenIds.length

/-- `is_finished`. -/
def isFinished : Bool :=
  match g.status with
  | .finished _ => true
  | _ => false

/-- `is_prefill`. -/
def isPrefill : Bool := g.stage = .prefill

/-- `get_num_uncomputed_tokens`. -/
def numUncomputedTokens : ℕ := g.len - g.numComputedTokens

/-- `get_num_new_tokens`. -/
def numNewTokens : ℕ :=
  match g.stage with
  | .decode => 1
  | .prefill => g.numUncomputedTokens

/-- `get_max_num_running_seqs`. -/
def maxNumRunningSeqs : ℕ := if g.isFinished then 0 else 1

/-- `reset_state_for_recompute`. -/
def resetStateForRecompute : SequenceGroup ρ δ :=
  { g with numComputedTokens := 0, stage := .prefill }

/-- `update_num_computed_tokens`. -/
def updateNumComputedTokens (numNewComputedTokens : ℕ) : Except Exn (SequenceGroup ρ δ) := do
  let numComputedTokens := g.numComputedTokens + numNewComputedTokens
  raiseIf (g.len < numComputedTokens) .assertionError
  return { g with
    numComputedTokens := numComputedTokens
    stage := if g.len - numComputedTokens = 0 then .decode else g.stage }

/-- `append_token_id`. -/
def appendTokenId (tokenId : ℕ) : SequenceGroup ρ δ :=
  { g with tokenIds := g.tokenIds ++ [tokenId] }

end SequenceGroup

/-! ## The budget -/

/-- `SchedulingBudget`. -/
structure SchedulingBudget (ρ : Type) where
  tokenBudget : ℕ
  maxNumSeqs : ℕ
  requestIdsNumBatchedTokens : List (ρ × ℕ) := []
  requestIdsNumCurrSeqs : List ρ := []
  numBatchedTokens : ℕ := 0
  numScheduledTokens : ℕ := 0
  numCurrSeqs : ℕ := 0

namespace SchedulingBudget

variable {ρ : Type} [DecidableEq ρ] (b : SchedulingBudget ρ)

/-- `can_schedule`. -/
def canSchedule (numNewTokens numNewSeqs : ℕ) : Except Exn Bool := do
  raiseIf (numNewTokens = 0) .assertionError
  raiseIf (numNewSeqs = 0) .assertionError
  return b.numBatchedTokens + numNewTokens ≤ b.tokenBudget ∧
    b.numCurrSeqs + numNewSeqs ≤ b.maxNumSeqs

/-- `remaining_token_budget`. -/
def remainingTokenBudget : ℕ := b.tokenBudget - b.numBatchedTokens

/-- `add_num_batched_tokens`; the set of request ids and the dictionary of their scheduled tokens
have the same keys. -/
def addNumBatchedTokens (reqId : ρ) (numBatchedTokens numScheduledTokens : ℕ) :
    SchedulingBudget ρ :=
  if b.requestIdsNumBatchedTokens.any (·.1 = reqId) then b
  else { b with
    requestIdsNumBatchedTokens :=
      (reqId, numScheduledTokens) :: b.requestIdsNumBatchedTokens
    numBatchedTokens := b.numBatchedTokens + numBatchedTokens
    numScheduledTokens := b.numScheduledTokens + numScheduledTokens }

@[simp] theorem tokenBudget_addNumBatchedTokens (reqId : ρ) (batched scheduled : ℕ) :
    (b.addNumBatchedTokens reqId batched scheduled).tokenBudget = b.tokenBudget := by
  unfold addNumBatchedTokens
  split <;> rfl

/-- `subtract_num_batched_tokens`. -/
def subtractNumBatchedTokens (reqId : ρ) (numBatchedTokens : ℕ) : SchedulingBudget ρ :=
  match b.requestIdsNumBatchedTokens.lookup reqId with
  | some numScheduledTokens => { b with
      requestIdsNumBatchedTokens := b.requestIdsNumBatchedTokens.filter (·.1 ≠ reqId)
      numBatchedTokens := b.numBatchedTokens - numBatchedTokens
      numScheduledTokens := b.numScheduledTokens - numScheduledTokens }
  | none => b

/-- `add_num_seqs`. -/
def addNumSeqs (reqId : ρ) (numCurrSeqs : ℕ) : SchedulingBudget ρ :=
  if reqId ∈ b.requestIdsNumCurrSeqs then b
  else { b with
    requestIdsNumCurrSeqs := reqId :: b.requestIdsNumCurrSeqs
    numCurrSeqs := b.numCurrSeqs + numCurrSeqs }

@[simp] theorem tokenBudget_addNumSeqs (reqId : ρ) (seqs : ℕ) :
    (b.addNumSeqs reqId seqs).tokenBudget = b.tokenBudget := by
  unfold addNumSeqs
  split <;> rfl

/-- `subtract_num_seqs`. -/
def subtractNumSeqs (reqId : ρ) (numCurrSeqs : ℕ) : SchedulingBudget ρ :=
  if reqId ∈ b.requestIdsNumCurrSeqs then
    { b with
      requestIdsNumCurrSeqs := b.requestIdsNumCurrSeqs.erase reqId
      numCurrSeqs := b.numCurrSeqs - numCurrSeqs }
  else b

end SchedulingBudget

end Ikun.Scheduling
