import Mathlib.Data.List.Sort
import Mathlib.Data.Prod.Lex
import Ikun.Scheduler.BlockManager
import Ikun.Scheduler.GdnPlan

/-!
# The scheduler

`Scheduler` keeps the sequence groups of the requests in three queues and decides for every step
which of them run. With chunked prefill a step takes the running groups first, then swapped groups,
then waiting ones; without, it prefers waiting groups. A group that finds no room for its next token
preempts the groups at the end of the running queue.

A group is in one place at a time: in a queue, in the list of the groups that are stopped for their
length, or, within a step, in one of the lists of the step. LoRA adapters and multi-step scheduling
are not modelled.
-/

namespace Ikun.Scheduling

open Except GdnPrefix

variable {ρ δ A T : Type} [DecidableEq ρ] [DecidableEq δ]

/-- `PreemptionMode`. -/
inductive PreemptionMode
  | swap
  | recompute
  deriving DecidableEq, Repr

/-- What the scheduler is configured with. -/
structure SchedulerConfig (A T δ : Type) where
  tables : BlockTableOps A T δ
  blockSize : ℕ
  maxNumBatchedTokens : ℕ
  maxNumSeqs : ℕ
  maxModelLen : ℕ
  numLookaheadSlots : ℕ
  chunkedPrefillEnabled : Bool
  enablePrefixCaching : Bool
  priorityPolicy : Bool
  useAsyncOutputProc : Bool
  userSpecifiedPreemptionMode : Option PreemptionMode
  gdnRestoreMode : RestoreMode
  gdnReplayAlignment : ℕ

/-- What a step of the scheduler reads from outside: the time, whether the delay for the `n`-th
prompt has passed, the random digest of a new namespace, and what the pending output of a request
says. -/
structure Environment (ρ δ : Type) where
  now : ℕ
  passedDelay : ℕ → Bool
  freshNamespace : ρ → δ
  pendingOutput : ρ → Option FinishReason

/-- `Scheduler`. -/
structure Scheduler (ρ δ A T : Type) where
  blockManager : BlockSpaceManager ρ δ A T
  waiting : List (SequenceGroup ρ δ) := []
  running : List (SequenceGroup ρ δ) := []
  swapped : List (SequenceGroup ρ δ) := []
  finishedRequestsIds : List ρ := []
  gdnPrefixPolicy : GdnPrefixStatePolicy δ
  gdnRequestRestoreKeys : Dict ρ (Option (GdnPrefixKey δ)) := .empty
  gdnRequestCaptureTargets : Dict ρ (List (GdnPrefixKey δ)) := .empty
  asyncStopped : List (SequenceGroup ρ δ) := []

/-- `ScheduledSequenceGroup`. -/
structure ScheduledSequenceGroup (ρ δ : Type) where
  seqGroup : SequenceGroup ρ δ
  tokenChunkSize : ℕ

/-- `SchedulerRunningOutputs`. -/
structure SchedulerRunningOutputs (ρ δ : Type) where
  decodeSeqGroups : List (ScheduledSequenceGroup ρ δ) := []
  prefillSeqGroups : List (ScheduledSequenceGroup ρ δ) := []
  preempted : List (SequenceGroup ρ δ) := []
  swappedOut : List (SequenceGroup ρ δ) := []
  blocksToSwapOut : List (ℕ × ℕ) := []
  blocksToCopy : List (ℕ × ℕ) := []

/-- `SchedulerSwappedInOutputs`. -/
structure SchedulerSwappedInOutputs (ρ δ : Type) where
  decodeSeqGroups : List (ScheduledSequenceGroup ρ δ) := []
  prefillSeqGroups : List (ScheduledSequenceGroup ρ δ) := []
  blocksToSwapIn : List (ℕ × ℕ) := []
  blocksToCopy : List (ℕ × ℕ) := []
  infeasibleSeqGroups : List (SequenceGroup ρ δ) := []

/-- `SchedulerPrefillOutputs`. -/
structure SchedulerPrefillOutputs (ρ δ : Type) where
  seqGroups : List (ScheduledSequenceGroup ρ δ) := []
  ignoredSeqGroups : List (SequenceGroup ρ δ) := []

/-- `SchedulerOutputs`. -/
structure SchedulerOutputs (ρ δ : Type) where
  scheduledSeqGroups : List (ScheduledSequenceGroup ρ δ)
  numPrefillGroups : ℕ
  numBatchedTokens : ℕ
  blocksToSwapIn : List (ℕ × ℕ)
  blocksToSwapOut : List (ℕ × ℕ)
  blocksToCopy : List (ℕ × ℕ)
  ignoredSeqGroups : List (SequenceGroup ρ δ)
  preempted : ℕ

/-- `is_empty`. -/
def SchedulerOutputs.isEmpty (o : SchedulerOutputs ρ δ) : Bool :=
  o.scheduledSeqGroups.isEmpty && o.blocksToSwapIn.isEmpty && o.blocksToSwapOut.isEmpty &&
    o.blocksToCopy.isEmpty

/-- The part of a `SequenceGroupMetadata` that the scheduler computes. -/
structure SequenceGroupMetadata (ρ δ : Type) where
  requestId : ρ
  isPrompt : Bool
  seqId : ℕ
  tokenIds : List ℕ
  numComputedTokens : ℕ
  blockTable : List ℕ
  doSample : Bool
  tokenChunkSize : ℕ
  computedBlockNums : List ℕ
  gdnRestoreKey : Option (GdnPrefixKey δ)
  gdnCapturePoints : Option (List (ℕ × GdnPrefixKey δ))
  gdnEvictKeys : Option (List (GdnPrefixKey δ))
  gdnSegmentOffsets : Option (List ℕ)

namespace Scheduler

variable (cfg : SchedulerConfig A T δ) (env : Environment ρ δ)

/-! ## Leaving the scheduler -/

/-- `add_seq_group`. -/
def addSeqGroup (s : Scheduler ρ δ A T) (g : SequenceGroup ρ δ) : Scheduler ρ δ A T :=
  { s with waiting := s.waiting ++ [g] }

/-- `free_seq`. -/
def freeSeq (s : Scheduler ρ δ A T) (g : SequenceGroup ρ δ) : Except Exn (Scheduler ρ δ A T) := do
  let blockManager ← s.blockManager.free cfg.tables g
  return { s with blockManager := blockManager }

/-- `_free_seq_group_cross_attn_blocks`, for a model without an encoder. -/
def freeSeqGroupCrossAttnBlocks (s : Scheduler ρ δ A T) (g : SequenceGroup ρ δ) :
    Scheduler ρ δ A T :=
  { s with blockManager := s.blockManager.releaseRequestCacheNamespace g.requestId }

/-- The request is reported to the model in the next step. -/
def reportFinished (s : Scheduler ρ δ A T) (g : SequenceGroup ρ δ) : Scheduler ρ δ A T :=
  { s with finishedRequestsIds := s.finishedRequestsIds ++ [g.requestId] }

/-- `_free_finished_seqs`. -/
def freeFinishedSeqs (s : Scheduler ρ δ A T) (g : SequenceGroup ρ δ) :
    Except Exn (Scheduler ρ δ A T) :=
  if g.isFinished then s.freeSeq cfg g else return s

/-- The entries of a request are popped. -/
def popGdnEntries (s : Scheduler ρ δ A T) (requestId : ρ) : Scheduler ρ δ A T :=
  { s with
    gdnRequestRestoreKeys := s.gdnRequestRestoreKeys.erase requestId
    gdnRequestCaptureTargets := s.gdnRequestCaptureTargets.erase requestId }

/-- `_free_finished_seq_group`. -/
def freeFinishedSeqGroup (s : Scheduler ρ δ A T) (g : SequenceGroup ρ δ) :
    Except Exn (Scheduler ρ δ A T) :=
  let s :=
    if g.isFinished then
      ((s.freeSeqGroupCrossAttnBlocks g).popGdnEntries g.requestId).reportFinished g
    else s
  s.freeFinishedSeqs cfg g

/-- The release of a group that was stopped for its length. -/
def freeAsyncStopped (s : Scheduler ρ δ A T) (g : SequenceGroup ρ δ) :
    Except Exn (Scheduler ρ δ A T) :=
  ((s.freeSeqGroupCrossAttnBlocks g).reportFinished g).freeFinishedSeqs cfg g

/-- `free_finished_seq_groups`. -/
def freeFinishedSeqGroups (s : Scheduler ρ δ A T) : Except Exn (Scheduler ρ δ A T) := do
  let freed ← s.running.foldlM (freeFinishedSeqGroup cfg) s
  let remaining := { freed with running := s.running.filter fun g => ¬ g.isFinished }
  let stopped ← remaining.asyncStopped.foldlM (freeAsyncStopped cfg) remaining
  return { stopped with asyncStopped := [] }

/-- A round of `abort_seq_group`, for a group that has been removed from its queue. -/
def abortGroup (s : Scheduler ρ δ A T) (g : SequenceGroup ρ δ) :
    Except Exn (Scheduler ρ δ A T) := do
  let reported := s.reportFinished g
  let freed ← if g.isFinished then pure reported else reported.freeSeq cfg g
  return freed.freeSeqGroupCrossAttnBlocks g

/-- The request ids abort the group; `parent` maps the request of a sample to that of its group. -/
def Aborts (requestIds : List ρ) (parent : ρ → Option ρ) (g : SequenceGroup ρ δ) : Prop :=
  (parent g.requestId).getD g.requestId ∈ requestIds

instance (requestIds : List ρ) (parent : ρ → Option ρ) (g : SequenceGroup ρ δ) :
    Decidable (Aborts requestIds parent g) := inferInstanceAs (Decidable (_ ∈ _))

/-- `abort_seq_group`. -/
def abortSeqGroup (s : Scheduler ρ δ A T) (requestIds : List ρ) (parent : ρ → Option ρ) :
    Except Exn (Scheduler ρ δ A T) := do
  let aborted := fun queue : List (SequenceGroup ρ δ) =>
    queue.filter fun g => Aborts requestIds parent g
  let kept := fun queue : List (SequenceGroup ρ δ) =>
    queue.filter fun g => ¬ Aborts requestIds parent g
  let s₁ ← (aborted s.waiting).foldlM (abortGroup cfg) { s with waiting := kept s.waiting }
  let s₂ ← (aborted s.running).foldlM (abortGroup cfg) { s₁ with running := kept s.running }
  (aborted s.swapped).foldlM (abortGroup cfg) { s₂ with swapped := kept s.swapped }

/-- `get_and_reset_finished_requests_ids`. -/
def getAndResetFinishedRequestsIds (s : Scheduler ρ δ A T) : List ρ × Scheduler ρ δ A T :=
  (s.finishedRequestsIds, { s with finishedRequestsIds := [] })

/-! ## Tokens and slots -/

/-- `_get_num_lookahead_slots`, for single-step scheduling. -/
def getNumLookaheadSlots (isPrefill : Bool) : ℕ := if isPrefill then 0 else cfg.numLookaheadSlots

/-- `_get_prompt_limit`. -/
def getPromptLimit : ℕ :=
  if cfg.chunkedPrefillEnabled then cfg.maxModelLen
  else min cfg.maxModelLen cfg.maxNumBatchedTokens

/-- `_get_num_new_tokens`. -/
def getNumNewTokens (g : SequenceGroup ρ δ) (status : SequenceStatus) (enableChunking : Bool)
    (budget : SchedulingBudget ρ) : Except Exn ℕ := do
  raiseIf (g.status ≠ status ∨ g.numNewTokens = 0) .assertionError
  if enableChunking then
    if cfg.enablePrefixCaching then
      GdnPrefix.getNumNewTokens g.numNewTokens budget.remainingTokenBudget budget.tokenBudget
        cfg.blockSize
    else return min g.numNewTokens budget.remainingTokenBudget
  else return g.numNewTokens

/-- `_cap_gdn_capture_boundary`. -/
def capGdnCaptureBoundary (s : Scheduler ρ δ A T) (g : SequenceGroup ρ δ)
    (tokenChunkSize physicalQueryTokens : ℕ) : Except Exn (ℕ × ℕ) :=
  GdnPrefix.capGdnCaptureBoundary s.gdnPrefixPolicy.policy
    ((s.gdnRequestCaptureTargets.get? g.requestId).getD []) cfg.blockSize g.numComputedTokens
    tokenChunkSize physicalQueryTokens

/-- `_can_append_slots`. -/
def canAppendSlots (s : Scheduler ρ δ A T) (g : SequenceGroup ρ δ) : Except Exn Bool :=
  s.blockManager.canAppendSlots cfg.tables g (getNumLookaheadSlots cfg g.isPrefill)

/-- `_append_slots`: the copies on write. -/
def appendSlots (s : Scheduler ρ δ A T) (g : SequenceGroup ρ δ) :
    Except Exn (List (ℕ × ℕ) × Scheduler ρ δ A T) :=
  if g.status = .running then do
    let appended ← s.blockManager.appendSlots cfg.tables g (getNumLookaheadSlots cfg g.isPrefill)
    return (appended.1, { s with blockManager := appended.2 })
  else return ([], s)

/-! ## Preemption -/

/-- `_preempt_by_recompute`. -/
def preemptByRecompute (s : Scheduler ρ δ A T) (g : SequenceGroup ρ δ) :
    Except Exn (SequenceGroup ρ δ × Scheduler ρ δ A T) := do
  raiseIf (g.status ≠ .running) .assertionError
  let freed ← s.freeSeq cfg g
  return ({ g with status := .waiting }.resetStateForRecompute, freed)

/-- The group with status `source` gets status `target`. -/
def changeStatus (g : SequenceGroup ρ δ) (source target : SequenceStatus) : SequenceGroup ρ δ :=
  if g.status = source then { g with status := target } else g

/-- `_swap_out`, as `_preempt_by_swap` calls it: the blocks to swap out. -/
def swapOut (s : Scheduler ρ δ A T) (g : SequenceGroup ρ δ) :
    Except Exn (List (ℕ × ℕ) × SequenceGroup ρ δ × Scheduler ρ δ A T) := do
  let canSwapOut ← s.blockManager.canSwapOut cfg.tables g
  raiseIf (¬ canSwapOut)
    (.runtimeError ("Aborted due to the lack of CPU swap space. Please increase the swap space " ++
      "to avoid this error."))
  let swapped ← s.blockManager.swapOut cfg.tables g
  return (swapped.1, changeStatus g .running .swapped, { s with blockManager := swapped.2 })

/-- `_swap_in`: the blocks to swap in. -/
def swapIn (s : Scheduler ρ δ A T) (g : SequenceGroup ρ δ) :
    Except Exn (List (ℕ × ℕ) × SequenceGroup ρ δ × Scheduler ρ δ A T) := do
  let swapped ← s.blockManager.swapIn cfg.tables g
  return (swapped.1, changeStatus g .swapped .running, { s with blockManager := swapped.2 })

/-- The mode of `_preempt`. -/
def preemptionMode (g : SequenceGroup ρ δ) : PreemptionMode :=
  match cfg.userSpecifiedPreemptionMode with
  | none => if g.maxNumRunningSeqs = 1 then .recompute else .swap
  | some mode => mode

/-- `_preempt` and the list that the preempted group is put on. -/
def preempt (s : Scheduler ρ δ A T) (outputs : SchedulerRunningOutputs ρ δ)
    (g : SequenceGroup ρ δ) :
    Except Exn (Scheduler ρ δ A T × SchedulerRunningOutputs ρ δ) :=
  match preemptionMode cfg g with
  | .recompute => do
    let preempted ← s.preemptByRecompute cfg g
    return (preempted.2, { outputs with preempted := outputs.preempted ++ [preempted.1] })
  | .swap => do
    let swapped ← s.swapOut cfg g
    return (swapped.2.2, { outputs with
      swappedOut := outputs.swappedOut ++ [swapped.2.1]
      blocksToSwapOut := outputs.blocksToSwapOut ++ swapped.1 })

/-- `output_proc_callback`, for one request. -/
def processPendingOutput (g : SequenceGroup ρ δ) : SequenceGroup ρ δ :=
  match env.pendingOutput g.requestId with
  | some reason => { g with status := .finished reason }
  | none => g

/-- What happens to a victim in `_schedule_running`. -/
def evict (s : Scheduler ρ δ A T) (outputs : SchedulerRunningOutputs ρ δ)
    (victim : SequenceGroup ρ δ) :
    Except Exn (Scheduler ρ δ A T × SchedulerRunningOutputs ρ δ) :=
  let victim := if cfg.useAsyncOutputProc then processPendingOutput env victim else victim
  if cfg.useAsyncOutputProc ∧ victim.isFinished then do
    let freed ← s.freeFinishedSeqGroup cfg victim
    return (freed, outputs)
  else s.preempt cfg outputs victim

/-! ## The running queue -/

/-- The state of the loop of `_schedule_running`; the running queue is that of the scheduler. -/
structure RunningRound (ρ δ A T : Type) where
  scheduler : Scheduler ρ δ A T
  budget : SchedulingBudget ρ
  outputs : SchedulerRunningOutputs ρ δ := {}

/-- The loop that preempts groups until there are slots for the group. The victims are the running
queue from its end on. Whether there are slots in the end, and the victims that are left. -/
def makeRoom (g : SequenceGroup ρ δ) (numRunningTokens : ℕ) :
    List (SequenceGroup ρ δ) → RunningRound ρ δ A T →
      Except Exn (Bool × List (SequenceGroup ρ δ) × RunningRound ρ δ A T)
  | victims, round => do
    let hasSlots ← round.scheduler.canAppendSlots cfg g
    if hasSlots then return (true, victims, round)
    else
      let budget := (round.budget.subtractNumBatchedTokens g.requestId numRunningTokens)
        |>.subtractNumSeqs g.requestId g.maxNumRunningSeqs
      match victims with
      | [] => do
        let evicted ← round.scheduler.evict cfg env round.outputs g
        return (false, [], ⟨evicted.1, budget, evicted.2⟩)
      | victim :: victims => do
        let evicted ← round.scheduler.evict cfg env round.outputs victim
        makeRoom g numRunningTokens victims ⟨evicted.1, budget, evicted.2⟩

/-- The end of a round of `_schedule_running`: the group runs. -/
def runGroup (enableChunking : Bool) (g : SequenceGroup ρ δ) (numRunningTokens : ℕ)
    (round : RunningRound ρ δ A T) : Except Exn (RunningRound ρ δ A T) := do
  let appended ← round.scheduler.appendSlots cfg g
  let budget := round.budget.addNumBatchedTokens g.requestId numRunningTokens numRunningTokens
  let outputs := { round.outputs with blocksToCopy := round.outputs.blocksToCopy ++ appended.1 }
  return {
    scheduler := appended.2
    budget := if enableChunking then budget.addNumSeqs g.requestId g.maxNumRunningSeqs else budget
    outputs :=
      if g.isPrefill then
        { outputs with prefillSeqGroups := outputs.prefillSeqGroups ++ [⟨g, numRunningTokens⟩] }
      else { outputs with decodeSeqGroups := outputs.decodeSeqGroups ++ [⟨g, 1⟩] } }

/-- The tokens that a running group gets. -/
def numRunningTokens (enableChunking : Bool) (g : SequenceGroup ρ δ)
    (round : RunningRound ρ δ A T) (numNewTokens : ℕ) : Except Exn ℕ :=
  if enableChunking ∧ g.isPrefill then do
    let capped ← round.scheduler.capGdnCaptureBoundary cfg g numNewTokens numNewTokens
    return capped.1
  else return numNewTokens

/-- The loop of `_schedule_running`; every round takes a group from the running queue. -/
def runningLoop (enableChunking : Bool) :
    ℕ → RunningRound ρ δ A T → Except Exn (RunningRound ρ δ A T)
  | 0, round => return round
  | rounds + 1, round =>
    match round.scheduler.running with
    | [] => return round
    | g :: queue => do
      let numNewTokens ← getNumNewTokens cfg g .running enableChunking round.budget
      if numNewTokens = 0 then return round
      else
        let tokens ← numRunningTokens cfg enableChunking g round numNewTokens
        if cfg.useAsyncOutputProc ∧ cfg.maxModelLen < g.len then
          runningLoop enableChunking rounds { round with
            scheduler := { round.scheduler with
              running := queue
              asyncStopped := round.scheduler.asyncStopped ++ [g] } }
        else do
          let made ← makeRoom cfg env g tokens queue.reverse round
          let left := { made.2.2 with
            scheduler := { made.2.2.scheduler with running := made.2.1.reverse } }
          let next ← if made.1 then runGroup cfg enableChunking g tokens left else pure left
          runningLoop enableChunking rounds next

/-- `_schedule_running`. -/
def scheduleRunning (s : Scheduler ρ δ A T) (enableChunking : Bool)
    (budget : SchedulingBudget ρ) : Except Exn (RunningRound ρ δ A T) := do
  raiseIf (s.asyncStopped ≠ []) .assertionError
  runningLoop cfg env enableChunking s.running.length { scheduler := s, budget := budget }

end Scheduler

end Ikun.Scheduling
