import Ikun.Scheduler.Core

/-!
# A step of the scheduler

The admission of swapped and waiting groups, the two policies that combine it with the running
queue, and the metadata that `schedule` sends to the model for the scheduled groups.
-/

namespace Ikun.Scheduling.Scheduler

open Except GdnPrefix

variable {ρ δ A T : Type} [DecidableEq ρ] [DecidableEq δ]
variable (cfg : SchedulerConfig A T δ) (env : Environment ρ δ)

/-! ## The swapped queue -/

/-- The state of the loop of `_schedule_swapped`. -/
structure SwappedRound (ρ δ A T : Type) where
  scheduler : Scheduler ρ δ A T
  budget : SchedulingBudget ρ
  outputs : SchedulerSwappedInOutputs ρ δ := {}

/-- The group is failed because it will never fit. -/
def ignore (g : SequenceGroup ρ δ) : SequenceGroup ρ δ := { g with status := .finished .ignored }

/-- The end of a round of `_schedule_swapped`: the group is swapped in. -/
def swapInGroup (g : SequenceGroup ρ δ) (numNewTokens : ℕ)
    (round : SwappedRound ρ δ A T) : Except Exn (SwappedRound ρ δ A T) := do
  let swapped ← round.scheduler.swapIn cfg g
  let g' := swapped.2.1
  let appended ← swapped.2.2.appendSlots cfg g'
  let outputs := { round.outputs with
    blocksToSwapIn := round.outputs.blocksToSwapIn ++ swapped.1
    blocksToCopy := round.outputs.blocksToCopy ++ appended.1 }
  return {
    scheduler := appended.2
    budget := (round.budget.addNumBatchedTokens g.requestId numNewTokens numNewTokens).addNumSeqs
      g.requestId g.maxNumRunningSeqs
    outputs :=
      if g'.isPrefill then
        { outputs with prefillSeqGroups := outputs.prefillSeqGroups ++ [⟨g', numNewTokens⟩] }
      else { outputs with decodeSeqGroups := outputs.decodeSeqGroups ++ [⟨g', 1⟩] } }

/-- There is budget for the group. -/
def fits (budget : SchedulingBudget ρ) (numNewTokens numNewSeqs : ℕ) : Except Exn Bool :=
  if numNewTokens = 0 then return false else budget.canSchedule numNewTokens numNewSeqs

/-- The loop of `_schedule_swapped`, over the swapped queue. -/
def swappedLoop (enableChunking : Bool) :
    List (SequenceGroup ρ δ) → SwappedRound ρ δ A T → Except Exn (SwappedRound ρ δ A T)
  | [], round => return { round with scheduler := { round.scheduler with swapped := [] } }
  | g :: queue, round => do
    let stopped := { round with scheduler := { round.scheduler with swapped := g :: queue } }
    let allocStatus ← round.scheduler.blockManager.canSwapIn cfg.tables g
      (getNumLookaheadSlots cfg g.isPrefill)
    match allocStatus with
    | .later => return stopped
    | .never =>
      swappedLoop enableChunking queue { round with
        outputs := { round.outputs with
          infeasibleSeqGroups := round.outputs.infeasibleSeqGroups ++ [ignore g] } }
    | .ok => do
      let numNewTokens ← getNumNewTokens cfg g .swapped enableChunking round.budget
      let canSchedule ← fits round.budget numNewTokens g.maxNumRunningSeqs
      if ¬ canSchedule then return stopped
      else do
        let next ← swapInGroup cfg g numNewTokens round
        swappedLoop enableChunking queue next

/-- `_schedule_swapped`. -/
def scheduleSwapped (s : Scheduler ρ δ A T) (enableChunking : Bool)
    (budget : SchedulingBudget ρ) : Except Exn (SwappedRound ρ δ A T) :=
  swappedLoop cfg enableChunking s.swapped { scheduler := s, budget := budget }

/-! ## The waiting queue -/

/-- The state of the loop of `_schedule_prefills`. -/
structure PrefillRound (ρ δ A T : Type) where
  scheduler : Scheduler ρ δ A T
  budget : SchedulingBudget ρ
  outputs : SchedulerPrefillOutputs ρ δ := {}

/-- `_allocate_and_set_running`. -/
def allocateAndSetRunning (s : Scheduler ρ δ A T) (g : SequenceGroup ρ δ) :
    Except Exn (SequenceGroup ρ δ × Scheduler ρ δ A T) := do
  let blockManager ← s.blockManager.allocate cfg.tables g (env.freshNamespace g.requestId)
  return (changeStatus g .waiting .running, { s with blockManager := blockManager })

/-- What the planning of a prompt reads of the configuration. -/
def gdnConfig : GdnConfig where
  blockSize := cfg.blockSize
  maxNumBatchedTokens := cfg.maxNumBatchedTokens
  restoreMode := cfg.gdnRestoreMode
  replayAlignment := cfg.gdnReplayAlignment

/-- The entries of an admitted request are set; the tokens by which it advances and those that the
model processes. -/
def planRequest (s : Scheduler ρ δ A T) (g : SequenceGroup ρ δ) (numNewTokens : ℕ)
    (budget : SchedulingBudget ρ) : Except Exn ((ℕ × ℕ) × Scheduler ρ δ A T) := do
  let computed ← s.blockManager.getCommonComputedBlockIds cfg.tables g
  let blockHashes ← computed.2.getContentHashes cfg.tables g
  let planned ← planPrompt (gdnConfig cfg) s.gdnPrefixPolicy blockHashes computed.1.length
    g.numComputedTokens g.len numNewTokens budget.remainingTokenBudget
  return ((planned.1.chunkSize, planned.1.queryTokens), { s with
    blockManager := computed.2
    gdnPrefixPolicy := planned.2
    gdnRequestRestoreKeys := s.gdnRequestRestoreKeys.set g.requestId planned.1.restoreKey
    gdnRequestCaptureTargets :=
      s.gdnRequestCaptureTargets.set g.requestId planned.1.captureTargets })

/-- The end of a round of `_schedule_prefills`: the group is admitted. -/
def admitGroup (enableChunking : Bool) (g : SequenceGroup ρ δ) (numNewTokens : ℕ)
    (round : PrefillRound ρ δ A T) : Except Exn (PrefillRound ρ δ A T) := do
  let allocated ← round.scheduler.allocateAndSetRunning cfg env g
  let planned ←
    if enableChunking ∧ cfg.enablePrefixCaching then
      planRequest cfg allocated.2 allocated.1 numNewTokens round.budget
    else pure ((numNewTokens, numNewTokens), allocated.2)
  return {
    scheduler := planned.2
    budget := (round.budget.addNumBatchedTokens g.requestId planned.1.2 planned.1.1).addNumSeqs
      g.requestId g.maxNumRunningSeqs
    outputs := { round.outputs with
      seqGroups := round.outputs.seqGroups ++ [⟨allocated.1, planned.1.1⟩] } }

/-- The loop of `_schedule_prefills`, over the waiting queue; `n` rounds have passed. -/
def prefillsLoop (enableChunking : Bool) :
    ℕ → List (SequenceGroup ρ δ) → PrefillRound ρ δ A T → Except Exn (PrefillRound ρ δ A T)
  | _, [], round => return { round with scheduler := { round.scheduler with waiting := [] } }
  | n, g :: queue, round =>
    let stopped := { round with scheduler := { round.scheduler with waiting := g :: queue } }
    if ¬ env.passedDelay n then return stopped
    else do
      raiseIf (g.status ≠ .waiting) .assertionError
      let numNewTokens ← getNumNewTokens cfg g .waiting enableChunking round.budget
      raiseIf (¬ enableChunking ∧ numNewTokens ≠ g.len) .assertionError
      let ignored := { round with
        outputs := { round.outputs with
          ignoredSeqGroups := round.outputs.ignoredSeqGroups ++ [ignore g] } }
      if getPromptLimit cfg < numNewTokens then
        prefillsLoop enableChunking (n + 1) queue ignored
      else
        match round.scheduler.blockManager.canAllocate cfg.tables g 0 with
        | .later => return stopped
        | .never => prefillsLoop enableChunking (n + 1) queue ignored
        | .ok => do
          let canSchedule ← fits round.budget numNewTokens g.maxNumRunningSeqs
          if ¬ canSchedule then return stopped
          else do
            let next ← admitGroup cfg env enableChunking g numNewTokens round
            prefillsLoop enableChunking (n + 1) queue next

/-- `_schedule_prefills`. -/
def schedulePrefills (s : Scheduler ρ δ A T) (enableChunking : Bool)
    (budget : SchedulingBudget ρ) : Except Exn (PrefillRound ρ δ A T) :=
  prefillsLoop cfg env enableChunking 0 s.waiting { scheduler := s, budget := budget }

/-! ## Preemption by priority -/

/-- `_get_priority`. -/
def getPriority (g : SequenceGroup ρ δ) : ℤ ×ₗ ℚ := toLex (g.priority, g.arrivalTime)

/-- `sorted(queue, key=self._get_priority)`. -/
def sortByPriority (queue : List (SequenceGroup ρ δ)) : List (SequenceGroup ρ δ) :=
  queue.insertionSort fun g h => getPriority g ≤ getPriority h

/-- The waiting group finds room without a preemption. -/
def findsRoom (s : Scheduler ρ δ A T) (g : SequenceGroup ρ δ) (numNewTokens numNewSeqs : ℕ)
    (budget : SchedulingBudget ρ) : Except Exn Bool :=
  if s.blockManager.canAllocate cfg.tables g 0 = .ok then fits budget numNewTokens numNewSeqs
  else return false

/-- The loop of `_schedule_priority_preemption`. The victims are the running queue from its end on;
the preempted groups go to the front of the waiting queue. -/
def priorityLoop (g : SequenceGroup ρ δ) (numNewTokens numNewSeqs : ℕ) :
    List (SequenceGroup ρ δ) → List (SequenceGroup ρ δ) → Scheduler ρ δ A T →
      SchedulingBudget ρ →
      Except Exn (List (SequenceGroup ρ δ) × List (SequenceGroup ρ δ) × Scheduler ρ δ A T ×
        SchedulingBudget ρ)
  | [], waiting, s, budget => return ([], waiting, s, budget)
  | victim :: victims, waiting, s, budget =>
    if ¬ getPriority g < getPriority victim then
      return (victim :: victims, waiting, s, budget)
    else do
      let room ← s.findsRoom cfg g numNewTokens numNewSeqs budget
      if room then return (victim :: victims, waiting, s, budget)
      else do
        let numRunningTokens ← getNumNewTokens cfg victim .running false budget
        let budget := (budget.subtractNumBatchedTokens victim.requestId numRunningTokens)
          |>.subtractNumSeqs victim.requestId victim.maxNumRunningSeqs
        let preempted ← s.preempt cfg {} victim
        priorityLoop g numNewTokens numNewSeqs victims
          (preempted.2.preempted ++ preempted.2.swappedOut ++ waiting) preempted.1 budget

/-- `_schedule_priority_preemption`. -/
def schedulePriorityPreemption (s : Scheduler ρ δ A T) (budget : SchedulingBudget ρ) :
    Except Exn (Scheduler ρ δ A T × SchedulingBudget ρ) :=
  let running := sortByPriority s.running
  match s.waiting with
  | [] => return ({ s with running := running }, budget)
  | g :: waiting => do
    let numNewTokens ← getNumNewTokens cfg g .waiting false budget
    let swept ← priorityLoop cfg g numNewTokens g.maxNumRunningSeqs running.reverse waiting s budget
    return ({ swept.2.2.1 with
      waiting := sortByPriority (g :: swept.2.1)
      running := swept.1.reverse }, swept.2.2.2)

/-! ## The two policies -/

/-- The groups of scheduled groups. -/
def groupsOf (scheduled : List (ScheduledSequenceGroup ρ δ)) : List (SequenceGroup ρ δ) :=
  scheduled.map (·.seqGroup)

/-- `__post_init__` of the `SchedulerOutputs`, and the checks of the budget in front of it. -/
def checkOutputs (budget : SchedulingBudget ρ) (o : SchedulerOutputs ρ δ) :
    Except Exn (SchedulerOutputs ρ δ) := do
  raiseIf (cfg.maxNumBatchedTokens < budget.numBatchedTokens) .assertionError
  raiseIf (cfg.maxNumSeqs < budget.numCurrSeqs) .assertionError
  raiseIf (o.blocksToSwapIn ≠ [] ∧ o.blocksToSwapOut ≠ []) .assertionError
  return o

/-- The swapped queue is only looked at when nothing was preempted. Its groups are never chunked. -/
def scheduleSwappedAfter (running : RunningRound ρ δ A T) :
    Except Exn (SwappedRound ρ δ A T) :=
  if running.outputs.preempted.length + running.outputs.swappedOut.length = 0 then
    running.scheduler.scheduleSwapped cfg false running.budget
  else return { scheduler := running.scheduler, budget := running.budget }

/-- The budget of a step. -/
def stepBudget : SchedulingBudget ρ :=
  { tokenBudget := cfg.maxNumBatchedTokens, maxNumSeqs := cfg.maxNumSeqs }

/-- `_schedule_chunked_prefill`. -/
def scheduleChunkedPrefill (s : Scheduler ρ δ A T) :
    Except Exn (SchedulerOutputs ρ δ × Scheduler ρ δ A T) := do
  let running ← s.scheduleRunning cfg env true (stepBudget cfg)
  let swappedIn ← scheduleSwappedAfter cfg running
  let prefills ← swappedIn.scheduler.schedulePrefills cfg env true swappedIn.budget
  let ro := running.outputs
  let so := swappedIn.outputs
  let po := prefills.outputs
  let s := prefills.scheduler
  let outputs ← checkOutputs cfg prefills.budget {
    scheduledSeqGroups := po.seqGroups ++ ro.prefillSeqGroups ++ so.prefillSeqGroups ++
      ro.decodeSeqGroups ++ so.decodeSeqGroups
    numPrefillGroups :=
      po.seqGroups.length + so.prefillSeqGroups.length + ro.prefillSeqGroups.length
    numBatchedTokens := prefills.budget.numScheduledTokens
    blocksToSwapIn := so.blocksToSwapIn
    blocksToSwapOut := ro.blocksToSwapOut
    blocksToCopy := ro.blocksToCopy ++ so.blocksToCopy
    ignoredSeqGroups := po.ignoredSeqGroups ++ so.infeasibleSeqGroups
    preempted := ro.preempted.length + ro.swappedOut.length }
  return (outputs, { s with
    waiting := ro.preempted.reverse ++ s.waiting
    running := s.running ++ groupsOf so.decodeSeqGroups ++ groupsOf so.prefillSeqGroups ++
      groupsOf ro.decodeSeqGroups ++ groupsOf ro.prefillSeqGroups ++ groupsOf po.seqGroups
    swapped := s.swapped ++ ro.swappedOut })

/-- The running requests are counted before anything is scheduled. -/
def countRunning (s : Scheduler ρ δ A T) : SchedulingBudget ρ :=
  s.running.foldl (fun budget g => budget.addNumSeqs g.requestId g.maxNumRunningSeqs)
    (stepBudget cfg)

/-- The prefills of `_schedule_default`, which wait for swapped groups. -/
def prefillsUnlessSwapped (s : Scheduler ρ δ A T) (budget : SchedulingBudget ρ) :
    Except Exn (PrefillRound ρ δ A T) :=
  if s.swapped = [] then s.schedulePrefills cfg env false budget
  else return { scheduler := s, budget := budget }

/-- The preemption of `_schedule_default`. -/
def preemptByPriority (prefills : PrefillRound ρ δ A T) :
    Except Exn (Scheduler ρ δ A T × SchedulingBudget ρ) :=
  if prefills.outputs.seqGroups.isEmpty ∧ cfg.priorityPolicy then
    schedulePriorityPreemption cfg prefills.scheduler prefills.budget
  else return (prefills.scheduler, prefills.budget)

/-- The running queue in `_schedule_default`, unless there are prefills. -/
def runningUnlessPrefills (prefills : PrefillRound ρ δ A T) (s : Scheduler ρ δ A T)
    (budget : SchedulingBudget ρ) : Except Exn (RunningRound ρ δ A T × SwappedRound ρ δ A T) :=
  if prefills.outputs.seqGroups.isEmpty then do
    let running ← s.scheduleRunning cfg env false budget
    let swappedIn ← scheduleSwappedAfter cfg running
    return (running, swappedIn)
  else return ({ scheduler := s, budget := budget }, { scheduler := s, budget := budget })

/-- `_schedule_default`. -/
def scheduleDefault (s : Scheduler ρ δ A T) :
    Except Exn (SchedulerOutputs ρ δ × Scheduler ρ δ A T) := do
  let prefills ← s.prefillsUnlessSwapped cfg env (s.countRunning cfg)
  let preempted ← preemptByPriority cfg prefills
  let scheduled ← runningUnlessPrefills cfg env prefills preempted.1 preempted.2
  let ro := scheduled.1.outputs
  let so := scheduled.2.outputs
  let po := prefills.outputs
  let s := scheduled.2.scheduler
  let outputs ← checkOutputs cfg scheduled.2.budget {
    scheduledSeqGroups := po.seqGroups ++ ro.decodeSeqGroups ++ so.decodeSeqGroups
    numPrefillGroups := po.seqGroups.length
    numBatchedTokens := scheduled.2.budget.numScheduledTokens
    blocksToSwapIn := so.blocksToSwapIn
    blocksToSwapOut := ro.blocksToSwapOut
    blocksToCopy := ro.blocksToCopy ++ so.blocksToCopy
    ignoredSeqGroups := po.ignoredSeqGroups ++ so.infeasibleSeqGroups
    preempted := ro.preempted.length + ro.swappedOut.length }
  raiseIf (ro.prefillSeqGroups.length ≠ 0) .assertionError
  raiseIf (so.prefillSeqGroups.length ≠ 0) .assertionError
  return (outputs, { s with
    waiting := ro.preempted.reverse ++ s.waiting
    running := s.running ++ groupsOf po.seqGroups ++ groupsOf ro.decodeSeqGroups ++
      groupsOf so.decodeSeqGroups
    swapped := s.swapped ++ ro.swappedOut })

/-! ## The metadata -/

/-- The actions on captured states that a step sends for a group, and the blocks it skips. -/
structure PrefillActions (δ : Type) where
  computedBlockNums : List ℕ := []
  restoreKey : Option (GdnPrefixKey δ) := none
  capturePoints : List (ℕ × GdnPrefixKey δ) := []
  evictKeys : List (GdnPrefixKey δ) := []
  segmentOffsets : List ℕ := []

/-- The states that a step may capture. -/
def captureTargets (s : Scheduler ρ δ A T) (g : SequenceGroup ρ δ) (logicalEndTokens : ℕ) :
    Except Exn (List (GdnPrefixKey δ)) :=
  if s.gdnPrefixPolicy.policy = .fine32 then do
    let blockHashes ← s.blockManager.getContentHashes cfg.tables g
    let stepKey ← finalCaptureKey blockHashes logicalEndTokens cfg.blockSize cfg.gdnRestoreMode
      cfg.gdnReplayAlignment
    return stepKey.toList
  else return (s.gdnRequestCaptureTargets.get? g.requestId).getD []

/-- The segments of a step. -/
def segmentOffsets (s : Scheduler ρ δ A T) (g : SequenceGroup ρ δ)
    (physicalContextTokens logicalEndTokens : ℕ) : Except Exn (List ℕ) :=
  if cfg.gdnRestoreMode = .hybrid64 ∧ s.gdnPrefixPolicy.policy = .admission64 then do
    let blockHashes ← s.blockManager.getContentHashes cfg.tables g
    canonicalDirectSegmentOffsets blockHashes physicalContextTokens logicalEndTokens cfg.blockSize
      cfg.maxNumBatchedTokens
  else return []

/-- The actions of a prefill step with prefix caching. -/
def prefillActions (s : Scheduler ρ δ A T) (g : SequenceGroup ρ δ) (tokenChunkSize : ℕ)
    (rawComputedBlockNums : List ℕ) : Except Exn (PrefillActions δ × Scheduler ρ δ A T) := do
  let numComputedTokens := g.numComputedTokens
  let isFirstPrefill := numComputedTokens = 0
  let logicalEndTokens := min g.len (numComputedTokens + tokenChunkSize)
  let restored :=
    if isFirstPrefill then (s.gdnRequestRestoreKeys.get? g.requestId).join else none
  let blocks ← skippedBlocks cfg.blockSize restored numComputedTokens rawComputedBlockNums
  recordCachedTokens (restoreTokens cfg.blockSize restored)
  let targets ← captureTargets cfg s g logicalEndTokens
  if s.gdnPrefixPolicy.policy ≠ .off then do
    let physicalContextTokens :=
      if isFirstPrefill then restoreTokens cfg.blockSize restored else numComputedTokens
    let offsets ← segmentOffsets cfg s g physicalContextTokens logicalEndTokens
    let points ← capturePointsForStep targets physicalContextTokens logicalEndTokens cfg.blockSize
    let admitted ← s.gdnPrefixPolicy.admitKeys (points.map (·.2))
    return ({
      computedBlockNums := blocks
      restoreKey := restored
      capturePoints := points
      evictKeys := admitted.1
      segmentOffsets := offsets }, { s with gdnPrefixPolicy := admitted.2 })
  else return ({ computedBlockNums := blocks, restoreKey := restored }, s)

/-- The metadata of a scheduled group. -/
def metadataOf (g : SequenceGroup ρ δ) (tokenChunkSize : ℕ) (blockTable : List ℕ)
    (actions : PrefillActions δ) : SequenceGroupMetadata ρ δ where
  requestId := g.requestId
  isPrompt := g.isPrefill
  seqId := g.seqId
  tokenIds := g.tokenIds
  numComputedTokens := g.numComputedTokens
  blockTable := blockTable
  doSample := ¬ (g.isPrefill ∧ tokenChunkSize + g.numComputedTokens < g.len)
  tokenChunkSize := tokenChunkSize
  computedBlockNums := actions.computedBlockNums
  gdnRestoreKey := actions.restoreKey
  gdnCapturePoints := if g.isPrefill then some actions.capturePoints else none
  gdnEvictKeys := if g.isPrefill then some actions.evictKeys else none
  gdnSegmentOffsets := if g.isPrefill then some actions.segmentOffsets else none

/-- The computed blocks of a scheduled group, with the access to its blocks recorded. -/
def accessBlocks (s : Scheduler ρ δ A T) (g : SequenceGroup ρ δ) :
    Except Exn (List ℕ × Scheduler ρ δ A T) :=
  if cfg.enablePrefixCaching then do
    let accessed ← s.blockManager.accessAllBlocksInSeq cfg.tables g env.now
    let computed ← accessed.getCommonComputedBlockIds cfg.tables g
    return (computed.1, { s with blockManager := computed.2 })
  else return ([], s)

/-- A round of the loop of `schedule` over the scheduled groups, which are all running. -/
def buildMetadata (s : Scheduler ρ δ A T) (scheduled : ScheduledSequenceGroup ρ δ) :
    Except Exn (SequenceGroupMetadata ρ δ × Scheduler ρ δ A T) := do
  let g := scheduled.seqGroup
  let table ← s.blockManager.blockTable g
  let accessed ← s.accessBlocks cfg env g
  let built ←
    if ¬ g.isPrefill then
      pure ({ computedBlockNums := accessed.1 }, accessed.2)
    else if cfg.enablePrefixCaching then
      accessed.2.prefillActions cfg g scheduled.tokenChunkSize accessed.1
    else pure ({}, accessed.2)
  let s :=
    if g.isPrefill ∧ g.len ≤ g.numComputedTokens + scheduled.tokenChunkSize then
      built.2.popGdnEntries g.requestId
    else built.2
  return (metadataOf g scheduled.tokenChunkSize (cfg.tables.physicalBlockIds table) built.1, s)

/-- The loop of `schedule` over the scheduled groups. -/
def buildAll : List (ScheduledSequenceGroup ρ δ) → Scheduler ρ δ A T →
    Except Exn (List (SequenceGroupMetadata ρ δ) × Scheduler ρ δ A T)
  | [], s => return ([], s)
  | scheduled :: rest, s => do
    let built ← s.buildMetadata cfg env scheduled
    let others ← buildAll rest built.2
    return (built.1 :: others.1, others.2)

/-- The transfers of the content cache join those of the preemptions. -/
def addPrefixSwaps (o : SchedulerOutputs ρ δ) (prefixSwaps : List (ℕ × ℕ) × List (ℕ × ℕ)) :
    Except Exn (SchedulerOutputs ρ δ) :=
  if prefixSwaps.1 = [] ∧ prefixSwaps.2 = [] then return o
  else do
    raiseIf (o.blocksToSwapIn ≠ [] ∨ o.blocksToSwapOut ≠ [])
      (.runtimeError ("content-addressed CPU KV transfers cannot share a scheduler step with " ++
        "request-level preemption swap"))
    return { o with
      blocksToSwapIn := o.blocksToSwapIn ++ prefixSwaps.1
      blocksToSwapOut := o.blocksToSwapOut ++ prefixSwaps.2 }

/-- `_schedule`. -/
def scheduleQueues (s : Scheduler ρ δ A T) :
    Except Exn (SchedulerOutputs ρ δ × Scheduler ρ δ A T) :=
  if cfg.chunkedPrefillEnabled then s.scheduleChunkedPrefill cfg env else s.scheduleDefault cfg env

/-- `schedule`. -/
def schedule (s : Scheduler ρ δ A T) :
    Except Exn (List (SequenceGroupMetadata ρ δ) × SchedulerOutputs ρ δ × Scheduler ρ δ A T) := do
  let begun := { s with blockManager := s.blockManager.beginPrefixCacheStep cfg.tables }
  let queued ← begun.scheduleQueues cfg env
  let drained := queued.2.blockManager.getAndResetPrefixSwaps cfg.tables
  let outputs ← addPrefixSwaps queued.1 drained.1
  let built ← buildAll cfg env outputs.scheduledSeqGroups
    { queued.2 with blockManager := drained.2 }
  return (built.1, outputs, { built.2 with
    blockManager := outputs.scheduledSeqGroups.foldl
      (fun blockManager _ => blockManager.markBlocksAsComputed cfg.tables) built.2.blockManager })

end Ikun.Scheduling.Scheduler
