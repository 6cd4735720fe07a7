import Ikun.Scheduler.Schedule

/-!
# Runs of the engine

Between the steps of the scheduler the engine adds and aborts requests, executes the scheduled
groups on the worker, advances them by their chunks and processes what the model has put out. With
asynchronous output processing the outputs of a step are processed while the next step executes.

A worker is a relation: the states in which it can be after it has executed the metadata of a step
and was told which requests are finished.
-/

namespace Ikun.Scheduling

open Except

variable {ρ δ A T W : Type} [DecidableEq ρ] [DecidableEq δ]

/-- What a worker does with the metadata of a step and the ids of the finished requests. -/
abbrev Worker (ρ δ W : Type) := List (SequenceGroupMetadata ρ δ) → List ρ → W → W → Prop

/-- The engine. The requests that were added, with their sequences, and the ids of the finished
requests that were handed over to the worker are history. -/
structure Engine (ρ δ A T W : Type) where
  scheduler : Scheduler ρ δ A T
  worker : W
  added : List (ρ × ℕ) := []
  reported : List ρ := []

namespace Scheduler

variable (cfg : SchedulerConfig A T δ) (s : Scheduler ρ δ A T)

/-- The groups that the scheduler holds. -/
def liveGroups : List (SequenceGroup ρ δ) := s.waiting ++ s.running ++ s.swapped ++ s.asyncStopped

/-- A group with the verdict of the output processor. -/
def withVerdict (verdicts : ρ → Option FinishReason) (g : SequenceGroup ρ δ) : SequenceGroup ρ δ :=
  match verdicts g.requestId with
  | some reason => if g.isFinished then g else { g with status := .finished reason }
  | none => g

/-- `_process_model_outputs`: the outputs finish some groups, which are freed. -/
def processModelOutputs (verdicts : ρ → Option FinishReason) :
    Except Exn (Scheduler ρ δ A T) :=
  let processed := { s with
    running := s.running.map (withVerdict verdicts)
    asyncStopped := s.asyncStopped.map (withVerdict verdicts) }
  let finishedNow := (s.running ++ s.asyncStopped).any fun g =>
    ¬ g.isFinished ∧ (verdicts g.requestId).isSome
  if finishedNow then processed.freeFinishedSeqGroups cfg else return processed

/-- A group after the execution of its chunk: its computed tokens and the sampled one. -/
def advanceGroup (scheduled : List (ScheduledSequenceGroup ρ δ)) (sampled : ρ → ℕ)
    (g : SequenceGroup ρ δ) : Except Exn (SequenceGroup ρ δ) :=
  match scheduled.find? fun sg => sg.seqGroup.requestId = g.requestId with
  | none => return g
  | some sg =>
    if g.isFinished then return g
    else do
      let advanced ← g.updateNumComputedTokens sg.tokenChunkSize
      return if g.isPrefill ∧ sg.tokenChunkSize + g.numComputedTokens < g.len then advanced
        else advanced.appendTokenId (sampled g.requestId)

/-- `_advance_to_next_step`. -/
def advance (scheduled : List (ScheduledSequenceGroup ρ δ)) (sampled : ρ → ℕ) :
    Except Exn (Scheduler ρ δ A T) := do
  let running ← s.running.mapM (advanceGroup scheduled sampled)
  return { s with running := running }

end Scheduler

/-- What happens to the engine. In a step the worker executes what was scheduled, and the outputs
that were pending are processed; the outputs of the step itself are processed by an event of their
own or in the next step. -/
inductive Event (ρ δ : Type)
  | addRequest (g : SequenceGroup ρ δ)
  | abortRequest (requestIds : List ρ) (parent : ρ → Option ρ)
  | step (env : Environment ρ δ) (verdicts : ρ → Option FinishReason) (sampled : ρ → ℕ)
  | processOutputs (verdicts : ρ → Option FinishReason)

/-- A new request: its sequence is new, and no request of that id is in the scheduler. -/
structure Engine.NewRequest (e : Engine ρ δ A T W) (g : SequenceGroup ρ δ) : Prop where
  status_eq : g.status = .waiting
  stage_eq : g.stage = .prefill
  numComputedTokens_eq : g.numComputedTokens = 0
  seqId_new : ∀ p ∈ e.added, p.2 ≠ g.seqId
  requestId_new : ∀ g' ∈ e.scheduler.liveGroups, g'.requestId ≠ g.requestId

/-- A step of the engine: the finished requests are handed over with the metadata, unless nothing
is scheduled. -/
def Engine.Stepped (cfg : SchedulerConfig A T δ) (worker : Worker ρ δ W) (env : Environment ρ δ)
    (verdicts : ρ → Option FinishReason) (sampled : ρ → ℕ) (e e' : Engine ρ δ A T W) : Prop :=
  ∃ metadata outputs scheduled processed,
    e.scheduler.schedule cfg env = .ok (metadata, outputs, scheduled) ∧
    (if outputs.isEmpty then e'.worker = e.worker
      else worker metadata scheduled.finishedRequestsIds e.worker e'.worker) ∧
    scheduled.getAndResetFinishedRequestsIds.2.processModelOutputs cfg verdicts = .ok processed ∧
    processed.advance outputs.scheduledSeqGroups sampled = .ok e'.scheduler ∧
    e'.added = e.added ∧ e'.reported = e.reported ++ scheduled.finishedRequestsIds

/-- What an event does. -/
inductive Engine.Next (cfg : SchedulerConfig A T δ) (worker : Worker ρ δ W)
    (e : Engine ρ δ A T W) : Event ρ δ → Engine ρ δ A T W → Prop
  | addRequest {g : SequenceGroup ρ δ} : e.NewRequest g →
      Next cfg worker e (.addRequest g) { e with
        scheduler := e.scheduler.addSeqGroup g
        added := e.added ++ [(g.requestId, g.seqId)] }
  | abortRequest {requestIds : List ρ} {parent : ρ → Option ρ} {s : Scheduler ρ δ A T} :
      e.scheduler.abortSeqGroup cfg requestIds parent = .ok s →
      Next cfg worker e (.abortRequest requestIds parent) { e with scheduler := s }
  | step {env : Environment ρ δ} {verdicts : ρ → Option FinishReason} {sampled : ρ → ℕ}
      {e' : Engine ρ δ A T W} : e.Stepped cfg worker env verdicts sampled e' →
      Next cfg worker e (.step env verdicts sampled) e'
  | processOutputs {verdicts : ρ → Option FinishReason} {s : Scheduler ρ δ A T} :
      e.scheduler.processModelOutputs cfg verdicts = .ok s →
      Next cfg worker e (.processOutputs verdicts) { e with scheduler := s }

/-- The scheduler at the start. -/
def Scheduler.init (blockManager : BlockSpaceManager ρ δ A T)
    (policy : GdnPrefix.CachePolicy) : Scheduler ρ δ A T :=
  { blockManager := blockManager, gdnPrefixPolicy := { policy := policy } }

/-- The states of the engine in the runs whose events meet a condition on the state before them,
from an empty block manager on. -/
inductive Engine.Run (cfg : SchedulerConfig A T δ) (worker : Worker ρ δ W)
    (Allowed : Engine ρ δ A T W → Event ρ δ → Prop) (start : W) : Engine ρ δ A T W → Prop
  | init {blockManager : BlockSpaceManager ρ δ A T} {policy : GdnPrefix.CachePolicy} :
      blockManager.blockTables = .empty → blockManager.requestLocalNamespace = .empty →
      blockManager.warnedMmNamespaceRequests = [] →
      Run cfg worker Allowed start
        { scheduler := .init blockManager policy, worker := start }
  | next {e e' : Engine ρ δ A T W} {event : Event ρ δ} : Run cfg worker Allowed start e →
      Allowed e event → e.Next cfg worker event e' → Run cfg worker Allowed start e'

/-- What holds at the start and is kept by every allowed event holds in every state of a run. -/
theorem Engine.Run.induct {cfg : SchedulerConfig A T δ} {worker : Worker ρ δ W}
    {Allowed : Engine ρ δ A T W → Event ρ δ → Prop} {start : W}
    {I : Engine ρ δ A T W → Prop}
    (hinit : ∀ (blockManager : BlockSpaceManager ρ δ A T) (policy : GdnPrefix.CachePolicy),
      blockManager.blockTables = .empty → blockManager.requestLocalNamespace = .empty →
      blockManager.warnedMmNamespaceRequests = [] →
      I { scheduler := .init blockManager policy, worker := start })
    (hnext : ∀ e e' event, I e → Allowed e event → e.Next cfg worker event e' → I e')
    {e : Engine ρ δ A T W} (h : Engine.Run cfg worker Allowed start e) : I e := by
  induction h with
  | init htables hnamespaces hwarned => exact hinit _ _ htables hnamespaces hwarned
  | next _ hallowed hstep ih => exact hnext _ _ _ ih hallowed hstep

end Ikun.Scheduling
