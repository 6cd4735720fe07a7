import Ikun.PrefixStates.Batch
import Ikun.Scheduler.Engine

/-!
# The index and the store agree

The scheduler keeps an index of the captured states that it never reads, and the worker keeps the
states themselves; they exchange the actions of a step only. As long as no step has two prompts, in
every state of a run the store has the states of the index, and the worker refuses a step only when a
prompt with actions shares it with other sequences.

The actions are those that the worker would need to restore a state: the state is there, and nothing
is evicted that is restored (`PromptActions`, `forward_spec`). But `schedule` never sends them, for the
first step of a prompt that starts from a captured state raises an `AttributeError` when its cached
tokens are recorded (`schedule_restores`).
-/

namespace Ikun.PrefixStates

open Except GdnPrefix Scheduling Scheduling.Scheduler

variable {ρ δ A T S : Type} [DecidableEq ρ] [DecidableEq δ]
variable {cfg : SchedulerConfig A T δ} {env : Environment ρ δ}
  {s s' : Scheduler ρ δ A T} {g : SequenceGroup ρ δ}

/-! ## A step of the scheduler -/

/-- What holds of the scheduler between the steps. -/
structure Settled (cfg : SchedulerConfig A T δ) (s : Scheduler ρ δ A T) : Prop where
  residents : Residents s.gdnPrefixPolicy
  running : ∀ g ∈ s.running, Progressed g
  swapped : ∀ g ∈ s.swapped, Progressed g
  waiting : ∀ g ∈ s.waiting, Unstarted g
  unplanned : Unplanned cfg cfg.chunkedPrefillEnabled s

/-- What `schedule` makes of the queues, and of the index if there is at most one prompt. -/
structure Scheduled (cfg : SchedulerConfig A T δ) (s : Scheduler ρ δ A T)
    (metadata : List (SequenceGroupMetadata ρ δ)) (outputs : SchedulerOutputs ρ δ)
    (s' : Scheduler ρ δ A T) : Prop where
  running : ∀ g ∈ s'.running, Progressed g ∨ g ∈ groupsOf outputs.scheduledSeqGroups
  swapped : ∀ g ∈ s'.swapped, Progressed g
  waiting : ∀ g ∈ s'.waiting, Unstarted g
  chunk_pos : ∀ sg ∈ outputs.scheduledSeqGroups, 0 < sg.tokenChunkSize
  given : ∀ md ∈ metadata, (gdnActions md).given = md.isPrompt
  batch : (promptsOf metadata).length ≤ 1 → Unplanned cfg cfg.chunkedPrefillEnabled s' ∧
    ∃ p, Reordered s.gdnPrefixPolicy p none ∧ OnePromptBatch cfg p s'.gdnPrefixPolicy metadata

omit [DecidableEq δ] in
/-- Nothing but the policy decides whether a request is planned. -/
theorem Unplanned.of_entries {enableChunking : Bool} (h : Unplanned cfg enableChunking s)
    (hentries : ∀ requestId key, restoreEntry s' requestId = some key →
      restoreEntry s requestId = some key) : Unplanned cfg enableChunking s' := by
  intro hnot requestId
  cases hentry : restoreEntry s' requestId with
  | none => rfl
  | some key => exact absurd (hentries requestId key hentry) (by rw [h hnot requestId]; nofun)

/-- The metadata of a group leaves the queues alone. -/
theorem sameQueues_buildMetadata {scheduled : ScheduledSequenceGroup ρ δ}
    {md : SequenceGroupMetadata ρ δ} (hok : s.buildMetadata cfg env scheduled = .ok (md, s')) :
    SameQueues s s' := by
  have hpopped : ∀ (built : Scheduler ρ δ A T) (c : Prop) [Decidable c],
      SameQueues built (if c then built.popGdnEntries scheduled.seqGroup.requestId else built) :=
    fun built c _ => by split <;> exact ⟨rfl, rfl, rfl, rfl⟩
  unfold buildMetadata at hok
  obtain ⟨table, -, hok⟩ := bind_eq_ok.mp hok
  obtain ⟨⟨blocks, accessed⟩, haccessed, hok⟩ := bind_eq_ok.mp hok
  obtain ⟨m, rfl⟩ := quiet_accessBlocks haccessed
  have haccessed : SameQueues s { s with blockManager := m } := ⟨rfl, rfl, rfl, rfl⟩
  dsimp only at hok
  split at hok
  · obtain ⟨-, rfl⟩ := Prod.mk.inj (Except.ok.inj hok)
    exact haccessed.trans (hpopped _ _)
  · split at hok
    · obtain ⟨⟨actions, built⟩, hbuilt, hok⟩ := bind_eq_ok.mp hok
      obtain ⟨-, rfl⟩ := Prod.mk.inj (Except.ok.inj hok)
      obtain ⟨policy, rfl⟩ := prefillActions_ok hbuilt
      have hbuilt : SameQueues s { s with blockManager := m, gdnPrefixPolicy := policy } :=
        ⟨rfl, rfl, rfl, rfl⟩
      exact hbuilt.trans (hpopped { s with blockManager := m, gdnPrefixPolicy := policy } _)
    · obtain ⟨-, rfl⟩ := Prod.mk.inj (Except.ok.inj hok)
      exact haccessed.trans (hpopped _ _)

theorem sameQueues_buildAll {scheduled : List (ScheduledSequenceGroup ρ δ)}
    {metadata : List (SequenceGroupMetadata ρ δ)}
    (hok : buildAll cfg env scheduled s = .ok (metadata, s')) : SameQueues s s' := by
  induction scheduled generalizing s metadata with
  | nil =>
    obtain ⟨-, rfl⟩ := Prod.mk.inj (Except.ok.inj hok)
    exact .refl s
  | cons sg scheduled ih =>
    obtain ⟨⟨md, s₁⟩, hmd, hok⟩ := bind_eq_ok.mp hok
    obtain ⟨⟨others, s₂⟩, hothers, hok⟩ := bind_eq_ok.mp hok
    obtain ⟨-, rfl⟩ := Prod.mk.inj (Except.ok.inj hok)
    exact (sameQueues_buildMetadata hmd).trans (ih hothers)

/-- The actions of a prefill step restore nothing: the recording of its cached tokens would have
raised. -/
theorem prefillActions_restores {chunk : ℕ} {raw : List ℕ} {actions : PrefillActions δ}
    (hok : s.prefillActions cfg g chunk raw = .ok (actions, s')) :
    restoreTokens cfg.blockSize actions.restoreKey = 0 := by
  obtain ⟨blocks, -, hok⟩ := bind_eq_ok.mp hok
  obtain ⟨_, hrecorded, hok⟩ := bind_eq_ok.mp hok
  have hnone := recordCachedTokens_ok.mp hrecorded
  obtain ⟨targets, -, hok⟩ := bind_eq_ok.mp hok
  split at hok
  · obtain ⟨offsets, -, hok⟩ := bind_eq_ok.mp hok
    obtain ⟨points, -, hok⟩ := bind_eq_ok.mp hok
    obtain ⟨admitted, -, hok⟩ := bind_eq_ok.mp hok
    obtain ⟨rfl, -⟩ := Prod.mk.inj (Except.ok.inj hok)
    exact hnone
  · obtain ⟨rfl, -⟩ := Prod.mk.inj (Except.ok.inj hok)
    exact hnone

/-- Nor does the metadata of a group. -/
theorem buildMetadata_restores {scheduled : ScheduledSequenceGroup ρ δ}
    {md : SequenceGroupMetadata ρ δ} (hok : s.buildMetadata cfg env scheduled = .ok (md, s')) :
    restoreTokens cfg.blockSize md.gdnRestoreKey = 0 := by
  unfold buildMetadata at hok
  obtain ⟨table, -, hok⟩ := bind_eq_ok.mp hok
  obtain ⟨⟨blocks, accessed⟩, -, hok⟩ := bind_eq_ok.mp hok
  dsimp only at hok
  split at hok
  · obtain ⟨rfl, -⟩ := Prod.mk.inj (Except.ok.inj hok)
    rfl
  · split at hok
    · obtain ⟨⟨actions, built⟩, hbuilt, hok⟩ := bind_eq_ok.mp hok
      obtain ⟨rfl, -⟩ := Prod.mk.inj (Except.ok.inj hok)
      exact prefillActions_restores hbuilt
    · obtain ⟨rfl, -⟩ := Prod.mk.inj (Except.ok.inj hok)
      rfl

/-- A step that restores a state does not get past `schedule`. -/
theorem schedule_restores {metadata : List (SequenceGroupMetadata ρ δ)}
    {outputs : SchedulerOutputs ρ δ}
    (hok : s.schedule cfg env = .ok (metadata, outputs, s')) :
    ∀ md ∈ metadata, restoreTokens cfg.blockSize md.gdnRestoreKey = 0 := by
  have hall : ∀ (scheduled : List (ScheduledSequenceGroup ρ δ)) (s s' : Scheduler ρ δ A T)
      (metadata : List (SequenceGroupMetadata ρ δ)),
      buildAll cfg env scheduled s = .ok (metadata, s') →
        ∀ md ∈ metadata, restoreTokens cfg.blockSize md.gdnRestoreKey = 0 := by
    intro scheduled
    induction scheduled with
    | nil =>
      intro s s' metadata hok md hmd
      obtain ⟨rfl, -⟩ := Prod.mk.inj (Except.ok.inj hok)
      exact absurd hmd List.not_mem_nil
    | cons sg scheduled ih =>
      intro s s' metadata hok md hmd
      obtain ⟨⟨first, s₁⟩, hfirst, hok⟩ := bind_eq_ok.mp hok
      obtain ⟨⟨others, s₂⟩, hothers, hok⟩ := bind_eq_ok.mp hok
      obtain ⟨rfl, -⟩ := Prod.mk.inj (Except.ok.inj hok)
      cases List.mem_cons.mp hmd with
      | inl heq => exact heq ▸ buildMetadata_restores hfirst
      | inr hmem => exact ih _ _ _ hothers md hmem
  obtain ⟨queued, -, hok⟩ := bind_eq_ok.mp hok
  obtain ⟨swapped, -, hok⟩ := bind_eq_ok.mp hok
  obtain ⟨⟨built, s₁⟩, hbuilt, hok⟩ := bind_eq_ok.mp hok
  obtain ⟨rfl, -⟩ := Prod.mk.inj (Except.ok.inj hok)
  exact hall _ _ _ _ hbuilt

/-- `schedule`, between steps. -/
theorem schedule_scheduled {metadata : List (SequenceGroupMetadata ρ δ)}
    {outputs : SchedulerOutputs ρ δ} (h : Settled cfg s)
    (hok : s.schedule cfg env = .ok (metadata, outputs, s')) : Scheduled cfg s metadata outputs s' := by
  obtain ⟨⟨outputs₁, queued⟩, hqueued, hok⟩ := bind_eq_ok.mp hok
  obtain ⟨outputs₂, hswaps, hok⟩ := bind_eq_ok.mp hok
  obtain ⟨⟨metadata', built⟩, hbuilt, hok⟩ := bind_eq_ok.mp hok
  obtain ⟨rfl, hrest⟩ := Prod.mk.inj (Except.ok.inj hok)
  obtain ⟨rfl, rfl⟩ := Prod.mk.inj hrest
  obtain ⟨hgroups, -⟩ := addPrefixSwaps_ok hswaps
  -- the block manager is all that changes in front of the queues
  have hq := scheduleQueues_queued (s := { s with
    blockManager := s.blockManager.beginPrefixCacheStep cfg.tables }) h.running h.swapped
    h.waiting h.unplanned hqueued
  have hqueues := sameQueues_buildAll hbuilt
  have hrunning : built.running = queued.running := hqueues.running
  have hswapped : built.swapped = queued.swapped := hqueues.swapped
  have hwaiting : built.waiting = queued.waiting := hqueues.waiting
  obtain ⟨hprompts, hgiven⟩ := buildAll_prompts hbuilt
  refine ⟨fun g hg => ?_, fun g hg => hq.swapped g (hswapped ▸ hg),
    fun g hg => hq.waiting g (hwaiting ▸ hg), fun sg hsg => hq.chunk_pos sg (hgroups ▸ hsg), hgiven,
    fun hone => ?_⟩
  · rw [hgroups]
    exact hq.running g (hrunning ▸ hg)
  · have hcount : (promptsOf metadata').length = outputs₁.numPrefillGroups := by
      rw [hprompts, hgroups]
      exact hq.prompts
    have hone' : outputs₁.numPrefillGroups ≤ 1 := hcount ▸ hone
    have hresidents : Residents queued.gdnPrefixPolicy := hq.index.residents h.residents
    dsimp only at hbuilt
    rw [hgroups] at hbuilt
    have hbatch := buildAll_onePrompt (s := { queued with
      blockManager := (queued.blockManager.getAndResetPrefixSwaps cfg.tables).2 }) hresidents
      ((Nat.le_of_eq hq.prompts).trans hone') (fun sg hsg hprefill => by
        obtain ⟨hfits, hlast⟩ := hq.single hone' sg hsg hprefill
        exact ⟨⟨hfits.chunk_pos, hfits.computed_lt, hfits.query_le⟩, hlast⟩) hbuilt
    exact ⟨Unplanned.of_entries (s := built) (Unplanned.of_entries (s := queued) hq.unplanned
      hbatch.2) fun _ _ => id, queued.gdnPrefixPolicy, hq.index, hbatch.1⟩

/-! ## The other parts of an event -/

omit [DecidableEq δ] in
/-- What leaves the index and the queues alone round by round does so at the end. -/
theorem quiet_foldlM {f : Scheduler ρ δ A T → SequenceGroup ρ δ → Except Exn (Scheduler ρ δ A T)}
    (hround : ∀ {s s' : Scheduler ρ δ A T} {g : SequenceGroup ρ δ}, f s g = .ok s' → Quiet s s')
    {groups : List (SequenceGroup ρ δ)} (hok : groups.foldlM f s = .ok s') : Quiet s s' := by
  induction groups generalizing s with
  | nil =>
    obtain rfl := Except.ok.inj hok
    exact .refl s
  | cons g groups ih =>
    rw [List.foldlM_cons] at hok
    obtain ⟨s₁, hs₁, hok⟩ := bind_eq_ok.mp hok
    exact (hround hs₁).trans (ih hok)

omit [DecidableEq δ] in
theorem quiet_freeAsyncStopped (hok : s.freeAsyncStopped cfg g = .ok s') : Quiet s s' := by
  unfold freeAsyncStopped freeFinishedSeqs at hok
  have hreported : Quiet s ((s.freeSeqGroupCrossAttnBlocks g).reportFinished g) :=
    ⟨gdnCalm_of_eq rfl rfl, ⟨rfl, rfl, rfl, rfl⟩⟩
  split at hok
  · exact hreported.trans (quiet_freeSeq hok)
  · obtain rfl := Except.ok.inj hok
    exact hreported

omit [DecidableEq δ] in
theorem quiet_abortGroup (hok : s.abortGroup cfg g = .ok s') : Quiet s s' := by
  have hreported : Quiet s (s.reportFinished g) :=
    ⟨gdnCalm_of_eq rfl rfl, ⟨rfl, rfl, rfl, rfl⟩⟩
  unfold abortGroup at hok
  dsimp only at hok
  split at hok
  · obtain rfl := Except.ok.inj hok
    exact hreported.trans (quiet_blockManager _ _)
  · obtain ⟨freed, hfreed, hok⟩ := bind_eq_ok.mp hok
    obtain rfl := Except.ok.inj hok
    exact (hreported.trans (quiet_freeSeq hfreed)).trans (quiet_blockManager freed _)

omit [DecidableEq δ] in
/-- What is calm and puts no new groups on the queues keeps the scheduler settled. -/
theorem Settled.of_calm (h : Settled cfg s) (hcalm : GdnCalm s s')
    (hrunning : ∀ g ∈ s'.running, Progressed g) (hswapped : ∀ g ∈ s'.swapped, Progressed g)
    (hwaiting : ∀ g ∈ s'.waiting, Unstarted g) : Settled cfg s' :=
  ⟨hcalm.policy ▸ h.residents, hrunning, hswapped, hwaiting, h.unplanned.of_entries hcalm.entries⟩

omit [DecidableEq δ] in
/-- `abort_seq_group`. -/
theorem settled_abortSeqGroup {requestIds : List ρ} {parent : ρ → Option ρ} (h : Settled cfg s)
    (hok : s.abortSeqGroup cfg requestIds parent = .ok s') :
    Settled cfg s' ∧ s'.gdnPrefixPolicy = s.gdnPrefixPolicy := by
  obtain ⟨s₁, hs₁, hok⟩ := bind_eq_ok.mp hok
  obtain ⟨s₂, hs₂, hok⟩ := bind_eq_ok.mp hok
  have hwaiting := quiet_foldlM quiet_abortGroup hs₁
  have hrunning := quiet_foldlM quiet_abortGroup hs₂
  have hswapped := quiet_foldlM quiet_abortGroup hok
  have hcalm : GdnCalm s s' := by
    have hcalm₁ : GdnCalm s s₁ := ⟨hwaiting.calm.policy, hwaiting.calm.entries⟩
    have hcalm₂ : GdnCalm s₁ s₂ := ⟨hrunning.calm.policy, hrunning.calm.entries⟩
    exact (hcalm₁.trans hcalm₂).trans ⟨hswapped.calm.policy, hswapped.calm.entries⟩
  refine ⟨h.of_calm hcalm (fun g hg => ?_) (fun g hg => ?_) fun g hg => ?_, hcalm.policy⟩
  · have hqueue : s'.running = s.running.filter fun g => ¬ Aborts requestIds parent g :=
      hswapped.queues.running.trans hrunning.queues.running
    exact h.running g (List.mem_of_mem_filter (hqueue ▸ hg))
  · have hqueue : s'.swapped = s.swapped.filter fun g => ¬ Aborts requestIds parent g :=
      hswapped.queues.swapped
    exact h.swapped g (List.mem_of_mem_filter (hqueue ▸ hg))
  · have hqueue : s'.waiting = s.waiting.filter fun g => ¬ Aborts requestIds parent g :=
      hswapped.queues.waiting.trans (hrunning.queues.waiting.trans hwaiting.queues.waiting)
    exact h.waiting g (List.mem_of_mem_filter (hqueue ▸ hg))

omit [DecidableEq δ] in
/-- `_process_model_outputs` finishes some running groups, and keeps some. -/
theorem processModelOutputs_calm {verdicts : ρ → Option FinishReason}
    (hok : s.processModelOutputs cfg verdicts = .ok s') :
    GdnCalm s s' ∧ s'.waiting = s.waiting ∧ s'.swapped = s.swapped ∧
      ∀ g ∈ s'.running, ∃ g₀ ∈ s.running, withVerdict verdicts g₀ = g := by
  unfold processModelOutputs at hok
  dsimp only at hok
  split at hok
  · obtain ⟨freed, hfreed, hok⟩ := bind_eq_ok.mp hok
    obtain ⟨stopped, hstopped, hok⟩ := bind_eq_ok.mp hok
    obtain rfl := Except.ok.inj hok
    have hrunning := quiet_foldlM quiet_freeFinishedSeqGroup hfreed
    have hasync := quiet_foldlM quiet_freeAsyncStopped hstopped
    refine ⟨⟨hasync.calm.policy.trans hrunning.calm.policy, fun requestId key hkey =>
      hrunning.calm.entries _ _ (hasync.calm.entries requestId key hkey)⟩,
      hasync.queues.waiting.trans hrunning.queues.waiting,
      hasync.queues.swapped.trans hrunning.queues.swapped, fun g hg => ?_⟩
    have hqueue : stopped.running
        = (s.running.map (withVerdict verdicts)).filter fun g => ¬ g.isFinished :=
      hasync.queues.running
    exact List.mem_map.mp (List.mem_of_mem_filter (hqueue ▸ hg))
  · obtain rfl := Except.ok.inj hok
    exact ⟨gdnCalm_of_eq rfl rfl, rfl, rfl, fun g hg => List.mem_map.mp hg⟩

omit [DecidableEq ρ] [DecidableEq δ] in
theorem Progressed.withVerdict {verdicts : ρ → Option FinishReason} (h : Progressed g) :
    Progressed (withVerdict verdicts g) := by
  unfold Scheduler.withVerdict
  split
  · split
    · exact h
    · exact .inl rfl
  · exact h

omit [DecidableEq ρ] [DecidableEq δ] in
theorem requestId_withVerdict (verdicts : ρ → Option FinishReason) (g : SequenceGroup ρ δ) :
    (withVerdict verdicts g).requestId = g.requestId := by
  unfold withVerdict
  split
  · split <;> rfl
  · rfl

omit [DecidableEq δ] in
/-- A group that is scheduled has computed tokens after the step. -/
theorem advanceGroup_progressed {scheduled : List (ScheduledSequenceGroup ρ δ)} {sampled : ρ → ℕ}
    {g' : SequenceGroup ρ δ} (hchunks : ∀ sg ∈ scheduled, 0 < sg.tokenChunkSize)
    (hg : Progressed g ∨ ∃ sg ∈ scheduled, sg.seqGroup.requestId = g.requestId)
    (hok : advanceGroup scheduled sampled g = .ok g') : Progressed g' := by
  unfold advanceGroup at hok
  split at hok
  · next hnone =>
    obtain rfl := Except.ok.inj hok
    refine hg.resolve_right fun ⟨sg, hsg, hid⟩ => ?_
    exact absurd (decide_eq_true hid) (List.find?_eq_none.mp hnone sg hsg)
  · next sg hsome =>
    split at hok
    · next hfinished =>
      obtain rfl := Except.ok.inj hok
      exact .inl hfinished
    · obtain ⟨advanced, hadvanced, hok⟩ := bind_eq_ok.mp hok
      obtain rfl := Except.ok.inj hok
      have hpos : 0 < advanced.numComputedTokens := by
        obtain ⟨_, -, hadvanced⟩ := bind_eq_ok.mp hadvanced
        obtain rfl := Except.ok.inj hadvanced
        exact Nat.lt_of_lt_of_le (hchunks sg (List.mem_of_find?_eq_some hsome))
          (Nat.le_add_left _ _)
      split
      · exact .inr hpos
      · exact .inr hpos

omit [DecidableEq δ] in
/-- The rest of a step of the engine settles the scheduler. -/
theorem settled_advance {metadata : List (SequenceGroupMetadata ρ δ)}
    {outputs : SchedulerOutputs ρ δ} {scheduled processed : Scheduler ρ δ A T}
    {verdicts : ρ → Option FinishReason} {sampled : ρ → ℕ}
    (h : Scheduled cfg s metadata outputs scheduled) (hresidents : Residents scheduled.gdnPrefixPolicy)
    (hunplanned : Unplanned cfg cfg.chunkedPrefillEnabled scheduled)
    (hprocessed : scheduled.getAndResetFinishedRequestsIds.2.processModelOutputs cfg verdicts
      = .ok processed)
    (hok : processed.advance outputs.scheduledSeqGroups sampled = .ok s') :
    Settled cfg s' ∧ s'.gdnPrefixPolicy = scheduled.gdnPrefixPolicy := by
  obtain ⟨hcalm, hwaiting, hswapped, hrunning⟩ := processModelOutputs_calm hprocessed
  obtain ⟨advanced, hadvanced, hok⟩ := bind_eq_ok.mp hok
  obtain rfl := Except.ok.inj hok
  have hpolicy : processed.gdnPrefixPolicy = scheduled.gdnPrefixPolicy := hcalm.policy
  refine ⟨⟨hpolicy ▸ hresidents, fun g' hg' => ?_, fun g hg => h.swapped g (hswapped ▸ hg),
    fun g hg => h.waiting g (hwaiting ▸ hg), hunplanned.of_entries hcalm.entries⟩, hpolicy⟩
  obtain ⟨g, hg, hg'⟩ := mem_of_mapM_ok hadvanced hg'
  obtain ⟨g₀, hg₀, rfl⟩ := hrunning g hg
  refine advanceGroup_progressed h.chunk_pos ?_ hg'
  cases h.running g₀ hg₀ with
  | inl hprogressed => exact .inl hprogressed.withVerdict
  | inr hscheduled =>
    obtain ⟨sg, hsg, rfl⟩ := List.mem_map.mp hscheduled
    exact .inr ⟨sg, hsg, (requestId_withVerdict verdicts sg.seqGroup).symm⟩

/-! ## The worker -/

variable {text : DigestText δ} {store : Store δ S}

omit [DecidableEq ρ] in
/-- Without a prompt the store stays. -/
theorem forward_decodes (layers : S → ℕ → S) (slot : S) (numSeqs : ℕ) :
    forward text layers slot ⟨numSeqs, 0, {}⟩ store
      = .ok (layers slot (ModelInput.mk numSeqs 0 ({} : GdnActions δ)).queryLen, store) := by
  unfold forward
  rw [raiseIf_bind fun h => Bool.false_ne_true h.1]
  rfl

/-- The three answers of the worker to the metadata of a step: it refuses two prompts, it refuses an
action in a batch of several sequences, and otherwise its store follows the index. -/
structure Answered (text : DigestText δ) (blockSize : ℕ)
    (metadata : List (SequenceGroupMetadata ρ δ)) (store : Store δ S)
    (p' : GdnPrefixStatePolicy δ) : Prop where
  several : 1 < (promptsOf metadata).length → ∀ layers slot,
    executeModel text blockSize layers slot metadata store = .error severalPromptsError
  refused : (promptsOf metadata).length ≤ 1 → (∃ md ∈ metadata, SendsAction md) →
    metadata.length ≠ 1 → ∀ layers slot,
    executeModel text blockSize layers slot metadata store = .error singleSequenceError
  taken : (promptsOf metadata).length ≤ 1 →
    ((∃ md ∈ metadata, SendsAction md) → metadata.length = 1) → ∀ layers slot,
    ∃ r, executeModel text blockSize layers slot metadata store = .ok r ∧ Follows r.2 p'

omit [DecidableEq ρ] [DecidableEq δ] in
theorem not_isEmpty_of_mem {md : SequenceGroupMetadata ρ δ}
    {metadata : List (SequenceGroupMetadata ρ δ)} (hmem : md ∈ metadata) : ¬ metadata.isEmpty :=
  fun hempty => List.not_mem_nil (List.isEmpty_iff.mp hempty ▸ hmem)

omit [DecidableEq ρ] in
/-- The worker has no input for a batch with two prompts. -/
theorem executeModel_several {blockSize : ℕ} {metadata : List (SequenceGroupMetadata ρ δ)}
    (hgiven : ∀ md ∈ metadata, (gdnActions md).given = md.isPrompt)
    (hseveral : 1 < (promptsOf metadata).length) (layers : S → ℕ → S) (slot : S) :
    executeModel text blockSize layers slot metadata store = .error severalPromptsError := by
  obtain ⟨md, hmd⟩ := List.exists_mem_of_length_pos (Nat.lt_trans Nat.one_pos hseveral)
  unfold executeModel buildModelInput
  rw [if_neg (not_isEmpty_of_mem (List.mem_of_mem_filter hmd)),
    foldlM_addSeqGroup_prompts hgiven (Nat.le_add_right_of_le hseveral)]
  rfl

omit [DecidableEq ρ] in
theorem OnePromptBatch.answered {p p' : GdnPrefixStatePolicy δ}
    {metadata : List (SequenceGroupMetadata ρ δ)} (h : OnePromptBatch cfg p p' metadata)
    (hfollows : Follows store p) (layers : S → ℕ → S) (slot : S) :
    ((∃ md ∈ metadata, SendsAction md) → metadata.length ≠ 1 →
      executeModel text cfg.blockSize layers slot metadata store = .error singleSequenceError) ∧
    (((∃ md ∈ metadata, SendsAction md) → metadata.length = 1) →
      ∃ r, executeModel text cfg.blockSize layers slot metadata store = .ok r ∧
        Follows r.2 p') := by
  cases h.input with
  | inl hdecodes =>
    obtain ⟨rfl, hnone, hinput⟩ := hdecodes
    refine ⟨fun hsends => absurd hsends hnone, fun _ => ?_⟩
    unfold executeModel
    split
    · exact ⟨(slot, store), rfl, hfollows⟩
    · exact ⟨_, bind_eq_ok.mpr ⟨_, hinput, forward_decodes layers slot _⟩, hfollows⟩
  | inr hprompt =>
    obtain ⟨md, hmem, a, hprompt, hsends, hinput⟩ := hprompt
    have hrun : executeModel text cfg.blockSize layers slot metadata store
        = forward text layers slot
          ⟨metadata.length, (queryLens cfg.blockSize md).queryLen, sentActions a⟩ store := by
      unfold executeModel
      rw [if_neg (not_isEmpty_of_mem hmem), hinput]
      rfl
    have hspec := @forward_spec δ S _ text store p p' layers slot a metadata.length
      (queryLens cfg.blockSize md).queryLen hfollows hprompt.actions hprompt.query_pos
    rw [hrun]
    cases hspec with
    | inl herror =>
      exact ⟨fun _ _ => herror.2.2, fun hone => absurd (hone (hsends.mpr herror.1)) herror.2.1⟩
    | inr hok =>
      obtain ⟨hone, start, r, hr, -, hforwarded⟩ := hok
      exact ⟨fun hsome hseveral => absurd (hone (hsends.mp hsome)) hseveral,
        fun _ => ⟨r, hr, hforwarded.follows⟩⟩

/-! ## Runs -/

/-- The worker that keeps the captured states. -/
def prefixWorker (text : DigestText δ) (blockSize : ℕ) : Worker ρ δ (Store δ S) :=
  fun metadata _ store store' => ∃ (layers : S → ℕ → S) (slot slot' : S),
    executeModel text blockSize layers slot metadata store = .ok (slot', store')

/-- The invariant of the runs. -/
structure Agrees (cfg : SchedulerConfig A T δ) (e : Engine ρ δ A T (Store δ S)) : Prop where
  settled : Settled cfg e.scheduler
  follows : Follows e.worker e.scheduler.gdnPrefixPolicy

/-- What the worker answers to the next step. -/
theorem Agrees.answered {e : Engine ρ δ A T (Store δ S)} (h : Agrees cfg e)
    {metadata : List (SequenceGroupMetadata ρ δ)} {outputs : SchedulerOutputs ρ δ}
    (hok : e.scheduler.schedule cfg env = .ok (metadata, outputs, s')) :
    Answered text cfg.blockSize metadata e.worker s'.gdnPrefixPolicy := by
  have hscheduled := schedule_scheduled h.settled hok
  have hbatch : (promptsOf metadata).length ≤ 1 → ∃ p, Follows e.worker p ∧
      OnePromptBatch cfg p s'.gdnPrefixPolicy metadata := fun hone => by
    obtain ⟨-, p, hindex, hbatch⟩ := hscheduled.batch hone
    exact ⟨p, fun key => (h.follows key).trans (hindex.mem_iff key).symm, hbatch⟩
  refine ⟨fun hseveral => executeModel_several hscheduled.given hseveral,
    fun hone hsends hlength layers slot => ?_, fun hone hlength layers slot => ?_⟩
  · obtain ⟨p, hfollows, hbatch⟩ := hbatch hone
    exact (hbatch.answered hfollows layers slot).1 hsends hlength
  · obtain ⟨p, hfollows, hbatch⟩ := hbatch hone
    exact (hbatch.answered hfollows layers slot).2 hlength

omit [DecidableEq ρ] in
/-- What the worker takes, it follows. -/
theorem Answered.follows_of_ok {blockSize : ℕ} {metadata : List (SequenceGroupMetadata ρ δ)}
    {p' : GdnPrefixStatePolicy δ} (h : Answered text blockSize metadata store p')
    {layers : S → ℕ → S} {slot slot' : S} {store' : Store δ S}
    (hok : executeModel text blockSize layers slot metadata store = .ok (slot', store')) :
    (promptsOf metadata).length ≤ 1 ∧ Follows store' p' := by
  have hone : (promptsOf metadata).length ≤ 1 := by
    refine Nat.not_lt.mp fun hseveral => ?_
    cases (h.several hseveral layers slot).symm.trans hok
  refine ⟨hone, ?_⟩
  by_cases hsends : (∃ md ∈ metadata, SendsAction md) → metadata.length = 1
  · obtain ⟨r, hr, hfollows⟩ := h.taken hone hsends layers slot
    obtain rfl := Except.ok.inj (hr.symm.trans hok)
    exact hfollows
  · obtain ⟨hsome, hlength⟩ := Classical.not_imp.mp hsends
    cases (h.refused hone hsome hlength layers slot).symm.trans hok

omit [DecidableEq δ] in
/-- Nothing is sent to the worker when nothing is scheduled. -/
theorem metadata_nil_of_isEmpty [DecidableEq δ] {metadata : List (SequenceGroupMetadata ρ δ)}
    {outputs : SchedulerOutputs ρ δ} (hok : s.schedule cfg env = .ok (metadata, outputs, s'))
    (hempty : outputs.isEmpty) : metadata = [] := by
  obtain ⟨queued, -, hok⟩ := bind_eq_ok.mp hok
  obtain ⟨swapped, -, hok⟩ := bind_eq_ok.mp hok
  obtain ⟨⟨built, s₁⟩, hbuilt, hok⟩ := bind_eq_ok.mp hok
  obtain ⟨rfl, hrest⟩ := Prod.mk.inj (Except.ok.inj hok)
  obtain ⟨rfl, -⟩ := Prod.mk.inj hrest
  unfold SchedulerOutputs.isEmpty at hempty
  simp only [Bool.and_eq_true, List.isEmpty_iff] at hempty
  rw [hempty.1.1.1] at hbuilt
  exact (Prod.mk.inj (Except.ok.inj hbuilt)).1.symm

omit [DecidableEq ρ] [DecidableEq δ] in
theorem OnePromptBatch.index_nil {p p' : GdnPrefixStatePolicy δ}
    (h : OnePromptBatch cfg p p' ([] : List (SequenceGroupMetadata ρ δ))) : p' = p := by
  generalize hnil : ([] : List (SequenceGroupMetadata ρ δ)) = metadata at h
  cases h with
  | decodes heq _ => exact heq
  | prompt => exact absurd hnil.symm (List.append_ne_nil_of_right_ne_nil _ (List.cons_ne_nil _ _))

omit [DecidableEq ρ] [DecidableEq δ] in
theorem OnePromptBatch.residents {p p' : GdnPrefixStatePolicy δ}
    {metadata : List (SequenceGroupMetadata ρ δ)} (h : OnePromptBatch cfg p p' metadata)
    (hresidents : Residents p) : Residents p' := by
  cases h with
  | decodes heq _ => exact heq ▸ hresidents
  | prompt _ hprompt _ => exact hprompt.actions.admitted.residents

/-- A step keeps the agreement: the worker follows what it takes. -/
theorem Agrees.stepped {e e' : Engine ρ δ A T (Store δ S)} {verdicts : ρ → Option FinishReason}
    {sampled : ρ → ℕ} (h : Agrees cfg e)
    (hstep : e.Stepped cfg (prefixWorker text cfg.blockSize) env verdicts sampled e') :
    Agrees cfg e' := by
  obtain ⟨metadata, outputs, scheduled, processed, hok, hworker, hprocessed, hadvanced, -, -⟩ := hstep
  have hscheduled := schedule_scheduled h.settled hok
  have hanswered : Answered text cfg.blockSize metadata e.worker scheduled.gdnPrefixPolicy :=
    h.answered hok
  have hfollows : (promptsOf metadata).length ≤ 1 ∧ Follows e'.worker scheduled.gdnPrefixPolicy := by
    split at hworker
    · next hempty =>
      -- nothing is scheduled, so that there is no metadata
      have hnone : metadata = [] := metadata_nil_of_isEmpty hok hempty
      subst hnone
      obtain ⟨-, p, hindex, hbatch⟩ := hscheduled.batch (Nat.zero_le 1)
      refine ⟨Nat.zero_le 1, fun key => ?_⟩
      rw [hworker, h.follows key, hbatch.index_nil]
      exact (hindex.mem_iff key).symm
    · obtain ⟨layers, slot, slot', hexecuted⟩ := hworker
      exact hanswered.follows_of_ok hexecuted
  obtain ⟨hunplanned, p, hindex, hbatch⟩ := hscheduled.batch hfollows.1
  obtain ⟨hsettled, hpolicy⟩ := settled_advance hscheduled
    (hbatch.residents (hindex.residents h.settled.residents)) hunplanned hprocessed hadvanced
  exact ⟨hsettled, hpolicy ▸ hfollows.2⟩

/-- Every event keeps the agreement. -/
theorem Agrees.next {e e' : Engine ρ δ A T (Store δ S)} {event : Event ρ δ} (h : Agrees cfg e)
    (hstep : e.Next cfg (prefixWorker text cfg.blockSize) event e') : Agrees cfg e' := by
  cases hstep with
  | addRequest hnew =>
    rename_i g
    refine ⟨⟨h.settled.residents, h.settled.running, h.settled.swapped, fun g' hg' => ?_,
      h.settled.unplanned⟩, h.follows⟩
    cases List.mem_append.mp hg' with
    | inl hold => exact h.settled.waiting g' hold
    | inr hadded =>
      refine List.mem_singleton.mp hadded ▸ fun _ => ?_
      exact decide_eq_true hnew.stage_eq
  | abortRequest hok =>
    obtain ⟨hsettled, hpolicy⟩ := settled_abortSeqGroup h.settled hok
    exact ⟨hsettled, fun key => hpolicy ▸ h.follows key⟩
  | step hstepped => exact h.stepped hstepped
  | processOutputs hok =>
    obtain ⟨hcalm, hwaiting, hswapped, hrunning⟩ := processModelOutputs_calm hok
    refine ⟨h.settled.of_calm hcalm (fun g hg => ?_) (fun g hg => h.settled.swapped g (hswapped ▸ hg))
      fun g hg => h.settled.waiting g (hwaiting ▸ hg), fun key => hcalm.policy ▸ h.follows key⟩
    obtain ⟨g₀, hg₀, rfl⟩ := hrunning g hg
    exact (h.settled.running g₀ hg₀).withVerdict

/-- In every state of a run the store has the states of the index, and no more than the index has
room for. A step that restores a state does not get past `schedule`; the worker refuses the metadata
of any other next step exactly when it has two prompts, or an action in a batch of several sequences,
and otherwise its store follows the index. -/
theorem store_follows_index {e : Engine ρ δ A T (Store δ S)}
    (hrun : Engine.Run cfg (prefixWorker text cfg.blockSize) (fun _ _ => True) .empty e) :
    Follows e.worker e.scheduler.gdnPrefixPolicy ∧
      e.worker.keys.length ≤ e.scheduler.gdnPrefixPolicy.capacity ∧
      ∀ env metadata outputs s', e.scheduler.schedule cfg env = .ok (metadata, outputs, s') →
        (∀ md ∈ metadata, restoreTokens cfg.blockSize md.gdnRestoreKey = 0) ∧
          Answered text cfg.blockSize metadata e.worker s'.gdnPrefixPolicy := by
  have hagrees : Agrees cfg e := by
    refine Engine.Run.induct (fun blockManager policy _ _ _ => ?_)
      (fun e e' event h _ hstep => h.next hstep) hrun
    refine ⟨⟨residents_empty policy, fun g hg => absurd hg List.not_mem_nil,
      fun g hg => absurd hg List.not_mem_nil, fun g hg => absurd hg List.not_mem_nil,
      fun _ _ => rfl⟩, fun key => Iff.rfl⟩
  refine ⟨hagrees.follows, ?_, fun env metadata outputs s' hok =>
    ⟨schedule_restores hok, hagrees.answered hok⟩⟩
  refine Nat.le_trans ?_ hagrees.settled.residents.length_le
  exact (List.subperm_of_subset e.worker.nodup_keys fun key hkey =>
    (hagrees.follows key).mp hkey).length_le

/-- Digests that are numbers. -/
def decimalText : DigestText ℕ := ⟨toString, toString⟩

/-- A prompt of 80 tokens. -/
def eightyTokens : SequenceGroup ℕ ℕ :=
  { requestId := 0, seqId := 0, tokenIds := List.range 80, adapterCacheNamespace := 0 }

/-- The prompt waits. -/
def eightyWaiting : Engine ℕ ℕ Unit (List ℕ) (Store ℕ ℕ) where
  scheduler := (Scheduler.init
    { blockSize := 16, numTotalGpuBlocks := 64, watermarkBlocks := 0, blockAllocator := () }
    .admission64).addSeqGroup eightyTokens
  worker := .empty
  added := [(0, 0)]

/-- A step that executes the first chunk of the prompt, in the order of `Engine.Stepped`. -/
def eightyStep : Except Exn ((SchedulerOutputs ℕ ℕ × Scheduler ℕ ℕ Unit (List ℕ)) × Store ℕ ℕ ×
    Scheduler ℕ ℕ Unit (List ℕ)) := do
  let scheduled ← eightyWaiting.scheduler.schedule residentConfig quietEnvironment
  let executed ← executeModel decimalText 16 (fun state tokens => state + tokens) 0 scheduled.1 .empty
  let processed ← scheduled.2.2.getAndResetFinishedRequestsIds.2.processModelOutputs residentConfig
    fun _ => none
  let advanced ← processed.advance scheduled.2.1.scheduledSeqGroups fun _ => 0
  return (scheduled.2, executed.2, advanced)

/-- The state behind four blocks is captured. -/
theorem store_follows_index_eighty : ∃ e : Engine ℕ ℕ Unit (List ℕ) (Store ℕ ℕ),
    Engine.Run residentConfig (prefixWorker decimalText 16) (fun _ _ => True) .empty e ∧
      e.worker.keys = [(4, 3)] ∧ Follows e.worker e.scheduler.gdnPrefixPolicy := by
  have hresult : eightyStep.map (fun r => (r.1.1.isEmpty, r.2.1.keys)) = .ok (false, [(4, 3)]) := by
    decide +kernel
  obtain ⟨⟨⟨outputs, scheduled⟩, store, advanced⟩, hstep, hkeys⟩ := exists_of_map_eq_ok hresult
  obtain ⟨hnonempty, hkeys⟩ := Prod.mk.inj hkeys
  obtain ⟨⟨metadata, outputs', scheduled'⟩, hscheduled, hstep⟩ := bind_eq_ok.mp hstep
  obtain ⟨⟨slot, store'⟩, hexecuted, hstep⟩ := bind_eq_ok.mp hstep
  obtain ⟨processed, hprocessed, hstep⟩ := bind_eq_ok.mp hstep
  obtain ⟨advanced', hadvanced, hstep⟩ := bind_eq_ok.mp hstep
  obtain ⟨hsame, hrest⟩ := Prod.mk.inj (Except.ok.inj hstep)
  obtain ⟨rfl, rfl⟩ := Prod.mk.inj hsame
  obtain ⟨rfl, rfl⟩ := Prod.mk.inj hrest
  have hwaiting : Engine.Run residentConfig (prefixWorker decimalText 16) (fun _ _ => True) .empty
      eightyWaiting :=
    .next (.init rfl rfl rfl) trivial (.addRequest ⟨rfl, rfl, rfl,
      fun _ hp => absurd hp List.not_mem_nil, fun _ hg => absurd hg List.not_mem_nil⟩)
  have hstepped : eightyWaiting.Stepped residentConfig (prefixWorker decimalText 16)
      quietEnvironment (fun _ => none) (fun _ => 0) { eightyWaiting with
        scheduler := advanced'
        worker := store'
        reported := eightyWaiting.reported ++ scheduled'.finishedRequestsIds } := by
    refine ⟨metadata, outputs', scheduled', processed, hscheduled, ?_, hprocessed, hadvanced, rfl, rfl⟩
    rw [if_neg (hnonempty ▸ Bool.false_ne_true)]
    exact ⟨_, _, _, hexecuted⟩
  have hrun := hwaiting.next trivial (.step hstepped)
  exact ⟨_, hrun, hkeys, (store_follows_index hrun).1⟩

end Ikun.PrefixStates
