import Ikun.Scheduler.ChunkEnds
import Ikun.PrefixStates.Store

/-!
# What a step makes of the index

A step with one prompt touches the index at most twice: the admission of the prompt may select a
state to restore, and its metadata admits the captured ones. All that happens in between leaves the
index alone. A group that has been running has computed tokens, so that only an admitted prompt
restores a state.
-/

namespace Ikun.PrefixStates

open Except GdnPrefix Scheduling Scheduling.Scheduler

variable {ρ δ A T : Type} [DecidableEq ρ] [DecidableEq δ]
variable {cfg : SchedulerConfig A T δ} {env : Environment ρ δ}
  {s s' s'' start : Scheduler ρ δ A T} {g : SequenceGroup ρ δ}

/-! ## Progress -/

/-- The group has computed tokens, unless it is finished. -/
def Progressed (g : SequenceGroup ρ δ) : Prop := g.isFinished ∨ 0 < g.numComputedTokens

omit [DecidableEq ρ] [DecidableEq δ] in
theorem Progressed.changeStatus {source target : SequenceStatus} (h : Progressed g)
    (hsource : source = .running ∨ source = .swapped) :
    Progressed (changeStatus g source target) := by
  unfold Scheduler.changeStatus
  split
  · next heq =>
    refine .inr (h.resolve_left fun hfinished => ?_)
    unfold SequenceGroup.isFinished at hfinished
    rw [heq] at hfinished
    cases hsource with
    | inl hrunning => subst hrunning; exact Bool.false_ne_true hfinished
    | inr hswapped => subst hswapped; exact Bool.false_ne_true hfinished
  · exact h

omit [DecidableEq ρ] [DecidableEq δ] in
/-- A group that gets tokens in the running or in the swapped queue has computed some before. -/
theorem Progressed.computed_pos {status : SequenceStatus} {enableChunking : Bool}
    {budget : SchedulingBudget ρ} {tokens : ℕ} (h : Progressed g)
    (hstatus : status = .running ∨ status = .swapped)
    (hok : getNumNewTokens cfg g status enableChunking budget = .ok tokens) :
    0 < g.numComputedTokens := by
  obtain ⟨_, hraise, -⟩ := bind_eq_ok.mp hok
  have heq : g.status = status := not_not.mp fun hne => raiseIf_eq_ok.mp hraise (.inl hne)
  refine h.resolve_left fun hfinished => ?_
  unfold SequenceGroup.isFinished at hfinished
  rw [heq] at hfinished
  cases hstatus with
  | inl hrunning => subst hrunning; exact Bool.false_ne_true hfinished
  | inr hswapped => subst hswapped; exact Bool.false_ne_true hfinished

omit [DecidableEq ρ] [DecidableEq δ] in
/-- A prompt that gets tokens is not at its end. -/
theorem computed_lt_of_getNumNewTokens {status : SequenceStatus} {enableChunking : Bool}
    {budget : SchedulingBudget ρ} {tokens : ℕ}
    (hok : getNumNewTokens cfg g status enableChunking budget = .ok tokens)
    (hprefill : g.isPrefill) : g.numComputedTokens < g.len := by
  obtain ⟨_, hraise, -⟩ := bind_eq_ok.mp hok
  have hne : g.numNewTokens ≠ 0 := fun hzero => raiseIf_eq_ok.mp hraise (.inr hzero)
  unfold SequenceGroup.numNewTokens SequenceGroup.numUncomputedTokens at hne
  rw [show g.stage = .prefill from of_decide_eq_true hprefill] at hne
  exact Nat.lt_of_sub_ne_zero hne

/-- A group that waits is a prompt. -/
def Unstarted (g : SequenceGroup ρ δ) : Prop := g.status = .waiting → g.isPrefill

/-! ## What leaves the index alone -/

/-- The key that a request is to restore. -/
def restoreEntry (s : Scheduler ρ δ A T) (requestId : ρ) : Option (GdnPrefixKey δ) :=
  (s.gdnRequestRestoreKeys.get? requestId).join

/-- The index stays, and no restore key is set. -/
structure GdnCalm (s s' : Scheduler ρ δ A T) : Prop where
  policy : s'.gdnPrefixPolicy = s.gdnPrefixPolicy
  entries : ∀ requestId key, restoreEntry s' requestId = some key →
    restoreEntry s requestId = some key

omit [DecidableEq δ] in
theorem GdnCalm.refl (s : Scheduler ρ δ A T) : GdnCalm s s := ⟨rfl, fun _ _ => id⟩

omit [DecidableEq δ] in
theorem GdnCalm.trans (h : GdnCalm s s') (h' : GdnCalm s' s'') : GdnCalm s s'' :=
  ⟨h'.policy.trans h.policy, fun requestId key hkey => h.entries _ _ (h'.entries requestId key hkey)⟩

omit [DecidableEq δ] in
/-- What keeps the index and the entries is calm. -/
theorem gdnCalm_of_eq (hpolicy : s'.gdnPrefixPolicy = s.gdnPrefixPolicy)
    (hentries : s'.gdnRequestRestoreKeys = s.gdnRequestRestoreKeys) : GdnCalm s s' :=
  ⟨hpolicy, fun requestId key hkey => by unfold restoreEntry at hkey ⊢; rwa [hentries] at hkey⟩

omit [DecidableEq δ] in
theorem gdnCalm_popGdnEntries (s : Scheduler ρ δ A T) (requestId : ρ) :
    GdnCalm s (s.popGdnEntries requestId) := by
  refine ⟨rfl, fun requestId' key hkey => ?_⟩
  unfold restoreEntry at hkey ⊢
  exact Option.join_eq_some_iff.mpr (Dict.get?_of_erase (Option.join_eq_some_iff.mp hkey))

/-- A part of a step that leaves the index and the queues alone. -/
structure Quiet (s s' : Scheduler ρ δ A T) : Prop where
  calm : GdnCalm s s'
  queues : SameQueues s s'

omit [DecidableEq δ] in
theorem Quiet.refl (s : Scheduler ρ δ A T) : Quiet s s := ⟨.refl s, .refl s⟩

omit [DecidableEq δ] in
theorem Quiet.trans (h : Quiet s s') (h' : Quiet s' s'') : Quiet s s'' :=
  ⟨h.calm.trans h'.calm, h.queues.trans h'.queues⟩

omit [DecidableEq δ] in
theorem quiet_blockManager (s : Scheduler ρ δ A T) (m : BlockSpaceManager ρ δ A T) :
    Quiet s { s with blockManager := m } := ⟨gdnCalm_of_eq rfl rfl, ⟨rfl, rfl, rfl, rfl⟩⟩

omit [DecidableEq δ] in
theorem quiet_freeSeq (hok : s.freeSeq cfg g = .ok s') : Quiet s s' := by
  obtain ⟨m', -, rfl⟩ := freeSeq_ok hok
  exact quiet_blockManager s m'

omit [DecidableEq δ] in
theorem quiet_freeFinishedSeqGroup (hok : s.freeFinishedSeqGroup cfg g = .ok s') : Quiet s s' := by
  unfold freeFinishedSeqGroup freeFinishedSeqs at hok
  dsimp only at hok
  have hpopped : Quiet s (if g.isFinished then
      ((s.freeSeqGroupCrossAttnBlocks g).popGdnEntries g.requestId).reportFinished g else s) := by
    split
    · exact ⟨⟨rfl, (gdnCalm_popGdnEntries s g.requestId).entries⟩, ⟨rfl, rfl, rfl, rfl⟩⟩
    · exact .refl s
  generalize (if g.isFinished then
    ((s.freeSeqGroupCrossAttnBlocks g).popGdnEntries g.requestId).reportFinished g else s) = popped
    at hok hpopped
  refine hpopped.trans ?_
  split at hok
  · exact quiet_freeSeq hok
  · obtain rfl := Except.ok.inj hok
    exact .refl _

omit [DecidableEq δ] in
theorem quiet_appendSlots {cows : List (ℕ × ℕ)} (hok : s.appendSlots cfg g = .ok (cows, s')) :
    Quiet s s' := by
  unfold appendSlots at hok
  split at hok
  · obtain ⟨appended, -, hok⟩ := bind_eq_ok.mp hok
    obtain ⟨-, rfl⟩ := Prod.mk.inj (Except.ok.inj hok)
    exact quiet_blockManager s _
  · obtain ⟨-, rfl⟩ := Prod.mk.inj (Except.ok.inj hok)
    exact .refl s

omit [DecidableEq δ] in
/-- A preempted group that is swapped out has made progress. -/
theorem preempt_quiet {outputs outputs' : SchedulerRunningOutputs ρ δ} (hg : Progressed g)
    (hok : s.preempt cfg outputs g = .ok (s', outputs')) :
    Quiet s s' ∧ ∀ g' ∈ outputs'.swappedOut, g' ∈ outputs.swappedOut ∨ Progressed g' := by
  unfold preempt at hok
  split at hok
  · obtain ⟨⟨g', freed⟩, hfreed, hok⟩ := bind_eq_ok.mp hok
    obtain ⟨_, -, hfreed⟩ := bind_eq_ok.mp hfreed
    obtain ⟨s₁, hs₁, hfreed⟩ := bind_eq_ok.mp hfreed
    obtain ⟨-, rfl⟩ := Prod.mk.inj (Except.ok.inj hfreed)
    obtain ⟨rfl, rfl⟩ := Prod.mk.inj (Except.ok.inj hok)
    exact ⟨quiet_freeSeq hs₁, fun _ => .inl⟩
  · obtain ⟨⟨mapping, g', s₁⟩, hswapped, hok⟩ := bind_eq_ok.mp hok
    obtain ⟨_, -, hswapped⟩ := bind_eq_ok.mp hswapped
    obtain ⟨_, -, hswapped⟩ := bind_eq_ok.mp hswapped
    obtain ⟨m, -, hswapped⟩ := bind_eq_ok.mp hswapped
    obtain ⟨-, hrest⟩ := Prod.mk.inj (Except.ok.inj hswapped)
    obtain ⟨rfl, rfl⟩ := Prod.mk.inj hrest
    obtain ⟨rfl, rfl⟩ := Prod.mk.inj (Except.ok.inj hok)
    refine ⟨quiet_blockManager s _, fun g' hg' => ?_⟩
    cases List.mem_append.mp hg' with
    | inl hold => exact .inl hold
    | inr hnew => exact .inr (List.mem_singleton.mp hnew ▸ hg.changeStatus (.inl rfl))

omit [DecidableEq ρ] [DecidableEq δ] in
/-- A preempted group waits as a prompt, or is swapped out. -/
theorem preempt_unstarted {outputs outputs' : SchedulerRunningOutputs ρ δ}
    (hok : s.preempt cfg outputs g = .ok (s', outputs')) :
    (∀ g' ∈ outputs'.preempted, g' ∈ outputs.preempted ∨ Unstarted g') ∧
      (g.status = .running → ∀ g' ∈ outputs'.swappedOut, g' ∈ outputs.swappedOut ∨ Unstarted g') := by
  unfold preempt at hok
  split at hok
  · obtain ⟨⟨g', freed⟩, hfreed, hok⟩ := bind_eq_ok.mp hok
    obtain ⟨_, -, hfreed⟩ := bind_eq_ok.mp hfreed
    obtain ⟨s₁, -, hfreed⟩ := bind_eq_ok.mp hfreed
    obtain ⟨rfl, -⟩ := Prod.mk.inj (Except.ok.inj hfreed)
    obtain ⟨-, rfl⟩ := Prod.mk.inj (Except.ok.inj hok)
    refine ⟨fun g' hg' => ?_, fun _ _ => .inl⟩
    cases List.mem_append.mp hg' with
    | inl hold => exact .inl hold
    | inr hnew => exact .inr (List.mem_singleton.mp hnew ▸ fun _ => rfl)
  · obtain ⟨⟨mapping, g', s₁⟩, hswapped, hok⟩ := bind_eq_ok.mp hok
    obtain ⟨_, -, hswapped⟩ := bind_eq_ok.mp hswapped
    obtain ⟨_, -, hswapped⟩ := bind_eq_ok.mp hswapped
    obtain ⟨m, -, hswapped⟩ := bind_eq_ok.mp hswapped
    obtain ⟨-, hrest⟩ := Prod.mk.inj (Except.ok.inj hswapped)
    obtain ⟨rfl, -⟩ := Prod.mk.inj hrest
    obtain ⟨-, rfl⟩ := Prod.mk.inj (Except.ok.inj hok)
    refine ⟨fun _ => .inl, fun hstatus g' hg' => ?_⟩
    cases List.mem_append.mp hg' with
    | inl hold => exact .inl hold
    | inr hnew =>
      refine .inr (List.mem_singleton.mp hnew ▸ fun hwaiting => ?_)
      unfold changeStatus at hwaiting
      rw [if_pos hstatus] at hwaiting
      cases hwaiting

/-! ## The running queue -/

/-- The prompt has computed tokens, and its chunk fits into a step. -/
structure RunningChunk (cfg : SchedulerConfig A T δ) (enableChunking : Bool)
    (sg : ScheduledSequenceGroup ρ δ) : Prop where
  isPrefill : sg.seqGroup.isPrefill
  computed_pos : 0 < sg.seqGroup.numComputedTokens
  computed_lt : sg.seqGroup.numComputedTokens < sg.seqGroup.len
  chunk_pos : 0 < sg.tokenChunkSize
  chunk_le : enableChunking → sg.tokenChunkSize ≤ cfg.maxNumBatchedTokens

/-- What every round over the running queue keeps. -/
structure RunningProgress (cfg : SchedulerConfig A T δ) (enableChunking : Bool)
    (start : Scheduler ρ δ A T) (round : RunningRound ρ δ A T) : Prop where
  calm : GdnCalm start round.scheduler
  waiting : round.scheduler.waiting = start.waiting
  swapped : round.scheduler.swapped = start.swapped
  budget : round.budget.tokenBudget = cfg.maxNumBatchedTokens
  running : ∀ g ∈ round.scheduler.running, Progressed g
  preempted : ∀ g ∈ round.outputs.preempted, Unstarted g
  swappedOut : ∀ g ∈ round.outputs.swappedOut, Progressed g
  decodes : ∀ sg ∈ round.outputs.decodeSeqGroups, ¬ sg.seqGroup.isPrefill ∧ 0 < sg.tokenChunkSize
  prefills : ∀ sg ∈ round.outputs.prefillSeqGroups, RunningChunk cfg enableChunking sg

/-- What a round keeps when it puts groups aside. -/
structure PutAside (round round' : RunningRound ρ δ A T) : Prop where
  quiet : Quiet round.scheduler round'.scheduler
  budget : NoLess round.budget round'.budget
  decodes : round'.outputs.decodeSeqGroups = round.outputs.decodeSeqGroups
  prefills : round'.outputs.prefillSeqGroups = round.outputs.prefillSeqGroups
  preempted : ∀ g ∈ round'.outputs.preempted, g ∈ round.outputs.preempted ∨ Unstarted g
  swappedOut : ∀ g ∈ round'.outputs.swappedOut, g ∈ round.outputs.swappedOut ∨ Progressed g

omit [DecidableEq δ] in
theorem PutAside.refl (round : RunningRound ρ δ A T) : PutAside round round :=
  ⟨.refl _, ⟨rfl, Nat.le_refl _⟩, rfl, rfl, fun _ => .inl, fun _ => .inl⟩

omit [DecidableEq δ] in
theorem PutAside.trans {round round' round'' : RunningRound ρ δ A T} (h : PutAside round round')
    (h' : PutAside round' round'') : PutAside round round'' :=
  ⟨h.quiet.trans h'.quiet, h.budget.trans h'.budget, h'.decodes.trans h.decodes,
    h'.prefills.trans h.prefills, fun g hg => (h'.preempted g hg).elim (h.preempted g) .inr,
    fun g hg => (h'.swappedOut g hg).elim (h.swappedOut g) .inr⟩

omit [DecidableEq δ] in
/-- A victim is freed, preempted or swapped out. -/
theorem putAside_evict {round : RunningRound ρ δ A T} {tokens seqs : ℕ} {requestId : ρ}
    {evicted : Scheduler ρ δ A T × SchedulerRunningOutputs ρ δ} (hg : Progressed g)
    (hok : round.scheduler.evict cfg env round.outputs g = .ok evicted) :
    PutAside round ⟨evicted.1, (round.budget.subtractNumBatchedTokens requestId tokens)
      |>.subtractNumSeqs requestId seqs, evicted.2⟩ := by
  obtain ⟨s', outputs'⟩ := evicted
  have hbudget := noLess_subtract round.budget requestId tokens seqs
  have hvictim : Progressed
      (if cfg.useAsyncOutputProc then processPendingOutput env g else g) := by
    split
    · unfold processPendingOutput
      split
      · exact .inl rfl
      · exact hg
    · exact hg
  unfold evict at hok
  dsimp only at hok
  generalize (if cfg.useAsyncOutputProc then processPendingOutput env g else g) = victim
    at hok hvictim
  split at hok
  · obtain ⟨freed, hfreed, hok⟩ := bind_eq_ok.mp hok
    obtain ⟨rfl, rfl⟩ := Prod.mk.inj (Except.ok.inj hok)
    exact ⟨quiet_freeFinishedSeqGroup hfreed, hbudget, rfl, rfl, fun _ => .inl, fun _ => .inl⟩
  · obtain ⟨hquiet, hswapped⟩ := preempt_quiet hvictim hok
    obtain ⟨hdecodes, hprefills⟩ := preempt_scheduled hok
    exact ⟨hquiet, hbudget, hdecodes, hprefills, (preempt_unstarted hok).1, hswapped⟩

omit [DecidableEq δ] in
/-- The loop that makes room for a group takes its victims from the end of the queue. -/
theorem makeRoom_putAside {tokens : ℕ} {victims victims' : List (SequenceGroup ρ δ)}
    {round round' : RunningRound ρ δ A T} {hasSlots : Bool} (hg : Progressed g)
    (hvictims : ∀ victim ∈ victims, Progressed victim)
    (hok : makeRoom cfg env g tokens victims round = .ok (hasSlots, victims', round')) :
    PutAside round round' ∧ ∀ victim ∈ victims', victim ∈ victims := by
  induction victims generalizing round with
  | nil =>
    unfold makeRoom at hok
    obtain ⟨slots, -, hok⟩ := bind_eq_ok.mp hok
    split at hok
    · obtain ⟨-, hrest⟩ := Prod.mk.inj (Except.ok.inj hok)
      obtain ⟨rfl, rfl⟩ := Prod.mk.inj hrest
      exact ⟨.refl _, fun _ => id⟩
    · obtain ⟨evicted, hevicted, hok⟩ := bind_eq_ok.mp hok
      obtain ⟨-, hrest⟩ := Prod.mk.inj (Except.ok.inj hok)
      obtain ⟨rfl, rfl⟩ := Prod.mk.inj hrest
      exact ⟨putAside_evict hg hevicted, fun _ => id⟩
  | cons victim victims ih =>
    unfold makeRoom at hok
    obtain ⟨slots, -, hok⟩ := bind_eq_ok.mp hok
    split at hok
    · obtain ⟨-, hrest⟩ := Prod.mk.inj (Except.ok.inj hok)
      obtain ⟨rfl, rfl⟩ := Prod.mk.inj hrest
      exact ⟨.refl _, fun _ => id⟩
    · obtain ⟨evicted, hevicted, hok⟩ := bind_eq_ok.mp hok
      obtain ⟨haside, hsub⟩ := ih (fun v hv => hvictims v (List.mem_cons_of_mem victim hv)) hok
      exact ⟨(putAside_evict (hvictims victim List.mem_cons_self) hevicted).trans haside,
        fun v hv => List.mem_cons_of_mem victim (hsub v hv)⟩

omit [DecidableEq δ] in
/-- A group that found its slots joins the lists of the step. -/
theorem runGroup_progress {enableChunking : Bool} {tokens : ℕ} {round round' : RunningRound ρ δ A T}
    (h : RunningProgress cfg enableChunking start round)
    (hchunk : g.isPrefill → RunningChunk cfg enableChunking ⟨g, tokens⟩)
    (hok : runGroup cfg enableChunking g tokens round = .ok round') :
    RunningProgress cfg enableChunking start round' := by
  obtain ⟨appended, happended, hok⟩ := bind_eq_ok.mp hok
  obtain rfl := Except.ok.inj hok
  have hquiet : Quiet round.scheduler appended.2 := quiet_appendSlots happended
  refine ⟨h.calm.trans hquiet.calm, hquiet.queues.waiting.trans h.waiting,
    hquiet.queues.swapped.trans h.swapped, ?_,
    fun g' hg' => h.running g' (hquiet.queues.running ▸ hg'), ?_, ?_, ?_, ?_⟩
  · dsimp only
    split
    · rw [SchedulingBudget.tokenBudget_addNumSeqs, SchedulingBudget.tokenBudget_addNumBatchedTokens]
      exact h.budget
    · rw [SchedulingBudget.tokenBudget_addNumBatchedTokens]
      exact h.budget
  · dsimp only
    split
    · exact h.preempted
    · exact h.preempted
  · dsimp only
    split
    · exact h.swappedOut
    · exact h.swappedOut
  · dsimp only
    split
    · exact h.decodes
    · next hdecode =>
      intro sg hsg
      cases List.mem_append.mp hsg with
      | inl hold => exact h.decodes sg hold
      | inr hnew => exact List.mem_singleton.mp hnew ▸ ⟨hdecode, Nat.one_pos⟩
  · dsimp only
    split
    · next hprefill =>
      intro sg hsg
      cases List.mem_append.mp hsg with
      | inl hold => exact h.prefills sg hold
      | inr hnew => exact List.mem_singleton.mp hnew ▸ hchunk hprefill
    · exact h.prefills

omit [DecidableEq δ] in
/-- The tokens of a running prompt are cut off in front of its end at most. -/
theorem numRunningTokens_bounds {enableChunking : Bool} {round : RunningRound ρ δ A T}
    {numNewTokens tokens : ℕ} (hne : numNewTokens ≠ 0)
    (hok : numRunningTokens cfg enableChunking g round numNewTokens = .ok tokens) :
    0 < tokens ∧ tokens ≤ numNewTokens := by
  unfold numRunningTokens at hok
  split at hok
  · obtain ⟨⟨chunk, query⟩, hcapped, hok⟩ := bind_eq_ok.mp hok
    obtain rfl := Except.ok.inj hok
    obtain ⟨hbehind, hle, -⟩ := capGdnCaptureBoundary_ok (Nat.pos_of_ne_zero hne) (Nat.le_refl _)
      hcapped
    exact ⟨by omega, hle⟩
  · obtain rfl := Except.ok.inj hok
    exact ⟨Nat.pos_of_ne_zero hne, Nat.le_refl _⟩

omit [DecidableEq δ] in
/-- The loop of `_schedule_running`. -/
theorem runningLoop_progress {enableChunking : Bool} {rounds : ℕ} {round round' : RunningRound ρ δ A T}
    (h : RunningProgress cfg enableChunking start round)
    (hok : runningLoop cfg env enableChunking rounds round = .ok round') :
    RunningProgress cfg enableChunking start round' := by
  induction rounds generalizing round with
  | zero =>
    obtain rfl := Except.ok.inj hok
    exact h
  | succ rounds ih =>
    unfold runningLoop at hok
    split at hok
    · obtain rfl := Except.ok.inj hok
      exact h
    · next g queue hqueue =>
      obtain ⟨numNewTokens, hnumNew, hok⟩ := bind_eq_ok.mp hok
      split at hok
      · obtain rfl := Except.ok.inj hok
        exact h
      · next hne =>
        obtain ⟨tokens, htokens, hok⟩ := bind_eq_ok.mp hok
        have hg : Progressed g := h.running g (hqueue ▸ List.mem_cons_self)
        have hqueued : ∀ g' ∈ queue, Progressed g' := fun g' hg' =>
          h.running g' (hqueue ▸ List.mem_cons_of_mem g hg')
        split at hok
        · refine ih ?_ hok
          exact ⟨⟨h.calm.policy, h.calm.entries⟩, h.waiting, h.swapped, h.budget, hqueued,
            h.preempted, h.swappedOut, h.decodes, h.prefills⟩
        · obtain ⟨⟨hasSlots, victims, left⟩, hmade, hok⟩ := bind_eq_ok.mp hok
          dsimp only at hok
          obtain ⟨haside, hvictims⟩ := makeRoom_putAside hg
            (fun v hv => hqueued v (List.mem_reverse.mp hv)) hmade
          have hleft : RunningProgress cfg enableChunking start { left with
              scheduler := { left.scheduler with running := victims.reverse } } := by
            have hcalm := h.calm.trans haside.quiet.calm
            exact {
              calm := ⟨hcalm.policy, hcalm.entries⟩
              waiting := haside.quiet.queues.waiting.trans h.waiting
              swapped := haside.quiet.queues.swapped.trans h.swapped
              budget := haside.budget.tokenBudget.trans h.budget
              running := fun v hv =>
                hqueued v (List.mem_reverse.mp (hvictims v (List.mem_reverse.mp hv)))
              preempted := fun v hv => (haside.preempted v hv).elim (h.preempted v) id
              swappedOut := fun v hv => (haside.swappedOut v hv).elim (h.swappedOut v) id
              decodes := fun sg hsg => h.decodes sg (haside.decodes ▸ hsg)
              prefills := fun sg hsg => h.prefills sg (haside.prefills ▸ hsg) }
          cases hasSlots with
          | true =>
            obtain ⟨next, hnext, hok⟩ := bind_eq_ok.mp hok
            obtain ⟨hpos, hle⟩ := numRunningTokens_bounds hne htokens
            refine ih (runGroup_progress hleft (fun hprefill => ?_) hnext) hok
            refine ⟨hprefill, hg.computed_pos (.inl rfl) hnumNew,
              computed_lt_of_getNumNewTokens hnumNew hprefill, hpos, fun hchunking => ?_⟩
            have hbudget := getNumNewTokens_le hnumNew
            rw [if_pos hchunking] at hbudget
            exact ((hle.trans hbudget).trans (Nat.min_le_right _ _)).trans
              ((Nat.sub_le _ _).trans (Nat.le_of_eq h.budget))
          | false =>
            obtain ⟨next, hnext, hok⟩ := bind_eq_ok.mp hok
            obtain rfl := Except.ok.inj hnext
            exact ih hleft hok

/-! ## The swapped queue -/

/-- What every round over the swapped queue keeps. -/
structure SwappedProgress (cfg : SchedulerConfig A T δ) (start : Scheduler ρ δ A T)
    (round : SwappedRound ρ δ A T) : Prop where
  calm : GdnCalm start round.scheduler
  waiting : round.scheduler.waiting = start.waiting
  running : round.scheduler.running = start.running
  swapped : ∀ g ∈ round.scheduler.swapped, Progressed g
  budget : round.budget.tokenBudget = cfg.maxNumBatchedTokens
  decodes : ∀ sg ∈ round.outputs.decodeSeqGroups, ¬ sg.seqGroup.isPrefill ∧ 0 < sg.tokenChunkSize
  prefills : ∀ sg ∈ round.outputs.prefillSeqGroups, RunningChunk cfg true sg

omit [DecidableEq ρ] [DecidableEq δ] in
/-- A group that fits gets some tokens, and no more than a step has. -/
theorem fits_bounds {b : SchedulingBudget ρ} {tokens seqs : ℕ} {canSchedule : Bool}
    (hbudget : b.tokenBudget = cfg.maxNumBatchedTokens)
    (hok : fits b tokens seqs = .ok canSchedule) (hcan : canSchedule = true) :
    0 < tokens ∧ tokens ≤ b.remainingTokenBudget ∧ tokens ≤ cfg.maxNumBatchedTokens := by
  obtain ⟨hne, hle⟩ := fits_ok (hcan ▸ hok)
  exact ⟨Nat.pos_of_ne_zero hne, hle, hbudget ▸ hle.trans (Nat.sub_le _ _)⟩

omit [DecidableEq δ] in
/-- The loop of `_schedule_swapped`. -/
theorem swappedLoop_progress {enableChunking : Bool} {queue : List (SequenceGroup ρ δ)}
    {round round' : SwappedRound ρ δ A T} (h : SwappedProgress cfg start round)
    (hqueue : ∀ g ∈ queue, Progressed g)
    (hok : swappedLoop cfg enableChunking queue round = .ok round') :
    SwappedProgress cfg start round' := by
  induction queue generalizing round with
  | nil =>
    obtain rfl := Except.ok.inj hok
    exact ⟨⟨h.calm.policy, h.calm.entries⟩, h.waiting, h.running,
      fun _ hg => absurd hg List.not_mem_nil, h.budget, h.decodes, h.prefills⟩
  | cons g queue ih =>
    have hrest : ∀ g' ∈ queue, Progressed g' := fun g' hg' =>
      hqueue g' (List.mem_cons_of_mem g hg')
    have hstopped : SwappedProgress cfg start
        { round with scheduler := { round.scheduler with swapped := g :: queue } } :=
      ⟨⟨h.calm.policy, h.calm.entries⟩, h.waiting, h.running, hqueue, h.budget, h.decodes,
        h.prefills⟩
    unfold swappedLoop at hok
    obtain ⟨allocStatus, -, hok⟩ := bind_eq_ok.mp hok
    cases allocStatus with
    | later =>
      obtain rfl := Except.ok.inj hok
      exact hstopped
    | never =>
      refine ih ?_ hrest hok
      exact ⟨h.calm, h.waiting, h.running, h.swapped, h.budget, h.decodes, h.prefills⟩
    | ok =>
      obtain ⟨tokens, htokens, hok⟩ := bind_eq_ok.mp hok
      obtain ⟨canSchedule, hfits, hok⟩ := bind_eq_ok.mp hok
      split at hok
      · obtain rfl := Except.ok.inj hok
        exact hstopped
      · next hcan =>
        obtain ⟨next, hnext, hok⟩ := bind_eq_ok.mp hok
        obtain ⟨hpos, -, hle⟩ := fits_bounds h.budget hfits (not_not.mp hcan)
        have hg : Progressed g := hqueue g List.mem_cons_self
        refine ih ?_ hrest hok
        obtain ⟨⟨mapping, g', s₁⟩, hswapped, hnext⟩ := bind_eq_ok.mp hnext
        obtain ⟨m, -, hswapped⟩ := bind_eq_ok.mp hswapped
        obtain ⟨-, hswapped⟩ := Prod.mk.inj (Except.ok.inj hswapped)
        obtain ⟨rfl, rfl⟩ := Prod.mk.inj hswapped
        obtain ⟨⟨cows, s₂⟩, happended, hnext⟩ := bind_eq_ok.mp hnext
        obtain rfl := Except.ok.inj hnext
        have hquiet : Quiet round.scheduler s₂ :=
          (quiet_blockManager _ _).trans (quiet_appendSlots happended)
        obtain ⟨hprefill, -, hcomputed, hlen⟩ := isPrefill_changeStatus (g := g) .swapped .running
        refine ⟨h.calm.trans hquiet.calm, hquiet.queues.waiting.trans h.waiting,
          hquiet.queues.running.trans h.running, fun v hv => h.swapped v (hquiet.queues.swapped ▸ hv), ?_, ?_, ?_⟩
        · rw [SchedulingBudget.tokenBudget_addNumSeqs, SchedulingBudget.tokenBudget_addNumBatchedTokens]
          exact h.budget
        · dsimp only
          split
          · exact h.decodes
          · next hdecode =>
            intro sg hsg
            cases List.mem_append.mp hsg with
            | inl hold => exact h.decodes sg hold
            | inr hnew => exact List.mem_singleton.mp hnew ▸ ⟨hdecode, Nat.one_pos⟩
        · dsimp only
          split
          · next hprompt =>
            intro sg hsg
            cases List.mem_append.mp hsg with
            | inl hold => exact h.prefills sg hold
            | inr hnew =>
              refine List.mem_singleton.mp hnew ▸ ⟨hprompt, ?_, ?_, hpos, fun _ => hle⟩
              · exact hcomputed ▸ hg.computed_pos (.inr rfl) htokens
              · rw [hcomputed, hlen]
                exact computed_lt_of_getNumNewTokens htokens (hprefill ▸ hprompt)
          · exact h.prefills

/-! ## The waiting queue -/

omit [DecidableEq δ] in
/-- A planned query has tokens, and no more than the budget has left; the chunk also has what is
restored. -/
theorem planGdnPrefixFastForward_bounds {restoreKey : Option (GdnPrefixKey δ)} {alignment : Option ℕ}
    {computed promptLen nominal budget blockSize logical physical : ℕ} (hpos : 0 < nominal)
    (hle : nominal ≤ budget)
    (h : planGdnPrefixFastForward restoreKey computed promptLen nominal budget blockSize alignment
      = .ok (logical, physical)) :
    0 < physical ∧ physical ≤ logical ∧
      logical ≤ (if computed = 0 then restoreTokens blockSize restoreKey else 0) + budget := by
  have hfallback : 0 < nominal ∧ nominal ≤ nominal ∧
      nominal ≤ (if computed = 0 then restoreTokens blockSize restoreKey else 0) + budget :=
    ⟨hpos, Nat.le_refl _, hle.trans (Nat.le_add_left _ _)⟩
  unfold planGdnPrefixFastForward at h
  cases restoreKey with
  | none =>
    obtain ⟨rfl, rfl⟩ := Prod.mk.inj (Except.ok.inj h)
    exact hfallback
  | some key =>
    dsimp only at h
    split at h
    · obtain ⟨rfl, rfl⟩ := Prod.mk.inj (Except.ok.inj h)
      exact hfallback
    · next hfirst =>
      obtain ⟨limit, hlimit, h⟩ := bind_eq_ok.mp h
      have hlimitLe : limit ≤ key.1 * blockSize + budget := by
        unfold logicalLimit at hlimit
        split at hlimit
        · exact Nat.le_of_eq (Except.ok.inj hlimit).symm
        · obtain ⟨_, -, hlimit⟩ := bind_eq_ok.mp hlimit
          exact (Nat.le_of_eq (Except.ok.inj hlimit).symm).trans (Nat.min_le_left _ _)
      split at h
      · obtain ⟨rfl, rfl⟩ := Prod.mk.inj (Except.ok.inj h)
        exact hfallback
      · split at h
        · obtain ⟨rfl, rfl⟩ := Prod.mk.inj (Except.ok.inj h)
          exact hfallback
        · obtain ⟨rfl, rfl⟩ := Prod.mk.inj (Except.ok.inj h)
          have hzero : computed = 0 := not_not.mp fun hne => hfirst (.inl hne)
          rw [if_pos hzero]
          exact ⟨by omega, Nat.sub_le _ _, (Nat.min_le_right _ _).trans hlimitLe⟩

/-- What the plan of a prompt makes of the index, and how long its chunk is. -/
theorem planPrompt_index {c : GdnConfig} {p p' : GdnPrefixStatePolicy δ} {hashes : List δ}
    {plan : PrefillPlan δ} {numBlocks computed promptLen numNew budget : ℕ} (hpos : 0 < numNew)
    (hle : numNew ≤ budget)
    (h : planPrompt c p hashes numBlocks computed promptLen numNew budget = .ok (plan, p')) :
    Reordered p p' plan.restoreKey ∧ 0 < plan.chunkSize ∧
      plan.chunkSize ≤
        (if computed = 0 then restoreTokens c.blockSize plan.restoreKey else 0) + budget := by
  obtain ⟨-, forward, hforward, hcapped⟩ := planPrompt_ok h
  obtain ⟨hquery, hphysical, hlogical⟩ := planGdnPrefixFastForward_bounds hpos hle hforward
  obtain ⟨hbehind, hcut, -⟩ := capGdnCaptureBoundary_ok hquery hphysical hcapped
  refine ⟨?_, by omega, hcut.trans hlogical⟩
  obtain ⟨_, -, h⟩ := bind_eq_ok.mp h
  obtain ⟨_, -, h⟩ := bind_eq_ok.mp h
  obtain ⟨live, -, h⟩ := bind_eq_ok.mp h
  obtain ⟨_, -, h⟩ := bind_eq_ok.mp h
  obtain ⟨_, -, h⟩ := bind_eq_ok.mp h
  obtain ⟨_, -, h⟩ := bind_eq_ok.mp h
  obtain ⟨rfl, rfl⟩ := Prod.mk.inj (Except.ok.inj h)
  exact selectRestore_reordered rfl

/-- An admitted request has its entry, and the chunk of its plan fits into a step. -/
theorem planRequest_index {tokens : ℕ} {budget : SchedulingBudget ρ} {planned : ℕ × ℕ}
    (hpos : 0 < tokens) (hle : tokens ≤ budget.remainingTokenBudget)
    (hok : s.planRequest cfg g tokens budget = .ok (planned, s')) :
    Reordered s.gdnPrefixPolicy s'.gdnPrefixPolicy (restoreEntry s' g.requestId) ∧ SameQueues s s' ∧
      0 < planned.1 ∧
      g.numComputedTokens + planned.1 ≤ physicalContext cfg s' g + budget.remainingTokenBudget := by
  obtain ⟨⟨blocks, m'⟩, -, hok⟩ := bind_eq_ok.mp hok
  obtain ⟨hashes, -, hok⟩ := bind_eq_ok.mp hok
  obtain ⟨⟨plan, policy⟩, hplan, hok⟩ := bind_eq_ok.mp hok
  obtain ⟨rfl, rfl⟩ := Prod.mk.inj (Except.ok.inj hok)
  obtain ⟨hindex, hchunk, hchunkLe⟩ := planPrompt_index hpos hle hplan
  have hentry : ((s.gdnRequestRestoreKeys.set g.requestId plan.restoreKey).get? g.requestId).join
      = plan.restoreKey := by
    rw [Dict.get?_set_self]
    rfl
  refine ⟨?_, ⟨rfl, rfl, rfl, rfl⟩, hchunk, ?_⟩
  · unfold restoreEntry
    dsimp only
    rw [hentry]
    exact hindex
  · unfold physicalContext restoredOf
    dsimp only
    rw [hentry]
    change plan.chunkSize ≤ (if g.numComputedTokens = 0 then
      restoreTokens cfg.blockSize plan.restoreKey else 0) + _ at hchunkLe
    split
    · next hzero =>
      rw [if_pos hzero] at hchunkLe
      omega
    · next hzero =>
      rw [if_neg hzero] at hchunkLe
      omega

/-- What every round over the waiting queue keeps. Of the admitted groups only the last one is sure
to find the state that it is to restore. -/
structure PrefillProgress (cfg : SchedulerConfig A T δ) (enableChunking : Bool)
    (start : Scheduler ρ δ A T) (round : PrefillRound ρ δ A T) : Prop where
  index : Reordered start.gdnPrefixPolicy round.scheduler.gdnPrefixPolicy none
  running : round.scheduler.running = start.running
  swapped : round.scheduler.swapped = start.swapped
  budget : round.budget.tokenBudget = cfg.maxNumBatchedTokens
  entries : ¬ (enableChunking ∧ cfg.enablePrefixCaching) → GdnCalm start round.scheduler
  waiting : ∀ g ∈ round.scheduler.waiting, Unstarted g
  prompts : ∀ sg ∈ round.outputs.seqGroups, sg.seqGroup.isPrefill
  chunk_pos : ∀ sg ∈ round.outputs.seqGroups, 0 < sg.tokenChunkSize
  last : ∀ sg, round.outputs.seqGroups.getLast? = some sg → ∀ key,
    restoreEntry round.scheduler sg.seqGroup.requestId = some key →
      [key] <:+ round.scheduler.gdnPrefixPolicy.resident
  fits : ∀ sg, round.outputs.seqGroups.getLast? = some sg →
    QueryFits cfg round.scheduler sg.seqGroup sg.tokenChunkSize

/-- Before a step no prompt has an entry, unless prompts are planned. -/
def Unplanned (cfg : SchedulerConfig A T δ) (enableChunking : Bool) (s : Scheduler ρ δ A T) : Prop :=
  ¬ (enableChunking ∧ cfg.enablePrefixCaching) → ∀ requestId, restoreEntry s requestId = none

/-- A group is admitted. -/
theorem admitGroup_progress {enableChunking : Bool} {tokens : ℕ} {round round' : PrefillRound ρ δ A T}
    (h : PrefillProgress cfg enableChunking start round) (hstart : Unplanned cfg enableChunking start)
    (hnew : getNumNewTokens cfg g .waiting enableChunking round.budget = .ok tokens)
    (hunstarted : Unstarted g) (hpos : 0 < tokens) (hle : tokens ≤ round.budget.remainingTokenBudget)
    (hok : admitGroup cfg env enableChunking g tokens round = .ok round') :
    PrefillProgress cfg enableChunking start round' := by
  obtain ⟨⟨g', allocated⟩, hallocated, hok⟩ := bind_eq_ok.mp hok
  obtain ⟨m, -, hset⟩ := bind_eq_ok.mp hallocated
  obtain ⟨rfl, rfl⟩ := Prod.mk.inj (Except.ok.inj hset)
  obtain ⟨hsame, -, hcomputed, hlen⟩ := isPrefill_changeStatus (g := g) .waiting .running
  have hbudget : round.budget.remainingTokenBudget ≤ cfg.maxNumBatchedTokens :=
    (Nat.sub_le _ _).trans (Nat.le_of_eq h.budget)
  have hprompt : g.isPrefill := by
    obtain ⟨_, hraise, -⟩ := bind_eq_ok.mp hnew
    exact hunstarted (not_not.mp fun hne => raiseIf_eq_ok.mp hraise (.inl hne))
  have hlt : (changeStatus g .waiting .running).numComputedTokens <
      (changeStatus g .waiting .running).len := by
    rw [hcomputed, hlen]
    exact computed_lt_of_getNumNewTokens hnew hprompt
  have hprefill : (changeStatus g .waiting .running).isPrefill := hsame ▸ hprompt
  generalize changeStatus g .waiting .running = g' at hok hlt hprefill
  have hprompts : ∀ chunk, ∀ sg ∈ round.outputs.seqGroups ++
      [(⟨g', chunk⟩ : ScheduledSequenceGroup ρ δ)], sg.seqGroup.isPrefill :=
    fun chunk sg hsg => by
      cases List.mem_append.mp hsg with
      | inl hold => exact h.prompts sg hold
      | inr hlast => exact List.mem_singleton.mp hlast ▸ hprefill
  have hlists : ∀ chunk, 0 < chunk → ∀ sg ∈ round.outputs.seqGroups ++
      [(⟨g', chunk⟩ : ScheduledSequenceGroup ρ δ)], 0 < sg.tokenChunkSize :=
    fun chunk hchunk sg hsg => by
      cases List.mem_append.mp hsg with
      | inl hold => exact h.chunk_pos sg hold
      | inr hlast => exact List.mem_singleton.mp hlast ▸ hchunk
  have htokenBudget : ∀ chunk query, ((round.budget.addNumBatchedTokens g.requestId query
      chunk).addNumSeqs g.requestId g.maxNumRunningSeqs).tokenBudget = cfg.maxNumBatchedTokens :=
    fun chunk query => by
      rw [SchedulingBudget.tokenBudget_addNumSeqs, SchedulingBudget.tokenBudget_addNumBatchedTokens]
      exact h.budget
  dsimp only at hok
  split at hok
  · next hplans =>
    obtain ⟨⟨⟨chunk, query⟩, s₂⟩, hplanned, hok⟩ := bind_eq_ok.mp hok
    obtain rfl := Except.ok.inj hok
    obtain ⟨hindex, hqueues, hchunk, hchunkLe⟩ := planRequest_index hpos hle hplanned
    refine ⟨⟨hindex.policy.trans h.index.policy, fun key => (hindex.mem_iff key).trans
      (h.index.mem_iff key), fun hres => hindex.residents (h.index.residents hres), fun _ h => nomatch h⟩,
      hqueues.running.trans h.running, hqueues.swapped.trans h.swapped, htokenBudget _ _,
      fun hnot => absurd hplans hnot, hqueues.waiting ▸ h.waiting, hprompts _, hlists _ hchunk,
      fun sg hsg key hkey => ?_, fun sg hsg => ?_⟩
    · rw [List.getLast?_concat] at hsg
      obtain rfl := Option.some.inj hsg
      exact hindex.last key hkey
    · rw [List.getLast?_concat] at hsg
      obtain rfl := Option.some.inj hsg
      exact ⟨hchunk, hlt, hchunkLe.trans (Nat.add_le_add_left hbudget _)⟩
  · next hplans =>
    obtain rfl := Except.ok.inj hok
    have hcalm := h.entries hplans
    have hnone : ∀ key, restoreEntry round.scheduler g'.requestId ≠ some key := fun key hkey => by
      have hold := hcalm.entries _ key hkey
      rw [hstart hplans] at hold
      cases hold
    refine ⟨h.index, h.running, h.swapped, htokenBudget _ _,
      fun _ => ⟨hcalm.policy, hcalm.entries⟩, h.waiting, hprompts _, hlists _ hpos,
      fun sg hsg key hkey => ?_, fun sg hsg => ?_⟩
    · rw [List.getLast?_concat] at hsg
      obtain rfl := Option.some.inj hsg
      exact absurd hkey (hnone key)
    · rw [List.getLast?_concat] at hsg
      obtain rfl := Option.some.inj hsg
      refine ⟨hpos, hlt, ?_⟩
      have hfit := hle.trans hbudget
      unfold physicalContext
      dsimp only
      split
      · next hzero => omega
      · omega

/-- The loop of `_schedule_prefills`. -/
theorem prefillsLoop_progress {enableChunking : Bool} {n : ℕ} {queue : List (SequenceGroup ρ δ)}
    {round round' : PrefillRound ρ δ A T} (h : PrefillProgress cfg enableChunking start round)
    (hstart : Unplanned cfg enableChunking start) (hqueue : ∀ g ∈ queue, Unstarted g)
    (hok : prefillsLoop cfg env enableChunking n queue round = .ok round') :
    PrefillProgress cfg enableChunking start round' := by
  have hmoved : ∀ (round : PrefillRound ρ δ A T) waiting, (∀ g ∈ waiting, Unstarted g) →
      PrefillProgress cfg enableChunking start round →
      PrefillProgress cfg enableChunking start
        { round with scheduler := { round.scheduler with waiting := waiting } } :=
    fun round waiting hwaiting h => ⟨h.index, h.running, h.swapped, h.budget,
      fun hnot => ⟨(h.entries hnot).policy, (h.entries hnot).entries⟩, hwaiting, h.prompts,
      h.chunk_pos, h.last, fun sg hsg =>
        ⟨(h.fits sg hsg).chunk_pos, (h.fits sg hsg).computed_lt, (h.fits sg hsg).query_le⟩⟩
  induction queue generalizing n round with
  | nil =>
    obtain rfl := Except.ok.inj hok
    exact hmoved round [] (fun _ hg => absurd hg List.not_mem_nil) h
  | cons g queue ih =>
    have hignored : PrefillProgress cfg enableChunking start { round with
        outputs := { round.outputs with
          ignoredSeqGroups := round.outputs.ignoredSeqGroups ++ [ignore g] } } :=
      ⟨h.index, h.running, h.swapped, h.budget, h.entries, h.waiting, h.prompts, h.chunk_pos, h.last,
        h.fits⟩
    have hrest : ∀ g' ∈ queue, Unstarted g' := fun g' hg' =>
      hqueue g' (List.mem_cons_of_mem g hg')
    unfold prefillsLoop at hok
    split at hok
    · obtain rfl := Except.ok.inj hok
      exact hmoved round _ hqueue h
    · obtain ⟨_, -, hok⟩ := bind_eq_ok.mp hok
      obtain ⟨tokens, htokens, hok⟩ := bind_eq_ok.mp hok
      obtain ⟨_, -, hok⟩ := bind_eq_ok.mp hok
      split at hok
      · exact ih hignored hrest hok
      · split at hok
        · obtain rfl := Except.ok.inj hok
          exact hmoved round _ hqueue h
        · exact ih hignored hrest hok
        · obtain ⟨canSchedule, hfits, hok⟩ := bind_eq_ok.mp hok
          split at hok
          · obtain rfl := Except.ok.inj hok
            exact hmoved round _ hqueue h
          · next hcan =>
            obtain ⟨next, hnext, hok⟩ := bind_eq_ok.mp hok
            obtain ⟨hpos, hle, -⟩ := fits_bounds h.budget hfits (not_not.mp hcan)
            exact ih (admitGroup_progress h hstart htokens (hqueue g List.mem_cons_self) hpos hle
              hnext) hrest hok

end Ikun.PrefixStates
