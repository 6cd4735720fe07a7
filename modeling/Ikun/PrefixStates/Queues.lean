import Ikun.PrefixStates.Steps

/-!
# The queues of a step

Both policies of the scheduler put together what the loops over the queues leave. If there is at most
one prompt in the step, then its query fits, and the state that it restores is the one used last.
-/

namespace Ikun.PrefixStates

open Except GdnPrefix Scheduling Scheduling.Scheduler

variable {ρ δ A T : Type} [DecidableEq ρ] [DecidableEq δ]
variable {cfg : SchedulerConfig A T δ} {env : Environment ρ δ}
  {s s' : Scheduler ρ δ A T} {g : SequenceGroup ρ δ}

/-! ## The queues one by one -/

omit [DecidableEq δ] in
theorem scheduleRunning_progress {enableChunking : Bool} {budget : SchedulingBudget ρ}
    {round : RunningRound ρ δ A T} (hrunning : ∀ g ∈ s.running, Progressed g)
    (hbudget : budget.tokenBudget = cfg.maxNumBatchedTokens)
    (hok : s.scheduleRunning cfg env enableChunking budget = .ok round) :
    RunningProgress cfg enableChunking s round := by
  obtain ⟨_, -, hok⟩ := bind_eq_ok.mp hok
  refine runningLoop_progress ?_ hok
  exact ⟨.refl s, rfl, rfl, hbudget, hrunning, fun _ h => absurd h List.not_mem_nil,
    fun _ h => absurd h List.not_mem_nil, fun _ h => absurd h List.not_mem_nil,
    fun _ h => absurd h List.not_mem_nil⟩

omit [DecidableEq δ] in
theorem scheduleSwappedAfter_progress {running : RunningRound ρ δ A T}
    {round : SwappedRound ρ δ A T} (hswapped : ∀ g ∈ running.scheduler.swapped, Progressed g)
    (hbudget : running.budget.tokenBudget = cfg.maxNumBatchedTokens)
    (hok : scheduleSwappedAfter cfg running = .ok round) :
    SwappedProgress cfg running.scheduler round := by
  have hstart : SwappedProgress cfg running.scheduler
      { scheduler := running.scheduler, budget := running.budget } :=
    ⟨.refl _, rfl, rfl, hswapped, hbudget, fun _ h => absurd h List.not_mem_nil,
      fun _ h => absurd h List.not_mem_nil⟩
  unfold scheduleSwappedAfter at hok
  split at hok
  · exact swappedLoop_progress hstart hswapped hok
  · obtain rfl := Except.ok.inj hok
    exact hstart

omit [DecidableEq δ] in
/-- The start of the loop over the waiting queue. -/
theorem prefillProgress_start {enableChunking : Bool} {budget : SchedulingBudget ρ}
    (hwaiting : ∀ g ∈ s.waiting, Unstarted g)
    (hbudget : budget.tokenBudget = cfg.maxNumBatchedTokens) :
    PrefillProgress cfg enableChunking s { scheduler := s, budget := budget } :=
  ⟨.refl _, rfl, rfl, hbudget, fun _ => .refl s, hwaiting, fun _ h => absurd h List.not_mem_nil,
    fun _ h => absurd h List.not_mem_nil, (fun _ h => nomatch h), (fun _ h => nomatch h)⟩

omit [DecidableEq δ] in
/-- The loop of `_schedule_priority_preemption` only preempts. -/
theorem priorityLoop_quiet {tokens seqs : ℕ} {victims waiting : List (SequenceGroup ρ δ)}
    {b : SchedulingBudget ρ} (hvictims : ∀ victim ∈ victims, Progressed victim)
    {swept : List (SequenceGroup ρ δ) × List (SequenceGroup ρ δ) × Scheduler ρ δ A T ×
      SchedulingBudget ρ}
    (hok : priorityLoop cfg g tokens seqs victims waiting s b = .ok swept) :
    (∀ victim ∈ swept.1, victim ∈ victims) ∧ Quiet s swept.2.2.1 ∧ NoLess b swept.2.2.2 ∧
      ∀ g ∈ swept.2.1, g ∈ waiting ∨ Unstarted g := by
  induction victims generalizing waiting s b with
  | nil =>
    obtain rfl := Except.ok.inj hok
    exact ⟨fun _ => id, .refl s, ⟨rfl, Nat.le_refl _⟩, fun _ => .inl⟩
  | cons victim victims ih =>
    unfold priorityLoop at hok
    split at hok
    · obtain rfl := Except.ok.inj hok
      exact ⟨fun _ => id, .refl s, ⟨rfl, Nat.le_refl _⟩, fun _ => .inl⟩
    · obtain ⟨room, -, hok⟩ := bind_eq_ok.mp hok
      split at hok
      · obtain rfl := Except.ok.inj hok
        exact ⟨fun _ => id, .refl s, ⟨rfl, Nat.le_refl _⟩, fun _ => .inl⟩
      · obtain ⟨tokens', htokens, hok⟩ := bind_eq_ok.mp hok
        obtain ⟨⟨s₁, lists⟩, hpreempted, hok⟩ := bind_eq_ok.mp hok
        obtain ⟨hquiet, -⟩ := preempt_quiet (hvictims victim List.mem_cons_self) hpreempted
        obtain ⟨_, hraise, -⟩ := bind_eq_ok.mp htokens
        have hstatus : victim.status = .running :=
          not_not.mp fun hne => raiseIf_eq_ok.mp hraise (.inl hne)
        obtain ⟨hrecomputed, hswappedOut⟩ := preempt_unstarted hpreempted
        obtain ⟨hsub, hrest, hless, hwaiting⟩ :=
          ih (fun v hv => hvictims v (List.mem_cons_of_mem victim hv)) hok
        refine ⟨fun v hv => List.mem_cons_of_mem victim (hsub v hv), hquiet.trans hrest,
          (noLess_subtract _ _ _ _).trans hless, fun v hv => ?_⟩
        cases hwaiting v hv with
        | inl hmem =>
          cases List.mem_append.mp hmem with
          | inl hpreempted =>
            cases List.mem_append.mp hpreempted with
            | inl h => exact .inr ((hrecomputed v h).resolve_left List.not_mem_nil)
            | inr h => exact .inr ((hswappedOut hstatus v h).resolve_left List.not_mem_nil)
          | inr hold => exact .inl hold
        | inr hnew => exact .inr hnew

omit [DecidableEq δ] in
theorem schedulePriorityPreemption_calm {b b' : SchedulingBudget ρ}
    (hrunning : ∀ g ∈ s.running, Progressed g) (hwaiting : ∀ g ∈ s.waiting, Unstarted g)
    (hok : s.schedulePriorityPreemption cfg b = .ok (s', b')) :
    GdnCalm s s' ∧ s'.swapped = s.swapped ∧ (∀ g ∈ s'.running, Progressed g) ∧
      b'.tokenBudget = b.tokenBudget ∧ ∀ g ∈ s'.waiting, Unstarted g := by
  have hsorted : ∀ g ∈ sortByPriority s.running, Progressed g :=
    fun g hg => hrunning g ((List.mem_insertionSort _).mp hg)
  unfold schedulePriorityPreemption at hok
  dsimp only at hok
  split at hok
  · obtain ⟨rfl, rfl⟩ := Prod.mk.inj (Except.ok.inj hok)
    exact ⟨gdnCalm_of_eq rfl rfl, rfl, hsorted, rfl, hwaiting⟩
  · next first queue hqueue =>
    obtain ⟨tokens, -, hok⟩ := bind_eq_ok.mp hok
    obtain ⟨swept, hswept, hok⟩ := bind_eq_ok.mp hok
    obtain ⟨rfl, rfl⟩ := Prod.mk.inj (Except.ok.inj hok)
    obtain ⟨hsub, hquiet, hless, hswept⟩ := priorityLoop_quiet
      (fun v hv => hsorted v (List.mem_reverse.mp hv)) hswept
    refine ⟨⟨hquiet.calm.policy, hquiet.calm.entries⟩, hquiet.queues.swapped, fun g hg => ?_,
      hless.tokenBudget, fun g hg => ?_⟩
    · exact hsorted g (List.mem_reverse.mp (hsub g (List.mem_reverse.mp hg)))
    · cases List.mem_cons.mp ((List.mem_insertionSort _).mp hg) with
      | inl hfirst => exact hwaiting g (hqueue ▸ hfirst ▸ List.mem_cons_self)
      | inr hrest =>
        refine (hswept g hrest).elim (fun hold => ?_) id
        exact hwaiting g (hqueue ▸ List.mem_cons_of_mem first hold)

/-! ## Both policies -/

/-- What a step makes of the queues and of the index. -/
structure Queued (cfg : SchedulerConfig A T δ) (s : Scheduler ρ δ A T)
    (outputs : SchedulerOutputs ρ δ) (s' : Scheduler ρ δ A T) : Prop where
  index : Reordered s.gdnPrefixPolicy s'.gdnPrefixPolicy none
  running : ∀ g ∈ s'.running, Progressed g ∨ g ∈ groupsOf outputs.scheduledSeqGroups
  swapped : ∀ g ∈ s'.swapped, Progressed g
  waiting : ∀ g ∈ s'.waiting, Unstarted g
  unplanned : Unplanned cfg cfg.chunkedPrefillEnabled s'
  chunk_pos : ∀ sg ∈ outputs.scheduledSeqGroups, 0 < sg.tokenChunkSize
  prompts : (outputs.scheduledSeqGroups.filter (·.seqGroup.isPrefill)).length
    = outputs.numPrefillGroups
  single : outputs.numPrefillGroups ≤ 1 → ∀ sg ∈ outputs.scheduledSeqGroups,
    sg.seqGroup.isPrefill → QueryFits cfg s' sg.seqGroup sg.tokenChunkSize ∧
      ∀ key, restoredOf s' sg.seqGroup = some key → [key] <:+ s'.gdnPrefixPolicy.resident

omit [DecidableEq δ] in
/-- A prompt that has been running restores nothing. -/
theorem RunningChunk.fits {sg : ScheduledSequenceGroup ρ δ} (h : RunningChunk cfg true sg)
    (s : Scheduler ρ δ A T) :
    QueryFits cfg s sg.seqGroup sg.tokenChunkSize ∧ restoredOf s sg.seqGroup = none := by
  have hne : sg.seqGroup.numComputedTokens ≠ 0 := Nat.ne_of_gt h.computed_pos
  refine ⟨⟨h.chunk_pos, h.computed_lt, ?_⟩, if_neg hne⟩
  unfold physicalContext
  rw [if_neg hne]
  exact Nat.add_le_add_left (h.chunk_le rfl) _

omit [DecidableEq ρ] [DecidableEq δ] in
theorem filter_isPrefill_prompts {l : List (ScheduledSequenceGroup ρ δ)}
    (h : ∀ sg ∈ l, sg.seqGroup.isPrefill) : l.filter (·.seqGroup.isPrefill) = l :=
  List.filter_eq_self.mpr h

omit [DecidableEq ρ] [DecidableEq δ] in
/-- The decodes of a step are no prompts. -/
theorem filter_isPrefill_decodes {l : List (ScheduledSequenceGroup ρ δ)}
    (h : ∀ sg ∈ l, ¬ sg.seqGroup.isPrefill) : l.filter (·.seqGroup.isPrefill) = [] :=
  List.filter_eq_nil_iff.mpr h

omit [DecidableEq δ] in
/-- An only prompt that is admitted finds the state that it restores. -/
theorem PrefillProgress.only {enableChunking : Bool} {start : Scheduler ρ δ A T}
    {round : PrefillRound ρ δ A T} (h : PrefillProgress cfg enableChunking start round)
    (hone : round.outputs.seqGroups.length ≤ 1) {sg : ScheduledSequenceGroup ρ δ}
    (hsg : sg ∈ round.outputs.seqGroups) :
    QueryFits cfg round.scheduler sg.seqGroup sg.tokenChunkSize ∧
      ∀ key, restoredOf round.scheduler sg.seqGroup = some key →
        [key] <:+ round.scheduler.gdnPrefixPolicy.resident := by
  have hlast : round.outputs.seqGroups.getLast? = some sg := by
    match hlist : round.outputs.seqGroups, hsg, hone with
    | [sg'], hsg, _ => exact congrArg some (List.mem_singleton.mp hsg).symm
  refine ⟨h.fits sg hlast, fun key hkey => ?_⟩
  unfold restoredOf at hkey
  split at hkey
  · exact h.last sg hlast key hkey
  · cases hkey

/-- `_schedule_chunked_prefill`. -/
theorem scheduleChunkedPrefill_queued {outputs : SchedulerOutputs ρ δ}
    (hrunning : ∀ g ∈ s.running, Progressed g) (hswapped : ∀ g ∈ s.swapped, Progressed g)
    (hwaiting : ∀ g ∈ s.waiting, Unstarted g)
    (hunplanned : Unplanned cfg true s) (hchunking : cfg.chunkedPrefillEnabled = true)
    (hok : s.scheduleChunkedPrefill cfg env = .ok (outputs, s')) : Queued cfg s outputs s' := by
  obtain ⟨running, hran, hok⟩ := bind_eq_ok.mp hok
  obtain ⟨swappedIn, hswappedIn, hok⟩ := bind_eq_ok.mp hok
  obtain ⟨prefills, hprefills, hok⟩ := bind_eq_ok.mp hok
  obtain ⟨checked, hchecked, hok⟩ := bind_eq_ok.mp hok
  obtain ⟨rfl, rfl⟩ := Prod.mk.inj (Except.ok.inj hok)
  obtain rfl := checkOutputs_ok hchecked
  have hr := scheduleRunning_progress hrunning rfl hran
  have hs := scheduleSwappedAfter_progress (fun g hg => hswapped g (hr.swapped ▸ hg)) hr.budget
    hswappedIn
  have hcalm := hr.calm.trans hs.calm
  have hunplanned' : Unplanned cfg true swappedIn.scheduler := fun hnot requestId => by
    refine Option.eq_none_iff_forall_ne_some.mpr fun key hkey => ?_
    have hold := hcalm.entries requestId key hkey
    rw [hunplanned hnot requestId] at hold
    cases hold
  have hwaiting' : ∀ g ∈ swappedIn.scheduler.waiting, Unstarted g := fun g hg =>
    hwaiting g (hr.waiting ▸ hs.waiting ▸ hg)
  have hp := prefillsLoop_progress (prefillProgress_start hwaiting' hs.budget) hunplanned' hwaiting'
    hprefills
  have hdecodes : ∀ sg, sg ∈ running.outputs.decodeSeqGroups ∨
      sg ∈ swappedIn.outputs.decodeSeqGroups → ¬ sg.seqGroup.isPrefill ∧ 0 < sg.tokenChunkSize :=
    fun sg hsg => hsg.elim (hr.decodes sg) (hs.decodes sg)
  have hchunks : ∀ sg, sg ∈ running.outputs.prefillSeqGroups ∨
      sg ∈ swappedIn.outputs.prefillSeqGroups → RunningChunk cfg true sg :=
    fun sg hsg => hsg.elim (hr.prefills sg) (hs.prefills sg)
  have hpolicy : swappedIn.scheduler.gdnPrefixPolicy = s.gdnPrefixPolicy := hcalm.policy
  refine ⟨?_, fun g hg => ?_, fun g hg => ?_, fun g hg => ?_, ?_, fun sg hsg => ?_, ?_,
    fun hone sg hsg hprefill => ?_⟩
  · have hindex := hp.index
    rw [hpolicy] at hindex
    exact hindex
  · simp only [List.mem_append] at hg
    simp only [groupsOf_append, List.mem_append]
    have hrunning' : g ∈ prefills.scheduler.running → Progressed g := fun hmem =>
      hr.running g (hs.running ▸ hp.running ▸ hmem)
    tauto
  · cases List.mem_append.mp hg with
    | inl hold => exact hs.swapped g (hp.swapped ▸ hold)
    | inr hout => exact hr.swappedOut g hout
  · cases List.mem_append.mp hg with
    | inl hpreempted => exact hr.preempted g (List.mem_reverse.mp hpreempted)
    | inr hold => exact hp.waiting g hold
  · intro hnot requestId
    rw [hchunking] at hnot
    have hentries := (hp.entries hnot).entries requestId
    refine Option.eq_none_iff_forall_ne_some.mpr fun key hkey => ?_
    have hold := hentries key hkey
    rw [hunplanned' hnot requestId] at hold
    cases hold
  · simp only [List.mem_append] at hsg
    rcases hsg with (((hsg | hsg) | hsg) | hsg) | hsg
    · exact hp.chunk_pos sg hsg
    · exact (hchunks sg (.inl hsg)).chunk_pos
    · exact (hchunks sg (.inr hsg)).chunk_pos
    · exact (hdecodes sg (.inl hsg)).2
    · exact (hdecodes sg (.inr hsg)).2
  · dsimp only
    rw [List.filter_append, List.filter_append, List.filter_append, List.filter_append,
      filter_isPrefill_decodes fun sg hsg => (hdecodes sg (.inr hsg)).1,
      filter_isPrefill_decodes fun sg hsg => (hdecodes sg (.inl hsg)).1, List.append_nil,
      List.append_nil, filter_isPrefill_prompts hp.prompts,
      filter_isPrefill_prompts fun sg hsg => (hr.prefills sg hsg).isPrefill,
      filter_isPrefill_prompts fun sg hsg => (hs.prefills sg hsg).isPrefill,
      List.length_append, List.length_append, Nat.add_right_comm]
  · dsimp only at hone
    simp only [List.mem_append] at hsg
    rcases hsg with (((hsg | hsg) | hsg) | hsg) | hsg
    · obtain ⟨hfits, hlast⟩ := hp.only (by omega) hsg
      exact ⟨⟨hfits.chunk_pos, hfits.computed_lt, hfits.query_le⟩, hlast⟩
    · obtain ⟨hfits, hnone⟩ := (hchunks sg (.inl hsg)).fits prefills.scheduler
      exact ⟨⟨hfits.chunk_pos, hfits.computed_lt, hfits.query_le⟩,
        fun key hkey => nomatch hnone.symm.trans hkey⟩
    · obtain ⟨hfits, hnone⟩ := (hchunks sg (.inr hsg)).fits prefills.scheduler
      exact ⟨⟨hfits.chunk_pos, hfits.computed_lt, hfits.query_le⟩,
        fun key hkey => nomatch hnone.symm.trans hkey⟩
    · exact absurd hprefill (hdecodes sg (.inl hsg)).1
    · exact absurd hprefill (hdecodes sg (.inr hsg)).1

omit [DecidableEq δ] in
/-- What a step without prompts of its own keeps when it preempts by priority. -/
theorem preemptByPriority_calm {prefills : PrefillRound ρ δ A T} {b : SchedulingBudget ρ}
    (hrunning : ∀ g ∈ prefills.scheduler.running, Progressed g)
    (hwaiting : ∀ g ∈ prefills.scheduler.waiting, Unstarted g)
    (hok : preemptByPriority cfg prefills = .ok (s', b)) :
    GdnCalm prefills.scheduler s' ∧ s'.swapped = prefills.scheduler.swapped ∧
      (∀ g ∈ s'.running, Progressed g) ∧ b.tokenBudget = prefills.budget.tokenBudget ∧
      (∀ g ∈ s'.waiting, Unstarted g) ∧ (prefills.outputs.seqGroups ≠ [] → s' = prefills.scheduler) := by
  unfold preemptByPriority at hok
  split at hok
  · next hempty =>
    obtain ⟨hcalm, hswapped, hrunning', hbudget, hwaiting'⟩ :=
      schedulePriorityPreemption_calm hrunning hwaiting hok
    exact ⟨hcalm, hswapped, hrunning', hbudget, hwaiting',
      fun hne => absurd (List.isEmpty_iff.mp hempty.1) hne⟩
  · obtain ⟨rfl, rfl⟩ := Prod.mk.inj (Except.ok.inj hok)
    exact ⟨.refl _, rfl, hrunning, rfl, hwaiting, fun _ => rfl⟩

omit [DecidableEq δ] in
theorem tokenBudget_countRunning : (s.countRunning cfg).tokenBudget = cfg.maxNumBatchedTokens := by
  unfold countRunning
  have hfold : ∀ (l : List (SequenceGroup ρ δ)) (budget : SchedulingBudget ρ),
      (l.foldl (fun budget g => budget.addNumSeqs g.requestId g.maxNumRunningSeqs)
        budget).tokenBudget = budget.tokenBudget := by
    intro l
    induction l with
    | nil => exact fun budget => rfl
    | cons g l ih =>
      intro budget
      rw [List.foldl_cons, ih, SchedulingBudget.tokenBudget_addNumSeqs]
  exact hfold s.running _

/-- `_schedule_default`. -/
theorem scheduleDefault_queued {outputs : SchedulerOutputs ρ δ}
    (hrunning : ∀ g ∈ s.running, Progressed g) (hswapped : ∀ g ∈ s.swapped, Progressed g)
    (hwaiting : ∀ g ∈ s.waiting, Unstarted g)
    (hunplanned : Unplanned cfg false s)
    (hok : s.scheduleDefault cfg env = .ok (outputs, s')) : Queued cfg s outputs s' := by
  obtain ⟨prefills, hprefills, hok⟩ := bind_eq_ok.mp hok
  obtain ⟨⟨s₁, b₁⟩, hpreempted, hok⟩ := bind_eq_ok.mp hok
  obtain ⟨⟨running, swappedIn⟩, hscheduled, hok⟩ := bind_eq_ok.mp hok
  obtain ⟨checked, hchecked, hok⟩ := bind_eq_ok.mp hok
  obtain ⟨_, hnoRunning, hok⟩ := bind_eq_ok.mp hok
  obtain ⟨_, hnoSwapped, hok⟩ := bind_eq_ok.mp hok
  obtain ⟨rfl, rfl⟩ := Prod.mk.inj (Except.ok.inj hok)
  obtain rfl := checkOutputs_ok hchecked
  have hplans : ¬ (false = true ∧ cfg.enablePrefixCaching = true) := fun h => Bool.false_ne_true h.1
  have hp : PrefillProgress cfg false s prefills := by
    unfold prefillsUnlessSwapped at hprefills
    have hstart : PrefillProgress cfg false s { scheduler := s, budget := s.countRunning cfg } :=
      prefillProgress_start hwaiting tokenBudget_countRunning
    split at hprefills
    · exact prefillsLoop_progress hstart hunplanned hwaiting hprefills
    · obtain rfl := Except.ok.inj hprefills
      exact hstart
  obtain ⟨hcalm₁, hswapped₁, hrunning₁, hbudget₁, hwaiting₁, hkept₁⟩ := preemptByPriority_calm
    (fun g hg => hrunning g (hp.running ▸ hg)) hp.waiting hpreempted
  have hswappedOk : ∀ g ∈ s₁.swapped, Progressed g := fun g hg => by
    rw [hswapped₁, hp.swapped] at hg
    exact hswapped g hg
  -- the queues behind the waiting one, which are not looked at when there are prompts
  have hlater : RunningProgress cfg false s₁ running ∧
      SwappedProgress cfg running.scheduler swappedIn ∧
      (prefills.outputs.seqGroups ≠ [] → swappedIn.scheduler = prefills.scheduler) := by
    unfold runningUnlessPrefills at hscheduled
    split at hscheduled
    · next hempty =>
      obtain ⟨ran, hran, hscheduled⟩ := bind_eq_ok.mp hscheduled
      obtain ⟨swapped, hswappedIn, hscheduled⟩ := bind_eq_ok.mp hscheduled
      obtain ⟨rfl, rfl⟩ := Prod.mk.inj (Except.ok.inj hscheduled)
      have hr := scheduleRunning_progress hrunning₁ (hbudget₁.trans hp.budget) hran
      exact ⟨hr, scheduleSwappedAfter_progress (fun g hg => hswappedOk g (hr.swapped ▸ hg)) hr.budget
        hswappedIn, fun hne => absurd (List.isEmpty_iff.mp hempty) hne⟩
    · obtain ⟨rfl, rfl⟩ := Prod.mk.inj (Except.ok.inj hscheduled)
      have hbudget := hbudget₁.trans hp.budget
      exact ⟨⟨.refl _, rfl, rfl, hbudget, hrunning₁, fun _ h => absurd h List.not_mem_nil,
          fun _ h => absurd h List.not_mem_nil, fun _ h => absurd h List.not_mem_nil,
          fun _ h => absurd h List.not_mem_nil⟩,
        ⟨.refl _, rfl, rfl, hswappedOk, hbudget, fun _ h => absurd h List.not_mem_nil,
          fun _ h => absurd h List.not_mem_nil⟩, hkept₁⟩
  obtain ⟨hr, hs, hkept⟩ := hlater
  have hcalm := (hcalm₁.trans hr.calm).trans hs.calm
  have hdecodes : ∀ sg, sg ∈ running.outputs.decodeSeqGroups ∨
      sg ∈ swappedIn.outputs.decodeSeqGroups → ¬ sg.seqGroup.isPrefill ∧ 0 < sg.tokenChunkSize :=
    fun sg hsg => hsg.elim (hr.decodes sg) (hs.decodes sg)
  refine ⟨?_, fun g hg => ?_, fun g hg => ?_, fun g hg => ?_, ?_, fun sg hsg => ?_, ?_,
    fun hone sg hsg hprefill => ?_⟩
  · have hindex := hp.index
    rw [← hcalm.policy] at hindex
    exact hindex
  · simp only [List.mem_append] at hg
    simp only [groupsOf_append, List.mem_append]
    have hrunning' : g ∈ swappedIn.scheduler.running → Progressed g := fun hmem =>
      hr.running g (hs.running ▸ hmem)
    tauto
  · cases List.mem_append.mp hg with
    | inl hold => exact hs.swapped g hold
    | inr hout => exact hr.swappedOut g hout
  · cases List.mem_append.mp hg with
    | inl hpreempted => exact hr.preempted g (List.mem_reverse.mp hpreempted)
    | inr hold => exact hwaiting₁ g (hr.waiting ▸ hs.waiting ▸ hold)
  · intro _ requestId
    refine Option.eq_none_iff_forall_ne_some.mpr fun key hkey => ?_
    have hold := (hp.entries hplans).entries requestId key (hcalm.entries requestId key hkey)
    rw [hunplanned hplans requestId] at hold
    cases hold
  · simp only [List.mem_append] at hsg
    rcases hsg with (hsg | hsg) | hsg
    · exact hp.chunk_pos sg hsg
    · exact (hdecodes sg (.inl hsg)).2
    · exact (hdecodes sg (.inr hsg)).2
  · dsimp only
    rw [List.filter_append, List.filter_append,
      filter_isPrefill_decodes fun sg hsg => (hdecodes sg (.inr hsg)).1,
      filter_isPrefill_decodes fun sg hsg => (hdecodes sg (.inl hsg)).1, List.append_nil,
      List.append_nil, filter_isPrefill_prompts hp.prompts]
  · simp only [List.mem_append] at hsg
    rcases hsg with (hsg | hsg) | hsg
    · obtain ⟨hfits, hlast⟩ := hp.only hone hsg
      have hsame := hkept (List.ne_nil_of_mem hsg)
      refine ⟨⟨hfits.chunk_pos, hfits.computed_lt, ?_⟩, ?_⟩
      · have hle := hfits.query_le
        rw [← hsame] at hle
        exact hle
      · rw [← hsame] at hlast
        exact hlast
    · exact absurd hprefill (hdecodes sg (.inl hsg)).1
    · exact absurd hprefill (hdecodes sg (.inr hsg)).1

/-- `_schedule`. -/
theorem scheduleQueues_queued {outputs : SchedulerOutputs ρ δ}
    (hrunning : ∀ g ∈ s.running, Progressed g) (hswapped : ∀ g ∈ s.swapped, Progressed g)
    (hwaiting : ∀ g ∈ s.waiting, Unstarted g)
    (hunplanned : Unplanned cfg cfg.chunkedPrefillEnabled s)
    (hok : s.scheduleQueues cfg env = .ok (outputs, s')) : Queued cfg s outputs s' := by
  unfold scheduleQueues at hok
  cases hchunking : cfg.chunkedPrefillEnabled with
  | true =>
    rw [hchunking] at hunplanned
    rw [if_pos hchunking] at hok
    exact scheduleChunkedPrefill_queued hrunning hswapped hwaiting hunplanned hchunking hok
  | false =>
    rw [hchunking] at hunplanned
    rw [if_neg (Bool.eq_false_iff.mp hchunking)] at hok
    exact scheduleDefault_queued hrunning hswapped hwaiting hunplanned hok

end Ikun.PrefixStates
