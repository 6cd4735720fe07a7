import Ikun.Scheduler.Conservation

/-!
# The accounts of a step

The waiting queue, the two policies and the metadata: a step that ignores no group leaves the
accounts in order, and every scheduled group is a running one after it.
-/

namespace Ikun.Scheduling.Scheduler

open Except

variable {ρ δ A T : Type} [DecidableEq ρ] [DecidableEq δ]
variable {cfg : SchedulerConfig A T δ} {env : Environment ρ δ}
variable {s s' : Scheduler ρ δ A T} {g : SequenceGroup ρ δ} {ledger : Ledger ρ}
variable {ps qs : Multiset (SequenceGroup ρ δ)}

/-! ## The waiting queue -/

omit [DecidableEq ρ] [DecidableEq δ] in
/-- A group gets no more tokens than it has, and no more than are left in the budget. -/
theorem getNumNewTokens_le {status : SequenceStatus} {enableChunking : Bool}
    {budget : SchedulingBudget ρ} {tokens : ℕ}
    (hok : getNumNewTokens cfg g status enableChunking budget = .ok tokens) :
    tokens ≤ if enableChunking then min g.numNewTokens budget.remainingTokenBudget
      else g.numNewTokens := by
  obtain ⟨-, -, hok⟩ := bind_eq_ok.mp hok
  split at hok
  · next hchunking =>
    rw [if_pos hchunking]
    split at hok
    · obtain ⟨-, -, hok⟩ := bind_eq_ok.mp hok
      obtain ⟨-, -, hok⟩ := bind_eq_ok.mp hok
      obtain rfl := Except.ok.inj hok
      split
      · next hlt =>
        have hle := Nat.div_mul_le_self budget.remainingTokenBudget cfg.blockSize
        exact le_min (hle.trans (Nat.le_of_lt hlt)) hle
      · next hge => exact le_min le_rfl (Nat.le_of_not_lt hge)
    · exact (Except.ok.inj hok).ge
  · next hchunking =>
    rw [if_neg hchunking]
    exact (Except.ok.inj hok).ge

omit [DecidableEq δ] in
/-- The blocks of an admitted group are allocated. -/
theorem allocateAndSetRunning_ok {g' : SequenceGroup ρ δ} (h : Accounted ledger ({g} + ps) qs s)
    (hok : s.allocateAndSetRunning cfg env g = .ok (g', s')) :
    Accounted ledger ({g'} + ps) qs s' ∧ SameQueues s s' := by
  obtain ⟨m', hm', hok⟩ := bind_eq_ok.mp hok
  obtain ⟨rfl, rfl⟩ := Prod.mk.inj (Except.ok.inj hok)
  have hgrows := BlockSpaceManager.grows_allocate hm'
  exact ⟨(h.grow mem_singleton_add hgrows).changeStatus .waiting .running Bool.false_ne_true,
    ⟨rfl, rfl, rfl, rfl⟩⟩

/-- The entries of an admitted group are set. -/
theorem planRequest_ok {tokens : ℕ} {budget : SchedulingBudget ρ} {planned : ℕ × ℕ}
    (h : Accounted ledger ({g} + ps) qs s)
    (hok : s.planRequest cfg g tokens budget = .ok (planned, s')) :
    Accounted ledger ({g} + ps) qs s' ∧ SameQueues s s' := by
  obtain ⟨⟨blocks, m'⟩, hm', hok⟩ := bind_eq_ok.mp hok
  obtain ⟨blockHashes, -, hok⟩ := bind_eq_ok.mp hok
  obtain ⟨plan, -, hok⟩ := bind_eq_ok.mp hok
  obtain ⟨-, rfl⟩ := Prod.mk.inj (Except.ok.inj hok)
  have hgrows := BlockSpaceManager.grows_getCommonComputedBlockIds hm'
  refine ⟨(h.grow mem_singleton_add hgrows).of_entry rfl rfl fun requestId hentry => ?_,
    ⟨rfl, rfl, rfl, rfl⟩⟩
  cases hentry with
  | inl hkey => exact (Dict.mem_keys_set.mp hkey).imp_right .inl
  | inr htarget => exact (Dict.mem_keys_set.mp htarget).imp_right .inr

/-- A group that is admitted is one of the scheduled ones. -/
theorem admitGroup_ok {enableChunking : Bool} {tokens : ℕ} {round round' : PrefillRound ρ δ A T}
    (h : Accounted ledger ({g} + (.ofList (groupsOf round.outputs.seqGroups) + ps)) qs
      round.scheduler)
    (hok : admitGroup cfg env enableChunking g tokens round = .ok round') :
    Accounted ledger (.ofList (groupsOf round'.outputs.seqGroups) + ps) qs round'.scheduler ∧
      SameQueues round.scheduler round'.scheduler ∧
      round'.outputs.ignoredSeqGroups = round.outputs.ignoredSeqGroups := by
  obtain ⟨⟨g', allocated⟩, hallocated, hok⟩ := bind_eq_ok.mp hok
  obtain ⟨hacc, hqueues⟩ := allocateAndSetRunning_ok h hallocated
  split at hok
  · obtain ⟨⟨planned, s₂⟩, hplanned, hok⟩ := bind_eq_ok.mp hok
    obtain rfl := Except.ok.inj hok
    obtain ⟨hacc', hqueues'⟩ := planRequest_ok hacc hplanned
    refine ⟨hacc'.of_eq ?_ rfl, hqueues.trans hqueues', rfl⟩
    rw [groupsOf_append, groupsOf_singleton, coe_append_singleton]
    abel
  · obtain rfl := Except.ok.inj hok
    refine ⟨hacc.of_eq ?_ rfl, hqueues, rfl⟩
    rw [groupsOf_append, groupsOf_singleton, coe_append_singleton]
    abel

/-- No waiting group that the loop reaches is too large. -/
def WaitingFit (cfg : SchedulerConfig A T δ) (env : Environment ρ δ) (enableChunking : Bool)
    (start : PrefillRound ρ δ A T) : Prop :=
  ∀ n g queue round tokens, PrefillRounds cfg env enableChunking start n (g :: queue) round →
    WaitingTurn cfg env enableChunking n round g tokens → ¬ TooLarge cfg round g tokens

/-- What the rounds of the waiting queue come to. -/
structure WaitingQueue (ledger : Ledger ρ) (ps qs : Multiset (SequenceGroup ρ δ))
    (queue : List (SequenceGroup ρ δ)) (start round : PrefillRound ρ δ A T) : Prop where
  accounted : Accounted ledger (.ofList queue +
    (.ofList (groupsOf round.outputs.seqGroups) + ps)) qs round.scheduler
  running : round.scheduler.running = start.scheduler.running
  swapped : round.scheduler.swapped = start.scheduler.swapped
  asyncStopped : round.scheduler.asyncStopped = start.scheduler.asyncStopped
  feasible : round.outputs.ignoredSeqGroups = start.outputs.ignoredSeqGroups

/-- The groups of the waiting queue, when none is too large. -/
theorem PrefillRounds.waitingQueue {enableChunking : Bool} {n : ℕ}
    {queue : List (SequenceGroup ρ δ)} {start round : PrefillRound ρ δ A T}
    (hreached : PrefillRounds cfg env enableChunking start n queue round)
    (h : Accounted ledger (.ofList start.scheduler.waiting +
      (.ofList (groupsOf start.outputs.seqGroups) + ps)) qs start.scheduler)
    (hfits : WaitingFit cfg env enableChunking start) :
    WaitingQueue ledger ps qs queue start round := by
  induction hreached with
  | start => exact ⟨h, rfl, rfl, rfl, rfl⟩
  | ignored hreached hturn hlarge ih => exact absurd hlarge (hfits _ _ _ _ _ hreached hturn)
  | @admitted n round next g queue tokens hreached hturn hadmissible hnext ih =>
    have hacc : Accounted ledger ({g} + (.ofList (groupsOf round.outputs.seqGroups) +
        (.ofList queue + ps))) qs round.scheduler :=
      ih.accounted.of_eq (by rw [coe_cons]; abel) rfl
    obtain ⟨hacc', hqueues, hfeasible⟩ := admitGroup_ok hacc hnext
    exact ⟨hacc'.of_eq (add_left_comm _ _ _) rfl, hqueues.running.trans ih.running,
      hqueues.swapped.trans ih.swapped, hqueues.asyncStopped.trans ih.asyncStopped,
      hfeasible.trans ih.feasible⟩

/-- `_schedule_prefills`. -/
theorem schedulePrefills_ok {enableChunking : Bool} {budget : SchedulingBudget ρ}
    {prefills : PrefillRound ρ δ A T} (h : Accounted ledger (.ofList s.waiting + ps) qs s)
    (hfits : WaitingFit cfg env enableChunking { scheduler := s, budget := budget })
    (hok : s.schedulePrefills cfg env enableChunking budget = .ok prefills) :
    WaitingQueue ledger ps qs prefills.scheduler.waiting { scheduler := s, budget := budget }
      prefills := by
  obtain ⟨n, last, hreached, hlast⟩ := schedulePrefills_rounds hok
  have hqueue := hreached.waitingQueue (h.of_eq (congrArg (_ + ·) (zero_add ps).symm) rfl) hfits
  rw [hlast]
  exact ⟨hqueue.accounted.of_fields rfl rfl fun _ => id, hqueue.running, hqueue.swapped,
    hqueue.asyncStopped, hqueue.feasible⟩

/-! ## Preemption by priority -/

omit [DecidableEq ρ] [DecidableEq δ] in
/-- A preempted group is on no other list. -/
theorem preempt_scheduled {outputs outputs' : SchedulerRunningOutputs ρ δ}
    (hok : s.preempt cfg outputs g = .ok (s', outputs')) :
    outputs'.decodeSeqGroups = outputs.decodeSeqGroups ∧
      outputs'.prefillSeqGroups = outputs.prefillSeqGroups := by
  unfold preempt at hok
  split at hok
  · obtain ⟨preempted, -, hok⟩ := bind_eq_ok.mp hok
    obtain ⟨-, rfl⟩ := Prod.mk.inj (Except.ok.inj hok)
    exact ⟨rfl, rfl⟩
  · obtain ⟨swapped, -, hok⟩ := bind_eq_ok.mp hok
    obtain ⟨-, rfl⟩ := Prod.mk.inj (Except.ok.inj hok)
    exact ⟨rfl, rfl⟩

omit [DecidableEq δ] in
/-- The loop of `_schedule_priority_preemption`. -/
theorem priorityLoop_ok {tokens seqs : ℕ} {victims waiting : List (SequenceGroup ρ δ)}
    {budget : SchedulingBudget ρ} {swept}
    (h : Accounted ledger (.ofList victims + (.ofList waiting + ps)) qs s)
    (hok : priorityLoop cfg g tokens seqs victims waiting s budget = .ok swept) :
    Accounted ledger (.ofList swept.1 + (.ofList swept.2.1 + ps)) qs swept.2.2.1 ∧
      SameQueues s swept.2.2.1 := by
  induction victims generalizing waiting s budget with
  | nil =>
    obtain rfl := Except.ok.inj hok
    exact ⟨h, .refl s⟩
  | cons victim victims ih =>
    unfold priorityLoop at hok
    split at hok
    · obtain rfl := Except.ok.inj hok
      exact ⟨h, .refl s⟩
    · obtain ⟨room, -, hok⟩ := bind_eq_ok.mp hok
      split at hok
      · obtain rfl := Except.ok.inj hok
        exact ⟨h, .refl s⟩
      · obtain ⟨runningTokens, -, hok⟩ := bind_eq_ok.mp hok
        obtain ⟨⟨s₁, outputs⟩, hpreempted, hok⟩ := bind_eq_ok.mp hok
        have h' : Accounted ledger ({victim} + (({} : SchedulerRunningOutputs ρ δ).held +
            (.ofList victims + (.ofList waiting + ps)))) qs s := by
          refine h.of_eq ?_ rfl
          have hheld : ({} : SchedulerRunningOutputs ρ δ).held = 0 := rfl
          rw [hheld, zero_add, coe_cons, add_assoc]
        obtain ⟨hacc, hqueues⟩ := preempt_ok h' hpreempted
        obtain ⟨hdecode, hprefill⟩ := preempt_scheduled hpreempted
        have hheld : outputs.held = .ofList (outputs.preempted ++ outputs.swappedOut) := by
          unfold SchedulerRunningOutputs.held
          rw [hdecode, hprefill, ← Multiset.coe_add]
          exact (add_zero _).trans (add_zero _)
        obtain ⟨hacc', hqueues'⟩ := ih (hacc.of_eq (by
          rw [hheld, ← Multiset.coe_add (_ ++ _) waiting]; abel) rfl) hok
        exact ⟨hacc', hqueues.trans hqueues'⟩

omit [DecidableEq ρ] [DecidableEq δ] in
@[simp] theorem coe_sortByPriority (queue : List (SequenceGroup ρ δ)) :
    Multiset.ofList (sortByPriority queue) = .ofList queue :=
  Multiset.coe_eq_coe.mpr (List.perm_insertionSort _ queue)

omit [DecidableEq δ] in
/-- `_schedule_priority_preemption`. -/
theorem schedulePriorityPreemption_ok {budget budget' : SchedulingBudget ρ}
    (h : Accounted ledger (.ofList s.running + (.ofList s.waiting + ps)) qs s)
    (hok : schedulePriorityPreemption cfg s budget = .ok (s', budget')) :
    Accounted ledger (.ofList s'.running + (.ofList s'.waiting + ps)) qs s' ∧
      s'.swapped = s.swapped ∧ s'.asyncStopped = s.asyncStopped := by
  unfold schedulePriorityPreemption at hok
  dsimp only at hok
  split at hok
  · next hwaiting =>
    obtain ⟨rfl, -⟩ := Prod.mk.inj (Except.ok.inj hok)
    refine ⟨Accounted.of_fields (h.of_eq ?_ rfl) rfl rfl fun _ => id, rfl, rfl⟩
    rw [coe_sortByPriority]
  · next g waiting hwaiting =>
    obtain ⟨tokens, -, hok⟩ := bind_eq_ok.mp hok
    obtain ⟨⟨victims, waiting', s₁, budget₁⟩, hswept, hok⟩ := bind_eq_ok.mp hok
    obtain ⟨rfl, -⟩ := Prod.mk.inj (Except.ok.inj hok)
    have h' : Accounted ledger (.ofList (sortByPriority s.running).reverse +
        (.ofList waiting + ({g} + ps))) qs s := by
      refine h.of_eq ?_ rfl
      rw [Multiset.coe_reverse, coe_sortByPriority, hwaiting, coe_cons]
      abel
    obtain ⟨hacc, hqueues⟩ := priorityLoop_ok h' hswept
    refine ⟨Accounted.of_fields (hacc.of_eq ?_ rfl) rfl rfl fun _ => id, hqueues.swapped,
      hqueues.asyncStopped⟩
    rw [coe_sortByPriority, Multiset.coe_reverse, coe_cons]
    abel

/-! ## The two policies -/

/-- A step can be taken without the loss of a group: no waiting or swapped group that its loops reach
is too large, and no group that it stops for its length has an entry. -/
structure Feasible (cfg : SchedulerConfig A T δ) (env : Environment ρ δ) (s : Scheduler ρ δ A T) :
    Prop where
  waiting : ∀ start, StartsPrefills cfg env s cfg.chunkedPrefillEnabled start →
    WaitingFit cfg env cfg.chunkedPrefillEnabled start
  swapped : ∀ start, StartsSwapped cfg env s cfg.chunkedPrefillEnabled start →
    SwappedFit cfg false start
  long : ∀ start, StartsRunning cfg env s cfg.chunkedPrefillEnabled start →
    StopsPlain cfg env cfg.chunkedPrefillEnabled start

/-- A step stops the group for its length. -/
def StoppedIn (cfg : SchedulerConfig A T δ) (env : Environment ρ δ) (s : Scheduler ρ δ A T)
    (g : SequenceGroup ρ δ) : Prop :=
  ∃ start round, StartsRunning cfg env s cfg.chunkedPrefillEnabled start ∧
    Stops cfg env cfg.chunkedPrefillEnabled start round g

/-- The groups of the queues. -/
def queued (s : Scheduler ρ δ A T) : Multiset (SequenceGroup ρ δ) :=
  .ofList s.waiting + .ofList s.running + .ofList s.swapped

/-- What a policy makes of the queues. -/
structure Queued (cfg : SchedulerConfig A T δ) (env : Environment ρ δ) (ledger : Ledger ρ)
    (s : Scheduler ρ δ A T) (outputs : SchedulerOutputs ρ δ) (s' : Scheduler ρ δ A T) : Prop where
  accounted : Accounted ledger s'.queued ↑s'.asyncStopped s'
  scheduled : ∀ sg ∈ outputs.scheduledSeqGroups, sg.seqGroup ∈ s'.running
  feasible : outputs.ignoredSeqGroups = []
  stopped : ∀ g ∈ s'.asyncStopped, g ∈ s.asyncStopped ∨ StoppedIn cfg env s g

omit [DecidableEq ρ] [DecidableEq δ] in
theorem checkOutputs_ok {budget : SchedulingBudget ρ} {o o' : SchedulerOutputs ρ δ}
    (hok : checkOutputs cfg budget o = .ok o') : o' = o := by
  obtain ⟨-, -, hok⟩ := bind_eq_ok.mp hok
  obtain ⟨-, -, hok⟩ := bind_eq_ok.mp hok
  obtain ⟨-, -, hok⟩ := bind_eq_ok.mp hok
  exact (Except.ok.inj hok).symm

omit [DecidableEq δ] in
/-- The swapped queue after the running queue. -/
theorem scheduleSwappedAfter_ok {running : RunningRound ρ δ A T} {round : SwappedRound ρ δ A T}
    (h : Accounted ledger (.ofList running.scheduler.swapped + ps) qs running.scheduler)
    (hfits : running.outputs.preempted.length + running.outputs.swappedOut.length = 0 →
      SwappedFit cfg false { scheduler := running.scheduler, budget := running.budget })
    (hok : scheduleSwappedAfter cfg running = .ok round) :
    SwappedQueue ledger ps qs round.scheduler.swapped
      { scheduler := running.scheduler, budget := running.budget } round := by
  have h' : Accounted ledger (.ofList running.scheduler.swapped +
      (({} : SchedulerSwappedInOutputs ρ δ).held + ps)) qs running.scheduler :=
    h.of_eq (congrArg (_ + ·) (zero_add ps).symm) rfl
  unfold scheduleSwappedAfter at hok
  split at hok
  · next hnone =>
    obtain ⟨last, hreached, hlast⟩ := scheduleSwapped_rounds hok
    have hqueue := hreached.swappedQueue h' (hfits hnone)
    rw [hlast]
    exact ⟨hqueue.accounted.of_fields rfl rfl fun _ => id, hqueue.waiting, hqueue.running,
      hqueue.asyncStopped, hqueue.feasible⟩
  · obtain rfl := Except.ok.inj hok
    exact ⟨h', rfl, rfl, rfl, rfl⟩

/-- What the running queue and the swapped queue come to. -/
structure RanQueues (cfg : SchedulerConfig A T δ) (env : Environment ρ δ) (enableChunking : Bool)
    (ledger : Ledger ρ) (ps : Multiset (SequenceGroup ρ δ)) (start running : RunningRound ρ δ A T)
    (swappedIn : SwappedRound ρ δ A T) : Prop where
  accounted : Accounted ledger (.ofList swappedIn.scheduler.running +
    .ofList swappedIn.scheduler.swapped + running.outputs.held + swappedIn.outputs.held + ps)
    ↑swappedIn.scheduler.asyncStopped swappedIn.scheduler
  waiting : swappedIn.scheduler.waiting = start.scheduler.waiting
  feasible : swappedIn.outputs.infeasibleSeqGroups = []
  stopped : ∀ g ∈ swappedIn.scheduler.asyncStopped, g ∈ start.scheduler.asyncStopped ∨
    ∃ round, Stops cfg env enableChunking start round g

omit [DecidableEq δ] in
/-- The running queue and then the swapped one. -/
theorem ranQueues {enableChunking : Bool} {budget : SchedulingBudget ρ}
    {running : RunningRound ρ δ A T} {swappedIn : SwappedRound ρ δ A T}
    (h : Accounted ledger (.ofList s.running + (.ofList s.swapped + ps)) ↑s.asyncStopped s)
    (hplain : StopsPlain cfg env enableChunking { scheduler := s, budget := budget })
    (hfits : running.outputs.preempted.length + running.outputs.swappedOut.length = 0 →
      SwappedFit cfg false { scheduler := running.scheduler, budget := running.budget })
    (hrunning : s.scheduleRunning cfg env enableChunking budget = .ok running)
    (hswappedIn : scheduleSwappedAfter cfg running = .ok swappedIn) :
    RanQueues cfg env enableChunking ledger ps { scheduler := s, budget := budget } running
      swappedIn := by
  have hstart : Accounted ledger (.ofList s.running + (({} : SchedulerRunningOutputs ρ δ).held +
      (.ofList s.swapped + ps))) ↑s.asyncStopped s :=
    h.of_eq (congrArg (_ + ·) (zero_add _).symm) rfl
  have hran := (scheduleRunning_rounds hrunning).ranQueue hstart hplain
  have hswapped : running.scheduler.swapped = s.swapped := hran.swapped
  have h₂ : Accounted ledger (.ofList running.scheduler.swapped + (.ofList running.scheduler.running +
      (running.outputs.held + ps))) ↑running.scheduler.asyncStopped running.scheduler :=
    hran.accounted.of_eq (by rw [hswapped]; abel) rfl
  have hswap := scheduleSwappedAfter_ok h₂ hfits hswappedIn
  have hrunning' : swappedIn.scheduler.running = running.scheduler.running := hswap.running
  have hstopped : swappedIn.scheduler.asyncStopped = running.scheduler.asyncStopped :=
    hswap.asyncStopped
  refine ⟨hswap.accounted.of_eq ?_ (congrArg Multiset.ofList hstopped.symm),
    hswap.waiting.trans hran.waiting, hswap.feasible, fun g hg => hran.stopped g (hstopped ▸ hg)⟩
  rw [hrunning']
  abel

omit [DecidableEq ρ] [DecidableEq δ] in
/-- The groups on a list of scheduled groups. -/
theorem seqGroup_mem_groupsOf {l : List (ScheduledSequenceGroup ρ δ)}
    {sg : ScheduledSequenceGroup ρ δ} (h : sg ∈ l) : sg.seqGroup ∈ groupsOf l :=
  List.mem_map_of_mem h

/-- `_schedule_chunked_prefill`. -/
theorem scheduleChunkedPrefill_ok {outputs : SchedulerOutputs ρ δ}
    (h : Accounted ledger s.queued ↑s.asyncStopped s) (hfeasible : Feasible cfg env s)
    (hchunking : cfg.chunkedPrefillEnabled = true)
    (hok : s.scheduleChunkedPrefill cfg env = .ok (outputs, s')) :
    Queued cfg env ledger s outputs s' := by
  obtain ⟨running, hrunning, hok⟩ := bind_eq_ok.mp hok
  obtain ⟨swappedIn, hswappedIn, hok⟩ := bind_eq_ok.mp hok
  obtain ⟨prefills, hprefills, hok⟩ := bind_eq_ok.mp hok
  obtain ⟨checked, hchecked, hok⟩ := bind_eq_ok.mp hok
  obtain rfl := checkOutputs_ok hchecked
  obtain ⟨rfl, rfl⟩ := Prod.mk.inj (Except.ok.inj hok)
  obtain ⟨hfitsWaiting, hfitsSwapped, hlong⟩ := hfeasible
  rw [hchunking] at hfitsWaiting hfitsSwapped hlong
  have h₁ : Accounted ledger (.ofList s.running + (.ofList s.swapped + .ofList s.waiting))
      ↑s.asyncStopped s := h.of_eq (by unfold queued; abel) rfl
  have hran := ranQueues h₁ (hlong _ .chunkedPrefill)
    (fun hnone => hfitsSwapped _ (.behindRunning .chunkedPrefill hrunning hnone)) hrunning hswappedIn
  have hwaiting : swappedIn.scheduler.waiting = s.waiting := hran.waiting
  have h₂ : Accounted ledger (.ofList swappedIn.scheduler.waiting +
      (.ofList swappedIn.scheduler.running + .ofList swappedIn.scheduler.swapped +
        running.outputs.held + swappedIn.outputs.held))
      ↑swappedIn.scheduler.asyncStopped swappedIn.scheduler :=
    hran.accounted.of_eq (by rw [hwaiting]; abel) rfl
  have hwaits := schedulePrefills_ok h₂ (hfitsWaiting _ (.chunkedPrefill hrunning hswappedIn))
    hprefills
  have hrunning' : prefills.scheduler.running = swappedIn.scheduler.running := hwaits.running
  have hswapped : prefills.scheduler.swapped = swappedIn.scheduler.swapped := hwaits.swapped
  have hstopped : prefills.scheduler.asyncStopped = swappedIn.scheduler.asyncStopped :=
    hwaits.asyncStopped
  refine ⟨Accounted.of_fields (hwaits.accounted.of_eq ?_ (congrArg Multiset.ofList hstopped.symm))
    rfl rfl fun _ => id, ?_, ?_, fun g hg => ?_⟩
  · unfold queued SchedulerRunningOutputs.held SchedulerSwappedInOutputs.held
    simp only [← Multiset.coe_add, Multiset.coe_reverse, hrunning', hswapped]
    abel
  · intro sg hsg
    simp only [List.mem_append] at hsg ⊢
    rcases hsg with (((h | h) | h) | h) | h
    · exact .inr (seqGroup_mem_groupsOf h)
    · exact .inl (.inr (seqGroup_mem_groupsOf h))
    · exact .inl (.inl (.inl (.inr (seqGroup_mem_groupsOf h))))
    · exact .inl (.inl (.inr (seqGroup_mem_groupsOf h)))
    · exact .inl (.inl (.inl (.inl (.inr (seqGroup_mem_groupsOf h)))))
  · dsimp only
    rw [hwaits.feasible, hran.feasible]
    rfl
  · cases hran.stopped g (hstopped ▸ hg) with
    | inl hold => exact .inl hold
    | inr hnew =>
      obtain ⟨round, hstops⟩ := hnew
      unfold StoppedIn
      rw [hchunking]
      exact .inr ⟨_, round, .chunkedPrefill, hstops⟩

/-- The prefills of `_schedule_default`. -/
theorem prefillsUnlessSwapped_ok {prefills : PrefillRound ρ δ A T}
    (h : Accounted ledger s.queued ↑s.asyncStopped s)
    (hfits : ∀ start, StartsPrefills cfg env s false start → WaitingFit cfg env false start)
    (hok : s.prefillsUnlessSwapped cfg env (s.countRunning cfg) = .ok prefills) :
    WaitingQueue ledger (.ofList s.running + .ofList s.swapped) ↑s.asyncStopped
      prefills.scheduler.waiting { scheduler := s, budget := s.countRunning cfg } prefills := by
  have h' : Accounted ledger (.ofList s.waiting + (.ofList s.running + .ofList s.swapped))
      ↑s.asyncStopped s := h.of_eq (by unfold queued; abel) rfl
  unfold prefillsUnlessSwapped at hok
  split at hok
  · next hswapped => exact schedulePrefills_ok h' (hfits _ (.default hswapped)) hok
  · obtain rfl := Except.ok.inj hok
    exact ⟨h'.of_eq (congrArg (_ + ·) (zero_add _).symm) rfl, rfl, rfl, rfl, rfl⟩

omit [DecidableEq δ] in
/-- The preemption of `_schedule_default`. -/
theorem preemptByPriority_ok {prefills : PrefillRound ρ δ A T} {budget : SchedulingBudget ρ}
    (h : Accounted ledger (.ofList prefills.scheduler.running +
      (.ofList prefills.scheduler.waiting + ps)) qs prefills.scheduler)
    (hok : preemptByPriority cfg prefills = .ok (s', budget)) :
    Accounted ledger (.ofList s'.running + (.ofList s'.waiting + ps)) qs s' ∧
      s'.swapped = prefills.scheduler.swapped ∧
      s'.asyncStopped = prefills.scheduler.asyncStopped := by
  unfold preemptByPriority at hok
  split at hok
  · exact schedulePriorityPreemption_ok h hok
  · obtain ⟨rfl, -⟩ := Prod.mk.inj (Except.ok.inj hok)
    exact ⟨h, rfl, rfl⟩

omit [DecidableEq δ] in
/-- The running queue in `_schedule_default`. -/
theorem runningUnlessPrefills_ok {prefills : PrefillRound ρ δ A T} {budget : SchedulingBudget ρ}
    {running : RunningRound ρ δ A T} {swappedIn : SwappedRound ρ δ A T}
    (h : Accounted ledger (.ofList s.running + (.ofList s.swapped + ps)) ↑s.asyncStopped s)
    (hplain : prefills.outputs.seqGroups.isEmpty →
      StopsPlain cfg env false { scheduler := s, budget := budget })
    (hfits : prefills.outputs.seqGroups.isEmpty → ∀ running,
      s.scheduleRunning cfg env false budget = .ok running →
      running.outputs.preempted.length + running.outputs.swappedOut.length = 0 →
      SwappedFit cfg false { scheduler := running.scheduler, budget := running.budget })
    (hok : runningUnlessPrefills cfg env prefills s budget = .ok (running, swappedIn)) :
    RanQueues cfg env false ledger ps { scheduler := s, budget := budget } running swappedIn ∧
      (prefills.outputs.seqGroups.isEmpty ∨ swappedIn.scheduler.asyncStopped = s.asyncStopped) := by
  unfold runningUnlessPrefills at hok
  split at hok
  · next hempty =>
    obtain ⟨running', hrunning, hok⟩ := bind_eq_ok.mp hok
    obtain ⟨swappedIn', hswappedIn, hok⟩ := bind_eq_ok.mp hok
    obtain ⟨rfl, rfl⟩ := Prod.mk.inj (Except.ok.inj hok)
    exact ⟨ranQueues h (hplain hempty) (hfits hempty _ hrunning) hrunning hswappedIn, .inl hempty⟩
  · obtain ⟨rfl, rfl⟩ := Prod.mk.inj (Except.ok.inj hok)
    refine ⟨⟨h.of_eq ?_ rfl, rfl, rfl, fun _ => .inl⟩, .inr rfl⟩
    have hnone : ({} : SchedulerRunningOutputs ρ δ).held = 0 := rfl
    have hnone' : ({} : SchedulerSwappedInOutputs ρ δ).held = 0 := rfl
    rw [hnone, hnone']
    abel

/-- `_schedule_default`. -/
theorem scheduleDefault_ok {outputs : SchedulerOutputs ρ δ}
    (h : Accounted ledger s.queued ↑s.asyncStopped s) (hfeasible : Feasible cfg env s)
    (hchunking : cfg.chunkedPrefillEnabled = false)
    (hok : s.scheduleDefault cfg env = .ok (outputs, s')) :
    Queued cfg env ledger s outputs s' := by
  obtain ⟨prefills, hprefills, hok⟩ := bind_eq_ok.mp hok
  obtain ⟨⟨preempted, budget⟩, hpreempted, hok⟩ := bind_eq_ok.mp hok
  obtain ⟨⟨running, swappedIn⟩, hscheduled, hok⟩ := bind_eq_ok.mp hok
  obtain ⟨checked, hchecked, hok⟩ := bind_eq_ok.mp hok
  obtain rfl := checkOutputs_ok hchecked
  obtain ⟨_, hrunningPrefills, hok⟩ := bind_eq_ok.mp hok
  obtain ⟨_, hswappedPrefills, hok⟩ := bind_eq_ok.mp hok
  obtain ⟨rfl, rfl⟩ := Prod.mk.inj (Except.ok.inj hok)
  obtain ⟨hfitsWaiting, hfitsSwapped, hlong⟩ := hfeasible
  rw [hchunking] at hfitsWaiting hfitsSwapped hlong
  have hnoRunning : running.outputs.prefillSeqGroups = [] :=
    List.length_eq_zero_iff.mp (not_not.mp (raiseIf_eq_ok.mp hrunningPrefills))
  have hnoSwapped : swappedIn.outputs.prefillSeqGroups = [] :=
    List.length_eq_zero_iff.mp (not_not.mp (raiseIf_eq_ok.mp hswappedPrefills))
  -- the waiting queue
  have hwaits := prefillsUnlessSwapped_ok h hfitsWaiting hprefills
  have hrunning : prefills.scheduler.running = s.running := hwaits.running
  have hswapped : prefills.scheduler.swapped = s.swapped := hwaits.swapped
  have hstopped : prefills.scheduler.asyncStopped = s.asyncStopped := hwaits.asyncStopped
  have h₁ : Accounted ledger (.ofList prefills.scheduler.running +
      (.ofList prefills.scheduler.waiting +
        (.ofList (groupsOf prefills.outputs.seqGroups) + .ofList s.swapped)))
      ↑s.asyncStopped prefills.scheduler := hwaits.accounted.of_eq (by rw [hrunning]; abel) rfl
  -- the preemption
  obtain ⟨hacc, hswapped', hstopped'⟩ := preemptByPriority_ok h₁ hpreempted
  rw [hswapped] at hswapped'
  rw [hstopped] at hstopped'
  have h₂ : Accounted ledger (.ofList preempted.running + (.ofList preempted.swapped +
      (.ofList preempted.waiting + .ofList (groupsOf prefills.outputs.seqGroups))))
      ↑preempted.asyncStopped preempted :=
    hacc.of_eq (by rw [hswapped']; abel) (congrArg Multiset.ofList hstopped'.symm)
  -- the running queue
  obtain ⟨hran, hempty⟩ := runningUnlessPrefills_ok h₂
    (fun hempty => hlong _ (.default hprefills hpreempted hempty))
    (fun hempty running hrunning hnone => hfitsSwapped _
      (.behindRunning (.default hprefills hpreempted hempty) hrunning hnone)) hscheduled
  refine ⟨Accounted.of_fields (hran.accounted.of_eq ?_ rfl) rfl rfl fun _ => id, ?_, ?_,
    fun g hg => ?_⟩
  · unfold queued SchedulerRunningOutputs.held SchedulerSwappedInOutputs.held
    simp only [← Multiset.coe_add, Multiset.coe_reverse, hran.waiting, hnoRunning, hnoSwapped]
    have hnone : Multiset.ofList (groupsOf ([] : List (ScheduledSequenceGroup ρ δ))) = 0 := rfl
    rw [hnone]
    abel
  · intro sg hsg
    simp only [List.mem_append] at hsg ⊢
    rcases hsg with (h | h) | h
    · exact .inl (.inl (.inr (seqGroup_mem_groupsOf h)))
    · exact .inl (.inr (seqGroup_mem_groupsOf h))
    · exact .inr (seqGroup_mem_groupsOf h)
  · dsimp only
    rw [hwaits.feasible, hran.feasible]
    rfl
  · cases hempty with
    | inl hempty =>
      cases hran.stopped g hg with
      | inl hold => exact .inl (hstopped' ▸ hold)
      | inr hnew =>
        obtain ⟨round, hstops⟩ := hnew
        unfold StoppedIn
        rw [hchunking]
        exact .inr ⟨_, round, .default hprefills hpreempted hempty, hstops⟩
    | inr hsame =>
      dsimp only at hg
      exact .inl (hstopped' ▸ hsame ▸ hg)

/-! ## The metadata -/

omit [DecidableEq ρ] [DecidableEq δ] in
/-- Popped entries are gone. -/
theorem hasEntry_popGdnEntries [DecidableEq ρ] {requestId requestId' : ρ}
    (h : (s.popGdnEntries requestId).HasEntry requestId') : s.HasEntry requestId' :=
  h.imp (fun hkey => (Dict.mem_keys_erase.mp hkey).2)
    fun htarget => (Dict.mem_keys_erase.mp htarget).2

/-- The actions of a prefill step touch nothing but the policy. -/
theorem prefillActions_ok {tokens : ℕ} {blocks : List ℕ} {actions : PrefillActions δ}
    (hok : s.prefillActions cfg g tokens blocks = .ok (actions, s')) :
    ∃ policy, s' = { s with gdnPrefixPolicy := policy } := by
  obtain ⟨skipped, -, hok⟩ := bind_eq_ok.mp hok
  obtain ⟨_, -, hok⟩ := bind_eq_ok.mp hok
  obtain ⟨targets, -, hok⟩ := bind_eq_ok.mp hok
  split at hok
  · obtain ⟨offsets, -, hok⟩ := bind_eq_ok.mp hok
    obtain ⟨points, -, hok⟩ := bind_eq_ok.mp hok
    obtain ⟨admitted, -, hok⟩ := bind_eq_ok.mp hok
    obtain ⟨-, rfl⟩ := Prod.mk.inj (Except.ok.inj hok)
    exact ⟨_, rfl⟩
  · obtain ⟨-, rfl⟩ := Prod.mk.inj (Except.ok.inj hok)
    exact ⟨_, rfl⟩

omit [DecidableEq δ] in
/-- The blocks of a group that the scheduler holds are accessed. -/
theorem accessBlocks_ok {blocks : List ℕ} (h : Accounted ledger ps qs s) (hg : g ∈ ps + qs)
    (hok : s.accessBlocks cfg env g = .ok (blocks, s')) :
    Accounted ledger ps qs s' ∧ SameQueues s s' := by
  unfold accessBlocks at hok
  split at hok
  · obtain ⟨accessed, haccessed, hok⟩ := bind_eq_ok.mp hok
    obtain ⟨⟨blocks', m'⟩, hm', hok⟩ := bind_eq_ok.mp hok
    obtain ⟨-, rfl⟩ := Prod.mk.inj (Except.ok.inj hok)
    exact ⟨h.grow hg ((BlockSpaceManager.grows_accessAllBlocksInSeq haccessed).trans
      (BlockSpaceManager.grows_getCommonComputedBlockIds hm')), ⟨rfl, rfl, rfl, rfl⟩⟩
  · obtain ⟨-, rfl⟩ := Prod.mk.inj (Except.ok.inj hok)
    exact ⟨h, .refl s⟩

omit [DecidableEq δ] in
/-- The entries of a request whose prefill is complete are popped. -/
theorem popped_ok {c : Prop} [Decidable c] {requestId : ρ} (h : Accounted ledger ps qs s) :
    Accounted ledger ps qs (if c then s.popGdnEntries requestId else s) ∧
      SameQueues s (if c then s.popGdnEntries requestId else s) := by
  split
  · exact ⟨h.of_fields rfl rfl fun _ => hasEntry_popGdnEntries, ⟨rfl, rfl, rfl, rfl⟩⟩
  · exact ⟨h, .refl s⟩

/-- A round of the loop of `schedule`. -/
theorem buildMetadata_ok {scheduled : ScheduledSequenceGroup ρ δ}
    {metadata : SequenceGroupMetadata ρ δ} (h : Accounted ledger ps qs s)
    (hg : scheduled.seqGroup ∈ ps + qs)
    (hok : s.buildMetadata cfg env scheduled = .ok (metadata, s')) :
    Accounted ledger ps qs s' ∧ SameQueues s s' := by
  unfold buildMetadata at hok
  obtain ⟨table, -, hok⟩ := bind_eq_ok.mp hok
  obtain ⟨⟨blocks, accessed⟩, haccessed, hok⟩ := bind_eq_ok.mp hok
  obtain ⟨hacc, hqueues⟩ := accessBlocks_ok h hg haccessed
  dsimp only at hok
  split at hok
  · obtain ⟨-, rfl⟩ := Prod.mk.inj (Except.ok.inj hok)
    exact (popped_ok hacc).imp_right hqueues.trans
  · split at hok
    · obtain ⟨⟨actions, built⟩, hbuilt, hok⟩ := bind_eq_ok.mp hok
      obtain ⟨-, rfl⟩ := Prod.mk.inj (Except.ok.inj hok)
      obtain ⟨policy, rfl⟩ := prefillActions_ok hbuilt
      have hacc₁ : Accounted ledger ps qs { accessed with gdnPrefixPolicy := policy } :=
        hacc.of_fields rfl rfl fun _ => id
      have hqueues₁ : SameQueues s { accessed with gdnPrefixPolicy := policy } :=
        hqueues.trans ⟨rfl, rfl, rfl, rfl⟩
      exact (popped_ok hacc₁).imp_right hqueues₁.trans
    · obtain ⟨-, rfl⟩ := Prod.mk.inj (Except.ok.inj hok)
      exact (popped_ok hacc).imp_right hqueues.trans

/-- The loop of `schedule`. -/
theorem buildAll_ok {scheduled : List (ScheduledSequenceGroup ρ δ)}
    {metadata : List (SequenceGroupMetadata ρ δ)} (h : Accounted ledger ps qs s)
    (hmem : ∀ sg ∈ scheduled, sg.seqGroup ∈ ps + qs)
    (hok : buildAll cfg env scheduled s = .ok (metadata, s')) :
    Accounted ledger ps qs s' ∧ SameQueues s s' := by
  induction scheduled generalizing s metadata with
  | nil =>
    obtain ⟨-, rfl⟩ := Prod.mk.inj (Except.ok.inj hok)
    exact ⟨h, .refl s⟩
  | cons sg scheduled ih =>
    obtain ⟨⟨built, s₁⟩, hbuilt, hok⟩ := bind_eq_ok.mp hok
    obtain ⟨⟨others, s₂⟩, hothers, hok⟩ := bind_eq_ok.mp hok
    obtain ⟨-, rfl⟩ := Prod.mk.inj (Except.ok.inj hok)
    obtain ⟨hacc, hqueues⟩ := buildMetadata_ok h (hmem sg List.mem_cons_self) hbuilt
    obtain ⟨hacc', hqueues'⟩ := ih hacc (fun sg' hsg' => hmem sg' (List.mem_cons_of_mem sg hsg'))
      hothers
    exact ⟨hacc', hqueues.trans hqueues'⟩

/-! ## The step -/

omit [DecidableEq ρ] [DecidableEq δ] in
theorem addPrefixSwaps_ok {o o' : SchedulerOutputs ρ δ}
    {prefixSwaps : List (ℕ × ℕ) × List (ℕ × ℕ)} (hok : addPrefixSwaps o prefixSwaps = .ok o') :
    o'.scheduledSeqGroups = o.scheduledSeqGroups ∧ o'.ignoredSeqGroups = o.ignoredSeqGroups := by
  unfold addPrefixSwaps at hok
  split at hok
  · obtain rfl := Except.ok.inj hok
    exact ⟨rfl, rfl⟩
  · obtain ⟨-, -, hok⟩ := bind_eq_ok.mp hok
    obtain rfl := Except.ok.inj hok
    exact ⟨rfl, rfl⟩

/-- Both policies. -/
theorem scheduleQueues_ok {outputs : SchedulerOutputs ρ δ}
    (h : Accounted ledger s.queued ↑s.asyncStopped s) (hfeasible : Feasible cfg env s)
    (hok : s.scheduleQueues cfg env = .ok (outputs, s')) : Queued cfg env ledger s outputs s' := by
  unfold scheduleQueues at hok
  cases hchunking : cfg.chunkedPrefillEnabled with
  | true =>
    rw [if_pos hchunking] at hok
    exact scheduleChunkedPrefill_ok h hfeasible hchunking hok
  | false =>
    rw [if_neg (Bool.eq_false_iff.mp hchunking)] at hok
    exact scheduleDefault_ok h hfeasible hchunking hok

/-- The allocator of the block manager does not matter. -/
structure SameTables (m m' : BlockSpaceManager ρ δ A T) : Prop where
  blockTables : m'.blockTables = m.blockTables
  requestLocalNamespace : m'.requestLocalNamespace = m.requestLocalNamespace
  warnedMmNamespaceRequests : m'.warnedMmNamespaceRequests = m.warnedMmNamespaceRequests

omit [DecidableEq δ] in
theorem Accounted.sameTables (h : Accounted ledger ps qs s) {m' : BlockSpaceManager ρ δ A T}
    (hsame : SameTables s.blockManager m') :
    Accounted ledger ps qs { s with blockManager := m' } where
  seqIds_nodup := h.seqIds_nodup
  requestIds_nodup := h.requestIds_nodup
  count := h.count
  tables seqId hseqId := h.tables seqId (by
    unfold BlockSpaceManager.HasTable at hseqId ⊢
    rwa [hsame.blockTables] at hseqId)
  namespaces requestId hid := h.namespaces requestId (by
    unfold BlockSpaceManager.HasNamespace at hid ⊢
    rwa [hsame.requestLocalNamespace, hsame.warnedMmNamespaceRequests] at hid)
  entries := h.entries
  unfinished := h.unfinished
  added := h.added

omit [DecidableEq ρ] [DecidableEq δ] in
/-- The marking of blocks is the allocator's. -/
theorem sameTables_marked (scheduled : List (ScheduledSequenceGroup ρ δ))
    (m : BlockSpaceManager ρ δ A T) :
    SameTables m (scheduled.foldl
      (fun blockManager _ => blockManager.markBlocksAsComputed cfg.tables) m) := by
  induction scheduled generalizing m with
  | nil => exact ⟨rfl, rfl, rfl⟩
  | cons sg scheduled ih =>
    obtain ⟨htables, hnamespaces, hwarned⟩ := ih (m.markBlocksAsComputed cfg.tables)
    exact ⟨htables, hnamespaces, hwarned⟩

/-- A step that is feasible keeps the accounts in order, schedules running groups and ignores
none. -/
theorem schedule_ok {metadata : List (SequenceGroupMetadata ρ δ)} {outputs : SchedulerOutputs ρ δ}
    (h : Accounted ledger s.queued ↑s.asyncStopped s) (hfeasible : Feasible cfg env (begun cfg s))
    (hok : s.schedule cfg env = .ok (metadata, outputs, s')) :
    Queued cfg env ledger (begun cfg s) outputs s' := by
  obtain ⟨⟨outputs₁, queued⟩, hqueued, hok⟩ := bind_eq_ok.mp hok
  obtain ⟨outputs₂, hswaps, hok⟩ := bind_eq_ok.mp hok
  obtain ⟨⟨metadata', built⟩, hbuilt, hok⟩ := bind_eq_ok.mp hok
  obtain ⟨-, hrest⟩ := Prod.mk.inj (Except.ok.inj hok)
  obtain ⟨rfl, rfl⟩ := Prod.mk.inj hrest
  obtain ⟨hscheduled, hignored⟩ := addPrefixSwaps_ok hswaps
  have hacc₀ : Accounted ledger (begun cfg s).queued ↑(begun cfg s).asyncStopped (begun cfg s) :=
    h.sameTables ⟨rfl, rfl, rfl⟩
  have hpolicy := scheduleQueues_ok hacc₀ hfeasible hqueued
  have hmem : ∀ sg ∈ outputs₂.scheduledSeqGroups,
      sg.seqGroup ∈ queued.queued + ↑queued.asyncStopped := by
    intro sg hsg
    have hrunning := hpolicy.scheduled sg (hscheduled ▸ hsg)
    exact Multiset.mem_add.mpr (.inl (Multiset.mem_add.mpr (.inl
      (Multiset.mem_add.mpr (.inr (Multiset.mem_coe.mpr hrunning))))))
  have hdrained : Accounted ledger queued.queued ↑queued.asyncStopped { queued with
      blockManager := (queued.blockManager.getAndResetPrefixSwaps cfg.tables).2 } :=
    hpolicy.accounted.sameTables ⟨rfl, rfl, rfl⟩
  obtain ⟨hacc, hqueues⟩ := buildAll_ok hdrained hmem hbuilt
  have hwaiting : built.waiting = queued.waiting := hqueues.waiting
  have hrunning : built.running = queued.running := hqueues.running
  have hswapped : built.swapped = queued.swapped := hqueues.swapped
  have hstopped : built.asyncStopped = queued.asyncStopped := hqueues.asyncStopped
  refine ⟨?_, fun sg hsg => hrunning ▸ hpolicy.scheduled sg (hscheduled ▸ hsg),
    hignored.trans hpolicy.feasible, fun g hg => hpolicy.stopped g (hstopped ▸ hg)⟩
  refine Accounted.of_eq (hacc.sameTables (sameTables_marked _ _)) ?_
    (congrArg Multiset.ofList hstopped.symm)
  unfold Scheduler.queued
  rw [hwaiting, hrunning, hswapped]

end Ikun.Scheduling.Scheduler
