import Ikun.Scheduler.Accounting

/-!
# A step of the scheduler loses no group

Every loop of the scheduler takes groups from a queue and puts them on the lists of the step, back on
a queue or, when their pending output finishes them, frees them. If the step ignores no group, the
accounts are in order after it.
-/

namespace Ikun.Scheduling

open Except

variable {ρ δ A T : Type}

/-- The groups on the lists of `_schedule_running`. -/
def SchedulerRunningOutputs.held (o : SchedulerRunningOutputs ρ δ) :
    Multiset (SequenceGroup ρ δ) :=
  ↑o.preempted + ↑o.swappedOut + ↑(Scheduler.groupsOf o.decodeSeqGroups) +
    ↑(Scheduler.groupsOf o.prefillSeqGroups)

/-- The groups on the lists of `_schedule_swapped` that are swapped in. -/
def SchedulerSwappedInOutputs.held (o : SchedulerSwappedInOutputs ρ δ) :
    Multiset (SequenceGroup ρ δ) :=
  ↑(Scheduler.groupsOf o.decodeSeqGroups) + ↑(Scheduler.groupsOf o.prefillSeqGroups)

namespace Scheduler

theorem coe_append_singleton {α : Type} (l : List α) (a : α) :
    ((l ++ [a] : List α) : Multiset α) = ↑l + {a} := by
  rw [← Multiset.coe_add, Multiset.coe_singleton]

theorem coe_cons {α : Type} (a : α) (l : List α) : ((a :: l : List α) : Multiset α) = {a} + ↑l := rfl

@[simp] theorem groupsOf_append (l l' : List (ScheduledSequenceGroup ρ δ)) :
    groupsOf (l ++ l') = groupsOf l ++ groupsOf l' := List.map_append

@[simp] theorem groupsOf_singleton (sg : ScheduledSequenceGroup ρ δ) :
    groupsOf [sg] = [sg.seqGroup] := rfl

variable [DecidableEq ρ] [DecidableEq δ] {cfg : SchedulerConfig A T δ} {env : Environment ρ δ}
variable {s s' : Scheduler ρ δ A T} {g : SequenceGroup ρ δ} {ledger : Ledger ρ}
variable {ps qs : Multiset (SequenceGroup ρ δ)}

omit [DecidableEq ρ] [DecidableEq δ] in
/-- The group is one of those that the scheduler holds. -/
theorem mem_singleton_add {ps qs : Multiset (SequenceGroup ρ δ)} : g ∈ {g} + ps + qs :=
  Multiset.mem_add.mpr (.inl (Multiset.mem_add.mpr (.inl (Multiset.mem_singleton_self g))))

/-! ## Preemption -/

omit [DecidableEq δ] in
/-- A group may lose its block table. -/
theorem Accounted.free (h : Accounted ledger ps qs s) {m' : BlockSpaceManager ρ δ A T}
    (hfreed : s.blockManager.Freed g m') :
    Accounted ledger ps qs { s with blockManager := m' } :=
  ⟨h.seqIds_nodup, h.requestIds_nodup, h.count,
    fun seqId hseqId => h.tables seqId (hfreed.tables seqId hseqId).2,
    fun requestId hid => h.namespaces requestId (hfreed.namespaces requestId hid), h.entries,
    h.unfinished, h.added⟩

omit [DecidableEq ρ] [DecidableEq δ] in
/-- A status that is not a finished one. -/
theorem isFinished_changeStatus {source target : SequenceStatus}
    (htarget : ¬ { g with status := target }.isFinished) (hg : ¬ g.isFinished) :
    ¬ (changeStatus g source target).isFinished := by
  unfold changeStatus
  split
  · exact htarget
  · exact hg

omit [DecidableEq δ] in
/-- A group changes its status. -/
theorem Accounted.changeStatus (h : Accounted ledger ({g} + ps) qs s)
    (source target : SequenceStatus) (htarget : ¬ { g with status := target }.isFinished) :
    Accounted ledger ({Scheduler.changeStatus g source target} + ps) qs s := by
  have hunfinished : ¬ g.isFinished :=
    h.unfinished g mem_singleton_add
  refine h.replace ?_ ?_ (isFinished_changeStatus htarget hunfinished)
  · unfold Scheduler.changeStatus
    split <;> rfl
  · unfold Scheduler.changeStatus
    split <;> rfl

omit [DecidableEq δ] in
/-- A preempted group is on one of the two lists. -/
theorem preempt_ok {outputs outputs' : SchedulerRunningOutputs ρ δ}
    (h : Accounted ledger ({g} + (outputs.held + ps)) qs s)
    (hok : s.preempt cfg outputs g = .ok (s', outputs')) :
    Accounted ledger (outputs'.held + ps) qs s' ∧ SameQueues s s' := by
  unfold preempt at hok
  split at hok
  · obtain ⟨preempted, hpreempted, hok⟩ := bind_eq_ok.mp hok
    obtain ⟨-, -, hpreempted⟩ := bind_eq_ok.mp hpreempted
    obtain ⟨freed, hfreed, hpreempted⟩ := bind_eq_ok.mp hpreempted
    obtain rfl := Except.ok.inj hpreempted
    obtain ⟨rfl, rfl⟩ := Prod.mk.inj (Except.ok.inj hok)
    obtain ⟨m', hm', rfl⟩ := freeSeq_ok hfreed
    have hfree := BlockSpaceManager.free_ok hm'
    have hreplaced : Accounted ledger
        ({{ g with status := .waiting }.resetStateForRecompute} + (outputs.held + ps)) qs _ :=
      (h.free hfree).replace rfl rfl Bool.false_ne_true
    refine ⟨hreplaced.of_eq ?_ rfl, ⟨rfl, rfl, rfl, rfl⟩⟩
    unfold SchedulerRunningOutputs.held
    rw [coe_append_singleton]
    abel
  · obtain ⟨swapped, hswapped, hok⟩ := bind_eq_ok.mp hok
    obtain ⟨canSwapOut, -, hswapped⟩ := bind_eq_ok.mp hswapped
    obtain ⟨-, -, hswapped⟩ := bind_eq_ok.mp hswapped
    obtain ⟨⟨mapping, m'⟩, hm', hswapped⟩ := bind_eq_ok.mp hswapped
    obtain rfl := Except.ok.inj hswapped
    obtain ⟨rfl, rfl⟩ := Prod.mk.inj (Except.ok.inj hok)
    have hgrows := BlockSpaceManager.grows_swap hm'
    have hgrow := h.grow mem_singleton_add hgrows
    refine ⟨(hgrow.changeStatus .running .swapped Bool.false_ne_true).of_eq ?_ rfl,
      ⟨rfl, rfl, rfl, rfl⟩⟩
    unfold SchedulerRunningOutputs.held
    rw [coe_append_singleton]
    abel

omit [DecidableEq δ] in
/-- A victim is preempted, or its pending output finishes it and it is freed. -/
theorem evict_ok {outputs outputs' : SchedulerRunningOutputs ρ δ}
    (h : Accounted ledger ({g} + (outputs.held + ps)) qs s)
    (hok : s.evict cfg env outputs g = .ok (s', outputs')) :
    Accounted ledger (outputs'.held + ps) qs s' ∧ SameQueues s s' := by
  have hunfinished : ¬ g.isFinished :=
    h.unfinished g mem_singleton_add
  unfold evict at hok
  cases hasync : cfg.useAsyncOutputProc with
  | false =>
    simp only [hasync, Bool.false_eq_true, false_and, if_false] at hok
    exact preempt_ok h hok
  | true =>
    simp only [hasync, if_true, true_and] at hok
    unfold processPendingOutput at hok
    cases hpending : env.pendingOutput g.requestId with
    | none =>
      simp only [hpending] at hok
      rw [if_neg hunfinished] at hok
      exact preempt_ok h hok
    | some reason =>
      simp only [hpending] at hok
      rw [if_pos (show ({ g with status := .finished reason } : SequenceGroup ρ δ).isFinished = true
        from rfl)] at hok
      obtain ⟨freed, hfreed, hok⟩ := bind_eq_ok.mp hok
      obtain ⟨rfl, rfl⟩ := Prod.mk.inj (Except.ok.inj hok)
      have hfinished := left_freeFinishedSeqGroup rfl hfreed
      have hleft : Left g s freed := { hfinished with }
      exact ⟨h.left hleft, hleft.queues⟩

/-! ## The running queue -/

omit [DecidableEq δ] in
/-- Groups are preempted until there are slots for the group, or it is preempted itself. -/
theorem makeRoom_ok {tokens : ℕ} {victims victims' : List (SequenceGroup ρ δ)}
    {round round' : RunningRound ρ δ A T} {hasSlots : Bool}
    (h : Accounted ledger ({g} + (.ofList victims + (round.outputs.held + ps))) qs round.scheduler)
    (hok : makeRoom cfg env g tokens victims round = .ok (hasSlots, victims', round')) :
    Accounted ledger ((if hasSlots then {g} else 0) + (.ofList victims' + (round'.outputs.held + ps))) qs
        round'.scheduler ∧ SameQueues round.scheduler round'.scheduler := by
  induction victims generalizing round with
  | nil =>
    unfold makeRoom at hok
    obtain ⟨slots, -, hok⟩ := bind_eq_ok.mp hok
    split at hok
    · obtain ⟨rfl, rest⟩ := Prod.mk.inj (Except.ok.inj hok)
      obtain ⟨rfl, rfl⟩ := Prod.mk.inj rest
      exact ⟨h, .refl _⟩
    · obtain ⟨evicted, hevicted, hok⟩ := bind_eq_ok.mp hok
      obtain ⟨rfl, rest⟩ := Prod.mk.inj (Except.ok.inj hok)
      obtain ⟨rfl, rfl⟩ := Prod.mk.inj rest
      have h' : Accounted ledger ({g} + (round.outputs.held + ps)) qs round.scheduler :=
        h.of_eq (by rw [Multiset.coe_nil, zero_add]) rfl
      obtain ⟨hacc, hqueues⟩ := evict_ok h' hevicted
      refine ⟨hacc.of_eq ?_ rfl, hqueues⟩
      rw [if_neg Bool.false_ne_true, Multiset.coe_nil, zero_add, zero_add]
  | cons victim victims ih =>
    unfold makeRoom at hok
    obtain ⟨slots, -, hok⟩ := bind_eq_ok.mp hok
    split at hok
    · obtain ⟨rfl, rest⟩ := Prod.mk.inj (Except.ok.inj hok)
      obtain ⟨rfl, rfl⟩ := Prod.mk.inj rest
      exact ⟨h, .refl _⟩
    · obtain ⟨evicted, hevicted, hok⟩ := bind_eq_ok.mp hok
      have h' : Accounted ledger ({victim} + (round.outputs.held + ({g} + (.ofList victims + ps)))) qs
          round.scheduler := h.of_eq (by rw [coe_cons]; abel) rfl
      obtain ⟨hacc, hqueues⟩ := evict_ok h' hevicted
      obtain ⟨hacc', hqueues'⟩ := ih (hacc.of_eq (by abel) rfl) hok
      exact ⟨hacc', hqueues.trans hqueues'⟩

omit [DecidableEq δ] in
/-- `_append_slots` for a group that the scheduler holds. -/
theorem appendSlots_ok {cows : List (ℕ × ℕ)} (h : Accounted ledger ({g} + ps) qs s)
    (hok : s.appendSlots cfg g = .ok (cows, s')) :
    Accounted ledger ({g} + ps) qs s' ∧ SameQueues s s' := by
  unfold appendSlots at hok
  split at hok
  · obtain ⟨⟨cows', m'⟩, hm', hok⟩ := bind_eq_ok.mp hok
    obtain ⟨-, rfl⟩ := Prod.mk.inj (Except.ok.inj hok)
    have hgrows := BlockSpaceManager.grows_appendSlots hm'
    exact ⟨h.grow mem_singleton_add hgrows, ⟨rfl, rfl, rfl, rfl⟩⟩
  · obtain ⟨-, rfl⟩ := Prod.mk.inj (Except.ok.inj hok)
    exact ⟨h, .refl s⟩

omit [DecidableEq δ] in
/-- A group that runs is on one of the two lists. -/
theorem runGroup_ok {enableChunking : Bool} {tokens : ℕ} {round round' : RunningRound ρ δ A T}
    (h : Accounted ledger ({g} + (round.outputs.held + ps)) qs round.scheduler)
    (hok : runGroup cfg enableChunking g tokens round = .ok round') :
    Accounted ledger (round'.outputs.held + ps) qs round'.scheduler ∧
      SameQueues round.scheduler round'.scheduler := by
  obtain ⟨appended, happended, hok⟩ := bind_eq_ok.mp hok
  obtain rfl := Except.ok.inj hok
  obtain ⟨hacc, hqueues⟩ := appendSlots_ok h happended
  refine ⟨hacc.of_eq ?_ rfl, hqueues⟩
  dsimp only
  split
  · unfold SchedulerRunningOutputs.held
    rw [groupsOf_append, groupsOf_singleton, coe_append_singleton]
    abel
  · unfold SchedulerRunningOutputs.held
    rw [groupsOf_append, groupsOf_singleton, coe_append_singleton]
    abel

/-- The group is stopped for its length in a round of the running queue. -/
structure Stops (cfg : SchedulerConfig A T δ) (env : Environment ρ δ) (enableChunking : Bool)
    (start round : RunningRound ρ δ A T) (g : SequenceGroup ρ δ) : Prop where
  reached : RunningRounds cfg env enableChunking start round
  turn : ∃ queue numNewTokens tokens,
    RunningTurn cfg enableChunking round g queue numNewTokens tokens
  long : TooLong cfg g

/-- No group that the loop stops for its length has an entry. -/
def StopsPlain (cfg : SchedulerConfig A T δ) (env : Environment ρ δ) (enableChunking : Bool)
    (start : RunningRound ρ δ A T) : Prop :=
  ∀ round g, Stops cfg env enableChunking start round g → ¬ round.scheduler.HasEntry g.requestId

/-- What the rounds of the running queue come to. -/
structure RanQueue (cfg : SchedulerConfig A T δ) (env : Environment ρ δ) (enableChunking : Bool)
    (ledger : Ledger ρ) (ps : Multiset (SequenceGroup ρ δ)) (start round : RunningRound ρ δ A T) :
    Prop where
  accounted : Accounted ledger (.ofList round.scheduler.running + (round.outputs.held + ps))
    ↑round.scheduler.asyncStopped round.scheduler
  waiting : round.scheduler.waiting = start.scheduler.waiting
  swapped : round.scheduler.swapped = start.scheduler.swapped
  stopped : ∀ g ∈ round.scheduler.asyncStopped, g ∈ start.scheduler.asyncStopped ∨
    ∃ round, Stops cfg env enableChunking start round g

omit [DecidableEq δ] in
/-- The groups of the running queue, when no group with entries is stopped. -/
theorem RunningRounds.ranQueue {enableChunking : Bool} {start round : RunningRound ρ δ A T}
    (hreached : RunningRounds cfg env enableChunking start round)
    (h : Accounted ledger (.ofList start.scheduler.running + (start.outputs.held + ps))
      ↑start.scheduler.asyncStopped start.scheduler)
    (hplain : StopsPlain cfg env enableChunking start) :
    RanQueue cfg env enableChunking ledger ps start round := by
  induction hreached with
  | start => exact ⟨h, rfl, rfl, fun _ => .inl⟩
  | @stopped round g queue numNewTokens tokens hreached hturn hlong ih =>
    have hstops : Stops cfg env enableChunking start round g := ⟨hreached, ⟨_, _, _, hturn⟩, hlong⟩
    have hacc : Accounted ledger ({g} + (.ofList queue + (round.outputs.held + ps)))
        ↑round.scheduler.asyncStopped round.scheduler :=
      ih.accounted.of_eq (by rw [hturn.first, coe_cons]; abel) rfl
    have hstopped := hacc.stop (hplain round g hstops)
    rw [← coe_append_singleton] at hstopped
    refine ⟨hstopped.of_fields rfl rfl fun _ => id, ih.waiting, ih.swapped, fun g' hg' => ?_⟩
    cases List.mem_append.mp hg' with
    | inl hold => exact ih.stopped g' hold
    | inr hnew => exact .inr ⟨round, List.mem_singleton.mp hnew ▸ hstops⟩
  | @preempted round left g queue victims numNewTokens tokens hreached hturn hlong hmade ih =>
    have hacc : Accounted ledger ({g} + (.ofList queue.reverse + (round.outputs.held + ps)))
        ↑round.scheduler.asyncStopped round.scheduler :=
      ih.accounted.of_eq (by rw [hturn.first, coe_cons, Multiset.coe_reverse]; abel) rfl
    obtain ⟨hleft, hqueues⟩ := makeRoom_ok hacc hmade
    have hstopped : left.scheduler.asyncStopped = round.scheduler.asyncStopped :=
      hqueues.asyncStopped
    rw [if_neg Bool.false_ne_true, zero_add, ← hstopped, ← Multiset.coe_reverse victims] at hleft
    exact ⟨hleft.of_fields rfl rfl fun _ => id, hqueues.waiting.trans ih.waiting,
      hqueues.swapped.trans ih.swapped, fun g' hg' => ih.stopped g' (hstopped ▸ hg')⟩
  | @ran round left next g queue victims numNewTokens tokens hreached hturn hlong hmade hnext ih =>
    have hacc : Accounted ledger ({g} + (.ofList queue.reverse + (round.outputs.held + ps)))
        ↑round.scheduler.asyncStopped round.scheduler :=
      ih.accounted.of_eq (by rw [hturn.first, coe_cons, Multiset.coe_reverse]; abel) rfl
    obtain ⟨hleft, hqueues⟩ := makeRoom_ok hacc hmade
    have hstopped : left.scheduler.asyncStopped = round.scheduler.asyncStopped :=
      hqueues.asyncStopped
    rw [if_pos rfl, ← hstopped, ← Multiset.coe_reverse victims] at hleft
    have hleft' : Accounted ledger ({g} + (left.outputs.held + (.ofList victims.reverse + ps)))
        ↑left.scheduler.asyncStopped { left.scheduler with running := victims.reverse } := by
      refine Accounted.of_fields (hleft.of_eq ?_ rfl) rfl rfl fun _ => id
      abel
    obtain ⟨hran, hqueues'⟩ := runGroup_ok hleft' hnext
    have hrunning : next.scheduler.running = victims.reverse := hqueues'.running
    have hstopped' : next.scheduler.asyncStopped = left.scheduler.asyncStopped :=
      hqueues'.asyncStopped
    refine ⟨?_, (hqueues'.waiting.trans hqueues.waiting).trans ih.waiting,
      (hqueues'.swapped.trans hqueues.swapped).trans ih.swapped,
      fun g' hg' => ih.stopped g' (hstopped ▸ hstopped' ▸ hg')⟩
    rw [hrunning, hstopped']
    exact hran.of_eq (add_left_comm _ _ _) rfl

/-! ## The swapped queue -/

omit [DecidableEq δ] in
/-- A group that is swapped in is on one of the two lists. -/
theorem swapInGroup_ok {tokens : ℕ} {round round' : SwappedRound ρ δ A T}
    (h : Accounted ledger ({g} + (round.outputs.held + ps)) qs round.scheduler)
    (hok : swapInGroup cfg g tokens round = .ok round') :
    Accounted ledger (round'.outputs.held + ps) qs round'.scheduler ∧
      SameQueues round.scheduler round'.scheduler ∧
      round'.outputs.infeasibleSeqGroups = round.outputs.infeasibleSeqGroups := by
  obtain ⟨swapped, hswapped, hok⟩ := bind_eq_ok.mp hok
  obtain ⟨⟨mapping, m'⟩, hm', hswapped⟩ := bind_eq_ok.mp hswapped
  obtain rfl := Except.ok.inj hswapped
  obtain ⟨appended, happended, hok⟩ := bind_eq_ok.mp hok
  obtain rfl := Except.ok.inj hok
  have hgrows := BlockSpaceManager.grows_swap hm'
  have hgrow := (h.grow mem_singleton_add hgrows).changeStatus .swapped .running
    Bool.false_ne_true
  obtain ⟨hacc, hqueues⟩ := appendSlots_ok hgrow happended
  refine ⟨hacc.of_eq ?_ rfl,
    ⟨hqueues.waiting, hqueues.running, hqueues.swapped, hqueues.asyncStopped⟩, ?_⟩
  · dsimp only
    split
    · unfold SchedulerSwappedInOutputs.held
      rw [groupsOf_append, groupsOf_singleton, coe_append_singleton]
      abel
    · unfold SchedulerSwappedInOutputs.held
      rw [groupsOf_append, groupsOf_singleton, coe_append_singleton]
      abel
  · dsimp only
    split <;> rfl

/-- No swapped group that the loop reaches has too many blocks. -/
def SwappedFit (cfg : SchedulerConfig A T δ) (enableChunking : Bool)
    (start : SwappedRound ρ δ A T) : Prop :=
  ∀ g queue round, SwappedRounds cfg enableChunking start (g :: queue) round →
    round.scheduler.blockManager.canSwapIn cfg.tables g (getNumLookaheadSlots cfg g.isPrefill)
      ≠ .ok .never

/-- What the rounds of the swapped queue come to. -/
structure SwappedQueue (ledger : Ledger ρ) (ps qs : Multiset (SequenceGroup ρ δ))
    (queue : List (SequenceGroup ρ δ)) (start round : SwappedRound ρ δ A T) : Prop where
  accounted : Accounted ledger (.ofList queue + (round.outputs.held + ps)) qs round.scheduler
  waiting : round.scheduler.waiting = start.scheduler.waiting
  running : round.scheduler.running = start.scheduler.running
  asyncStopped : round.scheduler.asyncStopped = start.scheduler.asyncStopped
  feasible : round.outputs.infeasibleSeqGroups = start.outputs.infeasibleSeqGroups

omit [DecidableEq δ] in
/-- The groups of the swapped queue, when none has too many blocks. -/
theorem SwappedRounds.swappedQueue {enableChunking : Bool} {queue : List (SequenceGroup ρ δ)}
    {start round : SwappedRound ρ δ A T}
    (hreached : SwappedRounds cfg enableChunking start queue round)
    (h : Accounted ledger (.ofList start.scheduler.swapped + (start.outputs.held + ps)) qs
      start.scheduler)
    (hfits : SwappedFit cfg enableChunking start) :
    SwappedQueue ledger ps qs queue start round := by
  induction hreached with
  | start => exact ⟨h, rfl, rfl, rfl, rfl⟩
  | infeasible hreached hnever ih => exact absurd hnever (hfits _ _ _ hreached)
  | @swappedIn round next g queue numNewTokens hreached hturn hnext ih =>
    have hacc : Accounted ledger ({g} + (round.outputs.held + (.ofList queue + ps))) qs
        round.scheduler := ih.accounted.of_eq (by rw [coe_cons]; abel) rfl
    obtain ⟨hacc', hqueues, hfeasible⟩ := swapInGroup_ok hacc hnext
    exact ⟨hacc'.of_eq (add_left_comm _ _ _) rfl, hqueues.waiting.trans ih.waiting,
      hqueues.running.trans ih.running, hqueues.asyncStopped.trans ih.asyncStopped,
      hfeasible.trans ih.feasible⟩

end Scheduler

end Ikun.Scheduling
