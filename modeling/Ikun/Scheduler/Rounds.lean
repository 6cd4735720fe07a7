import Ikun.Scheduler.Schedule

/-!
# The rounds of the queues

The loops of `_schedule_running`, `_schedule_swapped` and `_schedule_prefills` take one group after
the other from the front of a queue. The states that a loop reaches between two groups are its
rounds, and `RunningTurn`, `SwappedTurn` and `WaitingTurn` say what the next group of a round is about
to get. A loop stops in one of its rounds, so that what every round keeps holds at its end.
-/

namespace Ikun.Scheduling.Scheduler

open Except

variable {ρ δ A T : Type} [DecidableEq ρ] [DecidableEq δ]
variable {cfg : SchedulerConfig A T δ} {env : Environment ρ δ} {enableChunking : Bool}

/-! ## The running queue -/

/-- The group is too long to run on: with asynchronous output processing it is stopped. -/
def TooLong (cfg : SchedulerConfig A T δ) (g : SequenceGroup ρ δ) : Prop :=
  cfg.useAsyncOutputProc ∧ cfg.maxModelLen < g.len

/-- The group is the next one of a round, and these are the tokens that it gets. -/
structure RunningTurn (cfg : SchedulerConfig A T δ) (enableChunking : Bool)
    (round : RunningRound ρ δ A T) (g : SequenceGroup ρ δ) (queue : List (SequenceGroup ρ δ))
    (numNewTokens tokens : ℕ) : Prop where
  first : round.scheduler.running = g :: queue
  numNewTokens_ok : getNumNewTokens cfg g .running enableChunking round.budget = .ok numNewTokens
  numNewTokens_ne : numNewTokens ≠ 0
  tokens_ok : numRunningTokens cfg enableChunking g round numNewTokens = .ok tokens

/-- The rounds of the loop of `_schedule_running`. -/
inductive RunningRounds (cfg : SchedulerConfig A T δ) (env : Environment ρ δ)
    (enableChunking : Bool) (start : RunningRound ρ δ A T) : RunningRound ρ δ A T → Prop
  | start : RunningRounds cfg env enableChunking start start
  | stopped {round : RunningRound ρ δ A T} {g : SequenceGroup ρ δ}
      {queue : List (SequenceGroup ρ δ)} {numNewTokens tokens : ℕ} :
      RunningRounds cfg env enableChunking start round →
      RunningTurn cfg enableChunking round g queue numNewTokens tokens → TooLong cfg g →
      RunningRounds cfg env enableChunking start { round with
        scheduler := { round.scheduler with
          running := queue
          asyncStopped := round.scheduler.asyncStopped ++ [g] } }
  | preempted {round left : RunningRound ρ δ A T} {g : SequenceGroup ρ δ}
      {queue victims : List (SequenceGroup ρ δ)} {numNewTokens tokens : ℕ} :
      RunningRounds cfg env enableChunking start round →
      RunningTurn cfg enableChunking round g queue numNewTokens tokens → ¬ TooLong cfg g →
      makeRoom cfg env g tokens queue.reverse round = .ok (false, victims, left) →
      RunningRounds cfg env enableChunking start { left with
        scheduler := { left.scheduler with running := victims.reverse } }
  | ran {round left next : RunningRound ρ δ A T} {g : SequenceGroup ρ δ}
      {queue victims : List (SequenceGroup ρ δ)} {numNewTokens tokens : ℕ} :
      RunningRounds cfg env enableChunking start round →
      RunningTurn cfg enableChunking round g queue numNewTokens tokens → ¬ TooLong cfg g →
      makeRoom cfg env g tokens queue.reverse round = .ok (true, victims, left) →
      runGroup cfg enableChunking g tokens { left with
        scheduler := { left.scheduler with running := victims.reverse } } = .ok next →
      RunningRounds cfg env enableChunking start next

omit [DecidableEq δ] in
/-- The loop of `_schedule_running` stops in one of its rounds. -/
theorem runningLoop_rounds {rounds : ℕ} {start round round' : RunningRound ρ δ A T}
    (hreached : RunningRounds cfg env enableChunking start round)
    (hok : runningLoop cfg env enableChunking rounds round = .ok round') :
    RunningRounds cfg env enableChunking start round' := by
  induction rounds generalizing round with
  | zero =>
    obtain rfl := Except.ok.inj hok
    exact hreached
  | succ rounds ih =>
    unfold runningLoop at hok
    split at hok
    · obtain rfl := Except.ok.inj hok
      exact hreached
    · next g queue hqueue =>
      obtain ⟨numNewTokens, hnumNew, hok⟩ := bind_eq_ok.mp hok
      split at hok
      · obtain rfl := Except.ok.inj hok
        exact hreached
      · next hne =>
        obtain ⟨tokens, htokens, hok⟩ := bind_eq_ok.mp hok
        have hturn : RunningTurn cfg enableChunking round g queue numNewTokens tokens :=
          ⟨hqueue, hnumNew, hne, htokens⟩
        split at hok
        · next hlong => exact ih (.stopped hreached hturn hlong) hok
        · next hshort =>
          obtain ⟨⟨hasSlots, victims, left⟩, hmade, hok⟩ := bind_eq_ok.mp hok
          cases hasSlots with
          | true =>
            obtain ⟨next, hnext, hok⟩ := bind_eq_ok.mp hok
            exact ih (.ran hreached hturn hshort hmade hnext) hok
          | false =>
            obtain ⟨next, hnext, hok⟩ := bind_eq_ok.mp hok
            obtain rfl := Except.ok.inj hnext
            exact ih (.preempted hreached hturn hshort hmade) hok

omit [DecidableEq δ] in
/-- `_schedule_running`. -/
theorem scheduleRunning_rounds {s : Scheduler ρ δ A T} {budget : SchedulingBudget ρ}
    {round : RunningRound ρ δ A T}
    (hok : s.scheduleRunning cfg env enableChunking budget = .ok round) :
    RunningRounds cfg env enableChunking { scheduler := s, budget := budget } round := by
  obtain ⟨_, -, hok⟩ := bind_eq_ok.mp hok
  exact runningLoop_rounds .start hok

/-! ## The swapped queue -/

/-- There is room and budget for a swapped group. -/
structure SwappedTurn (cfg : SchedulerConfig A T δ) (enableChunking : Bool)
    (round : SwappedRound ρ δ A T) (g : SequenceGroup ρ δ) (numNewTokens : ℕ) : Prop where
  room : round.scheduler.blockManager.canSwapIn cfg.tables g
    (getNumLookaheadSlots cfg g.isPrefill) = .ok .ok
  numNewTokens_ok : getNumNewTokens cfg g .swapped enableChunking round.budget = .ok numNewTokens
  fits_ok : fits round.budget numNewTokens g.maxNumRunningSeqs = .ok true

/-- The rounds of the loop of `_schedule_swapped`, with the queue that is left. -/
inductive SwappedRounds (cfg : SchedulerConfig A T δ) (enableChunking : Bool)
    (start : SwappedRound ρ δ A T) : List (SequenceGroup ρ δ) → SwappedRound ρ δ A T → Prop
  | start : SwappedRounds cfg enableChunking start start.scheduler.swapped start
  | infeasible {round : SwappedRound ρ δ A T} {g : SequenceGroup ρ δ}
      {queue : List (SequenceGroup ρ δ)} :
      SwappedRounds cfg enableChunking start (g :: queue) round →
      round.scheduler.blockManager.canSwapIn cfg.tables g
        (getNumLookaheadSlots cfg g.isPrefill) = .ok .never →
      SwappedRounds cfg enableChunking start queue { round with
        outputs := { round.outputs with
          infeasibleSeqGroups := round.outputs.infeasibleSeqGroups ++ [ignore g] } }
  | swappedIn {round next : SwappedRound ρ δ A T} {g : SequenceGroup ρ δ}
      {queue : List (SequenceGroup ρ δ)} {numNewTokens : ℕ} :
      SwappedRounds cfg enableChunking start (g :: queue) round →
      SwappedTurn cfg enableChunking round g numNewTokens →
      swapInGroup cfg g numNewTokens round = .ok next →
      SwappedRounds cfg enableChunking start queue next

omit [DecidableEq δ] in
/-- A round leaves the end of the swapped queue. -/
theorem SwappedRounds.suffix {queue : List (SequenceGroup ρ δ)} {start round : SwappedRound ρ δ A T}
    (h : SwappedRounds cfg enableChunking start queue round) :
    queue <:+ start.scheduler.swapped := by
  induction h with
  | start => exact List.suffix_refl _
  | infeasible _ _ ih => exact (List.suffix_cons _ _).trans ih
  | swappedIn _ _ _ ih => exact (List.suffix_cons _ _).trans ih

omit [DecidableEq δ] in
/-- The loop of `_schedule_swapped` stops in one of its rounds and leaves the rest of the queue. -/
theorem swappedLoop_rounds {queue : List (SequenceGroup ρ δ)}
    {start round round' : SwappedRound ρ δ A T}
    (hreached : SwappedRounds cfg enableChunking start queue round)
    (hok : swappedLoop cfg enableChunking queue round = .ok round') :
    ∃ queue' last, SwappedRounds cfg enableChunking start queue' last ∧
      round' = { last with scheduler := { last.scheduler with swapped := queue' } } := by
  induction queue generalizing round with
  | nil =>
    obtain rfl := Except.ok.inj hok
    exact ⟨_, _, hreached, rfl⟩
  | cons g queue ih =>
    unfold swappedLoop at hok
    obtain ⟨allocStatus, hstatus, hok⟩ := bind_eq_ok.mp hok
    cases allocStatus with
    | later =>
      obtain rfl := Except.ok.inj hok
      exact ⟨_, _, hreached, rfl⟩
    | never => exact ih (.infeasible hreached hstatus) hok
    | ok =>
      obtain ⟨numNewTokens, hnumNew, hok⟩ := bind_eq_ok.mp hok
      obtain ⟨canSchedule, hfits, hok⟩ := bind_eq_ok.mp hok
      cases canSchedule with
      | false =>
        obtain rfl := Except.ok.inj hok
        exact ⟨_, _, hreached, rfl⟩
      | true =>
        obtain ⟨next, hnext, hok⟩ := bind_eq_ok.mp hok
        exact ih (.swappedIn hreached ⟨hstatus, hnumNew, hfits⟩ hnext) hok

omit [DecidableEq δ] in
/-- `_schedule_swapped`. -/
theorem scheduleSwapped_rounds {s : Scheduler ρ δ A T} {budget : SchedulingBudget ρ}
    {round : SwappedRound ρ δ A T}
    (hok : s.scheduleSwapped cfg enableChunking budget = .ok round) :
    ∃ last, SwappedRounds cfg enableChunking { scheduler := s, budget := budget }
      round.scheduler.swapped last ∧
        round = { last with
          scheduler := { last.scheduler with swapped := round.scheduler.swapped } } := by
  have hstart : SwappedRounds cfg enableChunking { scheduler := s, budget := budget } s.swapped
    { scheduler := s, budget := budget } := .start
  obtain ⟨queue, last, hreached, rfl⟩ := swappedLoop_rounds hstart hok
  exact ⟨last, hreached, rfl⟩

/-! ## The waiting queue -/

/-- The next waiting group of round `n` is looked at, and these are the tokens that it would get. -/
structure WaitingTurn (cfg : SchedulerConfig A T δ) (env : Environment ρ δ) (enableChunking : Bool)
    (n : ℕ) (round : PrefillRound ρ δ A T) (g : SequenceGroup ρ δ) (numNewTokens : ℕ) : Prop where
  passedDelay : env.passedDelay n
  waiting : g.status = .waiting
  numNewTokens_ok : getNumNewTokens cfg g .waiting enableChunking round.budget = .ok numNewTokens
  whole : enableChunking ∨ numNewTokens = g.len

/-- The group is longer than a prompt may be, or than the blocks allow. -/
def TooLarge (cfg : SchedulerConfig A T δ) (round : PrefillRound ρ δ A T) (g : SequenceGroup ρ δ)
    (numNewTokens : ℕ) : Prop :=
  getPromptLimit cfg < numNewTokens ∨
    round.scheduler.blockManager.canAllocate cfg.tables g 0 = .never

/-- There is room and budget for a waiting group. -/
structure Admissible (cfg : SchedulerConfig A T δ) (round : PrefillRound ρ δ A T)
    (g : SequenceGroup ρ δ) (numNewTokens : ℕ) : Prop where
  le_limit : numNewTokens ≤ getPromptLimit cfg
  room : round.scheduler.blockManager.canAllocate cfg.tables g 0 = .ok
  fits_ok : fits round.budget numNewTokens g.maxNumRunningSeqs = .ok true

/-- The rounds of the loop of `_schedule_prefills`: how many have passed, and the queue that is
left. -/
inductive PrefillRounds (cfg : SchedulerConfig A T δ) (env : Environment ρ δ)
    (enableChunking : Bool) (start : PrefillRound ρ δ A T) :
    ℕ → List (SequenceGroup ρ δ) → PrefillRound ρ δ A T → Prop
  | start : PrefillRounds cfg env enableChunking start 0 start.scheduler.waiting start
  | ignored {n : ℕ} {round : PrefillRound ρ δ A T} {g : SequenceGroup ρ δ}
      {queue : List (SequenceGroup ρ δ)} {numNewTokens : ℕ} :
      PrefillRounds cfg env enableChunking start n (g :: queue) round →
      WaitingTurn cfg env enableChunking n round g numNewTokens →
      TooLarge cfg round g numNewTokens →
      PrefillRounds cfg env enableChunking start (n + 1) queue { round with
        outputs := { round.outputs with
          ignoredSeqGroups := round.outputs.ignoredSeqGroups ++ [ignore g] } }
  | admitted {n : ℕ} {round next : PrefillRound ρ δ A T} {g : SequenceGroup ρ δ}
      {queue : List (SequenceGroup ρ δ)} {numNewTokens : ℕ} :
      PrefillRounds cfg env enableChunking start n (g :: queue) round →
      WaitingTurn cfg env enableChunking n round g numNewTokens →
      Admissible cfg round g numNewTokens →
      admitGroup cfg env enableChunking g numNewTokens round = .ok next →
      PrefillRounds cfg env enableChunking start (n + 1) queue next

/-- Every round takes one group from the waiting queue. -/
theorem PrefillRounds.drop_eq {n : ℕ} {queue : List (SequenceGroup ρ δ)}
    {start round : PrefillRound ρ δ A T}
    (h : PrefillRounds cfg env enableChunking start n queue round) :
    start.scheduler.waiting.drop n = queue := by
  induction h with
  | start => exact List.drop_zero
  | ignored _ _ _ ih => rw [← List.drop_drop, ih, List.drop_succ_cons, List.drop_zero]
  | admitted _ _ _ _ ih => rw [← List.drop_drop, ih, List.drop_succ_cons, List.drop_zero]

/-- The loop of `_schedule_prefills` stops in one of its rounds and leaves the rest of the queue. -/
theorem prefillsLoop_rounds {n : ℕ} {queue : List (SequenceGroup ρ δ)}
    {start round round' : PrefillRound ρ δ A T}
    (hreached : PrefillRounds cfg env enableChunking start n queue round)
    (hok : prefillsLoop cfg env enableChunking n queue round = .ok round') :
    ∃ n' queue' last, PrefillRounds cfg env enableChunking start n' queue' last ∧
      round' = { last with scheduler := { last.scheduler with waiting := queue' } } := by
  induction queue generalizing n round with
  | nil =>
    obtain rfl := Except.ok.inj hok
    exact ⟨_, _, _, hreached, rfl⟩
  | cons g queue ih =>
    unfold prefillsLoop at hok
    split at hok
    · obtain rfl := Except.ok.inj hok
      exact ⟨_, _, _, hreached, rfl⟩
    · next hdelay =>
      obtain ⟨_, hstatus, hok⟩ := bind_eq_ok.mp hok
      obtain ⟨numNewTokens, hnumNew, hok⟩ := bind_eq_ok.mp hok
      obtain ⟨_, hwhole, hok⟩ := bind_eq_ok.mp hok
      have hturn : WaitingTurn cfg env enableChunking n round g numNewTokens := {
        passedDelay := not_not.mp hdelay
        waiting := not_not.mp (raiseIf_eq_ok.mp hstatus)
        numNewTokens_ok := hnumNew
        whole := Classical.or_iff_not_imp_left.mpr fun hnot =>
          not_not.mp fun hne => raiseIf_eq_ok.mp hwhole ⟨hnot, hne⟩ }
      split at hok
      · next hlimit => exact ih (.ignored hreached hturn (.inl hlimit)) hok
      · next hlimit =>
        split at hok
        · obtain rfl := Except.ok.inj hok
          exact ⟨_, _, _, hreached, rfl⟩
        · next hnever => exact ih (.ignored hreached hturn (.inr hnever)) hok
        · next hroom =>
          obtain ⟨canSchedule, hfits, hok⟩ := bind_eq_ok.mp hok
          cases canSchedule with
          | false =>
            obtain rfl := Except.ok.inj hok
            exact ⟨_, _, _, hreached, rfl⟩
          | true =>
            obtain ⟨next, hnext, hok⟩ := bind_eq_ok.mp hok
            exact ih (.admitted hreached hturn ⟨Nat.le_of_not_lt hlimit, hroom, hfits⟩ hnext) hok

/-- `_schedule_prefills`. -/
theorem schedulePrefills_rounds {s : Scheduler ρ δ A T} {budget : SchedulingBudget ρ}
    {round : PrefillRound ρ δ A T}
    (hok : s.schedulePrefills cfg env enableChunking budget = .ok round) :
    ∃ n last, PrefillRounds cfg env enableChunking { scheduler := s, budget := budget } n
      round.scheduler.waiting last ∧
        round = { last with
          scheduler := { last.scheduler with waiting := round.scheduler.waiting } } := by
  have hstart : PrefillRounds cfg env enableChunking { scheduler := s, budget := budget } 0 s.waiting
    { scheduler := s, budget := budget } := .start
  obtain ⟨n, queue, last, hreached, rfl⟩ := prefillsLoop_rounds hstart hok
  exact ⟨n, last, hreached, rfl⟩

/-! ## Where the loops of a step start -/

/-- The scheduler at the begin of a step. -/
def begun (cfg : SchedulerConfig A T δ) (s : Scheduler ρ δ A T) : Scheduler ρ δ A T :=
  { s with blockManager := s.blockManager.beginPrefixCacheStep cfg.tables }

/-- With chunked prefill the running queue comes first, and otherwise behind a waiting queue of which
nothing was admitted. -/
inductive StartsRunning (cfg : SchedulerConfig A T δ) (env : Environment ρ δ)
    (s : Scheduler ρ δ A T) : Bool → RunningRound ρ δ A T → Prop
  | chunkedPrefill : StartsRunning cfg env s true { scheduler := s, budget := stepBudget cfg }
  | default {prefills : PrefillRound ρ δ A T} {preempted : Scheduler ρ δ A T}
      {budget : SchedulingBudget ρ} :
      s.prefillsUnlessSwapped cfg env (s.countRunning cfg) = .ok prefills →
      preemptByPriority cfg prefills = .ok (preempted, budget) →
      prefills.outputs.seqGroups.isEmpty →
      StartsRunning cfg env s false { scheduler := preempted, budget := budget }

/-- The swapped queue follows the running one, when nothing was preempted. -/
inductive StartsSwapped (cfg : SchedulerConfig A T δ) (env : Environment ρ δ)
    (s : Scheduler ρ δ A T) (enableChunking : Bool) : SwappedRound ρ δ A T → Prop
  | behindRunning {start running : RunningRound ρ δ A T} :
      StartsRunning cfg env s enableChunking start →
      start.scheduler.scheduleRunning cfg env enableChunking start.budget = .ok running →
      running.outputs.preempted.length + running.outputs.swappedOut.length = 0 →
      StartsSwapped cfg env s enableChunking
        { scheduler := running.scheduler, budget := running.budget }

/-- With chunked prefill the waiting queue comes last, and otherwise first, unless there are swapped
groups. -/
inductive StartsPrefills (cfg : SchedulerConfig A T δ) (env : Environment ρ δ)
    (s : Scheduler ρ δ A T) : Bool → PrefillRound ρ δ A T → Prop
  | chunkedPrefill {running : RunningRound ρ δ A T} {swappedIn : SwappedRound ρ δ A T} :
      s.scheduleRunning cfg env true (stepBudget cfg) = .ok running →
      scheduleSwappedAfter cfg running = .ok swappedIn →
      StartsPrefills cfg env s true
        { scheduler := swappedIn.scheduler, budget := swappedIn.budget }
  | default : s.swapped = [] →
      StartsPrefills cfg env s false { scheduler := s, budget := s.countRunning cfg }

end Ikun.Scheduling.Scheduler
