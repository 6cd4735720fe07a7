import Ikun.Scheduler.StepAccounts

/-!
# What is left of a request

A request leaves the scheduler when it is finished, aborted or ignored. In the runs in which no
aborted request has entries, no group is ignored and every group that is stopped for its length is
finished, nothing is left of it: no block table, no namespace and no entry, its id has been reported
once, and a new request of that id finds a scheduler that does not know the id.

`abort_seq_group` does not pop the entries of a request, so the condition on the aborted requests
cannot be dropped.
-/

namespace Ikun.Scheduling

open Except

variable {ρ δ A T W : Type} [DecidableEq ρ] [DecidableEq δ]

namespace Scheduler

variable {cfg : SchedulerConfig A T δ} {env : Environment ρ δ}
variable {s s' : Scheduler ρ δ A T} {g : SequenceGroup ρ δ} {ledger : Ledger ρ}
variable {ps qs : Multiset (SequenceGroup ρ δ)}

/-! ## Aborted groups -/

omit [DecidableEq δ] in
/-- The loop over the aborted groups of a queue, none of which has entries. -/
theorem abortGroups_ok {groups : List (SequenceGroup ρ δ)}
    (h : Accounted ledger (.ofList groups + ps) qs s)
    (hplain : ∀ g ∈ groups, ¬ s.HasEntry g.requestId)
    (hok : groups.foldlM (abortGroup cfg) s = .ok s') :
    Accounted ledger ps qs s' ∧ SameQueues s s' ∧
      ∀ requestId, s'.HasEntry requestId → s.HasEntry requestId := by
  induction groups generalizing s with
  | nil =>
    obtain rfl := Except.ok.inj hok
    exact ⟨h.of_eq (zero_add ps) rfl, .refl s, fun _ => id⟩
  | cons g groups ih =>
    rw [List.foldlM_cons] at hok
    obtain ⟨s₁, hs₁, hok⟩ := bind_eq_ok.mp hok
    have h' : Accounted ledger ({g} + (.ofList groups + ps)) qs s :=
      h.of_eq (by rw [coe_cons, add_assoc]) rfl
    have hleft := left_abortGroup (h'.unfinished g mem_singleton_add)
      (hplain g List.mem_cons_self) hs₁
    obtain ⟨hacc, hqueues, hentries⟩ := ih (h'.left hleft) (fun g' hg' hentry =>
      hplain g' (List.mem_cons_of_mem g hg') (hleft.entries _ hentry).2) hok
    exact ⟨hacc, hleft.queues.trans hqueues, fun requestId hid =>
      (hleft.entries requestId (hentries requestId hid)).2⟩

omit [DecidableEq δ] in
/-- The groups of a queue that are not aborted are left. -/
theorem abortQueue_ok {requestIds : List ρ} {parent : ρ → Option ρ}
    {queue : List (SequenceGroup ρ δ)} (h : Accounted ledger (.ofList queue + ps) qs s)
    (hplain : ∀ g ∈ queue, Aborts requestIds parent g → ¬ s.HasEntry g.requestId)
    (hok : (queue.filter fun g => Aborts requestIds parent g).foldlM (abortGroup cfg) s = .ok s') :
    Accounted ledger (.ofList (queue.filter fun g => ¬ Aborts requestIds parent g) + ps) qs s' ∧
      SameQueues s s' ∧ ∀ requestId, s'.HasEntry requestId → s.HasEntry requestId := by
  refine abortGroups_ok (h.of_eq ?_ rfl) (fun g hg => ?_) hok
  · rw [← add_assoc]
    simp only [← Multiset.filter_coe]
    rw [Multiset.filter_add_not]
  · obtain ⟨hmem, haborts⟩ := List.mem_filter.mp hg
    exact hplain g hmem (of_decide_eq_true haborts)

omit [DecidableEq δ] in
/-- `abort_seq_group` for requests without entries. -/
theorem abortSeqGroup_ok {requestIds : List ρ} {parent : ρ → Option ρ}
    (h : Accounted ledger s.queued ↑s.asyncStopped s)
    (hplain : ∀ g ∈ s.liveGroups, Aborts requestIds parent g → ¬ s.HasEntry g.requestId)
    (hok : s.abortSeqGroup cfg requestIds parent = .ok s') :
    Accounted ledger s'.queued ↑s'.asyncStopped s' ∧ s'.asyncStopped = s.asyncStopped := by
  have hwaiting : ∀ g ∈ s.waiting, g ∈ s.liveGroups := fun g hg =>
    List.mem_append_left _ (List.mem_append_left _ (List.mem_append_left _ hg))
  have hrunning : ∀ g ∈ s.running, g ∈ s.liveGroups := fun g hg =>
    List.mem_append_left _ (List.mem_append_left _ (List.mem_append_right _ hg))
  have hswapped : ∀ g ∈ s.swapped, g ∈ s.liveGroups := fun g hg =>
    List.mem_append_left _ (List.mem_append_right _ hg)
  obtain ⟨s₁, hs₁, hok⟩ := bind_eq_ok.mp hok
  obtain ⟨s₂, hs₂, hok⟩ := bind_eq_ok.mp hok
  let kept := fun queue : List (SequenceGroup ρ δ) =>
    queue.filter fun g => ¬ Aborts requestIds parent g
  have h₀ : Accounted ledger (.ofList s.waiting + (.ofList s.running + .ofList s.swapped))
      ↑s.asyncStopped { s with waiting := kept s.waiting } :=
    Accounted.of_fields (h.of_eq (by unfold queued; abel) rfl) rfl rfl fun _ => id
  obtain ⟨hacc₁, hqueues₁, hentries₁⟩ := abortQueue_ok h₀ (fun g hg => hplain g (hwaiting g hg)) hs₁
  have h₁ : Accounted ledger (.ofList s.running + (.ofList (kept s.waiting) + .ofList s.swapped))
      ↑s.asyncStopped { s₁ with running := kept s.running } :=
    Accounted.of_fields (hacc₁.of_eq (add_left_comm _ _ _) rfl) rfl rfl fun _ => id
  obtain ⟨hacc₂, hqueues₂, hentries₂⟩ := abortQueue_ok h₁
    (fun g hg haborts hentry => hplain g (hrunning g hg) haborts (hentries₁ _ hentry)) hs₂
  have h₂ : Accounted ledger (.ofList s.swapped + (.ofList (kept s.running) +
      .ofList (kept s.waiting))) ↑s.asyncStopped { s₂ with swapped := kept s.swapped } :=
    Accounted.of_fields (hacc₂.of_eq (by rw [← add_assoc]; exact add_comm _ _) rfl) rfl rfl
      fun _ => id
  obtain ⟨hacc₃, hqueues₃, -⟩ := abortQueue_ok h₂ (fun g hg haborts hentry =>
    hplain g (hswapped g hg) haborts (hentries₁ _ (hentries₂ _ hentry))) hok
  have hstopped : s'.asyncStopped = s.asyncStopped :=
    hqueues₃.asyncStopped.trans (hqueues₂.asyncStopped.trans hqueues₁.asyncStopped)
  have hwaiting' : s'.waiting = kept s.waiting :=
    hqueues₃.waiting.trans (hqueues₂.waiting.trans hqueues₁.waiting)
  have hrunning' : s'.running = kept s.running := hqueues₃.running.trans hqueues₂.running
  have hswapped' : s'.swapped = kept s.swapped := hqueues₃.swapped
  refine ⟨hacc₃.of_eq ?_ (congrArg Multiset.ofList hstopped.symm), hstopped⟩
  unfold queued
  rw [hwaiting', hrunning', hswapped']
  abel

/-! ## Processed outputs -/

omit [DecidableEq ρ] [DecidableEq δ] in
/-- The verdict changes the status of a group only. -/
theorem withVerdict_some {verdicts : ρ → Option FinishReason} {reason : FinishReason}
    (hunfinished : ¬ g.isFinished) (hverdict : verdicts g.requestId = some reason) :
    withVerdict verdicts g = { g with status := .finished reason } := by
  unfold withVerdict
  rw [hverdict]
  exact if_neg hunfinished

omit [DecidableEq ρ] [DecidableEq δ] in
theorem withVerdict_none {verdicts : ρ → Option FinishReason}
    (hverdict : verdicts g.requestId = none) : withVerdict verdicts g = g := by
  unfold withVerdict
  rw [hverdict]

omit [DecidableEq δ] in
/-- The loop of `free_finished_seq_groups` over the running queue: the groups without a verdict are
left. -/
theorem freeRunning_ok {verdicts : ρ → Option FinishReason}
    {groups : List (SequenceGroup ρ δ)} (h : Accounted ledger (.ofList groups + ps) qs s)
    (hok : (groups.map (withVerdict verdicts)).foldlM (freeFinishedSeqGroup cfg) s = .ok s') :
    Accounted ledger (.ofList ((groups.map (withVerdict verdicts)).filter fun g => ¬ g.isFinished)
        + ps) qs s' ∧ SameQueues s s' := by
  induction groups generalizing s ps with
  | nil =>
    obtain rfl := Except.ok.inj hok
    exact ⟨h, .refl s⟩
  | cons g groups ih =>
    rw [List.map_cons, List.foldlM_cons] at hok
    obtain ⟨s₁, hs₁, hok⟩ := bind_eq_ok.mp hok
    have h' : Accounted ledger ({g} + (.ofList groups + ps)) qs s :=
      h.of_eq (by rw [coe_cons, add_assoc]) rfl
    have hunfinished : ¬ g.isFinished := h'.unfinished g mem_singleton_add
    cases hverdict : verdicts g.requestId with
    | none =>
      rw [withVerdict_none hverdict] at hs₁
      have hsame : s₁ = s := by
        unfold freeFinishedSeqGroup freeFinishedSeqs at hs₁
        rw [if_neg hunfinished, if_neg hunfinished] at hs₁
        exact (Except.ok.inj hs₁).symm
      obtain ⟨hacc, hqueues⟩ := ih (hsame ▸ h'.of_eq (add_left_comm _ _ _) rfl) hok
      refine ⟨hacc.of_eq ?_ rfl, hsame ▸ hqueues⟩
      rw [List.map_cons, withVerdict_none hverdict,
        List.filter_cons_of_pos (by simpa using hunfinished), coe_cons]
      abel
    | some reason =>
      rw [withVerdict_some hunfinished hverdict] at hs₁
      have hfinished := left_freeFinishedSeqGroup rfl hs₁
      have hleft : Left g s s₁ := { hfinished with }
      obtain ⟨hacc, hqueues⟩ := ih (h'.left hleft) hok
      refine ⟨hacc.of_eq ?_ rfl, hleft.queues.trans hqueues⟩
      rw [List.map_cons, withVerdict_some hunfinished hverdict,
        List.filter_cons_of_neg (by simp [SequenceGroup.isFinished])]

omit [DecidableEq δ] in
/-- The loop of `free_finished_seq_groups` over the groups that were stopped for their length. -/
theorem freeStopped_ok {verdicts : ρ → Option FinishReason}
    {groups : List (SequenceGroup ρ δ)} (h : Accounted ledger ps (.ofList groups) s)
    (hverdicts : ∀ g ∈ groups, (verdicts g.requestId).isSome)
    (hok : (groups.map (withVerdict verdicts)).foldlM (freeAsyncStopped cfg) s = .ok s') :
    Accounted ledger ps 0 s' ∧ SameQueues s s' := by
  induction groups generalizing s with
  | nil =>
    obtain rfl := Except.ok.inj hok
    exact ⟨h, .refl s⟩
  | cons g groups ih =>
    rw [List.map_cons, List.foldlM_cons] at hok
    obtain ⟨s₁, hs₁, hok⟩ := bind_eq_ok.mp hok
    have hg : g ∈ ps + .ofList (g :: groups) :=
      Multiset.mem_add.mpr (.inr (Multiset.mem_coe.mpr List.mem_cons_self))
    have hunfinished : ¬ g.isFinished := h.unfinished g hg
    obtain ⟨reason, hverdict⟩ := Option.isSome_iff_exists.mp (hverdicts g List.mem_cons_self)
    rw [withVerdict_some hunfinished hverdict] at hs₁
    have hentry : ¬ s.HasEntry g.requestId := h.not_hasEntry (Multiset.mem_coe.mpr List.mem_cons_self)
    have hfinished : Left { g with status := .finished reason } s s₁ :=
      left_freeAsyncStopped rfl hentry hs₁
    have hleft : Left g s s₁ := { hfinished with }
    obtain ⟨hacc, hqueues⟩ := ih ((h.of_eq rfl (coe_cons g groups)).left_stopped hleft)
      (fun g' hg' => hverdicts g' (List.mem_cons_of_mem g hg')) hok
    exact ⟨hacc, hleft.queues.trans hqueues⟩

omit [DecidableEq δ] in
/-- `_process_model_outputs`, with a verdict for every group that was stopped for its length. -/
theorem processModelOutputs_ok {verdicts : ρ → Option FinishReason}
    (h : Accounted ledger s.queued ↑s.asyncStopped s)
    (hverdicts : ∀ g ∈ s.asyncStopped, (verdicts g.requestId).isSome)
    (hok : s.processModelOutputs cfg verdicts = .ok s') :
    Accounted ledger s'.queued 0 s' ∧ s'.asyncStopped = [] := by
  have hunfinished : ∀ g ∈ s.running ++ s.asyncStopped, ¬ g.isFinished := by
    intro g hg
    refine h.unfinished g ?_
    cases List.mem_append.mp hg with
    | inl hrunning =>
      exact Multiset.mem_add.mpr (.inl (Multiset.mem_add.mpr (.inl
        (Multiset.mem_add.mpr (.inr (Multiset.mem_coe.mpr hrunning))))))
    | inr hstopped => exact Multiset.mem_add.mpr (.inr (Multiset.mem_coe.mpr hstopped))
  unfold processModelOutputs at hok
  dsimp only at hok
  split at hok
  · obtain ⟨freed, hfreed, hok⟩ := bind_eq_ok.mp hok
    obtain ⟨stopped, hstopped, hok⟩ := bind_eq_ok.mp hok
    obtain rfl := Except.ok.inj hok
    have h₀ : Accounted ledger (.ofList s.running + (.ofList s.waiting + .ofList s.swapped))
        ↑s.asyncStopped { s with
          running := s.running.map (withVerdict verdicts)
          asyncStopped := s.asyncStopped.map (withVerdict verdicts) } :=
      Accounted.of_fields (h.of_eq (by unfold queued; abel) rfl) rfl rfl fun _ => id
    obtain ⟨hacc, hqueues⟩ := freeRunning_ok h₀ hfreed
    let left := (s.running.map (withVerdict verdicts)).filter fun g => ¬ g.isFinished
    have h₁ : Accounted ledger (.ofList left + (.ofList s.waiting + .ofList s.swapped))
        ↑s.asyncStopped { freed with
          running := left
          asyncStopped := s.asyncStopped.map (withVerdict verdicts) } :=
      hacc.of_fields rfl rfl fun _ => id
    have hstopped' : freed.asyncStopped = s.asyncStopped.map (withVerdict verdicts) :=
      hqueues.asyncStopped
    dsimp only at hstopped
    rw [hstopped'] at hstopped
    obtain ⟨hacc', hqueues'⟩ := freeStopped_ok h₁ hverdicts hstopped
    refine ⟨Accounted.of_fields (hacc'.of_eq ?_ rfl) rfl rfl fun _ => id, rfl⟩
    have hwaiting : stopped.waiting = s.waiting := hqueues'.waiting.trans hqueues.waiting
    have hrunning : stopped.running = left := hqueues'.running
    have hswapped : stopped.swapped = s.swapped := hqueues'.swapped.trans hqueues.swapped
    unfold queued
    rw [hwaiting, hrunning, hswapped]
    abel
  · next hnow =>
    have hnone : ∀ g ∈ s.running ++ s.asyncStopped, verdicts g.requestId = none := by
      intro g hg
      cases hverdict : verdicts g.requestId with
      | none => rfl
      | some reason =>
        refine absurd (List.any_eq_true.mpr ⟨g, hg, ?_⟩) hnow
        exact decide_eq_true ⟨hunfinished g hg, hverdict ▸ rfl⟩
    have hstopped : s.asyncStopped = [] := by
      cases hgroups : s.asyncStopped with
      | nil => rfl
      | cons g groups =>
        have hg : g ∈ s.asyncStopped := hgroups ▸ List.mem_cons_self
        have hsome := hverdicts g hg
        rw [hnone g (List.mem_append_right _ hg)] at hsome
        cases hsome
    have hrunning : s.running.map (withVerdict verdicts) = s.running :=
      (List.map_congr_left fun g hg =>
        withVerdict_none (hnone g (List.mem_append_left _ hg))).trans (List.map_id _)
    obtain rfl := Except.ok.inj hok
    rw [hrunning, hstopped]
    refine ⟨Accounted.of_fields (h.of_eq ?_ (congrArg Multiset.ofList hstopped)) rfl rfl
      fun _ => id, rfl⟩
    rfl

/-! ## The next chunk -/

omit [DecidableEq δ] in
/-- A group that advances keeps its request and its sequence. -/
theorem advanceGroup_ok {scheduled : List (ScheduledSequenceGroup ρ δ)} {sampled : ρ → ℕ}
    {g' : SequenceGroup ρ δ} (hok : advanceGroup scheduled sampled g = .ok g') :
    g'.requestId = g.requestId ∧ g'.seqId = g.seqId ∧ g'.status = g.status := by
  unfold advanceGroup at hok
  split at hok
  · obtain rfl := Except.ok.inj hok
    exact ⟨rfl, rfl, rfl⟩
  · split at hok
    · obtain rfl := Except.ok.inj hok
      exact ⟨rfl, rfl, rfl⟩
    · obtain ⟨advanced, hadvanced, hok⟩ := bind_eq_ok.mp hok
      obtain ⟨-, -, hadvanced⟩ := bind_eq_ok.mp hadvanced
      obtain rfl := Except.ok.inj hadvanced
      obtain rfl := Except.ok.inj hok
      split <;> exact ⟨rfl, rfl, rfl⟩

omit [DecidableEq δ] in
/-- `_advance_to_next_step`. -/
theorem advance_ok {scheduled : List (ScheduledSequenceGroup ρ δ)} {sampled : ρ → ℕ}
    (h : Accounted ledger s.queued qs s) (hok : s.advance scheduled sampled = .ok s') :
    Accounted ledger s'.queued qs s' ∧ s'.asyncStopped = s.asyncStopped := by
  obtain ⟨running, hrunning, hok⟩ := bind_eq_ok.mp hok
  obtain rfl := Except.ok.inj hok
  have hmap : ∀ (groups groups' : List (SequenceGroup ρ δ)) (ps : Multiset (SequenceGroup ρ δ)),
      Accounted ledger (.ofList groups + ps) qs s →
      groups.mapM (advanceGroup scheduled sampled) = .ok groups' →
      Accounted ledger (.ofList groups' + ps) qs s := by
    intro groups
    induction groups with
    | nil =>
      intro groups' ps hacc hgroups'
      obtain rfl := Except.ok.inj hgroups'
      exact hacc
    | cons g groups ih =>
      intro groups' ps hacc hgroups'
      rw [List.mapM_cons] at hgroups'
      obtain ⟨g', hg', hgroups'⟩ := bind_eq_ok.mp hgroups'
      obtain ⟨rest, hrest, hgroups'⟩ := bind_eq_ok.mp hgroups'
      obtain rfl := Except.ok.inj hgroups'
      obtain ⟨hrequest, hseq, hstatus⟩ := advanceGroup_ok hg'
      rw [coe_cons, add_assoc] at hacc
      have hunfinished : ¬ g'.isFinished := by
        unfold SequenceGroup.isFinished
        rw [hstatus]
        exact hacc.unfinished g mem_singleton_add
      have hreplaced := hacc.replace hrequest hseq hunfinished
      exact (ih rest ({g'} + ps) (hreplaced.of_eq (add_left_comm _ _ _) rfl) hrest).of_eq
        (by rw [coe_cons]; abel) rfl
  refine ⟨Accounted.of_fields ((hmap s.running running (.ofList s.waiting + .ofList s.swapped)
    (h.of_eq (by unfold queued; abel) rfl) hrunning).of_eq ?_ rfl) rfl rfl fun _ => id, rfl⟩
  unfold queued
  abel

/-! ## New requests and handed over ids -/

omit [DecidableEq δ] in
/-- A new group is accounted for. -/
theorem Accounted.add (h : Accounted ledger s.queued 0 s) (hwaiting : g.status = .waiting)
    (hseq : ∀ p ∈ ledger.added, p.2 ≠ g.seqId)
    (hrequest : ∀ g' ∈ s.queued, g'.requestId ≠ g.requestId) :
    Accounted ⟨fun requestId => ledger.total requestId + if requestId = g.requestId then 1 else 0,
      ledger.added ++ [(g.requestId, g.seqId)]⟩ (s.addSeqGroup g).queued 0 (s.addSeqGroup g) := by
  have hqueued : (s.addSeqGroup g).queued = g ::ₘ s.queued := by
    unfold queued addSeqGroup
    rw [coe_append_singleton, ← Multiset.singleton_add]
    abel
  obtain ⟨hseqIds, hrequestIds, hcount, htables, hnamespaces, hentries, hunfinished, hadded⟩ := h
  rw [add_zero] at hseqIds hrequestIds hcount htables hnamespaces hunfinished hadded
  rw [hqueued]
  refine ⟨?_, ?_, ?_, ?_, ?_, ?_, ?_, ?_⟩
  all_goals simp only [add_zero, Multiset.map_cons]
  · refine Multiset.nodup_cons.mpr ⟨fun hmem => ?_, hseqIds⟩
    obtain ⟨g', hg', heq⟩ := Multiset.mem_map.mp hmem
    exact hseq _ (hadded g' hg') heq
  · refine Multiset.nodup_cons.mpr ⟨fun hmem => ?_, hrequestIds⟩
    obtain ⟨g', hg', heq⟩ := Multiset.mem_map.mp hmem
    exact hrequest g' hg' heq
  · intro requestId
    rw [Multiset.count_cons, ← hcount requestId]
    exact Nat.add_right_comm _ _ _
  · exact fun seqId hseqId => Multiset.mem_cons_of_mem (htables seqId hseqId)
  · exact fun requestId hid => Multiset.mem_cons_of_mem (hnamespaces requestId hid)
  · exact fun requestId hentry => Multiset.mem_cons_of_mem (hentries requestId hentry)
  · intro g' hg'
    cases Multiset.mem_cons.mp hg' with
    | inl hnew =>
      rw [hnew]
      unfold SequenceGroup.isFinished
      rw [hwaiting]
      exact Bool.false_ne_true
    | inr hold => exact hunfinished g' hold
  · intro g' hg'
    cases Multiset.mem_cons.mp hg' with
    | inl hnew => exact hnew ▸ List.mem_append_right _ (List.mem_singleton_self _)
    | inr hold => exact List.mem_append_left _ (hadded g' hold)

omit [DecidableEq δ] in
/-- The finished ids are handed over. -/
theorem Accounted.handOver (h : Accounted ledger ps qs s) :
    Accounted ⟨fun requestId => ((ps + qs).map (·.requestId)).count requestId, ledger.added⟩ ps qs
      s.getAndResetFinishedRequestsIds.2 :=
  ⟨h.seqIds_nodup, h.requestIds_nodup, fun _ => rfl, h.tables, h.namespaces, h.entries,
    h.unfinished, h.added⟩

end Scheduler

/-! ## What is kept for an id -/

namespace Scheduler

/-- The scheduler without anything that it keeps for the id. -/
def forget (s : Scheduler ρ δ A T) (requestId : ρ) : Scheduler ρ δ A T :=
  { s with
    blockManager := s.blockManager.releaseRequestCacheNamespace requestId
    waiting := s.waiting.filter (·.requestId ≠ requestId)
    running := s.running.filter (·.requestId ≠ requestId)
    swapped := s.swapped.filter (·.requestId ≠ requestId)
    finishedRequestsIds := s.finishedRequestsIds.filter (· ≠ requestId)
    gdnRequestRestoreKeys := s.gdnRequestRestoreKeys.erase requestId
    gdnRequestCaptureTargets := s.gdnRequestCaptureTargets.erase requestId
    asyncStopped := s.asyncStopped.filter (·.requestId ≠ requestId) }

omit [DecidableEq δ] in
/-- The groups of a queue without the id. -/
theorem filter_requestId_ne {queue : List (SequenceGroup ρ δ)} {requestId : ρ}
    (h : ∀ g ∈ queue, g.requestId ≠ requestId) :
    queue.filter (·.requestId ≠ requestId) = queue :=
  List.filter_eq_self.mpr fun g hg => decide_eq_true (h g hg)

omit [DecidableEq δ] in
/-- A scheduler that keeps nothing for the id. -/
theorem forget_eq_self {s : Scheduler ρ δ A T} {requestId : ρ}
    (hgroups : ∀ g ∈ s.liveGroups, g.requestId ≠ requestId)
    (hreported : requestId ∉ s.finishedRequestsIds) (hentry : ¬ s.HasEntry requestId)
    (hnamespace : ¬ s.blockManager.HasNamespace requestId) : s.forget requestId = s := by
  simp only [liveGroups, List.mem_append] at hgroups
  have hwarned : ∀ id ∈ s.blockManager.warnedMmNamespaceRequests, id ≠ requestId :=
    fun id hid heq => hnamespace (.inr (heq ▸ hid))
  have hids : ∀ id ∈ s.finishedRequestsIds, id ≠ requestId := fun id hid heq => hreported (heq ▸ hid)
  have hmanager : s.blockManager.releaseRequestCacheNamespace requestId = s.blockManager := by
    unfold BlockSpaceManager.releaseRequestCacheNamespace
    rw [Dict.erase_eq_self fun h => hnamespace (.inl h),
      List.filter_eq_self.mpr fun id hid => decide_eq_true (hwarned id hid)]
  unfold forget
  rw [hmanager, filter_requestId_ne fun g hg => hgroups g (.inl (.inl (.inl hg))),
    filter_requestId_ne fun g hg => hgroups g (.inl (.inl (.inr hg))),
    filter_requestId_ne fun g hg => hgroups g (.inl (.inr hg)),
    filter_requestId_ne fun g hg => hgroups g (.inr hg),
    List.filter_eq_self.mpr fun id hid => decide_eq_true (hids id hid),
    Dict.erase_eq_self fun h => hentry (.inl h), Dict.erase_eq_self fun h => hentry (.inr h)]

end Scheduler

/-! ## Runs -/

namespace Engine

variable {cfg : SchedulerConfig A T δ} {worker : Worker ρ δ W} {start : W}
variable {e e' : Engine ρ δ A T W}

/-- The events that leave nothing behind: no aborted request has entries, a step ignores no group
and finishes every group that it stops for its length, and an id is not reused before it has been
handed over. -/
def Orderly (cfg : SchedulerConfig A T δ) (e : Engine ρ δ A T W) : Event ρ δ → Prop
  | .addRequest g => g.requestId ∉ e.scheduler.finishedRequestsIds
  | .abortRequest requestIds parent => ∀ g ∈ e.scheduler.liveGroups,
      Scheduler.Aborts requestIds parent g → ¬ e.scheduler.HasEntry g.requestId
  | .step env verdicts _ => Scheduler.Feasible cfg env (Scheduler.begun cfg e.scheduler) ∧
      ∀ g, Scheduler.StoppedIn cfg env (Scheduler.begun cfg e.scheduler) g →
        (verdicts g.requestId).isSome
  | .processOutputs _ => True

/-- The accounts of the engine are in order, and no group is stopped for its length. -/
structure InOrder (e : Engine ρ δ A T W) : Prop where
  accounted : ∃ total, Scheduler.Accounted ⟨total, e.added⟩ e.scheduler.queued 0 e.scheduler ∧
    ∀ requestId, total requestId + e.reported.count requestId
      = (e.added.map (·.1)).count requestId
  stopped : e.scheduler.asyncStopped = []

omit [DecidableEq ρ] [DecidableEq δ] in
/-- The groups that the scheduler holds, when none is stopped. -/
theorem coe_liveGroups {s : Scheduler ρ δ A T} (hstopped : s.asyncStopped = []) :
    Multiset.ofList s.liveGroups = s.queued := by
  unfold Scheduler.liveGroups Scheduler.queued
  rw [hstopped, List.append_nil]
  simp only [← Multiset.coe_add]

/-- A step keeps the accounts in order. -/
theorem InOrder.stepped {env : Environment ρ δ} {verdicts : ρ → Option FinishReason}
    {sampled : ρ → ℕ} (h : e.InOrder) (hallowed : e.Orderly cfg (.step env verdicts sampled))
    (hstep : e.Stepped cfg worker env verdicts sampled e') : e'.InOrder := by
  obtain ⟨⟨total, hacc, hcount⟩, hstopped⟩ := h
  obtain ⟨hfeasible, hverdicts⟩ := hallowed
  obtain ⟨metadata, outputs, scheduled, processed, hschedule, -, hprocessed, hadvanced, hadded,
    hreported⟩ := hstep
  have hnone : (e.scheduler.asyncStopped : Multiset (SequenceGroup ρ δ)) = 0 :=
    congrArg Multiset.ofList hstopped
  have hqueued := Scheduler.schedule_ok (hacc.of_eq rfl hnone.symm) hfeasible hschedule
  have hstoppedVerdicts : ∀ g ∈ scheduled.asyncStopped, (verdicts g.requestId).isSome := by
    intro g hg
    cases hqueued.stopped g hg with
    | inl hold => exact absurd (hstopped ▸ hold) List.not_mem_nil
    | inr hnew => exact hverdicts g hnew
  obtain ⟨hacc', hstopped'⟩ := Scheduler.processModelOutputs_ok
    (s := scheduled.getAndResetFinishedRequestsIds.2) hqueued.accounted.handOver hstoppedVerdicts
    hprocessed
  obtain ⟨hacc'', hstopped''⟩ := Scheduler.advance_ok hacc' hadvanced
  refine ⟨⟨_, hadded ▸ hacc'', fun requestId => ?_⟩, hstopped''.trans hstopped'⟩
  have hheld := hqueued.accounted.count requestId
  dsimp only at hheld ⊢
  rw [hadded, hreported, List.count_append, ← hcount requestId, ← hheld]
  omega

/-- Every orderly event keeps the accounts in order. -/
theorem InOrder.next {event : Event ρ δ} (h : e.InOrder) (hallowed : e.Orderly cfg event)
    (hstep : e.Next cfg worker event e') : e'.InOrder := by
  cases hstep with
  | addRequest hnew =>
    rename_i g
    obtain ⟨⟨total, hacc, hcount⟩, hstopped⟩ := h
    have hlive : ∀ g' ∈ e.scheduler.queued, g'.requestId ≠ g.requestId := by
      intro g' hg'
      rw [← coe_liveGroups hstopped] at hg'
      exact hnew.requestId_new g' (Multiset.mem_coe.mp hg')
    refine ⟨⟨_, hacc.add hnew.status_eq hnew.seqId_new hlive, fun requestId => ?_⟩, hstopped⟩
    have hone : [g.requestId].count requestId = if requestId = g.requestId then 1 else 0 := by
      rw [List.count_singleton]
      exact if_congr (beq_iff_eq.trans eq_comm) rfl rfl
    dsimp only
    rw [List.map_append, List.count_append, ← hcount requestId, List.map_singleton, hone]
    exact Nat.add_right_comm _ _ _
  | abortRequest hok =>
    obtain ⟨⟨total, hacc, hcount⟩, hstopped⟩ := h
    have hnone : (e.scheduler.asyncStopped : Multiset (SequenceGroup ρ δ)) = 0 :=
      congrArg Multiset.ofList hstopped
    obtain ⟨hacc', hstopped'⟩ := Scheduler.abortSeqGroup_ok (hacc.of_eq rfl hnone.symm) hallowed hok
    exact ⟨⟨total, hacc'.of_eq rfl (congrArg Multiset.ofList (hstopped'.trans hstopped)), hcount⟩,
      hstopped'.trans hstopped⟩
  | step hstepped => exact h.stepped hallowed hstepped
  | processOutputs hok =>
    obtain ⟨⟨total, hacc, hcount⟩, hstopped⟩ := h
    have hnone : (e.scheduler.asyncStopped : Multiset (SequenceGroup ρ δ)) = 0 :=
      congrArg Multiset.ofList hstopped
    obtain ⟨hacc', hstopped'⟩ := Scheduler.processModelOutputs_ok (hacc.of_eq rfl hnone.symm)
      (fun g hg => absurd (hstopped ▸ hg) List.not_mem_nil) hok
    exact ⟨⟨total, hacc', hcount⟩, hstopped'⟩

/-- The accounts of the engine are in order in every run of orderly events. -/
theorem inOrder (h : Run cfg worker (Orderly cfg) start e) : e.InOrder := by
  refine Run.induct (fun blockManager policy htables hnamespaces hwarned => ?_)
    (fun e e' event h hallowed hstep => h.next hallowed hstep) h
  refine ⟨⟨fun _ => 0, ⟨Multiset.nodup_zero, Multiset.nodup_zero, fun _ => rfl, ?_, ?_, ?_,
    fun g hg => absurd hg (Multiset.notMem_zero g), fun g hg => absurd hg (Multiset.notMem_zero g)⟩,
    fun _ => rfl⟩, rfl⟩
  · intro seqId hseqId
    have hmem : seqId ∈ blockManager.blockTables.keys := hseqId
    rw [htables] at hmem
    exact absurd hmem List.not_mem_nil
  · intro requestId hid
    cases hid with
    | inl hkey =>
      have hmem : requestId ∈ blockManager.requestLocalNamespace.keys := hkey
      rw [hnamespaces] at hmem
      exact absurd hmem List.not_mem_nil
    | inr hwarning =>
      have hmem : requestId ∈ blockManager.warnedMmNamespaceRequests := hwarning
      rw [hwarned] at hmem
      exact absurd hmem List.not_mem_nil
  · intro requestId hentry
    cases hentry with
    | inl hkey => exact absurd hkey List.not_mem_nil
    | inr htarget => exact absurd htarget List.not_mem_nil

/-- Nothing is left of the requests that have left the scheduler, and each has been reported as
often as it was added. -/
structure NoResidue (cfg : SchedulerConfig A T δ) (e : Engine ρ δ A T W) : Prop where
  tables : ∀ p ∈ e.added, (∀ g ∈ e.scheduler.liveGroups, g.seqId ≠ p.2) →
    ¬ e.scheduler.blockManager.HasTable p.2
  namespaces : ∀ p ∈ e.added, (∀ g ∈ e.scheduler.liveGroups, g.requestId ≠ p.1) →
    ¬ e.scheduler.blockManager.HasNamespace p.1
  entries : ∀ p ∈ e.added, (∀ g ∈ e.scheduler.liveGroups, g.requestId ≠ p.1) →
    ¬ e.scheduler.HasEntry p.1
  reported : ∀ requestId, (e.reported ++ e.scheduler.finishedRequestsIds).count requestId +
    (e.scheduler.liveGroups.map (·.requestId)).count requestId
      = (e.added.map (·.1)).count requestId
  reused : ∀ g, e.NewRequest g → e.Orderly cfg (.addRequest g) →
    e.scheduler.forget g.requestId = e.scheduler

/-- In a run of orderly events nothing is left of a request. -/
theorem noResidue_of_orderly (h : Run cfg worker (Orderly cfg) start e) : e.NoResidue cfg := by
  obtain ⟨⟨total, hacc, hcount⟩, hstopped⟩ := inOrder h
  have hlive := coe_liveGroups hstopped
  have hrequest : ∀ requestId, (∀ g ∈ e.scheduler.liveGroups, g.requestId ≠ requestId) →
      requestId ∉ (e.scheduler.queued).map (·.requestId) := by
    intro requestId hnone hmem
    rw [← hlive] at hmem
    obtain ⟨g, hg, heq⟩ := Multiset.mem_map.mp hmem
    exact hnone g (Multiset.mem_coe.mp hg) heq
  have hentries : ∀ requestId, (∀ g ∈ e.scheduler.liveGroups, g.requestId ≠ requestId) →
      ¬ e.scheduler.HasEntry requestId := fun requestId hnone hentry =>
    hrequest requestId hnone (hacc.entries requestId hentry)
  have hnamespaces : ∀ requestId, (∀ g ∈ e.scheduler.liveGroups, g.requestId ≠ requestId) →
      ¬ e.scheduler.blockManager.HasNamespace requestId := by
    intro requestId hnone hid
    have hmem := hacc.namespaces requestId hid
    rw [add_zero] at hmem
    exact hrequest requestId hnone hmem
  refine ⟨fun p _ hnone htable => ?_, fun p _ => hnamespaces p.1, fun p _ => hentries p.1,
    fun requestId => ?_, fun g hnew hallowed => ?_⟩
  · have hmem := hacc.tables p.2 htable
    rw [add_zero, ← hlive] at hmem
    obtain ⟨g, hg, heq⟩ := Multiset.mem_map.mp hmem
    exact hnone g (Multiset.mem_coe.mp hg) heq
  · have hheld := hacc.count requestId
    rw [add_zero, ← hlive, Multiset.map_coe, Multiset.coe_count] at hheld
    dsimp only at hheld
    rw [List.count_append, ← hcount requestId, ← hheld]
    omega
  · exact Scheduler.forget_eq_self hnew.requestId_new hallowed
      (hentries _ hnew.requestId_new) (hnamespaces _ hnew.requestId_new)

/-! ## An aborted request that keeps its entries -/

/-- Block tables that are the tokens of their sequences, in blocks of four, and an allocator that
always has room. -/
def plainTables : BlockTableOps Unit (List ℕ) ℕ where
  hashNamespace identity := identity.adapter
  allocateSequence _ tokenIds _ := .ok (tokenIds, ())
  appendTokenIds _ _ tokenIds _ _ := .ok ([], tokenIds, ())
  numBlocksTouchedByAppendSlots _ _ _ := 1
  numFullBlocksTouched _ table _ := table.length / 4
  swap _ table _ _ := .ok ([], table, ())
  free _ _ := .ok ()
  numFreeBlocks _ _ := 64
  numTotalBlocks _ _ := 64
  physicalBlockIds table := List.range ((table.length + 3) / 4)
  computedBlockIds _ table := .ok ([], table)
  contentHashes table := List.range (table.length / 4)
  updateLastAccess table _ := table
  markBlocksAsComputed _ := ()
  beginPrefixCacheStep _ := ()
  getAndResetPrefixSwaps _ := (([], []), ())
  contentOffloadEnabled := false

/-- Chunks of eight tokens, with prefix caching. -/
def plainConfig : SchedulerConfig Unit (List ℕ) ℕ where
  tables := plainTables
  blockSize := 4
  maxNumBatchedTokens := 8
  maxNumSeqs := 2
  maxModelLen := 100
  numLookaheadSlots := 0
  chunkedPrefillEnabled := true
  enablePrefixCaching := true
  priorityPolicy := false
  useAsyncOutputProc := false
  userSpecifiedPreemptionMode := none
  gdnRestoreMode := .hybrid64
  gdnReplayAlignment := 64

/-- A step in which nothing comes from outside. -/
def plainEnvironment : Environment ℕ ℕ where
  now := 0
  passedDelay _ := true
  freshNamespace _ := 0
  pendingOutput _ := none

/-- A prompt of twenty tokens. -/
def plainRequest : SequenceGroup ℕ ℕ :=
  { requestId := 0, seqId := 0, tokenIds := List.range 20, adapterCacheNamespace := 0 }

/-- The scheduler at the start. -/
def plainScheduler : Scheduler ℕ ℕ Unit (List ℕ) :=
  .init { blockSize := 4, numTotalGpuBlocks := 64, watermarkBlocks := 0, blockAllocator := () }
    .admission64

/-- A step of the engine as a function, for a step without verdicts. -/
def plainStep (s : Scheduler ℕ ℕ Unit (List ℕ)) :
    Except Exn (List ℕ × Scheduler ℕ ℕ Unit (List ℕ)) := do
  let scheduled ← s.schedule plainConfig plainEnvironment
  let processed ← scheduled.2.2.getAndResetFinishedRequestsIds.2.processModelOutputs plainConfig
    fun _ => none
  let advanced ← processed.advance scheduled.2.1.scheduledSeqGroups fun _ => 0
  return (scheduled.2.2.finishedRequestsIds, advanced)

/-- The function takes a step. -/
theorem stepped_of_plainStep {e : Engine ℕ ℕ Unit (List ℕ) Unit} {finished : List ℕ}
    {s : Scheduler ℕ ℕ Unit (List ℕ)} (h : plainStep e.scheduler = .ok (finished, s)) :
    e.Stepped plainConfig (fun _ _ _ _ => True) plainEnvironment (fun _ => none) (fun _ => 0)
      { e with scheduler := s, reported := e.reported ++ finished } := by
  obtain ⟨⟨metadata, outputs, scheduled⟩, hscheduled, h⟩ := bind_eq_ok.mp h
  obtain ⟨processed, hprocessed, h⟩ := bind_eq_ok.mp h
  obtain ⟨advanced, hadvanced, h⟩ := bind_eq_ok.mp h
  obtain ⟨rfl, rfl⟩ := Prod.mk.inj (Except.ok.inj h)
  refine ⟨metadata, outputs, scheduled, processed, hscheduled, ?_, hprocessed, hadvanced, rfl, rfl⟩
  split
  · rfl
  · trivial

/-- The engine after a request was added. -/
def plainEngine (g : SequenceGroup ℕ ℕ) : Engine ℕ ℕ Unit (List ℕ) Unit :=
  { scheduler := plainScheduler.addSeqGroup g, worker := (), added := [(g.requestId, g.seqId)] }

/-- A request may be added at the start. -/
theorem run_plainEngine {Allowed : Engine ℕ ℕ Unit (List ℕ) Unit → Event ℕ ℕ → Prop}
    {g : SequenceGroup ℕ ℕ} (hstatus : g.status = .waiting) (hstage : g.stage = .prefill)
    (hcomputed : g.numComputedTokens = 0)
    (hallowed : Allowed { scheduler := plainScheduler, worker := () } (.addRequest g)) :
    Run plainConfig (fun _ _ _ _ => True) Allowed () (plainEngine g) :=
  .next (.init rfl rfl rfl) hallowed (.addRequest ⟨hstatus, hstage, hcomputed,
    fun _ hp => absurd hp List.not_mem_nil, fun _ hg => absurd hg List.not_mem_nil⟩)

/-- The request is added, its only chunk is executed and its output finishes it. -/
def finishedAfterChunk : Except Exn ((List ℕ × Scheduler ℕ ℕ Unit (List ℕ)) ×
    Scheduler ℕ ℕ Unit (List ℕ)) := do
  let stepped ← plainStep (plainEngine { plainRequest with tokenIds := List.range 6 }).scheduler
  let processed ← stepped.2.processModelOutputs plainConfig fun _ => some .stopped
  return (stepped, processed)

/-- The only group of the waiting queue is not too large. -/
theorem feasible_plainEngine : Scheduler.Feasible plainConfig plainEnvironment
    (Scheduler.begun plainConfig
      (plainEngine { plainRequest with tokenIds := List.range 6 }).scheduler) := by
  refine ⟨fun start hstart n g queue round tokens hreached hturn hlarge => ?_,
    fun start hstart g queue round hreached => ?_, fun start _ round g hstops => ?_⟩
  · cases hstart with
    | chunkedPrefill hrunning hswapped =>
      obtain rfl := Except.ok.inj hrunning
      obtain rfl := Except.ok.inj hswapped
      have hdrop := hreached.drop_eq
      cases n with
      | succ n => exact absurd (hdrop.symm.trans List.drop_nil) (List.cons_ne_nil _ _)
      | zero =>
        obtain ⟨rfl, rfl⟩ := List.cons.inj hdrop
        cases hreached
        obtain rfl := Except.ok.inj hturn.numNewTokens_ok
        revert hlarge
        unfold Scheduler.TooLarge
        decide +kernel
  · cases hstart with
    | behindRunning hstart hrunning hnone =>
      cases hstart
      obtain rfl := Except.ok.inj hrunning
      exact absurd (List.suffix_nil.mp hreached.suffix) (List.cons_ne_nil _ _)
  · exact absurd hstops.long.1 Bool.false_ne_true

/-- A finished request leaves nothing behind. -/
theorem noResidue_of_orderly_finished : ∃ e : Engine ℕ ℕ Unit (List ℕ) Unit,
    Run plainConfig (fun _ _ _ _ => True) (Orderly plainConfig) () e ∧ e.added = [(0, 0)] ∧
      e.scheduler.liveGroups = [] ∧ e.NoResidue plainConfig := by
  have hresult : finishedAfterChunk.map (fun r => r.2.liveGroups) = .ok [] := by decide +kernel
  obtain ⟨⟨⟨finished, stepped⟩, processed⟩, hrun, hlive⟩ := exists_of_map_eq_ok hresult
  obtain ⟨⟨finished', stepped'⟩, hstepped, hrun⟩ := bind_eq_ok.mp hrun
  obtain ⟨processed', hprocessed, hrun⟩ := bind_eq_ok.mp hrun
  obtain ⟨hsame, rfl⟩ := Prod.mk.inj (Except.ok.inj hrun)
  have hrun₁ : Run plainConfig (fun _ _ _ _ => True) (Orderly plainConfig) ()
      (plainEngine { plainRequest with tokenIds := List.range 6 }) :=
    run_plainEngine rfl rfl rfl List.not_mem_nil
  have hallowed : Orderly plainConfig (plainEngine { plainRequest with tokenIds := List.range 6 })
      (.step plainEnvironment (fun _ => none) fun _ => 0) :=
    ⟨feasible_plainEngine, fun g hg => by
      obtain ⟨_, _, _, hstops⟩ := hg
      exact absurd hstops.long.1 Bool.false_ne_true⟩
  have hrun₂ := Run.next hrun₁ hallowed (.step (stepped_of_plainStep hstepped))
  have hrun₃ := hrun₂.next (show Orderly plainConfig _ (.processOutputs fun _ => some .stopped)
    from trivial) (.processOutputs hprocessed)
  exact ⟨_, hrun₃, rfl, hlive, noResidue_of_orderly hrun₃⟩

/-- The request is added, its first chunk is executed and it is aborted. -/
def abortedAfterChunk : Except Exn ((List ℕ × Scheduler ℕ ℕ Unit (List ℕ)) ×
    Scheduler ℕ ℕ Unit (List ℕ)) := do
  let stepped ← plainStep (plainEngine plainRequest).scheduler
  let aborted ← stepped.2.abortSeqGroup plainConfig [0] some
  return (stepped, aborted)

/-- An aborted request may keep its entries. -/
theorem abort_keeps_entries : ¬ ∀ e : Engine ℕ ℕ Unit (List ℕ) Unit,
    Run plainConfig (fun _ _ _ _ => True) (fun _ _ => True) () e → e.NoResidue plainConfig := by
  intro hclaim
  have hresult : abortedAfterChunk.map
      (fun r => (r.2.liveGroups, r.2.gdnRequestCaptureTargets.keys)) = .ok ([], [0]) := by
    decide +kernel
  obtain ⟨⟨⟨finished, stepped⟩, aborted⟩, hrun, hkeys⟩ := exists_of_map_eq_ok hresult
  obtain ⟨hlive, hkeys⟩ := Prod.mk.inj hkeys
  obtain ⟨⟨finished', stepped'⟩, hstepped, hrun⟩ := bind_eq_ok.mp hrun
  obtain ⟨aborted', haborted, hrun⟩ := bind_eq_ok.mp hrun
  obtain ⟨hsame, rfl⟩ := Prod.mk.inj (Except.ok.inj hrun)
  have hrun₁ : Run plainConfig (fun _ _ _ _ => True) (fun _ _ => True) () (plainEngine plainRequest) :=
    run_plainEngine rfl rfl rfl trivial
  have hrun₂ := Run.next hrun₁ trivial (.step (stepped_of_plainStep hstepped))
  have hrun₃ := Run.next hrun₂ trivial (.abortRequest haborted)
  refine (hclaim _ hrun₃).entries (0, 0) (List.mem_singleton_self _) (fun g hg => ?_) (.inr ?_)
  · exact absurd (hlive ▸ hg) List.not_mem_nil
  · exact hkeys ▸ List.mem_singleton_self 0

end Engine

end Ikun.Scheduling
