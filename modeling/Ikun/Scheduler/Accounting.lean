import Mathlib.Algebra.Order.Group.Multiset
import Mathlib.Tactic.Abel
import Ikun.Scheduler.Engine
import Ikun.Scheduler.Rounds

/-!
# What the scheduler keeps for a request

A scheduler keeps a block table for a sequence, a namespace and two entries for a request.
`Accounted` says that it keeps them for the groups it holds only, and that every other request has
been reported as finished, as often as it was added. In which of the queues a group is does not
matter here, so the groups are a multiset.

Every operation of the block manager is a `Grows` step for one group, and a group that leaves is a
`Left` step.
-/

namespace Ikun.Scheduling

open Except

variable {ρ δ A T : Type}

/-! ## The block manager -/

namespace BlockSpaceManager

variable {m m' m'' : BlockSpaceManager ρ δ A T} {ops : BlockTableOps A T δ} {g : SequenceGroup ρ δ}

/-- The sequence has a block table. -/
def HasTable (m : BlockSpaceManager ρ δ A T) (seqId : ℕ) : Prop := seqId ∈ m.blockTables.keys

/-- The request has a namespace, or has been warned of. -/
def HasNamespace (m : BlockSpaceManager ρ δ A T) (requestId : ρ) : Prop :=
  requestId ∈ m.requestLocalNamespace.keys ∨ requestId ∈ m.warnedMmNamespaceRequests

/-- Only the group has got something new. -/
structure Grows (g : SequenceGroup ρ δ) (m m' : BlockSpaceManager ρ δ A T) : Prop where
  tables : ∀ seqId, m'.HasTable seqId → seqId = g.seqId ∨ m.HasTable seqId
  namespaces : ∀ requestId, m'.HasNamespace requestId →
    requestId = g.requestId ∨ m.HasNamespace requestId

theorem Grows.refl (g : SequenceGroup ρ δ) (m : BlockSpaceManager ρ δ A T) : Grows g m m :=
  ⟨fun _ => .inr, fun _ => .inr⟩

theorem Grows.trans (h : Grows g m m') (h' : Grows g m' m'') : Grows g m m'' where
  tables seqId hseqId := (h'.tables seqId hseqId).elim .inl (h.tables seqId)
  namespaces requestId hid := (h'.namespaces requestId hid).elim .inl (h.namespaces requestId)

theorem grows_withTable (table : T) (allocator : A) : Grows g m (m.withTable g table allocator) where
  tables _ h := Dict.mem_keys_set.mp h
  namespaces _ := .inr

theorem grows_appendSlots {slots : ℕ} {cows : List (ℕ × ℕ)}
    (h : m.appendSlots ops g slots = .ok (cows, m')) : Grows g m m' := by
  obtain ⟨table, -, h⟩ := bind_eq_ok.mp h
  obtain ⟨appended, -, h⟩ := bind_eq_ok.mp h
  obtain ⟨-, rfl⟩ := Prod.mk.inj (Except.ok.inj h)
  exact grows_withTable _ _

theorem grows_swap {source target : Device} {status : SequenceStatus} {mapping : List (ℕ × ℕ)}
    (h : m.swap ops g source target status = .ok (mapping, m')) : Grows g m m' := by
  unfold swap at h
  split at h
  · obtain ⟨table, -, h⟩ := bind_eq_ok.mp h
    obtain ⟨swapped, -, h⟩ := bind_eq_ok.mp h
    obtain ⟨-, rfl⟩ := Prod.mk.inj (Except.ok.inj h)
    exact grows_withTable _ _
  · obtain ⟨-, rfl⟩ := Prod.mk.inj (Except.ok.inj h)
    exact .refl g m

theorem grows_getCommonComputedBlockIds {blocks : List ℕ}
    (h : m.getCommonComputedBlockIds ops g = .ok (blocks, m')) : Grows g m m' := by
  obtain ⟨table, -, h⟩ := bind_eq_ok.mp h
  obtain ⟨computed, -, h⟩ := bind_eq_ok.mp h
  obtain ⟨-, rfl⟩ := Prod.mk.inj (Except.ok.inj h)
  exact grows_withTable _ _

theorem grows_accessAllBlocksInSeq {now : ℕ} (h : m.accessAllBlocksInSeq ops g now = .ok m') :
    Grows g m m' := by
  obtain ⟨table, -, h⟩ := bind_eq_ok.mp h
  obtain rfl := Except.ok.inj h
  exact grows_withTable _ _

/-- The block table of the sequence is gone. -/
structure Freed (g : SequenceGroup ρ δ) (m m' : BlockSpaceManager ρ δ A T) : Prop where
  tables : ∀ seqId, m'.HasTable seqId → seqId ≠ g.seqId ∧ m.HasTable seqId
  namespaces : ∀ requestId, m'.HasNamespace requestId → m.HasNamespace requestId

/-- `free` removes the block table of the sequence. -/
theorem free_ok (h : m.free ops g = .ok m') : Freed g m m' := by
  unfold free at h
  split at h
  · next hnone =>
    obtain rfl := Except.ok.inj h
    refine ⟨fun seqId hseqId => ⟨?_, hseqId⟩, fun _ => id⟩
    intro heq
    exact Dict.get?_eq_none_iff.mp hnone (heq ▸ hseqId)
  · obtain ⟨allocator, -, h⟩ := bind_eq_ok.mp h
    obtain rfl := Except.ok.inj h
    exact ⟨fun seqId hseqId => Dict.mem_keys_erase.mp hseqId, fun _ => id⟩

section operations

variable [DecidableEq ρ]

theorem grows_fallback (fresh : δ) :
    Grows g m (m.requestLocalFallbackCacheNamespace g.requestId fresh).2 := by
  unfold requestLocalFallbackCacheNamespace
  cases m.requestLocalNamespace.get? g.requestId with
  | some cacheNamespace => exact .refl g m
  | none =>
    refine ⟨fun _ => .inr, fun requestId h => ?_⟩
    rcases h with h | h
    · exact (Dict.mem_keys_set.mp h).imp_right .inl
    · exact .inr (.inr h)

theorem grows_getCacheNamespace (fresh : δ) : Grows g m (m.getCacheNamespace ops g fresh).2 := by
  unfold getCacheNamespace
  cases g.multiModalData with
  | none => exact .refl g m
  | hashed digest => exact .refl g m
  | unsupported =>
    dsimp only
    refine Grows.trans ?_ (grows_fallback fresh)
    split
    · exact .refl g m
    · refine ⟨fun _ => .inr, fun requestId h => ?_⟩
      rcases h with h | h
      · exact .inr (.inl h)
      · exact (List.mem_cons.mp h).imp_right .inr

theorem grows_allocate {fresh : δ} (h : m.allocate ops g fresh = .ok m') : Grows g m m' := by
  obtain ⟨-, -, h⟩ := bind_eq_ok.mp h
  obtain ⟨-, -, h⟩ := bind_eq_ok.mp h
  obtain ⟨allocated, -, h⟩ := bind_eq_ok.mp h
  obtain rfl := Except.ok.inj h
  exact (grows_getCacheNamespace fresh).trans (grows_withTable _ _)

/-- `release_request_cache_namespace` removes the namespace of the request. -/
theorem hasNamespace_release {requestId requestId' : ρ}
    (h : (m.releaseRequestCacheNamespace requestId).HasNamespace requestId') :
    requestId' ≠ requestId ∧ m.HasNamespace requestId' := by
  rcases h with h | h
  · exact (Dict.mem_keys_erase.mp h).imp_right .inl
  · obtain ⟨hmem, hne⟩ := List.mem_filter.mp h
    exact ⟨of_decide_eq_true hne, .inr hmem⟩

end operations

end BlockSpaceManager

/-! ## The scheduler -/

/-- How often a request has been added that is not yet handed over as finished, and the sequences
that have been added. -/
structure Ledger (ρ : Type) where
  total : ρ → ℕ
  added : List (ρ × ℕ)

namespace Scheduler

variable {s s' s'' : Scheduler ρ δ A T}
variable {g g' : SequenceGroup ρ δ} {ledger : Ledger ρ} {ps qs : Multiset (SequenceGroup ρ δ)}

/-- The request has a restore key or capture targets. -/
def HasEntry (s : Scheduler ρ δ A T) (requestId : ρ) : Prop :=
  requestId ∈ s.gdnRequestRestoreKeys.keys ∨ requestId ∈ s.gdnRequestCaptureTargets.keys

/-- The queues are the same. -/
structure SameQueues (s s' : Scheduler ρ δ A T) : Prop where
  waiting : s'.waiting = s.waiting
  running : s'.running = s.running
  swapped : s'.swapped = s.swapped
  asyncStopped : s'.asyncStopped = s.asyncStopped

theorem SameQueues.refl (s : Scheduler ρ δ A T) : SameQueues s s := ⟨rfl, rfl, rfl, rfl⟩

theorem SameQueues.trans (h : SameQueues s s') (h' : SameQueues s' s'') : SameQueues s s'' :=
  ⟨h'.waiting.trans h.waiting, h'.running.trans h.running, h'.swapped.trans h.swapped,
    h'.asyncStopped.trans h.asyncStopped⟩

/-- The scheduler holds the groups `ps`, which may have entries, and `qs`, which have none. -/
structure Accounted [DecidableEq ρ] (ledger : Ledger ρ) (ps qs : Multiset (SequenceGroup ρ δ))
    (s : Scheduler ρ δ A T) : Prop where
  seqIds_nodup : ((ps + qs).map (·.seqId)).Nodup
  requestIds_nodup : ((ps + qs).map (·.requestId)).Nodup
  count : ∀ requestId,
    ((ps + qs).map (·.requestId)).count requestId + s.finishedRequestsIds.count requestId
      = ledger.total requestId
  tables : ∀ seqId, s.blockManager.HasTable seqId → seqId ∈ (ps + qs).map (·.seqId)
  namespaces : ∀ requestId, s.blockManager.HasNamespace requestId →
    requestId ∈ (ps + qs).map (·.requestId)
  entries : ∀ requestId, s.HasEntry requestId → requestId ∈ ps.map (·.requestId)
  unfinished : ∀ g ∈ ps + qs, ¬ g.isFinished
  added : ∀ g ∈ ps + qs, (g.requestId, g.seqId) ∈ ledger.added

section accounted

variable [DecidableEq ρ]

namespace Accounted

/-- The same accounts for the same groups. -/
theorem of_eq (h : Accounted ledger ps qs s) {ps' qs' : Multiset (SequenceGroup ρ δ)}
    (hps : ps = ps') (hqs : qs = qs') : Accounted ledger ps' qs' s := hps ▸ hqs ▸ h

/-- The queues do not matter. -/
theorem of_fields (h : Accounted ledger ps qs s) (hblock : s'.blockManager = s.blockManager)
    (hfinished : s'.finishedRequestsIds = s.finishedRequestsIds)
    (hentries : ∀ requestId, s'.HasEntry requestId → s.HasEntry requestId) :
    Accounted ledger ps qs s' where
  seqIds_nodup := h.seqIds_nodup
  requestIds_nodup := h.requestIds_nodup
  count := hfinished ▸ h.count
  tables := hblock ▸ h.tables
  namespaces := hblock ▸ h.namespaces
  entries requestId hentry := h.entries requestId (hentries requestId hentry)
  unfinished := h.unfinished
  added := h.added

/-- A group that may have entries gets some. -/
theorem of_entry (h : Accounted ledger ({g} + ps) qs s) (hblock : s'.blockManager = s.blockManager)
    (hfinished : s'.finishedRequestsIds = s.finishedRequestsIds)
    (hentries : ∀ requestId, s'.HasEntry requestId →
      requestId = g.requestId ∨ s.HasEntry requestId) :
    Accounted ledger ({g} + ps) qs s' where
  seqIds_nodup := h.seqIds_nodup
  requestIds_nodup := h.requestIds_nodup
  count := hfinished ▸ h.count
  tables := hblock ▸ h.tables
  namespaces := hblock ▸ h.namespaces
  entries requestId hentry := by
    cases hentries requestId hentry with
    | inl heq =>
      exact Multiset.mem_map.mpr
        ⟨g, Multiset.mem_add.mpr (.inl (Multiset.mem_singleton_self g)), heq.symm⟩
    | inr hold => exact h.entries requestId hold
  unfinished := h.unfinished
  added := h.added

/-- A group that the scheduler holds gets something from the block manager. -/
theorem grow (h : Accounted ledger ps qs s) {m' : BlockSpaceManager ρ δ A T} (hg : g ∈ ps + qs)
    (hgrows : s.blockManager.Grows g m') :
    Accounted ledger ps qs { s with blockManager := m' } where
  seqIds_nodup := h.seqIds_nodup
  requestIds_nodup := h.requestIds_nodup
  count := h.count
  tables seqId hseqId := by
    rcases hgrows.tables seqId hseqId with rfl | hold
    · exact Multiset.mem_map.mpr ⟨g, hg, rfl⟩
    · exact h.tables seqId hold
  namespaces requestId hid := by
    rcases hgrows.namespaces requestId hid with rfl | hold
    · exact Multiset.mem_map.mpr ⟨g, hg, rfl⟩
    · exact h.namespaces requestId hold
  entries := h.entries
  unfinished := h.unfinished
  added := h.added

/-- A group changes, but for its request and its sequence. -/
theorem replace (h : Accounted ledger ({g} + ps) qs s) (hrequest : g'.requestId = g.requestId)
    (hseq : g'.seqId = g.seqId) (hfinished : ¬ g'.isFinished) :
    Accounted ledger ({g'} + ps) qs s := by
  obtain ⟨hseqIds, hrequestIds, hcount, htables, hnamespaces, hentries, hunfinished, hadded⟩ := h
  simp only [Multiset.map_add, Multiset.map_singleton, ← hrequest, ← hseq]
    at hseqIds hrequestIds hcount htables hnamespaces hentries
  have hcases : ∀ g₁ ∈ {g'} + ps + qs, g₁ = g' ∨ g₁ ∈ {g} + ps + qs := by
    intro g₁ hg₁
    rw [add_assoc] at hg₁ ⊢
    cases Multiset.mem_add.mp hg₁ with
    | inl hnew => exact .inl (Multiset.mem_singleton.mp hnew)
    | inr hold => exact .inr (Multiset.mem_add.mpr (.inr hold))
  refine ⟨?_, ?_, ?_, ?_, ?_, ?_, ?_, ?_⟩
  · simpa only [Multiset.map_add, Multiset.map_singleton] using hseqIds
  · simpa only [Multiset.map_add, Multiset.map_singleton] using hrequestIds
  · simpa only [Multiset.map_add, Multiset.map_singleton] using hcount
  · simpa only [Multiset.map_add, Multiset.map_singleton] using htables
  · simpa only [Multiset.map_add, Multiset.map_singleton] using hnamespaces
  · simpa only [Multiset.map_add, Multiset.map_singleton] using hentries
  · intro g₁ hg₁
    cases hcases g₁ hg₁ with
    | inl hnew => exact hnew ▸ hfinished
    | inr hold => exact hunfinished g₁ hold
  · intro g₁ hg₁
    cases hcases g₁ hg₁ with
    | inl hnew =>
      rw [hnew, hrequest, hseq]
      refine hadded g ?_
      rw [add_assoc]
      exact Multiset.mem_add.mpr (.inl (Multiset.mem_singleton_self g))
    | inr hold => exact hadded g₁ hold

/-- A group is stopped for its length. -/
theorem stop (h : Accounted ledger ({g} + ps) qs s) (hentry : ¬ s.HasEntry g.requestId) :
    Accounted ledger ps (qs + {g}) s := by
  have heq : {g} + ps + qs = ps + (qs + {g}) := by abel
  obtain ⟨hseqIds, hrequestIds, hcount, htables, hnamespaces, hentries, hunfinished, hadded⟩ := h
  rw [heq] at hseqIds hrequestIds hcount htables hnamespaces hunfinished hadded
  refine ⟨hseqIds, hrequestIds, hcount, htables, hnamespaces, fun requestId hid => ?_, hunfinished,
    hadded⟩
  obtain ⟨g₁, hg₁, rfl⟩ := Multiset.mem_map.mp (hentries requestId hid)
  cases Multiset.mem_add.mp hg₁ with
  | inl hnew => exact absurd (Multiset.mem_singleton.mp hnew ▸ hid) hentry
  | inr hold => exact Multiset.mem_map.mpr ⟨g₁, hold, rfl⟩

/-- A group that was stopped for its length has no entry. -/
theorem not_hasEntry (h : Accounted ledger ps qs s) (hg : g ∈ qs) : ¬ s.HasEntry g.requestId := by
  intro hentry
  have hnodup := h.requestIds_nodup
  rw [Multiset.map_add, Multiset.nodup_add] at hnodup
  exact Multiset.disjoint_left.mp hnodup.2.2 (h.entries _ hentry) (Multiset.mem_map.mpr ⟨g, hg, rfl⟩)

end Accounted

/-! ## Leaving -/

/-- The group has left: nothing is kept for it, and its request is reported as finished. -/
structure Left (g : SequenceGroup ρ δ) (s s' : Scheduler ρ δ A T) : Prop where
  tables : ∀ seqId, s'.blockManager.HasTable seqId →
    seqId ≠ g.seqId ∧ s.blockManager.HasTable seqId
  namespaces : ∀ requestId, s'.blockManager.HasNamespace requestId →
    requestId ≠ g.requestId ∧ s.blockManager.HasNamespace requestId
  entries : ∀ requestId, s'.HasEntry requestId → requestId ≠ g.requestId ∧ s.HasEntry requestId
  reported : s'.finishedRequestsIds = s.finishedRequestsIds ++ [g.requestId]
  queues : SameQueues s s'

/-- The accounts of the groups that are left. -/
theorem Accounted.leave (h : Accounted ledger ps qs s) (hleft : Left g s s')
    {ps' qs' : Multiset (SequenceGroup ρ δ)} (heq : ps + qs = g ::ₘ (ps' + qs'))
    (hps : ps = ps' ∨ ps = g ::ₘ ps') : Accounted ledger ps' qs' s' := by
  obtain ⟨hseqIds, hrequestIds, hcount, htables, hnamespaces, hentries, hunfinished, hadded⟩ := h
  rw [heq] at hseqIds hrequestIds hcount htables hnamespaces hunfinished hadded
  simp only [Multiset.map_cons] at hseqIds hrequestIds hcount htables hnamespaces
  refine ⟨(Multiset.nodup_cons.mp hseqIds).2, (Multiset.nodup_cons.mp hrequestIds).2, ?_, ?_, ?_, ?_,
    fun g₁ hg₁ => hunfinished g₁ (Multiset.mem_cons_of_mem hg₁),
    fun g₁ hg₁ => hadded g₁ (Multiset.mem_cons_of_mem hg₁)⟩
  · intro requestId
    have hold := hcount requestId
    have hreported : [g.requestId].count requestId = if requestId = g.requestId then 1 else 0 := by
      rw [List.count_singleton]
      exact if_congr (beq_iff_eq.trans eq_comm) rfl rfl
    rw [hleft.reported, List.count_append, ← hold, Multiset.count_cons, hreported]
    omega
  · intro seqId hseqId
    obtain ⟨hne, hold⟩ := hleft.tables seqId hseqId
    exact (Multiset.mem_cons.mp (htables seqId hold)).resolve_left hne
  · intro requestId hid
    obtain ⟨hne, hold⟩ := hleft.namespaces requestId hid
    exact (Multiset.mem_cons.mp (hnamespaces requestId hold)).resolve_left hne
  · intro requestId hentry
    obtain ⟨hne, hold⟩ := hleft.entries requestId hentry
    have hmem := hentries requestId hold
    rcases hps with rfl | rfl
    · exact hmem
    · rw [Multiset.map_cons] at hmem
      exact (Multiset.mem_cons.mp hmem).resolve_left hne

/-- The accounts when a group of a queue leaves. -/
theorem Accounted.left (h : Accounted ledger ({g} + ps) qs s) (hleft : Left g s s') :
    Accounted ledger ps qs s' := by
  refine h.leave hleft ?_ (.inr (Multiset.singleton_add g ps))
  rw [Multiset.singleton_add, Multiset.cons_add]

/-- The accounts when a group leaves that was stopped for its length. -/
theorem Accounted.left_stopped (h : Accounted ledger ps ({g} + qs) s) (hleft : Left g s s') :
    Accounted ledger ps qs s' := by
  refine h.leave hleft ?_ (.inl rfl)
  rw [Multiset.singleton_add, Multiset.add_cons]

end accounted

section departures

variable [DecidableEq ρ] {cfg : SchedulerConfig A T δ}

omit [DecidableEq ρ] in
/-- `free_seq` and the block manager. -/
theorem freeSeq_ok (h : s.freeSeq cfg g = .ok s') :
    ∃ m', s.blockManager.free cfg.tables g = .ok m' ∧ s' = { s with blockManager := m' } := by
  obtain ⟨m', hm', h⟩ := bind_eq_ok.mp h
  exact ⟨m', hm', (Except.ok.inj h).symm⟩

/-- A finished group is freed. -/
theorem left_freeFinishedSeqGroup (hfinished : g.isFinished)
    (h : s.freeFinishedSeqGroup cfg g = .ok s') : Left g s s' := by
  unfold freeFinishedSeqGroup freeFinishedSeqs at h
  rw [if_pos hfinished, if_pos hfinished] at h
  obtain ⟨m', hm', rfl⟩ := freeSeq_ok h
  obtain ⟨htables, hnamespaces⟩ := BlockSpaceManager.free_ok hm'
  refine ⟨htables, fun requestId hid =>
    BlockSpaceManager.hasNamespace_release (hnamespaces requestId hid), ?_, rfl,
    ⟨rfl, rfl, rfl, rfl⟩⟩
  intro requestId hentry
  rcases hentry with hentry | hentry
  · exact (Dict.mem_keys_erase.mp hentry).imp_right .inl
  · exact (Dict.mem_keys_erase.mp hentry).imp_right .inr

/-- A group that was stopped for its length is freed when it is finished. -/
theorem left_freeAsyncStopped (hfinished : g.isFinished) (hentry : ¬ s.HasEntry g.requestId)
    (h : s.freeAsyncStopped cfg g = .ok s') : Left g s s' := by
  unfold freeAsyncStopped freeFinishedSeqs at h
  rw [if_pos hfinished] at h
  obtain ⟨m', hm', rfl⟩ := freeSeq_ok h
  obtain ⟨htables, hnamespaces⟩ := BlockSpaceManager.free_ok hm'
  refine ⟨htables, fun requestId hid =>
    BlockSpaceManager.hasNamespace_release (hnamespaces requestId hid), ?_, rfl,
    ⟨rfl, rfl, rfl, rfl⟩⟩
  intro requestId hold
  refine ⟨?_, hold⟩
  rintro rfl
  exact hentry hold

/-- An aborted group leaves nothing behind but its entries. -/
theorem left_abortGroup (hfinished : ¬ g.isFinished) (hentry : ¬ s.HasEntry g.requestId)
    (h : s.abortGroup cfg g = .ok s') : Left g s s' := by
  unfold abortGroup at h
  rw [if_neg hfinished] at h
  obtain ⟨freed, hfreed, h⟩ := bind_eq_ok.mp h
  obtain rfl := Except.ok.inj h
  obtain ⟨m', hm', rfl⟩ := freeSeq_ok hfreed
  obtain ⟨htables, hnamespaces⟩ := BlockSpaceManager.free_ok hm'
  refine ⟨htables, fun requestId hid => ?_, ?_, rfl, ⟨rfl, rfl, rfl, rfl⟩⟩
  · obtain ⟨hne, hold⟩ := BlockSpaceManager.hasNamespace_release hid
    exact ⟨hne, hnamespaces requestId hold⟩
  · intro requestId hold
    refine ⟨?_, hold⟩
    rintro rfl
    exact hentry hold

end departures

end Scheduler

end Ikun.Scheduling
