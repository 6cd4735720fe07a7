import Ikun.Scheduler.CaptureTargets
import Ikun.Scheduler.StepAccounts

/-!
# Where chunks end

With prefix caching, `_get_num_new_tokens` rounds what the budget leaves down to whole blocks, so
that the chunks of a prompt end at block boundaries. A prompt that starts from a restored state is
fast-forwarded by all that the budget leaves, without rounding, and behind some decodes that is not a
multiple of the block size: the chunk ends inside a block (`fastForward_unaligned`), and so do the
chunks after it.

`scheduleChunkedPrefill_chunks` says for every prefill chunk of a step what it costs, and exactly when
it ends at a block boundary or at the end of its sequence. It follows the rounds of the three queues to
the turn in which the chunk is given, a `ChunkTurn`.
-/

namespace Ikun.GdnPrefix

open Except

variable {δ : Type} {blockSize promptLen remaining numNew logical physical : ℕ}
  {restoreKey : Option (GdnPrefixKey δ)} {alignment : Option ℕ}

/-- Behind a restored state the prompt or the logical chunk ends before the budget does, or the budget
has whole blocks left. -/
def ForwardsEvenly (blockSize promptLen remaining checkpoint : ℕ) (alignment : Option ℕ) : Prop :=
  promptLen ≤ checkpoint + remaining ∨ blockSize ∣ remaining ∨
    ∃ a, alignment = some a ∧ (checkpoint / a + 1) * a ≤ checkpoint + remaining

/-- The limit of a fast-forwarded chunk. -/
theorem logicalLimit_spec (hrem : 0 < remaining)
    (halign : ∀ a, alignment = some a → 0 < a ∧ blockSize ∣ a) (checkpoint : ℕ) :
    ∃ limit, logicalLimit checkpoint remaining blockSize alignment = .ok limit ∧
      checkpoint < limit ∧ limit ≤ checkpoint + remaining ∧
      ((∃ a, alignment = some a ∧ (checkpoint / a + 1) * a ≤ checkpoint + remaining) →
        blockSize ∣ limit) ∧
      (¬ (∃ a, alignment = some a ∧ (checkpoint / a + 1) * a ≤ checkpoint + remaining) →
        limit = checkpoint + remaining) := by
  unfold logicalLimit
  cases alignment with
  | none =>
    refine ⟨_, rfl, by omega, Nat.le_refl _, fun h => ?_, fun _ => rfl⟩
    obtain ⟨a, ha, -⟩ := h
    cases ha
  | some a =>
    obtain ⟨hapos, hadvd⟩ := halign a rfl
    have hnext : checkpoint < (checkpoint / a + 1) * a :=
      Nat.lt_mul_of_div_lt (Nat.lt_add_one _) hapos
    have hvalid : ¬ (a = 0 ∨ a % blockSize ≠ 0) := fun h => by
      cases h with
      | inl h => exact Nat.ne_of_gt hapos h
      | inr h => exact h (Nat.mod_eq_zero_of_dvd hadvd)
    dsimp only
    rw [raiseIf_bind hvalid]
    refine ⟨_, rfl, lt_min (by omega) hnext, Nat.min_le_left _ _, fun h => ?_, fun h => ?_⟩
    · obtain ⟨a', ha', hle⟩ := h
      obtain rfl := Option.some.inj ha'
      rw [Nat.min_eq_right hle]
      exact Nat.dvd_mul_left_of_dvd hadvd _
    · exact Nat.min_eq_left (Nat.le_of_not_le fun hle => h ⟨a, rfl, hle⟩)

/-- What is left of the budget decides where a fast-forwarded chunk ends. -/
theorem planGdnPrefixFastForward_end (hbs : 0 < blockSize) (hpos : 0 < numNew)
    (hnew : numNew = if remaining < promptLen then remaining / blockSize * blockSize else promptLen)
    (hkey : restoreTokens blockSize restoreKey < promptLen)
    (hkeyPos : ∀ key, restoreKey = some key → 0 < key.1)
    (halign : ∀ a, alignment = some a → 0 < a ∧ blockSize ∣ a)
    (h : planGdnPrefixFastForward restoreKey 0 promptLen numNew remaining blockSize alignment
      = .ok (logical, physical)) :
    ((∀ key, restoreKey = some key →
        ForwardsEvenly blockSize promptLen remaining (key.1 * blockSize) alignment) →
      logical = promptLen ∨ blockSize ∣ logical) ∧
      (∀ key, restoreKey = some key →
        ¬ ForwardsEvenly blockSize promptLen remaining (key.1 * blockSize) alignment →
          logical = key.1 * blockSize + remaining ∧ physical = remaining ∧
            logical < promptLen ∧ ¬ blockSize ∣ logical) := by
  have hnominal : numNew = promptLen ∨ blockSize ∣ numNew := by
    rw [hnew]
    split
    · exact .inr (Nat.dvd_mul_left _ _)
    · exact .inl rfl
  have hrem : numNew ≤ remaining ∧ numNew ≤ promptLen := by
    have hfloor := Nat.div_mul_le_self remaining blockSize
    rw [hnew]
    split
    · next hlt => exact ⟨hfloor, by omega⟩
    · next hge => exact ⟨by omega, Nat.le_refl _⟩
  unfold planGdnPrefixFastForward at h
  cases hrestored : restoreKey with
  | none =>
    rw [hrestored] at h
    obtain ⟨rfl, rfl⟩ := Prod.mk.inj (Except.ok.inj h)
    exact ⟨fun _ => hnominal, fun key hkey => nomatch hkey⟩
  | some key =>
    have hcheckpoint : 0 < key.1 * blockSize := Nat.mul_pos (hkeyPos key hrestored) hbs
    have hdvd : blockSize ∣ key.1 * blockSize := Nat.dvd_mul_left _ _
    have hrestore : restoreTokens blockSize (some key) = key.1 * blockSize := rfl
    rw [hrestored, hrestore] at hkey
    rw [hrestored] at h
    simp only [Option.some.injEq, forall_eq']
    unfold ForwardsEvenly
    dsimp only at h
    generalize key.1 * blockSize = checkpoint at *
    obtain ⟨limit, hlimit, hbehind, hle, hnext, hbudget⟩ :=
      logicalLimit_spec (show 0 < remaining by omega) halign checkpoint
    rw [if_neg (by omega), hlimit] at h
    simp only [bind, Except.bind] at h
    rw [if_neg (by omega)] at h
    split at h
    · next hshort =>
      -- the nominal chunk is the whole prompt
      obtain ⟨rfl, rfl⟩ := Prod.mk.inj (Except.ok.inj h)
      have hwhole : promptLen ≤ checkpoint + remaining ∨
          ∃ a, alignment = some a ∧ (checkpoint / a + 1) * a ≤ checkpoint + remaining := by
        refine Classical.or_iff_not_imp_right.mpr fun hnone => ?_
        have hlimit' := hbudget hnone
        omega
      exact ⟨fun _ => hnominal, fun hnot => absurd (hwhole.imp_right .inr) hnot⟩
    · obtain ⟨rfl, rfl⟩ := Prod.mk.inj (Except.ok.inj h)
      constructor
      · intro heven
        cases Nat.le_total promptLen limit with
        | inl hshort => exact .inl (Nat.min_eq_left hshort)
        | inr hlong =>
          rw [Nat.min_eq_right hlong]
          cases Classical.em (∃ a, alignment = some a ∧
              (checkpoint / a + 1) * a ≤ checkpoint + remaining) with
          | inl haligned => exact .inr (hnext haligned)
          | inr hnone =>
            have hlimit' := hbudget hnone
            obtain hend | hblocks | haligned := heven
            · exact .inl (by omega)
            · exact .inr (hlimit' ▸ Nat.dvd_add hdvd hblocks)
            · exact absurd haligned hnone
      · intro hodd
        obtain ⟨hend, hblocks, hnone⟩ := (not_or.mp hodd).imp_right not_or.mp
        have hlimit' := hbudget hnone
        have hlong : limit ≤ promptLen := by omega
        rw [Nat.min_eq_right hlong, hlimit']
        refine ⟨rfl, by omega, by omega, fun h => hblocks ?_⟩
        exact (Nat.dvd_add_right hdvd).mp h

namespace Prompt

variable [DecidableEq δ] {r : Prompt δ}

/-- With this budget left, the first chunk of the prompt ends at a block boundary or with the prompt:
no captured state is restorable, or behind the longest one the prompt or the logical chunk ends before
the budget does, or the budget has whole blocks left, or a state is captured inside. -/
def EndsEvenly (r : Prompt δ) (remaining : ℕ) : Prop :=
  ∀ key, Longest r.Restorable key →
    ForwardsEvenly r.cfg.blockSize r.promptLen remaining (key.1 * r.cfg.blockSize)
        (if r.cfg.restoreMode = .hybrid64 then some r.cfg.maxNumBatchedTokens else none) ∨
      r.policy.policy = .admission64 ∧ ∃ target, r.Captures target ∧
        key.1 * r.cfg.blockSize < target.1 * r.cfg.blockSize ∧
        target.1 * r.cfg.blockSize < key.1 * r.cfg.blockSize + remaining

/-- What an admitted prompt costs, how far it advances, and when its chunk ends at a block boundary
or with the prompt. -/
theorem planPrompt_ends {numNew remaining : ℕ} {plan : PrefillPlan δ}
    {policy : GdnPrefixStatePolicy δ} (hbs : 0 < r.cfg.blockSize)
    (hbudget : 0 < r.cfg.maxNumBatchedTokens) (hdvd : r.cfg.blockSize ∣ r.cfg.maxNumBatchedTokens)
    (hlen : 0 < r.promptLen) (hpos : 0 < numNew)
    (hnew : numNew = if remaining < r.promptLen then
      remaining / r.cfg.blockSize * r.cfg.blockSize else r.promptLen)
    (h : planPrompt r.cfg r.policy r.blockHashes r.computedBlockNums.length 0 r.promptLen numNew
      remaining = .ok (plan, policy)) :
    1 ≤ plan.queryTokens ∧ plan.queryTokens ≤ remaining ∧ plan.chunkSize ≤ r.promptLen ∧
      (plan.chunkSize = plan.queryTokens ∨ ∃ key, Longest r.Restorable key ∧
        plan.chunkSize = key.1 * r.cfg.blockSize + plan.queryTokens) ∧
      ((plan.chunkSize = r.promptLen ∨ r.cfg.blockSize ∣ plan.chunkSize) ↔
        r.EndsEvenly remaining) := by
  obtain ⟨-, hrestores, htargets⟩ := planPrompt_chooses h
  obtain ⟨hrestored, ⟨logical, physical⟩, hforward, hcap⟩ := planPrompt_ok h
  have hkey : restoreTokens r.cfg.blockSize plan.restoreKey < r.promptLen := by
    cases hrestoreKey : plan.restoreKey with
    | none => exact hlen
    | some key => exact (hrestored key hrestoreKey).2.2
  have halign : ∀ a, (if r.cfg.restoreMode = .hybrid64 then some r.cfg.maxNumBatchedTokens else none)
      = some a → 0 < a ∧ r.cfg.blockSize ∣ a := by
    intro a ha
    split at ha
    · exact Option.some.inj ha ▸ ⟨hbudget, hdvd⟩
    · cases ha
  have hle : numNew ≤ remaining ∧ numNew ≤ r.promptLen := by
    have hfloor := Nat.div_mul_le_self remaining r.cfg.blockSize
    rw [hnew]
    split
    · next hlt => exact ⟨hfloor, hfloor.trans (Nat.le_of_lt hlt)⟩
    · next hge => exact ⟨Nat.le_of_not_lt hge, Nat.le_refl _⟩
  obtain ⟨logical', physical', hforward', hphysical, hphysicalLe, hbehind, hlogical, hstart⟩ :=
    planGdnPrefixFastForward_spec hbs hpos hle.2 hle.1 hkey halign
  obtain ⟨rfl, rfl⟩ := Prod.mk.inj (Except.ok.inj (hforward'.symm.trans hforward))
  obtain ⟨heven, hodd⟩ := planGdnPrefixFastForward_end hbs hpos hnew hkey
    (fun key hkey => (hrestored key hkey).1) halign hforward
  obtain ⟨cut, hchunk, hquery, hcut, hboundary, hinside⟩ :=
    capGdnCaptureBoundary_cut hbs hphysical (show physical' ≤ logical' by omega) hcap
  rw [Nat.zero_add] at hinside hboundary
  have hcosts : 1 ≤ plan.queryTokens ∧ plan.queryTokens ≤ remaining ∧
      plan.chunkSize ≤ r.promptLen ∧ (plan.chunkSize = plan.queryTokens ∨
        plan.chunkSize = restoreTokens r.cfg.blockSize plan.restoreKey + plan.queryTokens) := by
    clear hinside
    omega
  refine ⟨hcosts.1, hcosts.2.1, hcosts.2.2.1, hcosts.2.2.2.elim .inl fun hsum => ?_, ?_⟩
  · cases hrestoreKey : plan.restoreKey with
    | none =>
      rw [hrestoreKey] at hsum
      exact .inl (hsum.trans (Nat.zero_add _))
    | some key =>
      rw [hrestoreKey] at hsum
      exact .inr ⟨key, (hrestores key).mp hrestoreKey, hsum⟩
  · have hends : cut ≠ 0 → plan.chunkSize = r.promptLen ∨ r.cfg.blockSize ∣ plan.chunkSize :=
      fun hne => .inr (hboundary hne)
    cases Classical.em (∀ key, plan.restoreKey = some key → ForwardsEvenly r.cfg.blockSize
        r.promptLen remaining (key.1 * r.cfg.blockSize)
        (if r.cfg.restoreMode = .hybrid64 then some r.cfg.maxNumBatchedTokens else none)) with
    | inl hforwards =>
      refine iff_of_true ?_ fun key hkey => .inl (hforwards key ((hrestores key).mpr hkey))
      cases Nat.eq_zero_or_pos cut with
      | inl huncut =>
        rw [hchunk, huncut, Nat.sub_zero]
        exact heven hforwards
      | inr hcutPos => exact hends (Nat.ne_of_gt hcutPos)
    | inr hnot =>
      -- the budget ends the chunk inside a block, unless a state is captured before
      simp only [not_forall] at hnot
      obtain ⟨key, hrestoreKey, hnot⟩ := hnot
      obtain ⟨hend, hall, hshort, hinsideBlock⟩ := hodd key hrestoreKey hnot
      rw [hend, hall, Nat.add_sub_cancel] at hinside
      have hlongest := (hrestores key).mp hrestoreKey
      cases Nat.eq_zero_or_pos cut with
      | inl huncut =>
        rw [hchunk, huncut, Nat.sub_zero]
        refine iff_of_false (fun h => h.elim (Nat.ne_of_lt hshort) hinsideBlock) fun h => ?_
        obtain ⟨hpolicy, target, htarget, hbetween⟩ := (h key hlongest).resolve_left hnot
        exact hinside.mpr ⟨hpolicy, target, (htargets hpolicy target).mpr htarget, hbetween⟩ huncut
      | inr hcutPos =>
        refine iff_of_true (hends (Nat.ne_of_gt hcutPos)) fun key' hkey' => .inr ?_
        obtain rfl := Option.some.inj (hrestoreKey.symm.trans ((hrestores key').mpr hkey'))
        obtain ⟨hpolicy, target, htarget, hbetween⟩ := hinside.mp (Nat.ne_of_gt hcutPos)
        exact ⟨hpolicy, target, (htargets hpolicy target).mp htarget, hbetween⟩

end Prompt

end Ikun.GdnPrefix

namespace Ikun.Scheduling.Scheduler

open Except GdnPrefix

variable {ρ δ A T : Type} [DecidableEq ρ] [DecidableEq δ]
variable {cfg : SchedulerConfig A T δ} {env : Environment ρ δ} {s s' : Scheduler ρ δ A T}
  {g : SequenceGroup ρ δ} {b : SchedulingBudget ρ}

/-! ## The budget -/

/-- No more tokens are batched than a step may have. -/
structure Within (cfg : SchedulerConfig A T δ) (b : SchedulingBudget ρ) : Prop where
  tokenBudget : b.tokenBudget = cfg.maxNumBatchedTokens
  batched_le : b.numBatchedTokens ≤ cfg.maxNumBatchedTokens

omit [DecidableEq ρ] [DecidableEq δ] in
theorem within_stepBudget : Within cfg (stepBudget cfg : SchedulingBudget ρ) :=
  ⟨rfl, Nat.zero_le _⟩

omit [DecidableEq δ] in
theorem Within.addNumBatchedTokens (h : Within cfg b) {batched : ℕ} (requestId : ρ) (scheduled : ℕ)
    (hle : batched ≤ b.remainingTokenBudget) :
    Within cfg (b.addNumBatchedTokens requestId batched scheduled) := by
  unfold SchedulingBudget.addNumBatchedTokens
  split
  · exact h
  · have hbatched := h.batched_le
    have hbudget := h.tokenBudget
    unfold SchedulingBudget.remainingTokenBudget at hle
    exact ⟨h.tokenBudget, show b.numBatchedTokens + batched ≤ _ by omega⟩

omit [DecidableEq δ] in
theorem Within.addNumSeqs (h : Within cfg b) (requestId : ρ) (seqs : ℕ) :
    Within cfg (b.addNumSeqs requestId seqs) := by
  unfold SchedulingBudget.addNumSeqs
  split
  · exact h
  · exact ⟨h.tokenBudget, h.batched_le⟩

/-- A budget of which no less is left. -/
structure NoLess (b b' : SchedulingBudget ρ) : Prop where
  tokenBudget : b'.tokenBudget = b.tokenBudget
  batched_le : b'.numBatchedTokens ≤ b.numBatchedTokens

omit [DecidableEq ρ] in
theorem NoLess.trans {b' b'' : SchedulingBudget ρ} (h : NoLess b b') (h' : NoLess b' b'') :
    NoLess b b'' :=
  ⟨h'.tokenBudget.trans h.tokenBudget, h'.batched_le.trans h.batched_le⟩

omit [DecidableEq ρ] in
theorem NoLess.remaining_le {b' : SchedulingBudget ρ} (h : NoLess b b') :
    b.remainingTokenBudget ≤ b'.remainingTokenBudget := by
  have hbatched := h.batched_le
  unfold SchedulingBudget.remainingTokenBudget
  rw [h.tokenBudget]
  omega

omit [DecidableEq ρ] [DecidableEq δ] in
theorem Within.noLess {b' : SchedulingBudget ρ} (h : Within cfg b) (hless : NoLess b b') :
    Within cfg b' :=
  ⟨hless.tokenBudget.trans h.tokenBudget, hless.batched_le.trans h.batched_le⟩

theorem noLess_subtract (b : SchedulingBudget ρ) (requestId : ρ) (batched seqs : ℕ) :
    NoLess b ((b.subtractNumBatchedTokens requestId batched).subtractNumSeqs requestId seqs) := by
  have htokens : NoLess b (b.subtractNumBatchedTokens requestId batched) := by
    unfold SchedulingBudget.subtractNumBatchedTokens
    split
    · exact ⟨rfl, Nat.sub_le _ _⟩
    · exact ⟨rfl, Nat.le_refl _⟩
  refine htokens.trans ?_
  unfold SchedulingBudget.subtractNumSeqs
  split
  · exact ⟨rfl, Nat.le_refl _⟩
  · exact ⟨rfl, Nat.le_refl _⟩

/-! ## The turns of a step -/

/-- A chunk ends at a block boundary or at the end of its sequence. -/
def EndsAligned (cfg : SchedulerConfig A T δ) (sg : ScheduledSequenceGroup ρ δ) : Prop :=
  sg.seqGroup.numComputedTokens + sg.tokenChunkSize = sg.seqGroup.len ∨
    cfg.blockSize ∣ sg.seqGroup.numComputedTokens + sg.tokenChunkSize

/-- A state that the request captures lies inside, under the policy admission64. -/
def cutAt (s : Scheduler ρ δ A T) (g : SequenceGroup ρ δ) (cfg : SchedulerConfig A T δ)
    (start stop : ℕ) : Prop :=
  s.gdnPrefixPolicy.policy = .admission64 ∧
    ∃ key ∈ (s.gdnRequestCaptureTargets.get? g.requestId).getD [],
      start < key.1 * cfg.blockSize ∧ key.1 * cfg.blockSize < stop

/-- The turn in which a waiting group is admitted with a chunk. -/
structure Admission (cfg : SchedulerConfig A T δ) (env : Environment ρ δ) (s : Scheduler ρ δ A T)
    (sg : ScheduledSequenceGroup ρ δ) where
  start : PrefillRound ρ δ A T
  starts : StartsPrefills cfg env s true start
  n : ℕ
  group : SequenceGroup ρ δ
  queue : List (SequenceGroup ρ δ)
  round : PrefillRound ρ δ A T
  reached : PrefillRounds cfg env true start n (group :: queue) round
  numNewTokens : ℕ
  turn : WaitingTurn cfg env true n round group numNewTokens
  admissible : Admissible cfg round group numNewTokens
  before : Scheduler ρ δ A T
  allocated : round.scheduler.allocateAndSetRunning cfg env group = .ok (sg.seqGroup, before)
  computed : List ℕ × BlockSpaceManager ρ δ A T
  computed_ok : before.blockManager.getCommonComputedBlockIds cfg.tables sg.seqGroup = .ok computed
  blockHashes : List δ
  blockHashes_ok : computed.2.getContentHashes cfg.tables sg.seqGroup = .ok blockHashes
  queryTokens : ℕ
  after : Scheduler ρ δ A T
  planned : before.planRequest cfg sg.seqGroup numNewTokens round.budget
    = .ok ((sg.tokenChunkSize, queryTokens), after)

/-- The turn in which a running group gets its next chunk. -/
structure Continuation (cfg : SchedulerConfig A T δ) (env : Environment ρ δ)
    (s : Scheduler ρ δ A T) (sg : ScheduledSequenceGroup ρ δ) where
  start : RunningRound ρ δ A T
  starts : StartsRunning cfg env s true start
  queue : List (SequenceGroup ρ δ)
  round : RunningRound ρ δ A T
  reached : RunningRounds cfg env true start round
  numNewTokens : ℕ
  turn : RunningTurn cfg true round sg.seqGroup queue numNewTokens sg.tokenChunkSize
  short : ¬ TooLong cfg sg.seqGroup
  isPrefill : sg.seqGroup.isPrefill
  room : ∃ victims left, makeRoom cfg env sg.seqGroup sg.tokenChunkSize queue.reverse round
    = .ok (true, victims, left)

/-- The turn in which a group is swapped in with all the tokens that are left of its prompt. -/
structure SwapIn (cfg : SchedulerConfig A T δ) (env : Environment ρ δ) (s : Scheduler ρ δ A T)
    (sg : ScheduledSequenceGroup ρ δ) where
  start : SwappedRound ρ δ A T
  starts : StartsSwapped cfg env s true start
  group : SequenceGroup ρ δ
  queue : List (SequenceGroup ρ δ)
  round : SwappedRound ρ δ A T
  reached : SwappedRounds cfg false start (group :: queue) round
  turn : SwappedTurn cfg false round group sg.tokenChunkSize
  isPrefill : group.isPrefill
  swappedIn : sg.seqGroup = changeStatus group .swapped .running

/-- The turn of a step in which a group gets a prefill chunk. -/
inductive ChunkTurn (cfg : SchedulerConfig A T δ) (env : Environment ρ δ) (s : Scheduler ρ δ A T)
    (sg : ScheduledSequenceGroup ρ δ) where
  | admission : Admission cfg env s sg → ChunkTurn cfg env s sg
  | continuation : Continuation cfg env s sg → ChunkTurn cfg env s sg
  | swapIn : SwapIn cfg env s sg → ChunkTurn cfg env s sg

/-- The prompt of an admission, with what the planning knows of it. -/
def Admission.prompt {sg : ScheduledSequenceGroup ρ δ} (turn : Admission cfg env s sg) :
    Prompt δ where
  cfg := gdnConfig cfg
  policy := turn.before.gdnPrefixPolicy
  blockHashes := turn.blockHashes
  computedBlockNums := turn.computed.1
  promptLen := sg.seqGroup.len

namespace ChunkTurn

variable {sg : ScheduledSequenceGroup ρ δ}

/-- The tokens that are left of the budget. -/
def remaining : ChunkTurn cfg env s sg → ℕ
  | admission turn => turn.round.budget.remainingTokenBudget
  | continuation turn => turn.round.budget.remainingTokenBudget
  | swapIn turn => turn.round.budget.remainingTokenBudget

/-- The tokens that the model processes. -/
def queryTokens : ChunkTurn cfg env s sg → ℕ
  | admission turn => turn.queryTokens
  | continuation _ => sg.tokenChunkSize
  | swapIn _ => sg.tokenChunkSize

/-- The chunk starts from this captured state. -/
def Restores : ChunkTurn cfg env s sg → GdnPrefixKey δ → Prop
  | admission turn, key => Longest turn.prompt.Restorable key
  | continuation _, _ => False
  | swapIn _, _ => False

/-- The chunk is going to end at a block boundary or with its sequence. -/
def EndsEvenly : ChunkTurn cfg env s sg → Prop
  | admission turn => turn.prompt.EndsEvenly turn.round.budget.remainingTokenBudget
  | continuation turn => cfg.blockSize ∣ sg.seqGroup.numComputedTokens ∨
      sg.seqGroup.numUncomputedTokens ≤ turn.round.budget.remainingTokenBudget ∨
      cutAt turn.round.scheduler sg.seqGroup cfg sg.seqGroup.numComputedTokens
        (sg.seqGroup.numComputedTokens +
          turn.round.budget.remainingTokenBudget / cfg.blockSize * cfg.blockSize)
  | swapIn _ => True

end ChunkTurn

/-- What a chunk costs and how far it advances, and when it ends at a block boundary or with its
sequence. -/
structure ChunkTurn.Sound {sg : ScheduledSequenceGroup ρ δ} (turn : ChunkTurn cfg env s sg) :
    Prop where
  query_pos : 1 ≤ turn.queryTokens
  query_le : turn.queryTokens ≤ turn.remaining
  le_len : sg.seqGroup.numComputedTokens + sg.tokenChunkSize ≤ sg.seqGroup.len
  restored : sg.tokenChunkSize = turn.queryTokens ∨ ∃ key, turn.Restores key ∧
    sg.tokenChunkSize = key.1 * cfg.blockSize + turn.queryTokens
  aligned_iff : EndsAligned cfg sg ↔ turn.EndsEvenly

/-! ## The tokens of a turn -/

omit [DecidableEq ρ] [DecidableEq δ] in
/-- A prompt gets all its tokens, or the whole blocks that are left of the budget. -/
theorem getNumNewTokens_prefill {status : SequenceStatus} {tokens : ℕ}
    (hcaching : cfg.enablePrefixCaching) (hprefill : g.isPrefill) (hwithin : Within cfg b)
    (hok : getNumNewTokens cfg g status true b = .ok tokens) :
    cfg.blockSize ∣ cfg.maxNumBatchedTokens ∧ g.numComputedTokens < g.len ∧
      tokens = if b.remainingTokenBudget < g.numUncomputedTokens then
        b.remainingTokenBudget / cfg.blockSize * cfg.blockSize else g.numUncomputedTokens := by
  obtain ⟨_, -, hok⟩ := bind_eq_ok.mp hok
  rw [if_pos rfl, if_pos hcaching] at hok
  unfold SequenceGroup.numNewTokens at hok
  rw [show g.stage = .prefill from of_decide_eq_true hprefill] at hok
  obtain ⟨_, hpos, hok⟩ := bind_eq_ok.mp hok
  obtain ⟨_, hdvd, hok⟩ := bind_eq_ok.mp hok
  rw [← hwithin.tokenBudget]
  exact ⟨Nat.dvd_of_mod_eq_zero (not_not.mp (raiseIf_eq_ok.mp hdvd)),
    Nat.lt_of_sub_ne_zero (raiseIf_eq_ok.mp hpos), (Except.ok.inj hok).symm⟩

omit [DecidableEq ρ] [DecidableEq δ] in
/-- A budget that has tokens left is that of a step with a budget. -/
theorem Within.budget_pos (hwithin : Within cfg b) {tokens : ℕ} (hne : tokens ≠ 0)
    (hle : tokens ≤ b.remainingTokenBudget) : 0 < cfg.maxNumBatchedTokens := by
  rw [← hwithin.tokenBudget]
  exact (Nat.pos_of_ne_zero hne).trans_le (hle.trans (Nat.sub_le _ _))

omit [DecidableEq ρ] in
/-- A group fits that has tokens, and no more than are left of the budget. -/
theorem fits_ok {tokens seqs : ℕ} (hok : fits b tokens seqs = .ok true) :
    tokens ≠ 0 ∧ tokens ≤ b.remainingTokenBudget := by
  unfold fits at hok
  split at hok
  · exact absurd (Except.ok.inj hok) Bool.false_ne_true
  · next hne =>
    obtain ⟨_, -, hok⟩ := bind_eq_ok.mp hok
    obtain ⟨_, -, hok⟩ := bind_eq_ok.mp hok
    obtain ⟨htokens, -⟩ := of_decide_eq_true (Except.ok.inj hok)
    exact ⟨hne, Nat.le_sub_of_add_le' htokens⟩

omit [DecidableEq ρ] [DecidableEq δ] in
theorem isPrefill_changeStatus (source target : SequenceStatus) :
    (changeStatus g source target).isPrefill = g.isPrefill ∧
      (changeStatus g source target).numUncomputedTokens = g.numUncomputedTokens ∧
      (changeStatus g source target).numComputedTokens = g.numComputedTokens ∧
      (changeStatus g source target).len = g.len := by
  unfold changeStatus
  split
  · exact ⟨rfl, rfl, rfl, rfl⟩
  · exact ⟨rfl, rfl, rfl, rfl⟩

/-! ## What a turn promises -/

section promises

variable {sg : ScheduledSequenceGroup ρ δ}

/-- The next chunk of a running group ends at a block boundary or with its sequence exactly when it
starts at a block boundary, or the budget is enough for the rest, or a state is captured inside. -/
theorem Continuation.sound (turn : Continuation cfg env s sg) (hcaching : cfg.enablePrefixCaching)
    (hwithin : Within cfg turn.round.budget) : (ChunkTurn.continuation turn).Sound := by
  obtain ⟨hdvd, hlt, hnum⟩ :=
    getNumNewTokens_prefill hcaching turn.isPrefill hwithin turn.turn.numNewTokens_ok
  have hle := (getNumNewTokens_le turn.turn.numNewTokens_ok).trans (Nat.min_le_right _ _)
  have hbudget := hwithin.budget_pos turn.turn.numNewTokens_ne hle
  have hbs := Nat.pos_of_dvd_of_pos hdvd hbudget
  have htokens := turn.turn.tokens_ok
  unfold numRunningTokens at htokens
  rw [if_pos ⟨rfl, turn.isPrefill⟩] at htokens
  obtain ⟨⟨chunk, query⟩, hcapped, htokens⟩ := bind_eq_ok.mp htokens
  obtain rfl : chunk = sg.tokenChunkSize := Except.ok.inj htokens
  obtain ⟨cut, hchunk, -, hcut, hboundary, hinside⟩ := capGdnCaptureBoundary_cut hbs
    (Nat.pos_of_ne_zero turn.turn.numNewTokens_ne) (Nat.le_refl _) hcapped
  rw [Nat.add_sub_cancel] at hinside
  have hrest : sg.seqGroup.numComputedTokens + sg.seqGroup.numUncomputedTokens = sg.seqGroup.len :=
    Nat.add_sub_cancel' (Nat.le_of_lt hlt)
  have hpos : 0 < sg.tokenChunkSize := hchunk ▸ Nat.sub_pos_of_lt hcut
  have hremaining : sg.tokenChunkSize ≤ turn.round.budget.remainingTokenBudget :=
    hchunk ▸ (Nat.sub_le _ _).trans hle
  refine ⟨hpos, hremaining, ?_, .inl rfl, ?_⟩
  · rw [hchunk, ← hrest]
    refine Nat.add_le_add_left ((Nat.sub_le _ _).trans ?_) _
    rw [hnum]
    split
    · next hshort => exact (Nat.div_mul_le_self _ _).trans (Nat.le_of_lt hshort)
    · exact Nat.le_refl _
  · unfold EndsAligned ChunkTurn.EndsEvenly
    dsimp only
    cases Nat.lt_or_ge turn.round.budget.remainingTokenBudget sg.seqGroup.numUncomputedTokens with
    | inr hlong =>
      refine iff_of_true ?_ (.inr (.inl hlong))
      cases Nat.eq_zero_or_pos cut with
      | inl hzero =>
        rw [if_neg (Nat.not_lt.mpr hlong)] at hnum
        rw [hchunk, hzero, Nat.sub_zero, hnum]
        exact .inl hrest
      | inr hpos => exact .inr (hboundary (Nat.ne_of_gt hpos))
    | inl hshort =>
      -- the budget is not enough, so only a state inside can move the end
      rw [if_pos hshort] at hnum
      rw [hnum] at hinside
      have hinside' : cut ≠ 0 ↔ cutAt turn.round.scheduler sg.seqGroup cfg
        sg.seqGroup.numComputedTokens (sg.seqGroup.numComputedTokens +
          turn.round.budget.remainingTokenBudget / cfg.blockSize * cfg.blockSize) := hinside
      rw [← hinside']
      cases Nat.eq_zero_or_pos cut with
      | inl hzero =>
        have hfloor := Nat.div_mul_le_self turn.round.budget.remainingTokenBudget cfg.blockSize
        rw [hchunk, hzero, Nat.sub_zero, hnum, Nat.dvd_add_left (Nat.dvd_mul_left _ _)]
        constructor
        · exact fun h => h.elim (fun h => absurd h (by omega)) .inl
        · exact fun h => .inr (h.resolve_right fun h =>
            h.elim (Nat.not_le.mpr hshort) fun h => h rfl)
      | inr hpos =>
        exact iff_of_true (.inr (hboundary (Nat.ne_of_gt hpos))) (.inr (.inr (Nat.ne_of_gt hpos)))

/-- A group that is swapped in gets all that is left of its prompt. -/
theorem SwapIn.sound (turn : SwapIn cfg env s sg) : (ChunkTurn.swapIn turn).Sound := by
  obtain ⟨hne, hle⟩ := fits_ok turn.turn.fits_ok
  obtain ⟨-, huncomputed, hcomputed, hlen⟩ :=
    isPrefill_changeStatus (g := turn.group) .swapped .running
  obtain ⟨_, -, hnum⟩ := bind_eq_ok.mp turn.turn.numNewTokens_ok
  have hwhole : turn.group.numNewTokens = sg.tokenChunkSize := Except.ok.inj hnum
  unfold SequenceGroup.numNewTokens at hwhole
  rw [show turn.group.stage = .prefill from of_decide_eq_true turn.isPrefill] at hwhole
  have hend : sg.seqGroup.numComputedTokens + sg.tokenChunkSize = sg.seqGroup.len := by
    rw [turn.swappedIn, hcomputed, hlen, ← hwhole]
    have hrest : turn.group.len - turn.group.numComputedTokens ≠ 0 :=
      fun hzero => hne (hwhole.symm.trans hzero)
    exact Nat.add_sub_cancel' (Nat.le_of_lt (Nat.lt_of_sub_ne_zero hrest))
  exact ⟨Nat.pos_of_ne_zero hne, hle, hend.le, .inl rfl, iff_of_true (.inl hend) trivial⟩

/-- What an admitted prompt costs, how far it advances, and when its chunk ends at a block boundary
or with the prompt. -/
theorem Admission.sound (turn : Admission cfg env s sg) (hcaching : cfg.enablePrefixCaching)
    (hwithin : Within cfg turn.round.budget) (hprefill : turn.group.isPrefill)
    (hzero : turn.group.numComputedTokens = 0) : (ChunkTurn.admission turn).Sound := by
  obtain ⟨hdvd, hlt, hnum⟩ :=
    getNumNewTokens_prefill hcaching hprefill hwithin turn.turn.numNewTokens_ok
  obtain ⟨hne, hle⟩ := fits_ok turn.admissible.fits_ok
  have hbudget := hwithin.budget_pos hne hle
  obtain ⟨m, -, hset⟩ := bind_eq_ok.mp turn.allocated
  obtain ⟨hgroup, -⟩ := Prod.mk.inj (Except.ok.inj hset)
  obtain ⟨-, -, hcomputed, hlen⟩ := isPrefill_changeStatus (g := turn.group) .waiting .running
  rw [hgroup] at hcomputed hlen
  rw [hzero] at hcomputed
  have hprompt : sg.seqGroup.len = turn.group.len := hlen
  unfold SequenceGroup.numUncomputedTokens at hnum
  rw [hzero, Nat.sub_zero, ← hprompt] at hnum
  rw [hzero, ← hprompt] at hlt
  obtain ⟨computed, hcomputed', h⟩ := bind_eq_ok.mp turn.planned
  obtain rfl := Except.ok.inj (turn.computed_ok.symm.trans hcomputed')
  obtain ⟨hashes, hhashes, h⟩ := bind_eq_ok.mp h
  obtain rfl := Except.ok.inj (turn.blockHashes_ok.symm.trans hhashes)
  obtain ⟨⟨plan, policy⟩, hplan, h⟩ := bind_eq_ok.mp h
  obtain ⟨hsizes, -⟩ := Prod.mk.inj (Except.ok.inj h)
  obtain ⟨hchunk, hquery⟩ := Prod.mk.inj hsizes
  dsimp only at hchunk hquery
  rw [hcomputed] at hplan
  obtain ⟨hpos, hquery', hlen', hrestored, haligned⟩ := Prompt.planPrompt_ends (r := turn.prompt)
    (Nat.pos_of_dvd_of_pos hdvd hbudget) hbudget hdvd hlt (Nat.pos_of_ne_zero hne) hnum hplan
  rw [hchunk] at hlen' hrestored haligned
  rw [hquery] at hpos hquery' hrestored
  refine ⟨hpos, hquery', ?_, hrestored, ?_⟩
  · rw [hcomputed, Nat.zero_add]
    exact hlen'
  · unfold EndsAligned
    rw [hcomputed, Nat.zero_add]
    exact haligned

end promises

/-! ## The running queue -/

omit [DecidableEq ρ] [DecidableEq δ] in
theorem waiting_freeSeq (hok : s.freeSeq cfg g = .ok s') : s'.waiting = s.waiting := by
  obtain ⟨m, -, hok⟩ := bind_eq_ok.mp hok
  obtain rfl := Except.ok.inj hok
  rfl

omit [DecidableEq ρ] [DecidableEq δ] in
/-- A preempted group is put aside. -/
theorem waiting_preempt {outputs outputs' : SchedulerRunningOutputs ρ δ}
    (hok : s.preempt cfg outputs g = .ok (s', outputs')) : s'.waiting = s.waiting := by
  unfold preempt at hok
  split at hok
  · obtain ⟨⟨g', freed⟩, hfreed, hok⟩ := bind_eq_ok.mp hok
    obtain ⟨_, -, hfreed⟩ := bind_eq_ok.mp hfreed
    obtain ⟨s₁, hs₁, hfreed⟩ := bind_eq_ok.mp hfreed
    obtain ⟨-, rfl⟩ := Prod.mk.inj (Except.ok.inj hfreed)
    obtain ⟨rfl, -⟩ := Prod.mk.inj (Except.ok.inj hok)
    exact waiting_freeSeq hs₁
  · obtain ⟨⟨mapping, g', s₁⟩, hswapped, hok⟩ := bind_eq_ok.mp hok
    obtain ⟨_, -, hswapped⟩ := bind_eq_ok.mp hswapped
    obtain ⟨_, -, hswapped⟩ := bind_eq_ok.mp hswapped
    obtain ⟨m, -, hswapped⟩ := bind_eq_ok.mp hswapped
    obtain ⟨-, hrest⟩ := Prod.mk.inj (Except.ok.inj hswapped)
    obtain ⟨-, rfl⟩ := Prod.mk.inj hrest
    obtain ⟨rfl, -⟩ := Prod.mk.inj (Except.ok.inj hok)
    rfl

omit [DecidableEq δ] in
/-- A victim gets no chunk. -/
theorem evict_keeps {outputs outputs' : SchedulerRunningOutputs ρ δ}
    (hok : s.evict cfg env outputs g = .ok (s', outputs')) :
    s'.waiting = s.waiting ∧ outputs'.prefillSeqGroups = outputs.prefillSeqGroups := by
  unfold evict at hok
  dsimp only at hok
  generalize (if cfg.useAsyncOutputProc then processPendingOutput env g else g) = victim at hok
  split at hok
  · next hfinished =>
    obtain ⟨freed, hfreed, hok⟩ := bind_eq_ok.mp hok
    obtain ⟨rfl, rfl⟩ := Prod.mk.inj (Except.ok.inj hok)
    exact ⟨(left_freeFinishedSeqGroup hfinished.2 hfreed).queues.waiting, rfl⟩
  · exact ⟨waiting_preempt hok, (preempt_scheduled hok).2⟩

/-- A loop that goes on leaves the waiting queue and the chunks, and no less of the budget. -/
structure Leaves (round round' : RunningRound ρ δ A T) : Prop where
  waiting : round'.scheduler.waiting = round.scheduler.waiting
  chunks : round'.outputs.prefillSeqGroups = round.outputs.prefillSeqGroups
  budget : NoLess round.budget round'.budget

omit [DecidableEq δ] in
theorem makeRoom_leaves {tokens : ℕ} {victims victims' : List (SequenceGroup ρ δ)}
    {round round' : RunningRound ρ δ A T} {hasSlots : Bool}
    (hok : makeRoom cfg env g tokens victims round = .ok (hasSlots, victims', round')) :
    Leaves round round' := by
  induction victims generalizing round with
  | nil =>
    unfold makeRoom at hok
    obtain ⟨slots, -, hok⟩ := bind_eq_ok.mp hok
    split at hok
    · obtain ⟨-, rest⟩ := Prod.mk.inj (Except.ok.inj hok)
      obtain ⟨-, rfl⟩ := Prod.mk.inj rest
      exact ⟨rfl, rfl, rfl, Nat.le_refl _⟩
    · obtain ⟨evicted, hevicted, hok⟩ := bind_eq_ok.mp hok
      obtain ⟨-, rest⟩ := Prod.mk.inj (Except.ok.inj hok)
      obtain ⟨-, rfl⟩ := Prod.mk.inj rest
      obtain ⟨hwaiting, hchunks⟩ := evict_keeps hevicted
      exact ⟨hwaiting, hchunks, noLess_subtract _ _ _ _⟩
  | cons victim victims ih =>
    unfold makeRoom at hok
    obtain ⟨slots, -, hok⟩ := bind_eq_ok.mp hok
    split at hok
    · obtain ⟨-, rest⟩ := Prod.mk.inj (Except.ok.inj hok)
      obtain ⟨-, rfl⟩ := Prod.mk.inj rest
      exact ⟨rfl, rfl, rfl, Nat.le_refl _⟩
    · obtain ⟨evicted, hevicted, hok⟩ := bind_eq_ok.mp hok
      obtain ⟨hwaiting, hchunks⟩ := evict_keeps hevicted
      have hrest := ih hok
      exact ⟨hrest.waiting.trans hwaiting, hrest.chunks.trans hchunks,
        (noLess_subtract _ _ _ _).trans hrest.budget⟩

omit [DecidableEq ρ] [DecidableEq δ] in
theorem waiting_appendSlots {cows : List (ℕ × ℕ)} (hok : s.appendSlots cfg g = .ok (cows, s')) :
    s'.waiting = s.waiting := by
  unfold appendSlots at hok
  split at hok
  · obtain ⟨m, -, hok⟩ := bind_eq_ok.mp hok
    obtain ⟨-, rfl⟩ := Prod.mk.inj (Except.ok.inj hok)
    rfl
  · obtain ⟨-, rfl⟩ := Prod.mk.inj (Except.ok.inj hok)
    rfl

omit [DecidableEq δ] in
/-- A running group gets no more tokens than are left of the budget. -/
theorem RunningTurn.tokens_le {round : RunningRound ρ δ A T} {queue : List (SequenceGroup ρ δ)}
    {numNewTokens tokens : ℕ} (h : RunningTurn cfg true round g queue numNewTokens tokens) :
    tokens ≤ round.budget.remainingTokenBudget := by
  have hle := (getNumNewTokens_le h.numNewTokens_ok).trans (Nat.min_le_right _ _)
  have htokens := h.tokens_ok
  unfold numRunningTokens at htokens
  split at htokens
  · obtain ⟨⟨chunk, query⟩, hcapped, htokens⟩ := bind_eq_ok.mp htokens
    obtain rfl := Except.ok.inj htokens
    have hcap := capGdnCaptureBoundary_ok (Nat.pos_of_ne_zero h.numNewTokens_ne) (Nat.le_refl _)
      hcapped
    exact hcap.2.1.trans hle
  · exact Except.ok.inj htokens ▸ hle

/-- A loop keeps within the budget and leaves the waiting queue. -/
structure Keeps (cfg : SchedulerConfig A T δ) (s : Scheduler ρ δ A T) (b : SchedulingBudget ρ)
    (s' : Scheduler ρ δ A T) : Prop where
  within : Within cfg b
  waiting : s'.waiting = s.waiting

omit [DecidableEq δ] in
/-- A group that runs costs its tokens, and gets a chunk if it is a prefill. -/
theorem runGroup_keeps {tokens : ℕ} {round next : RunningRound ρ δ A T}
    (hok : runGroup cfg true g tokens round = .ok next)
    (h : Keeps cfg s round.budget round.scheduler)
    (htokens : tokens ≤ round.budget.remainingTokenBudget) :
    Keeps cfg s next.budget next.scheduler ∧ ∀ sg ∈ next.outputs.prefillSeqGroups,
      sg ∈ round.outputs.prefillSeqGroups ∨ g.isPrefill ∧ sg = ⟨g, tokens⟩ := by
  obtain ⟨appended, happended, hok⟩ := bind_eq_ok.mp hok
  obtain rfl := Except.ok.inj hok
  refine ⟨⟨(h.within.addNumBatchedTokens _ _ htokens).addNumSeqs _ _,
    (waiting_appendSlots happended).trans h.waiting⟩, ?_⟩
  dsimp only
  split
  · next hprefill =>
    intro sg hsg
    exact (List.mem_append.mp hsg).imp_right fun hnew => ⟨hprefill, List.mem_singleton.mp hnew⟩
  · exact fun sg => .inl

omit [DecidableEq δ] in
/-- The loop of `_schedule_running`, with chunked prefill. -/
theorem RunningRounds.keeps {start round : RunningRound ρ δ A T}
    (hreached : RunningRounds cfg env true start round)
    (hstart : Keeps cfg s start.budget start.scheduler) :
    Keeps cfg s round.budget round.scheduler := by
  induction hreached with
  | start => exact hstart
  | stopped _ _ _ ih => exact ⟨ih.within, ih.waiting⟩
  | preempted _ _ _ hmade ih =>
    have hleaves := makeRoom_leaves hmade
    exact ⟨ih.within.noLess hleaves.budget, hleaves.waiting.trans ih.waiting⟩
  | @ran round left next g queue victims numNewTokens tokens _ hturn _ hmade hnext ih =>
    have hleaves := makeRoom_leaves hmade
    have hleft : Keeps cfg s left.budget { left.scheduler with running := victims.reverse } :=
      ⟨ih.within.noLess hleaves.budget, hleaves.waiting.trans ih.waiting⟩
    exact (runGroup_keeps hnext hleft (hturn.tokens_le.trans hleaves.budget.remaining_le)).1

/-- Every chunk of the loop is given in a turn. -/
theorem RunningRounds.chunks {start round : RunningRound ρ δ A T}
    (hstarts : StartsRunning cfg env s true start)
    (hreached : RunningRounds cfg env true start round)
    (hstart : Keeps cfg s start.budget start.scheduler) :
    ∀ sg ∈ round.outputs.prefillSeqGroups, Nonempty (Continuation cfg env s sg) := by
  induction hreached with
  | start =>
    cases hstarts
    exact fun _ hsg => absurd hsg List.not_mem_nil
  | stopped _ _ _ ih => exact ih
  | preempted _ _ _ hmade ih => exact fun sg hsg => ih sg ((makeRoom_leaves hmade).chunks ▸ hsg)
  | @ran round left next g queue victims numNewTokens tokens hreached hturn hshort hmade hnext ih =>
    have hleaves := makeRoom_leaves hmade
    have hkeeps := hreached.keeps hstart
    have hleft : Keeps cfg s left.budget { left.scheduler with running := victims.reverse } :=
      ⟨hkeeps.within.noLess hleaves.budget, hleaves.waiting.trans hkeeps.waiting⟩
    obtain ⟨-, hnew⟩ :=
      runGroup_keeps hnext hleft (hturn.tokens_le.trans hleaves.budget.remaining_le)
    intro sg hsg
    cases hnew sg hsg with
    | inl hold => exact ih sg (hleaves.chunks ▸ hold)
    | inr hrun =>
      obtain ⟨hprefill, rfl⟩ := hrun
      exact ⟨⟨start, hstarts, queue, round, hreached, numNewTokens, hturn, hshort, hprefill,
        victims, left, hmade⟩⟩

/-! ## The swapped queue -/

omit [DecidableEq δ] in
/-- A group that is swapped in costs its tokens, and gets a chunk if it is a prefill. -/
theorem swapInGroup_keeps {tokens : ℕ} {round next : SwappedRound ρ δ A T}
    (h : Keeps cfg s round.budget round.scheduler)
    (htokens : tokens ≤ round.budget.remainingTokenBudget)
    (hok : swapInGroup cfg g tokens round = .ok next) :
    Keeps cfg s next.budget next.scheduler ∧ ∀ sg ∈ next.outputs.prefillSeqGroups,
      sg ∈ round.outputs.prefillSeqGroups ∨
        g.isPrefill ∧ sg = ⟨changeStatus g .swapped .running, tokens⟩ := by
  obtain ⟨⟨mapping, g', s₁⟩, hswapped, hok⟩ := bind_eq_ok.mp hok
  obtain ⟨m, -, hswapped⟩ := bind_eq_ok.mp hswapped
  obtain ⟨-, hrest⟩ := Prod.mk.inj (Except.ok.inj hswapped)
  obtain ⟨rfl, rfl⟩ := Prod.mk.inj hrest
  obtain ⟨⟨cows, s₂⟩, happended, hok⟩ := bind_eq_ok.mp hok
  obtain rfl := Except.ok.inj hok
  have hwaiting := waiting_appendSlots happended
  refine ⟨⟨(h.within.addNumBatchedTokens _ _ htokens).addNumSeqs _ _, hwaiting.trans h.waiting⟩, ?_⟩
  dsimp only
  split
  · next hprefill =>
    rw [(isPrefill_changeStatus .swapped .running).1] at hprefill
    intro sg hsg
    exact (List.mem_append.mp hsg).imp_right fun hnew => ⟨hprefill, List.mem_singleton.mp hnew⟩
  · exact fun sg => .inl

omit [DecidableEq δ] in
/-- The loop of `_schedule_swapped`. -/
theorem SwappedRounds.keeps {queue : List (SequenceGroup ρ δ)} {start round : SwappedRound ρ δ A T}
    (hreached : SwappedRounds cfg false start queue round)
    (hstart : Keeps cfg s start.budget start.scheduler) :
    Keeps cfg s round.budget round.scheduler := by
  induction hreached with
  | start => exact hstart
  | infeasible _ _ ih => exact ih
  | swappedIn _ hturn hnext ih => exact (swapInGroup_keeps ih (fits_ok hturn.fits_ok).2 hnext).1

/-- Every chunk of the loop is given in a turn. -/
theorem SwappedRounds.chunks {queue : List (SequenceGroup ρ δ)} {start round : SwappedRound ρ δ A T}
    (hstarts : StartsSwapped cfg env s true start)
    (hreached : SwappedRounds cfg false start queue round)
    (hstart : Keeps cfg s start.budget start.scheduler) :
    ∀ sg ∈ round.outputs.prefillSeqGroups, Nonempty (SwapIn cfg env s sg) := by
  induction hreached with
  | start =>
    cases hstarts
    exact fun _ hsg => absurd hsg List.not_mem_nil
  | infeasible _ _ ih => exact ih
  | swappedIn hreached hturn hnext ih =>
    obtain ⟨-, hnew⟩ :=
      swapInGroup_keeps (hreached.keeps hstart) (fits_ok hturn.fits_ok).2 hnext
    intro sg hsg
    cases hnew sg hsg with
    | inl hold => exact ih sg hold
    | inr hswapped =>
      obtain ⟨hprefill, rfl⟩ := hswapped
      exact ⟨⟨start, hstarts, _, _, _, hreached, hturn, hprefill, rfl⟩⟩

/-! ## The waiting queue -/

/-- An admission is a turn, which its chunk comes from. -/
theorem admitGroup_turn {n : ℕ} {queue : List (SequenceGroup ρ δ)} {numNewTokens : ℕ}
    {start round next : PrefillRound ρ δ A T} (hcaching : cfg.enablePrefixCaching)
    (hstarts : StartsPrefills cfg env s true start)
    (hreached : PrefillRounds cfg env true start n (g :: queue) round)
    (hturn : WaitingTurn cfg env true n round g numNewTokens)
    (hadmissible : Admissible cfg round g numNewTokens)
    (hok : admitGroup cfg env true g numNewTokens round = .ok next) :
    ∃ sg, ∃ turn : Admission cfg env s sg, turn.group = g ∧ turn.round = round ∧
      next.outputs.seqGroups = round.outputs.seqGroups ++ [sg] ∧
      next.budget = (round.budget.addNumBatchedTokens g.requestId turn.queryTokens
        sg.tokenChunkSize).addNumSeqs g.requestId g.maxNumRunningSeqs := by
  obtain ⟨⟨g', before⟩, hallocated, hok⟩ := bind_eq_ok.mp hok
  rw [if_pos ⟨rfl, hcaching⟩] at hok
  obtain ⟨⟨⟨chunk, query⟩, after⟩, hplanned, hok⟩ := bind_eq_ok.mp hok
  obtain rfl := Except.ok.inj hok
  have hplanned' := hplanned
  obtain ⟨computed, hcomputed, hplanned⟩ := bind_eq_ok.mp hplanned
  obtain ⟨blockHashes, hhashes, -⟩ := bind_eq_ok.mp hplanned
  let turn : Admission cfg env s ⟨g', chunk⟩ := ⟨start, hstarts, n, g, queue, round, hreached,
    numNewTokens, hturn, hadmissible, before, hallocated, computed, hcomputed, blockHashes, hhashes,
    query, after, hplanned'⟩
  exact ⟨_, turn, rfl, rfl, rfl, rfl⟩

/-- The waiting groups are prompts of which nothing is computed. -/
def FreshPrompts (s : Scheduler ρ δ A T) : Prop :=
  ∀ g ∈ s.waiting, g.isPrefill ∧ g.numComputedTokens = 0

/-- The loop of `_schedule_prefills`, with chunked prefill, keeps within the budget. -/
theorem PrefillRounds.within {n : ℕ} {queue : List (SequenceGroup ρ δ)}
    {start round : PrefillRound ρ δ A T} (hcaching : cfg.enablePrefixCaching)
    (hprompts : FreshPrompts s) (hstarts : StartsPrefills cfg env s true start)
    (hreached : PrefillRounds cfg env true start n queue round)
    (hstart : Keeps cfg s start.budget start.scheduler) : Within cfg round.budget := by
  induction hreached with
  | start => exact hstart.within
  | ignored _ _ _ ih => exact ih
  | @admitted n round next g queue numNewTokens hreached hturn hadmissible hnext ih =>
    obtain ⟨sg, turn, rfl, rfl, -, hbudget⟩ :=
      admitGroup_turn hcaching hstarts hreached hturn hadmissible hnext
    have hmem : turn.group ∈ s.waiting :=
      hstart.waiting ▸ List.mem_of_mem_drop (hreached.drop_eq ▸ List.mem_cons_self)
    obtain ⟨hprefill, hzero⟩ := hprompts _ hmem
    have hsound := turn.sound hcaching ih hprefill hzero
    rw [hbudget]
    exact (ih.addNumBatchedTokens _ _ hsound.query_le).addNumSeqs _ _

/-- Every chunk of the loop is given in a turn. -/
theorem PrefillRounds.chunks {n : ℕ} {queue : List (SequenceGroup ρ δ)}
    {start round : PrefillRound ρ δ A T} (hcaching : cfg.enablePrefixCaching)
    (hstarts : StartsPrefills cfg env s true start)
    (hreached : PrefillRounds cfg env true start n queue round) :
    ∀ sg ∈ round.outputs.seqGroups, Nonempty (Admission cfg env s sg) := by
  induction hreached with
  | start =>
    cases hstarts
    exact fun _ hsg => absurd hsg List.not_mem_nil
  | ignored _ _ _ ih => exact ih
  | admitted hreached hturn hadmissible hnext ih =>
    obtain ⟨sg, turn, -, -, hgroups, -⟩ :=
      admitGroup_turn hcaching hstarts hreached hturn hadmissible hnext
    rw [hgroups]
    intro sg' hsg'
    cases List.mem_append.mp hsg' with
    | inl hold => exact ih sg' hold
    | inr hnew => exact List.mem_singleton.mp hnew ▸ ⟨turn⟩

/-! ## The step -/

/-- Where the running queue starts. -/
theorem StartsRunning.keeps {start : RunningRound ρ δ A T}
    (hstarts : StartsRunning cfg env s true start) :
    Keeps cfg s start.budget start.scheduler := by
  cases hstarts
  exact ⟨within_stepBudget, rfl⟩

/-- Where the swapped queue starts. -/
theorem StartsSwapped.keeps {start : SwappedRound ρ δ A T}
    (hstarts : StartsSwapped cfg env s true start) :
    Keeps cfg s start.budget start.scheduler := by
  cases hstarts with
  | behindRunning hstart hrunning _ => exact (scheduleRunning_rounds hrunning).keeps hstart.keeps

/-- The swapped queue after the running one. -/
theorem scheduleSwappedAfter_keeps {running : RunningRound ρ δ A T} {round : SwappedRound ρ δ A T}
    (hrunning : s.scheduleRunning cfg env true (stepBudget cfg) = .ok running)
    (hok : scheduleSwappedAfter cfg running = .ok round) :
    Keeps cfg s round.budget round.scheduler ∧
      ∀ sg ∈ round.outputs.prefillSeqGroups, Nonempty (SwapIn cfg env s sg) := by
  unfold scheduleSwappedAfter at hok
  split at hok
  · next hnone =>
    obtain ⟨last, hreached, hlast⟩ := scheduleSwapped_rounds hok
    have hstarts : StartsSwapped cfg env s true _ := .behindRunning .chunkedPrefill hrunning hnone
    have hkeeps := hreached.keeps hstarts.keeps
    have hchunks := hreached.chunks hstarts hstarts.keeps
    rw [hlast]
    exact ⟨⟨hkeeps.within, hkeeps.waiting⟩, hchunks⟩
  · obtain rfl := Except.ok.inj hok
    exact ⟨(scheduleRunning_rounds hrunning).keeps ⟨within_stepBudget, rfl⟩,
      fun _ hsg => absurd hsg List.not_mem_nil⟩

/-- Where the waiting queue starts. -/
theorem StartsPrefills.keeps {start : PrefillRound ρ δ A T}
    (hstarts : StartsPrefills cfg env s true start) :
    Keeps cfg s start.budget start.scheduler := by
  cases hstarts with
  | chunkedPrefill hrunning hswapped => exact (scheduleSwappedAfter_keeps hrunning hswapped).1

/-- The turn of a chunk keeps its promises. -/
theorem ChunkTurn.sound {sg : ScheduledSequenceGroup ρ δ} (hcaching : cfg.enablePrefixCaching)
    (hprompts : FreshPrompts s) (turn : ChunkTurn cfg env s sg) : turn.Sound := by
  cases turn with
  | admission turn =>
    have hkeeps := turn.starts.keeps
    have hmem : turn.group ∈ s.waiting :=
      hkeeps.waiting ▸ List.mem_of_mem_drop (turn.reached.drop_eq ▸ List.mem_cons_self)
    obtain ⟨hprefill, hzero⟩ := hprompts _ hmem
    exact turn.sound hcaching (turn.reached.within hcaching hprompts turn.starts hkeeps) hprefill hzero
  | continuation turn => exact turn.sound hcaching (turn.reached.keeps turn.starts.keeps).within
  | swapIn turn => exact turn.sound

/-- The budget of `_schedule_chunked_prefill` in front of its last assertions. -/
def finalBudget (cfg : SchedulerConfig A T δ) (env : Environment ρ δ) (s : Scheduler ρ δ A T) :
    Except Exn (SchedulingBudget ρ) := do
  let running ← s.scheduleRunning cfg env true (stepBudget cfg)
  let swappedIn ← scheduleSwappedAfter cfg running
  let prefills ← swappedIn.scheduler.schedulePrefills cfg env true swappedIn.budget
  return prefills.budget

/-- In a step with chunked prefill and prefix caching the budget is enough. Every prefill chunk is
given in a turn of one of the three queues, and whatever turn that is, it costs at least one token and
no more than are left of the budget, it advances by what it costs or by that and the restored state,
but not beyond its sequence, and it ends at a block boundary or with its sequence exactly when
`ChunkTurn.EndsEvenly` holds in front of the turn. -/
theorem scheduleChunkedPrefill_chunks (hcaching : cfg.enablePrefixCaching)
    (hprompts : FreshPrompts s) :
    (∀ budget, s.finalBudget cfg env = .ok budget →
      budget.numBatchedTokens ≤ cfg.maxNumBatchedTokens) ∧
      ∀ outputs s', s.scheduleChunkedPrefill cfg env = .ok (outputs, s') →
        ∀ sg ∈ outputs.scheduledSeqGroups.take outputs.numPrefillGroups,
          Nonempty (ChunkTurn cfg env s sg) ∧ ∀ turn : ChunkTurn cfg env s sg, turn.Sound := by
  constructor
  · intro budget hbudget
    obtain ⟨running, hrunning, hbudget⟩ := bind_eq_ok.mp hbudget
    obtain ⟨swappedIn, hswapped, hbudget⟩ := bind_eq_ok.mp hbudget
    obtain ⟨prefills, hprefills, hbudget⟩ := bind_eq_ok.mp hbudget
    obtain rfl := Except.ok.inj hbudget
    have hstarts : StartsPrefills cfg env s true _ := .chunkedPrefill hrunning hswapped
    obtain ⟨n, last, hreached, hlast⟩ := schedulePrefills_rounds hprefills
    rw [hlast]
    exact (hreached.within hcaching hprompts hstarts hstarts.keeps).batched_le
  · intro outputs s' hok sg hsg
    have hturn : Nonempty (ChunkTurn cfg env s sg) := by
      obtain ⟨running, hrunning, hok⟩ := bind_eq_ok.mp hok
      obtain ⟨swappedIn, hswapped, hok⟩ := bind_eq_ok.mp hok
      obtain ⟨prefills, hprefills, hok⟩ := bind_eq_ok.mp hok
      obtain ⟨checked, hchecked, hok⟩ := bind_eq_ok.mp hok
      obtain rfl := checkOutputs_ok hchecked
      obtain ⟨rfl, -⟩ := Prod.mk.inj (Except.ok.inj hok)
      dsimp only at hsg
      rw [List.append_assoc _ _ swappedIn.outputs.decodeSeqGroups, List.take_left' (by
        rw [List.length_append, List.length_append, Nat.add_right_comm])] at hsg
      cases List.mem_append.mp hsg with
      | inl hfirst =>
        cases List.mem_append.mp hfirst with
        | inl hadmitted =>
          obtain ⟨n, last, hreached, hlast⟩ := schedulePrefills_rounds hprefills
          rw [hlast] at hadmitted
          exact (hreached.chunks hcaching (.chunkedPrefill hrunning hswapped) sg hadmitted).map
            .admission
        | inr hcontinued =>
          have hreached := scheduleRunning_rounds hrunning
          exact (hreached.chunks .chunkedPrefill ⟨within_stepBudget, rfl⟩ sg hcontinued).map
            .continuation
      | inr hswappedIn =>
        exact ((scheduleSwappedAfter_keeps hrunning hswapped).2 sg hswappedIn).map .swapIn
    exact ⟨hturn, fun turn => turn.sound hcaching hprompts⟩

/-! ## A prompt behind a decode -/

/-- Four blocks of sixteen tokens are computed, and the allocator always has room. -/
def residentTables : BlockTableOps Unit (List ℕ) ℕ where
  hashNamespace identity := identity.adapter
  allocateSequence _ tokenIds _ := .ok (tokenIds, ())
  appendTokenIds _ _ tokenIds _ _ := .ok ([], tokenIds, ())
  numBlocksTouchedByAppendSlots _ _ _ := 1
  numFullBlocksTouched _ table _ := table.length / 16
  swap _ table _ _ := .ok ([], table, ())
  free _ _ := .ok ()
  numFreeBlocks _ _ := 64
  numTotalBlocks _ _ := 64
  physicalBlockIds table := List.range ((table.length + 15) / 16)
  computedBlockIds _ table := .ok ([0, 1, 2, 3], table)
  contentHashes table := List.range (table.length / 16)
  updateLastAccess table _ := table
  markBlocksAsComputed _ := ()
  beginPrefixCacheStep _ := ()
  getAndResetPrefixSwaps _ := (([], []), ())
  contentOffloadEnabled := false

/-- Chunks of 64 tokens in blocks of 16. -/
def residentConfig : SchedulerConfig Unit (List ℕ) ℕ where
  tables := residentTables
  blockSize := 16
  maxNumBatchedTokens := 64
  maxNumSeqs := 2
  maxModelLen := 512
  numLookaheadSlots := 0
  chunkedPrefillEnabled := true
  enablePrefixCaching := true
  priorityPolicy := false
  useAsyncOutputProc := false
  userSpecifiedPreemptionMode := none
  gdnRestoreMode := .hybrid64
  gdnReplayAlignment := 64

/-- A step in which nothing comes from outside. -/
def quietEnvironment : Environment ℕ ℕ where
  now := 0
  passedDelay _ := true
  freshNamespace _ := 0
  pendingOutput _ := none

/-- A prompt of 200 tokens whose state behind 64 tokens is resident waits behind a request that
decodes. -/
def behindDecode : Scheduler ℕ ℕ Unit (List ℕ) :=
  let scheduler : Scheduler ℕ ℕ Unit (List ℕ) := .init
    { blockSize := 16, numTotalGpuBlocks := 64, watermarkBlocks := 0, blockAllocator := ()
      blockTables := Dict.empty.set 1 (List.range 20) } .admission64
  { scheduler with
    gdnPrefixPolicy := { scheduler.gdnPrefixPolicy with resident := [(4, 3)] }
    waiting := [{ requestId := 0, seqId := 0, tokenIds := List.range 200
                  adapterCacheNamespace := 0 }]
    running := [{ requestId := 1, seqId := 1, tokenIds := List.range 20
                  numComputedTokens := 19, stage := .decode, status := .running
                  adapterCacheNamespace := 0 }] }

theorem freshPrompts_behindDecode : FreshPrompts behindDecode := by
  unfold FreshPrompts
  decide +kernel

/-- The decode takes one token, and the prompt the 63 others: its chunk ends inside a block. -/
theorem behindDecode_chunk :
    ∃ outputs s', behindDecode.scheduleChunkedPrefill residentConfig quietEnvironment
        = .ok (outputs, s') ∧
      ∃ sg ∈ outputs.scheduledSeqGroups.take outputs.numPrefillGroups, sg.tokenChunkSize = 127 ∧
        ¬ EndsAligned residentConfig sg := by
  have hresult : (behindDecode.scheduleChunkedPrefill residentConfig quietEnvironment).map
      (fun r => (r.1.scheduledSeqGroups.take r.1.numPrefillGroups).map fun sg =>
        (sg.seqGroup.numComputedTokens, sg.tokenChunkSize, sg.seqGroup.len))
      = .ok [(0, 127, 200)] := by decide +kernel
  obtain ⟨⟨outputs, s'⟩, hscheduled, hchunks⟩ := exists_of_map_eq_ok hresult
  obtain ⟨sg, hsg, hsizes⟩ := List.mem_map.mp (hchunks ▸ List.mem_singleton_self _)
  obtain ⟨hcomputed, hrest⟩ := Prod.mk.inj hsizes
  obtain ⟨hchunk, hlen⟩ := Prod.mk.inj hrest
  refine ⟨outputs, s', hscheduled, sg, hsg, hchunk, ?_⟩
  unfold EndsAligned
  rw [hcomputed, hchunk, hlen]
  decide

theorem scheduleChunkedPrefill_chunks_behindDecode :
    ∃ outputs s', behindDecode.scheduleChunkedPrefill residentConfig quietEnvironment
        = .ok (outputs, s') ∧
      ∃ sg ∈ outputs.scheduledSeqGroups.take outputs.numPrefillGroups, sg.tokenChunkSize = 127 ∧
        ∃ turn : ChunkTurn residentConfig quietEnvironment behindDecode sg,
          turn.queryTokens ≤ turn.remaining ∧ ¬ turn.EndsEvenly := by
  obtain ⟨outputs, s', hscheduled, sg, hsg, hchunk, hends⟩ := behindDecode_chunk
  have hcaching : residentConfig.enablePrefixCaching := rfl
  obtain ⟨⟨turn⟩, hturns⟩ :=
    (scheduleChunkedPrefill_chunks hcaching freshPrompts_behindDecode).2 outputs s' hscheduled sg hsg
  have hsound := hturns turn
  exact ⟨outputs, s', hscheduled, sg, hsg, hchunk, turn, hsound.query_le,
    fun heven => hends (hsound.aligned_iff.mpr heven)⟩

/-- The prompt starts from the restored state and ends inside a block. -/
theorem fastForward_unaligned : ¬ ∀ (s : Scheduler ℕ ℕ Unit (List ℕ)) outputs s',
    s.scheduleChunkedPrefill residentConfig quietEnvironment = .ok (outputs, s') →
    ∀ sg ∈ outputs.scheduledSeqGroups.take outputs.numPrefillGroups,
      EndsAligned residentConfig sg := by
  intro hclaim
  obtain ⟨outputs, s', hscheduled, sg, hsg, -, hends⟩ := behindDecode_chunk
  exact hends (hclaim _ _ _ hscheduled sg hsg)

end Ikun.Scheduling.Scheduler
