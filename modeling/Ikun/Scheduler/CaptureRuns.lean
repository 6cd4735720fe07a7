import Ikun.Scheduler.CaptureTargets

/-!
# The captured states of a prefill

Under the policy admission64 the states to capture are chosen when a prompt is admitted, and the
prompt is then prefilled over any number of steps, each with what the budget leaves for it. Whatever
is left in each step, every chosen state is captured once, at the end of a step, if the prompt starts
from its beginning. A prompt that starts from a captured state is not prefilled at all: `schedule`
raises an `AttributeError` in its first step (`firstStep_restorable`). `Prompt.capturesOnce_iff` says
which prompts these are.

The model captures a state at an offset in the tokens that it processes in the step, the physical
query, which would start at the restored state in the first step.
-/

namespace Ikun.GdnPrefix

open Except

variable {δ : Type} [DecidableEq δ]

/-! ## Capture points -/

omit [DecidableEq δ] in
/-- A step that stops at the first boundary it reaches captures a state there, and no other. -/
theorem capturePointsForStep_eq {targets : List (GdnPrefixKey δ)} {context stop blockSize : ℕ}
    (hbs : 0 < blockSize) (hpos : ∀ key ∈ targets, 0 < key.1) (hnodup : (targets.map (·.1)).Nodup)
    (hlt : context < stop)
    (hfirst : ∀ key ∈ targets, context < key.1 * blockSize → stop ≤ key.1 * blockSize) :
    capturePointsForStep targets context stop blockSize
      = .ok ((targets.filter (·.1 * blockSize = stop)).map (stop - context, ·)) := by
  have hkeys : targets.mapM (fun key => makePrefixKey key.1 key.2) = .ok targets := by
    have hmake : ∀ key ∈ targets, makePrefixKey key.1 key.2 = .ok (id key) :=
      fun key hkey => if_neg (Nat.ne_of_gt (hpos key hkey))
    rw [mapM_eq_ok hmake, List.map_id]
  have hreached : (targets.filter fun key => Reaches context stop blockSize key)
      = targets.filter (·.1 * blockSize = stop) := by
    refine List.filter_congr fun key hkey => decide_eq_decide.mpr ⟨fun h => ?_, fun h => ?_⟩
    · exact Nat.le_antisymm h.2 (hfirst key hkey h.1)
    · exact ⟨h.symm ▸ hlt, Nat.le_of_eq h⟩
  have hsub : ((targets.filter (·.1 * blockSize = stop)).map (·.1)).Nodup :=
    hnodup.sublist (List.filter_sublist.map _)
  have hat : ∀ key ∈ targets.filter (·.1 * blockSize = stop), key.1 * blockSize = stop :=
    fun key hkey => of_decide_eq_true (List.mem_filter.mp hkey).2
  unfold capturePointsForStep
  rw [if_neg (Nat.not_le.mpr hlt)]
  refine bind_eq_ok.mpr ⟨targets, hkeys, ?_⟩
  dsimp only
  rw [hreached]
  generalize targets.filter (·.1 * blockSize = stop) = reached at hsub hat
  match reached with
  | [] => rfl
  | [key] =>
    have hself := hat key List.mem_cons_self
    rw [← hself]
    rfl
  | key :: key' :: _ =>
    -- two states at one boundary
    have heq : key.1 = key'.1 := Nat.eq_of_mul_eq_mul_right hbs
      ((hat key List.mem_cons_self).trans (hat key' (by simp)).symm)
    exact absurd (List.mem_map.mpr ⟨key', List.mem_cons_self, heq.symm⟩)
      (List.nodup_cons.mp hsub).1

/-! ## A prefill -/

/-- A prefill step as the model receives it. -/
structure PrefillStep (δ : Type) where
  tokenChunkSize : ℕ
  context : ℕ
  stop : ℕ
  computedBlockNums : List ℕ
  capturePoints : List (ℕ × GdnPrefixKey δ)
  deriving DecidableEq

/-- The tokens that the model processes. -/
def PrefillStep.queryLen (step : PrefillStep δ) : ℕ := step.stop - step.context

namespace Prompt

variable (r : Prompt δ)

/-- `_get_num_new_tokens` after `batched` tokens of the step have been scheduled. -/
def numNewTokens (numComputedTokens batched : ℕ) : Except Exn ℕ :=
  getNumNewTokens (r.promptLen - numComputedTokens) (r.cfg.maxNumBatchedTokens - batched)
    r.cfg.maxNumBatchedTokens r.cfg.blockSize

/-- The actions of `schedule` for a prefill step, under the policy admission64. -/
def sendStep (plan : PrefillPlan δ) (numComputedTokens tokenChunkSize : ℕ) :
    Except Exn (PrefillStep δ) := do
  let restored := if numComputedTokens = 0 then plan.restoreKey else none
  let stop := min r.promptLen (numComputedTokens + tokenChunkSize)
  let blocks ← skippedBlocks r.cfg.blockSize restored numComputedTokens r.computedBlockNums
  recordCachedTokens (restoreTokens r.cfg.blockSize restored)
  let context :=
    if numComputedTokens = 0 then restoreTokens r.cfg.blockSize restored else numComputedTokens
  let points ← capturePointsForStep plan.captureTargets context stop r.cfg.blockSize
  return {
    tokenChunkSize := tokenChunkSize
    context := context
    stop := stop
    computedBlockNums := blocks
    capturePoints := points }

/-- The step in which the prompt is admitted, if there is budget for it. -/
def firstStep (batched : ℕ) : Except Exn (Option (PrefillPlan δ × PrefillStep δ)) := do
  let numNewTokens ← r.numNewTokens 0 batched
  if numNewTokens = 0 then return none
  else
    let planned ← planPrompt r.cfg r.policy r.blockHashes r.computedBlockNums.length 0 r.promptLen
      numNewTokens (r.cfg.maxNumBatchedTokens - batched)
    let step ← r.sendStep planned.1 0 planned.1.chunkSize
    return some (planned.1, step)

/-- A later step, if there is budget for it. -/
def nextStep (plan : PrefillPlan δ) (numComputedTokens batched : ℕ) :
    Except Exn (Option (PrefillStep δ)) := do
  let numNewTokens ← r.numNewTokens numComputedTokens batched
  if numNewTokens = 0 then return none
  else
    let capped ← capGdnCaptureBoundary r.policy.policy plan.captureTargets r.cfg.blockSize
      numComputedTokens numNewTokens numNewTokens
    let step ← r.sendStep plan numComputedTokens capped.1
    return some step

/-- The steps of a prefill so far, and the computed tokens after them. -/
inductive Run (r : Prompt δ) (plan : PrefillPlan δ) : List (PrefillStep δ) → ℕ → Prop
  | first {batched : ℕ} {step : PrefillStep δ}
      (hstep : r.firstStep batched = .ok (some (plan, step))) : Run r plan [step] step.tokenChunkSize
  | next {batched computed : ℕ} {steps : List (PrefillStep δ)} {step : PrefillStep δ}
      (hrun : Run r plan steps computed) (hlt : computed < r.promptLen)
      (hstep : r.nextStep plan computed batched = .ok (some step)) :
      Run r plan (steps ++ [step]) (computed + step.tokenChunkSize)

/-- The states that steps capture. -/
def captured (steps : List (PrefillStep δ)) : List (GdnPrefixKey δ) :=
  steps.flatMap fun step => step.capturePoints.map (·.2)

/-! ## Steps -/

section steps

variable {r : Prompt δ} {plan : PrefillPlan δ} {computed batched : ℕ}

/-- A step that ends at the first boundary behind its context. -/
structure EndsAtFirst (r : Prompt δ) (plan : PrefillPlan δ) (context stop : ℕ) : Prop where
  lt : context < stop
  le_len : stop ≤ r.promptLen
  first : ∀ key ∈ plan.captureTargets, context < key.1 * r.cfg.blockSize →
    stop ≤ key.1 * r.cfg.blockSize

/-- Nothing is restored, and the states of a plan can be told apart by their boundaries. -/
structure Planned (r : Prompt δ) (plan : PrefillPlan δ) : Prop where
  cold : plan.restoreKey = none
  pos : ∀ key ∈ plan.captureTargets, 0 < key.1 * r.cfg.blockSize
  lt_len : ∀ key ∈ plan.captureTargets, key.1 * r.cfg.blockSize < r.promptLen
  nodup : (plan.captureTargets.map (·.1)).Nodup

omit [DecidableEq δ] in
/-- What the model receives for such a step: the state at its end, if it is one to capture. -/
theorem sendStep_spec (hbs : 0 < r.cfg.blockSize) (hplan : r.Planned plan) {chunk : ℕ}
    (hends : r.EndsAtFirst plan computed (computed + chunk)) :
    ∃ step, r.sendStep plan computed chunk = .ok step ∧ step.tokenChunkSize = chunk ∧
      step.queryLen = chunk ∧
      step.capturePoints = (plan.captureTargets.filter
        (·.1 * r.cfg.blockSize = computed + chunk)).map (step.queryLen, ·) := by
  have hpoints := capturePointsForStep_eq hbs
    (fun key hkey => Nat.pos_of_mul_pos_right (hplan.pos key hkey)) hplan.nodup hends.lt hends.first
  have hstop : min r.promptLen (computed + chunk) = computed + chunk :=
    Nat.min_eq_right hends.le_len
  have hcold : (if computed = 0 then plan.restoreKey else none) = none := by
    rw [hplan.cold, ite_self]
  have hcontext : (if computed = 0 then restoreTokens r.cfg.blockSize (none : Option (GdnPrefixKey δ))
      else computed) = computed := by
    split
    · next hzero => exact hzero.symm
    · rfl
  unfold sendStep
  dsimp only
  rw [hcold, hstop, hcontext]
  refine ⟨_, bind_eq_ok.mpr ⟨_, rfl, bind_eq_ok.mpr ⟨(), recordCachedTokens_ok.mpr rfl,
    bind_eq_ok.mpr ⟨_, hpoints, rfl⟩⟩⟩, rfl, Nat.add_sub_cancel_left _ _, rfl⟩

/-- Every prompt is planned in a step in which there is budget. -/
theorem exists_plan (hpolicy : r.policy.policy = .admission64)
    (halign : gdnRestoreAlignment r.cfg.restoreMode r.cfg.blockSize r.cfg.maxNumBatchedTokens
      = .ok r.cfg.replayAlignment)
    (hlen : r.blockHashes.length = r.promptLen / r.cfg.blockSize) {tokens : ℕ}
    (htokens : r.numNewTokens 0 batched = .ok tokens) (hpos : tokens ≠ 0) :
    ∃ plan policy, planPrompt r.cfg r.policy r.blockHashes r.computedBlockNums.length 0 r.promptLen
        tokens (r.cfg.maxNumBatchedTokens - batched) = .ok (plan, policy) ∧
      plan.Sound r.cfg.blockSize r.computedBlockNums.length r.promptLen
        (r.cfg.maxNumBatchedTokens - batched) := by
  obtain ⟨hbs, hal, hdvd⟩ := gdnRestoreAlignment_ok halign
  obtain ⟨-, hbudget, hle, hrem⟩ := getNumNewTokens_bounds htokens
  have hchunk : r.cfg.restoreMode = .hybrid64 →
      0 < r.cfg.maxNumBatchedTokens ∧ r.cfg.blockSize ∣ r.cfg.maxNumBatchedTokens :=
    fun _ => ⟨by omega, hbudget⟩
  exact planPrompt_sound r.computedBlockNums.length hpolicy hbs hal hdvd hlen hchunk
    (Nat.pos_of_ne_zero hpos) hle hrem

/-- A prompt that may start from a captured state does not get past its first step. -/
theorem firstStep_restorable (hpolicy : r.policy.policy = .admission64)
    (halign : gdnRestoreAlignment r.cfg.restoreMode r.cfg.blockSize r.cfg.maxNumBatchedTokens
      = .ok r.cfg.replayAlignment)
    (hlen : r.blockHashes.length = r.promptLen / r.cfg.blockSize) {tokens : ℕ}
    (htokens : r.numNewTokens 0 batched = .ok tokens) (hpos : tokens ≠ 0) {key : GdnPrefixKey δ}
    (hkey : r.Restorable key) :
    r.firstStep batched = .error
      (.attributeError "'RequestMetrics' object has no attribute 'num_cached_tokens'") := by
  obtain ⟨hbs, -, -⟩ := gdnRestoreAlignment_ok halign
  obtain ⟨plan, policy, hplan, hsound⟩ := exists_plan hpolicy halign hlen htokens hpos
  obtain ⟨hnone, hlongest, -⟩ := planPrompt_chooses hplan
  obtain ⟨best, hbest⟩ := Option.ne_none_iff_exists'.mp (mt hnone.mp fun h => h key hkey)
  -- the blocks of the restored state are computed, so that only the metrics are in the way
  have hblocks : skippedBlocks r.cfg.blockSize (some best) 0 r.computedBlockNums
      = .ok (r.computedBlockNums.take best.1) := by
    unfold skippedBlocks
    exact raiseIf_bind (not_not.mpr (List.length_take_of_le (hsound.restored best hbest)))
  have hrestored : best.1 * r.cfg.blockSize ≠ 0 :=
    Nat.mul_ne_zero (Nat.ne_of_gt (mem_keysFromBlockHashes
      ((hlongest best).mp hbest).1.eligible.live).1) (Nat.ne_of_gt hbs)
  have hrecord : recordCachedTokens (restoreTokens r.cfg.blockSize (some best)) = .error
      (.attributeError "'RequestMetrics' object has no attribute 'num_cached_tokens'") :=
    if_neg hrestored
  have hsend : r.sendStep plan 0 plan.chunkSize = .error
      (.attributeError "'RequestMetrics' object has no attribute 'num_cached_tokens'") := by
    unfold sendStep
    dsimp only
    rw [if_pos rfl, hbest, hblocks]
    change (recordCachedTokens (restoreTokens r.cfg.blockSize (some best)) >>= _) = _
    rw [hrecord]
    rfl
  unfold firstStep
  rw [htokens]
  change (if tokens = 0 then _ else planPrompt _ _ _ _ _ _ _ _ >>= _) = _
  rw [if_neg hpos, hplan]
  change (r.sendStep plan 0 plan.chunkSize >>= _) = _
  rw [hsend]
  rfl

/-- A step in which there is budget admits any other prompt. -/
theorem firstStep_spec (hpolicy : r.policy.policy = .admission64)
    (halign : gdnRestoreAlignment r.cfg.restoreMode r.cfg.blockSize r.cfg.maxNumBatchedTokens
      = .ok r.cfg.replayAlignment)
    (hlen : r.blockHashes.length = r.promptLen / r.cfg.blockSize)
    (hcold : ∀ key, ¬ r.Restorable key) {tokens : ℕ}
    (htokens : r.numNewTokens 0 batched = .ok tokens) (hpos : tokens ≠ 0) :
    ∃ plan step, r.firstStep batched = .ok (some (plan, step)) ∧ r.Planned plan ∧
      r.EndsAtFirst plan 0 step.tokenChunkSize ∧
      step.capturePoints = (plan.captureTargets.filter
        (·.1 * r.cfg.blockSize = step.tokenChunkSize)).map (step.queryLen, ·) := by
  obtain ⟨hbs, -, -⟩ := gdnRestoreAlignment_ok halign
  obtain ⟨plan, policy, hplan, hsound⟩ := exists_plan hpolicy halign hlen htokens hpos
  have hnone : plan.restoreKey = none := (planPrompt_chooses hplan).1.mpr hcold
  have hplanned : r.Planned plan := {
    cold := hnone
    pos := fun key hkey => Nat.lt_of_le_of_lt (Nat.zero_le _) (hsound.beyond key hkey).1
    lt_len := fun key hkey => (hsound.beyond key hkey).2
    nodup := hsound.nodup }
  have hends : r.EndsAtFirst plan 0 (0 + plan.chunkSize) := by
    rw [Nat.zero_add]
    exact ⟨Nat.lt_of_le_of_lt (Nat.zero_le _) hsound.behind, hsound.le_len,
      fun key hkey _ => hsound.first key hkey⟩
  obtain ⟨step, hstep, hsize, -, hpoints⟩ := sendStep_spec hbs hplanned hends
  rw [Nat.zero_add] at hends hpoints
  refine ⟨plan, step, ?_, hplanned, hsize ▸ hends, ?_⟩
  · unfold firstStep
    refine bind_eq_ok.mpr ⟨tokens, htokens, ?_⟩
    rw [if_neg hpos]
    exact bind_eq_ok.mpr ⟨_, hplan, bind_eq_ok.mpr ⟨step, hstep, rfl⟩⟩
  · rw [hsize]
    exact hpoints

omit [DecidableEq δ] in
/-- A later step in which there is budget starts where the one before ended. -/
theorem nextStep_spec (hpolicy : r.policy.policy = .admission64) (hbs : 0 < r.cfg.blockSize)
    (hplan : r.Planned plan) (hlt : computed < r.promptLen) {tokens : ℕ}
    (htokens : r.numNewTokens computed batched = .ok tokens) (hpos : tokens ≠ 0) :
    ∃ step, r.nextStep plan computed batched = .ok (some step) ∧
      r.EndsAtFirst plan computed (computed + step.tokenChunkSize) ∧
      step.capturePoints = (plan.captureTargets.filter
        (·.1 * r.cfg.blockSize = computed + step.tokenChunkSize)).map (step.queryLen, ·) := by
  obtain ⟨-, -, hle, -⟩ := getNumNewTokens_bounds htokens
  obtain ⟨cut, hcap, hcut, -, hfirst⟩ := capGdnCaptureBoundary_spec r.policy.policy computed hbs
    (fun key hkey => Nat.pos_of_mul_pos_right (hplan.pos key hkey)) (Nat.pos_of_ne_zero hpos)
    (Nat.le_refl tokens)
  have hends : r.EndsAtFirst plan computed (computed + (tokens - cut)) := by
    refine ⟨by omega, by omega, fun key hkey hbehind => hfirst hpolicy key hkey ?_⟩
    rwa [Nat.add_sub_cancel]
  obtain ⟨step, hstep, hsize, -, hpoints⟩ := sendStep_spec hbs hplan hends
  refine ⟨step, ?_, hsize ▸ hends, ?_⟩
  · unfold nextStep
    refine bind_eq_ok.mpr ⟨tokens, htokens, ?_⟩
    rw [if_neg hpos]
    exact bind_eq_ok.mpr ⟨_, hcap, bind_eq_ok.mpr ⟨step, hstep, rfl⟩⟩
  · rw [hsize]
    exact hpoints

/-- The states behind the context are not captured by the steps in front of it, and a step captures
the one at its end. -/
theorem count_captured_append (hplan : r.Planned plan)
    (steps : List (PrefillStep δ)) {step : PrefillStep δ} {context stop : ℕ}
    (hends : r.EndsAtFirst plan context stop)
    (hpoints : step.capturePoints = (plan.captureTargets.filter
      (·.1 * r.cfg.blockSize = stop)).map (step.queryLen, ·))
    (hsteps : ∀ key ∈ plan.captureTargets,
      (captured steps).count key = if key.1 * r.cfg.blockSize ≤ context then 1 else 0) :
    ∀ key ∈ plan.captureTargets,
      (captured (steps ++ [step])).count key = if key.1 * r.cfg.blockSize ≤ stop then 1 else 0 := by
  intro key hkey
  have hself : step.capturePoints.map (·.2)
      = plan.captureTargets.filter (·.1 * r.cfg.blockSize = stop) := by
    rw [hpoints, List.map_map]
    exact List.map_id _
  have hnodup : (plan.captureTargets.filter (·.1 * r.cfg.blockSize = stop)).Nodup :=
    (List.Nodup.of_map _ hplan.nodup).filter _
  have hcount : (step.capturePoints.map (·.2)).count key
      = if key.1 * r.cfg.blockSize = stop then 1 else 0 := by
    rw [hself]
    split
    · next hat =>
      exact List.count_eq_one_of_mem hnodup (List.mem_filter.mpr ⟨hkey, decide_eq_true hat⟩)
    · next hnot =>
      refine List.count_eq_zero.mpr fun hmem => hnot ?_
      exact of_decide_eq_true (List.mem_filter.mp hmem).2
  unfold captured at hsteps ⊢
  rw [List.flatMap_append, List.count_append, hsteps key hkey, List.flatMap_singleton, hcount]
  have hlt := hends.lt
  cases Nat.lt_or_ge context (key.1 * r.cfg.blockSize) with
  | inl hbehind =>
    have hle := hends.first key hkey hbehind
    rw [if_neg (Nat.not_le.mpr hbehind), Nat.zero_add]
    exact if_congr ⟨Nat.le_of_eq, fun h => Nat.le_antisymm h hle⟩ rfl rfl
  | inr hpassed =>
    rw [if_pos hpassed, if_neg (by omega), if_pos (by omega)]

/-- What holds after every step. -/
structure Progress (r : Prompt δ) (plan : PrefillPlan δ) (steps : List (PrefillStep δ))
    (computed : ℕ) : Prop where
  planned : r.Planned plan
  pos : 0 < computed
  le_len : computed ≤ r.promptLen
  progress : ∀ step ∈ steps, 0 < step.tokenChunkSize
  whole : ∀ step ∈ steps, ∀ point ∈ step.capturePoints, point.1 = step.queryLen
  once : ∀ key ∈ plan.captureTargets,
    (captured steps).count key = if key.1 * r.cfg.blockSize ≤ computed then 1 else 0

omit [DecidableEq δ] in
theorem whole_of_eq {step : PrefillStep δ} {keys : List (GdnPrefixKey δ)}
    (hpoints : step.capturePoints = keys.map (step.queryLen, ·)) :
    ∀ point ∈ step.capturePoints, point.1 = step.queryLen := by
  intro point hpoint
  rw [hpoints] at hpoint
  obtain ⟨key, -, rfl⟩ := List.mem_map.mp hpoint
  rfl

theorem Run.progress (hpolicy : r.policy.policy = .admission64)
    (halign : gdnRestoreAlignment r.cfg.restoreMode r.cfg.blockSize r.cfg.maxNumBatchedTokens
      = .ok r.cfg.replayAlignment)
    (hlen : r.blockHashes.length = r.promptLen / r.cfg.blockSize)
    (hcold : ∀ key, ¬ r.Restorable key) {steps : List (PrefillStep δ)}
    (h : r.Run plan steps computed) : r.Progress plan steps computed := by
  have hbs := (gdnRestoreAlignment_ok halign).1
  induction h with
  | @first batched step hstep =>
    obtain ⟨tokens, htokens, hrest⟩ := bind_eq_ok.mp hstep
    have hpos : tokens ≠ 0 := fun hzero => by
      rw [if_pos hzero] at hrest
      cases Except.ok.inj hrest
    obtain ⟨plan', step', hstep', hplan, hends, hpoints⟩ :=
      firstStep_spec hpolicy halign hlen hcold htokens hpos
    obtain ⟨rfl, rfl⟩ := Prod.mk.inj (Option.some.inj (Except.ok.inj (hstep'.symm.trans hstep)))
    have honce := count_captured_append hplan [] hends hpoints fun key hkey => by
      rw [if_neg (Nat.not_le.mpr (hplan.pos key hkey))]
      rfl
    exact {
      planned := hplan
      pos := hends.lt
      le_len := hends.le_len
      progress := fun _ hmem => List.mem_singleton.mp hmem ▸ hends.lt
      whole := fun _ hmem => List.mem_singleton.mp hmem ▸ whole_of_eq hpoints
      once := honce }
  | @next batched computed steps step hrun hlt hstep ih =>
    obtain ⟨tokens, htokens, hrest⟩ := bind_eq_ok.mp hstep
    have hpos : tokens ≠ 0 := fun hzero => by
      rw [if_pos hzero] at hrest
      cases Except.ok.inj hrest
    obtain ⟨step', hstep', hends, hpoints⟩ :=
      nextStep_spec hpolicy hbs ih.planned hlt htokens hpos
    obtain rfl := Option.some.inj (Except.ok.inj (hstep'.symm.trans hstep))
    have hprogress := hends.lt
    exact {
      planned := ih.planned
      pos := Nat.lt_of_lt_of_le ih.pos (Nat.le_add_right _ _)
      le_len := hends.le_len
      progress := fun s hmem => by
        cases List.mem_append.mp hmem with
        | inl hmem => exact ih.progress s hmem
        | inr hmem =>
          rw [List.mem_singleton.mp hmem]
          omega
      whole := fun s hmem => by
        cases List.mem_append.mp hmem with
        | inl hmem => exact ih.whole s hmem
        | inr hmem =>
          rw [List.mem_singleton.mp hmem]
          exact whole_of_eq hpoints
      once := count_captured_append ih.planned _ hends hpoints ih.once }

omit [DecidableEq δ] in
/-- A full budget is enough for a step. -/
theorem numNewTokens_ne_zero (hdvd : r.cfg.blockSize ∣ r.cfg.maxNumBatchedTokens)
    (hbudget : 0 < r.cfg.maxNumBatchedTokens) (hlt : computed < r.promptLen) :
    ∃ tokens, r.numNewTokens computed 0 = .ok tokens ∧ tokens ≠ 0 :=
  ⟨_, getNumNewTokens_eq hdvd (Nat.sub_pos_of_lt hlt),
    Nat.ne_of_gt (lt_min (Nat.sub_pos_of_lt hlt) hbudget)⟩

/-- Every run can be continued to the end of the prompt. -/
theorem Run.completes (hpolicy : r.policy.policy = .admission64)
    (halign : gdnRestoreAlignment r.cfg.restoreMode r.cfg.blockSize r.cfg.maxNumBatchedTokens
      = .ok r.cfg.replayAlignment)
    (hlen : r.blockHashes.length = r.promptLen / r.cfg.blockSize)
    (hcold : ∀ key, ¬ r.Restorable key) (hdvd : r.cfg.blockSize ∣ r.cfg.maxNumBatchedTokens)
    (hbudget : 0 < r.cfg.maxNumBatchedTokens) {steps : List (PrefillStep δ)}
    (h : r.Run plan steps computed) : ∃ more, r.Run plan (steps ++ more) r.promptLen := by
  have hbs := (gdnRestoreAlignment_ok halign).1
  -- by induction on the tokens that are left
  induction hleft : r.promptLen - computed using Nat.strong_induction_on generalizing steps computed
    with
  | _ left ih =>
    have hprogress := h.progress hpolicy halign hlen hcold
    cases Nat.lt_or_eq_of_le hprogress.le_len with
    | inl hlt =>
      obtain ⟨tokens, htokens, hpos⟩ := numNewTokens_ne_zero hdvd hbudget hlt
      obtain ⟨step, hstep, hends, -⟩ :=
        nextStep_spec hpolicy hbs hprogress.planned hlt htokens hpos
      have hbehind := hends.lt
      obtain ⟨more, hmore⟩ := ih _ (by omega) (.next h hlt hstep) rfl
      exact ⟨step :: more, by rwa [List.append_assoc] at hmore⟩
    | inr heq =>
      rw [← heq]
      exact ⟨[], by rwa [List.append_nil]⟩

end steps

/-- What the prefill of a prompt makes of the states that it plans to capture: a step in which there
is budget raises no error and makes progress, and the prefill can be continued to the end of the
prompt and not further. The states to capture lie behind the restored one; each is captured once,
after the whole physical query of the step. -/
structure CapturesOnce (r : Prompt δ) : Prop where
  starts : ∀ batched tokens, r.numNewTokens 0 batched = .ok tokens → tokens ≠ 0 →
    ∃ plan step, r.firstStep batched = .ok (some (plan, step))
  continues : ∀ plan steps computed batched tokens, r.Run plan steps computed →
    computed < r.promptLen → r.numNewTokens computed batched = .ok tokens → tokens ≠ 0 →
      ∃ step, r.nextStep plan computed batched = .ok (some step)
  completes : ∀ plan steps computed, r.Run plan steps computed →
    computed ≤ r.promptLen ∧ ∃ more, r.Run plan (steps ++ more) r.promptLen
  progress : ∀ plan steps computed, r.Run plan steps computed →
    ∀ step ∈ steps, 0 < step.tokenChunkSize
  beyond : ∀ plan steps computed, r.Run plan steps computed → ∀ key ∈ plan.captureTargets,
    restoreTokens r.cfg.blockSize plan.restoreKey < key.1 * r.cfg.blockSize
  whole : ∀ plan steps computed, r.Run plan steps computed →
    ∀ step ∈ steps, ∀ point ∈ step.capturePoints, point.1 = step.queryLen
  once : ∀ plan steps, r.Run plan steps r.promptLen →
    ∀ key ∈ plan.captureTargets, (captured steps).count key = 1

/-- Under the policy admission64, for every prompt, resident set and live prefix and every mode with
an accepted alignment: whatever the budget leaves in each step, the prefill captures every planned
state once exactly when the prompt may start from no captured state. -/
theorem capturesOnce_iff (r : Prompt δ) (hpolicy : r.policy.policy = .admission64)
    (halign : gdnRestoreAlignment r.cfg.restoreMode r.cfg.blockSize r.cfg.maxNumBatchedTokens
      = .ok r.cfg.replayAlignment)
    (hlen : r.blockHashes.length = r.promptLen / r.cfg.blockSize)
    (hdvd : r.cfg.blockSize ∣ r.cfg.maxNumBatchedTokens)
    (hbudget : 0 < r.cfg.maxNumBatchedTokens) :
    r.CapturesOnce ↔ ∀ key, ¬ r.Restorable key := by
  constructor
  · intro h key hkey
    have hlt : 0 < r.promptLen := hkey.eligible.promptLen_pos
    obtain ⟨tokens, htokens, hpos⟩ := numNewTokens_ne_zero hdvd hbudget hlt
    obtain ⟨plan, step, hstep⟩ := h.starts 0 tokens htokens hpos
    cases hstep.symm.trans (firstStep_restorable hpolicy halign hlen htokens hpos hkey)
  · intro hcold
    have hbs := (gdnRestoreAlignment_ok halign).1
    have hprogress : ∀ {plan : PrefillPlan δ} {steps : List (PrefillStep δ)} {computed : ℕ},
        r.Run plan steps computed → r.Progress plan steps computed :=
      fun hrun => hrun.progress hpolicy halign hlen hcold
    refine ⟨fun batched tokens htokens hpos => ?_,
      fun plan steps computed batched tokens hrun hlt htokens hpos => ?_,
      fun plan steps computed hrun => ⟨(hprogress hrun).le_len,
        hrun.completes hpolicy halign hlen hcold hdvd hbudget⟩,
      fun plan steps computed hrun => (hprogress hrun).progress,
      fun plan steps computed hrun key hkey => ?_,
      fun plan steps computed hrun => (hprogress hrun).whole,
      fun plan steps hrun key hkey => ?_⟩
    · obtain ⟨plan, step, hstep, -⟩ := firstStep_spec hpolicy halign hlen hcold htokens hpos
      exact ⟨plan, step, hstep⟩
    · obtain ⟨step, hstep, -⟩ :=
        nextStep_spec hpolicy hbs (hprogress hrun).planned hlt htokens hpos
      exact ⟨step, hstep⟩
    · have hplan := (hprogress hrun).planned
      rw [hplan.cold]
      exact hplan.pos key hkey
    · have hlast := (hprogress hrun).planned.lt_len key hkey
      rw [(hprogress hrun).once key hkey, if_pos (Nat.le_of_lt hlast)]

/-- Fourteen tokens in blocks of two: four blocks are live, and no state is captured. -/
def coldPrompt : Prompt ℕ where
  cfg := {
    blockSize := 2
    maxNumBatchedTokens := 8
    restoreMode := .direct
    replayAlignment := 2 }
  policy := { policy := .admission64 }
  blockHashes := [0, 1, 2, 3, 4, 5, 6]
  computedBlockNums := [10, 11, 12, 13]
  promptLen := 14

/-- The states of four and six blocks are captured. -/
theorem capturesOnce_iff_cold :
    ∃ plan steps, coldPrompt.Run plan steps 14 ∧ plan.captureTargets = [(4, 3), (6, 5)] ∧
      ∀ key ∈ plan.captureTargets, (captured steps).count key = 1 := by
  have hstep : coldPrompt.firstStep 3 = .ok (some
      ({ restoreKey := none, captureTargets := [(4, 3), (6, 5)], chunkSize := 4, queryTokens := 4 },
        { tokenChunkSize := 4, context := 0, stop := 4, computedBlockNums := [],
          capturePoints := [] })) := by decide +kernel
  have honce := (capturesOnce_iff coldPrompt rfl (by decide +kernel) rfl (by decide) (by decide)).mpr
    fun key hkey => List.not_mem_nil hkey.resident
  obtain ⟨-, more, hrun⟩ := honce.completes _ _ _ (.first hstep)
  exact ⟨_, _, hrun, rfl, honce.once _ _ hrun⟩

/-- Two hundred tokens in blocks of sixteen: four blocks are computed, and their state is captured. -/
def residentPrompt : Prompt ℕ where
  cfg := {
    blockSize := 16
    maxNumBatchedTokens := 64
    restoreMode := .hybrid64
    replayAlignment := 64 }
  policy := { policy := .admission64, resident := [(4, 3)] }
  blockHashes := List.range 12
  computedBlockNums := [0, 1, 2, 3]
  promptLen := 200

/-- The first step of the prompt raises. -/
theorem residentPrompt_raises : ¬ ∀ r : Prompt ℕ, r.policy.policy = .admission64 →
    gdnRestoreAlignment r.cfg.restoreMode r.cfg.blockSize r.cfg.maxNumBatchedTokens
      = .ok r.cfg.replayAlignment →
    r.blockHashes.length = r.promptLen / r.cfg.blockSize →
    r.cfg.blockSize ∣ r.cfg.maxNumBatchedTokens → 0 < r.cfg.maxNumBatchedTokens →
    r.CapturesOnce := by
  intro hclaim
  have honce := hclaim residentPrompt rfl (by decide +kernel) rfl (by decide) (by decide)
  obtain ⟨plan, step, hstep⟩ := honce.starts 0 64 (by decide +kernel) (by decide)
  have hraises : residentPrompt.firstStep 0 = .error
      (.attributeError "'RequestMetrics' object has no attribute 'num_cached_tokens'") := by
    decide +kernel
  cases hstep.symm.trans hraises

end Prompt

end Ikun.GdnPrefix
