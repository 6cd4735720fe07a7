import Ikun.Scheduler.GdnPrefix

/-!
# Planning a prefill step

What the scheduler decides when it admits a prompt: the captured state to start from, the states to
capture, the tokens by which the prompt advances and the tokens that the model has to process.
-/

namespace Ikun.GdnPrefix

open Except

variable {δ : Type} [DecidableEq δ]

/-! ## The index of the captured states -/

/-- `_VALID_POLICIES`. -/
inductive CachePolicy
  | fine32
  | admission64
  | off
  deriving DecidableEq

/-- `GdnPrefixStatePolicy`. The residents are in the order of the `OrderedDict`. -/
structure GdnPrefixStatePolicy (δ : Type) where
  policy : CachePolicy
  resident : List (GdnPrefixKey δ) := []
  deriving DecidableEq

namespace GdnPrefixStatePolicy

variable (p : GdnPrefixStatePolicy δ)

/-- `capacity`. -/
def capacity : ℕ :=
  match p.policy with
  | .fine32 => 32
  | .admission64 => 64
  | .off => 0

/-- `_resident.move_to_end`. -/
def moveToEnd (key : GdnPrefixKey δ) : GdnPrefixStatePolicy δ :=
  { p with resident := p.resident.erase key ++ [key] }

/-- `should_capture_final`. -/
def shouldCaptureFinal (key : GdnPrefixKey δ) : Bool :=
  match p.policy with
  | .off => false
  | .admission64 => key ∉ p.resident
  | .fine32 => true

/-- `select_restore`. -/
def selectRestore (livePrefixKeys : List (GdnPrefixKey δ)) (maxBlocks : ℕ) :
    Option (GdnPrefixKey δ) × GdnPrefixStatePolicy δ :=
  if p.capacity = 0 ∨ maxBlocks = 0 then (none, p)
  else
    match ((livePrefixKeys.take maxBlocks).filter (· ∈ p.resident)).getLast? with
    | some best => (some best, p.moveToEnd best)
    | none => (none, p)

/-- `repeated_branch_candidate`. -/
def repeatedBranchCandidate (livePrefixKeys : List (GdnPrefixKey δ)) (maxBlocks : ℕ) :
    Option (GdnPrefixKey δ) :=
  if p.policy ≠ .admission64 ∨ maxBlocks = 0 then none
  else
    match livePrefixKeys[min livePrefixKeys.length maxBlocks - 1]? with
    | some candidate => if candidate ∈ p.resident then none else some candidate
    | none => none

/-- A round of `admit`: the key is the newest resident, and the oldest ones over the capacity are
evicted. -/
def admitKey (key : GdnPrefixKey δ) :
    Except Exn (List (GdnPrefixKey δ) × GdnPrefixStatePolicy δ) := do
  let _ ← makePrefixKey key.1 key.2
  let resident := (p.moveToEnd key).resident
  let excess := resident.length - p.capacity
  return (resident.take excess, { p with resident := resident.drop excess })

/-- The loop of `admit`. -/
def admitAll : List (GdnPrefixKey δ) → GdnPrefixStatePolicy δ →
    Except Exn (List (GdnPrefixKey δ) × GdnPrefixStatePolicy δ)
  | [], p => return ([], p)
  | key :: keys, p => do
    let admitted ← p.admitKey key
    let rest ← admitAll keys admitted.2
    return (admitted.1 ++ rest.1, rest.2)

/-- `admit`, for several keys: the evicted keys. -/
def admitKeys (keys : List (GdnPrefixKey δ)) :
    Except Exn (List (GdnPrefixKey δ) × GdnPrefixStatePolicy δ) :=
  if p.capacity = 0 then return ([], p) else admitAll keys p

end GdnPrefixStatePolicy

/-! ## Planning -/

/-- What the scheduler knows of its configuration here. -/
structure GdnConfig where
  blockSize : ℕ
  maxNumBatchedTokens : ℕ
  restoreMode : RestoreMode
  replayAlignment : ℕ

/-- The end of the logical chunk that starts at a checkpoint. -/
def logicalLimit (checkpointTokens remainingTokenBudget blockSize : ℕ) :
    Option ℕ → Except Exn ℕ
  | none => return checkpointTokens + remainingTokenBudget
  | some alignment => do
    raiseIf (alignment = 0 ∨ alignment % blockSize ≠ 0)
      (.valueError "logical_chunk_alignment must be a positive multiple of block_size")
    return min (checkpointTokens + remainingTokenBudget)
      ((checkpointTokens / alignment + 1) * alignment)

/-- `_plan_gdn_prefix_fast_forward`. -/
def planGdnPrefixFastForward (restoreKey : Option (GdnPrefixKey δ)) (numComputedTokens promptLen
    nominalChunkSize remainingTokenBudget blockSize : ℕ) (logicalChunkAlignment : Option ℕ) :
    Except Exn (ℕ × ℕ) :=
  let fallback := (nominalChunkSize, nominalChunkSize)
  match restoreKey with
  | none => return fallback
  | some key =>
    if numComputedTokens ≠ 0 ∨ promptLen = 0 ∨ nominalChunkSize = 0 ∨ remainingTokenBudget = 0 ∨
      blockSize = 0 then return fallback
    else do
      let checkpointTokens := key.1 * blockSize
      let limit ← logicalLimit checkpointTokens remainingTokenBudget blockSize logicalChunkAlignment
      let logicalChunkSize := min promptLen limit
      let physicalQueryTokens := logicalChunkSize - checkpointTokens
      if physicalQueryTokens = 0 ∨ physicalQueryTokens > remainingTokenBudget then return fallback
      else if logicalChunkSize ≤ nominalChunkSize ∧
        (logicalChunkAlignment = none ∨ physicalQueryTokens ≥ nominalChunkSize) then return fallback
      else return (logicalChunkSize, physicalQueryTokens)

/-- `_cap_gdn_capture_boundary`, for the only sequence of a request. -/
def capGdnCaptureBoundary (policy : CachePolicy) (targets : List (GdnPrefixKey δ)) (blockSize
    numComputedTokens tokenChunkSize physicalQueryTokens : ℕ) : Except Exn (ℕ × ℕ) :=
  if policy ≠ .admission64 ∨ targets = [] then return (tokenChunkSize, physicalQueryTokens)
  else do
    raiseIf (tokenChunkSize = 0 ∨ physicalQueryTokens = 0)
      (.runtimeError "GDN prefill token counts must be positive")
    let logicalEndTokens := numComputedTokens + tokenChunkSize
    let logicalStartTokens := logicalEndTokens - physicalQueryTokens
    raiseIf (logicalEndTokens < numComputedTokens + physicalQueryTokens)
      (.runtimeError "GDN physical query starts before scheduler progress")
    let cappedEndTokens ←
      capPrefillEndAtCaptureBoundary logicalStartTokens logicalEndTokens targets blockSize
    if cappedEndTokens = logicalEndTokens then return (tokenChunkSize, physicalQueryTokens)
    else do
      raiseIf (cappedEndTokens ≤ numComputedTokens ∨ cappedEndTokens ≤ logicalStartTokens)
        (.runtimeError "GDN capture boundary produced an empty step")
      return (cappedEndTokens - numComputedTokens, cappedEndTokens - logicalStartTokens)

/-- The tokens that `_get_num_new_tokens` gives a sequence with `numNewTokens` left, for chunked
prefill with prefix caching. -/
def getNumNewTokens (numNewTokens remainingTokenBudget tokenBudget blockSize : ℕ) :
    Except Exn ℕ := do
  raiseIf (numNewTokens = 0) .assertionError
  let remainder := tokenBudget % blockSize
  raiseIf (remainder ≠ 0)
    (.valueError (s!"When enabling chunked prefill and prefix caching, max_num_batched_tokens " ++
      s!"(chunk size) must be dividable by block size, but got chunk_size ({tokenBudget}) % " ++
      s!"block_size ({blockSize}) = {remainder}"))
  return if remainingTokenBudget < numNewTokens then remainingTokenBudget / blockSize * blockSize
    else numNewTokens

/-- The entries of a request in `_gdn_request_restore_keys` and `_gdn_request_capture_targets`, its
logical progress and its physical query. -/
structure PrefillPlan (δ : Type) where
  restoreKey : Option (GdnPrefixKey δ)
  captureTargets : List (GdnPrefixKey δ)
  chunkSize : ℕ
  queryTokens : ℕ
  deriving DecidableEq

/-- The planning of an admitted prompt in `_schedule_prefills`. -/
def planPrompt (cfg : GdnConfig) (policy : GdnPrefixStatePolicy δ) (blockHashes : List δ)
    (numComputedBlocks numComputedTokens promptLen numNewTokens remainingTokenBudget : ℕ) :
    Except Exn (PrefillPlan δ × GdnPrefixStatePolicy δ) := do
  let maxLiveBlocks := min numComputedBlocks
    (min blockHashes.length (← strictPrefixBlockCount promptLen cfg.blockSize))
  let directFinalKey ← finalCaptureKey blockHashes promptLen cfg.blockSize .direct cfg.blockSize
  let liveKeys ← (keysFromBlockHashes (blockHashes.take maxLiveBlocks)).filterM fun key =>
    restoreKeyIsEligible key promptLen cfg.blockSize cfg.restoreMode cfg.replayAlignment
      (if cfg.restoreMode = .hybrid64 then directFinalKey else none)
  let restored := policy.selectRestore liveKeys liveKeys.length
  let branchKey := restored.2.repeatedBranchCandidate liveKeys liveKeys.length
  let finalKey ← finalCaptureKey blockHashes promptLen cfg.blockSize cfg.restoreMode
    cfg.replayAlignment
  let finalTarget := finalKey.filter fun key =>
    key ∉ branchKey.toList ∧ restored.2.shouldCaptureFinal key
  let captureTargets := branchKey.toList ++ finalTarget.toList
  let forward ← planGdnPrefixFastForward restored.1 numComputedTokens promptLen
    numNewTokens remainingTokenBudget cfg.blockSize
    (if cfg.restoreMode = .hybrid64 then some cfg.maxNumBatchedTokens else none)
  let capped ← capGdnCaptureBoundary policy.policy captureTargets cfg.blockSize
    numComputedTokens forward.1 forward.2
  return ({
    restoreKey := restored.1
    captureTargets := captureTargets
    chunkSize := capped.1
    queryTokens := capped.2 }, restored.2)

/-! ## Restored tokens -/

/-- The tokens in front of a restored state. -/
def restoreTokens (blockSize : ℕ) : Option (GdnPrefixKey δ) → ℕ
  | some key => key.1 * blockSize
  | none => 0

/-- The computed blocks that a prefill step may skip. -/
def skippedBlocks (blockSize : ℕ) (restored : Option (GdnPrefixKey δ)) (numComputedTokens : ℕ)
    (rawComputedBlockNums : List ℕ) : Except Exn (List ℕ) :=
  match restored with
  | some key => do
    let blocks := rawComputedBlockNums.take key.1
    raiseIf (blocks.length ≠ key.1) (.runtimeError "GDN restore key exceeds the live KV prefix")
    return blocks
  | none => return rawComputedBlockNums.take (numComputedTokens / blockSize)

/-- The read of `seq_group.metrics.num_cached_tokens`: a `RequestMetrics` has no such field. -/
def numCachedTokens : Except Exn (Option ℕ) :=
  .error (.attributeError "'RequestMetrics' object has no attribute 'num_cached_tokens'")

/-- The update of `seq_group.metrics.num_cached_tokens`, which is read before it is written. -/
def recordCachedTokens (restoreTokens : ℕ) : Except Exn Unit :=
  if restoreTokens = 0 then return ()
  else do
    let _ ← numCachedTokens
    return ()

/-- Only a request that restores no tokens gets past its metrics. -/
theorem recordCachedTokens_ok {restoreTokens : ℕ} :
    recordCachedTokens restoreTokens = .ok () ↔ restoreTokens = 0 := by
  unfold recordCachedTokens
  split
  · next hzero => exact iff_of_true rfl hzero
  · next hne => exact iff_of_false (fun h => nomatch h) hne

/-! ## What a plan promises -/

section promises

variable {blockSize promptLen budget : ℕ} {restoreKey : Option (GdnPrefixKey δ)}

omit [DecidableEq δ] in
theorem getNumNewTokens_eq {numNew : ℕ} (hdvd : blockSize ∣ budget) (hpos : 0 < numNew) :
    getNumNewTokens numNew budget budget blockSize = .ok (min numNew budget) := by
  unfold getNumNewTokens
  rw [raiseIf_bind (Nat.ne_of_gt hpos)]
  dsimp only
  rw [raiseIf_bind fun h => h (Nat.mod_eq_zero_of_dvd hdvd)]
  split
  · next hlt => rw [Nat.div_mul_cancel hdvd, Nat.min_eq_right (Nat.le_of_lt hlt)]; rfl
  · next hge => rw [Nat.min_eq_left (Nat.le_of_not_lt hge)]; rfl

omit [DecidableEq δ] in
theorem getNumNewTokens_ok {numNew tokens : ℕ} (hdvd : blockSize ∣ budget)
    (h : getNumNewTokens numNew budget budget blockSize = .ok tokens) :
    0 < numNew ∧ tokens = min numNew budget := by
  obtain ⟨_, hraise, -⟩ := bind_eq_ok.mp h
  have hpos := Nat.pos_of_ne_zero (raiseIf_eq_ok.mp hraise)
  exact ⟨hpos, Except.ok.inj (h.symm.trans (getNumNewTokens_eq hdvd hpos))⟩

omit [DecidableEq δ] in
/-- From a restored state, the physical query reaches from the state to the end of the chunk, which
is a block boundary or the end of the prompt. -/
theorem planGdnPrefixFastForward_ok {logical physical : ℕ} (hbs : 0 < blockSize)
    (hbudget : 0 < budget) (hdvd : blockSize ∣ budget) (hprompt : 0 < promptLen)
    (hkey : restoreTokens blockSize restoreKey < promptLen)
    (h : planGdnPrefixFastForward restoreKey 0 promptLen (min promptLen budget) budget blockSize
      (some budget) = .ok (logical, physical)) :
    0 < physical ∧ logical = restoreTokens blockSize restoreKey + physical ∧ logical ≤ promptLen ∧
      (logical = promptLen ∨ blockSize ∣ logical) := by
  have hnominal : min promptLen budget = promptLen ∨ blockSize ∣ min promptLen budget := by
    rcases Nat.le_total promptLen budget with hle | hle
    · exact .inl (Nat.min_eq_left hle)
    · exact .inr (by rwa [Nat.min_eq_right hle])
  unfold planGdnPrefixFastForward at h
  cases restoreKey with
  | none =>
    obtain ⟨rfl, rfl⟩ := Prod.mk.inj (Except.ok.inj h)
    exact ⟨by omega, (Nat.zero_add _).symm, Nat.min_le_left _ _, hnominal⟩
  | some key =>
    have hcheck : key.1 * blockSize < promptLen := hkey
    dsimp only at h
    rw [if_neg (by omega)] at h
    obtain ⟨limit, hlimit, h⟩ := bind_eq_ok.mp h
    obtain ⟨-, -, hlimit⟩ := bind_eq_ok.mp hlimit
    obtain rfl := Except.ok.inj hlimit
    -- the limit lies behind the checkpoint, within the budget and at a block boundary
    have hnext : key.1 * blockSize < (key.1 * blockSize / budget + 1) * budget :=
      Nat.lt_mul_of_div_lt (Nat.lt_add_one _) hbudget
    have hblock : blockSize ∣ (key.1 * blockSize / budget + 1) * budget :=
      Nat.dvd_mul_left_of_dvd hdvd _
    have hfull : blockSize ∣ key.1 * blockSize + budget := Nat.dvd_add (Nat.dvd_mul_left _ _) hdvd
    generalize (key.1 * blockSize / budget + 1) * budget = next at h hnext hblock
    have hend : min promptLen (min (key.1 * blockSize + budget) next) = promptLen ∨
        blockSize ∣ min promptLen (min (key.1 * blockSize + budget) next) := by
      rcases Nat.le_total promptLen (min (key.1 * blockSize + budget) next) with hle | hle
      · exact .inl (Nat.min_eq_left hle)
      · rw [Nat.min_eq_right hle]
        rcases Nat.le_total (key.1 * blockSize + budget) next with hle' | hle'
        · exact .inr (by rwa [Nat.min_eq_left hle'])
        · exact .inr (by rwa [Nat.min_eq_right hle'])
    rw [if_neg (by omega)] at h
    split at h
    · next hshort =>
      -- the whole nominal chunk is the query, so nothing is restored
      obtain ⟨rfl, rfl⟩ := Prod.mk.inj (Except.ok.inj h)
      have hquery := hshort.2.resolve_left (Option.some_ne_none budget)
      have hzero : key.1 * blockSize = 0 := by omega
      exact ⟨by omega, by rw [restoreTokens, hzero, Nat.zero_add], Nat.min_le_left _ _, hnominal⟩
    · obtain ⟨rfl, rfl⟩ := Prod.mk.inj (Except.ok.inj h)
      have hrestore : restoreTokens blockSize (some key) = key.1 * blockSize := rfl
      exact ⟨by omega, by omega, Nat.min_le_left _ _, hend⟩

omit [DecidableEq δ] in
/-- Only the policy admission64 caps chunks. -/
theorem capGdnCaptureBoundary_of_ne {policy : CachePolicy} (hpolicy : policy ≠ .admission64)
    (targets : List (GdnPrefixKey δ)) (computed chunk query : ℕ) :
    capGdnCaptureBoundary policy targets blockSize computed chunk query = .ok (chunk, query) :=
  if_pos (.inl hpolicy)

omit [DecidableEq δ] in
/-- A capped chunk still ends behind the start of its query, at its old end or a block boundary. -/
theorem capGdnCaptureBoundary_ok {policy : CachePolicy} {targets : List (GdnPrefixKey δ)}
    {computed chunk query chunk' query' : ℕ} (hpos : 0 < query) (hle : query ≤ chunk)
    (h : capGdnCaptureBoundary policy targets blockSize computed chunk query
      = .ok (chunk', query')) :
    computed + chunk < computed + chunk' + query ∧ chunk' ≤ chunk ∧
      (chunk' = chunk ∨ blockSize ∣ computed + chunk') := by
  unfold capGdnCaptureBoundary at h
  split at h
  · obtain ⟨rfl, rfl⟩ := Prod.mk.inj (Except.ok.inj h)
    exact ⟨by omega, Nat.le_refl _, .inl rfl⟩
  obtain ⟨-, -, h⟩ := bind_eq_ok.mp h
  obtain ⟨-, -, h⟩ := bind_eq_ok.mp h
  obtain ⟨capped, hcapped, h⟩ := bind_eq_ok.mp h
  obtain ⟨hstart, hstop, hend⟩ := capPrefillEndAtCaptureBoundary_ok hcapped (by omega)
  split at h
  · obtain ⟨rfl, rfl⟩ := Prod.mk.inj (Except.ok.inj h)
    exact ⟨by omega, Nat.le_refl _, .inl rfl⟩
  · next hne =>
    obtain ⟨_, hempty, h⟩ := bind_eq_ok.mp h
    have hempty' := raiseIf_eq_ok.mp hempty
    obtain ⟨rfl, rfl⟩ := Prod.mk.inj (Except.ok.inj h)
    have hsum : computed + (capped - computed) = capped := by omega
    rw [hsum]
    exact ⟨by omega, by omega, .inr (hend.resolve_left hne)⟩

/-- The restored state is one of the live prefixes. -/
theorem selectRestore_mem {p : GdnPrefixStatePolicy δ} {liveKeys : List (GdnPrefixKey δ)}
    {maxBlocks : ℕ} {key : GdnPrefixKey δ}
    (h : (p.selectRestore liveKeys maxBlocks).1 = some key) : key ∈ liveKeys := by
  unfold GdnPrefixStatePolicy.selectRestore at h
  split at h
  · cases h
  · split at h
    · next best hbest =>
      obtain rfl := Option.some.inj h
      exact List.mem_of_mem_take (List.mem_of_mem_filter (List.mem_of_getLast? hbest))
    · cases h

/-- An eligible state lies in front of the end of the prompt. -/
theorem restoreKeyIsEligible_lt {key : GdnPrefixKey δ} {mode : RestoreMode} {alignment : ℕ}
    {directFinalKey : Option (GdnPrefixKey δ)}
    (h : restoreKeyIsEligible key promptLen blockSize mode alignment directFinalKey = .ok true) :
    key.1 * blockSize < promptLen := by
  obtain ⟨-, -, h⟩ := bind_eq_ok.mp h
  obtain ⟨-, -, h⟩ := bind_eq_ok.mp h
  dsimp only at h
  split at h
  · exact absurd (Except.ok.inj h) Bool.false_ne_true
  · next hne => omega

omit [DecidableEq δ] in
theorem mem_keysFromBlockHashes {blockHashes : List δ} {key : GdnPrefixKey δ}
    (h : key ∈ keysFromBlockHashes blockHashes) : 0 < key.1 ∧ key.1 ≤ blockHashes.length := by
  obtain ⟨i, hi, rfl⟩ := List.mem_mapIdx.mp h
  exact ⟨Nat.succ_pos i, hi⟩

/-- A plan restores the state of some computed blocks in front of the end of the prompt,
fast-forwards from it and caps the chunk. -/
theorem planPrompt_ok {cfg : GdnConfig} {policy policy' : GdnPrefixStatePolicy δ}
    {blockHashes : List δ} {numBlocks computed numNew : ℕ} {plan : PrefillPlan δ}
    (h : planPrompt cfg policy blockHashes numBlocks computed promptLen numNew budget
      = .ok (plan, policy')) :
    (∀ key, plan.restoreKey = some key →
      0 < key.1 ∧ key.1 ≤ numBlocks ∧ key.1 * cfg.blockSize < promptLen) ∧
      ∃ forward, planGdnPrefixFastForward plan.restoreKey computed promptLen numNew budget
          cfg.blockSize (if cfg.restoreMode = .hybrid64 then some cfg.maxNumBatchedTokens else none)
            = .ok forward ∧
        capGdnCaptureBoundary policy.policy plan.captureTargets cfg.blockSize computed
          forward.1 forward.2 = .ok (plan.chunkSize, plan.queryTokens) := by
  obtain ⟨strict, hstrict, h⟩ := bind_eq_ok.mp h
  obtain ⟨directFinalKey, -, h⟩ := bind_eq_ok.mp h
  obtain ⟨liveKeys, hlive, h⟩ := bind_eq_ok.mp h
  obtain ⟨finalKey, -, h⟩ := bind_eq_ok.mp h
  obtain ⟨forward, hforward, h⟩ := bind_eq_ok.mp h
  obtain ⟨capped, hcap, h⟩ := bind_eq_ok.mp h
  obtain ⟨rfl, rfl⟩ := Prod.mk.inj (Except.ok.inj h)
  refine ⟨fun key hkey => ?_, forward, hforward, hcap⟩
  obtain ⟨hmem, heligible⟩ := (mem_of_filterM_ok hlive).mp (selectRestore_mem hkey)
  obtain ⟨hpos, hle⟩ := mem_keysFromBlockHashes hmem
  rw [List.length_take] at hle
  exact ⟨hpos, by omega, restoreKeyIsEligible_lt heligible⟩

end promises

end Ikun.GdnPrefix
