import Ikun.Scheduler.GdnPlan

/-!
# Segments of fast-forwarded prefills

A layer divides the tokens of a step at the captured positions, so where a prompt is divided depends
on the steps it is prefilled in. `canonicalDirectSegmentOffsets` asks for further divisions, such
that a prompt that starts from a restored state is divided like in a run without restored states
(the cold run).

It rebuilds the boundaries of the cold run from the end of the step. For an end that is neither the
end of a step of the cold run nor of the prompt it adds a boundary that the cold run does not have:
`reproducesCold_iff` says when a step has the boundaries of the cold run.
-/

namespace Ikun.GdnPrefix

open Except

variable {δ : Type} [DecidableEq δ]

/-! ## A prompt alone -/

/-- A prompt that is the only one in the engine: the configuration and the index of captured states
when it is admitted, the hashes of its full blocks, how many blocks are computed, its length. -/
structure SoloPrompt (δ : Type) where
  cfg : GdnConfig
  policy : GdnPrefixStatePolicy δ
  blockHashes : List δ
  numComputedBlocks : ℕ
  promptLen : ℕ

namespace SoloPrompt

variable (r : SoloPrompt δ)

/-- The plan of `_schedule_prefills`. -/
def plan : Except Exn (PrefillPlan δ × GdnPrefixStatePolicy δ) := do
  let numNewTokens ← getNumNewTokens r.promptLen r.cfg.maxNumBatchedTokens
    r.cfg.maxNumBatchedTokens r.cfg.blockSize
  planPrompt r.cfg r.policy r.blockHashes r.numComputedBlocks 0 r.promptLen numNewTokens
    r.cfg.maxNumBatchedTokens

/-- The chunk of `_schedule_running`, after `numComputedTokens` tokens. -/
def runningChunk (captureTargets : List (GdnPrefixKey δ)) (numComputedTokens : ℕ) :
    Except Exn ℕ := do
  let numRunningTokens ← getNumNewTokens (r.promptLen - numComputedTokens)
    r.cfg.maxNumBatchedTokens r.cfg.maxNumBatchedTokens r.cfg.blockSize
  let (numRunningTokens, _) ← capGdnCaptureBoundary r.policy.policy captureTargets
    r.cfg.blockSize numComputedTokens numRunningTokens numRunningTokens
  return numRunningTokens

/-- The steps in which the prompt is prefilled: physical context and logical end. -/
inductive Step (r : SoloPrompt δ) : ℕ → ℕ → Prop
  | first {plan : PrefillPlan δ} {policy : GdnPrefixStatePolicy δ}
      (hplan : r.plan = .ok (plan, policy)) :
      Step r (restoreTokens r.cfg.blockSize plan.restoreKey) plan.chunkSize
  | next {plan : PrefillPlan δ} {policy : GdnPrefixStatePolicy δ} {context stop chunk : ℕ}
      (hplan : r.plan = .ok (plan, policy)) (hstep : Step r context stop)
      (hlt : stop < r.promptLen) (hchunk : r.runningChunk plan.captureTargets stop = .ok chunk) :
      Step r stop (stop + chunk)

/-- The run of the prompt without restored states, under the policy fine32 and the mode direct. -/
def cold : SoloPrompt δ :=
  { r with
    cfg := { r.cfg with restoreMode := .direct, replayAlignment := r.cfg.blockSize }
    policy := { policy := .fine32 }
    numComputedBlocks := 0 }

/-- Where the cold run divides the prompt: the ends of its steps in front of the end of the prompt
and the states that it captures. -/
def ColdBoundary (boundary : ℕ) : Prop :=
  ∃ context stop, r.cold.Step context stop ∧
    (boundary = stop ∧ stop < r.promptLen ∨
      ∃ key, finalCaptureKey r.blockHashes stop r.cfg.blockSize .direct r.cfg.blockSize
        = .ok (some key) ∧ boundary = key.1 * r.cfg.blockSize)

/-- The offsets of a step are the boundaries of the cold run inside the step. -/
def ReproducesCold (context stop : ℕ) : Prop :=
  ∃ offsets, canonicalDirectSegmentOffsets r.blockHashes context stop r.cfg.blockSize
      r.cfg.maxNumBatchedTokens = .ok offsets ∧
    ∀ boundary, (∃ offset ∈ offsets, boundary = context + offset) ↔
      r.ColdBoundary boundary ∧ context < boundary ∧ boundary < stop

/-! ## Boundaries -/

section boundaries

variable {blockSize tokens : ℕ}

/-- The position at which the direct mode captures a state for a step end. -/
def captureTokens (tokens blockSize : ℕ) : ℕ := directBlockCount tokens blockSize * blockSize

/-- In front of a block boundary, the state is captured one block earlier. -/
theorem captureTokens_of_dvd (hbs : 2 ≤ blockSize) (hdvd : blockSize ∣ tokens)
    (hpos : 0 < tokens) : captureTokens tokens blockSize = tokens - blockSize := by
  obtain ⟨n, rfl⟩ := hdvd
  obtain ⟨n, rfl⟩ := Nat.exists_eq_add_one_of_ne_zero (Nat.ne_of_gt (Nat.pos_of_mul_pos_left hpos))
  have hdiv : (blockSize * (n + 1) - 1) / blockSize = n := by
    have hsplit : blockSize * (n + 1) - 1 = blockSize - 1 + blockSize * n := by
      rw [Nat.mul_succ]
      omega
    rw [hsplit, Nat.add_mul_div_left _ _ (by omega), Nat.div_eq_of_lt (by omega), Nat.zero_add]
  have hrest : blockSize * (n + 1) - n * blockSize = blockSize := by
    rw [Nat.mul_succ, Nat.mul_comm n, Nat.add_sub_cancel_left]
  unfold captureTokens directBlockCount gdnDirectMinReplayTokens
  rw [hdiv]
  simp only [hrest]
  rw [if_neg (by omega), Nat.mul_succ, Nat.mul_comm n, Nat.add_sub_cancel]

/-- Behind the captured position lie at least two tokens and at most a block and one token, unless
there is only one token. -/
theorem captureTokens_spec (hbs : 2 ≤ blockSize) (hpos : 0 < tokens) :
    ∃ n, captureTokens tokens blockSize = blockSize * n ∧ tokens ≤ blockSize * n + blockSize + 1 ∧
      (blockSize * n + 2 ≤ tokens ∨ tokens = 1 ∧ n = 0) := by
  have hdiv := Nat.div_add_mod (tokens - 1) blockSize
  have hmod := Nat.mod_lt (tokens - 1) (show 0 < blockSize by omega)
  unfold captureTokens directBlockCount gdnDirectMinReplayTokens
  generalize (tokens - 1) / blockSize = q at hdiv ⊢
  generalize (tokens - 1) % blockSize = rest at hdiv hmod
  dsimp only
  rw [Nat.mul_comm q]
  split
  · next h =>
    -- only one token would be left
    obtain ⟨q, rfl⟩ := Nat.exists_eq_add_one_of_ne_zero (Nat.ne_of_gt h.1)
    rw [Nat.mul_succ] at hdiv h
    exact ⟨q, Nat.mul_comm _ _, by omega, .inl (by omega)⟩
  · next h =>
    refine ⟨q, Nat.mul_comm _ _, by omega, ?_⟩
    cases q with
    | zero => omega
    | succ q =>
      rw [Nat.mul_succ] at hdiv h ⊢
      omega

/-- The state of a later end is captured behind a block boundary, or one block in front of it when
only one token follows. -/
theorem captureTokens_of_lt (hbs : 2 ≤ blockSize) {stop : ℕ} (hdvd : blockSize ∣ stop)
    (hlt : stop < tokens) :
    stop ≤ captureTokens tokens blockSize ∨
      captureTokens tokens blockSize = stop - blockSize ∧ tokens = stop + 1 := by
  obtain ⟨m, rfl⟩ := hdvd
  obtain ⟨n, hn, hle, -⟩ := captureTokens_spec hbs (show 0 < tokens by omega)
  rw [hn]
  rcases Nat.lt_or_ge n m with hnm | hmn
  · have hmul := Nat.mul_le_mul_left blockSize hnm
    rw [Nat.mul_succ] at hmul
    exact .inr ⟨by omega, by omega⟩
  · exact .inl (Nat.mul_le_mul_left blockSize hmn)

/-- Two tokens are left to replay. -/
theorem captureTokens_add_two_le (hbs : 2 ≤ blockSize) (htwo : 2 ≤ tokens) :
    captureTokens tokens blockSize + 2 ≤ tokens := by
  obtain ⟨n, hn, -, hge⟩ := captureTokens_spec hbs (show 0 < tokens by omega)
  rw [hn]
  exact hge.resolve_right fun h => absurd h.1 (by omega)

/-- The boundaries that a cold run of chunks of `chunkTokens` tokens has up to an end: the ends of
its steps in front of that end, and the captured positions of these ends and of that end. -/
def DirectBoundary (chunkTokens blockSize last boundary : ℕ) : Prop :=
  0 < boundary ∧ (boundary < last ∧ chunkTokens ∣ boundary ∨
    ∃ stop, (stop = last ∨ 0 < stop ∧ stop < last ∧ chunkTokens ∣ stop) ∧
      boundary = captureTokens stop blockSize)

variable {chunkTokens context stop promptLen : ℕ}

/-- When an end has the boundaries of the cold run behind a context. -/
def HasColdBoundaries (chunkTokens blockSize context stop promptLen : ℕ) : Prop :=
  stop = promptLen ∨ stop + 1 = promptLen ∨ chunkTokens ∣ stop ∨ chunkTokens ∣ stop - blockSize ∨
    stop ≤ context + blockSize

instance : Decidable (HasColdBoundaries chunkTokens blockSize context stop promptLen) :=
  inferInstanceAs (Decidable (_ ∨ _))

/-- Every boundary of the cold run in front of an end is rebuilt from that end. -/
theorem directBoundary_of_cold (hbs : 2 ≤ blockSize) (hpos : 0 < stop)
    (hle : stop ≤ promptLen) (hstop : stop = promptLen ∨ blockSize ∣ stop) {boundary : ℕ}
    (h : DirectBoundary chunkTokens blockSize promptLen boundary)
    (hlt : boundary < stop) : DirectBoundary chunkTokens blockSize stop boundary := by
  obtain ⟨hb, ⟨-, hdvd⟩ | ⟨x, hx, rfl⟩⟩ := h
  · exact ⟨hb, .inl ⟨hlt, hdvd⟩⟩
  rcases hstop with rfl | hdvd
  · exact ⟨hb, .inr ⟨x, hx, rfl⟩⟩
  refine ⟨hb, .inr ?_⟩
  rcases Nat.lt_or_ge x stop with hxlt | hxge
  · -- an earlier end of a step
    rcases hx with rfl | ⟨hxpos, -, hxdvd⟩
    · exact absurd hle (by omega)
    · exact ⟨x, .inr ⟨hxpos, hxlt, hxdvd⟩, rfl⟩
  · -- a later end: its state can only be captured one block in front of this end
    refine ⟨stop, .inl rfl, ?_⟩
    rcases Nat.lt_or_eq_of_le hxge with hxgt | rfl
    · rcases captureTokens_of_lt hbs hdvd hxgt with hge | ⟨heq, -⟩
      · omega
      · rw [heq, captureTokens_of_dvd hbs hdvd hpos]
    · rfl

/-- The state captured for an end inside the prompt is captured in the cold run too when the end is
one of those listed. -/
theorem directBoundary_of_end (hbs : 2 ≤ blockSize) (hpos : 0 < stop) (hle : stop ≤ promptLen)
    (hstop : stop = promptLen ∨ blockSize ∣ stop)
    (h : HasColdBoundaries chunkTokens blockSize context stop promptLen)
    (hcontext : context < captureTokens stop blockSize) :
    DirectBoundary chunkTokens blockSize promptLen (captureTokens stop blockSize) := by
  have hb : 0 < captureTokens stop blockSize := by omega
  rcases hstop with rfl | hdvd
  · exact ⟨hb, .inr ⟨stop, .inl rfl, rfl⟩⟩
  have heq := captureTokens_of_dvd hbs hdvd hpos
  rcases h with rfl | rfl | hend | hblock | hshort
  · exact ⟨hb, .inr ⟨stop, .inl rfl, rfl⟩⟩
  · have htwo : captureTokens (stop + 1) blockSize + 2 ≤ stop + 1 :=
      captureTokens_add_two_le hbs (by omega)
    obtain hge | ⟨hlast, -⟩ := captureTokens_of_lt hbs hdvd (Nat.lt_add_one stop)
    · omega
    · exact ⟨hb, .inr ⟨stop + 1, .inl rfl, heq.trans hlast.symm⟩⟩
  · refine ⟨hb, .inr ⟨stop, ?_, rfl⟩⟩
    rcases Nat.lt_or_eq_of_le hle with hlt | rfl
    · exact .inr ⟨hpos, hlt, hend⟩
    · exact .inl rfl
  · exact ⟨hb, .inl ⟨by omega, heq ▸ hblock⟩⟩
  · omega

/-- The boundaries rebuilt from an end are those of the cold run exactly for the ends listed. -/
theorem directBoundary_iff (hbs : 2 ≤ blockSize) (hchunk : blockSize ∣ chunkTokens)
    (hlt : context < stop) (hle : stop ≤ promptLen) (hstop : stop = promptLen ∨ blockSize ∣ stop) :
    (∀ boundary, context < boundary → boundary < stop →
      (DirectBoundary chunkTokens blockSize stop boundary ↔
        DirectBoundary chunkTokens blockSize promptLen boundary))
      ↔ HasColdBoundaries chunkTokens blockSize context stop promptLen := by
  have hpos : 0 < stop := by omega
  constructor
  · intro h
    rcases hstop with rfl | hdvd
    · exact .inl rfl
    rcases Nat.lt_or_ge (context + blockSize) stop with hlong | hshort
    · -- the state captured for the end lies inside the step
      have heq := captureTokens_of_dvd hbs hdvd hpos
      have hself : DirectBoundary chunkTokens blockSize stop (stop - blockSize) :=
        ⟨by omega, .inr ⟨stop, .inl rfl, heq.symm⟩⟩
      obtain ⟨-, ⟨-, hend⟩ | ⟨x, hx, hxeq⟩⟩ := (h _ (by omega) (by omega)).mp hself
      · exact .inr (.inr (.inr (.inl hend)))
      · rcases hx with rfl | ⟨hxpos, -, hxdvd⟩
        · rcases Nat.lt_or_eq_of_le hle with hlt' | rfl
          · rcases captureTokens_of_lt hbs hdvd hlt' with hge | ⟨-, hone⟩
            · omega
            · exact .inr (.inl hone.symm)
          · exact .inl rfl
        · rw [captureTokens_of_dvd hbs (Nat.dvd_trans hchunk hxdvd) hxpos] at hxeq
          obtain rfl : stop = x := by omega
          exact .inr (.inr (.inl hxdvd))
    · exact .inr (.inr (.inr (.inr hshort)))
  · intro h boundary hcontext hboundary
    constructor
    · rintro ⟨hb, ⟨-, hdvd⟩ | ⟨x, rfl | ⟨hxpos, hxlt, hxdvd⟩, rfl⟩⟩
      · exact ⟨hb, .inl ⟨by omega, hdvd⟩⟩
      · exact directBoundary_of_end hbs hpos hle hstop h hcontext
      · exact ⟨hb, .inr ⟨x, .inr ⟨hxpos, by omega, hxdvd⟩, rfl⟩⟩
    · intro hcold
      exact directBoundary_of_cold hbs hpos hle hstop hcold hboundary

/-- The offsets of a step in terms of boundaries. -/
theorem canonicalDirectSegmentOffsets_ok {δ : Type} {blockHashes : List δ} (hbs : 2 ≤ blockSize)
    (hchunk : blockSize ∣ chunkTokens) (hchunkPos : 0 < chunkTokens) (hlt : context < stop)
    (henough : (stop - 1) / blockSize ≤ blockHashes.length) :
    ∃ offsets, canonicalDirectSegmentOffsets blockHashes context stop blockSize chunkTokens
        = .ok offsets ∧
      ∀ boundary, (∃ offset ∈ offsets, boundary = context + offset) ↔
        DirectBoundary chunkTokens blockSize stop boundary ∧ context < boundary ∧
          boundary < stop := by
  have hends : ∀ x ∈ pyRange chunkTokens stop chunkTokens ++ [stop],
      (x - 1) / blockSize ≤ blockHashes.length := by
    intro x hx
    have hle : x ≤ stop := by
      rcases List.mem_append.mp hx with hx | hx
      · exact Nat.le_of_lt ((mem_pyRange hchunkPos).mp hx).2.1
      · exact Nat.le_of_eq (List.mem_singleton.mp hx)
    exact Nat.le_trans (Nat.div_le_div_right (Nat.sub_le_sub_right hle 1)) henough
  have hkeys := mapM_eq_ok (l := pyRange chunkTokens stop chunkTokens ++ [stop])
    (f := fun x => finalCaptureKey blockHashes x blockSize .direct blockSize)
    fun x hx => finalCaptureKey_direct (by omega) (hends x hx)
  unfold canonicalDirectSegmentOffsets
  rw [raiseIf_bind (by omega), raiseIf_bind (fun h => h (Nat.mod_eq_zero_of_dvd hchunk)),
    if_neg (Nat.not_le.mpr hlt)]
  dsimp only
  rw [hkeys]
  refine ⟨_, rfl, fun boundary => ?_⟩
  have hmem : boundary ∈ ((pyRange chunkTokens stop chunkTokens ++ [stop]).map
      fun x => directKey blockHashes x blockSize).filterMap (·.map (·.1 * blockSize))
        ++ pyRange chunkTokens stop chunkTokens ↔
      DirectBoundary chunkTokens blockSize stop boundary := by
    rw [List.mem_append, List.mem_filterMap, mem_pyRange hchunkPos]
    constructor
    · rintro (⟨key, hkey, hboundary⟩ | ⟨hb, hend, hdvd⟩)
      · obtain ⟨x, hx, rfl⟩ := List.mem_map.mp hkey
        obtain ⟨hne, rfl⟩ := (directKey_map (hends x hx)).mp hboundary
        refine ⟨Nat.mul_pos (Nat.pos_of_ne_zero hne) (by omega), .inr ⟨x, ?_, rfl⟩⟩
        rcases List.mem_append.mp hx with hx | hx
        · exact .inr ((mem_pyRange hchunkPos).mp hx)
        · exact .inl (List.mem_singleton.mp hx)
      · exact ⟨hb, .inl ⟨hend, hdvd⟩⟩
    · rintro ⟨hb, ⟨hend, hdvd⟩ | ⟨x, hx, rfl⟩⟩
      · exact .inr ⟨hb, hend, hdvd⟩
      · have hxmem : x ∈ pyRange chunkTokens stop chunkTokens ++ [stop] := by
          rcases hx with rfl | hx
          · exact List.mem_append_right _ (List.mem_singleton.mpr rfl)
          · exact List.mem_append_left _ ((mem_pyRange hchunkPos).mpr hx)
        have hne : directBlockCount x blockSize ≠ 0 := fun hzero => by
          rw [captureTokens, hzero, Nat.zero_mul] at hb
          exact Nat.lt_irrefl 0 hb
        exact .inl ⟨_, List.mem_map.mpr ⟨x, hxmem, rfl⟩,
          (directKey_map (hends x hxmem)).mpr ⟨hne, rfl⟩⟩
  simp only [List.mem_map, List.mem_filter, List.mem_insertionSort, List.mem_dedup]
  rw [← hmem]
  constructor
  · rintro ⟨offset, ⟨x, ⟨hx, hinside⟩, rfl⟩, rfl⟩
    have hinside' := of_decide_eq_true hinside
    rw [Nat.add_sub_cancel' (Nat.le_of_lt hinside'.1)]
    exact ⟨hx, hinside'⟩
  · rintro ⟨hx, hinside⟩
    exact ⟨_, ⟨boundary, ⟨hx, decide_eq_true hinside⟩, rfl⟩,
      (Nat.add_sub_cancel' (Nat.le_of_lt hinside.1)).symm⟩

end boundaries

/-! ## Steps of a prompt -/

/-- The scheduler as it is deployed, for a prompt with the hashes of its full blocks. -/
structure Deployed (r : SoloPrompt δ) : Prop where
  hybrid : r.cfg.restoreMode = .hybrid64
  blockSize_ge : 2 ≤ r.cfg.blockSize
  chunk_pos : 0 < r.cfg.maxNumBatchedTokens
  chunk_dvd : r.cfg.blockSize ∣ r.cfg.maxNumBatchedTokens
  hashes_length : r.blockHashes.length = r.promptLen / r.cfg.blockSize

/-- A step lies between block boundaries, or ends with the prompt. -/
structure StepBounds (r : SoloPrompt δ) (context stop : ℕ) : Prop where
  lt : context < stop
  le : stop ≤ r.promptLen
  stop_eq : stop = r.promptLen ∨ r.cfg.blockSize ∣ stop

variable {r : SoloPrompt δ}

/-- The first step goes from the restored state to the end of the chunk. -/
theorem Deployed.first (hr : r.Deployed) {plan : PrefillPlan δ} {policy : GdnPrefixStatePolicy δ}
    (hplan : r.plan = .ok (plan, policy)) :
    r.StepBounds (restoreTokens r.cfg.blockSize plan.restoreKey) plan.chunkSize := by
  obtain ⟨numNew, hnumNew, hplan⟩ := bind_eq_ok.mp hplan
  obtain ⟨hprompt, rfl⟩ := getNumNewTokens_ok hr.chunk_dvd hnumNew
  obtain ⟨hrestored, ⟨logical, physical⟩, hforward, hcap⟩ := planPrompt_ok hplan
  rw [if_pos hr.hybrid] at hforward
  have hbs := hr.blockSize_ge
  have hkey : restoreTokens r.cfg.blockSize plan.restoreKey < r.promptLen := by
    cases h : plan.restoreKey with
    | none => exact hprompt
    | some key => exact (hrestored key h).2.2
  obtain ⟨hphysical, hlogical, hle, hend⟩ := planGdnPrefixFastForward_ok (by omega) hr.chunk_pos
    hr.chunk_dvd hprompt hkey hforward
  obtain ⟨hlt, hcapped, hend'⟩ := capGdnCaptureBoundary_ok hphysical (by omega) hcap
  rw [Nat.zero_add] at hlt hend'
  refine ⟨by omega, by omega, ?_⟩
  rcases hend' with heq | hdvd
  · rw [heq]
    exact hend
  · exact .inr hdvd

omit [DecidableEq δ] in
/-- A later step goes from the end of the step before to the end of its chunk. -/
theorem Deployed.next (hr : r.Deployed) {targets : List (GdnPrefixKey δ)} {stop chunk : ℕ}
    (hlt : stop < r.promptLen) (hstop : r.cfg.blockSize ∣ stop)
    (hchunk : r.runningChunk targets stop = .ok chunk) : r.StepBounds stop (stop + chunk) := by
  obtain ⟨numNew, hnumNew, hchunk⟩ := bind_eq_ok.mp hchunk
  obtain ⟨hpos, rfl⟩ := getNumNewTokens_ok hr.chunk_dvd hnumNew
  obtain ⟨⟨capped, query⟩, hcap, hchunk⟩ := bind_eq_ok.mp hchunk
  obtain rfl := Except.ok.inj hchunk
  have hchunkPos := hr.chunk_pos
  obtain ⟨hcaplt, hcapped, hend⟩ := capGdnCaptureBoundary_ok (by omega) (Nat.le_refl _) hcap
  refine ⟨by omega, by omega, ?_⟩
  rcases hend with heq | hdvd
  · rw [heq]
    rcases Nat.le_total (r.promptLen - stop) r.cfg.maxNumBatchedTokens with hle | hle
    · exact .inl (by rw [Nat.min_eq_left hle]; omega)
    · rw [Nat.min_eq_right hle]
      exact .inr (Nat.dvd_add hstop hr.chunk_dvd)
  · exact .inr hdvd

theorem Deployed.stepBounds (hr : r.Deployed) {context stop : ℕ} (h : r.Step context stop) :
    r.StepBounds context stop := by
  induction h with
  | first hplan => exact hr.first hplan
  | next hplan hstep hlt hchunk ih =>
    exact hr.next hlt (ih.stop_eq.resolve_left (Nat.ne_of_lt hlt)) hchunk

/-! ## The cold run -/

omit [DecidableEq δ] in
theorem cold_policy_ne : r.cold.policy.policy ≠ .admission64 := fun h => nomatch h

theorem Deployed.cold_plan (hr : r.Deployed) {plan : PrefillPlan δ}
    {policy : GdnPrefixStatePolicy δ} (hplan : r.cold.plan = .ok (plan, policy)) :
    restoreTokens r.cfg.blockSize plan.restoreKey = 0 ∧
      plan.chunkSize = min r.promptLen r.cfg.maxNumBatchedTokens := by
  obtain ⟨numNew, hnumNew, hplan⟩ := bind_eq_ok.mp hplan
  obtain ⟨hprompt, rfl⟩ := getNumNewTokens_ok hr.chunk_dvd hnumNew
  obtain ⟨hrestored, forward, hforward, hcap⟩ := planPrompt_ok hplan
  have hnone : plan.restoreKey = none := by
    cases h : plan.restoreKey with
    | none => rfl
    | some key =>
      obtain ⟨hpos, hle, -⟩ := hrestored key h
      exact absurd hle (Nat.not_le.mpr hpos)
  rw [hnone] at hforward ⊢
  obtain rfl := Except.ok.inj hforward
  rw [capGdnCaptureBoundary_of_ne cold_policy_ne] at hcap
  exact ⟨rfl, (congrArg Prod.fst (Except.ok.inj hcap)).symm⟩

omit [DecidableEq δ] in
theorem Deployed.cold_chunk (hr : r.Deployed) (targets : List (GdnPrefixKey δ)) {stop : ℕ}
    (hlt : stop < r.promptLen) :
    r.cold.runningChunk targets stop
      = .ok (min (r.promptLen - stop) r.cfg.maxNumBatchedTokens) := by
  have hnew := getNumNewTokens_eq hr.chunk_dvd (Nat.sub_pos_of_lt hlt)
  refine bind_eq_ok.mpr ⟨_, hnew, ?_⟩
  rw [capGdnCaptureBoundary_of_ne cold_policy_ne]
  rfl

theorem Deployed.exists_cold_plan (hr : r.Deployed) (hprompt : 0 < r.promptLen) :
    ∃ plan, r.cold.plan = .ok plan := by
  have hbs : 0 < r.cfg.blockSize := Nat.lt_of_lt_of_le Nat.two_pos hr.blockSize_ge
  have hkey : ∀ alignment, finalCaptureKey r.blockHashes r.promptLen r.cfg.blockSize .direct
      alignment = .ok (directKey r.blockHashes r.promptLen r.cfg.blockSize) := by
    intro alignment
    refine finalCaptureKey_direct hbs ?_
    rw [hr.hashes_length]
    exact Nat.div_le_div_right (Nat.sub_le _ _)
  refine exists_bind_eq_ok (getNumNewTokens_eq hr.chunk_dvd hprompt) ?_
  refine exists_bind_eq_ok (strictPrefixBlockCount_eq hbs) ?_
  refine exists_bind_eq_ok (hkey _) ?_
  refine exists_bind_eq_ok (a := []) ?_ ?_
  · show (keysFromBlockHashes (r.blockHashes.take (min 0 _))).filterM _ = _
    rw [Nat.zero_min, List.take_zero]
    rfl
  refine exists_bind_eq_ok (hkey _) ?_
  refine exists_bind_eq_ok rfl ?_
  exact exists_bind_eq_ok (capGdnCaptureBoundary_of_ne cold_policy_ne _ _ _ _) ⟨_, rfl⟩

/-- A step of the cold run ends at the end of the prompt or after some full chunks. -/
theorem Deployed.cold_step_stop (hr : r.Deployed) {context stop : ℕ}
    (h : r.cold.Step context stop) :
    stop = r.promptLen ∨ 0 < stop ∧ stop < r.promptLen ∧ r.cfg.maxNumBatchedTokens ∣ stop := by
  have hchunkPos := hr.chunk_pos
  induction h with
  | first hplan =>
    obtain ⟨numNew, hnumNew, -⟩ := bind_eq_ok.mp hplan
    have hprompt := (getNumNewTokens_ok hr.chunk_dvd hnumNew).1
    have hprompt' : 0 < r.promptLen := hprompt
    rw [(hr.cold_plan hplan).2]
    rcases Nat.lt_or_ge r.cfg.maxNumBatchedTokens r.promptLen with hlt | hge
    · rw [Nat.min_eq_right (Nat.le_of_lt hlt)]
      exact .inr ⟨hchunkPos, hlt, Nat.dvd_refl _⟩
    · exact .inl (Nat.min_eq_left hge)
  | @next _ _ _ stop _ _ _ hlt hchunk ih =>
    have hlt' : stop < r.promptLen := hlt
    obtain rfl := Except.ok.inj (hchunk.symm.trans (hr.cold_chunk _ hlt'))
    obtain ⟨hpos, -, hdvd⟩ := ih.resolve_left (Nat.ne_of_lt hlt')
    rcases Nat.lt_or_ge r.cfg.maxNumBatchedTokens (r.promptLen - stop) with hlong | hshort
    · rw [Nat.min_eq_right (Nat.le_of_lt hlong)]
      exact .inr ⟨by omega, by omega, Nat.dvd_add hdvd (Nat.dvd_refl _)⟩
    · rw [Nat.min_eq_left hshort]
      exact .inl (by omega)

/-- After some full chunks, the cold run has a step that ends there. -/
theorem Deployed.exists_cold_step (hr : r.Deployed) (k : ℕ)
    (hlt : r.cfg.maxNumBatchedTokens * k < r.promptLen) :
    ∃ context, r.cold.Step context (min r.promptLen (r.cfg.maxNumBatchedTokens * (k + 1))) := by
  have hprompt : 0 < r.promptLen := by omega
  obtain ⟨⟨plan, policy⟩, hplan⟩ := hr.exists_cold_plan hprompt
  induction k with
  | zero =>
    rw [Nat.zero_add, Nat.mul_one, ← (hr.cold_plan hplan).2]
    exact ⟨_, .first hplan⟩
  | succ k ih =>
    rw [Nat.mul_succ] at hlt
    obtain ⟨context, hstep⟩ := ih (by omega)
    rw [Nat.mul_succ, Nat.min_eq_right (Nat.le_of_lt hlt)] at hstep
    have hnext := hr.cold_chunk plan.captureTargets hlt
    have hsum : min r.promptLen (r.cfg.maxNumBatchedTokens * (k + 1 + 1))
        = r.cfg.maxNumBatchedTokens * k + r.cfg.maxNumBatchedTokens
          + min (r.promptLen - (r.cfg.maxNumBatchedTokens * k + r.cfg.maxNumBatchedTokens))
              r.cfg.maxNumBatchedTokens := by
      rw [Nat.mul_succ, Nat.mul_succ]
      omega
    rw [hsum]
    exact ⟨_, .next hplan hstep hlt hnext⟩

/-- The ends of the steps of the cold run. -/
theorem Deployed.cold_step_iff (hr : r.Deployed) (hprompt : 0 < r.promptLen) {stop : ℕ} :
    (∃ context, r.cold.Step context stop) ↔
      stop = r.promptLen ∨ 0 < stop ∧ stop < r.promptLen ∧ r.cfg.maxNumBatchedTokens ∣ stop := by
  constructor
  · rintro ⟨context, hstep⟩
    exact hr.cold_step_stop hstep
  · rintro (rfl | ⟨hpos, hlt, k, rfl⟩)
    · -- the last step starts after all full chunks in front of the last token
      have hdiv := Nat.div_add_mod (r.promptLen - 1) r.cfg.maxNumBatchedTokens
      have hmod := Nat.mod_lt (r.promptLen - 1) hr.chunk_pos
      obtain ⟨context, hstep⟩ := hr.exists_cold_step
        ((r.promptLen - 1) / r.cfg.maxNumBatchedTokens) (by omega)
      rw [Nat.mul_succ, Nat.min_eq_left (by omega)] at hstep
      exact ⟨context, hstep⟩
    · obtain ⟨k, rfl⟩ := Nat.exists_eq_add_one_of_ne_zero
        (Nat.ne_of_gt (Nat.pos_of_mul_pos_left hpos))
      rw [← Nat.min_eq_right (Nat.le_of_lt hlt)]
      refine hr.exists_cold_step k ?_
      rw [Nat.mul_succ] at hlt
      omega

/-- The boundaries of the cold run. -/
theorem Deployed.coldBoundary_iff (hr : r.Deployed) (hprompt : 0 < r.promptLen) {boundary : ℕ} :
    r.ColdBoundary boundary ↔
      DirectBoundary r.cfg.maxNumBatchedTokens r.cfg.blockSize r.promptLen boundary := by
  have hbs : 0 < r.cfg.blockSize := Nat.lt_of_lt_of_le Nat.two_pos hr.blockSize_ge
  have henough : ∀ {stop}, stop = r.promptLen ∨ 0 < stop ∧ stop < r.promptLen ∧
      r.cfg.maxNumBatchedTokens ∣ stop → (stop - 1) / r.cfg.blockSize ≤ r.blockHashes.length := by
    intro stop hstop
    rw [hr.hashes_length]
    refine Nat.div_le_div_right ?_
    rcases hstop with rfl | ⟨-, hlt, -⟩
    · exact Nat.sub_le _ _
    · omega
  unfold ColdBoundary DirectBoundary
  constructor
  · rintro ⟨context, stop, hstep, ⟨rfl, hlt⟩ | ⟨key, hkey, rfl⟩⟩
    · obtain ⟨hpos, -, hdvd⟩ := (hr.cold_step_stop hstep).resolve_left (Nat.ne_of_lt hlt)
      exact ⟨hpos, .inl ⟨hlt, hdvd⟩⟩
    · have hstop := hr.cold_step_stop hstep
      rw [finalCaptureKey_direct hbs (henough hstop)] at hkey
      have hmap := congrArg (Option.map (·.1 * r.cfg.blockSize)) (Except.ok.inj hkey)
      obtain ⟨hne, heq⟩ := (directKey_map (henough hstop)).mp hmap
      have hcaptured : key.1 * r.cfg.blockSize = captureTokens stop r.cfg.blockSize := heq
      refine ⟨?_, .inr ⟨stop, hstop, hcaptured⟩⟩
      rw [hcaptured]
      exact Nat.mul_pos (Nat.pos_of_ne_zero hne) hbs
  · rintro ⟨hpos, ⟨hlt, hdvd⟩ | ⟨stop, hstop, rfl⟩⟩
    · obtain ⟨context, hstep⟩ := (hr.cold_step_iff hprompt).mpr (.inr ⟨hpos, hlt, hdvd⟩)
      exact ⟨context, _, hstep, .inl ⟨rfl, hlt⟩⟩
    · obtain ⟨context, hstep⟩ := (hr.cold_step_iff hprompt).mpr hstop
      have hne : directBlockCount stop r.cfg.blockSize ≠ 0 := fun hzero => by
        rw [captureTokens, hzero, Nat.zero_mul] at hpos
        exact Nat.lt_irrefl 0 hpos
      have hmap := (directKey_map (henough hstop)).mpr ⟨hne, rfl⟩
      obtain ⟨key, hkey, heq⟩ := Option.map_eq_some_iff.mp hmap
      refine ⟨context, stop, hstep, .inr ⟨key, ?_, heq.symm⟩⟩
      rw [finalCaptureKey_direct hbs (henough hstop), hkey]

/-! ## Cold boundaries of a step -/

/-- A step that the scheduler produces has the boundaries of the cold run exactly when it ends at
the end of the prompt or one token in front of it, at the end of a step of the cold run or one block
behind it, or is not longer than a block. -/
theorem reproducesCold_iff (hr : r.Deployed) {context stop : ℕ} (h : r.Step context stop) :
    r.ReproducesCold context stop ↔
      HasColdBoundaries r.cfg.maxNumBatchedTokens r.cfg.blockSize context stop r.promptLen := by
  have hbs := hr.blockSize_ge
  obtain ⟨hlt, hle, hstop⟩ := hr.stepBounds h
  have henough : (stop - 1) / r.cfg.blockSize ≤ r.blockHashes.length := by
    rw [hr.hashes_length]
    exact Nat.div_le_div_right (by omega)
  obtain ⟨offsets, hoffsets, hmem⟩ := canonicalDirectSegmentOffsets_ok hbs hr.chunk_dvd
    hr.chunk_pos hlt henough
  have hcold : ∀ {boundary}, r.ColdBoundary boundary ↔ DirectBoundary r.cfg.maxNumBatchedTokens
      r.cfg.blockSize r.promptLen boundary := hr.coldBoundary_iff (by omega)
  rw [← directBoundary_iff hbs hr.chunk_dvd hlt hle hstop]
  constructor
  · rintro ⟨offsets', hoffsets', hsame⟩ boundary hcontext hboundary
    obtain rfl := Except.ok.inj (hoffsets.symm.trans hoffsets')
    have hiff := (hmem boundary).symm.trans (hsame boundary)
    rw [hcold] at hiff
    exact ⟨fun hb => (hiff.mp ⟨hb, hcontext, hboundary⟩).1,
      fun hb => (hiff.mpr ⟨hb, hcontext, hboundary⟩).1⟩
  · intro hsame
    refine ⟨offsets, hoffsets, fun boundary => ?_⟩
    rw [hmem, hcold]
    exact and_congr_left fun hinside => hsame boundary hinside.1 hinside.2

/-- Fourteen tokens in blocks of two and chunks of eight, with no captured state. -/
def smallPrompt : SoloPrompt ℕ where
  cfg := {
    blockSize := 2
    maxNumBatchedTokens := 8
    restoreMode := .hybrid64
    replayAlignment := 64 }
  policy := { policy := .admission64 }
  blockHashes := [0, 1, 2, 3, 4, 5, 6]
  numComputedBlocks := 7
  promptLen := 14

theorem smallPrompt_deployed : smallPrompt.Deployed where
  hybrid := rfl
  blockSize_ge := Nat.le_refl 2
  chunk_pos := Nat.succ_pos 7
  chunk_dvd := ⟨4, rfl⟩
  hashes_length := show [0, 1, 2, 3, 4, 5, 6].length = 14 / 2 by decide

theorem smallPrompt_plan : smallPrompt.plan = .ok
    ({ restoreKey := none, captureTargets := [(6, 5)], chunkSize := 8, queryTokens := 8 },
      smallPrompt.policy) := by decide +kernel

/-- The first chunk of the prompt ends at a chunk boundary. -/
theorem reproducesCold_first :
    smallPrompt.Deployed ∧ smallPrompt.Step 0 8 ∧ smallPrompt.ReproducesCold 0 8 :=
  ⟨smallPrompt_deployed, .first smallPrompt_plan,
    (reproducesCold_iff smallPrompt_deployed (.first smallPrompt_plan)).mpr (by decide)⟩

theorem smallPrompt_captured : smallPrompt.Step 8 12 :=
  have hchunk : smallPrompt.runningChunk [(6, 5)] 8 = .ok 4 := by decide +kernel
  .next smallPrompt_plan (.first smallPrompt_plan) (by decide) hchunk

/-- The step that stops where the last state is captured is divided one block in front of its end,
which the cold run is not. -/
theorem capturedStep_divided :
    smallPrompt.Deployed ∧ smallPrompt.Step 8 12 ∧
      canonicalDirectSegmentOffsets smallPrompt.blockHashes 8 12 2 8 = .ok [2] ∧
      ¬ smallPrompt.ReproducesCold 8 12 := by
  have hoffsets : canonicalDirectSegmentOffsets smallPrompt.blockHashes 8 12 2 8
      = .ok [2] := by decide +kernel
  refine ⟨smallPrompt_deployed, smallPrompt_captured, hoffsets, ?_⟩
  rintro ⟨offsets, hok, hsame⟩
  obtain rfl := Except.ok.inj (hoffsets.symm.trans hok)
  have hcold := ((hsame 10).mp ⟨2, List.mem_singleton.mpr rfl, rfl⟩).1
  rw [smallPrompt_deployed.coldBoundary_iff (by decide)] at hcold
  obtain ⟨-, ⟨-, hdvd⟩ | ⟨stop, rfl | ⟨hpos, hlt, k, rfl⟩, heq⟩⟩ := hcold
  · exact absurd hdvd (by decide)
  · exact absurd heq (by decide)
  · have hk : k = 1 := by
      have hlt' : 8 * k < 14 := hlt
      have hpos' : 0 < 8 * k := hpos
      omega
    subst hk
    exact absurd heq (by decide)

end SoloPrompt

end Ikun.GdnPrefix
