import Ikun.Scheduler.CaptureKeys

/-!
# What an admitted prompt captures

Under the policy admission64 a prompt captures at most two states: that of the longest live prefix,
if it is not resident, and the last one of the prompt. Both lie behind the state that it starts
from, at different boundaries, and every step ends at the first of them that it reaches
(`planPrompt_sound`).
-/

namespace Ikun.GdnPrefix

open Except

variable {δ : Type}

/-! ## The end of a step -/

section steps

variable {targets : List (GdnPrefixKey δ)} {start stop blockSize : ℕ}

/-- The rounds of `cap_prefill_end_at_capture_boundary`, for keys with blocks. -/
theorem foldlM_capAt (blockSize : ℕ) (hpos : ∀ key ∈ targets, 0 < key.1) (hlt : start < stop) :
    ∃ capped, targets.foldlM (capAt start blockSize) stop = .ok capped ∧ start < capped ∧
      capped ≤ stop ∧ (capped = stop ∨ ∃ key ∈ targets, capped = key.1 * blockSize) ∧
      ∀ key ∈ targets, start < key.1 * blockSize → capped ≤ key.1 * blockSize := by
  induction targets generalizing stop with
  | nil =>
    exact ⟨stop, rfl, hlt, Nat.le_refl _, .inl rfl, fun _ h => absurd h List.not_mem_nil⟩
  | cons key targets ih =>
    have hkey : makePrefixKey key.1 key.2 = .ok key :=
      if_neg (Nat.ne_of_gt (hpos key List.mem_cons_self))
    have hround : ∃ next, capAt start blockSize stop key = .ok next ∧ start < next ∧ next ≤ stop ∧
        (next = stop ∨ next = key.1 * blockSize) ∧
        (start < key.1 * blockSize → next ≤ key.1 * blockSize) := by
      unfold capAt
      rw [hkey]
      refine ⟨_, rfl, ?_⟩
      split
      · next h => exact ⟨h.1, Nat.le_of_lt h.2, .inr rfl, fun _ => Nat.le_refl _⟩
      · next h =>
        exact ⟨hlt, Nat.le_refl _, .inl rfl,
          fun hstart => Nat.le_of_not_lt fun h' => h ⟨hstart, h'⟩⟩
    obtain ⟨next, hnext, hlt', hle, hkept, hself⟩ := hround
    obtain ⟨capped, hcapped, hstart, hle', hend, hrest⟩ :=
      ih (fun key' h => hpos key' (List.mem_cons_of_mem key h)) hlt'
    refine ⟨capped, bind_eq_ok.mpr ⟨next, hnext, hcapped⟩, hstart, Nat.le_trans hle' hle, ?_, ?_⟩
    · cases hend with
      | inl heq =>
        cases hkept with
        | inl hstop => exact .inl (heq.trans hstop)
        | inr hboundary => exact .inr ⟨key, List.mem_cons_self, heq.trans hboundary⟩
      | inr h =>
        obtain ⟨key', hmem, heq⟩ := h
        exact .inr ⟨key', List.mem_cons_of_mem key hmem, heq⟩
    · intro key' hmem hbehind
      cases List.mem_cons.mp hmem with
      | inl heq => exact heq ▸ Nat.le_trans hle' (hself (heq ▸ hbehind))
      | inr hmem => exact hrest key' hmem hbehind

/-- A step is cut at the first boundary behind its start, and no error is raised. -/
theorem capGdnCaptureBoundary_spec (policy : CachePolicy) (computed : ℕ) {chunk query : ℕ}
    (hbs : 0 < blockSize) (hpos : ∀ key ∈ targets, 0 < key.1) (hquery : 0 < query)
    (hle : query ≤ chunk) :
    ∃ cut, capGdnCaptureBoundary policy targets blockSize computed chunk query
        = .ok (chunk - cut, query - cut) ∧ cut < query ∧
      (cut = 0 ∨ policy = .admission64 ∧
        ∃ key ∈ targets, computed + (chunk - cut) = key.1 * blockSize) ∧
      (policy = .admission64 → ∀ key ∈ targets, computed + chunk - query < key.1 * blockSize →
        computed + (chunk - cut) ≤ key.1 * blockSize) := by
  unfold capGdnCaptureBoundary
  split
  · next hnone =>
    refine ⟨0, rfl, hquery, .inl rfl, fun hpolicy key hkey => ?_⟩
    cases hnone with
    | inl h => exact absurd hpolicy h
    | inr h => exact absurd (h ▸ hkey) List.not_mem_nil
  · next hsome =>
    obtain ⟨capped, hcapped, hstart, hcappedLe, hend, hfirst⟩ := foldlM_capAt blockSize hpos
      (show computed + chunk - query < computed + chunk by omega)
    have hcap : capPrefillEndAtCaptureBoundary (computed + chunk - query) (computed + chunk) targets
        blockSize = .ok capped := by
      unfold capPrefillEndAtCaptureBoundary
      rw [raiseIf_bind (by omega), raiseIf_bind (Nat.ne_of_gt hbs)]
      exact hcapped
    refine ⟨computed + chunk - capped, ?_, by omega, ?_, fun _ key hkey hbehind => ?_⟩
    · rw [raiseIf_bind (by omega)]
      dsimp only
      rw [raiseIf_bind (by omega), hcap]
      change (if capped = computed + chunk then _ else _) = _
      split
      · next heq => rw [heq, Nat.sub_self]; rfl
      · rw [raiseIf_bind (by omega)]
        refine congrArg Except.ok (Prod.ext ?_ ?_)
        · change capped - computed = chunk - (computed + chunk - capped)
          clear hend
          omega
        · change capped - (computed + chunk - query) = query - (computed + chunk - capped)
          clear hend
          omega
    · cases hend with
      | inl heq => exact .inl (by omega)
      | inr h =>
        obtain ⟨key, hkey, heq⟩ := h
        exact .inr ⟨not_not.mp (not_or.mp hsome).1, key, hkey, by omega⟩
    · have hle' := hfirst key hkey hbehind
      omega

/-- The keys that a step has looked at have blocks. -/
theorem pos_of_foldlM_capAt {capped : ℕ}
    (h : targets.foldlM (capAt start blockSize) stop = .ok capped) : ∀ key ∈ targets, 0 < key.1 := by
  induction targets generalizing stop with
  | nil => exact fun _ h => absurd h List.not_mem_nil
  | cons key targets ih =>
    obtain ⟨next, hnext, hrest⟩ := bind_eq_ok.mp h
    obtain ⟨_, hmake, -⟩ := bind_eq_ok.mp hnext
    exact List.forall_mem_cons.mpr ⟨(makePrefixKey_ok hmake).2, ih hrest⟩

/-- A step is cut exactly when the boundary of a state to capture is inside. -/
theorem capGdnCaptureBoundary_cut {policy : CachePolicy} {computed chunk query chunk' query' : ℕ}
    (hbs : 0 < blockSize) (hquery : 0 < query) (hle : query ≤ chunk)
    (h : capGdnCaptureBoundary policy targets blockSize computed chunk query
      = .ok (chunk', query')) :
    ∃ cut, chunk' = chunk - cut ∧ query' = query - cut ∧ cut < query ∧
      (cut ≠ 0 → blockSize ∣ computed + chunk') ∧
      (cut ≠ 0 ↔ policy = .admission64 ∧ ∃ key ∈ targets,
        computed + chunk - query < key.1 * blockSize ∧ key.1 * blockSize < computed + chunk) := by
  cases Classical.em (policy ≠ .admission64 ∨ targets = []) with
  | inl hnone =>
    unfold capGdnCaptureBoundary at h
    rw [if_pos hnone] at h
    obtain ⟨rfl, rfl⟩ := Prod.mk.inj (Except.ok.inj h)
    refine ⟨0, rfl, rfl, hquery, fun hne => absurd rfl hne, fun hne => absurd rfl hne, ?_⟩
    intro ⟨hpolicy, key, hkey, _⟩
    cases hnone with
    | inl hne => exact absurd hpolicy hne
    | inr hempty => exact absurd (hempty ▸ hkey) List.not_mem_nil
  | inr hsome =>
    have hpolicy : policy = .admission64 := not_not.mp (not_or.mp hsome).1
    have hpos : ∀ key ∈ targets, 0 < key.1 := by
      have h' := h
      unfold capGdnCaptureBoundary at h'
      rw [if_neg hsome] at h'
      obtain ⟨_, -, h'⟩ := bind_eq_ok.mp h'
      obtain ⟨_, -, h'⟩ := bind_eq_ok.mp h'
      obtain ⟨capped, hcapped, -⟩ := bind_eq_ok.mp h'
      obtain ⟨_, -, hcapped⟩ := bind_eq_ok.mp hcapped
      obtain ⟨_, -, hcapped⟩ := bind_eq_ok.mp hcapped
      exact pos_of_foldlM_capAt hcapped
    obtain ⟨cut, hcut, hlt, hend, hfirst⟩ := capGdnCaptureBoundary_spec policy computed hbs hpos
      hquery hle
    obtain ⟨rfl, rfl⟩ := Prod.mk.inj (Except.ok.inj (h.symm.trans hcut))
    refine ⟨cut, rfl, rfl, hlt, fun hne => ?_, fun hne => ?_, fun hinside => ?_⟩
    · obtain ⟨-, key, -, heq⟩ := hend.resolve_left hne
      exact heq ▸ Nat.dvd_mul_left _ _
    · obtain ⟨-, key, hkey, heq⟩ := hend.resolve_left hne
      clear hend hfirst
      exact ⟨hpolicy, key, hkey, by omega, by omega⟩
    · obtain ⟨-, key, hkey, hbehind, hbefore⟩ := hinside
      have hle' := hfirst hpolicy key hkey hbehind
      omega

/-- The tokens that a sequence gets are its own and those that are left. -/
theorem getNumNewTokens_bounds {numNew remaining tokenBudget tokens : ℕ}
    (h : getNumNewTokens numNew remaining tokenBudget blockSize = .ok tokens) :
    0 < numNew ∧ blockSize ∣ tokenBudget ∧ tokens ≤ numNew ∧ tokens ≤ remaining := by
  obtain ⟨_, hpos, h⟩ := bind_eq_ok.mp h
  obtain ⟨_, hdvd, h⟩ := bind_eq_ok.mp h
  have htokens := Except.ok.inj h
  refine ⟨Nat.pos_of_ne_zero (raiseIf_eq_ok.mp hpos),
    Nat.dvd_of_mod_eq_zero (not_not.mp (raiseIf_eq_ok.mp hdvd)), ?_⟩
  have hfloor := Nat.div_mul_le_self remaining blockSize
  rw [← htokens]
  split
  · next hlt => exact ⟨Nat.le_trans hfloor (Nat.le_of_lt hlt), hfloor⟩
  · next hge => exact ⟨Nat.le_refl _, Nat.le_of_not_lt hge⟩

/-- Where a fast-forwarded step starts and ends, and what it costs. -/
theorem planGdnPrefixFastForward_spec {promptLen numNew remaining : ℕ}
    {restoreKey : Option (GdnPrefixKey δ)} {alignment : Option ℕ} (hbs : 0 < blockSize)
    (hpos : 0 < numNew) (hlen : numNew ≤ promptLen) (hrem : numNew ≤ remaining)
    (hkey : restoreTokens blockSize restoreKey < promptLen)
    (halign : ∀ a, alignment = some a → 0 < a ∧ blockSize ∣ a) :
    ∃ logical physical, planGdnPrefixFastForward restoreKey 0 promptLen numNew remaining blockSize
        alignment = .ok (logical, physical) ∧ 0 < physical ∧ physical ≤ remaining ∧
      restoreTokens blockSize restoreKey < logical ∧ logical ≤ promptLen ∧
      (physical = logical ∨ logical = restoreTokens blockSize restoreKey + physical) := by
  unfold planGdnPrefixFastForward
  cases restoreKey with
  | none => exact ⟨numNew, numNew, rfl, hpos, hrem, hpos, hlen, .inl rfl⟩
  | some key =>
    have hrestore : restoreTokens blockSize (some key) = key.1 * blockSize := rfl
    rw [hrestore] at hkey ⊢
    have hlimit : ∃ limit, logicalLimit (key.1 * blockSize) remaining blockSize alignment
        = .ok limit ∧ key.1 * blockSize < limit ∧ limit ≤ key.1 * blockSize + remaining := by
      unfold logicalLimit
      cases alignment with
      | none => exact ⟨_, rfl, by omega, Nat.le_refl _⟩
      | some a =>
        obtain ⟨hapos, hadvd⟩ := halign a rfl
        have hnext : key.1 * blockSize < (key.1 * blockSize / a + 1) * a :=
          Nat.lt_mul_of_div_lt (Nat.lt_add_one _) hapos
        have hvalid : ¬ (a = 0 ∨ a % blockSize ≠ 0) := fun h => by
          cases h with
          | inl h => exact Nat.ne_of_gt hapos h
          | inr h => exact h (Nat.mod_eq_zero_of_dvd hadvd)
        dsimp only
        rw [raiseIf_bind hvalid]
        exact ⟨_, rfl, lt_min (by omega) hnext, Nat.min_le_left _ _⟩
    obtain ⟨limit, hlimit, hbehind, hle⟩ := hlimit
    dsimp only
    rw [if_neg (by omega), hlimit]
    simp only [bind, Except.bind]
    rw [if_neg (by omega)]
    split
    · next hshort =>
      -- the nominal chunk reaches behind the checkpoint, so nothing is skipped
      exact ⟨numNew, numNew, rfl, hpos, hrem, by omega, hlen, .inl rfl⟩
    · exact ⟨_, _, rfl, by omega, by omega, by omega, Nat.min_le_left _ _, .inr (by omega)⟩

end steps

/-! ## The choice of the states -/

section choice

variable [DecidableEq δ] {blockHashes : List δ} {live : List (GdnPrefixKey δ)}
  {p : GdnPrefixStatePolicy δ} {mode : RestoreMode} {promptLen blockSize alignment : ℕ}

omit [DecidableEq δ] in
/-- The keys of a prompt are ordered by their blocks. -/
theorem pairwise_keysFromBlockHashes (blockHashes : List δ) :
    (keysFromBlockHashes blockHashes).Pairwise (·.1 < ·.1) := by
  unfold keysFromBlockHashes
  rw [List.pairwise_iff_getElem]
  intro i j hi hj hlt
  rw [List.getElem_mapIdx, List.getElem_mapIdx]
  exact Nat.succ_lt_succ hlt

omit [DecidableEq δ] in
theorem prefixKey_of_mem_take {n : ℕ} {key : GdnPrefixKey δ}
    (h : key ∈ keysFromBlockHashes (blockHashes.take n)) :
    key.1 ≤ n ∧ prefixKey blockHashes key.1 = some key := by
  obtain ⟨i, hi, rfl⟩ := List.mem_mapIdx.mp h
  rw [List.length_take] at hi
  refine ⟨Nat.succ_le_of_lt (Nat.lt_of_lt_of_le hi (Nat.min_le_left _ _)), ?_⟩
  unfold prefixKey
  dsimp only
  rw [if_neg (Nat.succ_ne_zero i), Nat.add_sub_cancel, List.getElem_take,
    List.getElem?_eq_getElem (Nat.lt_of_lt_of_le hi (Nat.min_le_right _ _))]
  rfl

/-- The live keys that are eligible: keys of the prompt in the order of their blocks, in front of the
last state of the prompt or at it. -/
structure LiveKeys (blockHashes : List δ) (mode : RestoreMode) (promptLen blockSize alignment n : ℕ)
    (live : List (GdnPrefixKey δ)) : Prop where
  sorted : live.Pairwise (·.1 < ·.1)
  prefixKey_eq : ∀ key ∈ live, prefixKey blockHashes key.1 = some key
  le_count : ∀ key ∈ live, key.1 ≤ n
  le_final : ∀ key ∈ live, key.1 ≤ captureBlockCount mode promptLen blockSize alignment
  lt_len : ∀ key ∈ live, key.1 * blockSize < promptLen

theorem MayRestore.lt_len {blockCount : ℕ} {isDirectFinal : Prop}
    (h : MayRestore mode promptLen blockSize alignment blockCount isDirectFinal) :
    blockCount * blockSize < promptLen := by
  cases mode with
  | direct =>
    have htwo : blockCount * blockSize + 2 ≤ promptLen := h
    omega
  | hybrid64 =>
    have htwo : blockCount * blockSize + 2 ≤ promptLen := h.1
    omega
  | chunk64 => exact h.1
  | aligned => exact h.1

theorem filterM_restoreKeyIsEligible (blockHashes : List δ) (mode : RestoreMode) (promptLen : ℕ)
    (hbs : 0 < blockSize) (hal : 0 < alignment) (hdvd : blockSize ∣ alignment) (n : ℕ) (directFinalKey : Option (GdnPrefixKey δ)) :
    ∃ live, (keysFromBlockHashes (blockHashes.take n)).filterM (fun key =>
        restoreKeyIsEligible key promptLen blockSize mode alignment directFinalKey) = .ok live ∧
      LiveKeys blockHashes mode promptLen blockSize alignment n live := by
  have hok : ∀ key ∈ keysFromBlockHashes (blockHashes.take n),
      restoreKeyIsEligible key promptLen blockSize mode alignment directFinalKey
        = .ok ((restoreKeyIsEligible key promptLen blockSize mode alignment
            directFinalKey).toOption.getD false) := by
    intro key hkey
    obtain ⟨eligible, heligible, -⟩ := restoreKeyIsEligible_eq mode promptLen directFinalKey
      (mem_keysFromBlockHashes hkey).1 hbs hal
    rw [heligible]
    rfl
  have hfilter := filterM_eq_ok hok
  refine ⟨_, hfilter, ?_⟩
  have hmay : ∀ key ∈ (keysFromBlockHashes (blockHashes.take n)).filter fun key =>
      (restoreKeyIsEligible key promptLen blockSize mode alignment
        directFinalKey).toOption.getD false,
      key ∈ keysFromBlockHashes (blockHashes.take n) ∧
        MayRestore mode promptLen blockSize alignment key.1 (some key = directFinalKey) := by
    intro key hkey
    obtain ⟨hmem, htrue⟩ := (mem_of_filterM_ok hfilter).mp hkey
    obtain ⟨eligible, heligible, hiff⟩ := restoreKeyIsEligible_eq mode promptLen directFinalKey
      (mem_keysFromBlockHashes hmem).1 hbs hal
    exact ⟨hmem, hiff.mp (Except.ok.inj (heligible.symm.trans htrue))⟩
  exact {
    sorted := (pairwise_keysFromBlockHashes _).filter _
    prefixKey_eq := fun key hkey => (prefixKey_of_mem_take (hmay key hkey).1).2
    le_count := fun key hkey => (prefixKey_of_mem_take (hmay key hkey).1).1
    le_final := fun key hkey => le_captureBlockCount hbs hal hdvd (hmay key hkey).2
    lt_len := fun key hkey => (hmay key hkey).2.lt_len }

omit [DecidableEq δ] in
/-- The last key has the most blocks. -/
theorem le_getLast {last key : GdnPrefixKey δ} (hsorted : live.Pairwise (·.1 < ·.1))
    (hlast : live.getLast? = some last) (hkey : key ∈ live) : key = last ∨ key.1 < last.1 := by
  obtain ⟨front, rfl⟩ := List.getLast?_eq_some_iff.mp hlast
  cases List.mem_append.mp hkey with
  | inl h => exact .inr ((List.pairwise_append.mp hsorted).2.2 key h last List.mem_cons_self)
  | inr h => exact .inl (List.mem_singleton.mp h)

/-- The restored state is the longest live one that is resident; it becomes the newest resident. -/
theorem selectRestore_spec (live : List (GdnPrefixKey δ)) (hcapacity : p.capacity ≠ 0) :
    (p.selectRestore live live.length).1 = (live.filter (· ∈ p.resident)).getLast? ∧
      (p.selectRestore live live.length).2.policy = p.policy ∧
      ∀ key, key ∈ (p.selectRestore live live.length).2.resident ↔ key ∈ p.resident := by
  unfold GdnPrefixStatePolicy.selectRestore
  split
  · next hnone =>
    have hempty : live = [] := List.eq_nil_of_length_eq_zero (hnone.resolve_left hcapacity)
    subst hempty
    exact ⟨rfl, rfl, fun _ => Iff.rfl⟩
  · rw [List.take_length]
    split
    · next best hbest =>
      refine ⟨hbest.symm, rfl, fun key => ?_⟩
      have hmem : best ∈ p.resident :=
        of_decide_eq_true (List.mem_filter.mp (List.mem_of_getLast? hbest)).2
      unfold GdnPrefixStatePolicy.moveToEnd
      dsimp only
      rw [List.mem_append, List.mem_singleton]
      cases eq_or_ne key best with
      | inl heq => exact ⟨fun _ => heq ▸ hmem, fun _ => .inr heq⟩
      | inr hne =>
        rw [List.mem_erase_of_ne hne]
        exact ⟨fun h => h.resolve_right hne, .inl⟩
    · next hnone => exact ⟨hnone.symm, rfl, fun _ => Iff.rfl⟩

/-- The branch to capture is the longest live one, if it is not resident. -/
theorem repeatedBranchCandidate_spec {branch : GdnPrefixKey δ} (hpolicy : p.policy = .admission64) :
    p.repeatedBranchCandidate live live.length = some branch ↔
      live.getLast? = some branch ∧ branch ∉ p.resident := by
  unfold GdnPrefixStatePolicy.repeatedBranchCandidate
  split
  · next hnone =>
    have hempty : live = [] :=
      List.eq_nil_of_length_eq_zero (hnone.resolve_left (not_not.mpr hpolicy))
    subst hempty
    exact iff_of_false (fun h => nomatch h) (fun h => nomatch h.1)
  · rw [Nat.min_self, ← List.getLast?_eq_getElem?]
    cases live.getLast? with
    | none => exact iff_of_false (fun h => nomatch h) (fun h => nomatch h.1)
    | some candidate =>
      dsimp only
      split
      · next hresident =>
        refine iff_of_false (fun h => nomatch h) fun h => ?_
        exact h.2 (Option.some.inj h.1 ▸ hresident)
      · next hnot =>
        exact ⟨fun h => ⟨h, Option.some.inj h ▸ hnot⟩, fun h => h.1⟩

/-- What a plan promises under the policy admission64: the blocks in front of the restored state are
computed; the states to capture lie behind it and in front of the end of the prompt, at different
boundaries; and the step ends behind the restored state, at the first of them at the latest. -/
structure PrefillPlan.Sound (plan : PrefillPlan δ) (blockSize numBlocks promptLen remaining : ℕ) :
    Prop where
  restored : ∀ key, plan.restoreKey = some key → key.1 ≤ numBlocks
  beyond : ∀ key ∈ plan.captureTargets,
    restoreTokens blockSize plan.restoreKey < key.1 * blockSize ∧ key.1 * blockSize < promptLen
  nodup : (plan.captureTargets.map (·.1)).Nodup
  behind : restoreTokens blockSize plan.restoreKey < plan.chunkSize
  le_len : plan.chunkSize ≤ promptLen
  first : ∀ key ∈ plan.captureTargets, plan.chunkSize ≤ key.1 * blockSize
  query_pos : 0 < plan.queryTokens
  query_le : plan.queryTokens ≤ remaining
  query_eq : plan.queryTokens = plan.chunkSize ∨
    plan.chunkSize = restoreTokens blockSize plan.restoreKey + plan.queryTokens

theorem nodup_map_toList {α β : Type} (f : α → β) (o : Option α) : (o.toList.map f).Nodup := by
  cases o with
  | none => exact List.nodup_nil
  | some a => exact List.nodup_singleton _

/-- The restored state, the branch and the last state of a prompt are at increasing boundaries. -/
theorem captureTargets_beyond (hbs : 0 < blockSize) {n : ℕ}
    (hlive : LiveKeys blockHashes mode promptLen blockSize alignment n live)
    (hpolicy : p.policy = .admission64) {finalKey : Option (GdnPrefixKey δ)}
    (hfinal : finalKey = prefixKey blockHashes (captureBlockCount mode promptLen blockSize alignment))
    (hfinalLt : ∀ key, finalKey = some key → key.1 * blockSize < promptLen) :
    let restored := p.selectRestore live live.length
    let branchKey := restored.2.repeatedBranchCandidate live live.length
    let targets := branchKey.toList ++ (finalKey.filter fun key =>
      key ∉ branchKey.toList ∧ restored.2.shouldCaptureFinal key).toList
    (∀ key, restored.1 = some key → key ∈ live) ∧
      (∀ key ∈ targets, restoreTokens blockSize restored.1 < key.1 * blockSize ∧
        key.1 * blockSize < promptLen) ∧
      (targets.map (·.1)).Nodup := by
  intro restored branchKey targets
  have hcapacity : p.capacity ≠ 0 := by
    unfold GdnPrefixStatePolicy.capacity
    rw [hpolicy]
    decide
  obtain ⟨hselected, hpolicy', hresident⟩ := selectRestore_spec live hcapacity
  have hrestored : ∀ key, restored.1 = some key → key ∈ live ∧ key ∈ p.resident := fun key hkey => by
    have hmem := List.mem_filter.mp (List.mem_of_getLast? (hselected.symm.trans hkey))
    exact ⟨hmem.1, of_decide_eq_true hmem.2⟩
  -- a key of the prompt with the blocks of a resident one is that resident
  have hbehind : ∀ key, prefixKey blockHashes key.1 = some key → key ∉ p.resident →
      (∀ c, restored.1 = some c → c.1 ≤ key.1) →
        restoreTokens blockSize restored.1 < key.1 * blockSize := by
    intro key hkey hnot hle
    cases hc : restored.1 with
    | none => exact Nat.mul_pos (prefixKey_fst hkey).2 hbs
    | some c =>
      have hne : c.1 ≠ key.1 := fun heq => by
        have hself := hlive.prefixKey_eq c (hrestored c hc).1
        rw [heq, hkey] at hself
        exact hnot (Option.some.inj hself ▸ (hrestored c hc).2)
      exact Nat.mul_lt_mul_of_pos_right (Nat.lt_of_le_of_ne (hle c hc) hne) hbs
  have hbranch : ∀ key, branchKey = some key → key ∈ live ∧
      restoreTokens blockSize restored.1 < key.1 * blockSize := by
    intro key hkey
    obtain ⟨hlast, hnot⟩ := (repeatedBranchCandidate_spec (hpolicy'.trans hpolicy)).mp hkey
    have hmem := List.mem_of_getLast? hlast
    refine ⟨hmem, hbehind key (hlive.prefixKey_eq key hmem) (fun h => hnot ((hresident key).mpr h))
      fun c hc => ?_⟩
    cases le_getLast hlive.sorted hlast (hrestored c hc).1 with
    | inl heq => exact Nat.le_of_eq (congrArg Prod.fst heq)
    | inr hlt => exact Nat.le_of_lt hlt
  have hlastKey : ∀ key, (finalKey.filter fun key =>
      key ∉ branchKey.toList ∧ restored.2.shouldCaptureFinal key) = some key →
        finalKey = some key ∧ key ∉ branchKey.toList ∧ key ∉ p.resident := by
    intro key hkey
    obtain ⟨hfinalKey, htest⟩ := Option.filter_eq_some_iff.mp hkey
    obtain ⟨hnotBranch, hcapture⟩ := of_decide_eq_true htest
    refine ⟨hfinalKey, hnotBranch, fun h => ?_⟩
    unfold GdnPrefixStatePolicy.shouldCaptureFinal at hcapture
    rw [hpolicy', hpolicy] at hcapture
    exact of_decide_eq_true hcapture ((hresident key).mpr h)
  refine ⟨fun key hkey => (hrestored key hkey).1, fun key hkey => ?_, ?_⟩
  · cases List.mem_append.mp hkey with
    | inl h =>
      obtain ⟨hmem, hlt⟩ := hbranch key (Option.mem_toList.mp h)
      exact ⟨hlt, hlive.lt_len key hmem⟩
    | inr h =>
      obtain ⟨hfinalKey, -, hnot⟩ := hlastKey key (Option.mem_toList.mp h)
      have hkey' := hfinal.symm.trans hfinalKey
      have hcount := (prefixKey_fst hkey').1
      refine ⟨hbehind key (hcount ▸ hkey') hnot fun c hc => ?_, hfinalLt key hfinalKey⟩
      exact hcount ▸ hlive.le_final c (hrestored c hc).1
  · rw [List.map_append]
    refine List.nodup_append.mpr ⟨nodup_map_toList _ _, nodup_map_toList _ _, ?_⟩
    intro count hcount count' hcount' heq
    obtain ⟨key, hkey, rfl⟩ := List.mem_map.mp hcount
    obtain ⟨key', hkey', rfl⟩ := List.mem_map.mp hcount'
    obtain ⟨hfinalKey, hnotBranch, -⟩ := hlastKey key' (Option.mem_toList.mp hkey')
    have hprefix := hlive.prefixKey_eq key (hbranch key (Option.mem_toList.mp hkey)).1
    have hprefix' := hfinal.symm.trans hfinalKey
    rw [← (prefixKey_fst hprefix').1, ← heq, hprefix] at hprefix'
    exact hnotBranch (Option.some.inj hprefix' ▸ hkey)

/-- A prompt is planned without an error. -/
theorem planPrompt_sound {cfg : GdnConfig} (numBlocks : ℕ) {numNew remaining : ℕ}
    (hpolicy : p.policy = .admission64) (hbs : 0 < cfg.blockSize) (hal : 0 < cfg.replayAlignment)
    (hdvd : cfg.blockSize ∣ cfg.replayAlignment)
    (hlen : blockHashes.length = promptLen / cfg.blockSize)
    (hchunk : cfg.restoreMode = .hybrid64 →
      0 < cfg.maxNumBatchedTokens ∧ cfg.blockSize ∣ cfg.maxNumBatchedTokens)
    (hpos : 0 < numNew) (hle : numNew ≤ promptLen) (hrem : numNew ≤ remaining) :
    ∃ plan policy, planPrompt cfg p blockHashes numBlocks 0 promptLen numNew remaining
        = .ok (plan, policy) ∧
      plan.Sound cfg.blockSize numBlocks promptLen remaining := by
  have hstrict : strictPrefixBlockCount promptLen cfg.blockSize = _ := strictPrefixBlockCount_eq hbs
  have hdirect : finalCaptureKey blockHashes promptLen cfg.blockSize .direct cfg.blockSize = _ :=
    finalCaptureKey_eq hbs hbs (Nat.dvd_refl _) hlen
  have hfinal : finalCaptureKey blockHashes promptLen cfg.blockSize cfg.restoreMode
      cfg.replayAlignment = _ := finalCaptureKey_eq hbs hal hdvd hlen
  have hfinalLt : ∀ key, prefixKey blockHashes (captureBlockCount cfg.restoreMode promptLen
      cfg.blockSize cfg.replayAlignment) = some key → key.1 * cfg.blockSize < promptLen := by
    intro key hkey
    obtain ⟨hcount, hcountPos⟩ := prefixKey_fst hkey
    rw [hcount]
    exact (mayRestore_captureBlockCount hbs hal hdvd hcountPos).lt_len
  obtain ⟨live, hfilter, hlive⟩ := filterM_restoreKeyIsEligible blockHashes
    cfg.restoreMode promptLen hbs hal hdvd
    (min numBlocks (min blockHashes.length ((promptLen - 1) / cfg.blockSize)))
    (if cfg.restoreMode = .hybrid64 then prefixKey blockHashes
      (captureBlockCount .direct promptLen cfg.blockSize cfg.blockSize) else none)
  obtain ⟨hrestored, hbeyond, hnodup⟩ := captureTargets_beyond hbs hlive hpolicy rfl hfinalLt
  have hkey : restoreTokens cfg.blockSize (p.selectRestore live live.length).1 < promptLen := by
    cases h : (p.selectRestore live live.length).1 with
    | none => exact Nat.lt_of_lt_of_le hpos hle
    | some key => exact hlive.lt_len key (hrestored key h)
  have halign : ∀ a, (if cfg.restoreMode = .hybrid64 then some cfg.maxNumBatchedTokens else none)
      = some a → 0 < a ∧ cfg.blockSize ∣ a := by
    intro a ha
    split at ha
    · next hmode => exact Option.some.inj ha ▸ hchunk hmode
    · cases ha
  obtain ⟨logical, physical, hforward, hphysical, hphysicalLe, hbehind, hlogical, hstart⟩ :=
    planGdnPrefixFastForward_spec hbs hpos hle hrem hkey halign
  obtain ⟨cut, hcap, hcut, hend, hfirst⟩ := capGdnCaptureBoundary_spec p.policy 0 hbs
    (fun key hmem => Nat.pos_of_mul_pos_right
      (Nat.lt_of_le_of_lt (Nat.zero_le _) (hbeyond key hmem).1)) hphysical
    (show physical ≤ logical by omega)
  replace hfirst := hfirst hpolicy
  refine ⟨_, _, bind_eq_ok.mpr ⟨_, hstrict, bind_eq_ok.mpr ⟨_, hdirect, bind_eq_ok.mpr
    ⟨live, hfilter, bind_eq_ok.mpr ⟨_, hfinal, bind_eq_ok.mpr ⟨_, hforward, bind_eq_ok.mpr
      ⟨_, hcap, rfl⟩⟩⟩⟩⟩⟩, ?_⟩
  have hle' : ∀ key, (p.selectRestore live live.length).1 = some key → key.1 ≤ numBlocks :=
    fun key h => Nat.le_trans (hlive.le_count key (hrestored key h)) (Nat.min_le_left _ _)
  have hbehind' : restoreTokens cfg.blockSize (p.selectRestore live live.length).1
      < logical - cut := by
    cases hend with
    | inl huncut => rwa [huncut, Nat.sub_zero]
    | inr hboundary =>
      obtain ⟨-, key, hmem, heq⟩ := hboundary
      rw [← Nat.zero_add (logical - cut), heq]
      exact (hbeyond key hmem).1
  have hquery : physical - cut = logical - cut ∨
      logical - cut = restoreTokens cfg.blockSize (p.selectRestore live live.length).1
        + (physical - cut) := by
    clear hend
    omega
  exact {
    restored := hle'
    beyond := hbeyond
    nodup := hnodup
    behind := hbehind'
    le_len := Nat.le_trans (Nat.sub_le _ _) hlogical
    first := fun key hmem => by
      have hlt := (hbeyond key hmem).1
      have hle' := hfirst key hmem (by omega)
      rwa [Nat.zero_add] at hle'
    query_pos := Nat.sub_pos_of_lt hcut
    query_le := Nat.le_trans (Nat.sub_le _ _) hphysicalLe
    query_eq := hquery }

end choice

/-! ## The choice for a prompt -/

/-- A prompt in chunked prefill with prefix caching: the configuration and the index of captured
states when it is admitted, the hashes of its full blocks, the blocks that the block manager reports
as computed, and its length. -/
structure Prompt (δ : Type) where
  cfg : GdnConfig
  policy : GdnPrefixStatePolicy δ
  blockHashes : List δ
  computedBlockNums : List ℕ
  promptLen : ℕ

/-- Of the keys with a property, the one with the most blocks. -/
def Longest (property : GdnPrefixKey δ → Prop) (key : GdnPrefixKey δ) : Prop :=
  property key ∧ ∀ other, property other → other.1 ≤ key.1

/-- In a list that is ordered by blocks, the longest key is the last one. -/
theorem getLast?_eq_some_iff_longest {live : List (GdnPrefixKey δ)} {key : GdnPrefixKey δ}
    (hsorted : live.Pairwise (·.1 < ·.1)) : live.getLast? = some key ↔ Longest (· ∈ live) key := by
  constructor
  · intro hlast
    refine ⟨List.mem_of_getLast? hlast, fun other hother => ?_⟩
    cases le_getLast hsorted hlast hother with
    | inl heq => exact Nat.le_of_eq (congrArg Prod.fst heq)
    | inr hlt => exact Nat.le_of_lt hlt
  · intro ⟨hmem, hlongest⟩
    obtain ⟨last, hlast⟩ := Option.ne_none_iff_exists'.mp
      (mt List.getLast?_eq_none_iff.mp (List.ne_nil_of_mem hmem))
    cases le_getLast hsorted hlast hmem with
    | inl heq => rw [hlast, heq]
    | inr hlt => exact absurd (hlongest last (List.mem_of_getLast? hlast)) (Nat.not_le.mpr hlt)

namespace Prompt

variable [DecidableEq δ] (r : Prompt δ)

/-- A prefix of the prompt with computed blocks, in front of the last token, from whose state the
mode allows the prompt to start. -/
structure Eligible (key : GdnPrefixKey δ) : Prop where
  live : key ∈ keysFromBlockHashes (r.blockHashes.take
    (min r.computedBlockNums.length (min r.blockHashes.length ((r.promptLen - 1) / r.cfg.blockSize))))
  eligible : prefixIsEligible r.blockHashes r.promptLen r.cfg.blockSize r.cfg.restoreMode
    r.cfg.replayAlignment key = .ok true

/-- Such a prefix whose state is captured. -/
structure Restorable (key : GdnPrefixKey δ) : Prop where
  eligible : r.Eligible key
  capacity_ne : r.policy.capacity ≠ 0
  resident : key ∈ r.policy.resident

/-- A state that the prompt captures under the policy admission64: that of its longest eligible
prefix or its last one, unless it is captured already. -/
structure Captures (key : GdnPrefixKey δ) : Prop where
  wanted : Longest r.Eligible key ∨ finalCaptureKey r.blockHashes r.promptLen r.cfg.blockSize
    r.cfg.restoreMode r.cfg.replayAlignment = .ok (some key)
  missing : key ∉ r.policy.resident

variable {r}

/-- A prompt without tokens has no such prefix. -/
theorem Eligible.promptLen_pos {key : GdnPrefixKey δ} (h : r.Eligible key) : 0 < r.promptLen := by
  have hcount := (prefixKey_of_mem_take h.live).1
  have hpos := (mem_keysFromBlockHashes h.live).1
  cases Nat.eq_zero_or_pos r.promptLen with
  | inl hzero =>
    rw [hzero, Nat.zero_sub, Nat.zero_div, Nat.min_zero, Nat.min_zero] at hcount
    exact absurd hcount (Nat.not_le.mpr hpos)
  | inr hlen => exact hlen

omit [DecidableEq δ] in
theorem strictPrefixBlockCount_ok {tokens blockSize n : ℕ}
    (h : strictPrefixBlockCount tokens blockSize = .ok n) : n = (tokens - 1) / blockSize := by
  cases Nat.eq_zero_or_pos blockSize with
  | inl hzero =>
    unfold strictPrefixBlockCount at h
    rw [if_pos hzero] at h
    cases h
  | inr hpos => exact Except.ok.inj (h.symm.trans (strictPrefixBlockCount_eq hpos))

/-- A plan restores the longest state that the prompt may start from, if there is one. Under the
policy admission64 its states to capture are those of the prompt. -/
theorem planPrompt_chooses {numComputedTokens numNew remaining : ℕ} {plan : PrefillPlan δ}
    {policy : GdnPrefixStatePolicy δ}
    (h : planPrompt r.cfg r.policy r.blockHashes r.computedBlockNums.length numComputedTokens
      r.promptLen numNew remaining = .ok (plan, policy)) :
    (plan.restoreKey = none ↔ ∀ key, ¬ r.Restorable key) ∧
      (∀ key, plan.restoreKey = some key ↔ Longest r.Restorable key) ∧
      (r.policy.policy = .admission64 → ∀ key, key ∈ plan.captureTargets ↔ r.Captures key) := by
  obtain ⟨strict, hstrict, h⟩ := bind_eq_ok.mp h
  obtain ⟨directFinalKey, hdirect, h⟩ := bind_eq_ok.mp h
  obtain ⟨live, hlive, h⟩ := bind_eq_ok.mp h
  obtain ⟨finalKey, hfinal, h⟩ := bind_eq_ok.mp h
  obtain ⟨forward, -, h⟩ := bind_eq_ok.mp h
  obtain ⟨capped, -, h⟩ := bind_eq_ok.mp h
  obtain ⟨rfl, -⟩ := Prod.mk.inj (Except.ok.inj h)
  obtain rfl := strictPrefixBlockCount_ok hstrict
  have hsorted : live.Pairwise (·.1 < ·.1) :=
    eq_filter_of_filterM_ok hlive ▸ (pairwise_keysFromBlockHashes _).filter _
  have heligible : ∀ key, key ∈ live ↔ r.Eligible key := by
    intro key
    have hsame : prefixIsEligible r.blockHashes r.promptLen r.cfg.blockSize r.cfg.restoreMode
        r.cfg.replayAlignment key = restoreKeyIsEligible key r.promptLen r.cfg.blockSize
          r.cfg.restoreMode r.cfg.replayAlignment
          (if r.cfg.restoreMode = .hybrid64 then directFinalKey else none) := by
      unfold prefixIsEligible
      rw [hdirect]
      rfl
    rw [mem_of_filterM_ok hlive, ← hsame]
    exact ⟨fun h => ⟨h.1, h.2⟩, fun h => ⟨h.live, h.eligible⟩⟩
  have hlongest : ∀ key, live.getLast? = some key ↔ Longest r.Eligible key := by
    intro key
    rw [getLast?_eq_some_iff_longest hsorted]
    unfold Longest
    simp only [heligible]
  rw [← and_assoc]
  refine ⟨?_, fun hpolicy key => ?_⟩
  · cases Nat.eq_zero_or_pos r.policy.capacity with
    | inl hzero =>
      have hnone : (r.policy.selectRestore live live.length).1 = none := by
        unfold GdnPrefixStatePolicy.selectRestore
        rw [if_pos (.inl hzero)]
      refine ⟨iff_of_true hnone fun key hkey => hkey.capacity_ne hzero, fun key => ?_⟩
      exact iff_of_false (fun hkey => nomatch hnone.symm.trans hkey) fun h => h.1.capacity_ne hzero
    | inr hpos =>
      have hcapacity := Nat.ne_of_gt hpos
      have hrestorable : ∀ key, key ∈ live.filter (· ∈ r.policy.resident) ↔ r.Restorable key := by
        intro key
        rw [List.mem_filter, heligible, decide_eq_true_iff]
        exact ⟨fun h => ⟨h.1, hcapacity, h.2⟩, fun h => ⟨h.eligible, h.resident⟩⟩
      dsimp only
      rw [(selectRestore_spec live hcapacity).1, List.getLast?_eq_none_iff,
        List.eq_nil_iff_forall_not_mem]
      refine ⟨forall_congr' fun key => not_congr (hrestorable key), fun key => ?_⟩
      rw [getLast?_eq_some_iff_longest (hsorted.filter _)]
      unfold Longest
      simp only [hrestorable]
  · have hcapacity : r.policy.capacity ≠ 0 := by
      unfold GdnPrefixStatePolicy.capacity
      rw [hpolicy]
      decide
    obtain ⟨-, hpolicy', hresident⟩ := selectRestore_spec (p := r.policy) live hcapacity
    generalize (r.policy.selectRestore live live.length).2 = selected at hpolicy' hresident ⊢
    have hbranch : ∀ key, selected.repeatedBranchCandidate live live.length = some key ↔
        Longest r.Eligible key ∧ key ∉ r.policy.resident := by
      intro key
      rw [repeatedBranchCandidate_spec (hpolicy'.trans hpolicy), hlongest, hresident]
    have hcapture : selected.shouldCaptureFinal key = true ↔ key ∉ r.policy.resident := by
      unfold GdnPrefixStatePolicy.shouldCaptureFinal
      rw [hpolicy', hpolicy]
      exact decide_eq_true_iff.trans (not_congr (hresident key))
    dsimp only
    rw [List.mem_append, Option.mem_toList, Option.mem_toList, Option.filter_eq_some_iff,
      decide_eq_true_iff, Option.mem_toList, hbranch, hcapture]
    constructor
    · intro htarget
      cases htarget with
      | inl hbranch => exact ⟨.inl hbranch.1, hbranch.2⟩
      | inr hlast => exact ⟨.inr (hlast.1 ▸ hfinal), hlast.2.2⟩
    · intro hcaptures
      cases Classical.em (Longest r.Eligible key) with
      | inl hlongest => exact .inl ⟨hlongest, hcaptures.missing⟩
      | inr hshort =>
        have hlast := hcaptures.wanted.resolve_left hshort
        exact .inr ⟨Except.ok.inj (hfinal.symm.trans hlast), fun h => hshort h.1, hcaptures.missing⟩

end Prompt

end Ikun.GdnPrefix
