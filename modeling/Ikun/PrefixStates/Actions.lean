import Ikun.PrefixStates.Residents

/-!
# The actions of a step

What the scheduler sends for a prompt fits the query that the model runner computes from the same
metadata: the capture points ascend within the query, there are at most two of them, and the segment
offsets lie inside of it. `PromptActions` gathers this with what becomes of the index.
-/

namespace Ikun.PrefixStates

open Except GdnPrefix Scheduling

variable {δ : Type}

/-! ## Capture points -/

/-- The capture points ascend and stand for targets that the step reaches. -/
theorem capturePointsForStep_ok {targets : List (GdnPrefixKey δ)} {context stop blockSize : ℕ}
    {points : List (ℕ × GdnPrefixKey δ)}
    (h : capturePointsForStep targets context stop blockSize = .ok points) :
    points.Pairwise (·.1 < ·.1) ∧ points.length ≤ 2 ∧
      ∀ point ∈ points, 0 < point.1 ∧ point.1 ≤ stop - context ∧ context < stop ∧
        0 < point.2.1 ∧ point.2 ∈ targets ∧ point.2.1 * blockSize = context + point.1 := by
  unfold capturePointsForStep at h
  split at h
  · obtain rfl := Except.ok.inj h
    exact ⟨.nil, Nat.zero_le 2, fun _ hmem => absurd hmem List.not_mem_nil⟩
  · next hlt =>
    obtain ⟨keys, hkeys, h⟩ := bind_eq_ok.mp h
    obtain ⟨_, hraise, h⟩ := bind_eq_ok.mp h
    obtain rfl := Except.ok.inj h
    have hlength := Nat.le_of_not_lt (raiseIf_eq_ok.mp hraise)
    have hreached : ∀ key ∈ keys.filter fun key => Reaches context stop blockSize key,
        (0 < key.1 ∧ key ∈ targets) ∧ Reaches context stop blockSize key := fun key hkey => by
      obtain ⟨hmem, hreaches⟩ := List.mem_filter.mp hkey
      obtain ⟨target, htarget, hmade⟩ := mem_of_mapM_ok hkeys hmem
      obtain ⟨rfl, hpos⟩ := makePrefixKey_ok hmade
      exact ⟨⟨hpos, htarget⟩, of_decide_eq_true hreaches⟩
    generalize (keys.filter fun key => Reaches context stop blockSize key) = reached at *
    -- every entry of the dictionary is a reached target at its offset
    have hentries : ∀ offset key, (reached.foldl (fun selected key =>
        selected.set (key.1 * blockSize - context) key) (Dict.empty : Dict ℕ (GdnPrefixKey δ))).get?
          offset = some key → key ∈ reached ∧ offset = key.1 * blockSize - context := by
      refine List.foldlRecOn (motive := fun selected : Dict ℕ (GdnPrefixKey δ) => ∀ offset key,
        selected.get? offset = some key → key ∈ reached ∧ offset = key.1 * blockSize - context)
        reached _ (fun _ _ h => by cases h) fun selected ih key hkey offset key' h => ?_
      by_cases heq : offset = key.1 * blockSize - context
      · subst heq
        rw [Dict.get?_set_self] at h
        obtain rfl := Option.some.inj h
        exact ⟨hkey, rfl⟩
      · rw [Dict.get?_set_ne _ heq] at h
        exact ih offset key' h
    generalize (reached.foldl _ _ : Dict ℕ (GdnPrefixKey δ)) = selected at *
    refine ⟨?_, hlength, fun point hpoint => ?_⟩
    · have hperm := (List.perm_insertionSort (fun p q : ℕ × GdnPrefixKey δ => p.1 ≤ q.1)
        selected.items)
      have hnodup := ((hperm.map Prod.fst).nodup_iff).mpr selected.nodup
      have hsorted := List.pairwise_insertionSort (fun p q : ℕ × GdnPrefixKey δ => p.1 ≤ q.1)
        selected.items
      exact (hsorted.and (List.pairwise_map.mp hnodup)).imp fun h => Nat.lt_of_le_of_ne h.1 h.2
    · have hitem := (List.mem_insertionSort _).mp hpoint
      obtain ⟨hmem, hoffset⟩ := hentries _ _ (Dict.mem_items.mp hitem)
      obtain ⟨⟨hpos, htarget⟩, hcontext, hstop⟩ := hreached _ hmem
      refine ⟨by omega, by omega, Nat.lt_of_not_le hlt, hpos, htarget, by omega⟩

/-! ## Segments -/

theorem keyAt_ok {blockHashes : List δ} {blockCount : ℕ} {key : GdnPrefixKey δ}
    (h : keyAt blockHashes blockCount = .ok key) : key.1 = blockCount := by
  unfold keyAt at h
  split at h
  · rw [(makePrefixKey_ok h).1]
  · cases h

/-- The state for the end of a chunk lies in front of it. -/
theorem finalCaptureKey_lt {blockHashes : List δ} {tokens blockSize alignment : ℕ}
    {key : GdnPrefixKey δ}
    (h : finalCaptureKey blockHashes tokens blockSize .direct alignment = .ok (some key)) :
    key.1 * blockSize < tokens := by
  obtain ⟨strict, hstrict, h⟩ := bind_eq_ok.mp h
  dsimp only at h
  generalize hcut : (if 0 < min blockHashes.length strict ∧
    tokens - min blockHashes.length strict * blockSize < gdnDirectMinReplayTokens then
    min blockHashes.length strict - 1 else min blockHashes.length strict) = cut at h
  have hle : cut ≤ strict := by
    rw [← hcut]
    split
    · exact (Nat.sub_le _ _).trans (Nat.min_le_right _ _)
    · exact Nat.min_le_right _ _
  split at h
  · cases h
  · next hne =>
    obtain ⟨made, hmade, h⟩ := bind_eq_ok.mp h
    obtain rfl := Option.some.inj (Except.ok.inj h)
    rw [keyAt_ok hmade]
    unfold strictPrefixBlockCount at hstrict
    split at hstrict
    · cases hstrict
    · split at hstrict
      · obtain rfl := Except.ok.inj hstrict
        omega
      · obtain rfl := Except.ok.inj hstrict
        have hmul := Nat.mul_le_mul_right blockSize hle
        have hdiv := Nat.div_mul_le_self (tokens - 1) blockSize
        omega

/-- Two multiples of `n` do not fit into `n` numbers. -/
theorem multiple_unique {n start a b : ℕ} (ha : n ∣ a) (hb : n ∣ b) (hstart : start < a)
    (hle : a ≤ start + n) (hstart' : start < b) (hle' : b ≤ start + n) : a = b := by
  obtain ⟨i, rfl⟩ := ha
  obtain ⟨j, rfl⟩ := hb
  have hi : i < j + 1 := Nat.lt_of_mul_lt_mul_left (a := n) (by rw [Nat.mul_succ]; omega)
  have hj : j < i + 1 := Nat.lt_of_mul_lt_mul_left (a := n) (by rw [Nat.mul_succ]; omega)
  rw [show i = j by omega]

/-- The boundary of the state that a direct prefill up to `stepEnd` captures. -/
def captureBoundary (blockHashes : List δ) (blockSize stepEnd : ℕ) : ℕ :=
  match finalCaptureKey blockHashes stepEnd blockSize .direct blockSize with
  | .ok (some key) => key.1 * blockSize
  | _ => 0

/-- The segment offsets of a step lie inside of its query, and there are at most three of them: a
chunk of the scheduler ends in the query at most once, and each end has a state in front of it. -/
theorem canonicalDirectSegmentOffsets_inside {blockHashes : List δ}
    {context stop blockSize chunkTokens : ℕ} {offsets : List ℕ}
    (hle : stop ≤ context + chunkTokens)
    (h : canonicalDirectSegmentOffsets blockHashes context stop blockSize chunkTokens
      = .ok offsets) :
    (∀ offset ∈ offsets, 0 < offset ∧ offset < stop - context) ∧ offsets.length ≤ 3 := by
  obtain ⟨_, hpos, h⟩ := bind_eq_ok.mp h
  obtain ⟨_, -, h⟩ := bind_eq_ok.mp h
  have hchunk : 0 < chunkTokens := Nat.pos_of_ne_zero fun hzero => raiseIf_eq_ok.mp hpos (.inr hzero)
  split at h
  · obtain rfl := Except.ok.inj h
    exact ⟨fun _ hmem => absurd hmem List.not_mem_nil, Nat.zero_le 3⟩
  · next hlt =>
    obtain ⟨keys, hkeys, h⟩ := bind_eq_ok.mp h
    obtain rfl := Except.ok.inj h
    constructor
    · intro offset hoffset
      obtain ⟨boundary, hboundary, rfl⟩ := List.mem_map.mp hoffset
      have hinside := of_decide_eq_true (List.mem_filter.mp hboundary).2
      omega
    · rw [List.length_map]
      -- the end of a chunk inside of the query
      let next := (context / chunkTokens + 1) * chunkTokens
      have hnext : context < next ∧ next ≤ context + chunkTokens := by
        have hdiv := Nat.div_mul_le_self context chunkTokens
        refine ⟨Nat.lt_mul_of_div_lt (Nat.lt_add_one _) hchunk, ?_⟩
        show (context / chunkTokens + 1) * chunkTokens ≤ _
        rw [Nat.succ_mul]
        omega
      have hunique : ∀ stepEnd ∈ pyRange chunkTokens stop chunkTokens, context < stepEnd →
          stepEnd = next := fun stepEnd hmem hcontext => by
        obtain ⟨-, hstop, hdvd⟩ := (mem_pyRange hchunk).mp hmem
        exact multiple_unique hdvd (Nat.dvd_mul_left _ _) hcontext (by omega) hnext.1 hnext.2
      have hsubset : ∀ boundary ∈ (((keys.filterMap (·.map (·.1 * blockSize)) ++
          pyRange chunkTokens stop chunkTokens).dedup.insertionSort (· ≤ ·)).filter fun boundary =>
            context < boundary ∧ boundary < stop), boundary ∈
              [next, captureBoundary blockHashes blockSize next,
                captureBoundary blockHashes blockSize stop] := by
        intro boundary hboundary
        obtain ⟨hmem, hinside⟩ := List.mem_filter.mp hboundary
        have hcontext := (of_decide_eq_true hinside).1
        rw [List.mem_insertionSort, List.mem_dedup] at hmem
        cases List.mem_append.mp hmem with
        | inr hend => exact hunique boundary hend hcontext ▸ List.mem_cons_self
        | inl hkey =>
          obtain ⟨key, hkey, heq⟩ := List.mem_filterMap.mp hkey
          obtain ⟨stepEnd, hstepEnd, hfinal⟩ := mem_of_mapM_ok hkeys hkey
          obtain ⟨key, rfl, rfl⟩ := Option.map_eq_some_iff.mp heq
          have hbefore := finalCaptureKey_lt hfinal
          have hboundary : captureBoundary blockHashes blockSize stepEnd = key.1 * blockSize := by
            simp only [captureBoundary, hfinal]
          rw [← hboundary]
          cases List.mem_append.mp hstepEnd with
          | inl hstep =>
            rw [hunique stepEnd hstep (by omega)]
            exact List.mem_cons_of_mem _ List.mem_cons_self
          | inr hstop =>
            rw [List.mem_singleton.mp hstop]
            exact List.mem_cons_of_mem _ (List.mem_cons_of_mem _ List.mem_cons_self)
      have hnodup : (((keys.filterMap (·.map (·.1 * blockSize)) ++
          pyRange chunkTokens stop chunkTokens).dedup.insertionSort (· ≤ ·)).filter fun boundary =>
            context < boundary ∧ boundary < stop).Nodup :=
        (((List.perm_insertionSort _ _).nodup_iff).mpr (List.nodup_dedup _)).filter _
      exact (List.subperm_of_subset hnodup hsubset).length_le

/-! ## The query -/

variable [DecidableEq δ] {ρ A T : Type} [DecidableEq ρ] {cfg : SchedulerConfig A T δ}
  {s s' : Scheduler ρ δ A T} {g : SequenceGroup ρ δ} {chunk : ℕ}

/-- The state that the first step of a prompt restores. -/
def restoredOf (s : Scheduler ρ δ A T) (g : SequenceGroup ρ δ) : Option (GdnPrefixKey δ) :=
  if g.numComputedTokens = 0 then (s.gdnRequestRestoreKeys.get? g.requestId).join else none

/-- Where the query of a step starts. -/
def physicalContext (cfg : SchedulerConfig A T δ) (s : Scheduler ρ δ A T)
    (g : SequenceGroup ρ δ) : ℕ :=
  if g.numComputedTokens = 0 then restoreTokens cfg.blockSize (restoredOf s g)
  else g.numComputedTokens

/-- Where a step ends. -/
def logicalEnd (g : SequenceGroup ρ δ) (chunk : ℕ) : ℕ := min g.len (g.numComputedTokens + chunk)

/-- The query behind the tokens in front of it and the skipped blocks. -/
theorem computeForPrefixCacheHit_spec {blockSize numBlocks computed stop : ℕ} (hlt : computed < stop) :
    0 < (Sampling.computeForPrefixCacheHit blockSize numBlocks
        ⟨computed, stop, stop - computed⟩).queryLen ∧
      (max computed (numBlocks * blockSize) < stop →
        (Sampling.computeForPrefixCacheHit blockSize numBlocks
          ⟨computed, stop, stop - computed⟩).queryLen
            = stop - max computed (numBlocks * blockSize)) := by
  unfold Sampling.computeForPrefixCacheHit
  split
  · next hzero =>
    rw [hzero, Nat.zero_mul, Nat.max_eq_left (Nat.zero_le _)]
    exact ⟨Nat.sub_pos_of_lt hlt, fun _ => rfl⟩
  · dsimp only
    split
    · next hpassed =>
      rw [Nat.max_eq_left hpassed]
      exact ⟨Nat.sub_pos_of_lt hlt, fun _ => rfl⟩
    · next hbehind =>
      rw [Nat.max_eq_right (Nat.le_of_not_le hbehind)]
      split
      · next hpartial => exact ⟨Nat.sub_pos_of_lt hpartial.2, fun _ => rfl⟩
      · next hfull =>
        exact ⟨Nat.one_pos, fun hinside => absurd ⟨Nat.lt_of_not_le hbehind, hinside⟩ hfull⟩

omit [DecidableEq δ] in
/-- The skipped blocks end where the query starts. -/
theorem physicalContext_eq {blocks raw : List ℕ}
    (hblocks : skippedBlocks cfg.blockSize (restoredOf s g) g.numComputedTokens raw = .ok blocks) :
    physicalContext cfg s g = max g.numComputedTokens (blocks.length * cfg.blockSize) := by
  unfold physicalContext
  cases hrestored : restoredOf s g with
  | none =>
    rw [hrestored] at hblocks
    obtain rfl := Except.ok.inj hblocks
    have htake : (raw.take (g.numComputedTokens / cfg.blockSize)).length * cfg.blockSize ≤
        g.numComputedTokens :=
      (Nat.mul_le_mul_right _ (List.length_take_le _ _)).trans (Nat.div_mul_le_self _ _)
    rw [Nat.max_eq_left htake]
    split
    · next hzero => exact hzero.symm
    · rfl
  | some key =>
    have hfirst : g.numComputedTokens = 0 := by
      unfold restoredOf at hrestored
      split at hrestored
      · next hzero => exact hzero
      · cases hrestored
    rw [hrestored] at hblocks
    obtain ⟨_, hraise, hblocks⟩ := bind_eq_ok.mp hblocks
    obtain rfl := Except.ok.inj hblocks
    rw [if_pos hfirst, hfirst, Nat.max_eq_right (Nat.zero_le _),
      not_not.mp (raiseIf_eq_ok.mp hraise)]
    rfl

omit [DecidableEq δ] in
/-- The model runner finds the same start of the query as the scheduler, unless the step ends in
front of it. -/
theorem queryLen_eq {blocks raw : List ℕ} {md : SequenceGroupMetadata ρ δ}
    (hblocks : skippedBlocks cfg.blockSize (restoredOf s g) g.numComputedTokens raw = .ok blocks)
    (htokens : md.tokenIds = g.tokenIds) (hcomputed : md.numComputedTokens = g.numComputedTokens)
    (hchunk : md.tokenChunkSize = chunk) (hskipped : md.computedBlockNums = blocks)
    (hpos : 0 < chunk) (hlt : g.numComputedTokens < g.len) :
    0 < (queryLens cfg.blockSize md).queryLen ∧
      (physicalContext cfg s g < logicalEnd g chunk →
        (queryLens cfg.blockSize md).queryLen = logicalEnd g chunk - physicalContext cfg s g) := by
  have hstop : g.numComputedTokens < logicalEnd g chunk := lt_min hlt (by omega)
  unfold queryLens
  rw [htokens, hcomputed, hchunk, hskipped, physicalContext_eq hblocks]
  exact computeForPrefixCacheHit_spec hstop

/-! ## The actions of a prompt -/

/-- The actions of a prompt fit the query, and the index after them is `p'`. -/
structure PromptActions (p p' : GdnPrefixStatePolicy δ) (actions : Scheduler.PrefillActions δ)
    (queryLen : ℕ) : Prop where
  admitted : Admitted p p' (actions.capturePoints.map (·.2)) actions.evictKeys
  ascending : actions.capturePoints.Pairwise (·.1 < ·.1)
  two : actions.capturePoints.length ≤ 2
  captured : ∀ point ∈ actions.capturePoints, 0 < point.1 ∧ point.1 ≤ queryLen
  restored : ∀ key, actions.restoreKey = some key →
    0 < key.1 ∧ key ∈ p.resident ∧ key ∉ actions.evictKeys
  segments : ∀ offset ∈ actions.segmentOffsets, 0 < offset ∧ offset < queryLen
  few : actions.segmentOffsets.length ≤ 3

omit [DecidableEq δ] in
/-- Nothing is admitted. -/
theorem Residents.admitted_nil {p : GdnPrefixStatePolicy δ} (h : Residents p) :
    Admitted p p [] [] where
  policy := rfl
  residents := h
  mem_iff key := by
    constructor
    · intro hkey
      exact .inr ⟨hkey, List.not_mem_nil⟩
    · intro hkey
      cases hkey with
      | inl hkey => exact absurd hkey List.not_mem_nil
      | inr hkey => exact hkey.1
  keys_pos _ hkey := absurd hkey List.not_mem_nil
  evicted_pos _ hkey := absurd hkey List.not_mem_nil
  spared _ _ := List.not_mem_nil

/-- A chunk whose query fits into a step. -/
structure QueryFits (cfg : SchedulerConfig A T δ) (s : Scheduler ρ δ A T) (g : SequenceGroup ρ δ)
    (chunk : ℕ) : Prop where
  chunk_pos : 0 < chunk
  computed_lt : g.numComputedTokens < g.len
  query_le : g.numComputedTokens + chunk ≤ physicalContext cfg s g + cfg.maxNumBatchedTokens

/-- The actions of a prefill step fit its query when the restored key is the one used last. -/
theorem prefillActions_spec {raw : List ℕ} {actions : Scheduler.PrefillActions δ}
    {md : SequenceGroupMetadata ρ δ} (hresidents : Residents s.gdnPrefixPolicy)
    (hlast : ∀ key, restoredOf s g = some key → [key] <:+ s.gdnPrefixPolicy.resident)
    (hfits : QueryFits cfg s g chunk)
    (hok : s.prefillActions cfg g chunk raw = .ok (actions, s')) (htokens : md.tokenIds = g.tokenIds)
    (hcomputed : md.numComputedTokens = g.numComputedTokens) (hchunk : md.tokenChunkSize = chunk)
    (hskipped : md.computedBlockNums = actions.computedBlockNums) :
    PromptActions s.gdnPrefixPolicy s'.gdnPrefixPolicy actions (queryLens cfg.blockSize md).queryLen ∧
      0 < (queryLens cfg.blockSize md).queryLen ∧
      s'.gdnRequestRestoreKeys = s.gdnRequestRestoreKeys := by
  obtain ⟨blocks, hblocks, hok⟩ := bind_eq_ok.mp hok
  obtain ⟨_, -, hok⟩ := bind_eq_ok.mp hok
  obtain ⟨targets, -, hok⟩ := bind_eq_ok.mp hok
  have hquery := queryLen_eq hblocks htokens hcomputed hchunk
  have hmem : ∀ key, restoredOf s g = some key → key ∈ s.gdnPrefixPolicy.resident :=
    fun key hkey => (hlast key hkey).subset List.mem_cons_self
  split at hok
  · next hpolicy =>
    obtain ⟨offsets, hoffsets, hok⟩ := bind_eq_ok.mp hok
    obtain ⟨points, hpoints, hok⟩ := bind_eq_ok.mp hok
    obtain ⟨admitted, hadmitted, hok⟩ := bind_eq_ok.mp hok
    obtain ⟨rfl, rfl⟩ := Prod.mk.inj (Except.ok.inj hok)
    obtain ⟨hpos, hlen⟩ := hquery hskipped hfits.chunk_pos hfits.computed_lt
    change capturePointsForStep targets (physicalContext cfg s g) (logicalEnd g chunk)
      cfg.blockSize = .ok points at hpoints
    change s.segmentOffsets cfg g (physicalContext cfg s g) (logicalEnd g chunk)
      = .ok offsets at hoffsets
    obtain ⟨hascending, htwo, hcaptured⟩ := capturePointsForStep_ok hpoints
    have hadmits := hresidents.admitKeys hpolicy (by rw [List.length_map]; exact htwo) hadmitted
    have hsegments : (∀ offset ∈ offsets, 0 < offset ∧
        offset < logicalEnd g chunk - physicalContext cfg s g) ∧ offsets.length ≤ 3 := by
      unfold Scheduler.segmentOffsets at hoffsets
      split at hoffsets
      · obtain ⟨hashes, -, hoffsets⟩ := bind_eq_ok.mp hoffsets
        refine canonicalDirectSegmentOffsets_inside ?_ hoffsets
        exact (Nat.min_le_right _ _).trans hfits.query_le
      · obtain rfl := Except.ok.inj hoffsets
        exact ⟨fun _ h => absurd h List.not_mem_nil, Nat.zero_le 3⟩
    refine ⟨⟨hadmits, hascending, htwo, fun point hpoint => ?_, fun key hkey => ?_,
      fun offset hoffset => ?_, hsegments.2⟩, hpos, rfl⟩
    · obtain ⟨hoffset, hle, hinside, -⟩ := hcaptured point hpoint
      exact ⟨hoffset, (hlen hinside).symm ▸ hle⟩
    · exact ⟨hresidents.blocks_pos key (hmem key hkey), hmem key hkey,
        hadmits.spared key (hlast key hkey)⟩
    · obtain ⟨hoffset, hlt⟩ := hsegments.1 offset hoffset
      exact ⟨hoffset, by rw [hlen (by omega)]; exact hlt⟩
  · next hpolicy =>
    obtain ⟨rfl, rfl⟩ := Prod.mk.inj (Except.ok.inj hok)
    obtain ⟨hpos, -⟩ := hquery hskipped hfits.chunk_pos hfits.computed_lt
    refine ⟨⟨hresidents.admitted_nil, .nil, Nat.zero_le 2, fun _ h => absurd h List.not_mem_nil,
      fun key hkey => ?_, fun _ h => absurd h List.not_mem_nil, Nat.zero_le 3⟩, hpos, rfl⟩
    exact ⟨hresidents.blocks_pos key (hmem key hkey), hmem key hkey, List.not_mem_nil⟩

end Ikun.PrefixStates
