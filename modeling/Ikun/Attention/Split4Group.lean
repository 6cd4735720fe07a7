import Ikun.Attention.Split4Kernels

/-!
# A group of tiles

`run_group` in exact arithmetic: every row sees the tiles of the group, one for each active split, in
order (`runGroup_spec`). What the scratch buffers held before does not matter, and neither do the splits
that are not active.
-/

namespace Ikun.Attention.Split4

open Device OnlineSoftmax

variable {K : Type} [Field K] [LinearOrder K]

/-! ## The splits of a row -/

section row

variable {e : Exponential K} {log : ExtNum K → ExtNum K} {headDim : ℕ}

/-- The row that has seen the first tiles. -/
def seenTiles (e : Exponential K) (before : RunningRow (ExtNum K) headDim)
    (tile : ℕ → List (Option K × (Fin headDim → K))) (n : ℕ) : RunningRow (ExtNum K) headDim :=
  ((List.range n).map tile).foldl (seeTile e) before

/-- The factor for what a row has seen before a tile. -/
def correctionOf (e : Exponential K) (before : RunningRow (ExtNum K) headDim)
    (tile : ℕ → List (Option K × (Fin headDim → K))) (split : ℕ) : ExtNum K :=
  .exp e (.sub (seenTiles e before tile split).runningMax
    (seenTiles e before tile (split + 1)).runningMax)

/-- The weights of the scores of a tile. -/
def weightsOf (e : Exponential K) (before : RunningRow (ExtNum K) headDim)
    (tile : ℕ → List (Option K × (Fin headDim → K))) (split : ℕ) : List (ExtNum K) :=
  (tileScores (tile split)).map fun score =>
    .exp e (.sub score (seenTiles e before tile (split + 1)).runningMax)

variable {before : RunningRow (ExtNum K) headDim} {tile : ℕ → List (Option K × (Fin headDim → K))}

theorem seenTiles_succ (n : ℕ) :
    seenTiles e before tile (n + 1) = seeTile e (seenTiles e before tile n) (tile n) := by
  unfold seenTiles
  rw [List.range_succ, List.map_append, List.foldl_append]
  rfl

theorem seenTiles_output (n : ℕ) (d : Fin headDim) :
    (seenTiles e before tile (n + 1)).runningOutput d
      = .add (.mul ((seenTiles e before tile n).runningOutput d) (correctionOf e before tile n))
          (.dot (weightsOf e before tile n) ((tileValues (tile n)).map (· d))) := by
  unfold correctionOf weightsOf
  rw [seenTiles_succ]
  rfl

/-- The tiles of a row have a maximum as soon as one is seen. -/
structure Finite (e : Exponential K) (before : RunningRow (ExtNum K) headDim)
    (tile : ℕ → List (Option K × (Fin headDim → K))) (n : ℕ) : Prop where
  start : ∃ s, before.runningMax = .ofScore s
  seen : ∀ s < n, ∃ μ, (seenTiles e before tile (s + 1)).runningMax = .fin μ
  length : ∀ s < n, (tile s).length = kTileTokens

theorem Finite.score {n s : ℕ} (h : Finite e before tile n) (hs : s < n) :
    ∃ m, (seenTiles e before tile s).runningMax = .ofScore m := by
  cases s with
  | zero => exact h.start
  | succ s =>
    obtain ⟨μ, hμ⟩ := h.seen s (Nat.lt_of_succ_lt hs)
    exact ⟨some μ, hμ⟩

/-- What a row has written after some of its splits. -/
structure SplitsSeen (e : Exponential K) (before : RunningRow (ExtNum K) headDim)
    (tile : ℕ → List (Option K × (Fin headDim → K))) (row rows : ℕ) (start : RowState (ExtNum K))
    (n : ℕ) (state : RowState (ExtNum K)) : Prop where
  stateMax : state.stateMax = (seenTiles e before tile n).runningMax
  stateSum : state.stateSum = (seenTiles e before tile n).runningSum
  length_scores : state.scores.length = start.scores.length
  length_corrections : state.corrections.length = start.corrections.length
  corrections : ∀ s < n, state.corrections[s * rows + row]? = some (correctionOf e before tile s)
  scores : ∀ s < n, ∀ c < kTileTokens,
    state.scores[(s * rows + row) * kTileTokens + c]? = (weightsOf e before tile s)[c]?
  kept_corrections : ∀ i, (∀ s < n, i ≠ s * rows + row) →
    state.corrections[i]? = start.corrections[i]?
  kept_scores : ∀ i, (∀ s < n, ∀ c < kTileTokens, i ≠ (s * rows + row) * kTileTokens + c) →
    state.scores[i]? = start.scores[i]?

/-- A round over the splits of a row. -/
theorem splitsSeen_succ {row rows activeSplits n : ℕ} {start state : RowState (ExtNum K)}
    (hrow : row < rows) (hn : n < activeSplits) (hfinite : Finite e before tile activeSplits)
    (hscores : ∀ s < activeSplits, ∀ c < kTileTokens,
      start.scores[(s * rows + row) * kTileTokens + c]? = (tileScores (tile s))[c]?)
    (hcorrections : activeSplits * rows ≤ start.corrections.length)
    (h : SplitsSeen e before tile row rows start n state) :
    ∃ state', normalizeSplit (kernelOps e log) row rows state n = some state' ∧
      SplitsSeen e before tile row rows start (n + 1) state' := by
  have hcell : ∀ s s' c c' : ℕ, c < kTileTokens → c' < kTileTokens →
      (s * rows + row) * kTileTokens + c = (s' * rows + row) * kTileTokens + c' → s = s' ∧ c = c' :=
    fun s s' c c' hc hc' heq => by
      obtain ⟨hrows, hcolumn⟩ := cell_inj hc hc' heq
      exact ⟨(cell_inj hrow hrow hrows).1, hcolumn⟩
  obtain ⟨μ, hμ⟩ := hfinite.seen n hn
  have htile := hfinite.length n hn
  have hlen : (tileScores (tile n)).length = kTileTokens := (List.length_map _).trans htile
  have hbound : n * rows + row < state.corrections.length :=
    h.length_corrections.symm ▸ (cell_lt hn hrow).trans_le hcorrections
  have hread : ∀ c < kTileTokens, state.scores[(n * rows + row) * kTileTokens + c]?
      = (tileScores (tile n))[c]? := fun c hc =>
    (h.kept_scores _ fun s hs c' hc' heq =>
      Nat.ne_of_gt hs (hcell n s c c' hc hc' heq).1).trans (hscores n hn c hc)
  have hnext : (seeTile e (seenTiles e before tile n) (tile n)).runningMax = .fin μ := by
    rw [← seenTiles_succ]
    exact hμ
  obtain ⟨state', hok, hmax, hsum, hcorr, hwritten⟩ := normalizeSplit_spec log htile hread
    h.stateMax h.stateSum (hfinite.score hn) hnext hbound
  refine ⟨state', hok, hmax.trans hμ.symm, ?_, hwritten.length.trans h.length_scores, ?_, ?_, ?_, ?_,
    ?_⟩
  · rw [hsum, seenTiles_succ]
  · rw [hcorr, List.length_set]
    exact h.length_corrections
  · intro s hs
    rw [hcorr]
    cases Nat.lt_succ_iff_lt_or_eq.mp hs with
    | inl hlt =>
      have hne : n * rows + row ≠ s * rows + row := fun heq =>
        Nat.ne_of_gt hlt (cell_inj hrow hrow heq).1
      rw [List.getElem?_set_ne hne]
      exact h.corrections s hlt
    | inr heq =>
      subst heq
      rw [List.getElem?_set_self hbound]
      unfold correctionOf
      rw [hμ]
  · intro s hs c hc
    cases Nat.lt_succ_iff_lt_or_eq.mp hs with
    | inl hlt =>
      rw [hwritten.kept _ fun c' hc' heq =>
        Nat.ne_of_gt hlt (hcell n s c' c (List.mem_range.mp hc') hc heq).1]
      exact h.scores s hlt c hc
    | inr heq =>
      subst heq
      rw [hwritten.written c (List.mem_range.mpr hc)]
      unfold weightsOf
      rw [List.getElem?_map, List.getD_eq_getElem?_getD, List.getElem?_eq_getElem (hlen ▸ hc), hμ]
      rfl
  · intro i hi
    rw [hcorr, List.getElem?_set_ne (hi n (Nat.lt_succ_self n)).symm]
    exact h.kept_corrections i fun s hs => hi s (Nat.lt_succ_of_lt hs)
  · intro i hi
    rw [hwritten.kept i fun c hc heq =>
      hi n (Nat.lt_succ_self n) c (List.mem_range.mp hc) heq.symm]
    exact h.kept_scores i fun s hs => hi s (Nat.lt_succ_of_lt hs)

end row

/-! ## The rows of a group -/

section rows

variable {e : Exponential K} {log : ExtNum K → ExtNum K} {headDim : ℕ}
  {before : ℕ → RunningRow (ExtNum K) headDim}
  {tile : ℕ → ℕ → List (Option K × (Fin headDim → K))} {activeSplits rows : ℕ}

/-- What the normalization has written after some rows. -/
structure RowsSeen (e : Exponential K) (before : ℕ → RunningRow (ExtNum K) headDim)
    (tile : ℕ → ℕ → List (Option K × (Fin headDim → K))) (activeSplits rows : ℕ)
    (start : Buffers (ExtNum K)) (n : ℕ) (buffers : Buffers (ExtNum K)) : Prop where
  keyTiles : buffers.keyTiles = start.keyTiles
  valueTiles : buffers.valueTiles = start.valueTiles
  splitOutput : buffers.splitOutput = start.splitOutput
  runningOutput : buffers.runningOutput = start.runningOutput
  length_scores : buffers.scores.length = start.scores.length
  length_corrections : buffers.corrections.length = start.corrections.length
  length_max : buffers.runningMax.length = start.runningMax.length
  length_sum : buffers.runningSum.length = start.runningSum.length
  seen : ∀ row < n,
    buffers.runningMax[row]? = some (seenTiles e (before row) (tile row) activeSplits).runningMax ∧
    buffers.runningSum[row]? = some (seenTiles e (before row) (tile row) activeSplits).runningSum ∧
    ∀ s < activeSplits,
      buffers.corrections[s * rows + row]? = some (correctionOf e (before row) (tile row) s) ∧
      ∀ c < kTileTokens, buffers.scores[(s * rows + row) * kTileTokens + c]?
        = (weightsOf e (before row) (tile row) s)[c]?
  kept : ∀ row, n ≤ row → row < rows →
    buffers.runningMax[row]? = start.runningMax[row]? ∧
    buffers.runningSum[row]? = start.runningSum[row]? ∧
    ∀ s < activeSplits, ∀ c < kTileTokens, buffers.scores[(s * rows + row) * kTileTokens + c]?
      = start.scores[(s * rows + row) * kTileTokens + c]?

/-- What the normalization of a group finds. -/
structure Scored (before : ℕ → RunningRow (ExtNum K) headDim)
    (tile : ℕ → ℕ → List (Option K × (Fin headDim → K))) (activeSplits rows : ℕ)
    (start : Buffers (ExtNum K)) : Prop where
  runningMax : ∀ row < rows, start.runningMax[row]? = some (before row).runningMax
  runningSum : ∀ row < rows, start.runningSum[row]? = some (before row).runningSum
  corrections : activeSplits * rows ≤ start.corrections.length
  scores : ∀ row < rows, ∀ s < activeSplits, ∀ c < kTileTokens,
    start.scores[(s * rows + row) * kTileTokens + c]? = (tileScores (tile row s))[c]?

/-- A block of the normalization. -/
theorem rowsSeen_succ {row : ℕ} {start buffers : Buffers (ExtNum K)} (hrow : row < rows)
    (hstart : Scored before tile activeSplits rows start)
    (hfinite : Finite e (before row) (tile row) activeSplits)
    (h : RowsSeen e before tile activeSplits rows start row buffers) :
    ∃ buffers', normalizeRow (kernelOps e log) activeSplits rows buffers row = some buffers' ∧
      RowsSeen e before tile activeSplits rows start (row + 1) buffers' := by
  obtain ⟨hmax, hsum, hscores⟩ := h.kept row (Nat.le_refl row) hrow
  rw [hstart.runningMax row hrow] at hmax
  rw [hstart.runningSum row hrow] at hsum
  obtain ⟨state, hok, hstate⟩ := foldlM_range
    (P := SplitsSeen e (before row) (tile row) row rows ⟨buffers.scores, buffers.corrections,
      (before row).runningMax, (before row).runningSum⟩)
    (f := normalizeSplit (kernelOps e log) row rows) (n := activeSplits)
    ⟨buffers.scores, buffers.corrections, (before row).runningMax, (before row).runningSum⟩
    ⟨rfl, rfl, rfl, rfl, fun s hs => absurd hs (Nat.not_lt_zero s),
      fun s hs => absurd hs (Nat.not_lt_zero s), fun _ _ => rfl, fun _ _ => rfl⟩
    (fun n hn state hstate => splitsSeen_succ hrow hn hfinite
      (fun s hs c hc => (hscores s hs c hc).trans (hstart.scores row hrow s hs c hc))
      (h.length_corrections.symm ▸ hstart.corrections) hstate)
  have hmaxBound : row < buffers.runningMax.length := (List.getElem?_eq_some_iff.mp hmax).1
  have hsumBound : row < buffers.runningSum.length := (List.getElem?_eq_some_iff.mp hsum).1
  have hne : ∀ row' s s' : ℕ, row' < rows → row' ≠ row → s' * rows + row' ≠ s * rows + row :=
    fun row' s s' hrow' hne heq => hne (cell_inj hrow' hrow heq).2
  refine ⟨{ buffers with
      scores := state.scores
      corrections := state.corrections
      runningMax := buffers.runningMax.set row state.stateMax
      runningSum := buffers.runningSum.set row state.stateSum }, ?_, ?_⟩
  · unfold normalizeRow
    refine (bind_eq hmax _).trans ?_
    refine (bind_eq hsum _).trans ?_
    refine (bind_eq hok _).trans ?_
    refine (bind_eq (if_pos hmaxBound) _).trans ?_
    exact (bind_eq (if_pos hsumBound) _).trans rfl
  · refine ⟨h.keyTiles, h.valueTiles, h.splitOutput, h.runningOutput,
      hstate.length_scores.trans h.length_scores,
      hstate.length_corrections.trans h.length_corrections, List.length_set.trans h.length_max,
      List.length_set.trans h.length_sum, fun row' hrow' => ?_, fun row' hle hlt => ?_⟩
    · dsimp only
      cases Nat.lt_succ_iff_lt_or_eq.mp hrow' with
      | inr heq =>
        subst heq
        rw [List.getElem?_set_self hmaxBound, List.getElem?_set_self hsumBound, hstate.stateMax,
          hstate.stateSum]
        exact ⟨rfl, rfl, fun s hs => ⟨hstate.corrections s hs, hstate.scores s hs⟩⟩
      | inl hlt =>
        obtain ⟨hmax', hsum', hsplits⟩ := h.seen row' hlt
        rw [List.getElem?_set_ne (Nat.ne_of_gt hlt), List.getElem?_set_ne (Nat.ne_of_gt hlt)]
        refine ⟨hmax', hsum', fun s hs => ⟨?_, fun c hc => ?_⟩⟩
        · rw [hstate.kept_corrections _ fun s' _ =>
            hne row' s' s (hlt.trans hrow) (Nat.ne_of_lt hlt)]
          exact (hsplits s hs).1
        · rw [hstate.kept_scores _ fun s' _ c' hc' heq =>
            hne row' s' s (hlt.trans hrow) (Nat.ne_of_lt hlt) (cell_inj hc hc' heq).1]
          exact (hsplits s hs).2 c hc
    · have hlt' := Nat.lt_of_succ_le hle
      obtain ⟨hmax', hsum', hsplits⟩ := h.kept row' (Nat.le_of_lt hlt') hlt
      dsimp only
      rw [List.getElem?_set_ne (Nat.ne_of_lt hlt'), List.getElem?_set_ne (Nat.ne_of_lt hlt')]
      refine ⟨hmax', hsum', fun s hs c hc => ?_⟩
      rw [hstate.kept_scores _ fun s' _ c' hc' heq =>
        hne row' s' s hlt (Nat.ne_of_gt hlt') (cell_inj hc hc' heq).1]
      exact hsplits s hs c hc

variable (log) in
/-- The normalization of a group. -/
theorem normalizeSplitScoresKernel_spec (start : Buffers (ExtNum K))
    (hstart : Scored before tile activeSplits rows start)
    (hfinite : ∀ row < rows, Finite e (before row) (tile row) activeSplits) :
    ∃ buffers, normalizeSplitScoresKernel (kernelOps e log) activeSplits rows start = some buffers ∧
      RowsSeen e before tile activeSplits rows start rows buffers :=
  foldlM_range start
    ⟨rfl, rfl, rfl, rfl, rfl, rfl, rfl, rfl, fun row hrow => absurd hrow (Nat.not_lt_zero row),
      fun _ _ _ => ⟨rfl, rfl, fun _ _ _ _ => rfl⟩⟩
    fun row hrow _ h => rowsSeen_succ hrow hstart (hfinite row hrow) h

end rows

/-! ## A group -/

section group

variable {e : Exponential K} {log : ExtNum K → ExtNum K}

/-- The request of some keys, values and scaled queries, by position and component. -/
structure Group (K : Type) where
  key : ℕ → ℕ → K
  value : ℕ → ℕ → K
  query : ℕ → ℕ → ℕ → K
  scale : K
  contextLen : ℕ
  queryLen : ℕ
  start : ℕ
  tokens : ℕ
  causal : Bool

namespace Group

variable (group : Group K)

/-- The score of a row and a position. -/
def score (row t : ℕ) : K :=
  ∑ d : Fin kHeadDim, group.query (row % group.queryLen) (row / group.queryLen) d * group.scale
    * group.key t d

/-- The tile of a split, as a row sees it. -/
def tile (row split : ℕ) : List (Option K × (Fin kHeadDim → K)) :=
  (List.range kTileTokens).map fun c =>
    (if group.tokens ≤ split * kTileTokens + c ∨ (group.causal ∧
        group.contextLen + row % group.queryLen < group.start + (split * kTileTokens + c)) then none
      else some (group.score row (group.start + (split * kTileTokens + c))),
      fun d => if split * kTileTokens + c < group.tokens then
        group.value (group.start + (split * kTileTokens + c)) d else 0)

/-- The splits that are active. -/
def activeSplits : ℕ := (group.tokens + kTileTokens - 1) / kTileTokens

/-- The rows of the queries. -/
def rows : ℕ := kNumQueryHeads * group.queryLen

variable {group}

omit [LinearOrder K] in
theorem tileScores_tile {row split c : ℕ} (hc : c < kTileTokens) :
    (tileScores (group.tile row split))[c]?
      = some (if group.tokens ≤ split * kTileTokens + c ∨ (group.causal ∧
          group.contextLen + row % group.queryLen < group.start + (split * kTileTokens + c)) then
            .negInf
        else .fin (group.score row (group.start + (split * kTileTokens + c)))) := by
  unfold tileScores tile
  rw [List.map_map, List.getElem?_map, List.getElem?_range hc]
  refine congrArg some ?_
  dsimp only [Function.comp]
  split
  · rfl
  · rfl

omit [LinearOrder K] in
theorem length_tile (row split : ℕ) : (group.tile row split).length = kTileTokens := by
  unfold tile
  rw [List.length_map, List.length_range]

end Group

/-- A request in exact arithmetic. -/
structure Group.Of (group : Group K) (request : Request (ExtNum K))
    (convertedQuery : List (ExtNum K)) : Prop where
  contextLen : request.contextLen = group.contextLen
  queryLen : request.queryLen = group.queryLen
  queryLen_pos : 0 < group.queryLen
  reads : request.Reads (fun t d => .fin (group.key t d)) (fun t d => .fin (group.value t d))
  query : ∀ q < group.queryLen, ∀ head < kNumQueryHeads, ∀ d < kHeadDim,
    convertedQuery[(head * group.queryLen + q) * kHeadDim + d]?
      = some (.fin (group.query q head d * group.scale))

/-- The buffers have room for all splits. -/
structure Sized (rows : ℕ) (buffers : Buffers (ExtNum K)) : Prop where
  keyTiles : kSplitCount * (kTileTokens * kHeadDim) ≤ buffers.keyTiles.length
  valueTiles : kSplitCount * (kTileTokens * kHeadDim) ≤ buffers.valueTiles.length
  scores : kSplitCount * (rows * kTileTokens) ≤ buffers.scores.length
  splitOutput : kSplitCount * (rows * kHeadDim) ≤ buffers.splitOutput.length
  corrections : kSplitCount * rows ≤ buffers.corrections.length

/-- The running values of all rows. -/
structure HasRows (rows : ℕ) (row : ℕ → RunningRow (ExtNum K) kHeadDim)
    (buffers : Buffers (ExtNum K)) : Prop where
  runningMax : ∀ r < rows, buffers.runningMax[r]? = some (row r).runningMax
  runningSum : ∀ r < rows, buffers.runningSum[r]? = some (row r).runningSum
  runningOutput : ∀ r < rows, ∀ d : Fin kHeadDim,
    buffers.runningOutput[r * kHeadDim + d]? = some ((row r).runningOutput d)
  length_output : rows * kHeadDim ≤ buffers.runningOutput.length

omit [LinearOrder K] in
/-- The sum of the products of a key and a scaled query. -/
theorem dot_range (n : ℕ) (f g : ℕ → K) :
    ExtNum.dot ((List.range n).map fun l => .fin (f l)) ((List.range n).map fun l => .fin (g l))
      = .fin (∑ d : Fin n, g d * f d) := by
  have hofFn : ∀ h : ℕ → K, (List.range n).map (fun l => ExtNum.fin (h l))
      = (List.ofFn fun d : Fin n => h d).map .fin := by
    intro h
    rw [← List.map_coe_finRange_eq_range, List.map_map, List.ofFn_eq_map, List.map_map]
    rfl
  rw [hofFn, hofFn, ExtNum.dot_map_fin, zipWith_ofFn]
  exact congrArg ExtNum.fin (Finset.sum_congr rfl fun d _ => mul_comm _ _)

variable {group : Group K} {before : ℕ → RunningRow (ExtNum K) kHeadDim}

variable (e log) in
/-- The scores of a group. -/
theorem scores_spec {request : Request (ExtNum K)} {convertedQuery keyTiles scores : List (ExtNum K)}
    (hof : group.Of request convertedQuery)
    (hkeys : ∀ j < group.activeSplits * kTileTokens, ∀ d < kHeadDim, keyTiles[j * kHeadDim + d]?
      = some (if j < group.tokens then .fin (group.key (group.start + j) d) else .fin 0))
    (hbound : group.activeSplits * (group.rows * kTileTokens) ≤ scores.length) :
    ∃ scores', (List.range group.activeSplits).foldlM (fun scores split =>
        qkBatched (kernelOps e log) keyTiles convertedQuery scores split group.rows
          request.queryLen) scores = some scores' ∧
      scores'.length = scores.length ∧
      ∀ s < group.activeSplits, ∀ r < group.rows, ∀ c < kTileTokens,
        s * kTileTokens + c < group.tokens →
          scores'[(s * group.rows + r) * kTileTokens + c]?
            = some (.fin (group.score r (group.start + (s * kTileTokens + c)))) := by
  obtain ⟨scores', hok, hlength, hcells⟩ := splitProducts_spec (kernelOps e log) true
    kTileTokens group.queryLen kHeadDim kNumQueryHeads group.activeSplits scores
    (fun s => ⟨keyTiles, s * (kTileTokens * kHeadDim), kHeadDim, 0⟩)
    (fun _ => ⟨convertedQuery, 0, kHeadDim, group.queryLen * kHeadDim⟩) hbound hof.queryLen_pos
    (x := fun s _ c d => if s * kTileTokens + c < group.tokens then
      .fin (group.key (group.start + (s * kTileTokens + c)) d) else .fin 0)
    (y := fun _ head q d => .fin (group.query q head d * group.scale))
    (fun s hs head _ c hc d hd => by
      have haddr : s * (kTileTokens * kHeadDim) + head * 0 + (c * kHeadDim + d)
          = (s * kTileTokens + c) * kHeadDim + d := by ring
      dsimp only
      rw [if_pos rfl, haddr]
      exact hkeys _ (cell_lt hs hc) d hd)
    (fun s _ head hhead q hq d hd => by
      have haddr : 0 + head * (group.queryLen * kHeadDim) + (q * kHeadDim + d)
          = (head * group.queryLen + q) * kHeadDim + d := by ring
      dsimp only
      rw [haddr]
      exact hof.query q hq head hhead d hd)
  refine ⟨scores', ?_, hlength, fun s hs r hr c hc hin => ?_⟩
  · unfold qkBatched Group.rows
    rw [hof.queryLen]
    exact hok
  · refine (hcells s hs r hr c hc).trans (congrArg some ?_)
    simp only [hin, if_true]
    have hdot : (kernelOps e log).dot = ExtNum.dot := rfl
    unfold Group.score
    rw [hdot]
    exact dot_range kHeadDim (fun d => group.key (group.start + (s * kTileTokens + c)) d)
      fun d => group.query (r % group.queryLen) (r / group.queryLen) d * group.scale

variable (e log before) in
/-- The weighted values of a group. -/
theorem output_spec (valueTiles scores output : List (ExtNum K)) (hpos : 0 < group.queryLen)
    (hvalues : ∀ j < group.activeSplits * kTileTokens, ∀ d < kHeadDim, valueTiles[j * kHeadDim + d]?
      = some (if j < group.tokens then .fin (group.value (group.start + j) d) else .fin 0))
    (hscores : ∀ r < group.rows, ∀ s < group.activeSplits, ∀ c < kTileTokens,
      scores[(s * group.rows + r) * kTileTokens + c]?
        = (weightsOf e (before r) (group.tile r) s)[c]?)
    (hbound : group.activeSplits * (group.rows * kHeadDim) ≤ output.length) :
    ∃ output', (List.range group.activeSplits).foldlM (fun output split =>
        pvBatched (kernelOps e log) valueTiles scores output split group.rows
          (group.rows * kHeadDim) group.queryLen) output = some output' ∧
      output'.length = output.length ∧
      ∀ s < group.activeSplits, ∀ r < group.rows, ∀ d : Fin kHeadDim,
        output'[(s * group.rows + r) * kHeadDim + d]?
          = some (.dot (weightsOf e (before r) (group.tile r) s)
              ((tileValues (group.tile r s)).map (· d))) := by
  have hlength : ∀ r s, (weightsOf e (before r) (group.tile r) s).length = kTileTokens := by
    intro r s
    unfold weightsOf tileScores
    rw [List.length_map, List.length_map, Group.length_tile]
  obtain ⟨output', hok, hlen, hcells⟩ := splitProducts_spec (kernelOps e log) false
    kHeadDim group.queryLen kTileTokens kNumQueryHeads group.activeSplits output
    (fun s => ⟨valueTiles, s * (kTileTokens * kHeadDim), kHeadDim, 0⟩)
    (fun s => ⟨scores, s * (group.rows * kTileTokens), kTileTokens, group.queryLen * kTileTokens⟩)
    hbound hpos
    (x := fun s _ d c => if s * kTileTokens + c < group.tokens then
      .fin (group.value (group.start + (s * kTileTokens + c)) d) else .fin 0)
    (y := fun s head q c => (weightsOf e (before (head * group.queryLen + q))
      (group.tile (head * group.queryLen + q)) s).getD c .nan)
    (fun s hs head _ d hd c hc => by
      have haddr : s * (kTileTokens * kHeadDim) + head * 0 + (c * kHeadDim + d)
          = (s * kTileTokens + c) * kHeadDim + d := by ring
      dsimp only
      rw [if_neg Bool.false_ne_true, haddr]
      exact hvalues _ (cell_lt hs hc) d hd)
    (fun s hs head hhead q hq c hc => by
      have haddr : s * (group.rows * kTileTokens) + head * (group.queryLen * kTileTokens)
          + (q * kTileTokens + c)
          = (s * group.rows + (head * group.queryLen + q)) * kTileTokens + c := by ring
      have hr : head * group.queryLen + q < group.rows := cell_lt hhead hq
      dsimp only
      rw [haddr, hscores _ hr s hs c hc, List.getD_eq_getElem?_getD,
        List.getElem?_eq_getElem (hlength _ s ▸ hc), Option.getD_some])
  refine ⟨output', ?_, hlen, fun s hs r hr d => ?_⟩
  · unfold pvBatched
    exact hok
  · refine (hcells s hs r hr d d.isLt).trans (congrArg some ?_)
    have hdot : (kernelOps e log).dot = ExtNum.dot := rfl
    have hvalue : (tileValues (group.tile r s)).map (· d)
        = (List.range kTileTokens).map fun c => if s * kTileTokens + c < group.tokens then
            ExtNum.fin (group.value (group.start + (s * kTileTokens + c)) d) else .fin 0 := by
      unfold tileValues Group.tile
      rw [List.map_map, List.map_map]
      exact List.map_congr_left fun c _ => apply_ite ExtNum.fin _ _ _
    have hweight : (List.range kTileTokens).map (fun c =>
        (weightsOf e (before r) (group.tile r) s).getD c .nan)
        = weightsOf e (before r) (group.tile r) s := range_map_getD (hlength r s) _
    rw [hdot, ExtNum.dot_comm, Nat.div_add_mod' r group.queryLen, hweight, hvalue]

variable (e log before) in
/-- The running output of a group. -/
theorem mergeSplitOutputKernel_spec (splitOutput corrections runningOutput : List (ExtNum K))
    (hpos : 0 < group.queryLen)
    (hcorrections : ∀ r < group.rows, ∀ s < group.activeSplits,
      corrections[s * group.rows + r]? = some (correctionOf e (before r) (group.tile r) s))
    (houtput : ∀ s < group.activeSplits, ∀ r < group.rows, ∀ d : Fin kHeadDim,
      splitOutput[(s * group.rows + r) * kHeadDim + d]?
        = some (.dot (weightsOf e (before r) (group.tile r) s)
            ((tileValues (group.tile r s)).map (· d))))
    (hrunning : ∀ r < group.rows, ∀ d : Fin kHeadDim,
      runningOutput[r * kHeadDim + d]? = some ((before r).runningOutput d))
    (hbound : group.rows * kHeadDim ≤ runningOutput.length) :
    ∃ running, mergeSplitOutputKernel (kernelOps e log) group.activeSplits group.rows
        (group.rows * kHeadDim) splitOutput corrections runningOutput = some running ∧
      running.length = runningOutput.length ∧
      ∀ r < group.rows, ∀ d : Fin kHeadDim, running[r * kHeadDim + d]?
        = some ((seenTiles e (before r) (group.tile r) group.activeSplits).runningOutput d) := by
  have hdim : 0 < kHeadDim := Nat.succ_pos 255
  have hrows : 0 < group.rows := Nat.mul_pos (Nat.succ_pos 3) hpos
  obtain ⟨running, hok, hwritten⟩ := forEach_launched (group.rows * kHeadDim)
    (fun index runningOutput => do
      (List.range group.activeSplits).foldlM (fun value split => do
        return (kernelOps e log).add ((kernelOps e log).mul value
            (← load corrections (split * group.rows + index / kHeadDim)))
          (← load splitOutput (split * (group.rows * kHeadDim) + index)))
        (← load runningOutput index))
    (fun index => (seenTiles e (before (index / kHeadDim)) (group.tile (index / kHeadDim))
      group.activeSplits).runningOutput ⟨index % kHeadDim, Nat.mod_lt index hdim⟩)
    runningOutput (Nat.mul_pos hrows hdim) hbound (fun index hindex buf hown _ => by
      have hr : index / kHeadDim < group.rows := Nat.div_lt_of_lt_mul
        (Nat.mul_comm group.rows kHeadDim ▸ List.mem_range.mp hindex)
      have hstart := hrunning _ hr ⟨index % kHeadDim, Nat.mod_lt index hdim⟩
      dsimp only at hstart
      rw [Nat.div_add_mod' index kHeadDim] at hstart
      refine (bind_eq (hown.trans hstart) _).trans ?_
      obtain ⟨_, hfold, rfl⟩ := foldlM_range
        (P := fun n value => value = (seenTiles e (before (index / kHeadDim))
          (group.tile (index / kHeadDim)) n).runningOutput ⟨index % kHeadDim, Nat.mod_lt index hdim⟩)
        (f := fun value split => do
          return (kernelOps e log).add ((kernelOps e log).mul value
              (← load corrections (split * group.rows + index / kHeadDim)))
            (← load splitOutput (split * (group.rows * kHeadDim) + index)))
        (n := group.activeSplits) ((before (index / kHeadDim)).runningOutput
          ⟨index % kHeadDim, Nat.mod_lt index hdim⟩) rfl (fun s hs value hvalue => by
          have hsplit := houtput s hs _ hr ⟨index % kHeadDim, Nat.mod_lt index hdim⟩
          have haddr : (s * group.rows + index / kHeadDim) * kHeadDim + index % kHeadDim
              = s * (group.rows * kHeadDim) + index := by
            rw [Nat.add_mul, Nat.add_assoc, Nat.div_add_mod', Nat.mul_assoc]
          dsimp only at hsplit
          rw [haddr] at hsplit
          refine ⟨_, (bind_eq (hcorrections _ hr s hs) _).trans (bind_eq hsplit _), ?_⟩
          rw [hvalue, seenTiles_output]
          rfl)
      exact hfold)
  refine ⟨running, hok, hwritten.length, fun r hr d => ?_⟩
  have hcell := hwritten.written (r * kHeadDim + d) (List.mem_range.mpr (cell_lt hr d.isLt))
  simp only [id, cell_div d.isLt, cell_mod d.isLt] at hcell
  exact hcell

theorem onDevice_eq {τ : Type} {x : Option τ} {a : τ} (h : x = some a) : onDevice x = .ok a := by
  rw [h]
  rfl

variable (e log) in
/-- The masked scores of a group are those of its tiles. -/
theorem masked_spec {request : Request (ExtNum K)} {convertedQuery scores : List (ExtNum K)}
    (hof : group.Of request convertedQuery) (htokens : 0 < group.tokens)
    (hbound : group.activeSplits * (group.rows * kTileTokens) ≤ scores.length)
    (hscores : ∀ s < group.activeSplits, ∀ r < group.rows, ∀ c < kTileTokens,
      s * kTileTokens + c < group.tokens → scores[(s * group.rows + r) * kTileTokens + c]?
        = some (.fin (group.score r (group.start + (s * kTileTokens + c))))) :
    ∃ scores', maskScores (kernelOps e log) request group.start group.tokens group.activeSplits
        group.rows group.causal scores = .ok scores' ∧ scores'.length = scores.length ∧
      ∀ r < group.rows, ∀ s < group.activeSplits, ∀ c < kTileTokens,
        scores'[(s * group.rows + r) * kTileTokens + c]? = (tileScores (group.tile r s))[c]? := by
  have hsplits : 0 < group.activeSplits := by
    unfold Group.activeSplits kTileTokens
    omega
  have hrows : 0 < group.rows := Nat.mul_pos (Nat.succ_pos 3) hof.queryLen_pos
  unfold maskScores
  split
  · obtain ⟨scores', hok, hlength, hcells⟩ := maskGroupScoresKernel_spec (kernelOps e log)
      request.queryLen request.contextLen group.start group.tokens group.causal hsplits hrows hbound
    refine ⟨scores', onDevice_eq hok, hlength, fun r hr s hs c hc => ?_⟩
    rw [hcells s hs r hr c hc, Group.tileScores_tile hc, hof.contextLen, hof.queryLen]
    split
    · rfl
    · next hmask =>
      exact hscores s hs r hr c hc (Nat.lt_of_not_le fun hle => hmask (Or.inl hle))
  · next hfull =>
    obtain ⟨hcausal, htokens⟩ := not_or.mp hfull
    have htokens := not_not.mp htokens
    refine ⟨scores, rfl, rfl, fun r hr s hs c hc => ?_⟩
    have hin : s * kTileTokens + c < group.tokens :=
      Nat.lt_of_lt_of_eq (cell_lt hs hc) htokens.symm
    rw [hscores s hs r hr c hc hin, Group.tileScores_tile hc, if_neg]
    intro hmask
    cases hmask with
    | inl hle => exact Nat.not_le.mpr hin hle
    | inr hbehind => exact hcausal hbehind.1

variable (e log group before) in
/-- Every row sees the tiles of a group. -/
theorem runGroup_spec {request : Request (ExtNum K)} {convertedQuery : List (ExtNum K)}
    {buffers : Buffers (ExtNum K)} (hof : group.Of request convertedQuery)
    (htokens : 0 < group.tokens) (hfour : group.tokens ≤ kGroupTokens)
    (hend : group.start + group.tokens ≤ group.contextLen + group.queryLen)
    (hsized : Sized group.rows buffers) (hrows : HasRows group.rows before buffers)
    (hfinite : ∀ r < group.rows, Finite e (before r) (group.tile r) group.activeSplits) :
    ∃ buffers', runGroup (kernelOps e log) request convertedQuery buffers group.start group.tokens
        group.causal = .ok buffers' ∧ Sized group.rows buffers' ∧
      HasRows group.rows (fun r => seenTiles e (before r) (group.tile r) group.activeSplits)
        buffers' := by
  have hsplits : 0 < group.activeSplits ∧ group.activeSplits ≤ kSplitCount := by
    unfold Group.activeSplits
    unfold kGroupTokens kSplitCount at hfour
    unfold kTileTokens at *
    unfold kSplitCount
    omega
  have hroom : ∀ n m : ℕ, kSplitCount * n ≤ m → group.activeSplits * n ≤ m := fun n m h =>
    (Nat.mul_le_mul_right n hsplits.2).trans h
  have hgroup : group.start + group.tokens ≤ request.contextLen + request.queryLen := by
    rw [hof.contextLen, hof.queryLen]
    exact hend
  obtain ⟨⟨keyTiles, valueTiles⟩, hgather, hkeyLength, hvalueLength, htiles⟩ :=
    gatherKvGroupKernel_spec (kernelOps e log) (buffers.keyTiles, buffers.valueTiles) hof.reads hgroup
      (hroom _ _ hsized.keyTiles) (hroom _ _ hsized.valueTiles)
  obtain ⟨scores, hscoresOk, hscoresLength, hscores⟩ := scores_spec e log hof
    (fun j hj d hd => (htiles j hj d hd).1) (hroom _ _ hsized.scores)
  obtain ⟨masked, hmaskedOk, hmaskedLength, hmasked⟩ := masked_spec e log hof htokens
    (hscoresLength ▸ hroom _ _ hsized.scores) hscores
  obtain ⟨normal, hnormalOk, hnormal⟩ := normalizeSplitScoresKernel_spec log
    { buffers with keyTiles, valueTiles, scores := masked }
    ⟨hrows.runningMax, hrows.runningSum, hroom _ _ hsized.corrections, hmasked⟩ hfinite
  obtain ⟨output, houtputOk, houtputLength, houtput⟩ := output_spec e log before
    normal.valueTiles normal.scores normal.splitOutput hof.queryLen_pos
    (fun j hj d hd => by rw [hnormal.valueTiles]; exact (htiles j hj d hd).2)
    (fun r hr s hs => ((hnormal.seen r hr).2.2 s hs).2)
    (by rw [hnormal.splitOutput]; exact hroom _ _ hsized.splitOutput)
  obtain ⟨running, hrunningOk, hrunningLength, hrunning⟩ := mergeSplitOutputKernel_spec
    e log before output normal.corrections normal.runningOutput hof.queryLen_pos
    (fun r hr s hs => ((hnormal.seen r hr).2.2 s hs).1) houtput
    (by rw [hnormal.runningOutput]; exact hrows.runningOutput)
    (by rw [hnormal.runningOutput]; exact hrows.length_output)
  refine ⟨{ normal with splitOutput := output, runningOutput := running }, ?_, ?_, ?_⟩
  · have hrowsEq : kNumQueryHeads * request.queryLen = group.rows := by rw [hof.queryLen]; rfl
    unfold runGroup
    dsimp only
    rw [hrowsEq]
    refine Except.bind_eq_ok.mpr ⟨(), Except.raiseIf_eq_ok.mpr (not_not.mpr hsplits), ?_⟩
    refine Except.bind_eq_ok.mpr ⟨(keyTiles, valueTiles), onDevice_eq hgather, ?_⟩
    refine Except.bind_eq_ok.mpr ⟨scores, onDevice_eq hscoresOk, ?_⟩
    refine Except.bind_eq_ok.mpr ⟨masked, hmaskedOk, ?_⟩
    refine Except.bind_eq_ok.mpr ⟨normal, onDevice_eq hnormalOk, ?_⟩
    rw [hof.queryLen]
    refine Except.bind_eq_ok.mpr ⟨output, onDevice_eq houtputOk, ?_⟩
    exact Except.bind_eq_ok.mpr ⟨running, onDevice_eq hrunningOk, rfl⟩
  · refine ⟨?_, ?_, ?_, ?_, ?_⟩
    · dsimp only
      rw [hnormal.keyTiles]
      exact hsized.keyTiles.trans_eq hkeyLength.symm
    · dsimp only
      rw [hnormal.valueTiles]
      exact hsized.valueTiles.trans_eq hvalueLength.symm
    · exact hsized.scores.trans_eq
        (hnormal.length_scores.trans (hmaskedLength.trans hscoresLength)).symm
    · dsimp only
      rw [houtputLength, hnormal.splitOutput]
      exact hsized.splitOutput
    · exact hsized.corrections.trans_eq hnormal.length_corrections.symm
  · refine ⟨fun r hr => (hnormal.seen r hr).1, fun r hr => (hnormal.seen r hr).2.1, hrunning, ?_⟩
    dsimp only
    rw [hrunningLength, hnormal.runningOutput]
    exact hrows.length_output

end group

end Ikun.Attention.Split4
