import Mathlib.Algebra.BigOperators.Fin
import Mathlib.Analysis.SpecialFunctions.Exp
import Ikun.Attention.Rows
import Ikun.Lib.OnlineSoftmax

/-!
# Prefix attention in exact arithmetic

In exact arithmetic, with minus infinity for masked scores, a row of running values sums up the tiles it
has seen: the sum of their weights and the values mixed with them (`updateRow_summary`). So the division
at the end gives the softmax over all tiles, and the masked keys do not count.

`forwardPrefixPytorch_eq_softmax` says for every batch that each row of the output is the causal softmax
attention of its query over the cached tokens, in the order of the block table, and the new tokens up to
its own.
-/

namespace Ikun.Attention

open OnlineSoftmax

variable {K : Type} [Field K] [LinearOrder K] [IsStrictOrderedRing K]
variable {kvHeads gqaRatio headDim : ℕ}

/-- Exact arithmetic. -/
def exactOps (e : Exponential K) : TensorOps (ExtNum K) where
  zero := .fin 0
  negInf := .negInf
  add := ExtNum.add
  sub := ExtNum.sub
  mul := ExtNum.mul
  div := ExtNum.div
  maximum := ExtNum.maximum
  exp := ExtNum.exp e
  amax := ExtNum.amax
  sum := ExtNum.sum
  dot := ExtNum.dot

/-! ## A row -/

section row

variable {e : Exponential K} {μ : K}
  {seen tile : List (Option K × (Fin headDim → K))}

/-- The running values of a row that has seen some tiles. -/
def summary (e : Exponential K) (μ : K) (seen : List (Option K × (Fin headDim → K))) :
    RunningRow (ExtNum K) headDim where
  runningMax := .fin μ
  runningSum := .fin (expSum e μ seen)
  runningOutput d := .fin (expMix e μ seen d)

/-- The scores of a tile. -/
def tileScores (tile : List (Option K × (Fin headDim → K))) : List (ExtNum K) :=
  tile.map fun p => .ofScore p.1

/-- The values of a tile. -/
def tileValues (tile : List (Option K × (Fin headDim → K))) : List (Fin headDim → ExtNum K) :=
  tile.map fun p d => .fin (p.2 d)

omit [IsStrictOrderedRing K] in
/-- The weights of a tile. -/
theorem sum_tile (e : Exponential K) (μ : K) (tile : List (Option K × (Fin headDim → K))) :
    ExtNum.sum ((tileScores tile).map fun score => ExtNum.exp e (ExtNum.sub score (.fin μ)))
        = .fin (expSum e μ tile) ∧
      ∀ d, ExtNum.dot ((tileScores tile).map fun score => ExtNum.exp e (ExtNum.sub score (.fin μ)))
        ((tileValues tile).map (· d)) = .fin (expMix e μ tile d) := by
  have hweights : (tileScores tile).map (fun score => ExtNum.exp e (ExtNum.sub score (.fin μ)))
      = (tile.map fun p => weight e μ p.1).map .fin := by
    unfold tileScores
    rw [List.map_map, List.map_map]
    exact List.map_congr_left fun p _ => ExtNum.exp_sub e μ p.1
  refine ⟨?_, fun d => ?_⟩
  · rw [hweights, ExtNum.sum_map_fin]
    rfl
  · have hvalues : (tileValues tile).map (· d) = (tile.map fun p => p.2 d).map .fin := by
      unfold tileValues
      rw [List.map_map, List.map_map]
      rfl
    rw [hweights, hvalues, ExtNum.dot_map_fin, List.zipWith_map, List.zipWith_self]
    rfl

omit [IsStrictOrderedRing K] in
/-- A tile is added to what a row has seen. -/
theorem updateRow_summary (e : Exponential K) (μ : K)
    (seen : List (Option K × (Fin headDim → K))) (hne : tile ≠ []) : ∃ μ',
    updateRow (exactOps e) (tileValues tile) (tileScores tile) (summary e μ seen)
      = summary e μ' (seen ++ tile) := by
  obtain ⟨m, hm, -⟩ := ExtNum.amax_map_ofScore (mt List.map_eq_nil_iff.mp hne : tile.map (·.1) ≠ [])
  obtain ⟨μ', hmax⟩ : ∃ μ', ExtNum.maximum (.fin μ) (ExtNum.ofScore m) = .fin μ' := by
    cases m with
    | none => exact ⟨μ, rfl⟩
    | some s => exact ⟨max μ s, rfl⟩
  have hscores : tileScores tile = (tile.map (·.1)).map .ofScore := by
    rw [List.map_map]
    rfl
  obtain ⟨hsum, hmix⟩ := sum_tile e μ' tile
  refine ⟨μ', ?_⟩
  unfold updateRow exactOps
  dsimp only
  rw [hscores, hm, ← hscores]
  unfold summary
  dsimp only
  rw [hmax]
  have hcorrection : ExtNum.exp e (ExtNum.sub (.fin μ) (.fin μ')) = .fin (e.exp (μ - μ')) := rfl
  rw [hcorrection, hsum]
  congr 1
  · rw [expSum_append, expSum_shift μ μ' seen, mul_comm]
    rfl
  · funext d
    rw [hmix d, expMix_append, expMix_shift μ μ' seen, mul_comm]
    rfl

omit [IsStrictOrderedRing K] in
/-- The first tile; one of its scores is a number. -/
theorem updateRow_init (e : Exponential K) (hsome : ∃ p ∈ tile, p.1 ≠ none) : ∃ μ,
    updateRow (exactOps e) (tileValues tile) (tileScores tile) (.init (exactOps e))
      = summary e μ tile := by
  obtain ⟨p, hp, hscore⟩ := hsome
  obtain ⟨m, hm, hnone⟩ := ExtNum.amax_map_ofScore
    (mt List.map_eq_nil_iff.mp (List.ne_nil_of_mem hp) : tile.map (·.1) ≠ [])
  have hscores : tileScores tile = (tile.map (·.1)).map .ofScore := by
    rw [List.map_map]
    rfl
  cases m with
  | none => exact absurd (hnone rfl _ (List.mem_map_of_mem hp)) hscore
  | some μ =>
    obtain ⟨hsum, hmix⟩ := sum_tile e μ tile
    refine ⟨μ, ?_⟩
    have hmax : ExtNum.maximum (.negInf : ExtNum K) (ExtNum.ofScore (some μ)) = .fin μ := rfl
    have hcorrection : ExtNum.exp e (ExtNum.sub .negInf (.fin μ)) = .fin 0 := rfl
    unfold updateRow RunningRow.init exactOps summary
    dsimp only
    rw [hscores, hm, ← hscores, hmax, hcorrection, hsum]
    congr 1
    · exact congrArg ExtNum.fin (by rw [mul_zero, zero_add])
    · funext d
      rw [hmix d]
      exact congrArg ExtNum.fin (by rw [mul_zero, zero_add])

omit [IsStrictOrderedRing K] in
/-- What a row has seen after some tiles; one of the scores of the first is a number. -/
theorem foldl_updateRow {tiles : List (List (Option K × (Fin headDim → K)))}
    (hfirst : ∃ p ∈ tiles.headD [], p.1 ≠ none) (htiles : ∀ t ∈ tiles, t ≠ []) : ∃ μ,
    tiles.foldl (fun row t => updateRow (exactOps e) (tileValues t) (tileScores t) row)
        (.init (exactOps e))
      = summary e μ tiles.flatten := by
  have hrest : ∀ (tiles : List (List (Option K × (Fin headDim → K)))) (μ : K)
      (seen : List (Option K × (Fin headDim → K))), (∀ t ∈ tiles, t ≠ []) → ∃ μ',
      tiles.foldl (fun row t => updateRow (exactOps e) (tileValues t) (tileScores t) row)
        (summary e μ seen) = summary e μ' (seen ++ tiles.flatten) := by
    intro tiles
    induction tiles with
    | nil =>
      intro μ seen _
      exact ⟨μ, by rw [List.flatten_nil, List.append_nil]; rfl⟩
    | cons t tiles ih =>
      intro μ seen htiles
      obtain ⟨μ', hstep⟩ := updateRow_summary e μ seen
        (htiles t List.mem_cons_self)
      obtain ⟨μ'', hfold⟩ := ih μ' (seen ++ t) fun t' ht' => htiles t' (List.mem_cons_of_mem t ht')
      refine ⟨μ'', ?_⟩
      rw [List.foldl_cons, hstep, hfold, List.flatten_cons, List.append_assoc]
  cases tiles with
  | nil =>
    obtain ⟨p, hp, -⟩ := hfirst
    exact absurd hp List.not_mem_nil
  | cons tile tiles =>
    have hsome : ∃ p ∈ tile, p.1 ≠ none := hfirst
    obtain ⟨μ, hinit⟩ := updateRow_init e hsome
    rw [List.foldl_cons, hinit]
    exact hrest tiles μ tile fun t ht => htiles t (List.mem_cons_of_mem tile ht)

/-- The division at the end. -/
theorem div_summary (hsome : ∃ p ∈ seen, p.1 ≠ none) (d : Fin headDim) :
    (exactOps e).div ((summary e μ seen).runningOutput d) (summary e μ seen).runningSum
      = .fin (softmax e seen d) := by
  have hpos := expSum_pos (e := e) (μ := μ) hsome
  exact (if_neg hpos.ne').trans (congrArg ExtNum.fin (mix_div_sum d))

end row

/-! ## The rows of a segment -/

section segment

variable {e : Exponential K} {scale : K} {tileSize : ℕ}

/-- The tensors of a token in exact arithmetic. -/
def numToken (token : KVToken K kvHeads headDim) : KVToken (ExtNum K) kvHeads headDim :=
  fun kvHead d => .fin (token kvHead d)

/-- The queries of a token in exact arithmetic. -/
def numQuery (query : QueryToken K kvHeads gqaRatio headDim) :
    QueryToken (ExtNum K) kvHeads gqaRatio headDim :=
  fun head d => .fin (query head d)

/-- The scaled product of a query and a key. -/
def headScore (scale : K) (query : QueryToken K kvHeads gqaRatio headDim)
    (head : Fin (kvHeads * gqaRatio)) (key : KVToken K kvHeads headDim) : K :=
  ∑ d, query head d * scale * key head.divNat d

omit [LinearOrder K] [IsStrictOrderedRing K] in
theorem zipWith_ofFn {n : ℕ} (f g : Fin n → K) :
    (List.zipWith (· * ·) (List.ofFn f) (List.ofFn g)).sum = ∑ d, f d * g d := by
  rw [← List.sum_ofFn]
  refine congrArg List.sum (List.ext_getElem ?_ fun k h₁ h₂ => ?_)
  · rw [List.length_zipWith, List.length_ofFn, List.length_ofFn, List.length_ofFn, Nat.min_self]
  · rw [List.getElem_zipWith, List.getElem_ofFn, List.getElem_ofFn, List.getElem_ofFn]

omit [IsStrictOrderedRing K] in
/-- A score in exact arithmetic. -/
theorem score_eq (query : QueryToken K kvHeads gqaRatio headDim) (key : KVToken K kvHeads headDim)
    (kvHead : Fin kvHeads) (g : Fin gqaRatio) :
    score (exactOps e) (.fin scale) (numQuery query) (numToken key) kvHead g
      = .fin (headScore scale query (finProdFinEquiv (kvHead, g)) key) := by
  have hhead : (finProdFinEquiv (kvHead, g)).divNat = kvHead :=
    congrArg Prod.fst (finProdFinEquiv.symm_apply_apply (kvHead, g))
  have hquery : scaledQuery (exactOps e) (.fin scale) (numQuery query) kvHead g
      = (List.ofFn fun d => query (finProdFinEquiv (kvHead, g)) d * scale).map .fin := by
    rw [List.map_ofFn]
    rfl
  have hkey : List.ofFn (numToken key kvHead) = (List.ofFn (key kvHead)).map .fin := by
    rw [List.map_ofFn]
    rfl
  unfold score headScore
  rw [hquery, hkey, hhead]
  exact (ExtNum.dot_map_fin _ _).trans (congrArg ExtNum.fin (zipWith_ofFn _ _))

/-- The scores and the values of some tokens, for a query and a head. -/
def attended (scale : K) (query : QueryToken K kvHeads gqaRatio headDim)
    (head : Fin (kvHeads * gqaRatio))
    (tokens : List (KVToken K kvHeads headDim × KVToken K kvHeads headDim)) :
    List (Option K × (Fin headDim → K)) :=
  tokens.map fun t => (some (headScore scale query head t.1), t.2 head.divNat)

/-- The same for the tokens of a segment from position `start` on: those behind the row are masked. -/
def attendedCausally (scale : K) (query : QueryToken K kvHeads gqaRatio headDim)
    (head : Fin (kvHeads * gqaRatio)) (row start : ℕ)
    (tokens : List (KVToken K kvHeads headDim × KVToken K kvHeads headDim)) :
    List (Option K × (Fin headDim → K)) :=
  tokens.mapIdx fun j t =>
    (if row < start + j then none else some (headScore scale query head t.1), t.2 head.divNat)

/-- Softmax attention of a query over some tokens. -/
def softmaxAttention (e : Exponential K) (scale : K)
    (query : QueryToken K kvHeads gqaRatio headDim)
    (tokens : List (KVToken K kvHeads headDim × KVToken K kvHeads headDim)) :
    QueryToken K kvHeads gqaRatio headDim :=
  fun head d => softmax e (attended scale query head tokens) d

omit [IsStrictOrderedRing K] in
/-- The softmax attention of a row over a context and the tokens of its segment. -/
theorem softmax_attended (query : QueryToken K kvHeads gqaRatio headDim)
    (head : Fin (kvHeads * gqaRatio)) (row : ℕ)
    (context tokens : List (KVToken K kvHeads headDim × KVToken K kvHeads headDim))
    (d : Fin headDim) :
    softmax e (attended scale query head context
        ++ attendedCausally scale query head row 0 tokens) d
      = softmaxAttention e scale query (context ++ tokens.take (row + 1)) head d := by
  have hall : ∀ tokens : List (KVToken K kvHeads headDim × KVToken K kvHeads headDim),
      (attended scale query head tokens).filter (fun p => p.1.isSome)
        = attended scale query head tokens := by
    intro tokens
    refine List.filter_eq_self.mpr fun p hp => ?_
    obtain ⟨t, -, rfl⟩ := List.mem_map.mp hp
    rfl
  have hcausal : (attendedCausally scale query head row 0 tokens).filter (fun p => p.1.isSome)
      = attended scale query head (tokens.take (row + 1)) := by
    have hseen : (attendedCausally scale query head row 0 tokens).take (row + 1)
        = attended scale query head (tokens.take (row + 1)) := by
      refine List.ext_getElem? fun k => ?_
      unfold attendedCausally attended
      rw [List.getElem?_take, List.getElem?_map, List.getElem?_take]
      split
      · next hk =>
        rw [List.getElem?_mapIdx]
        cases tokens[k]? with
        | none => rfl
        | some t => exact congrArg some (Prod.ext (if_neg (by omega)) rfl)
      · rfl
    have hmasked : ∀ p ∈ (attendedCausally scale query head row 0 tokens).drop (row + 1),
        ¬ p.1.isSome := by
      intro p hp
      obtain ⟨k, hk⟩ := List.mem_iff_getElem?.mp hp
      unfold attendedCausally at hk
      rw [List.getElem?_drop, List.getElem?_mapIdx] at hk
      obtain ⟨t, -, rfl⟩ := Option.map_eq_some_iff.mp hk
      rw [if_pos (by omega)]
      exact Bool.false_ne_true
    rw [← List.take_append_drop (row + 1) (attendedCausally scale query head row 0 tokens),
      List.filter_append, List.filter_eq_nil_iff.mpr hmasked, List.append_nil, hseen, hall]
  unfold softmaxAttention
  rw [← softmax_filter, List.filter_append, hall, hcausal]
  unfold attended
  rw [List.map_append]

/-- A run of updates, in the rows of one head. -/
theorem foldl_updates {α : Type} (ops : TensorOps α) (kvHead : Fin kvHeads) (g : Fin gqaRatio)
    {row : ℕ} (calls : List (SoftmaxCall α kvHeads gqaRatio headDim))
    (state : RunningState α kvHeads gqaRatio headDim) {start : RunningRow α headDim}
    (hstart : (state kvHead g)[row]? = some start)
    (hcalls : ∀ call ∈ calls, row < (call.scores kvHead g).length) :
    (calls.foldl (updateOnlineSoftmaxFromScores ops) state kvHead g)[row]?
      = some (calls.foldl (fun r call =>
          updateRow ops (call.value kvHead) ((call.scores kvHead g).getD row []) r) start) := by
  induction calls generalizing state start with
  | nil => exact hstart
  | cons call calls ih =>
    refine ih (updateOnlineSoftmaxFromScores ops state call) ?_ fun call' hcall' =>
      hcalls call' (List.mem_cons_of_mem call hcall')
    have hscores := List.getElem?_eq_getElem (hcalls call List.mem_cons_self)
    unfold updateOnlineSoftmaxFromScores
    rw [List.getElem?_zipWith, hscores, hstart]
    dsimp only
    rw [List.getD_eq_getElem?_getD, hscores]
    rfl

variable {queries : List (QueryToken K kvHeads gqaRatio headDim)}
  {tokens context : List (KVToken K kvHeads headDim × KVToken K kvHeads headDim)}

/-- The keys of some tokens in exact arithmetic. -/
def numKeys (tokens : List (KVToken K kvHeads headDim × KVToken K kvHeads headDim)) :
    List (KVToken (ExtNum K) kvHeads headDim) := tokens.map fun t => numToken t.1

/-- The values of some tokens in exact arithmetic. -/
def numValues (tokens : List (KVToken K kvHeads headDim × KVToken K kvHeads headDim)) :
    List (KVToken (ExtNum K) kvHeads headDim) := tokens.map fun t => numToken t.2

omit [IsStrictOrderedRing K] in
/-- A call for a tile of the context. -/
theorem contextCall_eq (e : Exponential K) (scale : K)
    (tokens : List (KVToken K kvHeads headDim × KVToken K kvHeads headDim)) {row : ℕ}
    {query : QueryToken K kvHeads gqaRatio headDim}
    (hquery : queries[row]? = some query) (kvHead : Fin kvHeads) (g : Fin gqaRatio) :
    let call := contextCall (exactOps e) (.fin scale) (queries.map numQuery) (numKeys tokens)
      (numValues tokens)
    let tile := attended scale query (finProdFinEquiv (kvHead, g)) tokens
    (call.scores kvHead g).length = queries.length ∧
      (call.scores kvHead g).getD row [] = tileScores tile ∧ call.value kvHead = tileValues tile := by
  have hhead : (finProdFinEquiv (kvHead, g)).divNat = kvHead :=
    congrArg Prod.fst (finProdFinEquiv.symm_apply_apply (kvHead, g))
  intro call tile
  refine ⟨?_, ?_, ?_⟩
  · show (List.map _ (queries.map numQuery)).length = _
    rw [List.length_map, List.length_map]
  · show (List.map _ (queries.map numQuery)).getD row [] = tileScores tile
    rw [List.getD_eq_getElem?_getD, List.getElem?_map, List.getElem?_map, hquery]
    show List.map _ (numKeys tokens) = List.map _ (List.map _ tokens)
    unfold numKeys
    rw [List.map_map, List.map_map]
    exact List.map_congr_left fun t _ => score_eq query t.1 kvHead g
  · show List.map _ (numValues tokens) = List.map _ (List.map _ tokens)
    unfold numValues
    rw [List.map_map, List.map_map]
    refine List.map_congr_left fun t _ => funext fun d => ?_
    show numToken t.2 kvHead d = .fin (t.2 (finProdFinEquiv (kvHead, g)).divNat d)
    rw [hhead]
    rfl

theorem slice_map {σ τ : Type} (f : σ → τ) (l : List σ) (bounds : ℕ × ℕ) :
    slice (l.map f) bounds = (slice l bounds).map f := by
  unfold slice
  rw [← List.map_take, ← List.map_drop]

omit [IsStrictOrderedRing K] in
/-- A call for a tile of the segment itself. -/
theorem causalCall_eq (e : Exponential K) (scale : K)
    (tokens : List (KVToken K kvHeads headDim × KVToken K kvHeads headDim)) {row : ℕ}
    {query : QueryToken K kvHeads gqaRatio headDim}
    (hquery : queries[row]? = some query) (kvHead : Fin kvHeads) (g : Fin gqaRatio)
    (bounds : ℕ × ℕ) :
    let call := causalCall (exactOps e) (.fin scale) (queries.map numQuery) (numKeys tokens)
      (numValues tokens) bounds
    let tile := attendedCausally scale query (finProdFinEquiv (kvHead, g)) row bounds.1
      (slice tokens bounds)
    (call.scores kvHead g).length = queries.length ∧
      (call.scores kvHead g).getD row [] = tileScores tile ∧ call.value kvHead = tileValues tile := by
  have hhead : (finProdFinEquiv (kvHead, g)).divNat = kvHead :=
    congrArg Prod.fst (finProdFinEquiv.symm_apply_apply (kvHead, g))
  intro call tile
  refine ⟨?_, ?_, ?_⟩
  · show (List.mapIdx _ (queries.map numQuery)).length = _
    rw [List.length_mapIdx, List.length_map]
  · show (List.mapIdx _ (queries.map numQuery)).getD row [] = tileScores tile
    rw [List.getD_eq_getElem?_getD, List.getElem?_mapIdx, List.getElem?_map, hquery]
    show List.mapIdx _ (slice (numKeys tokens) bounds) = List.map _ (List.mapIdx _ _)
    unfold numKeys
    rw [slice_map]
    refine List.ext_getElem? fun k => ?_
    rw [List.getElem?_mapIdx, List.getElem?_map, List.getElem?_map, List.getElem?_mapIdx]
    cases (slice tokens bounds)[k]? with
    | none => rfl
    | some t =>
      refine congrArg some ?_
      show (if row < bounds.1 + k then _ else _)
        = ExtNum.ofScore (if row < bounds.1 + k then none else some _)
      split
      · rfl
      · exact score_eq query t.1 kvHead g
  · show List.map _ (slice (numValues tokens) bounds) = List.map _ (List.mapIdx _ _)
    unfold numValues
    rw [slice_map]
    refine List.ext_getElem? fun k => ?_
    rw [List.getElem?_map, List.getElem?_map, List.getElem?_map, List.getElem?_mapIdx]
    cases (slice tokens bounds)[k]? with
    | none => rfl
    | some t =>
      refine congrArg some (funext fun d => ?_)
      show numToken t.2 kvHead d = .fin (t.2 (finProdFinEquiv (kvHead, g)).divNat d)
      rw [hhead]
      rfl

omit [LinearOrder K] [IsStrictOrderedRing K] in
/-- A tile of the segment is a slice of the masked tokens. -/
theorem attendedCausally_slice (query : QueryToken K kvHeads gqaRatio headDim)
    (head : Fin (kvHeads * gqaRatio)) (row : ℕ) (bounds : ℕ × ℕ) :
    attendedCausally scale query head row bounds.1 (slice tokens bounds)
      = slice (attendedCausally scale query head row 0 tokens) bounds := by
  refine List.ext_getElem? fun k => ?_
  unfold attendedCausally slice
  rw [List.getElem?_mapIdx, List.getElem?_drop, List.getElem?_drop, List.getElem?_take,
    List.getElem?_take, List.getElem?_mapIdx, Nat.zero_add]
  cases Nat.lt_or_ge (bounds.1 + k) bounds.2 with
  | inl hk => rw [if_pos hk, if_pos hk]
  | inr hk => rw [if_neg (Nat.not_lt.mpr hk), if_neg (Nat.not_lt.mpr hk)]; rfl

theorem tileRanges_cons {total : ℕ} (htile : 0 < tileSize) (htotal : 0 < total) :
    ∃ tiles, tileRanges total tileSize = (0, min tileSize total) :: tiles := by
  obtain ⟨n, hn⟩ : ∃ n, (total + tileSize - 1) / tileSize = n + 1 :=
    ⟨_, (Nat.succ_pred_eq_of_pos (Nat.div_pos (by omega) htile)).symm⟩
  unfold tileRanges
  rw [hn, List.range_succ_eq_map, List.map_cons, Nat.zero_mul, Nat.zero_add]
  exact ⟨_, rfl⟩

/-- The tiles that a row of a segment goes over, for one head. -/
def segmentTiles (scale : K) (query : QueryToken K kvHeads gqaRatio headDim)
    (head : Fin (kvHeads * gqaRatio)) (row tileSize : ℕ)
    (context tokens : List (KVToken K kvHeads headDim × KVToken K kvHeads headDim)) :
    List (List (Option K × (Fin headDim → K))) :=
  (tileRanges context.length tileSize).map
      (fun tile => attended scale query head (slice context tile))
    ++ (tileRanges tokens.length tileSize).map fun tile =>
      attendedCausally scale query head row tile.1 (slice tokens tile)

theorem slice_ne_nil {τ : Type} (htile : 0 < tileSize) {l : List τ} {tile : ℕ × ℕ}
    (hmem : tile ∈ tileRanges l.length tileSize) : slice l tile ≠ [] := by
  obtain ⟨hlt, hle⟩ := mem_tileRanges htile hmem
  refine List.ne_nil_of_length_pos ?_
  rw [length_slice, Nat.min_eq_left hle]
  exact Nat.sub_pos_of_lt hlt

theorem slice_cons {τ : Type} {a : τ} {l : List τ} {stop : ℕ} (h : 0 < stop) :
    slice (a :: l) (0, stop) = a :: l.take (stop - 1) := by
  cases stop with
  | zero => exact absurd h (Nat.lt_irrefl 0)
  | succ stop => rfl

variable (scale context) in
omit [LinearOrder K] [IsStrictOrderedRing K] in
/-- The tiles of a row are the context and the masked tokens of the segment. -/
theorem segmentTiles_spec (htile : 0 < tileSize) (query : QueryToken K kvHeads gqaRatio headDim)
    (head : Fin (kvHeads * gqaRatio)) (row : ℕ) (htokens : 0 < tokens.length) :
    (segmentTiles scale query head row tileSize context tokens).flatten
        = attended scale query head context ++ attendedCausally scale query head row 0 tokens ∧
      (∀ t ∈ segmentTiles scale query head row tileSize context tokens, t ≠ []) ∧
      ∃ p ∈ (segmentTiles scale query head row tileSize context tokens).headD [], p.1 ≠ none := by
  refine ⟨?_, fun t ht => ?_, ?_⟩
  · have hcontext := flatMap_slices htile (attended scale query head context)
    have htail := flatMap_slices htile (attendedCausally scale query head row 0 tokens)
    have hlength : (attended scale query head context).length = context.length :=
      List.length_map _
    have hlength' : (attendedCausally scale query head row 0 tokens).length = tokens.length :=
      List.length_mapIdx
    rw [hlength] at hcontext
    rw [hlength'] at htail
    unfold segmentTiles
    simp only [List.flatten_append, ← List.flatMap_def, attendedCausally_slice]
    rw [htail]
    congr 1
    refine Eq.trans (List.flatMap_congr fun tile _ => ?_) hcontext
    exact (slice_map _ context tile).symm
  · unfold segmentTiles at ht
    cases List.mem_append.mp ht with
    | inl hmem =>
      obtain ⟨tile, htile', rfl⟩ := List.mem_map.mp hmem
      exact mt List.map_eq_nil_iff.mp (slice_ne_nil htile htile')
    | inr hmem =>
      obtain ⟨tile, htile', rfl⟩ := List.mem_map.mp hmem
      exact mt List.mapIdx_eq_nil_iff.mp (slice_ne_nil htile htile')
  · unfold segmentTiles
    cases context with
    | nil =>
      -- without a context the first tile starts at the first token, which no row masks
      obtain ⟨tiles, htiles⟩ := tileRanges_cons htile htokens
      have hempty : tileRanges 0 tileSize = [] := by
        unfold tileRanges
        rw [Nat.zero_add, Nat.div_eq_of_lt (Nat.sub_lt htile Nat.one_pos)]
        rfl
      cases tokens with
      | nil => exact absurd htokens (Nat.lt_irrefl 0)
      | cons token tokens =>
        rw [List.length_nil, hempty, htiles, List.map_nil, List.nil_append, List.map_cons,
          slice_cons (Nat.lt_min.mpr ⟨htile, htokens⟩)]
        unfold attendedCausally
        rw [List.mapIdx_cons]
        refine ⟨_, List.mem_cons_self, ?_⟩
        rw [if_neg (Nat.not_lt_zero row)]
        exact Option.some_ne_none _
    | cons token context =>
      have hcontext : 0 < (token :: context).length := Nat.succ_pos _
      obtain ⟨tiles, htiles⟩ := tileRanges_cons htile hcontext
      rw [htiles, List.map_cons, List.cons_append,
        slice_cons (Nat.lt_min.mpr ⟨htile, hcontext⟩)]
      exact ⟨_, List.mem_cons_self, Option.some_ne_none _⟩

variable (scale context tileSize) in
omit [IsStrictOrderedRing K] in
/-- What a row of a segment goes over, for one head. -/
theorem foldl_calls_eq (hlength : tokens.length = queries.length) {row : ℕ}
    {query : QueryToken K kvHeads gqaRatio headDim} (hquery : queries[row]? = some query)
    (kvHead : Fin kvHeads) (g : Fin gqaRatio) :
    ((PrefixBatch.logicalCalls (exactOps e) (.fin scale) (queries.map numQuery) (numKeys tokens)
        (numValues tokens) (numKeys context) (numValues context) tileSize).foldl
          (updateOnlineSoftmaxFromScores (exactOps e))
          (fun _ _ => List.replicate queries.length (.init (exactOps e))) kvHead g)[row]?
      = some ((segmentTiles scale query (finProdFinEquiv (kvHead, g)) row tileSize context
          tokens).foldl (fun r t => updateRow (exactOps e) (tileValues t) (tileScores t) r)
            (.init (exactOps e))) := by
  obtain ⟨hrow, -⟩ := List.getElem?_eq_some_iff.mp hquery
  have hcontext : ∀ tile : ℕ × ℕ, contextCall (exactOps e) (.fin scale) (queries.map numQuery)
      (slice (numKeys context) tile) (slice (numValues context) tile)
        = contextCall (exactOps e) (.fin scale) (queries.map numQuery)
          (numKeys (slice context tile)) (numValues (slice context tile)) := by
    intro tile
    unfold numKeys numValues
    rw [slice_map, slice_map]
  have hstart : (List.replicate queries.length (RunningRow.init (exactOps e)) :
      List (RunningRow (ExtNum K) headDim))[row]? = some (.init (exactOps e)) := by
    rw [List.getElem?_replicate, if_pos hrow]
  unfold PrefixBatch.logicalCalls segmentTiles
  refine (foldl_updates (exactOps e) kvHead g _ _ hstart fun call hcall => ?_).trans
    (congrArg some ?_)
  · cases List.mem_append.mp hcall with
    | inl hmem =>
      obtain ⟨tile, -, rfl⟩ := List.mem_map.mp hmem
      rw [hcontext, (contextCall_eq e scale (slice context tile) hquery kvHead g).1]
      exact hrow
    | inr hmem =>
      obtain ⟨tile, -, rfl⟩ := List.mem_map.mp hmem
      rw [(causalCall_eq e scale tokens hquery kvHead g tile).1]
      exact hrow
  · have hkeys : (numKeys context).length = context.length := List.length_map _
    have hcontext' : ∀ (r : RunningRow (ExtNum K) headDim) (tile : ℕ × ℕ), _ = _ := fun r tile =>
      have hcall := contextCall_eq e scale (slice context tile) hquery kvHead g
      congrArg₂ (fun values scores => updateRow (exactOps e) values scores r) hcall.2.2 hcall.2.1
    have hcausal : ∀ (r : RunningRow (ExtNum K) headDim) (tile : ℕ × ℕ), _ = _ := fun r tile =>
      have hcall := causalCall_eq e scale tokens hquery kvHead g tile
      congrArg₂ (fun values scores => updateRow (exactOps e) values scores r) hcall.2.2 hcall.2.1
    rw [hkeys, List.length_map, ← hlength, List.foldl_append, List.foldl_append, List.foldl_map,
      List.foldl_map, List.foldl_map, List.foldl_map]
    simp only [hcontext, hcontext', hcausal]

variable (e scale context) in
/-- A row of a segment is the softmax attention of its query over the context and the tokens of the
segment up to its own. -/
theorem finishRows_exact (htile : 0 < tileSize) (hlength : tokens.length = queries.length) {row : ℕ}
    {query : QueryToken K kvHeads gqaRatio headDim} (hquery : queries[row]? = some query) :
    (finishRows (exactOps e) queries.length ((PrefixBatch.logicalCalls (exactOps e) (.fin scale)
        (queries.map numQuery) (numKeys tokens) (numValues tokens) (numKeys context)
        (numValues context) tileSize).foldl (updateOnlineSoftmaxFromScores (exactOps e)) fun _ _ =>
          List.replicate queries.length (.init (exactOps e))))[row]?
      = some (numQuery (softmaxAttention e scale query (context ++ tokens.take (row + 1)))) := by
  obtain ⟨hrow, -⟩ := List.getElem?_eq_some_iff.mp hquery
  unfold finishRows
  rw [List.getElem?_map, List.getElem?_range hrow]
  refine congrArg some (funext fun head => funext fun d => ?_)
  have hhead : finProdFinEquiv (head.divNat, head.modNat) = head :=
    finProdFinEquiv.apply_symm_apply head
  have hfold := foldl_calls_eq (e := e) scale tileSize context hlength hquery head.divNat
    head.modNat
  rw [hhead] at hfold
  dsimp only
  rw [List.getD_eq_getElem?_getD, hfold, Option.getD_some]
  have htokens : 0 < tokens.length := hlength ▸ Nat.zero_lt_of_lt hrow
  obtain ⟨hflatten, hne, hfirst⟩ := segmentTiles_spec scale context htile query head row htokens
  obtain ⟨μ, hsummary⟩ := foldl_updateRow (e := e) hfirst hne
  have hsome : ∃ p ∈ (segmentTiles scale query head row tileSize context tokens).flatten,
      p.1 ≠ none := by
    obtain ⟨p, hp, hscore⟩ := hfirst
    cases htiles : segmentTiles scale query head row tileSize context tokens with
    | nil =>
      rw [htiles] at hp
      exact absurd hp List.not_mem_nil
    | cons tile tiles =>
      rw [htiles] at hp
      exact ⟨p, List.mem_flatten.mpr ⟨tile, List.mem_cons_self, hp⟩, hscore⟩
  rw [hsummary, div_summary hsome, hflatten, softmax_attended]
  rfl

/-! ## A batch -/

end segment

namespace PrefixBatch

variable {numBlocks dimBlocks x blockSize width : ℕ}
  {batch : PrefixBatch K numBlocks kvHeads gqaRatio dimBlocks x blockSize width}

/-- The tensors of a batch in exact arithmetic. -/
def num (batch : PrefixBatch K numBlocks kvHeads gqaRatio dimBlocks x blockSize width) :
    PrefixBatch (ExtNum K) numBlocks kvHeads gqaRatio dimBlocks x blockSize width where
  query := batch.query.map numQuery
  key := batch.key.map numToken
  value := batch.value.map numToken
  keyCache block kvHead d offset r := .fin (batch.keyCache block kvHead d offset r)
  valueCache block kvHead d offset := .fin (batch.valueCache block kvHead d offset)
  blockTables := batch.blockTables
  queryStartLoc := batch.queryStartLoc
  contextLens := batch.contextLens
  batchSize := batch.batchSize

/-- The new tokens of a batch. -/
def newTokens (batch : PrefixBatch K numBlocks kvHeads gqaRatio dimBlocks x blockSize width) :
    List (KVToken K kvHeads (dimBlocks * x) × KVToken K kvHeads (dimBlocks * x)) :=
  batch.key.zip batch.value

/-- The cached tokens of a sequence, in the order of its block table. -/
def cachedTokens (batch : PrefixBatch K numBlocks kvHeads gqaRatio dimBlocks x blockSize width)
    (i : ℕ) : List (KVToken K kvHeads (dimBlocks * x) × KVToken K kvHeads (dimBlocks * x)) :=
  (batch.cachedKeys i).zip (batch.cachedValues i)

omit [LinearOrder K] [IsStrictOrderedRing K] [Field K] in
theorem WellFormed.num (h : batch.WellFormed) : batch.num.WellFormed where
  blockSize_pos := h.blockSize_pos
  contextLens := h.contextLens
  blockTables := h.blockTables
  queryStartLoc := h.queryStartLoc
  first := h.first
  last := h.last.trans (congrArg some (List.length_map _).symm)
  sorted := h.sorted
  key := (List.length_map _).trans (h.key.trans (List.length_map _).symm)
  value := (List.length_map _).trans (h.value.trans (List.length_map _).symm)

omit [LinearOrder K] [IsStrictOrderedRing K] [Field K] in
theorem num_zip {keys values : List (KVToken K kvHeads headDim)}
    (h : keys.length = values.length) :
    numKeys (keys.zip values) = keys.map numToken ∧
      numValues (keys.zip values) = values.map numToken := by
  have hkeys : (keys.zip values).map Prod.fst = keys := List.map_fst_zip h.le
  have hvalues : (keys.zip values).map Prod.snd = values := List.map_snd_zip h.ge
  constructor
  · conv_rhs => rw [← hkeys, List.map_map]
    rfl
  · conv_rhs => rw [← hvalues, List.map_map]
    rfl

omit [LinearOrder K] [IsStrictOrderedRing K] [Field K] in
theorem length_cachedKeys (i : ℕ) :
    (batch.cachedKeys i).length = (batch.cachedValues i).length := by
  unfold cachedKeys cachedValues
  rw [List.length_flatMap, List.length_flatMap, List.map_congr_left fun b _ => length_readKeys b,
    List.map_congr_left fun b _ => length_readValues b]

variable (batch) in
omit [LinearOrder K] [IsStrictOrderedRing K] [Field K] in
theorem cachedKeys_num (i : ℕ) : batch.num.cachedKeys i = (batch.cachedKeys i).map numToken ∧
    batch.num.cachedValues i = (batch.cachedValues i).map numToken := by
  unfold cachedKeys cachedValues
  rw [List.map_flatMap, List.map_flatMap]
  constructor
  · refine List.flatMap_congr fun block _ => ?_
    unfold readKeys
    rw [List.map_ofFn]
    rfl
  · refine List.flatMap_congr fun block _ => ?_
    unfold readValues
    rw [List.map_ofFn]
    rfl

omit [IsStrictOrderedRing K] in
/-- The calls of a segment, in terms of its tokens. -/
theorem callsOf_num (h : batch.WellFormed) (e : Exponential K) (scale : K) (tileSize : ℕ)
    (segment : Segment) :
    batch.num.callsOf (exactOps e) (.fin scale) tileSize segment
      = logicalCalls (exactOps e) (.fin scale)
          ((slice batch.query (segment.absoluteStart, segment.absoluteEnd)).map numQuery)
          (numKeys (slice batch.newTokens (segment.absoluteStart, segment.absoluteEnd)))
          (numValues (slice batch.newTokens (segment.absoluteStart, segment.absoluteEnd)))
          (numKeys ((batch.cachedTokens segment.seqIndex).take segment.ctxLen
            ++ slice batch.newTokens (segment.qStart, segment.absoluteStart)))
          (numValues ((batch.cachedTokens segment.seqIndex).take segment.ctxLen
            ++ slice batch.newTokens (segment.qStart, segment.absoluteStart))) tileSize := by
  obtain ⟨hkeys, hvalues⟩ := num_zip (h.key.trans h.value.symm)
  obtain ⟨hcachedKeys, hcachedValues⟩ := num_zip (batch.length_cachedKeys segment.seqIndex)
  obtain ⟨hreadKeys, hreadValues⟩ := cachedKeys_num batch segment.seqIndex
  unfold numKeys at hkeys hcachedKeys
  unfold numValues at hvalues hcachedValues
  unfold callsOf numKeys numValues newTokens cachedTokens
  dsimp only
  rw [List.map_append, List.map_append, List.map_take, List.map_take, ← slice_map, ← slice_map,
    ← slice_map, ← slice_map, ← slice_map, hkeys, hvalues, hcachedKeys, hcachedValues, hreadKeys,
    hreadValues]
  rfl

/-- A row of a segment. -/
theorem segment_row (h : batch.WellFormed) (e : Exponential K) (scale : K) {tileSize : ℕ}
    (htile : 0 < tileSize) {segment : Segment} (hend : segment.absoluteEnd ≤ batch.query.length)
    {row : ℕ} (hrow : row < segment.absoluteEnd - segment.absoluteStart) :
    ∃ query, batch.query[segment.absoluteStart + row]? = some query ∧
      (finishRows (exactOps e) (segment.absoluteEnd - segment.absoluteStart)
        ((batch.num.callsOf (exactOps e) (.fin scale) tileSize segment).foldl
          (updateOnlineSoftmaxFromScores (exactOps e)) fun _ _ =>
            List.replicate (segment.absoluteEnd - segment.absoluteStart)
              (.init (exactOps e))))[row]?
        = some (numQuery (softmaxAttention e scale query
            ((batch.cachedTokens segment.seqIndex).take segment.ctxLen
              ++ slice batch.newTokens (segment.qStart, segment.absoluteStart)
              ++ (slice batch.newTokens (segment.absoluteStart, segment.absoluteEnd)).take
                (row + 1)))) := by
  have hlt : segment.absoluteStart + row < batch.query.length := by omega
  have hquery : (slice batch.query (segment.absoluteStart, segment.absoluteEnd))[row]?
      = some batch.query[segment.absoluteStart + row] := by
    unfold slice
    rw [List.getElem?_drop, List.getElem?_take, if_pos (by dsimp only; omega),
      List.getElem?_eq_getElem hlt]
  have hlength : (slice batch.query (segment.absoluteStart, segment.absoluteEnd)).length
      = segment.absoluteEnd - segment.absoluteStart := by
    rw [length_slice, Nat.min_eq_left hend]
  have htokens : (slice batch.newTokens (segment.absoluteStart, segment.absoluteEnd)).length
      = (slice batch.query (segment.absoluteStart, segment.absoluteEnd)).length := by
    rw [length_slice, length_slice, newTokens, List.length_zip, h.key, h.value, Nat.min_self]
  refine ⟨_, List.getElem?_eq_getElem hlt, ?_⟩
  rw [callsOf_num h, ← hlength]
  exact finishRows_exact e scale _ htile htokens hquery

/-- For every batch whose context lengths fit into their block tables, the output of a row of a
sequence is the softmax attention of its query over the cached tokens of the sequence, in the order of
the block table, and its new tokens up to the row. Every row is written once, and every output is a
number. -/
theorem forwardPrefixPytorch_eq_softmax (e : Exponential K) (scale : K)
    (batch : PrefixBatch K numBlocks kvHeads gqaRatio dimBlocks x blockSize width)
    (h : batch.WellFormed) (tileSize : ℕ) (htile : 1 ≤ tileSize)
    (output : List (QueryToken (ExtNum K) kvHeads gqaRatio (dimBlocks * x)))
    (houtput : output.length = batch.query.length) :
    ∃ segments result, batch.num.segments = .ok segments ∧
      batch.num.forwardPrefixPytorch (exactOps e) (.fin scale) tileSize output = .ok result ∧
      result.length = batch.query.length ∧
      (∀ row < batch.query.length, segments.countP (·.Has row) = 1) ∧
      ∀ (i ctxLen qStart qEnd : ℕ), batch.contextLens[i]? = some (ctxLen : ℤ) →
        ctxLen ≤ width * blockSize → batch.queryStartLoc[i]? = some qStart →
        batch.queryStartLoc[i + 1]? = some qEnd → ∀ j, qStart + j < qEnd →
        ∃ query, batch.query[qStart + j]? = some query ∧
          result[qStart + j]? = some (numQuery (softmaxAttention e scale query
            ((batch.cachedTokens i).take ctxLen
              ++ (slice batch.newTokens (qStart, qEnd)).take (j + 1)))) := by
  have hquery : batch.num.query.length = batch.query.length := List.length_map _
  obtain ⟨segments, result, hsegments, hok, hlength, hcount, hrows⟩ :=
    forwardPrefixPytorch_rows h.num (exactOps e) (.fin scale) htile (houtput.trans hquery.symm)
  rw [hquery] at hlength hcount
  refine ⟨segments, result, hsegments, hok, hlength, hcount, ?_⟩
  intro i ctxLen qStart qEnd hctx hfits hstart hend j hj
  have hi : i < batch.batchSize := h.contextLens ▸ (List.getElem?_eq_some_iff.mp hctx).1
  obtain ⟨ctxLen', qStart', qEnd', hctx', hstart', hend', hle, hpart⟩ := sequenceSegments_eq h.num hi
  obtain rfl := Option.some.inj (hctx.symm.trans hctx')
  obtain rfl := Option.some.inj (hstart.symm.trans hstart')
  obtain rfl := Option.some.inj (hend.symm.trans hend')
  have htables : batch.blockTables ≠ [] :=
    List.ne_nil_of_length_pos (h.blockTables ▸ Nat.zero_lt_of_lt hi)
  have hkept : batch.num.guardedCtxLen ctxLen = ctxLen := guardedCtxLen_eq htables hfits
  rw [hkept] at hpart
  -- the segment of the row
  have hconsecutive := consecutive_querySegments blockSize i ctxLen qStart (qEnd - qStart)
  rw [Nat.add_sub_cancel' hle] at hconsecutive
  have hone := countP_consecutive hconsecutive (Nat.le_add_right qStart j) hj
  obtain ⟨segment, hmem, hhas⟩ := List.countP_pos_iff.mp (hone.symm ▸ Nat.one_pos)
  have hhas := of_decide_eq_true hhas
  obtain ⟨hfirst, hpos, hlast⟩ := hconsecutive.mem hmem
  have hsegment := hrows i hi _ hpart segment hmem
  obtain ⟨-, -, hbound, -⟩ := mem_segments h.num hsegments
    (mem_of_sequenceSegments h.num hsegments hi hpart hmem)
  obtain ⟨hindex, hcontext, hqStart⟩ : segment.seqIndex = i ∧ segment.ctxLen = ctxLen ∧
      segment.qStart = qStart := by
    obtain ⟨part, -, rfl⟩ := List.mem_map.mp hmem
    exact ⟨rfl, rfl, rfl⟩
  rw [hquery] at hbound
  have hrow : qStart + j - segment.absoluteStart < segment.absoluteEnd - segment.absoluteStart :=
    Nat.sub_lt_sub_right hhas.1 hhas.2
  have hsum : segment.absoluteStart + (qStart + j - segment.absoluteStart) = qStart + j :=
    Nat.add_sub_cancel' hhas.1
  obtain ⟨query, hq, hresult⟩ := segment_row h e scale htile hbound hrow
  refine ⟨query, hsum ▸ hq, ?_⟩
  rw [← hsegment] at hresult
  have hread : (slice result (segment.absoluteStart, segment.absoluteEnd))[qStart + j
      - segment.absoluteStart]? = result[qStart + j]? := by
    unfold slice
    rw [List.getElem?_drop, List.getElem?_take, hsum, if_pos hhas.2]
  -- the tokens of the query in front of the segment and those of the segment
  have hnew : slice batch.newTokens (qStart, segment.absoluteStart)
      ++ (slice batch.newTokens (segment.absoluteStart, segment.absoluteEnd)).take
        (qStart + j - segment.absoluteStart + 1)
      = (slice batch.newTokens (qStart, qEnd)).take (j + 1) := by
    have hrest : segment.absoluteStart + (qStart + j - segment.absoluteStart + 1)
        = qStart + (j + 1) := by omega
    have hin : segment.absoluteStart + (qStart + j - segment.absoluteStart + 1)
        ≤ segment.absoluteEnd := by omega
    rw [← slice_take _ hin, hrest, ← slice_take _ (Nat.succ_le_of_lt hj),
      slice_append_slice _ hfirst (by omega)]
  rw [← hread, hresult, hindex, hcontext, hqStart, List.append_assoc, hnew]

/-- The exponential of real numbers. -/
noncomputable def realExp : Exponential ℝ where
  exp := Real.exp
  exp_pos := Real.exp_pos
  exp_add := Real.exp_add

/-- Three cached tokens in two blocks of two, and four new ones, with two heads of queries. -/
def threeCached : PrefixBatch ℝ 2 1 2 1 1 2 2 where
  query := [fun head _ => head, fun _ _ => 1, fun _ _ => 2, fun _ _ => 3]
  key := [fun _ _ => 1, fun _ _ => 2, fun _ _ => 3, fun _ _ => 4]
  value := [fun _ _ => 4, fun _ _ => 3, fun _ _ => 2, fun _ _ => 1]
  keyCache block _ _ offset _ := block + offset
  valueCache block _ _ offset := block - offset
  blockTables := [#v[⟨1, Nat.one_lt_two⟩, ⟨0, Nat.two_pos⟩]]
  queryStartLoc := [0, 4]
  contextLens := [3]
  batchSize := 1

/-- The third new token attends to three cached tokens and three new ones. -/
theorem forwardPrefixPytorch_eq_softmax_threeCached : ∃ result query,
    threeCached.num.forwardPrefixPytorch (exactOps realExp) (.fin 1) 3 threeCached.num.query
        = .ok result ∧
      result[2]? = some (numQuery (softmaxAttention realExp 1 query
        ((threeCached.cachedTokens 0).take 3 ++ (slice threeCached.newTokens (0, 4)).take 3))) := by
  have hwf : threeCached.WellFormed :=
    ⟨by decide, rfl, rfl, rfl, rfl, rfl, by decide, rfl, rfl⟩
  obtain ⟨_, result, -, hok, -, -, hrows⟩ := forwardPrefixPytorch_eq_softmax realExp 1 threeCached hwf
    3 (by decide) threeCached.num.query rfl
  obtain ⟨query, -, hrow⟩ := hrows 0 3 0 4 rfl (by decide) rfl rfl 2 (by decide)
  exact ⟨result, query, hok, hrow⟩

end PrefixBatch

end Ikun.Attention
