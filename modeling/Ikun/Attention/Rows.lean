import Mathlib.Algebra.BigOperators.Group.List.Basic
import Ikun.Attention.Prefix

/-!
# The rows of a batch

The segments of a batch are consecutive: they go from its first row to its last, and each row is in
exactly one of them (`countP_consecutive`). So the loops of `_forward_prefix_pytorch` write every row
once, and the rows of a segment are its output (`forwardPrefixPytorch_rows`).
-/

namespace Ikun.Attention.PrefixBatch

open Except

variable {α : Type} {numBlocks kvHeads gqaRatio dimBlocks x blockSize width : ℕ}

/-! ## The calls of a segment -/

section calls

variable {β : Type} {headDim tileSize contextLen : ℕ} {ops : TensorOps α} {scale : α}
  {query : List (QueryToken α kvHeads gqaRatio headDim)}
  {readKeys readValues : β → List (KVToken α kvHeads headDim)}
  {key value frontKey frontValue : List (KVToken α kvHeads headDim)} {blockTable : List β}

/-- The calls of a segment whose context, in logical order, is `contextKeys` and `contextValues`. -/
def logicalCalls (ops : TensorOps α) (scale : α)
    (query : List (QueryToken α kvHeads gqaRatio headDim))
    (key value contextKeys contextValues : List (KVToken α kvHeads headDim)) (tileSize : ℕ) :
    List (SoftmaxCall α kvHeads gqaRatio headDim) :=
  (tileRanges contextKeys.length tileSize).map (fun tile =>
      contextCall ops scale query (slice contextKeys tile) (slice contextValues tile))
    ++ (tileRanges query.length tileSize).map (causalCall ops scale query key value)

/-- The calls of a segment only depend on its logical context. -/
theorem segmentCalls_eq (hbs : 0 < blockSize) (htile : 0 < tileSize)
    (hkeys : ∀ b, (readKeys b).length = blockSize) (hvalues : ∀ b, (readValues b).length = blockSize)
    (hcontext : contextLen ≤ blockTable.length * blockSize) :
    segmentCalls ops scale query readKeys readValues key value frontKey frontValue blockTable
        contextLen blockSize tileSize
      = .ok (logicalCalls ops scale query key value
          ((blockTable.flatMap readKeys).take contextLen ++ frontKey)
          ((blockTable.flatMap readValues).take contextLen ++ frontValue) tileSize) := by
  have hlength : ∀ read : β → List (KVToken α kvHeads headDim),
      (∀ b, (read b).length = blockSize) → contextLen ≤ (blockTable.flatMap read).length := by
    intro read hread
    rw [List.length_flatMap, List.map_congr_left fun b _ => hread b, List.map_const',
      List.sum_replicate]
    exact hcontext
  unfold segmentCalls prefixContextTileSpans
  rw [raiseIf_bind (Nat.ne_of_gt htile)]
  refine congrArg Except.ok ?_
  unfold logicalCalls
  rw [List.map_map, List.length_append, List.length_take, Nat.min_eq_left (hlength readKeys hkeys)]
  congr 1
  refine List.map_congr_left fun tile _ => ?_
  rw [Function.comp_apply, contextTile_eq hbs hkeys blockTable frontKey (hlength readKeys hkeys),
    contextTile_eq hbs hvalues blockTable frontValue (hlength readValues hvalues)]

/-- The output of a segment. -/
theorem forwardPrefixSegmentPytorch_eq (hbs : 0 < blockSize) (htile : 0 < tileSize)
    (hkeys : ∀ b, (readKeys b).length = blockSize) (hvalues : ∀ b, (readValues b).length = blockSize)
    (hcontext : contextLen ≤ blockTable.length * blockSize) (seqIndex : ℕ) :
    forwardPrefixSegmentPytorch ops scale query readKeys readValues key value frontKey frontValue
        blockTable seqIndex contextLen blockSize tileSize
      = .ok (finishRows ops query.length ((logicalCalls ops scale query key value
          ((blockTable.flatMap readKeys).take contextLen ++ frontKey)
          ((blockTable.flatMap readValues).take contextLen ++ frontValue) tileSize).foldl
            (updateOnlineSoftmaxFromScores ops) fun _ _ =>
              List.replicate query.length (.init ops))) := by
  have hblocks : (contextLen + blockSize - 1) / blockSize ≤ blockTable.length := by
    refine Nat.lt_succ_iff.mp ((Nat.div_lt_iff_lt_mul hbs).mpr ?_)
    rw [Nat.succ_mul]
    omega
  unfold forwardPrefixSegmentPytorch validatePrefixBlockTable
  rw [segmentCalls_eq hbs htile hkeys hvalues hcontext, if_pos hblocks]
  split
  · rfl
  · rfl

end calls

/-! ## Consecutive segments -/

/-- The segments go from `start` to `stop` without a gap, and none is empty. -/
def Consecutive : ℕ → List Segment → ℕ → Prop
  | start, [], stop => start = stop
  | start, segment :: segments, stop =>
    segment.absoluteStart = start ∧ start < segment.absoluteEnd ∧
      Consecutive segment.absoluteEnd segments stop

variable {start middle stop : ℕ} {segments segments' : List Segment}

theorem Consecutive.le (h : Consecutive start segments stop) : start ≤ stop := by
  induction segments generalizing start with
  | nil => exact Nat.le_of_eq h
  | cons segment segments ih => exact (Nat.le_of_lt h.2.1).trans (ih h.2.2)

theorem Consecutive.append (h : Consecutive start segments middle)
    (h' : Consecutive middle segments' stop) : Consecutive start (segments ++ segments') stop := by
  induction segments generalizing start with
  | nil =>
    obtain rfl : start = middle := h
    exact h'
  | cons segment segments ih => exact ⟨h.1, h.2.1, ih h.2.2⟩

/-- The segments of a list of sequences. -/
theorem Consecutive.flatten {n : ℕ} (loc : ℕ → ℕ) {parts : ℕ → List Segment}
    (h : ∀ i < n, Consecutive (loc i) (parts i) (loc (i + 1))) :
    Consecutive (loc 0) ((List.range n).map parts).flatten (loc n) := by
  induction n with
  | zero => exact rfl
  | succ n ih =>
    rw [List.range_succ, List.map_append, List.flatten_append, List.map_singleton,
      List.flatten_singleton]
    exact (ih fun i hi => h i (Nat.lt_succ_of_lt hi)).append (h n (Nat.lt_succ_self n))

/-- The row is in the segment. -/
def Segment.Has (segment : Segment) (row : ℕ) : Prop :=
  segment.absoluteStart ≤ row ∧ row < segment.absoluteEnd

instance (segment : Segment) (row : ℕ) : Decidable (segment.Has row) :=
  inferInstanceAs (Decidable (_ ∧ _))

/-- A row outside of the segments is in none. -/
theorem countP_outside (h : Consecutive start segments stop) {row : ℕ}
    (hrow : row < start ∨ stop ≤ row) : segments.countP (·.Has row) = 0 := by
  induction segments generalizing start with
  | nil => rfl
  | cons segment segments ih =>
    obtain ⟨hstart, hlt, hrest⟩ := h
    have hle := hrest.le
    rw [List.countP_cons_of_neg, ih hrest]
    · exact hrow.imp (fun h => h.trans hlt) id
    · rw [decide_eq_true_eq]
      intro hhas
      cases hrow with
      | inl hbefore => exact Nat.not_le.mpr hbefore (hstart ▸ hhas.1)
      | inr hbehind => exact Nat.not_le.mpr hhas.2 (hle.trans hbehind)

/-- Every row is in exactly one of consecutive segments. -/
theorem countP_consecutive (h : Consecutive start segments stop) {row : ℕ} (hstart : start ≤ row)
    (hstop : row < stop) : segments.countP (·.Has row) = 1 := by
  induction segments generalizing start with
  | nil =>
    obtain rfl : start = stop := h
    exact absurd hstop (Nat.not_lt.mpr hstart)
  | cons segment segments ih =>
    obtain ⟨hfirst, hlt, hrest⟩ := h
    cases Nat.lt_or_ge row segment.absoluteEnd with
    | inl hin =>
      have hhas : segment.Has row := ⟨hfirst ▸ hstart, hin⟩
      rw [List.countP_cons_of_pos (p := fun s : Segment => s.Has row) (decide_eq_true hhas),
        countP_outside hrest (.inl hin)]
    | inr hbehind =>
      rw [List.countP_cons_of_neg, ih hrest hbehind]
      rw [decide_eq_true_eq]
      exact fun hhas => Nat.not_lt.mpr hbehind hhas.2

theorem Consecutive.mem (h : Consecutive start segments stop) {segment : Segment}
    (hmem : segment ∈ segments) : start ≤ segment.absoluteStart ∧
      segment.absoluteStart < segment.absoluteEnd ∧ segment.absoluteEnd ≤ stop := by
  induction segments generalizing start with
  | nil => exact absurd hmem List.not_mem_nil
  | cons first segments ih =>
    obtain ⟨hfirst, hlt, hrest⟩ := h
    cases List.mem_cons.mp hmem with
    | inl heq =>
      subst heq
      exact ⟨hfirst.ge, hfirst ▸ hlt, hrest.le⟩
    | inr hlater =>
      obtain ⟨hstart, hpos, hstop⟩ := ih hrest hlater
      exact ⟨(Nat.le_of_lt hlt).trans hstart, hpos, hstop⟩

/-! ## Writing -/

/-- Rows that are written before or behind a segment leave its rows. -/
theorem slice_writeRows {τ : Type} {output rows : List τ} {segment : Segment} (other : Segment)
    (hrows : rows.length = segment.absoluteEnd - segment.absoluteStart)
    (hle : segment.absoluteStart ≤ segment.absoluteEnd)
    (hlen : segment.absoluteEnd ≤ output.length) :
    (writeRows output segment rows).length = output.length ∧
      slice (writeRows output segment rows) (segment.absoluteStart, segment.absoluteEnd) = rows ∧
      (other.absoluteEnd ≤ segment.absoluteStart ∨ segment.absoluteEnd ≤ other.absoluteStart →
        slice (writeRows output segment rows) (other.absoluteStart, other.absoluteEnd)
          = slice output (other.absoluteStart, other.absoluteEnd)) := by
  have hfront : (output.take segment.absoluteStart).length = segment.absoluteStart := by
    rw [List.length_take, Nat.min_eq_left (hle.trans hlen)]
  have hlength : (writeRows output segment rows).length = output.length := by
    unfold writeRows
    rw [List.length_append, List.length_append, hfront, List.length_drop, hrows]
    omega
  refine ⟨hlength, ?_, fun hapart => ?_⟩
  · unfold writeRows slice
    dsimp only
    rw [List.append_assoc, List.take_append, hfront,
      List.take_of_length_le (by rw [hfront]; exact hle), List.drop_append, hfront,
      List.drop_of_length_le (by rw [hfront]), Nat.sub_self, List.drop_zero, List.nil_append,
      List.take_append, hrows, Nat.sub_self, List.take_zero, List.append_nil,
      List.take_of_length_le hrows.le]
  · refine List.ext_getElem? fun k => ?_
    unfold slice writeRows
    dsimp only
    rw [List.getElem?_drop, List.getElem?_drop, List.getElem?_take, List.getElem?_take]
    split
    · next hk =>
      rw [List.append_assoc]
      cases hapart with
      | inl hbefore =>
        rw [List.getElem?_append_left (by rw [hfront]; omega), List.getElem?_take,
          if_pos (by omega)]
      | inr hbehind =>
        rw [List.getElem?_append_right (by rw [hfront]; omega), hfront,
          List.getElem?_append_right (by rw [hrows]; omega), hrows, List.getElem?_drop]
        congr 1
        omega
    · rfl

/-- Consecutive segments are written one after the other. -/
theorem foldlM_writeSegment {τ : Type} {rows : Segment → Except Exn (List τ)}
    (h : Consecutive start segments stop) (output : List τ) (hlen : stop ≤ output.length)
    (hrows : ∀ segment ∈ segments, ∃ r, rows segment = .ok r ∧
      r.length = segment.absoluteEnd - segment.absoluteStart) :
    ∃ output', segments.foldlM (fun output segment => do
        return writeRows output segment (← rows segment)) output = .ok output' ∧
      output'.length = output.length ∧
      (∀ segment ∈ segments,
        rows segment = .ok (slice output' (segment.absoluteStart, segment.absoluteEnd))) ∧
      ∀ other : Segment, other.absoluteEnd ≤ start →
        slice output' (other.absoluteStart, other.absoluteEnd)
          = slice output (other.absoluteStart, other.absoluteEnd) := by
  induction segments generalizing start output with
  | nil => exact ⟨output, rfl, rfl, fun _ hmem => absurd hmem List.not_mem_nil, fun _ _ => rfl⟩
  | cons segment segments ih =>
    obtain ⟨hstart, hlt, hrest⟩ := h
    obtain ⟨r, hr, hrlen⟩ := hrows segment List.mem_cons_self
    have hle : segment.absoluteStart ≤ segment.absoluteEnd := hstart ▸ Nat.le_of_lt hlt
    have hend : segment.absoluteEnd ≤ output.length := hrest.le.trans hlen
    have hwrite := fun other => slice_writeRows other hrlen hle hend
    obtain ⟨output', hfold, hlength, hsegments, hothers⟩ := ih hrest
      (writeRows output segment r) ((hwrite segment).1.symm ▸ hlen)
      fun segment hmem => hrows segment (List.mem_cons_of_mem _ hmem)
    refine ⟨output', ?_, hlength.trans (hwrite segment).1, fun other hmem => ?_,
      fun other hother => ?_⟩
    · rw [List.foldlM_cons, hr]
      exact hfold
    · cases List.mem_cons.mp hmem with
      | inl heq =>
        subst heq
        rw [hr, hothers other (Nat.le_refl _), (hwrite other).2.1]
      | inr hlater => exact hsegments other hlater
    · rw [hothers other (hother.trans (Nat.le_of_lt hlt)),
        (hwrite other).2.2 (.inl (hstart ▸ hother))]

/-! ## The batch -/

/-- The tensors of a batch fit together: every row belongs to a sequence, in the order of the
sequences. -/
structure WellFormed (batch : PrefixBatch α numBlocks kvHeads gqaRatio dimBlocks x blockSize width) :
    Prop where
  blockSize_pos : 0 < blockSize
  contextLens : batch.contextLens.length = batch.batchSize
  blockTables : batch.blockTables.length = batch.batchSize
  queryStartLoc : batch.queryStartLoc.length = batch.batchSize + 1
  first : batch.queryStartLoc[0]? = some 0
  last : batch.queryStartLoc[batch.batchSize]? = some batch.query.length
  sorted : batch.queryStartLoc.Pairwise (· ≤ ·)
  key : batch.key.length = batch.query.length
  value : batch.value.length = batch.query.length

variable {batch : PrefixBatch α numBlocks kvHeads gqaRatio dimBlocks x blockSize width}

theorem getItem_of_lt {τ : Type} {xs : List τ} {i : ℕ} (h : i < xs.length) :
    getItem xs i = .ok xs[i] := by
  unfold getItem
  rw [List.getElem?_eq_getElem h]

theorem guardedCtxLen_le (ctxLen : ℤ) : batch.guardedCtxLen ctxLen ≤ width * blockSize := by
  have hmax : (if batch.blockTables = [] then 0 else width * blockSize) ≤ width * blockSize := by
    split
    · exact Nat.zero_le _
    · exact Nat.le_refl _
  unfold guardedCtxLen
  generalize (if batch.blockTables = [] then 0 else width * blockSize) = maxPhysicalCtx at hmax ⊢
  dsimp only
  split
  · exact Nat.zero_le _
  · omega

/-- A context length that is one is kept. -/
theorem guardedCtxLen_eq {ctxLen : ℕ} (hne : batch.blockTables ≠ [])
    (hle : ctxLen ≤ width * blockSize) : batch.guardedCtxLen ctxLen = ctxLen := by
  unfold guardedCtxLen
  rw [if_neg hne]
  dsimp only
  rw [if_neg (by omega), Int.toNat_natCast]

/-- The segments of a query go from its first token to its last. -/
theorem consecutive_querySegments (blockSize i ctxLen start queryLen : ℕ) :
    Consecutive start ((strictPrefixQuerySegments ctxLen queryLen blockSize).map fun segment =>
      ⟨i, ctxLen, start, start + segment.start, start + segment.stop⟩) (start + queryLen) := by
  unfold strictPrefixQuerySegments
  split
  · next hempty => exact (congrArg (start + ·) hempty).symm
  · next hne =>
    dsimp only
    split
    · next hsplit =>
      exact ⟨rfl, Nat.lt_add_of_pos_right hsplit.1, rfl, Nat.add_lt_add_left hsplit.2 _, rfl⟩
    · exact ⟨rfl, Nat.lt_add_of_pos_right (Nat.pos_of_ne_zero hne), rfl⟩

/-- The segments of a sequence. -/
theorem sequenceSegments_eq (h : batch.WellFormed) {i : ℕ} (hi : i < batch.batchSize) :
    ∃ ctxLen start stop, batch.contextLens[i]? = some ctxLen ∧
      batch.queryStartLoc[i]? = some start ∧ batch.queryStartLoc[i + 1]? = some stop ∧
      start ≤ stop ∧ batch.sequenceSegments i = .ok
        ((strictPrefixQuerySegments (batch.guardedCtxLen ctxLen) (stop - start) blockSize).map
          fun segment => ⟨i, batch.guardedCtxLen ctxLen, start, start + segment.start,
            start + segment.stop⟩) := by
  have hctx : i < batch.contextLens.length := h.contextLens ▸ hi
  have hstart : i < batch.queryStartLoc.length := by
    rw [h.queryStartLoc]
    exact Nat.lt_succ_of_lt hi
  have hstop : i + 1 < batch.queryStartLoc.length := by
    rw [h.queryStartLoc]
    exact Nat.succ_lt_succ hi
  refine ⟨_, _, _, List.getElem?_eq_getElem hctx, List.getElem?_eq_getElem hstart,
    List.getElem?_eq_getElem hstop, ?_, ?_⟩
  · exact List.pairwise_iff_getElem.mp h.sorted i (i + 1) hstart hstop (Nat.lt_succ_self i)
  · unfold sequenceSegments
    rw [getItem_of_lt hctx, getItem_of_lt hstart, getItem_of_lt hstop]
    rfl

/-- The segments of a batch go from its first row to its last. -/
theorem segments_eq (h : batch.WellFormed) : ∃ parts : ℕ → List Segment,
    batch.segments = .ok ((List.range batch.batchSize).map parts).flatten ∧
      (∀ i < batch.batchSize, batch.sequenceSegments i = .ok (parts i)) ∧
      Consecutive 0 ((List.range batch.batchSize).map parts).flatten batch.query.length := by
  have hparts : ∀ i, ∃ part : List Segment, i < batch.batchSize →
      batch.sequenceSegments i = .ok part ∧
        Consecutive (batch.queryStartLoc.getD i 0) part (batch.queryStartLoc.getD (i + 1) 0) := by
    intro i
    cases Nat.lt_or_ge i batch.batchSize with
    | inl hi =>
      obtain ⟨ctxLen, start, stop, -, hstart, hstop, hle, hok⟩ := sequenceSegments_eq h hi
      refine ⟨_, fun _ => ⟨hok, ?_⟩⟩
      rw [List.getD_eq_getElem?_getD, hstart, List.getD_eq_getElem?_getD, hstop]
      have hall := consecutive_querySegments blockSize i
        (batch.guardedCtxLen ctxLen) start (stop - start)
      rwa [Nat.add_sub_cancel' hle] at hall
    | inr hi => exact ⟨[], fun hlt => absurd hlt (Nat.not_lt.mpr hi)⟩
  choose parts hparts using hparts
  refine ⟨parts, ?_, fun i hi => (hparts i hi).1, ?_⟩
  · unfold segments
    rw [mapM_eq_ok fun i hi => (hparts i (List.mem_range.mp hi)).1]
    rfl
  · have hall := Consecutive.flatten (fun i => batch.queryStartLoc.getD i 0)
      fun i hi => (hparts i hi).2
    rwa [List.getD_eq_getElem?_getD, h.first, List.getD_eq_getElem?_getD, h.last] at hall

theorem length_readKeys (block : Fin numBlocks) : (batch.readKeys block).length = blockSize :=
  List.length_ofFn

theorem length_readValues (block : Fin numBlocks) : (batch.readValues block).length = blockSize :=
  List.length_ofFn

/-- The keys that are cached for a sequence, in the order of its block table. -/
def cachedKeys (batch : PrefixBatch α numBlocks kvHeads gqaRatio dimBlocks x blockSize width)
    (i : ℕ) : List (KVToken α kvHeads (dimBlocks * x)) :=
  (batch.blockTables[i]?.elim [] (·.toList)).flatMap batch.readKeys

/-- The values that are cached for a sequence. -/
def cachedValues (batch : PrefixBatch α numBlocks kvHeads gqaRatio dimBlocks x blockSize width)
    (i : ℕ) : List (KVToken α kvHeads (dimBlocks * x)) :=
  (batch.blockTables[i]?.elim [] (·.toList)).flatMap batch.readValues

/-- The calls of a segment of a batch. -/
def callsOf (batch : PrefixBatch α numBlocks kvHeads gqaRatio dimBlocks x blockSize width)
    (ops : TensorOps α) (scale : α) (tileSize : ℕ) (segment : Segment) :
    List (SoftmaxCall α kvHeads gqaRatio (dimBlocks * x)) :=
  let bounds := (segment.absoluteStart, segment.absoluteEnd)
  let front := (segment.qStart, segment.absoluteStart)
  logicalCalls ops scale (slice batch.query bounds) (slice batch.key bounds)
    (slice batch.value bounds)
    ((batch.cachedKeys segment.seqIndex).take segment.ctxLen ++ slice batch.key front)
    ((batch.cachedValues segment.seqIndex).take segment.ctxLen ++ slice batch.value front) tileSize

/-- The code makes these calls. -/
theorem callsMade_eq (h : batch.WellFormed) (ops : TensorOps α) (scale : α) {tileSize : ℕ}
    (htile : 0 < tileSize) {segment : Segment} (hindex : segment.seqIndex < batch.batchSize)
    (hctx : segment.ctxLen ≤ width * blockSize) :
    batch.callsMade ops scale tileSize segment = .ok (batch.callsOf ops scale tileSize segment) := by
  have htable : segment.seqIndex < batch.blockTables.length := h.blockTables ▸ hindex
  unfold callsMade callsOf cachedKeys cachedValues
  rw [getItem_of_lt htable, List.getElem?_eq_getElem htable]
  simp only [bind, Except.bind, Option.elim_some]
  exact segmentCalls_eq h.blockSize_pos htile batch.length_readKeys batch.length_readValues
    (by rwa [Vector.length_toList])

/-- The output of a segment of a batch. -/
theorem segmentOutput_eq (h : batch.WellFormed) (ops : TensorOps α) (scale : α) {tileSize : ℕ}
    (htile : 0 < tileSize) {segment : Segment} (hindex : segment.seqIndex < batch.batchSize)
    (hctx : segment.ctxLen ≤ width * blockSize) (hend : segment.absoluteEnd ≤ batch.query.length) :
    batch.segmentOutput ops scale tileSize segment
      = .ok (finishRows ops (segment.absoluteEnd - segment.absoluteStart)
          ((batch.callsOf ops scale tileSize segment).foldl (updateOnlineSoftmaxFromScores ops)
            fun _ _ => List.replicate (segment.absoluteEnd - segment.absoluteStart)
              (.init ops))) := by
  have htable : segment.seqIndex < batch.blockTables.length := h.blockTables ▸ hindex
  have hbounds : (slice batch.query (segment.absoluteStart, segment.absoluteEnd)).length
      = segment.absoluteEnd - segment.absoluteStart := by
    rw [length_slice, Nat.min_eq_left hend]
  unfold segmentOutput callsOf cachedKeys cachedValues
  rw [getItem_of_lt htable, List.getElem?_eq_getElem htable]
  simp only [bind, Except.bind, Option.elim_some]
  rw [forwardPrefixSegmentPytorch_eq h.blockSize_pos htile batch.length_readKeys
    batch.length_readValues (by rwa [Vector.length_toList]), hbounds]

/-- The segments belong to sequences of the batch. -/
theorem mem_segments (h : batch.WellFormed) {segments : List Segment}
    (hsegments : batch.segments = .ok segments) {segment : Segment} (hmem : segment ∈ segments) :
    segment.seqIndex < batch.batchSize ∧ segment.ctxLen ≤ width * blockSize ∧
      segment.absoluteEnd ≤ batch.query.length ∧
      ∃ part, batch.sequenceSegments segment.seqIndex = .ok part ∧ segment ∈ part := by
  obtain ⟨parts, heq, hparts, hconsecutive⟩ := segments_eq h
  obtain rfl := Except.ok.inj (heq.symm.trans hsegments)
  obtain ⟨part, hpart, hin⟩ := List.mem_flatten.mp hmem
  obtain ⟨i, hi, rfl⟩ := List.mem_map.mp hpart
  have hi := List.mem_range.mp hi
  obtain ⟨ctxLen, start, stop, -, -, -, -, hok⟩ := sequenceSegments_eq h hi
  have hsame := Except.ok.inj ((hparts i hi).symm.trans hok)
  have hin' := hin
  rw [hsame] at hin'
  obtain ⟨query, -, rfl⟩ := List.mem_map.mp hin'
  exact ⟨hi, guardedCtxLen_le ctxLen, (hconsecutive.mem hmem).2.2, _, hparts i hi, hin⟩

theorem mem_of_sequenceSegments (h : batch.WellFormed) {segments part : List Segment} {i : ℕ}
    (hsegments : batch.segments = .ok segments) (hi : i < batch.batchSize)
    (hpart : batch.sequenceSegments i = .ok part) {segment : Segment} (hmem : segment ∈ part) :
    segment ∈ segments := by
  obtain ⟨parts, heq, hparts, -⟩ := segments_eq h
  obtain rfl := Except.ok.inj (heq.symm.trans hsegments)
  obtain rfl := Except.ok.inj ((hparts i hi).symm.trans hpart)
  exact List.mem_flatten.mpr ⟨_, List.mem_map.mpr ⟨i, List.mem_range.mpr hi, rfl⟩, hmem⟩

/-- The loops write every row once, with the output of its segment. -/
theorem forwardPrefixPytorch_rows (h : batch.WellFormed) (ops : TensorOps α) (scale : α)
    {tileSize : ℕ} (htile : 0 < tileSize)
    {output : List (QueryToken α kvHeads gqaRatio (dimBlocks * x))}
    (houtput : output.length = batch.query.length) :
    ∃ segments output', batch.segments = .ok segments ∧
      batch.forwardPrefixPytorch ops scale tileSize output = .ok output' ∧
      output'.length = batch.query.length ∧
      (∀ row < batch.query.length, segments.countP (·.Has row) = 1) ∧
      ∀ i < batch.batchSize, ∀ part, batch.sequenceSegments i = .ok part → ∀ segment ∈ part,
        slice output' (segment.absoluteStart, segment.absoluteEnd)
          = finishRows ops (segment.absoluteEnd - segment.absoluteStart)
              ((batch.callsOf ops scale tileSize segment).foldl (updateOnlineSoftmaxFromScores ops)
                fun _ _ => List.replicate (segment.absoluteEnd - segment.absoluteStart)
                  (.init ops)) := by
  obtain ⟨parts, hsegments, hparts, hconsecutive⟩ := segments_eq h
  have hrow : ∀ segment ∈ ((List.range batch.batchSize).map parts).flatten, _ := fun segment hmem =>
    have hin := mem_segments h hsegments hmem
    segmentOutput_eq h ops scale htile hin.1 hin.2.1 hin.2.2.1
  obtain ⟨output', hfold, hlength, hrows, -⟩ := foldlM_writeSegment hconsecutive output
    houtput.ge fun segment hmem => ⟨_, hrow segment hmem, by
      unfold finishRows
      rw [List.length_map, List.length_range]⟩
  refine ⟨_, output', hsegments, ?_, hlength.trans houtput,
    fun row hrow => countP_consecutive hconsecutive (Nat.zero_le _) hrow,
    fun i hi part hpart segment hmem => ?_⟩
  · unfold forwardPrefixPytorch
    rw [hsegments]
    exact hfold
  · have hall := mem_of_sequenceSegments h hsegments hi hpart hmem
    exact Except.ok.inj ((hrows segment hall).symm.trans (hrow segment hall))

end Ikun.Attention.PrefixBatch
