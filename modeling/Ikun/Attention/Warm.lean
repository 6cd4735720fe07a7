import Ikun.Attention.Rows

/-!
# A warm request repeats a cold one

Of a prompt some tokens are cached, and the others are the query of a run. Whatever number of tokens is
cached, the last segment of the query starts at the last strict block boundary, and its context, cached
tokens and tokens of the query in front, is the prompt up to the boundary. So two runs make the same
calls for the rows behind the boundary, on the same tiles, and these rows are equal for every arithmetic
(`warm_repeats_cold`).
-/

namespace Ikun.Attention.PrefixBatch

open Except

variable {α : Type} {numBlocks kvHeads gqaRatio dimBlocks x blockSize width : ℕ}
variable {batch : PrefixBatch α numBlocks kvHeads gqaRatio dimBlocks x blockSize width}

/-- A prompt: the queries, the keys and the values of its tokens. -/
structure Prompt (α : Type) (kvHeads gqaRatio headDim : ℕ) where
  query : List (QueryToken α kvHeads gqaRatio headDim)
  key : List (KVToken α kvHeads headDim)
  value : List (KVToken α kvHeads headDim)
  key_length : key.length = query.length
  value_length : value.length = query.length

/-- The last block boundary in front of the last token. -/
def Prompt.boundary {headDim : ℕ} (p : Prompt α kvHeads gqaRatio headDim) (blockSize : ℕ) : ℕ :=
  (p.query.length - 1) / blockSize * blockSize

/-- A sequence of a batch processes a prompt from position `c` on, and the tokens in front are
cached. -/
structure Continues (batch : PrefixBatch α numBlocks kvHeads gqaRatio dimBlocks x blockSize width)
    (i c qStart qEnd : ℕ) (p : Prompt α kvHeads gqaRatio (dimBlocks * x)) : Prop where
  contextLens : batch.contextLens[i]? = some (c : ℤ)
  startLoc : batch.queryStartLoc[i]? = some qStart
  endLoc : batch.queryStartLoc[i + 1]? = some qEnd
  query : slice batch.query (qStart, qEnd) = p.query.drop c
  key : slice batch.key (qStart, qEnd) = p.key.drop c
  value : slice batch.value (qStart, qEnd) = p.value.drop c
  cachedKeys : (batch.cachedKeys i).take c = p.key.take c
  cachedValues : (batch.cachedValues i).take c = p.value.take c

/-! ## Tiles of positions -/

/-- The positions of a tile: those in blocks, and those of the query in front. -/
def tilePositions (contextLen : ℕ) (span : TileSpan) : List ℕ :=
  List.range' span.blockStart (span.blockEnd - span.blockStart)
    ++ List.range' (contextLen + span.prefixStart) (span.prefixEnd - span.prefixStart)

theorem tilePositions_tileSpan (contextLen : ℕ) {tile : ℕ × ℕ} (h : tile.1 ≤ tile.2) :
    tilePositions contextLen (tileSpan contextLen tile) = List.range' tile.1 (tile.2 - tile.1) := by
  unfold tilePositions tileSpan
  dsimp only
  cases Nat.le_total tile.2 contextLen with
  | inl hblocks =>
    rw [Nat.min_eq_left (h.trans hblocks), Nat.min_eq_left hblocks, Nat.sub_eq_zero_of_le hblocks,
      Nat.zero_sub, List.range'_zero, List.append_nil]
  | inr hstop =>
    rw [Nat.min_eq_right hstop]
    cases Nat.le_total tile.1 contextLen with
    | inl hstart =>
      rw [Nat.min_eq_left hstart, Nat.sub_eq_zero_of_le hstart, Nat.add_zero, Nat.sub_zero]
      have happend := List.range'_append_1 (s := tile.1) (m := contextLen - tile.1)
        (n := tile.2 - contextLen)
      rw [Nat.add_sub_cancel' hstart] at happend
      rw [happend]
      congr 1
      omega
    | inr hfront =>
      rw [Nat.min_eq_right hfront, Nat.sub_self, List.range'_zero, List.nil_append,
        Nat.add_sub_cancel' hfront]
      congr 1
      omega

/-- The tiles partition the context in order. -/
theorem flatMap_tilePositions (contextLen frontLen : ℕ) {tileSize : ℕ} (htile : 0 < tileSize) :
    ∃ spans, prefixContextTileSpans contextLen frontLen tileSize = .ok spans ∧
      spans.flatMap (tilePositions contextLen) = List.range (contextLen + frontLen) := by
  refine ⟨_, raiseIf_bind (Nat.ne_of_gt htile), ?_⟩
  have hslices := flatMap_slices htile (List.range (contextLen + frontLen))
  rw [List.length_range] at hslices
  rw [List.flatMap_map, ← hslices]
  refine List.flatMap_congr fun tile hmem => ?_
  obtain ⟨hlt, hle⟩ := mem_tileRanges htile hmem
  rw [tilePositions_tileSpan contextLen (Nat.le_of_lt hlt)]
  unfold slice
  rw [List.take_range, Nat.min_eq_left hle, List.range_eq_range', List.drop_range', Nat.zero_add,
    Nat.mul_one]

/-! ## The last segment -/

variable {i c qStart qEnd : ℕ} {p : Prompt α kvHeads gqaRatio (dimBlocks * x)}

theorem Continues.index_lt (h : Continues batch i c qStart qEnd p) (hwf : batch.WellFormed) :
    i < batch.batchSize := by
  obtain ⟨hi, -⟩ := List.getElem?_eq_some_iff.mp h.contextLens
  exact hwf.contextLens ▸ hi

/-- The rows of a sequence. -/
theorem Continues.bounds (h : Continues batch i c qStart qEnd p) (hwf : batch.WellFormed)
    (hc : c < p.query.length) :
    qEnd ≤ batch.query.length ∧ qStart + (p.query.length - c) = qEnd := by
  have hi := h.index_lt hwf
  obtain ⟨hend, heq⟩ := List.getElem?_eq_some_iff.mp h.endLoc
  obtain ⟨hlast, hrows⟩ := List.getElem?_eq_some_iff.mp hwf.last
  have hle : qEnd ≤ batch.query.length := by
    rw [← heq, ← hrows]
    cases Nat.lt_or_ge (i + 1) batch.batchSize with
    | inl hlt => exact List.pairwise_iff_getElem.mp hwf.sorted _ _ hend hlast hlt
    | inr hge =>
      have hsame : i + 1 = batch.batchSize := Nat.le_antisymm hi hge
      exact Nat.le_of_eq (getElem_congr_idx hsame)
  have hlength := congrArg List.length h.query
  rw [length_slice, List.length_drop, Nat.min_eq_left hle] at hlength
  dsimp only at hlength
  exact ⟨hle, by omega⟩

/-- The context is kept as it is. -/
theorem Continues.guardedCtxLen_eq (h : Continues batch i c qStart qEnd p) (hwf : batch.WellFormed)
    (hc : c < p.query.length) : batch.guardedCtxLen c = c := by
  have hi : i < batch.blockTables.length := hwf.blockTables ▸ h.index_lt hwf
  have hcached := congrArg List.length h.cachedKeys
  unfold PrefixBatch.cachedKeys at hcached
  rw [List.getElem?_eq_getElem hi, Option.elim_some, List.length_take, List.length_take,
    p.key_length, List.length_flatMap, List.map_congr_left fun b _ => length_readKeys b,
    List.map_const', List.sum_replicate, Vector.length_toList] at hcached
  refine PrefixBatch.guardedCtxLen_eq (List.ne_nil_of_length_pos (Nat.zero_lt_of_lt hi)) ?_
  rw [show width • blockSize = width * blockSize from rfl] at hcached
  omega

/-- The last segment of a run: it starts at the boundary. -/
def tail (i c qStart qEnd boundary : ℕ) : Segment :=
  ⟨i, c, qStart, qStart + (boundary - c), qEnd⟩

theorem take_append_take_drop {τ : Type} (l : List τ) {c n : ℕ} (h : c ≤ n) :
    l.take c ++ (l.drop c).take (n - c) = l.take n := by
  rw [← List.take_add, Nat.add_sub_cancel' h]

theorem drop_drop_sub {τ : Type} (l : List τ) {c n : ℕ} (h : c ≤ n) :
    (l.drop c).drop (n - c) = l.drop n := by
  rw [List.drop_drop, Nat.add_sub_cancel' h]

/-- The calls for the rows behind the boundary: they only depend on the prompt. -/
def Prompt.tailCalls {headDim : ℕ} (p : Prompt α kvHeads gqaRatio headDim) (ops : TensorOps α)
    (scale : α) (blockSize tileSize : ℕ) : List (SoftmaxCall α kvHeads gqaRatio headDim) :=
  logicalCalls ops scale (p.query.drop (p.boundary blockSize)) (p.key.drop (p.boundary blockSize))
    (p.value.drop (p.boundary blockSize)) (p.key.take (p.boundary blockSize))
    (p.value.take (p.boundary blockSize)) tileSize

/-- The last segment of a run and its calls. -/
theorem Continues.tail_spec (h : Continues batch i c qStart qEnd p) (hwf : batch.WellFormed)
    (hpos : 0 < p.query.length) (hc : c ≤ p.boundary blockSize) (ops : TensorOps α) (scale : α)
    (tileSize : ℕ) :
    (∃ part, batch.sequenceSegments i = .ok part ∧
        part.getLast? = some (tail i c qStart qEnd (p.boundary blockSize))) ∧
      batch.callsOf ops scale tileSize (tail i c qStart qEnd (p.boundary blockSize))
        = p.tailCalls ops scale blockSize tileSize := by
  have hboundary : p.boundary blockSize < p.query.length :=
    Nat.lt_of_le_of_lt (Nat.div_mul_le_self _ _) (Nat.sub_lt hpos Nat.one_pos)
  have hlt : c < p.query.length := Nat.lt_of_le_of_lt hc hboundary
  obtain ⟨hend, hrows⟩ := h.bounds hwf hlt
  constructor
  · obtain ⟨ctxLen, start, stop, hctx, hstart, hstop, -, hok⟩ :=
      sequenceSegments_eq hwf (h.index_lt hwf)
    obtain rfl := Option.some.inj (h.contextLens.symm.trans hctx)
    obtain rfl := Option.some.inj (h.startLoc.symm.trans hstart)
    obtain rfl := Option.some.inj (h.endLoc.symm.trans hstop)
    rw [h.guardedCtxLen_eq hwf hlt] at hok
    refine ⟨_, hok, ?_⟩
    have hquery : qEnd - qStart = p.query.length - c := by omega
    have htotal : (c + (p.query.length - c) - 1) / blockSize * blockSize = p.boundary blockSize := by
      rw [Nat.add_sub_cancel' (Nat.le_of_lt hlt)]
      rfl
    unfold strictPrefixQuerySegments tail
    rw [hquery, if_neg (by omega)]
    dsimp only
    rw [htotal]
    split
    · rw [List.map_cons, List.map_cons, List.map_nil, List.getLast?_cons_cons,
        List.getLast?_singleton, hrows]
    · next hwhole =>
      rw [List.map_singleton, List.getLast?_singleton, hrows]
      have hzero : p.boundary blockSize - c = 0 := by omega
      rw [hzero]
  · unfold callsOf tail Prompt.tailCalls
    dsimp only
    have hfront : qStart + (p.boundary blockSize - c) ≤ qEnd := by omega
    rw [slice_drop, slice_drop, slice_drop, slice_take _ hfront, slice_take _ hfront, h.query, h.key,
      h.value, h.cachedKeys, h.cachedValues, drop_drop_sub _ hc, drop_drop_sub _ hc,
      drop_drop_sub _ hc, take_append_take_drop _ hc, take_append_take_drop _ hc]

/-- The code makes these calls for the last segment. -/
theorem Continues.callsMade_tail (h : Continues batch i c qStart qEnd p) (hwf : batch.WellFormed)
    (hpos : 0 < p.query.length) (hc : c ≤ p.boundary blockSize) (ops : TensorOps α) (scale : α)
    {tileSize : ℕ} (htile : 0 < tileSize) :
    batch.callsMade ops scale tileSize (tail i c qStart qEnd (p.boundary blockSize))
      = .ok (p.tailCalls ops scale blockSize tileSize) := by
  obtain ⟨⟨part, hpart, hlast⟩, hcalls⟩ := h.tail_spec hwf hpos hc ops scale tileSize
  obtain ⟨_, hsegments, -, -⟩ := segments_eq hwf
  have hmem := mem_of_sequenceSegments hwf hsegments (h.index_lt hwf) hpart
    (List.mem_of_getLast? hlast)
  obtain ⟨hindex, hctx, -, -⟩ := mem_segments hwf hsegments hmem
  rw [callsMade_eq hwf ops scale htile hindex hctx, hcalls]

/-- The rows behind the boundary are those of the last segment. -/
theorem Continues.rows (h : Continues batch i c qStart qEnd p) (hwf : batch.WellFormed)
    (hpos : 0 < p.query.length) (hc : c ≤ p.boundary blockSize) (ops : TensorOps α) (scale : α)
    {tileSize : ℕ} (htile : 0 < tileSize)
    {output : List (QueryToken α kvHeads gqaRatio (dimBlocks * x))}
    (hlength : output.length = batch.query.length) :
    ∃ result, batch.forwardPrefixPytorch ops scale tileSize output = .ok result ∧
      slice result (qStart + (p.boundary blockSize - c), qEnd)
        = finishRows ops (p.query.length - p.boundary blockSize)
            ((p.tailCalls ops scale blockSize tileSize).foldl (updateOnlineSoftmaxFromScores ops)
              fun _ _ => List.replicate (p.query.length - p.boundary blockSize) (.init ops)) := by
  obtain ⟨⟨part, hpart, hlast⟩, hcalls⟩ := h.tail_spec hwf hpos hc ops scale tileSize
  obtain ⟨_, result, -, hok, -, -, hrows⟩ := forwardPrefixPytorch_rows hwf ops scale htile hlength
  have hboundary : p.boundary blockSize < p.query.length :=
    Nat.lt_of_le_of_lt (Nat.div_mul_le_self _ _) (Nat.sub_lt hpos Nat.one_pos)
  obtain ⟨-, hbounds⟩ := h.bounds hwf (Nat.lt_of_le_of_lt hc hboundary)
  have htail := hrows i (h.index_lt hwf) part hpart _ (List.mem_of_getLast? hlast)
  have hsize : (tail i c qStart qEnd (p.boundary blockSize)).absoluteEnd
      - (tail i c qStart qEnd (p.boundary blockSize)).absoluteStart
        = p.query.length - p.boundary blockSize := by
    unfold tail
    dsimp only
    omega
  rw [hcalls, hsize] at htail
  exact ⟨result, hok, htail⟩

/-- A row behind the boundary, as it stands in the result. -/
theorem Continues.getElem?_result (h : Continues batch i c qStart qEnd p) (hwf : batch.WellFormed)
    (hc : c ≤ p.boundary blockSize) {τ : Type} {result rows : List τ}
    (hrows : slice result (qStart + (p.boundary blockSize - c), qEnd) = rows) {position : ℕ}
    (hbehind : p.boundary blockSize ≤ position) (hinside : position < p.query.length) :
    result[qStart + (position - c)]? = rows[position - p.boundary blockSize]? := by
  obtain ⟨-, hbounds⟩ := h.bounds hwf (Nat.lt_of_le_of_lt (hc.trans hbehind) hinside)
  have hindex : qStart + (p.boundary blockSize - c) + (position - p.boundary blockSize)
      = qStart + (position - c) := by omega
  rw [← hrows]
  unfold slice
  dsimp only
  rw [List.getElem?_drop, List.getElem?_take, hindex, if_pos (by omega)]

/-- Two runs of a prompt, with any numbers of cached tokens up to the boundary: the last segments make
the same calls on the same tiles, both runs return, the rows behind the boundary are equal whatever
the arithmetic is, and the tiles of both partition the context up to the boundary in order. -/
theorem warm_repeats_cold {numBlocks' width' : ℕ}
    {batch' : PrefixBatch α numBlocks' kvHeads gqaRatio dimBlocks x blockSize width'}
    {i' c' qStart' qEnd' : ℕ} (ops : TensorOps α) (scale : α) (tileSize : ℕ) (htile : 0 < tileSize)
    (hpos : 0 < p.query.length) (hwf : batch.WellFormed) (hwf' : batch'.WellFormed)
    (h : Continues batch i c qStart qEnd p) (h' : Continues batch' i' c' qStart' qEnd' p)
    (hc : c ≤ p.boundary blockSize) (hc' : c' ≤ p.boundary blockSize) :
    (∃ part part' last last' calls, batch.sequenceSegments i = .ok part ∧
        batch'.sequenceSegments i' = .ok part' ∧ part.getLast? = some last ∧
        part'.getLast? = some last' ∧
        last.absoluteStart = qStart + (p.boundary blockSize - c) ∧ last.absoluteEnd = qEnd ∧
        last'.absoluteStart = qStart' + (p.boundary blockSize - c') ∧ last'.absoluteEnd = qEnd' ∧
        batch.callsMade ops scale tileSize last = .ok calls ∧
        batch'.callsMade ops scale tileSize last' = .ok calls) ∧
      (∀ output output', output.length = batch.query.length →
        output'.length = batch'.query.length →
        ∃ result result', batch.forwardPrefixPytorch ops scale tileSize output = .ok result ∧
          batch'.forwardPrefixPytorch ops scale tileSize output' = .ok result' ∧
          ∀ position, p.boundary blockSize ≤ position → position < p.query.length →
            ∃ row, result[qStart + (position - c)]? = some row ∧
              result'[qStart' + (position - c')]? = some row) ∧
      (∀ context ≤ p.boundary blockSize, ∃ spans,
        prefixContextTileSpans context (p.boundary blockSize - context) tileSize = .ok spans ∧
          spans.flatMap (tilePositions context) = List.range (p.boundary blockSize)) := by
  obtain ⟨⟨part, hpart, hlast⟩, -⟩ := h.tail_spec hwf hpos hc ops scale tileSize
  obtain ⟨⟨part', hpart', hlast'⟩, -⟩ := h'.tail_spec hwf' hpos hc' ops scale tileSize
  refine ⟨⟨part, part', _, _, _, hpart, hpart', hlast, hlast', rfl, rfl, rfl, rfl,
    h.callsMade_tail hwf hpos hc ops scale htile, h'.callsMade_tail hwf' hpos hc' ops scale htile⟩,
    ?_, fun context hcontext => ?_⟩
  · intro output output' hlength hlength'
    obtain ⟨result, hok, hrows⟩ := h.rows hwf hpos hc ops scale htile hlength
    obtain ⟨result', hok', hrows'⟩ := h'.rows hwf' hpos hc' ops scale htile hlength'
    refine ⟨result, result', hok, hok', fun position hbehind hinside => ?_⟩
    rw [h.getElem?_result hwf hc hrows hbehind hinside,
      h'.getElem?_result hwf' hc' hrows' hbehind hinside]
    refine ⟨_, List.getElem?_eq_getElem ?_, List.getElem?_eq_getElem _⟩
    unfold finishRows
    rw [List.length_map, List.length_range]
    omega
  · have htiles := flatMap_tilePositions context (p.boundary blockSize - context) htile
    rwa [Nat.add_sub_cancel' hcontext] at htiles

/-- Five tokens with one head and one component. -/
def fiveTokens : Prompt ℕ 1 1 (1 * 1) where
  query := (List.range 5).map fun token _ _ => token
  key := (List.range 5).map fun token _ _ => token
  value := (List.range 5).map fun token _ _ => token
  key_length := rfl
  value_length := rfl

/-- The prompt behind some cached tokens, in two blocks of two tokens. -/
def fiveTokensBehind (cached : ℕ) : PrefixBatch ℕ 2 1 1 1 1 2 2 where
  query := fiveTokens.query.drop cached
  key := fiveTokens.key.drop cached
  value := fiveTokens.value.drop cached
  keyCache block _ _ offset _ := 2 * block + offset
  valueCache block _ _ offset := 2 * block + offset
  blockTables := [#v[0, 1]]
  queryStartLoc := [0, 5 - cached]
  contextLens := [cached]
  batchSize := 1

/-- Rounded arithmetic: sums are even. -/
def evenOps : TensorOps ℕ where
  zero := 0
  negInf := 0
  add a b := (a + b) / 2 * 2
  sub a b := a - b
  mul a b := a * b
  div a b := a / b
  maximum := max
  exp a := a + 1
  amax row := row.foldl max 0
  sum row := row.foldl (fun a b => (a + b) / 2 * 2) 0
  dot row column := (List.zipWith (· * ·) row column).foldl (fun a b => (a + b) / 2 * 2) 0

/-- Nothing is cached, or four tokens are: the last token is processed alike. -/
theorem warm_repeats_cold_five : ∃ last last' calls,
    (fiveTokensBehind 0).callsMade evenOps 1 3 last = .ok calls ∧
      (fiveTokensBehind 4).callsMade evenOps 1 3 last' = .ok calls ∧
      last.absoluteStart = 4 ∧ last'.absoluteStart = 0 := by
  have hwf : ∀ cached, cached = 0 ∨ cached = 4 → (fiveTokensBehind cached).WellFormed := by
    intro cached hcached
    obtain rfl | rfl := hcached
    · exact ⟨by decide, rfl, rfl, rfl, rfl, rfl, by decide, rfl, rfl⟩
    · exact ⟨by decide, rfl, rfl, rfl, rfl, rfl, by decide, rfl, rfl⟩
  have hcold : Continues (fiveTokensBehind 0) 0 0 0 5 fiveTokens :=
    ⟨rfl, rfl, rfl, rfl, rfl, rfl, rfl, rfl⟩
  have hwarm : Continues (fiveTokensBehind 4) 0 4 0 1 fiveTokens :=
    ⟨rfl, rfl, rfl, rfl, rfl, rfl, rfl, rfl⟩
  obtain ⟨⟨_, _, last, last', calls, -, -, -, -, hstart, -, hstart', -, hcalls, hcalls'⟩, -, -⟩ :=
    warm_repeats_cold evenOps 1 3 (by decide) (by decide) (hwf 0 (.inl rfl)) (hwf 4 (.inr rfl)) hcold
      hwarm (by decide) (by decide)
  exact ⟨last, last', calls, hcalls, hcalls', hstart, hstart'⟩

end Ikun.Attention.PrefixBatch
