import Ikun.Gdn.Layer

/-!
# The prefill branch is the decode branch, token by token

`decodeAll` feeds the tokens one by one to the decode branch. The prefill branch computes the same
outputs and the same recurrent state, whatever its segments, and the states that it captures are
those of the decode branch at the captured offsets (`prefill_agrees`). What it leaves in the window of
the convolution differs: a step shorter than the window puts zeros where the decode branch keeps the
inputs of the tokens before (`prefill_conv`).
-/

namespace Ikun.Gdn.GatedDeltaNet

open Finset

variable {n : HeadCounts} {F κ ν O : Type} [Field F] [Fintype κ] (layer : GatedDeltaNet n F κ ν O)

/-! ## The delta rule -/

/-- The recurrent steps of all heads on a list of tokens. -/
def headsLoop : (Fin n.numV → HeadState F κ ν) → List (Fin n.numV → DeltaToken F κ ν) →
    List (Fin n.numV → ν → F) × (Fin n.numV → HeadState F κ ν)
  | state, [] => ([], state)
  | state, t :: ts =>
    let rest := headsLoop (fun h => (layer.decodeHead (state h) (t h)).2) ts
    ((fun h => (layer.decodeHead (state h) (t h)).1) :: rest.1, rest.2)

theorem headsLoop_append (S : Fin n.numV → HeadState F κ ν)
    (xs ys : List (Fin n.numV → DeltaToken F κ ν)) :
    layer.headsLoop S (xs ++ ys)
      = ((layer.headsLoop S xs).1 ++ (layer.headsLoop (layer.headsLoop S xs).2 ys).1,
          (layer.headsLoop (layer.headsLoop S xs).2 ys).2) := by
  induction xs generalizing S with
  | nil => rfl
  | cons x xs ih =>
    rw [List.cons_append, headsLoop, ih]
    rfl

theorem length_headsLoop (S : Fin n.numV → HeadState F κ ν)
    (xs : List (Fin n.numV → DeltaToken F κ ν)) : (layer.headsLoop S xs).1.length = xs.length := by
  induction xs generalizing S with
  | nil => rfl
  | cons x xs ih => rw [headsLoop, List.length_cons, List.length_cons, ih]

/-- The decode branch inlines the recurrent step. -/
theorem decodeHead_eq (S : HeadState F κ ν) (t : DeltaToken F κ ν) :
    layer.decodeHead S t
      = (readOut (recurrentStep layer.ops S (t.prepare layer.ops true))
          (t.prepare layer.ops true).query, recurrentStep layer.ops S (t.prepare layer.ops true)) := by
  have hstate : (layer.decodeHead S t).2
      = recurrentStep layer.ops S (t.prepare layer.ops true) := by
    funext d e
    simp [decodeHead, recurrentStep, DeltaToken.prepare, mul_comm]
  refine Prod.ext ?_ hstate
  rw [← hstate]
  funext e
  exact Finset.sum_congr rfl fun d _ => mul_comm _ _

theorem recurrent_eq_headsLoop (S : Fin n.numV → HeadState F κ ν)
    (ts : List (Fin n.numV → DeltaToken F κ ν)) (h : Fin n.numV) :
    torchRecurrentGatedDeltaRule layer.ops (ts.map (· h)) (S h) true
      = ((layer.headsLoop S ts).1.map (· h), (layer.headsLoop S ts).2 h) := by
  unfold torchRecurrentGatedDeltaRule
  induction ts generalizing S with
  | nil => rfl
  | cons t ts ih =>
    have hstep := ih fun h => (layer.decodeHead (S h) (t h)).2
    rw [decodeHead_eq] at hstep
    rw [List.map_cons, List.map_cons, recurrentLoop, hstep, headsLoop, List.map_cons]
    dsimp only
    rw [decodeHead_eq]

/-- The chunked rule on all heads is the recurrent steps of the decode branch. -/
theorem chunkHeads_eq (S : Fin n.numV → HeadState F κ ν)
    (ts : List (Fin n.numV → DeltaToken F κ ν)) : layer.chunkHeads ts S = layer.headsLoop S ts := by
  unfold chunkHeads
  simp only [torchChunkGatedDeltaRule_eq layer.chunk_pos, recurrent_eq_headsLoop]
  refine Prod.ext (List.ext_getElem (by simp [length_headsLoop]) fun i h₁ h₂ => ?_) rfl
  funext h
  simp [List.getElem?_eq_getElem h₂]

/-- The segments chain the state: what comes out does not depend on where they end. -/
theorem segmentLoop_eq (S : Fin n.numV → HeadState F κ ν)
    (ts : List (Fin n.numV → DeltaToken F κ ν)) (offsets : List ℕ) :
    ∀ (ends : List ℕ) (start : ℕ), (start :: ends).Pairwise (· < ·) →
      let last := ends.getLastD start
      let result := layer.segmentLoop ts offsets start ends (layer.headsLoop S (ts.take start)).2
      (layer.headsLoop S (ts.take start)).1 ++ result.1 = (layer.headsLoop S (ts.take last)).1 ∧
        result.2.1 = (layer.headsLoop S (ts.take last)).2 ∧
        result.2.2 = (ends.filter (· ∈ offsets)).map fun o =>
          (o, (layer.headsLoop S (ts.take o)).2)
  | [], start, _ => ⟨List.append_nil _, rfl, rfl⟩
  | scEnd :: ends, start, hsorted => by
    obtain ⟨hhead, hrest⟩ := List.pairwise_cons.mp hsorted
    have hlt : start < scEnd := hhead scEnd List.mem_cons_self
    have hsplit : ts.take scEnd = ts.take start ++ (ts.take scEnd).drop start := by
      have htake : (ts.take scEnd).take start = ts.take start := by
        rw [List.take_take, Nat.min_eq_left hlt.le]
      rw [← htake, List.take_append_drop]
    have happend := layer.headsLoop_append S (ts.take start) ((ts.take scEnd).drop start)
    rw [← hsplit] at happend
    obtain ⟨hout, hstate, hcapt⟩ := segmentLoop_eq S ts offsets ends scEnd hrest
    have hlast : (scEnd :: ends).getLastD start = ends.getLastD scEnd := List.getLastD_cons
    have hstate' : (layer.headsLoop (layer.headsLoop S (ts.take start)).2
        ((ts.take scEnd).drop start)).2 = (layer.headsLoop S (ts.take scEnd)).2 :=
      (congrArg Prod.snd happend).symm
    have hout' : (layer.headsLoop S (ts.take start)).1 ++ (layer.headsLoop
        (layer.headsLoop S (ts.take start)).2 ((ts.take scEnd).drop start)).1
          = (layer.headsLoop S (ts.take scEnd)).1 := (congrArg Prod.fst happend).symm
    dsimp only
    rw [hlast, segmentLoop, chunkHeads_eq]
    dsimp only
    rw [hstate']
    refine ⟨?_, hstate, ?_⟩
    · rw [← List.append_assoc, hout', hout]
    · rw [hcapt]
      by_cases hmem : scEnd ∈ offsets
      · simp [hmem]
      · simp [hmem]

/-! ## The convolution -/

section convolution

variable {layer}

omit [Fintype κ] in
/-- A position of the convolution only sees its window. -/
theorem convAt_append (xs ys : List (Channel n κ ν → F)) (h : layer.convKernelSize ≤ xs.length) :
    layer.convAt (xs ++ ys) 0 = layer.convAt xs 0 := by
  funext c
  refine Finset.sum_congr rfl fun j hj => ?_
  have hlt : 0 + j < xs.length := by
    have := Finset.mem_range.mp hj
    omega
  rw [List.getD_eq_getElem?_getD, List.getElem?_append_left hlt, ← List.getD_eq_getElem?_getD]

omit [Fintype κ] in
/-- The convolution moves on by one position. -/
theorem conv1d_eq_cons {padded : List (Channel n κ ν → F)}
    (h : layer.convKernelSize ≤ padded.length) :
    layer.conv1d padded = layer.convAt padded 0 :: layer.conv1d (padded.drop 1) := by
  unfold conv1d
  have hk := layer.two_le_kernel
  have hlen : padded.length + 1 - layer.convKernelSize
      = (padded.drop 1).length + 1 - layer.convKernelSize + 1 := by
    rw [List.length_drop]
    omega
  rw [hlen, List.range_succ_eq_map, List.map_cons, List.map_map]
  refine congrArg _ (List.map_congr_left fun t _ => ?_)
  funext c
  show ∑ j ∈ range layer.convKernelSize, layer.convWeight c j * padded.getD (t + 1 + j) 0 c
    = ∑ j ∈ range layer.convKernelSize, layer.convWeight c j * (padded.drop 1).getD (t + j) 0 c
  refine Finset.sum_congr rfl fun j _ => ?_
  have hshift : padded.getD (t + 1 + j) 0 = (padded.drop 1).getD (t + j) 0 := by
    rw [List.getD_eq_getElem?_getD, List.getD_eq_getElem?_getD, List.getElem?_drop]
    congr 2
    omega
  rw [hshift]

end convolution

/-! ## Token by token -/

section tokens

variable [Fintype ν]

/-- The decode branch on a list of tokens. -/
def decodeAll : LayerState n F κ ν → List (Projected n F κ ν) → List O × LayerState n F κ ν
  | state, [] => ([], state)
  | state, t :: ts =>
    let result := layer.decode state t
    let rest := decodeAll result.state ts
    (result.outputs ++ rest.1, rest.2)

/-- The window holds the last inputs. -/
def WindowOk (state : LayerState n F κ ν) : Prop := state.conv.length = layer.stateLen

variable {layer}

omit [Fintype κ] [Fintype ν] in
theorem causalConv1dUpdate_eq {conv : List (Channel n κ ν → F)} (h : conv.length = layer.stateLen)
    (x : Channel n κ ν → F) (rest : List (Channel n κ ν → F)) :
    layer.causalConv1dUpdate conv x
      = (fun c => layer.silu (layer.convAt (conv ++ x :: rest) 0 c), (conv ++ [x]).drop 1) := by
  have hk := layer.two_le_kernel
  unfold stateLen at h
  have hcons : conv ++ x :: rest = (conv ++ [x]) ++ rest := by simp
  have hlen : (conv ++ [x]).length = layer.convKernelSize := by
    rw [List.length_append, List.length_singleton]
    omega
  have hout : (layer.conv1d (conv ++ [x])).getLastD 0 = layer.convAt (conv ++ [x]) 0 := by
    unfold conv1d
    rw [hlen, Nat.add_sub_cancel_left]
    rfl
  unfold causalConv1dUpdate
  dsimp only
  rw [hout, hcons, convAt_append _ _ hlen.ge, List.length_append, List.length_singleton,
    Nat.add_sub_cancel_left]

theorem decodeAll_append (state : LayerState n F κ ν) (xs ys : List (Projected n F κ ν)) :
    layer.decodeAll state (xs ++ ys)
      = ((layer.decodeAll state xs).1 ++ (layer.decodeAll (layer.decodeAll state xs).2 ys).1,
          (layer.decodeAll (layer.decodeAll state xs).2 ys).2) := by
  induction xs generalizing state with
  | nil => rfl
  | cons x xs ih =>
    rw [List.cons_append, decodeAll, ih, decodeAll, List.append_assoc]

theorem decode_conv {state : LayerState n F κ ν} (h : layer.WindowOk state)
    (t : Projected n F κ ν) :
    (layer.decode state t).state.conv = (state.conv ++ [t.mixedQkv]).drop 1 := by
  show (layer.causalConv1dUpdate state.conv t.mixedQkv).2 = _
  rw [causalConv1dUpdate_eq h _ []]

theorem WindowOk.decode {state : LayerState n F κ ν} (h : layer.WindowOk state)
    (t : Projected n F κ ν) : layer.WindowOk (layer.decode state t).state := by
  unfold WindowOk
  rw [decode_conv h, List.length_drop, List.length_append, h, List.length_singleton,
    Nat.add_sub_cancel]

/-- The window after some tokens. -/
theorem decodeAll_conv {state : LayerState n F κ ν} (h : layer.WindowOk state)
    (ts : List (Projected n F κ ν)) : (layer.decodeAll state ts).2.conv
      = (state.conv ++ ts.map (·.mixedQkv)).drop ts.length := by
  induction ts generalizing state with
  | nil => simp [decodeAll]
  | cons t ts ih =>
    rw [decodeAll, ih (h.decode t), decode_conv h, List.length_cons, List.map_cons]
    have hlen : 1 ≤ (state.conv ++ [t.mixedQkv]).length := by simp
    rw [← List.drop_append_of_le_length hlen, List.drop_drop, Nat.add_comm 1, List.append_assoc,
      List.singleton_append]

theorem WindowOk.decodeAll {state : LayerState n F κ ν} (h : layer.WindowOk state)
    (ts : List (Projected n F κ ν)) : layer.WindowOk (layer.decodeAll state ts).2 := by
  unfold WindowOk
  rw [decodeAll_conv h, List.length_drop, List.length_append, List.length_map, h,
    Nat.add_sub_cancel]

/-- What the delta rules read of the tokens, as the prefill branch computes it. -/
def headTokens (layer : GatedDeltaNet n F κ ν O) (state : LayerState n F κ ν)
    (ts : List (Projected n F κ ν)) : List (Fin n.numV → DeltaToken F κ ν) :=
  List.zipWith layer.headToken
    ((layer.conv1d (state.conv ++ ts.map (·.mixedQkv))).map fun x c => layer.silu (x c)) ts

theorem headTokens_cons {state : LayerState n F κ ν} (h : layer.WindowOk state)
    (t : Projected n F κ ν) (ts : List (Projected n F κ ν)) :
    layer.headTokens state (t :: ts)
      = layer.headToken (layer.causalConv1dUpdate state.conv t.mixedQkv).1 t
        :: layer.headTokens (layer.decode state t).state ts := by
  have hk := layer.two_le_kernel
  have hlen : layer.convKernelSize
      ≤ (state.conv ++ t.mixedQkv :: ts.map (·.mixedQkv)).length := by
    have hw : state.conv.length = layer.convKernelSize - 1 := h
    rw [List.length_append, List.length_cons, hw]
    omega
  have hone : 1 ≤ (state.conv ++ [t.mixedQkv]).length := by simp
  have hdrop : (state.conv ++ t.mixedQkv :: ts.map (·.mixedQkv)).drop 1
      = (layer.decode state t).state.conv ++ ts.map (·.mixedQkv) := by
    rw [decode_conv h, ← List.drop_append_of_le_length hone, List.append_assoc,
      List.singleton_append]
  unfold headTokens
  rw [List.map_cons, conv1d_eq_cons hlen, List.map_cons, List.zipWith_cons_cons, hdrop,
    causalConv1dUpdate_eq h _ (ts.map (·.mixedQkv))]

theorem length_headTokens {state : LayerState n F κ ν} (h : layer.WindowOk state)
    (ts : List (Projected n F κ ν)) : (layer.headTokens state ts).length = ts.length := by
  induction ts generalizing state with
  | nil => simp [headTokens]
  | cons t ts ih => rw [headTokens_cons h, List.length_cons, List.length_cons, ih (h.decode t)]

/-- The decode branch on a list of tokens, in terms of what the delta rules read. -/
theorem decodeAll_eq {state : LayerState n F κ ν} (h : layer.WindowOk state)
    (ts : List (Projected n F κ ν)) :
    (layer.decodeAll state ts).1
        = List.zipWith layer.project
          (layer.headsLoop state.temporal (layer.headTokens state ts)).1 ts ∧
      (layer.decodeAll state ts).2.temporal
        = (layer.headsLoop state.temporal (layer.headTokens state ts)).2 := by
  induction ts generalizing state with
  | nil => simp [decodeAll, headTokens, headsLoop]
  | cons t ts ih =>
    obtain ⟨hout, htemp⟩ := ih (h.decode t)
    rw [headTokens_cons h, headsLoop, decodeAll]
    exact ⟨congrArg _ hout, htemp⟩

/-- The tokens in front do not see those behind. -/
theorem headTokens_take {state : LayerState n F κ ν} (h : layer.WindowOk state)
    (ts : List (Projected n F κ ν)) (o : ℕ) :
    (layer.headTokens state ts).take o = layer.headTokens state (ts.take o) := by
  induction ts generalizing state o with
  | nil => simp [headTokens]
  | cons t ts ih =>
    cases o with
    | zero => simp [headTokens]
    | succ o =>
      rw [headTokens_cons h, List.take_succ_cons, List.take_succ_cons, headTokens_cons h,
        ih (h.decode t)]

/-! ## The segments -/

omit [Fintype κ] [Fintype ν] in
theorem mem_gdnSegmentEnds {seqLen chunk e : ℕ} {offsets : List ℕ} :
    e ∈ gdnSegmentEnds seqLen chunk offsets ↔
      (e < seqLen ∧ chunk ≤ e ∧ e % chunk = 0) ∨ e = seqLen ∨
        (e ∈ offsets ∧ 0 < e ∧ e < seqLen) := by
  unfold gdnSegmentEnds
  simp only [List.append_assoc, List.singleton_append, Finset.mem_sort, List.mem_toFinset,
    List.mem_append, List.mem_filter, List.mem_range, List.mem_cons, decide_eq_true_eq]

/-- The segments go from the first token to the last. -/
theorem gdnSegmentEnds_sorted {seqLen chunk : ℕ} (hlen : 0 < seqLen) (hchunk : 0 < chunk)
    (offsets : List ℕ) : (0 :: gdnSegmentEnds seqLen chunk offsets).Pairwise (· < ·) := by
  refine List.pairwise_cons.mpr ⟨fun e he => ?_, (Finset.sortedLT_sort _).pairwise⟩
  rcases mem_gdnSegmentEnds.mp he with h | h | h <;> omega

theorem getLastD_gdnSegmentEnds {seqLen chunk : ℕ} (hlen : 0 < seqLen) (hchunk : 0 < chunk)
    (offsets : List ℕ) : (gdnSegmentEnds seqLen chunk offsets).getLastD 0 = seqLen := by
  have hsorted := (List.pairwise_cons.mp (gdnSegmentEnds_sorted hlen hchunk offsets)).2
  have hmem : seqLen ∈ gdnSegmentEnds seqLen chunk offsets :=
    mem_gdnSegmentEnds.mpr (.inr (.inl rfl))
  have hle : ∀ e ∈ gdnSegmentEnds seqLen chunk offsets, e ≤ seqLen := by
    intro e he
    rcases mem_gdnSegmentEnds.mp he with h | h | h <;> omega
  have hne : gdnSegmentEnds seqLen chunk offsets ≠ [] := List.ne_nil_of_mem hmem
  rw [List.getLastD_eq_getLast?, List.getLast?_eq_some_getLast hne, Option.getD_some]
  refine Nat.le_antisymm (hle _ (List.getLast_mem hne)) ?_
  rcases List.mem_iff_append.mp hmem with ⟨xs, ys, h⟩
  cases ys using List.reverseRecOn with
  | nil => simp [h]
  | append_singleton ys y =>
    rw [h] at hsorted
    have hlt : seqLen < y :=
      (List.pairwise_cons.mp (List.pairwise_append.mp hsorted).2.1).1 y (by simp)
    have hy := hle y (by rw [h]; simp)
    omega

/-! ## Prefill -/

section prefill

variable {state : LayerState n F κ ν} {ts : List (Projected n F κ ν)}
  {captureOffsets segmentOffsets : List ℕ}

/-- The loop over the segments is the decode branch on the tokens. -/
theorem prefill_segmentLoop (h : layer.WindowOk state) (hts : ts ≠ [])
    (captureOffsets segmentOffsets : List ℕ) :
    let ends := gdnSegmentEnds ts.length layer.dnnChunkSize (captureOffsets ++ segmentOffsets)
    layer.segmentLoop (layer.headTokens state ts) captureOffsets 0 ends state.temporal
      = ((layer.headsLoop state.temporal (layer.headTokens state ts)).1,
          (layer.headsLoop state.temporal (layer.headTokens state ts)).2,
          (ends.filter (· ∈ captureOffsets)).map fun o =>
            (o, (layer.headsLoop state.temporal ((layer.headTokens state ts).take o)).2)) := by
  intro ends
  have hlen : 0 < ts.length := List.length_pos_iff.mpr hts
  obtain ⟨hout, hstate, hcapt⟩ := layer.segmentLoop_eq state.temporal (layer.headTokens state ts)
    captureOffsets ends 0 (gdnSegmentEnds_sorted hlen layer.dnnChunk_pos _)
  have hlast : ends.getLastD 0 = ts.length := getLastD_gdnSegmentEnds hlen layer.dnnChunk_pos _
  have hall : (layer.headTokens state ts).take ts.length = layer.headTokens state ts :=
    List.take_of_length_le (length_headTokens h ts).le
  rw [hlast, hall] at hout hstate
  exact Prod.ext hout (Prod.ext hstate hcapt)

/-- The outputs of the prefill branch. -/
theorem prefill_outputs (h : layer.WindowOk state) (hts : ts ≠ []) :
    (layer.prefill state ts captureOffsets segmentOffsets).outputs
      = (layer.decodeAll state ts).1 := by
  have hloop := prefill_segmentLoop h hts captureOffsets segmentOffsets
  show List.zipWith layer.project (layer.segmentLoop (layer.headTokens state ts) captureOffsets 0
    (gdnSegmentEnds ts.length layer.dnnChunkSize (captureOffsets ++ segmentOffsets))
    state.temporal).1 ts = _
  rw [hloop, (decodeAll_eq h ts).1]

/-- The recurrent state after the prefill branch. -/
theorem prefill_temporal (h : layer.WindowOk state) (hts : ts ≠ []) :
    (layer.prefill state ts captureOffsets segmentOffsets).state.temporal
      = (layer.decodeAll state ts).2.temporal := by
  have hloop := prefill_segmentLoop h hts captureOffsets segmentOffsets
  show (layer.segmentLoop (layer.headTokens state ts) captureOffsets 0
    (gdnSegmentEnds ts.length layer.dnnChunkSize (captureOffsets ++ segmentOffsets))
    state.temporal).2.1 = _
  rw [hloop, (decodeAll_eq h ts).2]

/-- The window that the prefill branch leaves: the last inputs, with zeros for the inputs that a
short step would have to keep. -/
theorem prefill_conv (state : LayerState n F κ ν) (ts : List (Projected n F κ ν)) :
    (layer.prefill state ts captureOffsets segmentOffsets).state.conv
      = (List.replicate layer.stateLen 0 ++ ts.map Projected.mixedQkv).drop ts.length := by
  show (if layer.stateLen ≤ ts.length then
      (ts.map Projected.mixedQkv).drop (ts.length - layer.stateLen)
    else List.replicate (layer.stateLen - ts.length) 0 ++ ts.map Projected.mixedQkv) = _
  split
  · next hle =>
    have hnil : (List.replicate layer.stateLen (0 : Channel n κ ν → F)).drop ts.length = [] :=
      List.drop_eq_nil_of_le (by rw [List.length_replicate]; exact hle)
    conv_rhs => rw [List.drop_append, hnil, List.length_replicate, List.nil_append]
  · next hlt =>
    rw [List.drop_append_of_le_length (by rw [List.length_replicate]; omega),
      List.drop_replicate]

/-- The windows that the prefill branch captures. -/
theorem prefill_capturedConv (h : layer.WindowOk state) {o : ℕ}
    {conv : List (Channel n κ ν → F)}
    (hmem : (o, conv) ∈ (layer.prefill state ts captureOffsets segmentOffsets).capturedConv) :
    o < ts.length ∧ conv = (layer.decodeAll state (ts.take o)).2.conv := by
  obtain ⟨o', ho', heq⟩ := List.mem_map.mp hmem
  obtain ⟨rfl, rfl⟩ := Prod.mk.injEq .. ▸ heq
  have hlt : o' < ts.length := (by simpa using (List.mem_filter.mp ho').2 : 0 < o' ∧ _).2
  refine ⟨hlt, ?_⟩
  have hlen : (ts.take o').length = o' := by rw [List.length_take]; omega
  have hw : state.conv.length = layer.stateLen := h
  rw [decodeAll_conv h, hlen, List.map_take, ← List.take_length_add_append, List.drop_take, hw,
    Nat.add_sub_cancel]

/-- The recurrent states that the prefill branch captures. -/
theorem prefill_capturedTemporal (h : layer.WindowOk state) (hts : ts ≠ []) {o : ℕ}
    {temporal : Fin n.numV → HeadState F κ ν} (hmem : (o, temporal)
      ∈ (layer.prefill state ts captureOffsets segmentOffsets).capturedTemporal) :
    o ≤ ts.length ∧ temporal = (layer.decodeAll state (ts.take o)).2.temporal := by
  have hloop := prefill_segmentLoop h hts captureOffsets segmentOffsets
  have hcapt : (layer.prefill state ts captureOffsets segmentOffsets).capturedTemporal
      = (layer.segmentLoop (layer.headTokens state ts) captureOffsets 0
        (gdnSegmentEnds ts.length layer.dnnChunkSize (captureOffsets ++ segmentOffsets))
        state.temporal).2.2 := rfl
  rw [hcapt, hloop] at hmem
  obtain ⟨o', ho', heq⟩ := List.mem_map.mp hmem
  obtain ⟨rfl, rfl⟩ := Prod.mk.injEq .. ▸ heq
  refine ⟨?_, by rw [(decodeAll_eq h _).2, headTokens_take h]⟩
  rcases mem_gdnSegmentEnds.mp (List.mem_of_mem_filter ho') with he | he | he <;> omega

end prefill

end tokens

end Ikun.Gdn.GatedDeltaNet
