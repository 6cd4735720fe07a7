import Ikun.Gdn.Prefill

/-!
# Cutting a sequence into steps

A sequence of tokens is processed in steps, each by the prefill branch or, for one token, by the
decode branch. `Agrees` says that nothing shows where the cuts were: outputs and final states are
those of one prefill of the whole sequence, and a captured state is the state after exactly the
tokens in front of it.

This holds for every layer and every sequence if and only if each prefill step after the first step
fills the window of the convolution (`agrees_iff`). A shorter step should shift the window, but it
overwrites the inputs of the tokens before with zeros.
-/

namespace Ikun.Gdn

open Finset

/-- One forward pass of a sequence: a prefill of some tokens, or a decode of one. -/
inductive ForwardStep
  | prefill (numTokens : ℕ) (captureOffsets segmentOffsets : List ℕ)
  | decode
  deriving DecidableEq

/-- The number of tokens of a step. -/
def ForwardStep.numTokens : ForwardStep → ℕ
  | .prefill numTokens _ _ => numTokens
  | .decode => 1

/-- The number of tokens of some steps. -/
def totalTokens (steps : List ForwardStep) : ℕ := (steps.map ForwardStep.numTokens).sum

theorem totalTokens_cons (step : ForwardStep) (steps : List ForwardStep) :
    totalTokens (step :: steps) = step.numTokens + totalTokens steps := List.sum_cons

/-- A step that leaves the window of the convolution as it should be: the decode branch shifts it,
the prefill branch has to fill it. -/
def ForwardStep.FillsWindow (kernelSize : ℕ) : ForwardStep → Prop
  | .prefill numTokens _ _ => kernelSize - 1 ≤ numTokens
  | .decode => True

instance (kernelSize : ℕ) (step : ForwardStep) : Decidable (step.FillsWindow kernelSize) :=
  match step with
  | .prefill numTokens _ _ => inferInstanceAs (Decidable (kernelSize - 1 ≤ numTokens))
  | .decode => .isTrue trivial

namespace GatedDeltaNet

variable {n : HeadCounts} {F κ ν O : Type} [Field F] [Fintype κ] [Fintype ν]

/-- The zero initial states. -/
def zeroState (layer : GatedDeltaNet n F κ ν O) : LayerState n F κ ν :=
  ⟨List.replicate layer.stateLen 0, fun _ _ _ => 0⟩

/-- One step on the tokens that it takes. -/
def forward (layer : GatedDeltaNet n F κ ν O) (state : LayerState n F κ ν) (step : ForwardStep)
    (tokens : List (Projected n F κ ν)) : StepResult n F κ ν O :=
  match step, tokens with
  | .prefill _ captureOffsets segmentOffsets, tokens =>
    layer.prefill state tokens captureOffsets segmentOffsets
  | .decode, t :: _ => layer.decode state t
  | .decode, [] => ⟨[], state, [], []⟩

/-- The steps one after the other. -/
def run (layer : GatedDeltaNet n F κ ν O) :
    LayerState n F κ ν → List ForwardStep → List (Projected n F κ ν) →
      List (StepResult n F κ ν O) × LayerState n F κ ν
  | state, [], _ => ([], state)
  | state, step :: steps, tokens =>
    let result := layer.forward state step (tokens.take step.numTokens)
    let rest := run layer result.state steps (tokens.drop step.numTokens)
    (result :: rest.1, rest.2)

/-- One prefill of all tokens, from zero states. -/
def prefillAll (layer : GatedDeltaNet n F κ ν O) (tokens : List (Projected n F κ ν)) :
    StepResult n F κ ν O :=
  layer.prefill layer.zeroState tokens [] []

/-- The run in steps gives what one prefill gives, and the states that it captures are those of
the tokens in front of the captured offsets. -/
structure Agrees (layer : GatedDeltaNet n F κ ν O) (steps : List ForwardStep)
    (tokens : List (Projected n F κ ν)) : Prop where
  outputs : (layer.run layer.zeroState steps tokens).1.flatMap (·.outputs)
    = (layer.prefillAll tokens).outputs
  finalState : (layer.run layer.zeroState steps tokens).2 = (layer.prefillAll tokens).state
  capturedConv : ∀ i result, (layer.run layer.zeroState steps tokens).1[i]? = some result →
    ∀ o conv, (o, conv) ∈ result.capturedConv →
      conv = (layer.prefillAll (tokens.take (totalTokens (steps.take i) + o))).state.conv
  capturedTemporal : ∀ i result, (layer.run layer.zeroState steps tokens).1[i]? = some result →
    ∀ o temporal, (o, temporal) ∈ result.capturedTemporal →
      temporal = (layer.prefillAll (tokens.take (totalTokens (steps.take i) + o))).state.temporal

/-! ## One step -/

section step

variable {layer : GatedDeltaNet n F κ ν O} {state : LayerState n F κ ν} {ts : List (Projected n F κ ν)}

omit [Fintype κ] [Fintype ν] in
theorem windowOk_zeroState : layer.WindowOk layer.zeroState := List.length_replicate

/-- The prefill branch leaves the window of the decode branch when it fills it, or when there was
nothing in it. -/
theorem prefill_state_eq (h : layer.WindowOk state) (hts : ts ≠ [])
    (hfill : layer.stateLen ≤ ts.length ∨ state.conv = layer.zeroState.conv)
    (captureOffsets segmentOffsets : List ℕ) :
    (layer.prefill state ts captureOffsets segmentOffsets).state = (layer.decodeAll state ts).2 := by
  refine LayerState.ext ?_ (prefill_temporal h hts)
  rw [prefill_conv, decodeAll_conv h]
  rcases hfill with hle | hzero
  · have hw : state.conv.length = layer.stateLen := h
    have hnil : ∀ conv : List (Channel n κ ν → F), conv.length = layer.stateLen →
        (conv ++ ts.map Projected.mixedQkv).drop ts.length
          = (ts.map Projected.mixedQkv).drop (ts.length - layer.stateLen) := by
      intro conv hconv
      rw [List.drop_append, hconv, List.drop_eq_nil_of_le (hconv.trans_le hle), List.nil_append]
    rw [hnil _ List.length_replicate, hnil _ hw]
  · rw [hzero]
    rfl

/-- One prefill of a sequence is the decode branch on its tokens. -/
theorem prefillAll_eq (ts : List (Projected n F κ ν)) :
    (layer.prefillAll ts).outputs = (layer.decodeAll layer.zeroState ts).1 ∧
      (layer.prefillAll ts).state = (layer.decodeAll layer.zeroState ts).2 := by
  cases ts with
  | nil =>
    have hnil : layer.headTokens layer.zeroState [] = [] := List.zipWith_nil_right
    have hends : ∀ (ends : List ℕ) (start : ℕ) (S : Fin n.numV → HeadState F κ ν),
        (layer.segmentLoop [] [] start ends S).2.1 = S := by
      intro ends
      induction ends with
      | nil => exact fun _ _ => rfl
      | cons e ends ih =>
        intro start S
        rw [segmentLoop]
        simp only [List.take_nil, List.drop_nil, chunkHeads_eq, headsLoop, ih]
    refine ⟨List.zipWith_nil_right,
      LayerState.ext ((prefill_conv _ _).trans (List.append_nil _)) ?_⟩
    show (layer.segmentLoop (layer.headTokens layer.zeroState []) [] 0
      (gdnSegmentEnds 0 layer.dnnChunkSize ([] ++ [])) layer.zeroState.temporal).2.1
        = layer.zeroState.temporal
    rw [hnil, hends]
  | cons t ts =>
    have hne : t :: ts ≠ [] := List.cons_ne_nil t ts
    exact ⟨prefill_outputs windowOk_zeroState hne,
      prefill_state_eq windowOk_zeroState hne (.inr rfl) [] []⟩

/-- A step computes the outputs of the decode branch, and captures its states. -/
theorem forward_eq (step : ForwardStep) {ts : List (Projected n F κ ν)}
    (h : layer.WindowOk state) (hpos : 0 < step.numTokens) (hlen : ts.length = step.numTokens) :
    (layer.forward state step ts).outputs = (layer.decodeAll state ts).1 ∧
      (∀ o conv, (o, conv) ∈ (layer.forward state step ts).capturedConv →
        o ≤ ts.length ∧ conv = (layer.decodeAll state (ts.take o)).2.conv) ∧
      ∀ o temporal, (o, temporal) ∈ (layer.forward state step ts).capturedTemporal →
        o ≤ ts.length ∧ temporal = (layer.decodeAll state (ts.take o)).2.temporal := by
  have hne : ts ≠ [] := List.length_pos_iff.mp (hlen ▸ hpos)
  cases step with
  | prefill k captureOffsets segmentOffsets =>
    exact ⟨prefill_outputs h hne, fun o conv hmem => (prefill_capturedConv h hmem).imp_left le_of_lt,
      fun o temporal hmem => prefill_capturedTemporal h hne hmem⟩
  | decode =>
    obtain ⟨t, rfl⟩ := List.length_eq_one_iff.mp hlen
    refine ⟨?_, fun o conv hmem => absurd hmem List.not_mem_nil,
      fun o temporal hmem => absurd hmem List.not_mem_nil⟩
    show (layer.decode state t).outputs = (layer.decode state t).outputs ++ []
    rw [List.append_nil]

/-- A step leaves the state of the decode branch, unless it should have shifted the window. -/
theorem forward_state_eq (step : ForwardStep) {ts : List (Projected n F κ ν)}
    (h : layer.WindowOk state) (hpos : 0 < step.numTokens) (hlen : ts.length = step.numTokens)
    (hfill : step.FillsWindow layer.convKernelSize ∨ state.conv = layer.zeroState.conv) :
    (layer.forward state step ts).state = (layer.decodeAll state ts).2 := by
  cases step with
  | prefill k captureOffsets segmentOffsets =>
    have hne : ts ≠ [] := List.length_pos_iff.mp (hlen ▸ hpos)
    exact prefill_state_eq h hne (hfill.imp_left fun hle => hlen ▸ hle) _ _
  | decode =>
    obtain ⟨t, rfl⟩ := List.length_eq_one_iff.mp hlen
    rfl

end step

/-! ## Runs -/

section runs

variable {layer : GatedDeltaNet n F κ ν O} {state : LayerState n F κ ν}

/-- The run in steps is the decode branch on the tokens, from any state. -/
structure RunAgrees (layer : GatedDeltaNet n F κ ν O) (state : LayerState n F κ ν)
    (steps : List ForwardStep) (tokens : List (Projected n F κ ν)) : Prop where
  outputs : (layer.run state steps tokens).1.flatMap (·.outputs)
    = (layer.decodeAll state tokens).1
  finalState : (layer.run state steps tokens).2 = (layer.decodeAll state tokens).2
  capturedConv : ∀ i result, (layer.run state steps tokens).1[i]? = some result →
    ∀ o conv, (o, conv) ∈ result.capturedConv →
      conv = (layer.decodeAll state (tokens.take (totalTokens (steps.take i) + o))).2.conv
  capturedTemporal : ∀ i result, (layer.run state steps tokens).1[i]? = some result →
    ∀ o temporal, (o, temporal) ∈ result.capturedTemporal →
      temporal = (layer.decodeAll state (tokens.take (totalTokens (steps.take i) + o))).2.temporal

theorem RunAgrees.nil (state : LayerState n F κ ν) : RunAgrees layer state [] [] where
  outputs := rfl
  finalState := rfl
  capturedConv _ _ h := absurd h (by simp [run])
  capturedTemporal _ _ h := absurd h (by simp [run])

/-- The tokens of the first step, and those behind it. -/
theorem decodeAll_split (state : LayerState n F κ ν) (ts : List (Projected n F κ ν)) (k m : ℕ) :
    (layer.decodeAll state (ts.take (k + m))).2
      = (layer.decodeAll (layer.decodeAll state (ts.take k)).2 ((ts.drop k).take m)).2 := by
  have hsplit : ts.take (k + m) = ts.take k ++ (ts.drop k).take m := by
    rw [List.take_add]
  rw [hsplit, decodeAll_append]

/-- A step that leaves the right state, and a run from there. -/
theorem RunAgrees.cons {step : ForwardStep} {steps : List ForwardStep}
    {ts : List (Projected n F κ ν)} (h : layer.WindowOk state) (hpos : 0 < step.numTokens)
    (hlen : step.numTokens ≤ ts.length)
    (hstate : (layer.forward state step (ts.take step.numTokens)).state
      = (layer.decodeAll state (ts.take step.numTokens)).2)
    (hrest : RunAgrees layer (layer.decodeAll state (ts.take step.numTokens)).2 steps
      (ts.drop step.numTokens)) : RunAgrees layer state (step :: steps) ts := by
  have htaken : (ts.take step.numTokens).length = step.numTokens := by
    rw [List.length_take]
    omega
  obtain ⟨hout, hconv, htemp⟩ := forward_eq step h hpos htaken
  have hall := layer.decodeAll_append state (ts.take step.numTokens) (ts.drop step.numTokens)
  rw [List.take_append_drop] at hall
  have hrun : layer.run state (step :: steps) ts
      = (layer.forward state step (ts.take step.numTokens)
          :: (layer.run (layer.decodeAll state (ts.take step.numTokens)).2 steps
            (ts.drop step.numTokens)).1,
        (layer.run (layer.decodeAll state (ts.take step.numTokens)).2 steps
          (ts.drop step.numTokens)).2) := by
    rw [run, hstate]
  -- the offsets of the first step are among its own tokens
  have htake : ∀ o ≤ (ts.take step.numTokens).length,
      (ts.take step.numTokens).take o = ts.take (0 + o) := by
    intro o ho
    rw [List.length_take] at ho
    rw [List.take_take, Nat.min_eq_left (ho.trans (Nat.min_le_left _ _)), Nat.zero_add]
  refine ⟨?_, ?_, fun i result hi o conv hmem => ?_, fun i result hi o temporal hmem => ?_⟩
  · rw [hrun, List.flatMap_cons, hout, hrest.outputs, hall]
  · rw [hrun, hall]
    exact hrest.finalState
  · rw [hrun] at hi
    cases i with
    | zero =>
      obtain rfl := Option.some.inj hi
      obtain ⟨ho, rfl⟩ := hconv o conv hmem
      rw [htake o ho]
      rfl
    | succ i =>
      rw [hrest.capturedConv i result hi o conv hmem, List.take_succ_cons, totalTokens_cons,
        Nat.add_assoc, decodeAll_split state ts step.numTokens]
  · rw [hrun] at hi
    cases i with
    | zero =>
      obtain rfl := Option.some.inj hi
      obtain ⟨ho, rfl⟩ := htemp o temporal hmem
      rw [htake o ho]
      rfl
    | succ i =>
      rw [hrest.capturedTemporal i result hi o temporal hmem, List.take_succ_cons, totalTokens_cons,
        Nat.add_assoc, decodeAll_split state ts step.numTokens]

/-- If every prefill step fills the window, a run is the decode branch on its tokens. -/
theorem runAgrees_of_fills (steps : List ForwardStep) :
    ∀ (state : LayerState n F κ ν) (ts : List (Projected n F κ ν)), layer.WindowOk state →
      (∀ step ∈ steps, 0 < step.numTokens) → ts.length = totalTokens steps →
      (∀ step ∈ steps, step.FillsWindow layer.convKernelSize) → RunAgrees layer state steps ts := by
  induction steps with
  | nil =>
    intro state ts _ _ hlen _
    obtain rfl := List.length_eq_zero_iff.mp hlen
    exact .nil state
  | cons step steps ih =>
    intro state ts h hpos hlen hfill
    rw [totalTokens_cons] at hlen
    have hstep := hpos step List.mem_cons_self
    refine .cons h hstep (by omega) (forward_state_eq step h hstep (by rw [List.length_take]; omega)
      (.inl (hfill step List.mem_cons_self))) ?_
    exact ih _ _ (h.decodeAll _) (fun s hs => hpos s (List.mem_cons_of_mem step hs))
      (by rw [List.length_drop]; omega) fun s hs => hfill s (List.mem_cons_of_mem step hs)

/-- From zero states the first step may be shorter than the window. -/
theorem runAgrees_zeroState {steps : List ForwardStep} {ts : List (Projected n F κ ν)}
    (hpos : ∀ step ∈ steps, 0 < step.numTokens) (hlen : ts.length = totalTokens steps)
    (hfill : ∀ step ∈ steps.tail, step.FillsWindow layer.convKernelSize) :
    RunAgrees layer layer.zeroState steps ts := by
  cases steps with
  | nil =>
    obtain rfl := List.length_eq_zero_iff.mp hlen
    exact .nil _
  | cons step steps =>
    rw [totalTokens_cons] at hlen
    have hstep := hpos step List.mem_cons_self
    refine .cons windowOk_zeroState hstep (by omega) (forward_state_eq step windowOk_zeroState hstep
      (by rw [List.length_take]; omega) (.inr rfl)) ?_
    exact runAgrees_of_fills steps _ _ (windowOk_zeroState.decodeAll _)
      (fun s hs => hpos s (List.mem_cons_of_mem step hs)) (by rw [List.length_drop]; omega) hfill

/-- The decode branch stands for the prefill of the whole sequence. -/
theorem agrees_iff_runAgrees {steps : List ForwardStep} {ts : List (Projected n F κ ν)} :
    Agrees layer steps ts ↔ RunAgrees layer layer.zeroState steps ts := by
  have hall : ∀ ts : List (Projected n F κ ν),
      (layer.prefillAll ts).outputs = (layer.decodeAll layer.zeroState ts).1 ∧
        (layer.prefillAll ts).state = (layer.decodeAll layer.zeroState ts).2 := prefillAll_eq
  constructor
  · rintro ⟨hout, hstate, hconv, htemp⟩
    exact ⟨hout.trans (hall ts).1, hstate.trans (hall ts).2,
      fun i r hi o conv hmem => (hconv i r hi o conv hmem).trans (by rw [(hall _).2]),
      fun i r hi o temporal hmem => (htemp i r hi o temporal hmem).trans (by rw [(hall _).2])⟩
  · rintro ⟨hout, hstate, hconv, htemp⟩
    exact ⟨hout.trans (hall ts).1.symm, hstate.trans (hall ts).2.symm,
      fun i r hi o conv hmem => (hconv i r hi o conv hmem).trans (by rw [(hall _).2]),
      fun i r hi o temporal hmem => (htemp i r hi o temporal hmem).trans (by rw [(hall _).2])⟩

end runs

/-! ## A layer that sees every input of the window -/

section probe

variable {kernelSize : ℕ}

/-- One head with one component. The output of a token is the sum of its window: query, key and gate
are one for the tokens of `one`, and the state takes up the value as it is. -/
def probe (kernelSize : ℕ) (hk : 2 ≤ kernelSize) : GatedDeltaNet ⟨1, 1⟩ ℚ Unit Unit ℚ where
  ops := ⟨fun _ => 1, fun _ => 1, 0, 1, fun _ _ => (one_mul 1).symm, rfl⟩
  sigmoid _ := 1
  softplus _ := 0
  convKernelSize := kernelSize
  convWeight
    | .v _ _, _ => 1
    | _, j => if j = kernelSize - 1 then 1 else 0
  aLog _ := 0
  dtBias _ := 0
  normWeight _ := 1
  varianceEpsilon := 0
  outProj x := x ⟨0, Nat.one_pos⟩ ()
  dnnChunkSize := 64
  chunkSize := 64
  two_le_kernel := hk
  chunk_pos := by decide
  dnnChunk_pos := by decide

/-- A token whose projections are one. -/
def one : Projected ⟨1, 1⟩ ℚ Unit Unit := ⟨fun _ => 1, fun _ _ => 1, fun _ => 0, fun _ => 0⟩

/-- A window that has seen `b` tokens. -/
def onesWindow (kernelSize b : ℕ) : List (Channel ⟨1, 1⟩ Unit Unit → ℚ) :=
  List.replicate (kernelSize - 1 - b) 0 ++ List.replicate b 1

theorem sum_getD {C : Type} (c : C) (l : List (C → ℚ)) :
    ∑ j ∈ range l.length, l.getD j 0 c = (l.map (· c)).sum := by
  induction l with
  | nil => rfl
  | cons x l ih =>
    rw [List.length_cons, Finset.sum_range_succ', List.map_cons, List.sum_cons, ← ih, add_comm]
    rfl

/-- The state of the probe takes up the value, and its output reads it back. -/
theorem probe_project (hk : 2 ≤ kernelSize) {mixed : Channel ⟨1, 1⟩ Unit Unit → ℚ} {x : ℚ}
    (S : Fin (HeadCounts.numV ⟨1, 1⟩) → HeadState ℚ Unit Unit) (hquery : ∀ h d, mixed (.q h d) = 1)
    (hkey : ∀ h d, mixed (.k h d) = 1) (hvalue : ∀ h e, mixed (.v h e) = x) :
    (probe kernelSize hk).project
      (fun h => ((probe kernelSize hk).decodeHead (S h)
        ((probe kernelSize hk).headToken mixed one h)).1) one = x := by
  simp [project, norm, decodeHead, headToken, l2norm, probe, silu, one, hquery, hkey, hvalue]

/-- The output of the probe counts the tokens of its window. -/
theorem probe_decode (hk : 2 ≤ kernelSize) {state : LayerState ⟨1, 1⟩ ℚ Unit Unit} {b : ℕ}
    (hb : b ≤ kernelSize - 1) (hconv : state.conv = onesWindow kernelSize b) :
    ((probe kernelSize hk).decode state one).outputs = [(b : ℚ) + 1] := by
  have hlen : (onesWindow kernelSize b).length = kernelSize - 1 := by
    unfold onesWindow
    rw [List.length_append, List.length_replicate, List.length_replicate]
    omega
  have hcat : (onesWindow kernelSize b ++ [one.mixedQkv]).length = kernelSize := by
    rw [List.length_append, hlen, List.length_singleton]
    omega
  -- query and key see the current token, the value sees the window
  have hlast : ∀ c : Channel ⟨1, 1⟩ Unit Unit,
      ∑ j ∈ range kernelSize, (if j = kernelSize - 1 then (1 : ℚ) else 0)
        * (onesWindow kernelSize b ++ [one.mixedQkv]).getD (0 + j) 0 c = 1 := by
    intro c
    rw [Finset.sum_eq_single (kernelSize - 1) (fun j _ hj => by rw [if_neg hj, zero_mul])
      (fun hnot => absurd (Finset.mem_range.mpr (by omega)) hnot), if_pos rfl, one_mul, Nat.zero_add,
      List.getD_eq_getElem?_getD, List.getElem?_append_right hlen.le, hlen, Nat.sub_self]
    rfl
  have hvalue : ∀ c : Channel ⟨1, 1⟩ Unit Unit,
      ∑ j ∈ range kernelSize, (1 : ℚ)
        * (onesWindow kernelSize b ++ [one.mixedQkv]).getD (0 + j) 0 c = b + 1 := by
    intro c
    have hsum := sum_getD c (onesWindow kernelSize b ++ [one.mixedQkv])
    rw [hcat] at hsum
    simp only [one_mul, Nat.zero_add, hsum]
    simp [onesWindow, one]
  have hw : (probe kernelSize hk).WindowOk state := by
    show state.conv.length = kernelSize - 1
    rw [hconv, hlen]
  have hmixed : ((probe kernelSize hk).causalConv1dUpdate state.conv one.mixedQkv).1
      = (probe kernelSize hk).convAt (onesWindow kernelSize b ++ [one.mixedQkv]) 0 := by
    rw [causalConv1dUpdate_eq hw _ [], hconv]
    exact funext fun c => mul_one _
  show [(probe kernelSize hk).project (fun h => ((probe kernelSize hk).decodeHead (state.temporal h)
    ((probe kernelSize hk).headToken
      ((probe kernelSize hk).causalConv1dUpdate state.conv one.mixedQkv).1 one h)).1) one] = _
  rw [hmixed, probe_project hk _ (fun h d => hlast (.q h d)) (fun h d => hlast (.k h d))
    (fun h e => hvalue (.v h e))]

theorem length_onesWindow {b : ℕ} (hb : b ≤ kernelSize - 1) :
    (onesWindow kernelSize b).length = kernelSize - 1 := by
  unfold onesWindow
  rw [List.length_append, List.length_replicate, List.length_replicate, Nat.sub_add_cancel hb]

theorem onesWindow_inj {b b' : ℕ} (h : onesWindow kernelSize b = onesWindow kernelSize b') :
    b = b' := by
  have hsum : ∀ b, ((onesWindow kernelSize b).map (· (.q 0 ()))).sum = b := fun b => by
    simp [onesWindow]
  have heq := hsum b
  rw [h, hsum b'] at heq
  exact (Nat.cast_injective heq).symm

/-- The window after some more tokens. -/
theorem drop_onesWindow {b : ℕ} (hb : b ≤ kernelSize - 1) (k : ℕ) :
    (onesWindow kernelSize b ++ (List.replicate k one).map Projected.mixedQkv).drop k
      = onesWindow kernelSize (min (b + k) (kernelSize - 1)) := by
  have hone : (List.replicate k one).map Projected.mixedQkv = List.replicate k 1 :=
    List.map_replicate
  unfold onesWindow
  rw [hone, List.append_assoc, List.replicate_append_replicate, List.drop_append,
    List.drop_replicate, List.drop_replicate, List.length_replicate]
  congr 2 <;> omega

variable (hk : 2 ≤ kernelSize) {state : LayerState ⟨1, 1⟩ ℚ Unit Unit}

theorem probe_windowOk {b : ℕ} (hb : b ≤ kernelSize - 1)
    (hconv : state.conv = onesWindow kernelSize b) : (probe kernelSize hk).WindowOk state :=
  (congrArg List.length hconv).trans (length_onesWindow hb)

theorem probe_decodeAll_conv {b : ℕ} (hb : b ≤ kernelSize - 1)
    (hconv : state.conv = onesWindow kernelSize b) (k : ℕ) :
    ((probe kernelSize hk).decodeAll state (List.replicate k one)).2.conv
      = onesWindow kernelSize (min (b + k) (kernelSize - 1)) := by
  have hlen : (List.replicate k one).length = k := List.length_replicate
  have hdrop := decodeAll_conv (probe_windowOk hk hb hconv) (List.replicate k one)
  rw [hlen, hconv] at hdrop
  exact hdrop.trans (drop_onesWindow hb k)

/-- After a step that does not fill the window, the run differs: at the next token if there is one,
else in the window itself. -/
theorem probe_differs {step : ForwardStep} {steps : List ForwardStep} {b : ℕ} (hpos : 0 < b)
    (hb : b ≤ kernelSize - 1) (hconv : state.conv = onesWindow kernelSize b)
    (hsteps : ∀ s ∈ steps, 0 < s.numTokens) (hfill : ¬ step.FillsWindow kernelSize)
    (hout : ((probe kernelSize hk).run
        ((probe kernelSize hk).forward state step (List.replicate step.numTokens one)).state steps
        (List.replicate (totalTokens steps) one)).1.flatMap (·.outputs)
      = ((probe kernelSize hk).decodeAll
        ((probe kernelSize hk).decodeAll state (List.replicate step.numTokens one)).2
        (List.replicate (totalTokens steps) one)).1)
    (hfinal : ((probe kernelSize hk).run
        ((probe kernelSize hk).forward state step (List.replicate step.numTokens one)).state steps
        (List.replicate (totalTokens steps) one)).2
      = ((probe kernelSize hk).decodeAll
        ((probe kernelSize hk).decodeAll state (List.replicate step.numTokens one)).2
        (List.replicate (totalTokens steps) one)).2) : False := by
  cases step with
  | decode => exact hfill trivial
  | prefill k captureOffsets segmentOffsets =>
    have hlt : k < kernelSize - 1 := Nat.not_le.mp hfill
    dsimp only [ForwardStep.numTokens] at hout hfinal
    have hgood := probe_decodeAll_conv hk hb hconv k
    have hle : min (b + k) (kernelSize - 1) ≤ kernelSize - 1 := Nat.min_le_right _ _
    have hne : k ≠ min (b + k) (kernelSize - 1) := by omega
    have hbad : ((probe kernelSize hk).forward state (.prefill k captureOffsets segmentOffsets)
        (List.replicate k one)).state.conv = onesWindow kernelSize k := by
      have hdrop := drop_onesWindow (Nat.zero_le (kernelSize - 1)) k
      rw [Nat.zero_add, Nat.min_eq_left hlt.le] at hdrop
      rw [← hdrop]
      refine (prefill_conv _ _).trans ?_
      rw [List.length_replicate]
      show _ = (_ ++ [] ++ _ : List _).drop k
      rw [List.append_nil]
      rfl
    cases steps with
    | nil => exact hne (onesWindow_inj (hbad.symm.trans ((congrArg LayerState.conv hfinal).trans hgood)))
    | cons next steps =>
      obtain ⟨j, hj⟩ : ∃ j, next.numTokens = j + 1 :=
        ⟨next.numTokens - 1, by have := hsteps next List.mem_cons_self; omega⟩
      have hw := probe_windowOk hk hlt.le hbad
      have htokens : (List.replicate (totalTokens (next :: steps)) one).take next.numTokens
          = one :: List.replicate j one := by
        rw [List.take_replicate, totalTokens_cons, Nat.min_eq_left (Nat.le_add_right _ _), hj]
        rfl
      have hlen : (one :: List.replicate j one).length = next.numTokens := by
        rw [List.length_cons, List.length_replicate, hj]
      have hnext := (forward_eq next hw (hsteps next List.mem_cons_self) hlen).1
      have hfirst : ((probe kernelSize hk).decodeAll
          ((probe kernelSize hk).decodeAll state (List.replicate k one)).2
          (List.replicate (totalTokens (next :: steps)) one)).1
            = ((min (b + k) (kernelSize - 1) : ℕ) + 1 : ℚ) :: ((probe kernelSize hk).decodeAll
              ((probe kernelSize hk).decode ((probe kernelSize hk).decodeAll state
                (List.replicate k one)).2 one).state
              (List.replicate (j + totalTokens steps) one)).1 := by
        rw [totalTokens_cons, hj, Nat.add_right_comm, List.replicate_succ, decodeAll,
          probe_decode hk hle hgood]
        rfl
      rw [run, List.flatMap_cons, htokens] at hout
      rw [hnext, decodeAll, probe_decode hk hlt.le hbad] at hout
      have hhead := (List.cons.inj (hout.trans hfirst)).1
      exact hne (Nat.cast_injective (add_right_cancel hhead))

/-- The tokens behind the first step. -/
theorem probe_rest {step : ForwardStep} {steps : List ForwardStep}
    (hw : (probe kernelSize hk).WindowOk state) (hstep : 0 < step.numTokens)
    (hout : ((probe kernelSize hk).run state (step :: steps)
        (List.replicate (totalTokens (step :: steps)) one)).1.flatMap (·.outputs)
      = ((probe kernelSize hk).decodeAll state
        (List.replicate (totalTokens (step :: steps)) one)).1)
    (hfinal : ((probe kernelSize hk).run state (step :: steps)
        (List.replicate (totalTokens (step :: steps)) one)).2
      = ((probe kernelSize hk).decodeAll state
        (List.replicate (totalTokens (step :: steps)) one)).2) :
    ((probe kernelSize hk).run
        ((probe kernelSize hk).forward state step (List.replicate step.numTokens one)).state steps
        (List.replicate (totalTokens steps) one)).1.flatMap (·.outputs)
      = ((probe kernelSize hk).decodeAll
        ((probe kernelSize hk).decodeAll state (List.replicate step.numTokens one)).2
        (List.replicate (totalTokens steps) one)).1 ∧
    ((probe kernelSize hk).run
        ((probe kernelSize hk).forward state step (List.replicate step.numTokens one)).state steps
        (List.replicate (totalTokens steps) one)).2
      = ((probe kernelSize hk).decodeAll
        ((probe kernelSize hk).decodeAll state (List.replicate step.numTokens one)).2
        (List.replicate (totalTokens steps) one)).2 := by
  have hlen : (List.replicate step.numTokens one).length = step.numTokens := List.length_replicate
  have hsplit : List.replicate (totalTokens (step :: steps)) one
      = List.replicate step.numTokens one ++ List.replicate (totalTokens steps) one := by
    rw [totalTokens_cons, List.replicate_append_replicate]
  rw [hsplit, run, decodeAll_append, List.take_left' hlen, List.drop_left' hlen] at hout hfinal
  rw [List.flatMap_cons, (forward_eq step hw hstep hlen).1] at hout
  exact ⟨List.append_cancel_left hout, hfinal⟩

/-- A run of the probe on tokens of `one`, after at least one such token, shows a step that does not
fill the window. -/
theorem probe_fills (steps : List ForwardStep) :
    ∀ (state : LayerState ⟨1, 1⟩ ℚ Unit Unit) (b : ℕ), 0 < b → b ≤ kernelSize - 1 →
      state.conv = onesWindow kernelSize b → (∀ step ∈ steps, 0 < step.numTokens) →
      ((probe kernelSize hk).run state steps
          (List.replicate (totalTokens steps) one)).1.flatMap (·.outputs)
        = ((probe kernelSize hk).decodeAll state (List.replicate (totalTokens steps) one)).1 →
      ((probe kernelSize hk).run state steps (List.replicate (totalTokens steps) one)).2
        = ((probe kernelSize hk).decodeAll state (List.replicate (totalTokens steps) one)).2 →
      ∀ step ∈ steps, step.FillsWindow kernelSize := by
  induction steps with
  | nil => exact fun _ _ _ _ _ _ _ _ s hs => absurd hs List.not_mem_nil
  | cons step steps ih =>
    intro state b hpos hb hconv hsteps hout hfinal
    have hw := probe_windowOk hk hb hconv
    have hstep := hsteps step List.mem_cons_self
    have htail := fun s hs => hsteps s (List.mem_cons_of_mem step hs)
    have hlen : (List.replicate step.numTokens one).length = step.numTokens :=
      List.length_replicate
    obtain ⟨hout', hfinal'⟩ := probe_rest hk hw hstep hout hfinal
    have hfill : step.FillsWindow kernelSize := by
      by_contra hnot
      exact probe_differs hk hpos hb hconv htail hnot hout' hfinal'
    have hgood := forward_state_eq step hw hstep hlen (.inl hfill)
    rw [hgood] at hout' hfinal'
    refine List.forall_mem_cons.mpr ⟨hfill, ih _ _ ?_ (Nat.min_le_right _ _)
      (probe_decodeAll_conv hk hb hconv _) htail hout' hfinal'⟩
    omega

/-- From zero states the first step may leave zeros. -/
theorem probe_fills_tail {steps : List ForwardStep} (hsteps : ∀ step ∈ steps, 0 < step.numTokens)
    (h : RunAgrees (probe kernelSize hk) (probe kernelSize hk).zeroState steps
      (List.replicate (totalTokens steps) one)) :
    ∀ step ∈ steps.tail, step.FillsWindow kernelSize := by
  cases steps with
  | nil => exact fun s hs => absurd hs List.not_mem_nil
  | cons step steps =>
    have hstep := hsteps step List.mem_cons_self
    have hw : (probe kernelSize hk).WindowOk (probe kernelSize hk).zeroState := windowOk_zeroState
    have hlen : (List.replicate step.numTokens one).length = step.numTokens := List.length_replicate
    have hzero : (probe kernelSize hk).zeroState.conv = onesWindow kernelSize 0 :=
      (List.append_nil _).symm
    have hgood := forward_state_eq step hw hstep hlen (.inr rfl)
    obtain ⟨hout, hfinal⟩ := probe_rest hk hw hstep h.outputs h.finalState
    rw [hgood] at hout hfinal
    refine probe_fills hk steps _ (min (0 + step.numTokens) (kernelSize - 1)) ?_
      (Nat.min_le_right _ _) (probe_decodeAll_conv hk (Nat.zero_le _) hzero _)
      (fun s hs => hsteps s (List.mem_cons_of_mem step hs)) hout hfinal
    omega

end probe

/-! ## Runs and cuts -/

/-- Outputs, final states and captured states do not depend on the cuts, for every layer with this
kernel and every sequence, if and only if each prefill step after the first step has at least as many
tokens as the convolution remembers. -/
theorem agrees_iff {kernelSize : ℕ} (hk : 2 ≤ kernelSize) {steps : List ForwardStep}
    (hpos : ∀ step ∈ steps, 0 < step.numTokens) :
    (∀ (n : HeadCounts) (F κ ν O : Type) [Field F] [Fintype κ] [Fintype ν]
      (layer : GatedDeltaNet n F κ ν O), layer.convKernelSize = kernelSize →
        ∀ tokens : List (Projected n F κ ν), tokens.length = totalTokens steps →
          Agrees layer steps tokens) ↔
      ∀ step ∈ steps.tail, step.FillsWindow kernelSize := by
  constructor
  · intro h
    have hprobe := agrees_iff_runAgrees.mp (h ⟨1, 1⟩ ℚ Unit Unit ℚ (probe kernelSize hk) rfl
      (List.replicate (totalTokens steps) one) List.length_replicate)
    exact probe_fills_tail hk hpos hprobe
  · rintro hfill n F κ ν O _ _ _ layer rfl tokens hlen
    exact agrees_iff_runAgrees.mpr (runAgrees_zeroState hpos hlen hfill)

/-- A first step of one token, a step that fills the window, and a decode. -/
theorem agrees_longSteps :
    Agrees (probe 4 (by decide)) [.prefill 1 [] [], .prefill 3 [1] [2], .decode]
      (List.replicate 5 one) :=
  (agrees_iff (by decide) (by decide)).mpr (by decide) _ _ _ _ _ _ rfl _ rfl

/-- The last chunk of a prompt has two tokens, and the window three inputs. -/
theorem shortStep_loses_window :
    ¬ Agrees (probe 4 (by decide)) [.prefill 3 [] [], .prefill 2 [] []] (List.replicate 5 one) := by
  intro h
  have hfill := probe_fills_tail (by decide) (by decide) (agrees_iff_runAgrees.mp h)
  exact absurd (hfill (.prefill 2 [] []) (by decide)) (by decide)

end GatedDeltaNet

end Ikun.Gdn
