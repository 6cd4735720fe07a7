import Mathlib.Analysis.SpecialFunctions.Exp
import Mathlib.Data.List.GetD
import Ikun.Gdn.Prefill

/-!
# The gated delta rules on a batch

The tensors have a batch and a head dimension, and the rules treat every entry of it alone; `ι` indexes
the entries of the batch together with their heads. All entries have the same number of tokens.

`torchChunkGatedDeltaRule_eq_recurrent` says that the chunked rule returns what the recurrent one
returns, for every chunk size, and that a sequence that is cut at `_gdn_segment_ends`, with the state
handed from segment to segment, gives what one call gives.
-/

namespace Ikun.Gdn.Batch

variable {ι F κ ν : Type} [CommRing F] [Fintype κ]

/-- The states of a batch. -/
abbrev State (ι F κ ν : Type) := ι → HeadState F κ ν

/-- `initial_state`, or zeros. -/
def stateOrZeros (initialState : Option (State ι F κ ν)) : State ι F κ ν :=
  initialState.getD fun _ _ _ => 0

/-- The outputs of all entries by position, and the states if they are asked for. -/
def collect (seqLen : ℕ) (result : ι → List (ν → F) × HeadState F κ ν) (outputFinalState : Bool) :
    List (ι → ν → F) × Option (State ι F κ ν) :=
  ((List.range seqLen).map fun t i => (result i).1.getD t 0,
    if outputFinalState then some fun i => (result i).2 else none)

variable (ops : DeltaOps F) (tokens : List (ι → DeltaToken F κ ν))

/-- `_torch_recurrent_gated_delta_rule`. -/
def torchRecurrentGatedDeltaRule (initialState : Option (State ι F κ ν))
    (outputFinalState useQkL2norm : Bool) : List (ι → ν → F) × Option (State ι F κ ν) :=
  collect tokens.length (fun i => Gdn.torchRecurrentGatedDeltaRule ops (tokens.map (· i))
    (stateOrZeros initialState i) useQkL2norm) outputFinalState

/-- `_torch_chunk_gated_delta_rule`. -/
def torchChunkGatedDeltaRule (chunkSize : ℕ) (initialState : Option (State ι F κ ν))
    (outputFinalState useQkL2norm : Bool) : List (ι → ν → F) × Option (State ι F κ ν) :=
  collect tokens.length (fun i => Gdn.torchChunkGatedDeltaRule ops (tokens.map (· i)) chunkSize
    (stateOrZeros initialState i) useQkL2norm) outputFinalState

/-- The chunked rule on the segments of a sequence, each from the state that the one before left. -/
def segmentLoop (chunkSize : ℕ) (useQkL2norm : Bool) :
    ℕ → List ℕ → Option (State ι F κ ν) → List (ι → ν → F) × Option (State ι F κ ν)
  | _, [], curState => ([], curState)
  | scStart, scEnd :: ends, curState =>
    let segment := torchChunkGatedDeltaRule ops ((tokens.take scEnd).drop scStart) chunkSize curState
      true useQkL2norm
    let rest := segmentLoop chunkSize useQkL2norm scEnd ends segment.2
    (segment.1 ++ rest.1, rest.2)

/-! ## The recurrence on consecutive tokens -/

variable {ops tokens} {chunkSize : ℕ} {useQkL2norm : Bool}

/-- The chunked rule is the recurrent one. -/
theorem chunk_eq_recurrent (hchunk : 1 ≤ chunkSize) (initialState : Option (State ι F κ ν))
    (outputFinalState : Bool) :
    torchChunkGatedDeltaRule ops tokens chunkSize initialState outputFinalState useQkL2norm
      = torchRecurrentGatedDeltaRule ops tokens initialState outputFinalState useQkL2norm := by
  unfold torchChunkGatedDeltaRule torchRecurrentGatedDeltaRule
  simp only [torchChunkGatedDeltaRule_eq hchunk]

/-- The recurrence hands its state on. -/
theorem head_append (ops : DeltaOps F) (useQkL2norm : Bool) (S : HeadState F κ ν) (xs ys : List (DeltaToken F κ ν)) :
    Gdn.torchRecurrentGatedDeltaRule ops (xs ++ ys) S useQkL2norm
      = ((Gdn.torchRecurrentGatedDeltaRule ops xs S useQkL2norm).1
            ++ (Gdn.torchRecurrentGatedDeltaRule ops ys
              (Gdn.torchRecurrentGatedDeltaRule ops xs S useQkL2norm).2 useQkL2norm).1,
          (Gdn.torchRecurrentGatedDeltaRule ops ys
            (Gdn.torchRecurrentGatedDeltaRule ops xs S useQkL2norm).2 useQkL2norm).2) := by
  unfold Gdn.torchRecurrentGatedDeltaRule
  rw [List.map_append, recurrentLoop_append]

theorem length_head (S : HeadState F κ ν) (xs : List (DeltaToken F κ ν)) :
    (Gdn.torchRecurrentGatedDeltaRule ops xs S useQkL2norm).1.length = xs.length := by
  unfold Gdn.torchRecurrentGatedDeltaRule
  rw [length_recurrentLoop, List.length_map]

/-- The states after some tokens. -/
theorem recurrent_snd (initialState : Option (State ι F κ ν)) :
    (torchRecurrentGatedDeltaRule ops tokens initialState true useQkL2norm).2
      = some fun i => (Gdn.torchRecurrentGatedDeltaRule ops (tokens.map (· i))
          (stateOrZeros initialState i) useQkL2norm).2 := rfl

/-- A batch of consecutive tokens. -/
theorem recurrent_append (ops : DeltaOps F) (useQkL2norm : Bool) (xs ys : List (ι → DeltaToken F κ ν))
    (initialState : Option (State ι F κ ν)) :
    torchRecurrentGatedDeltaRule ops (xs ++ ys) initialState true useQkL2norm
      = ((torchRecurrentGatedDeltaRule ops xs initialState true useQkL2norm).1
            ++ (torchRecurrentGatedDeltaRule ops ys
              (torchRecurrentGatedDeltaRule ops xs initialState true useQkL2norm).2 true
              useQkL2norm).1,
          (torchRecurrentGatedDeltaRule ops ys
            (torchRecurrentGatedDeltaRule ops xs initialState true useQkL2norm).2 true
            useQkL2norm).2) := by
  have hhead := fun i => head_append ops useQkL2norm (stateOrZeros initialState i) (xs.map (· i))
    (ys.map (· i))
  have hlen : ∀ i, (Gdn.torchRecurrentGatedDeltaRule ops (xs.map (· i)) (stateOrZeros initialState i)
      useQkL2norm).1.length = xs.length := fun i => by
    rw [length_head, List.length_map]
  refine Prod.ext ?_ ?_
  · unfold torchRecurrentGatedDeltaRule collect
    dsimp only
    rw [List.length_append, List.range_add, List.map_append, List.map_map]
    refine congrArg₂ _ (List.map_congr_left fun t ht => funext fun i => ?_)
      (List.map_congr_left fun t _ => funext fun i => ?_)
    · rw [List.map_append, hhead]
      dsimp only
      rw [List.getD_append _ _ _ _ (hlen i ▸ List.mem_range.mp ht)]
    · rw [Function.comp_apply, List.map_append, hhead]
      dsimp only
      rw [List.getD_append_right _ _ _ _ (hlen i ▸ Nat.le_add_right _ _), hlen,
        Nat.add_sub_cancel_left]
      rfl
  · rw [recurrent_snd]
    simp only [List.map_append, hhead]
    rfl

/-! ## Segments -/

/-- The segments from `start` on give what one call gives behind `start`. -/
theorem segmentLoop_eq (ops : DeltaOps F) (tokens : List (ι → DeltaToken F κ ν))
    (useQkL2norm : Bool) (hchunk : 1 ≤ chunkSize) (initialState : Option (State ι F κ ν)) :
    ∀ (ends : List ℕ) (start : ℕ), (start :: ends).Pairwise (· < ·) →
      let front := torchRecurrentGatedDeltaRule ops (tokens.take start) initialState true useQkL2norm
      let rest := segmentLoop ops tokens chunkSize useQkL2norm start ends front.2
      (front.1 ++ rest.1, rest.2) = torchRecurrentGatedDeltaRule ops
        (tokens.take (ends.getLastD start)) initialState true useQkL2norm
  | [], start, _ => Prod.ext (List.append_nil _) rfl
  | scEnd :: ends, start, hsorted => by
    obtain ⟨hhead, hrest⟩ := List.pairwise_cons.mp hsorted
    have hlt : start < scEnd := hhead scEnd List.mem_cons_self
    have hsplit : tokens.take scEnd = tokens.take start ++ (tokens.take scEnd).drop start := by
      have htake : (tokens.take scEnd).take start = tokens.take start := by
        rw [List.take_take, Nat.min_eq_left hlt.le]
      rw [← htake, List.take_append_drop]
    have happend := recurrent_append ops useQkL2norm (tokens.take start)
      ((tokens.take scEnd).drop start) initialState
    rw [← hsplit] at happend
    have hbehind := segmentLoop_eq ops tokens useQkL2norm hchunk initialState ends scEnd hrest
    have hlast : (scEnd :: ends).getLastD start = ends.getLastD scEnd := List.getLastD_cons
    dsimp only at hbehind ⊢
    rw [hlast, ← hbehind, segmentLoop, chunk_eq_recurrent hchunk]
    dsimp only
    rw [happend, List.append_assoc]

/-- A call from zeros is a call without a state. -/
theorem segmentLoop_start (hchunk : 1 ≤ chunkSize) (initialState : Option (State ι F κ ν))
    (ends : List ℕ) (hsorted : (0 :: ends).Pairwise (· < ·)) (hne : ends ≠ []) :
    segmentLoop ops tokens chunkSize useQkL2norm 0 ends initialState
      = torchRecurrentGatedDeltaRule ops (tokens.take (ends.getLastD 0)) initialState true
          useQkL2norm := by
  have hall := segmentLoop_eq ops tokens useQkL2norm hchunk initialState ends 0 hsorted
  dsimp only at hall
  rw [← hall]
  cases ends with
  | nil => exact absurd rfl hne
  | cons scEnd ends => rfl

/-- The chunked rule returns the outputs and the states of the recurrent one, for every batch, every
initial state and every chunk size; and on the consecutive segments of a sequence, whatever their
size and the offsets, with the state handed on, it returns what one call returns. -/
theorem torchChunkGatedDeltaRule_eq_recurrent (ops : DeltaOps F)
    (tokens : List (ι → DeltaToken F κ ν)) (chunkSize : ℕ) (hchunk : 1 ≤ chunkSize)
    (initialState : Option (State ι F κ ν)) (useQkL2norm : Bool) :
    (∀ outputFinalState,
      torchChunkGatedDeltaRule ops tokens chunkSize initialState outputFinalState useQkL2norm
        = torchRecurrentGatedDeltaRule ops tokens initialState outputFinalState useQkL2norm) ∧
      ∀ segmentSize offsets, 1 ≤ segmentSize → 1 ≤ tokens.length →
        segmentLoop ops tokens chunkSize useQkL2norm 0
            (GatedDeltaNet.gdnSegmentEnds tokens.length segmentSize offsets) initialState
          = torchChunkGatedDeltaRule ops tokens chunkSize initialState true useQkL2norm := by
  refine ⟨fun _ => chunk_eq_recurrent hchunk _ _, fun segmentSize offsets hsegment hlen => ?_⟩
  have hmem : tokens.length ∈ GatedDeltaNet.gdnSegmentEnds tokens.length segmentSize offsets :=
    GatedDeltaNet.mem_gdnSegmentEnds.mpr (.inr (.inl rfl))
  rw [segmentLoop_start hchunk initialState _
      (GatedDeltaNet.gdnSegmentEnds_sorted hlen hsegment offsets) (List.ne_nil_of_mem hmem),
    GatedDeltaNet.getLastD_gdnSegmentEnds hlen hsegment, List.take_length,
    chunk_eq_recurrent hchunk]

/-- The functions of the tensor library on real numbers. -/
noncomputable def realOps (scale : ℝ) : DeltaOps ℝ where
  exp := Real.exp
  rsqrt x := 1 / √x
  eps := 1 / 1000000
  scale := scale
  exp_add := Real.exp_add
  exp_zero := Real.exp_zero

/-- Two heads with keys and values of one component, two tokens in chunks of 64. -/
theorem torchChunkGatedDeltaRule_eq_recurrent_two :
    torchChunkGatedDeltaRule (realOps 1)
        [fun _ : Fin 2 => (⟨fun _ => 1, fun _ => 2, fun _ => 3, -1, 1 / 2⟩ : DeltaToken ℝ Unit Unit),
          fun h => ⟨fun _ => 2, fun _ => 1, fun _ => h, -2, 1 / 3⟩] 64 none true true
      = torchRecurrentGatedDeltaRule (realOps 1)
        [fun _ : Fin 2 => (⟨fun _ => 1, fun _ => 2, fun _ => 3, -1, 1 / 2⟩ : DeltaToken ℝ Unit Unit),
          fun h => ⟨fun _ => 2, fun _ => 1, fun _ => h, -2, 1 / 3⟩] none true true :=
  (torchChunkGatedDeltaRule_eq_recurrent (realOps 1) _ 64 (by decide) none true).1 true

end Ikun.Gdn.Batch
