import Mathlib.Algebra.Field.Defs
import Mathlib.Data.Fin.Tuple.Basic
import Mathlib.Data.List.Induction
import Ikun.Basic

/-!
# Expert parallelism

`ep_fused_moe_patch.py`. Each of `ep_size` ranks holds the same number of experts. The weight loader of
a rank skips the experts of the others and stores its own at their local ids; so every expert is held by
exactly one rank (`loadExperts_epState`). The router gives global ids on all ranks: `ep_mask_and_remap`
turns them into local ids and takes the weight from the pairs of other ranks.
-/

namespace Ikun.Moe

/-- The weights of one expert: `w13` has the rows of the gate and then those of the up projection. -/
@[ext]
structure ExpertWeights (K : Type) (H I : ℕ) where
  w13 : Fin (I + I) → Fin H → K
  w2 : Fin H → Fin I → K

/-- `_num_experts_per_rank` and `_start_expert_id` of a rank. -/
structure EpState where
  numExpertsPerRank : ℕ
  startExpertId : ℕ

/-- `_ep_init`. -/
def epState (numExperts epSize epRank : ℕ) : EpState where
  numExpertsPerRank := numExperts / epSize
  startExpertId := epRank * (numExperts / epSize)

/-! ## The weight loader -/

section loader

variable {K : Type} {H I : ℕ}

/-- `_load_w13` for `w1`, on the only rank of its tensor parallel group: the first half of the rows. -/
def ExpertWeights.loadW1 (loadedWeight : Fin I → Fin H → K) (expert : ExpertWeights K H I) :
    ExpertWeights K H I :=
  { expert with w13 := Fin.append loadedWeight fun row => expert.w13 (Fin.natAdd I row) }

/-- `_load_w13` for `w3`: the second half. -/
def ExpertWeights.loadW3 (loadedWeight : Fin I → Fin H → K) (expert : ExpertWeights K H I) :
    ExpertWeights K H I :=
  { expert with w13 := Fin.append (fun row => expert.w13 (Fin.castAdd I row)) loadedWeight }

/-- `_load_w2`. -/
def ExpertWeights.loadW2 (loadedWeight : Fin H → Fin I → K) (expert : ExpertWeights K H I) :
    ExpertWeights K H I :=
  { expert with w2 := loadedWeight }

/-- `_ep_weight_loader`; without expert parallelism the loader that it replaces. -/
def weightLoader (ep : Option EpState) (load : ExpertWeights K H I → ExpertWeights K H I)
    (param : List (ExpertWeights K H I)) (expertId : ℕ) : List (ExpertWeights K H I) :=
  match ep with
  | none => param.modify expertId load
  | some ep =>
    let start := ep.startExpertId
    let stop := start + ep.numExpertsPerRank
    if expertId < start ∨ stop ≤ expertId then param
    else param.modify (expertId - start) load

/-- The part of `load_weights` for `gate_up_proj` and `down_proj`, from allocated parameters. -/
def loadExperts (ep : Option EpState) (checkpoint param : List (ExpertWeights K H I)) :
    List (ExpertWeights K H I) :=
  let param := checkpoint.zipIdx.foldl (fun param (expert, eid) =>
    let gateW := fun row => expert.w13 (Fin.castAdd I row)
    let upW := fun row => expert.w13 (Fin.natAdd I row)
    weightLoader ep (.loadW3 upW) (weightLoader ep (.loadW1 gateW) param eid) eid) param
  checkpoint.zipIdx.foldl (fun param (expert, eid) =>
    weightLoader ep (.loadW2 expert.w2) param eid) param

/-- The position of an expert in the parameters of a rank. -/
def localId (ep : Option EpState) (expertId : ℕ) : Option ℕ :=
  match ep with
  | none => some expertId
  | some ep =>
    if expertId < ep.startExpertId ∨ ep.startExpertId + ep.numExpertsPerRank ≤ expertId then none
    else some (expertId - ep.startExpertId)

theorem weightLoader_eq (ep : Option EpState) (load : ExpertWeights K H I → ExpertWeights K H I)
    (param : List (ExpertWeights K H I)) (expertId : ℕ) :
    weightLoader ep load param expertId =
      (localId ep expertId).elim param fun j => param.modify j load := by
  cases ep with
  | none => rfl
  | some ep =>
    unfold weightLoader localId
    dsimp only
    split <;> rfl

/-- No two experts are at one position. -/
theorem localId_inj {ep : Option EpState} {e e' j : ℕ} (h : localId ep e = some j)
    (h' : localId ep e' = some j) : e = e' := by
  cases ep with
  | none => exact (Option.some.inj h).trans (Option.some.inj h').symm
  | some ep =>
    unfold localId at h h'
    dsimp only at h h'
    split at h
    · exact absurd h (by simp)
    · split at h'
      · exact absurd h' (by simp)
      · have h := Option.some.inj h
        have h' := Option.some.inj h'
        omega

/-- A load changes the position of its expert. -/
theorem weightLoader_getElem? {ep : Option EpState} {e j : ℕ} (hj : localId ep e = some j)
    (load : ExpertWeights K H I → ExpertWeights K H I) (param : List (ExpertWeights K H I))
    (expertId : ℕ) :
    (weightLoader ep load param expertId)[j]? =
      if expertId = e then param[j]?.map load else param[j]? := by
  rw [weightLoader_eq]
  by_cases he : expertId = e
  · subst he
    rw [hj, if_pos rfl, Option.elim_some, List.getElem?_modify_eq]
    rfl
  · rw [if_neg he]
    cases hid : localId ep expertId with
    | none => rfl
    | some j' =>
      have hne : j' ≠ j := fun heq => he (localId_inj (heq ▸ hid) hj)
      rw [Option.elim_some]
      exact List.getElem?_modify_ne _ _ hne

/-- A loop of loads changes a position once, when its expert comes. -/
theorem foldl_weightLoader {e j : ℕ}
    {load : ExpertWeights K H I → ExpertWeights K H I → ExpertWeights K H I}
    (f : List (ExpertWeights K H I) → ExpertWeights K H I × ℕ → List (ExpertWeights K H I))
    (hf : ∀ param expert eid, (f param (expert, eid))[j]? =
      if eid = e then param[j]?.map (load expert) else param[j]?)
    (checkpoint param : List (ExpertWeights K H I)) :
    (checkpoint.zipIdx.foldl f param)[j]? =
      match checkpoint[e]? with
      | some expert => param[j]?.map (load expert)
      | none => param[j]? := by
  induction checkpoint using List.reverseRecOn with
  | nil => rfl
  | append_singleton checkpoint expert ih =>
    rw [List.zipIdx_append, List.foldl_append]
    show (f _ (expert, 0 + checkpoint.length))[j]? = _
    rw [hf, ih, Nat.zero_add]
    cases Nat.lt_trichotomy e checkpoint.length with
    | inl hlt => rw [if_neg hlt.ne', List.getElem?_append_left hlt]
    | inr hge =>
      cases hge with
      | inl heq =>
        subst heq
        rw [if_pos rfl, List.getElem?_concat_length, List.getElem?_eq_none (Nat.le_refl _)]
      | inr hlt =>
        have hout : (checkpoint ++ [expert]).length ≤ e := by
          rw [List.length_append]
          exact hlt
        rw [if_neg hlt.ne, List.getElem?_eq_none hlt.le, List.getElem?_eq_none hout]

/-- Both halves of `w13` and `w2` are those of the expert. -/
theorem ExpertWeights.loaded (expert w : ExpertWeights K H I) :
    ((w.loadW1 fun row => expert.w13 (Fin.castAdd I row)).loadW3
      fun row => expert.w13 (Fin.natAdd I row)).loadW2 expert.w2 = expert := by
  refine ExpertWeights.ext (funext fun row => ?_) rfl
  refine Fin.addCases (fun i => ?_) (fun i => ?_) row
  · simp only [loadW2, loadW3, loadW1, Fin.append_left]
  · simp only [loadW2, loadW3, loadW1, Fin.append_right]

/-- After the loads, a position holds its expert. -/
theorem loadExperts_getElem? {ep : Option EpState} {e j : ℕ} (hj : localId ep e = some j)
    {checkpoint param : List (ExpertWeights K H I)} {expert : ExpertWeights K H I}
    (he : checkpoint[e]? = some expert) (hparam : j < param.length) :
    (loadExperts ep checkpoint param)[j]? = some expert := by
  have hgateUp : ∀ (param : List (ExpertWeights K H I)) (expert : ExpertWeights K H I) (eid : ℕ),
      (weightLoader ep (.loadW3 fun row => expert.w13 (Fin.natAdd I row))
        (weightLoader ep (.loadW1 fun row => expert.w13 (Fin.castAdd I row)) param eid) eid)[j]? =
      if eid = e then param[j]?.map (fun w =>
        (w.loadW1 fun row => expert.w13 (Fin.castAdd I row)).loadW3
          fun row => expert.w13 (Fin.natAdd I row)) else param[j]? := by
    intro param expert eid
    rw [weightLoader_getElem? hj, weightLoader_getElem? hj]
    split
    · rw [Option.map_map]
      rfl
    · rfl
  unfold loadExperts
  dsimp only
  rw [foldl_weightLoader _ fun param expert eid => weightLoader_getElem? hj (.loadW2 expert.w2) param eid,
    foldl_weightLoader _ hgateUp, he, List.getElem?_eq_getElem hparam]
  exact congrArg some (ExpertWeights.loaded expert _)

/-- `ep_size` ranks, each with the same number of experts. -/
structure EpGroup where
  epSize : ℕ
  perRank : ℕ
  epSize_pos : 0 < epSize
  perRank_pos : 0 < perRank

namespace EpGroup

variable (group : EpGroup)

/-- The number of experts of the layer. -/
def numExperts : ℕ := group.epSize * group.perRank

def state (rank : ℕ) : EpState := epState group.numExperts group.epSize rank

theorem state_eq (rank : ℕ) : group.state rank = ⟨group.perRank, rank * group.perRank⟩ := by
  have hdiv : group.epSize * group.perRank / group.epSize = group.perRank :=
    Nat.mul_div_cancel_left _ group.epSize_pos
  unfold state epState numExperts
  rw [hdiv]

theorem localId_eq {rank e : ℕ} :
    localId (some (group.state rank)) e =
      if e / group.perRank = rank then some (e % group.perRank) else none := by
  have hpos := group.perRank_pos
  have hmod := Nat.div_add_mod' e group.perRank
  have hlt := Nat.mod_lt e hpos
  unfold localId
  rw [state_eq]
  dsimp only
  by_cases he : e / group.perRank = rank
  · subst he
    rw [if_pos rfl, if_neg (by omega)]
    congr 1
    omega
  · rw [if_neg he, if_pos]
    by_contra hrange
    refine he (Nat.div_eq_of_lt_le ?_ ?_)
    · omega
    · rw [Nat.succ_mul]
      omega

/-- The weights that a rank has after loading: those of its experts, in order. -/
theorem loadExperts_state {checkpoint param : List (ExpertWeights K H I)}
    (hparam : param.length = group.perRank) {rank e : ℕ} (hrank : e / group.perRank = rank) {expert : ExpertWeights K H I}
    (he : checkpoint[e]? = some expert) :
    (loadExperts (some (group.state rank)) checkpoint param)[e % group.perRank]? = some expert := by
  have hlt : e % group.perRank < param.length := by
    rw [hparam]
    exact Nat.mod_lt _ group.perRank_pos
  refine loadExperts_getElem? ?_ he hlt
  rw [localId_eq, if_pos hrank]

end EpGroup

end loader

/-! ## The ids of a rank -/

section remap

variable {K : Type} [Field K]

/-- `ep_mask_and_remap`, on tensors of (expert id, weight). An id of another rank becomes some local id,
without a weight. -/
def epMaskAndRemap (topk : List (List (ℤ × K))) (startExpertId numExpertsPerRank : ℕ) :
    List (List (ℤ × K)) :=
  topk.map fun row => row.map fun (id, weight) =>
    if (startExpertId : ℤ) ≤ id ∧ id < startExpertId + numExpertsPerRank then
      (id - startExpertId, weight * 1)
    else (id % numExpertsPerRank, weight * 0)

/-- Local ids are ids of experts that the rank holds. -/
theorem epMaskAndRemap_range {topk : List (List (ℤ × K))} {start perRank : ℕ} (hpos : 0 < perRank) :
    ∀ row ∈ epMaskAndRemap topk start perRank, ∀ p ∈ row, 0 ≤ p.1 ∧ p.1 < perRank := by
  intro row hrow p hp
  obtain ⟨row', -, rfl⟩ := List.mem_map.mp hrow
  obtain ⟨q, -, rfl⟩ := List.mem_map.mp hp
  have hpos : (0 : ℤ) < perRank := Int.ofNat_lt.mpr hpos
  dsimp only
  split
  · omega
  · exact ⟨Int.emod_nonneg _ hpos.ne', Int.emod_lt_of_pos _ hpos⟩

end remap

end Ikun.Moe
