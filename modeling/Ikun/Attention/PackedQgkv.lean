import Mathlib.Data.Matrix.Mul
import Ikun.Basic
import Ikun.Lib.Blocks
import Ikun.Lib.Dict
import Ikun.Lib.Except
import Ikun.Lib.PyStr

/-!
# Rank-local QGKV projections

With more ranks than KV heads `Qwen3_5FullAttention` keeps one weight for its query, gate, key and value
projections: the rows of the rank's query heads and the rows of all KV heads. The loader puts the three
checkpoint weights at their offsets, and `forward` takes from the projected keys and values the one KV
head that serves the first query head of the rank.

`packed_iff` says when that is the head of grouped-query attention for all query heads of all ranks:
when the number of ranks is a multiple of the number of KV heads. Otherwise some rank has query heads of
two groups.
-/

namespace Ikun.Attention.PackedQgkv

open Except

variable {R : Type}

/-! ## The layer -/

/-- The sizes in the text configuration. -/
structure TextCfg where
  hiddenSize : ℕ
  numAttentionHeads : ℕ
  numKeyValueHeads : ℕ
  headDim : ℕ
  hiddenSize_pos : 0 < hiddenSize
  numAttentionHeads_pos : 0 < numAttentionHeads
  numKeyValueHeads_pos : 0 < numKeyValueHeads
  headDim_pos : 0 < headDim

/-- The rows of a weight. -/
abbrev Weight (R : Type) (cfg : TextCfg) := List (Fin cfg.hiddenSize → R)

/-- The sizes of a `Qwen3_5FullAttention`. -/
structure Qwen3_5FullAttention where
  numKvHeads : ℕ
  headDim : ℕ
  localNumHeads : ℕ
  /-- The KV heads that the projection gives. -/
  projKvHeads : ℕ
  /-- The query heads of a KV head, when the layer has the packed weight. -/
  qPerKvGlobal : Option ℕ

/-- `Qwen3_5FullAttention.__init__`. -/
def Qwen3_5FullAttention.init (cfg : TextCfg) (tpSize : ℕ) : Qwen3_5FullAttention :=
  if cfg.numKeyValueHeads < tpSize then
    { numKvHeads := cfg.numKeyValueHeads
      headDim := cfg.headDim
      localNumHeads := cfg.numAttentionHeads / tpSize
      projKvHeads := cfg.numKeyValueHeads
      qPerKvGlobal := some (cfg.numAttentionHeads / cfg.numKeyValueHeads) }
  else
    { numKvHeads := cfg.numKeyValueHeads
      headDim := cfg.headDim
      localNumHeads := cfg.numAttentionHeads / tpSize
      projKvHeads := cfg.numKeyValueHeads / tpSize
      qPerKvGlobal := none }

/-- The rows of `qgkv_proj`. -/
def Qwen3_5FullAttention.qgkvRows (attn : Qwen3_5FullAttention) : ℕ :=
  let localQgDim := attn.localNumHeads * attn.headDim * 2
  let replicatedKvDim := attn.numKvHeads * attn.headDim
  localQgDim + 2 * replicatedKvDim

/-! ## The loader -/

/-- A checkpoint projection. -/
inductive Projection
  | qProj
  | kProj
  | vProj
  deriving DecidableEq

namespace Projection

def name : Projection → String
  | qProj => "q_proj"
  | kProj => "k_proj"
  | vProj => "v_proj"

/-- The part of a parameter's name that names the projection. -/
def infixName (source : Projection) : List Char :=
  ".self_attn.".toList ++ source.name.toList ++ ['.']

end Projection

/-- `source`: the projection that a parameter's name names. -/
def projectionSource (name : List Char) : Option Projection :=
  [.qProj, .kProj, .vProj].find? fun projection => PyStr.contains name projection.infixName

/-- `target_name`. -/
def targetName (name : List Char) (source : Projection) : List Char :=
  PyStr.replace name source.infixName ".self_attn.qgkv_proj.".toList

/-- `default_weight_loader(param[offset:offset + n], loaded_weight)` for `n` loaded rows. -/
def defaultWeightLoader {α : Type} (param : List α) (offset : ℕ) (loadedWeight : List α) :
    Except Exn (List α) := do
  let slice := (param.drop offset).take loadedWeight.length
  raiseIf (slice.length ≠ loadedWeight.length) .assertionError
  return param.take offset ++ loadedWeight ++ param.drop (offset + loadedWeight.length)

/-- `loaded_weight.narrow(0, start, length)`. -/
def narrow {α : Type} (loadedWeight : List α) (start length : ℕ) : Except Exn (List α) := do
  raiseIf (loadedWeight.length < start + length)
    (.runtimeError "start + length exceeds dimension size")
  return (loadedWeight.drop start).take length

/-- `_load_full_attention_qgkv_weight`: whether it took the weight, and the parameters. -/
def loadFullAttentionQgkvWeight {cfg : TextCfg} (tpSize tpRank : ℕ)
    (paramsDict : Dict (List Char) (Weight R cfg)) (name : List Char) (loadedWeight : Weight R cfg) :
    Except Exn (Bool × Dict (List Char) (Weight R cfg)) := do
  match projectionSource name with
  | none => return (false, paramsDict)
  | some source =>
    match paramsDict.get? (targetName name source) with
    | none => return (false, paramsDict)
    | some param =>
      let qgDim := cfg.numAttentionHeads * cfg.headDim * 2
      raiseIf (qgDim % tpSize ≠ 0)
        (.valueError s!"QG output size {qgDim} is not divisible by TP {tpSize}")
      let localQgDim := qgDim / tpSize
      let kvDim := cfg.numKeyValueHeads * cfg.headDim
      let expectedRows := if source = .qProj then qgDim else kvDim
      raiseIf (loadedWeight.length ≠ expectedRows)
        (.valueError ("unexpected full-attention " ++ source.name ++ " output size: " ++
          s!"{loadedWeight.length} != {expectedRows}"))
      let loaded ← match source with
        | .qProj => narrow loadedWeight (tpRank * localQgDim) localQgDim
        | _ => pure loadedWeight
      let offset := match source with
        | .qProj => 0
        | .kProj => localQgDim
        | .vProj => localQgDim + kvDim
      return (true, paramsDict.set (targetName name source)
        (← defaultWeightLoader param offset loaded))

/-! ## The projections in `forward` -/

/-- The weights of the projections on a rank: `qgkv_proj` with `use_packed_local_qgkv`, and otherwise the
three column-parallel ones. -/
inductive Projections (R : Type) (cfg : TextCfg)
  | packed (qgkvProj : Weight R cfg)
  | standard (qProj kProj vProj : Weight R cfg)

/-- A linear layer without bias, for one token. -/
def linear [Semiring R] {cfg : TextCfg} (weight : Weight R cfg) (hiddenState : Fin cfg.hiddenSize → R) : List R :=
  weight.map fun row => row ⬝ᵥ hiddenState

/-- `torch.split(x, [a, b, c], dim=-1)`. -/
def split {α : Type} (x : List α) (a b c : ℕ) : Except Exn (List α × List α × List α) := do
  raiseIf (a + b + c ≠ x.length) (.runtimeError "split_with_sizes expects split_sizes to sum exactly")
  return (x.take a, (x.drop a).take b, x.drop (a + b))

/-- The attention inputs of a token before the norms and the rotary embedding. -/
structure AttentionInputs (R : Type) where
  q : List R
  gate : List R
  k : List R
  v : List R

/-- `forward` for one token, up to the norms. A view of a token's row as heads has the heads as its
blocks. -/
def Qwen3_5FullAttention.projectQgkv [Semiring R] {cfg : TextCfg} (attn : Qwen3_5FullAttention)
    (tpRank : ℕ) (projections : Projections R cfg) (hiddenState : Fin cfg.hiddenSize → R) :
    Except Exn (AttentionInputs R) := do
  let (qg, k, v) ← match projections with
    | .packed qgkvProj =>
      split (linear qgkvProj hiddenState) (attn.localNumHeads * attn.headDim * 2)
        (attn.projKvHeads * attn.headDim) (attn.projKvHeads * attn.headDim)
    | .standard qProj kProj vProj =>
      pure (linear qProj hiddenState, linear kProj hiddenState, linear vProj hiddenState)
  raiseIf (qg.length ≠ attn.localNumHeads * (attn.headDim * 2))
    (.runtimeError "shape is invalid for input")
  let q := (List.range attn.localNumHeads).flatMap fun h =>
    (qg.block (attn.headDim * 2) h).take attn.headDim
  let gate := (List.range attn.localNumHeads).flatMap fun h =>
    (qg.block (attn.headDim * 2) h).drop attn.headDim
  match attn.qPerKvGlobal with
  | some qPerKvGlobal =>
    let kvIdx := tpRank * attn.localNumHeads / qPerKvGlobal
    raiseIf (k.length ≠ attn.projKvHeads * attn.headDim) (.runtimeError "shape is invalid for input")
    raiseIf (attn.projKvHeads ≤ kvIdx) .indexError
    return ⟨q, gate, k.block attn.headDim kvIdx, v.block attn.headDim kvIdx⟩
  | none => return ⟨q, gate, k, v⟩

/-! ## A checkpoint and its loading -/

/-- The full weights of a layer. -/
structure Checkpoint (R : Type) (cfg : TextCfg) where
  weight : Projection → Weight R cfg
  length_q : (weight .qProj).length = cfg.numAttentionHeads * cfg.headDim * 2
  length_k : (weight .kProj).length = cfg.numKeyValueHeads * cfg.headDim
  length_v : (weight .vProj).length = cfg.numKeyValueHeads * cfg.headDim

/-- The names of a layer's projections in the checkpoint and the name of its parameter. -/
structure LayerNames where
  name : Projection → List Char
  target : List Char
  source_eq : ∀ source, projectionSource (name source) = some source
  target_eq : ∀ source, targetName (name source) source = target

/-- The loads of a layer's weights in some order. -/
def loadWeights {cfg : TextCfg} (tpSize tpRank : ℕ) (names : LayerNames) (checkpoint : Checkpoint R cfg)
    (paramsDict : Dict (List Char) (Weight R cfg)) (order : List Projection) :
    Except Exn (Dict (List Char) (Weight R cfg)) :=
  order.foldlM (fun params source => Prod.snd <$>
    loadFullAttentionQgkvWeight tpSize tpRank params (names.name source) (checkpoint.weight source))
    paramsDict

/-! ## What the loader leaves -/

variable {cfg : TextCfg} {tpSize tpRank : ℕ}

/-- The packed weight with these segments. -/
def pack (segment : Projection → Weight R cfg) : Weight R cfg :=
  segment .qProj ++ (segment .kProj ++ segment .vProj)

/-- The rows of a segment. -/
def segmentRows (cfg : TextCfg) (tpSize : ℕ) : Projection → ℕ
  | .qProj => cfg.numAttentionHeads * cfg.headDim * 2 / tpSize
  | .kProj => cfg.numKeyValueHeads * cfg.headDim
  | .vProj => cfg.numKeyValueHeads * cfg.headDim

/-- The segments of a rank: its query heads and all KV heads. -/
def Checkpoint.segment (checkpoint : Checkpoint R cfg) (tpSize tpRank : ℕ) :
    Projection → Weight R cfg
  | .qProj =>
    (checkpoint.weight .qProj).block (cfg.numAttentionHeads * cfg.headDim * 2 / tpSize) tpRank
  | .kProj => checkpoint.weight .kProj
  | .vProj => checkpoint.weight .vProj

/-- The query rows are cut evenly. -/
theorem mul_segmentRows (htp : tpSize ∣ cfg.numAttentionHeads) :
    tpSize * (cfg.numAttentionHeads * cfg.headDim * 2 / tpSize) =
      cfg.numAttentionHeads * cfg.headDim * 2 :=
  Nat.mul_div_cancel' ((htp.mul_right _).mul_right _)

theorem length_segment (checkpoint : Checkpoint R cfg) (htp : tpSize ∣ cfg.numAttentionHeads)
    (hrank : tpRank < tpSize) (source : Projection) :
    (checkpoint.segment tpSize tpRank source).length = segmentRows cfg tpSize source := by
  cases source with
  | qProj =>
    exact List.length_block hrank (checkpoint.length_q.trans (mul_segmentRows htp).symm)
  | kProj => exact checkpoint.length_k
  | vProj => exact checkpoint.length_v

theorem defaultWeightLoader_append {α : Type} (a b c : List α) {loaded : List α}
    (h : loaded.length = b.length) :
    defaultWeightLoader (a ++ (b ++ c)) a.length loaded = .ok (a ++ (loaded ++ c)) := by
  have hslice : ((a ++ (b ++ c)).drop a.length).take loaded.length = b := by
    rw [List.drop_left, h, List.take_left]
  have hrest : (a ++ (b ++ c)).drop (a.length + loaded.length) = c := by
    rw [← List.drop_drop, List.drop_left, h, List.drop_left]
  unfold defaultWeightLoader
  rw [hslice, raiseIf_bind (not_not.mpr h.symm), hrest, List.take_left, List.append_assoc]
  rfl

/-- A load replaces the segment of its projection. -/
theorem load_pack {params : Dict (List Char) (Weight R cfg)} {names : LayerNames}
    {segment : Projection → Weight R cfg} (checkpoint : Checkpoint R cfg)
    (htp : tpSize ∣ cfg.numAttentionHeads) (hrank : tpRank < tpSize)
    (hrows : ∀ source, (segment source).length = segmentRows cfg tpSize source)
    (hparam : params.get? names.target = some (pack segment)) (source : Projection) :
    loadFullAttentionQgkvWeight tpSize tpRank params (names.name source) (checkpoint.weight source) =
      .ok (true, params.set names.target
        (pack (Function.update segment source (checkpoint.segment tpSize tpRank source)))) := by
  have hdiv : cfg.numAttentionHeads * cfg.headDim * 2 % tpSize = 0 :=
    Nat.mod_eq_zero_of_dvd ((htp.mul_right _).mul_right _)
  have hlength := length_segment checkpoint htp hrank source
  unfold loadFullAttentionQgkvWeight
  rw [names.source_eq]
  simp only [names.target_eq, hparam]
  rw [raiseIf_bind (not_not.mpr hdiv)]
  cases source with
  | qProj =>
    have hnarrow : narrow (checkpoint.weight .qProj)
        (tpRank * (cfg.numAttentionHeads * cfg.headDim * 2 / tpSize))
        (cfg.numAttentionHeads * cfg.headDim * 2 / tpSize) =
          .ok (checkpoint.segment tpSize tpRank .qProj) := by
      refine raiseIf_bind (Nat.not_lt.mpr ?_)
      rw [checkpoint.length_q, ← Nat.succ_mul]
      exact (Nat.mul_le_mul_right _ hrank).trans_eq (mul_segmentRows htp)
    have hload := defaultWeightLoader_append [] (segment .qProj)
      (segment .kProj ++ segment .vProj) (hlength.trans (hrows .qProj).symm)
    refine (raiseIf_bind (not_not.mpr checkpoint.length_q)).trans ?_
    exact bind_eq_ok.mpr ⟨_, hnarrow, bind_eq_ok.mpr ⟨_, hload, rfl⟩⟩
  | kProj =>
    have hload := defaultWeightLoader_append (segment .qProj) (segment .kProj) (segment .vProj)
      (hlength.trans (hrows .kProj).symm)
    rw [hrows .qProj] at hload
    refine (raiseIf_bind (not_not.mpr checkpoint.length_k)).trans ?_
    exact bind_eq_ok.mpr ⟨_, rfl, bind_eq_ok.mpr ⟨_, hload, rfl⟩⟩
  | vProj =>
    have hload := defaultWeightLoader_append (segment .qProj ++ segment .kProj) (segment .vProj) []
      (hlength.trans (hrows .vProj).symm)
    rw [List.length_append, hrows .qProj, hrows .kProj, List.append_nil, List.append_nil,
      List.append_assoc, List.append_assoc] at hload
    refine (raiseIf_bind (not_not.mpr checkpoint.length_v)).trans ?_
    exact bind_eq_ok.mpr ⟨_, rfl, bind_eq_ok.mpr ⟨_, hload, rfl⟩⟩

/-- The loads in any order replace the segments of the projections that are loaded. -/
theorem loadWeights_pack {params : Dict (List Char) (Weight R cfg)} {names : LayerNames}
    {segment : Projection → Weight R cfg} (checkpoint : Checkpoint R cfg)
    (htp : tpSize ∣ cfg.numAttentionHeads) (hrank : tpRank < tpSize)
    (hrows : ∀ source, (segment source).length = segmentRows cfg tpSize source)
    (hparam : params.get? names.target = some (pack segment)) (order : List Projection) :
    ∃ loaded, loadWeights tpSize tpRank names checkpoint params order = .ok loaded ∧
      loaded.get? names.target = some (pack fun source =>
        if source ∈ order then checkpoint.segment tpSize tpRank source else segment source) := by
  induction order generalizing params segment with
  | nil => exact ⟨params, rfl, hparam⟩
  | cons first rest ih =>
    have hrows' : ∀ source, (Function.update segment first
        (checkpoint.segment tpSize tpRank first) source).length = segmentRows cfg tpSize source := by
      intro source
      rw [Function.update_apply]
      split
      · next heq => exact heq ▸ length_segment checkpoint htp hrank _
      · exact hrows source
    obtain ⟨loaded, hloaded, hget⟩ := ih hrows' (Dict.get?_set_self params _ _)
    refine ⟨loaded, ?_, ?_⟩
    · unfold loadWeights
      rw [List.foldlM_cons, load_pack checkpoint htp hrank hrows hparam]
      exact hloaded
    · rw [hget]
      refine congrArg (fun segment => some (pack segment)) (funext fun source => ?_)
      rw [Function.update_apply]
      cases Decidable.em (source = first) with
      | inl heq => simp [heq]
      | inr hne => simp [hne]

theorem qgkvRows_init (hpacked : cfg.numKeyValueHeads < tpSize)
    (htp : tpSize ∣ cfg.numAttentionHeads) : (Qwen3_5FullAttention.init cfg tpSize).qgkvRows =
      segmentRows cfg tpSize .qProj + (segmentRows cfg tpSize .kProj + segmentRows cfg tpSize .vProj) := by
  unfold Qwen3_5FullAttention.init Qwen3_5FullAttention.qgkvRows
  rw [if_pos hpacked]
  simp only [segmentRows]
  rw [Nat.mul_assoc _ cfg.headDim, Nat.mul_assoc _ cfg.headDim, ← Nat.div_mul_right_comm htp,
    Nat.two_mul]

/-- A parameter of the constructed size has segments. -/
theorem exists_pack {param : Weight R cfg} (hpacked : cfg.numKeyValueHeads < tpSize)
    (htp : tpSize ∣ cfg.numAttentionHeads)
    (hrows : param.length = (Qwen3_5FullAttention.init cfg tpSize).qgkvRows) :
    ∃ segment : Projection → Weight R cfg,
      (∀ source, (segment source).length = segmentRows cfg tpSize source) ∧ pack segment = param := by
  rw [qgkvRows_init hpacked htp] at hrows
  refine ⟨fun
    | .qProj => param.take (segmentRows cfg tpSize .qProj)
    | .kProj => (param.drop (segmentRows cfg tpSize .qProj)).take (segmentRows cfg tpSize .kProj)
    | .vProj => (param.drop (segmentRows cfg tpSize .qProj)).drop (segmentRows cfg tpSize .kProj),
    fun source => ?_, ?_⟩
  · cases source with
    | qProj =>
      rw [List.length_take, hrows]
      exact Nat.min_eq_left (Nat.le_add_right _ _)
    | kProj =>
      rw [List.length_take, List.length_drop, hrows, Nat.add_sub_cancel_left]
      exact Nat.min_eq_left (Nat.le_add_right _ _)
    | vProj => rw [List.length_drop, List.length_drop, hrows, Nat.add_sub_cancel_left,
        Nat.add_sub_cancel_left]
  · unfold pack
    rw [List.take_append_drop, List.take_append_drop]

/-- After all loads the parameter has the segments of the rank, whatever it had before. -/
theorem loadWeights_eq {params : Dict (List Char) (Weight R cfg)} {names : LayerNames}
    {param : Weight R cfg} (checkpoint : Checkpoint R cfg) (hpacked : cfg.numKeyValueHeads < tpSize)
    (htp : tpSize ∣ cfg.numAttentionHeads) (hrank : tpRank < tpSize)
    (hparam : params.get? names.target = some param)
    (hrows : param.length = (Qwen3_5FullAttention.init cfg tpSize).qgkvRows)
    {order : List Projection} (horder : ∀ source, source ∈ order) :
    ∃ loaded, loadWeights tpSize tpRank names checkpoint params order = .ok loaded ∧
      loaded.get? names.target = some (pack (checkpoint.segment tpSize tpRank)) := by
  obtain ⟨segment, hsegment, rfl⟩ := exists_pack hpacked htp hrows
  obtain ⟨loaded, hloaded, hget⟩ := loadWeights_pack checkpoint htp hrank hsegment hparam order
  refine ⟨loaded, hloaded, hget.trans ?_⟩
  exact congrArg (fun segment => some (pack segment)) (funext fun source => if_pos (horder source))

/-! ## What `forward` projects -/

variable [Semiring R] {checkpoint : Checkpoint R cfg} {hiddenState : Fin cfg.hiddenSize → R}

/-- A projection of the full weights. -/
def Checkpoint.project (checkpoint : Checkpoint R cfg) (hiddenState : Fin cfg.hiddenSize → R)
    (source : Projection) : List R :=
  linear (checkpoint.weight source) hiddenState

/-- The query of a head in the projection of the full weights. -/
def Checkpoint.queryHead (checkpoint : Checkpoint R cfg) (hiddenState : Fin cfg.hiddenSize → R)
    (h : ℕ) : List R :=
  ((checkpoint.project hiddenState .qProj).block (cfg.headDim * 2) h).take cfg.headDim

/-- The gate of a head in the projection of the full weights. -/
def Checkpoint.gateHead (checkpoint : Checkpoint R cfg) (hiddenState : Fin cfg.hiddenSize → R)
    (h : ℕ) : List R :=
  ((checkpoint.project hiddenState .qProj).block (cfg.headDim * 2) h).drop cfg.headDim

theorem length_project_q : (checkpoint.project hiddenState .qProj).length =
    cfg.numAttentionHeads * (cfg.headDim * 2) :=
  List.length_map _ |>.trans (checkpoint.length_q.trans (Nat.mul_assoc _ _ _))

theorem length_queryHead {h : ℕ} (hh : h < cfg.numAttentionHeads) :
    (checkpoint.queryHead hiddenState h).length = cfg.headDim := by
  unfold Checkpoint.queryHead
  rw [List.length_take, List.length_block hh length_project_q]
  exact Nat.min_eq_left (Nat.le_mul_of_pos_right _ Nat.two_pos)

theorem length_gateHead {h : ℕ} (hh : h < cfg.numAttentionHeads) :
    (checkpoint.gateHead hiddenState h).length = cfg.headDim := by
  unfold Checkpoint.gateHead
  rw [List.length_drop, List.length_block hh length_project_q, Nat.mul_two, Nat.add_sub_cancel]

/-- The layer without tensor parallelism. -/
theorem projectQgkv_standard : (Qwen3_5FullAttention.init cfg 1).projectQgkv 0
    (.standard (checkpoint.weight .qProj) (checkpoint.weight .kProj) (checkpoint.weight .vProj))
      hiddenState = .ok
      ⟨(List.range cfg.numAttentionHeads).flatMap (checkpoint.queryHead hiddenState),
        (List.range cfg.numAttentionHeads).flatMap (checkpoint.gateHead hiddenState),
        checkpoint.project hiddenState .kProj, checkpoint.project hiddenState .vProj⟩ := by
  have hinit : Qwen3_5FullAttention.init cfg 1 =
      ⟨cfg.numKeyValueHeads, cfg.headDim, cfg.numAttentionHeads, cfg.numKeyValueHeads, none⟩ := by
    unfold Qwen3_5FullAttention.init
    rw [if_neg (Nat.not_lt.mpr cfg.numKeyValueHeads_pos), Nat.div_one, Nat.div_one]
  unfold Qwen3_5FullAttention.projectQgkv
  rw [hinit]
  exact raiseIf_bind (not_not.mpr length_project_q)

/-- The local query heads of a rank are consecutive heads of the full projection. -/
theorem block_segment_q (htp : tpSize ∣ cfg.numAttentionHeads) {h : ℕ}
    (hh : h < cfg.numAttentionHeads / tpSize) :
    (linear (checkpoint.segment tpSize tpRank .qProj) hiddenState).block (cfg.headDim * 2) h =
      (checkpoint.project hiddenState .qProj).block (cfg.headDim * 2)
        (tpRank * (cfg.numAttentionHeads / tpSize) + h) := by
  have hsize : cfg.numAttentionHeads * cfg.headDim * 2 / tpSize =
      cfg.numAttentionHeads / tpSize * (cfg.headDim * 2) := by
    rw [Nat.mul_assoc, Nat.div_mul_right_comm htp]
  unfold linear Checkpoint.segment
  rw [List.map_block, hsize, List.block_block hh]
  rfl

theorem split_append {α : Type} {x y z : List α} {a b c : ℕ} (hx : x.length = a) (hy : y.length = b)
    (hz : z.length = c) : split (x ++ (y ++ z)) a b c = .ok (x, y, z) := by
  subst hx hy hz
  have hlength : x.length + y.length + z.length = (x ++ (y ++ z)).length := by
    rw [List.length_append, List.length_append, Nat.add_assoc]
  refine (raiseIf_bind (not_not.mpr hlength)).trans ?_
  rw [← List.drop_drop, List.take_left, List.drop_left, List.take_left, List.drop_left]
  rfl

theorem kvIdx_lt (hkv : cfg.numKeyValueHeads ∣ cfg.numAttentionHeads)
    (htp : tpSize ∣ cfg.numAttentionHeads) (hrank : tpRank < tpSize) :
    tpRank * (cfg.numAttentionHeads / tpSize) / (cfg.numAttentionHeads / cfg.numKeyValueHeads) <
      cfg.numKeyValueHeads := by
  have hlocal : 0 < cfg.numAttentionHeads / tpSize :=
    Nat.div_pos (Nat.le_of_dvd cfg.numAttentionHeads_pos htp) (Nat.zero_lt_of_lt hrank)
  rw [Nat.div_lt_iff_lt_mul (Nat.div_pos (Nat.le_of_dvd cfg.numAttentionHeads_pos hkv)
    cfg.numKeyValueHeads_pos), Nat.mul_div_cancel' hkv]
  exact (Nat.mul_lt_mul_of_pos_right hrank hlocal).trans_eq (Nat.mul_div_cancel' htp)

/-- The layer of a rank with the packed weight. -/
theorem projectQgkv_packed (hpacked : cfg.numKeyValueHeads < tpSize)
    (hkv : cfg.numKeyValueHeads ∣ cfg.numAttentionHeads) (htp : tpSize ∣ cfg.numAttentionHeads)
    (hrank : tpRank < tpSize) : (Qwen3_5FullAttention.init cfg tpSize).projectQgkv tpRank
    (.packed (pack (checkpoint.segment tpSize tpRank))) hiddenState = .ok
      ⟨(List.range (cfg.numAttentionHeads / tpSize)).flatMap fun h =>
          checkpoint.queryHead hiddenState (tpRank * (cfg.numAttentionHeads / tpSize) + h),
        (List.range (cfg.numAttentionHeads / tpSize)).flatMap fun h =>
          checkpoint.gateHead hiddenState (tpRank * (cfg.numAttentionHeads / tpSize) + h),
        (checkpoint.project hiddenState .kProj).block cfg.headDim (tpRank *
          (cfg.numAttentionHeads / tpSize) / (cfg.numAttentionHeads / cfg.numKeyValueHeads)),
        (checkpoint.project hiddenState .vProj).block cfg.headDim (tpRank *
          (cfg.numAttentionHeads / tpSize) / (cfg.numAttentionHeads / cfg.numKeyValueHeads))⟩ := by
  have hinit : Qwen3_5FullAttention.init cfg tpSize =
      ⟨cfg.numKeyValueHeads, cfg.headDim, cfg.numAttentionHeads / tpSize, cfg.numKeyValueHeads,
        some (cfg.numAttentionHeads / cfg.numKeyValueHeads)⟩ := if_pos hpacked
  have hlength : ∀ source, (linear (checkpoint.segment tpSize tpRank source) hiddenState).length =
      segmentRows cfg tpSize source :=
    fun source => (List.length_map _).trans (length_segment checkpoint htp hrank source)
  have hlocal : segmentRows cfg tpSize .qProj =
      cfg.numAttentionHeads / tpSize * cfg.headDim * 2 := by
    rw [Nat.mul_assoc, Nat.div_mul_right_comm htp, ← Nat.mul_assoc]
    rfl
  have hsplit := split_append (hlength .qProj) (hlength .kProj) (hlength .vProj)
  rw [hlocal] at hsplit
  have hlinear : linear (pack (checkpoint.segment tpSize tpRank)) hiddenState =
      linear (checkpoint.segment tpSize tpRank .qProj) hiddenState ++
        (linear (checkpoint.segment tpSize tpRank .kProj) hiddenState ++
          linear (checkpoint.segment tpSize tpRank .vProj) hiddenState) := by
    unfold linear pack
    rw [List.map_append, List.map_append]
  have hkvIdx := kvIdx_lt hkv htp hrank
  unfold Qwen3_5FullAttention.projectQgkv
  rw [hinit]
  refine bind_eq_ok.mpr ⟨_, (congrArg (split · _ _ _) hlinear).trans hsplit, ?_⟩
  refine (raiseIf_bind (not_not.mpr ?_)).trans ((raiseIf_bind (not_not.mpr ?_)).trans
    ((raiseIf_bind (Nat.not_le.mpr hkvIdx)).trans ?_))
  · rw [hlength, hlocal, Nat.mul_assoc]
  · exact hlength .kProj
  · refine congrArg Except.ok ?_
    rw [AttentionInputs.mk.injEq]
    refine ⟨List.flatMap_congr fun h hh => ?_, List.flatMap_congr fun h hh => ?_, rfl, rfl⟩
    · exact congrArg (List.take _) (block_segment_q htp (List.mem_range.mp hh))
    · exact congrArg (List.drop _) (block_segment_q htp (List.mem_range.mp hh))

/-! ## The heads of grouped-query attention -/

/-- On every rank the checkpoint loads in any order, and every local query head has the query and the gate
of its global head and the key and the value of that head's group, as the layer without tensor
parallelism projects them. -/
def PackedEqUnsharded (R : Type) [Semiring R] (cfg : TextCfg) (tpSize : ℕ) : Prop :=
  ∀ (checkpoint : Checkpoint R cfg) (names : LayerNames) (tpRank : ℕ)
    (params : Dict (List Char) (Weight R cfg)) (param : Weight R cfg) (order : List Projection),
    tpRank < tpSize → params.get? names.target = some param →
    param.length = (Qwen3_5FullAttention.init cfg tpSize).qgkvRows → (∀ source, source ∈ order) →
    ∃ loaded weight, loadWeights tpSize tpRank names checkpoint params order = .ok loaded ∧
      loaded.get? names.target = some weight ∧
      ∀ hiddenState, ∃ unsharded inputs,
        (Qwen3_5FullAttention.init cfg 1).projectQgkv 0 (.standard (checkpoint.weight .qProj)
          (checkpoint.weight .kProj) (checkpoint.weight .vProj)) hiddenState = .ok unsharded ∧
        (Qwen3_5FullAttention.init cfg tpSize).projectQgkv tpRank (.packed weight) hiddenState =
          .ok inputs ∧
        ∀ h < cfg.numAttentionHeads / tpSize,
          let globalHead := tpRank * (cfg.numAttentionHeads / tpSize) + h
          let kvHead := globalHead / (cfg.numAttentionHeads / cfg.numKeyValueHeads)
          inputs.q.block cfg.headDim h = unsharded.q.block cfg.headDim globalHead ∧
            inputs.gate.block cfg.headDim h = unsharded.gate.block cfg.headDim globalHead ∧
            inputs.k = unsharded.k.block cfg.headDim kvHead ∧
            inputs.v = unsharded.v.block cfg.headDim kvHead

theorem globalHead_lt (htp : tpSize ∣ cfg.numAttentionHeads) (hrank : tpRank < tpSize) {h : ℕ}
    (hh : h < cfg.numAttentionHeads / tpSize) :
    tpRank * (cfg.numAttentionHeads / tpSize) + h < cfg.numAttentionHeads := by
  calc tpRank * (cfg.numAttentionHeads / tpSize) + h
      < tpRank * (cfg.numAttentionHeads / tpSize) + cfg.numAttentionHeads / tpSize :=
        Nat.add_lt_add_left hh _
    _ = (tpRank + 1) * (cfg.numAttentionHeads / tpSize) := (Nat.succ_mul _ _).symm
    _ ≤ tpSize * (cfg.numAttentionHeads / tpSize) := Nat.mul_le_mul_right _ hrank
    _ = cfg.numAttentionHeads := Nat.mul_div_cancel' htp

/-- All query heads of a rank are in one group when the ranks are a multiple of the KV heads. -/
theorem kvHead_eq (htp : tpSize ∣ cfg.numAttentionHeads) (hdvd : cfg.numKeyValueHeads ∣ tpSize) {h : ℕ}
    (hh : h < cfg.numAttentionHeads / tpSize) :
    (tpRank * (cfg.numAttentionHeads / tpSize) + h) /
        (cfg.numAttentionHeads / cfg.numKeyValueHeads) =
      tpRank * (cfg.numAttentionHeads / tpSize) /
        (cfg.numAttentionHeads / cfg.numKeyValueHeads) := by
  have hlocal : 0 < cfg.numAttentionHeads / tpSize := Nat.zero_lt_of_lt hh
  have hgroup : cfg.numAttentionHeads / cfg.numKeyValueHeads =
      cfg.numAttentionHeads / tpSize * (tpSize / cfg.numKeyValueHeads) := by
    rw [← Nat.mul_div_assoc _ hdvd, Nat.div_mul_cancel htp]
  rw [hgroup, ← Nat.div_div_eq_div_mul, ← Nat.div_div_eq_div_mul, Nat.mul_div_cancel _ hlocal,
    Nat.mul_comm tpRank, Nat.mul_add_div hlocal, Nat.div_eq_of_lt hh, Nat.add_zero]

/-- Otherwise some rank has query heads of the first two groups. -/
theorem exists_twoGroups (hkv : cfg.numKeyValueHeads ∣ cfg.numAttentionHeads)
    (htp : tpSize ∣ cfg.numAttentionHeads) (hndvd : ¬ cfg.numKeyValueHeads ∣ tpSize) :
    ∃ tpRank < tpSize, ∃ h < cfg.numAttentionHeads / tpSize,
      tpRank * (cfg.numAttentionHeads / tpSize) / (cfg.numAttentionHeads / cfg.numKeyValueHeads) = 0 ∧
      (tpRank * (cfg.numAttentionHeads / tpSize) + h) /
        (cfg.numAttentionHeads / cfg.numKeyValueHeads) = 1 := by
  obtain ⟨localHeads, hlocal⟩ := htp
  obtain ⟨group, hgroup⟩ := hkv
  have hpos := cfg.numAttentionHeads_pos
  have htpPos : 0 < tpSize := Nat.pos_of_mul_pos_right (hlocal ▸ hpos)
  have hlocalPos : 0 < localHeads := Nat.pos_of_mul_pos_left (hlocal ▸ hpos)
  have hgroupPos : 0 < group := Nat.pos_of_mul_pos_left (hgroup ▸ hpos)
  rw [Nat.div_eq_of_eq_mul_right htpPos hlocal,
    Nat.div_eq_of_eq_mul_right cfg.numKeyValueHeads_pos hgroup]
  have hmod : 0 < group % localHeads := by
    refine Nat.pos_of_ne_zero fun hzero => hndvd ?_
    obtain ⟨c, rfl⟩ := Nat.dvd_of_mod_eq_zero hzero
    refine ⟨c, Nat.eq_of_mul_eq_mul_right hlocalPos ?_⟩
    rw [← hlocal, hgroup, Nat.mul_comm localHeads, Nat.mul_assoc]
  have hstart : group / localHeads * localHeads < group := by
    have := Nat.div_add_mod' group localHeads
    omega
  refine ⟨group / localHeads, ?_, group % localHeads, Nat.mod_lt _ hlocalPos,
    Nat.div_eq_of_lt hstart, ?_⟩
  · refine Nat.lt_of_mul_lt_mul_right (a := localHeads) (hstart.trans_le ?_)
    rw [← hlocal, hgroup]
    exact Nat.le_mul_of_pos_left group cfg.numKeyValueHeads_pos
  · rw [Nat.div_add_mod', Nat.div_self hgroupPos]

/-- The ranks whose query heads are in one group have the inputs of the layer without tensor parallelism. -/
theorem packed_of_dvd (hpacked : cfg.numKeyValueHeads < tpSize)
    (hkv : cfg.numKeyValueHeads ∣ cfg.numAttentionHeads) (htp : tpSize ∣ cfg.numAttentionHeads)
    (hdvd : cfg.numKeyValueHeads ∣ tpSize) : PackedEqUnsharded R cfg tpSize := by
  intro checkpoint names tpRank params param order hrank hparam hrows horder
  obtain ⟨loaded, hloaded, hget⟩ :=
    loadWeights_eq checkpoint hpacked htp hrank hparam hrows horder
  refine ⟨loaded, _, hloaded, hget, fun hiddenState => ⟨_, _, projectQgkv_standard,
    projectQgkv_packed hpacked hkv htp hrank, fun h hh => ⟨?_, ?_, ?_, ?_⟩⟩⟩
  · refine (List.block_flatMap (fun i hi => ?_) hh).trans
      (List.block_flatMap (fun i hi => length_queryHead hi) (globalHead_lt htp hrank hh)).symm
    exact length_queryHead (globalHead_lt htp hrank hi)
  · refine (List.block_flatMap (fun i hi => ?_) hh).trans
      (List.block_flatMap (fun i hi => length_gateHead hi) (globalHead_lt htp hrank hh)).symm
    exact length_gateHead (globalHead_lt htp hrank hi)
  · exact congrArg (List.block _ · _) (kvHead_eq htp hdvd hh).symm
  · exact congrArg (List.block _ · _) (kvHead_eq htp hdvd hh).symm

/-- The names of layer 3. -/
def layerNames : LayerNames where
  name source := "model.layers.3".toList ++ source.infixName ++ "weight".toList
  target := "model.layers.3.self_attn.qgkv_proj.weight".toList
  source_eq := by
    intro source
    cases source <;> decide +kernel
  target_eq := by
    intro source
    cases source <;> decide +kernel

/-- The rows of `twoKeys`. -/
def twoKeysWeight (R : Type) [Semiring R] (cfg : TextCfg) : Projection → Weight R cfg
  | .qProj => List.replicate (cfg.numAttentionHeads * cfg.headDim * 2) 0
  | .kProj => List.replicate cfg.headDim (0 : Fin cfg.hiddenSize → R) ++
      List.replicate ((cfg.numKeyValueHeads - 1) * cfg.headDim) (1 : Fin cfg.hiddenSize → R)
  | .vProj => List.replicate (cfg.numKeyValueHeads * cfg.headDim) 0

/-- A checkpoint whose first KV head has zero keys and whose other heads have keys of ones. -/
def twoKeys (R : Type) [Semiring R] (cfg : TextCfg) : Checkpoint R cfg where
  weight := twoKeysWeight R cfg
  length_q := List.length_replicate
  length_k := by
    rw [twoKeysWeight, List.length_append, List.length_replicate, List.length_replicate, Nat.add_comm,
      ← Nat.succ_mul, Nat.succ_eq_add_one, Nat.sub_add_cancel cfg.numKeyValueHeads_pos]
  length_v := List.length_replicate

/-- The first two KV heads have different keys for some token. -/
theorem block_twoKeys_ne [Nontrivial R] (hmany : 1 < cfg.numKeyValueHeads) :
    ∃ hiddenState, ((twoKeys R cfg).project hiddenState .kProj).block cfg.headDim 0 ≠
      ((twoKeys R cfg).project hiddenState .kProj).block cfg.headDim 1 := by
  refine ⟨Pi.single ⟨0, cfg.hiddenSize_pos⟩ 1, fun heq => ?_⟩
  have hproject : (twoKeys R cfg).project (Pi.single ⟨0, cfg.hiddenSize_pos⟩ 1) .kProj =
      List.replicate cfg.headDim 0 ++
        List.replicate ((cfg.numKeyValueHeads - 1) * cfg.headDim) 1 := by
    simp only [Checkpoint.project, linear, twoKeys, twoKeysWeight, List.map_append,
      List.map_replicate, dotProduct_single_one, Pi.zero_apply, Pi.one_apply]
  have hfirst := congrArg (·[0]?) heq
  simp only [List.getElem?_block cfg.headDim_pos, hproject] at hfirst
  have hrest : 0 < (cfg.numKeyValueHeads - 1) * cfg.headDim :=
    Nat.mul_pos (Nat.sub_pos_of_lt hmany) cfg.headDim_pos
  have hzero : (List.replicate cfg.headDim (0 : R) ++
      List.replicate ((cfg.numKeyValueHeads - 1) * cfg.headDim) 1)[0 * cfg.headDim + 0]? =
        some 0 := by
    rw [Nat.zero_mul, List.getElem?_append_left (by simpa using cfg.headDim_pos)]
    exact List.getElem?_replicate_of_lt cfg.headDim_pos
  have hone : (List.replicate cfg.headDim (0 : R) ++
      List.replicate ((cfg.numKeyValueHeads - 1) * cfg.headDim) 1)[1 * cfg.headDim + 0]? =
        some 1 := by
    rw [Nat.one_mul, Nat.add_zero, List.getElem?_append_right (by simp), List.length_replicate,
      Nat.sub_self]
    exact List.getElem?_replicate_of_lt hrest
  exact zero_ne_one (Option.some.inj (hzero.symm.trans (hfirst.trans hone)))

/-- A rank with query heads of two groups uses the keys of the first one for both. -/
theorem dvd_of_packed [Nontrivial R] (hpacked : cfg.numKeyValueHeads < tpSize)
    (hkv : cfg.numKeyValueHeads ∣ cfg.numAttentionHeads) (htp : tpSize ∣ cfg.numAttentionHeads)
    (h : PackedEqUnsharded R cfg tpSize) : cfg.numKeyValueHeads ∣ tpSize := by
  refine Decidable.byContradiction fun hndvd => ?_
  obtain ⟨tpRank, hrank, head, hhead, hfirst, hsecond⟩ := exists_twoGroups hkv htp hndvd
  have hmany : 1 < cfg.numKeyValueHeads :=
    Nat.lt_of_le_of_ne cfg.numKeyValueHeads_pos fun hone => hndvd (hone ▸ Nat.one_dvd tpSize)
  obtain ⟨hiddenState, hne⟩ := block_twoKeys_ne (R := R) hmany
  have horder : ∀ source : Projection, source ∈ [.qProj, .kProj, .vProj] := by
    intro source
    cases source <;> decide
  have hparam : (Dict.empty.set layerNames.target (List.replicate
      (Qwen3_5FullAttention.init cfg tpSize).qgkvRows (0 : Fin cfg.hiddenSize → R))).get?
        layerNames.target = some _ := Dict.get?_set_self _ _ _
  obtain ⟨loaded, weight, hloaded, hget, hinputs⟩ :=
    h (twoKeys R cfg) layerNames tpRank _ _ _ hrank hparam List.length_replicate horder
  obtain ⟨loaded', hloaded', hget'⟩ :=
    loadWeights_eq (twoKeys R cfg) hpacked htp hrank hparam List.length_replicate horder
  obtain rfl : loaded = loaded' := Except.ok.inj (hloaded.symm.trans hloaded')
  obtain rfl := Option.some.inj (hget.symm.trans hget')
  obtain ⟨unsharded, inputs, hstandard, hlocal, hheads⟩ := hinputs hiddenState
  obtain rfl := Except.ok.inj (hstandard.symm.trans projectQgkv_standard)
  obtain rfl := Except.ok.inj (hlocal.symm.trans (projectQgkv_packed hpacked hkv htp hrank))
  obtain ⟨-, -, hkey, -⟩ := hheads head hhead
  simp only [hfirst, hsecond] at hkey
  exact hne hkey

/-- The packed weights give the inputs of the layer without tensor parallelism exactly when the number of
ranks is a multiple of the number of KV heads. -/
theorem packed_iff (R : Type) [Semiring R] [Nontrivial R] (cfg : TextCfg) (tpSize : ℕ)
    (hpacked : cfg.numKeyValueHeads < tpSize) (hkv : cfg.numKeyValueHeads ∣ cfg.numAttentionHeads)
    (htp : tpSize ∣ cfg.numAttentionHeads) :
    PackedEqUnsharded R cfg tpSize ↔ cfg.numKeyValueHeads ∣ tpSize :=
  ⟨dvd_of_packed hpacked hkv htp, packed_of_dvd hpacked hkv htp⟩

/-- Sixteen query heads, two KV heads and four ranks. -/
theorem packed_iff_fourRanks : PackedEqUnsharded ℤ
    ⟨2048, 16, 2, 256, by decide, by decide, by decide, by decide⟩ 4 :=
  (packed_iff ℤ _ 4 (by decide) (by decide) (by decide)).mpr (by decide)

/-- Twenty-four query heads, four KV heads and six ranks: rank 1 has the heads from 4 to 7, and the heads 6
and 7 are in the second group. -/
theorem not_packed_of_sixRanks : ¬ PackedEqUnsharded ℤ
    ⟨5120, 24, 4, 256, by decide, by decide, by decide, by decide⟩ 6 :=
  fun h => absurd (dvd_of_packed (by decide) (by decide) (by decide) h) (by decide)

end Ikun.Attention.PackedQgkv
