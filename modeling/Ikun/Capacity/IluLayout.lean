import Ikun.Capacity.Balance
import Ikun.Capacity.Estimate

/-!
# Heads by rank

`compute_ilu_layerwise_layout` divides the KV heads of every layer among the ranks: evenly when there is
a head for each rank, and otherwise one head to each of the next ranks in turn, where the offset of the
turn is carried from layer to layer. `estimate_layerwise_kv_memory` adds up what a rank holds.

A layer without heads has no place in a layout (`is_valid`), and the layout of a list with one is not
computed. `distributes_iff` says when it is, and that then the heads are distributed evenly. Ranks and
offsets are `int32_t`, whose addition can overflow; bytes are integers without a bound.
-/

namespace Ikun.KvCapacity

open Except

/-- How the computation of a layout can end without one. -/
inductive LayoutFailure
  | checkFailed
  | divisionByZero
  | overflow
  deriving DecidableEq, Repr

/-- `LayerShardSpec`. -/
structure LayerShardSpec where
  layerId : ℕ
  assignedRanks : List ℕ
  headsPerRank : List ℕ
  deriving DecidableEq, Repr

namespace LayerShardSpec

variable (spec : LayerShardSpec)

def totalHeads : ℕ := spec.headsPerRank.sum

def isValid : Bool :=
  spec.assignedRanks ≠ [] && spec.assignedRanks.length = spec.headsPerRank.length &&
    spec.headsPerRank.all (0 < ·)

/-- `heads_for_rank` of a layer. -/
def headsForRank (rank : ℕ) : ℕ :=
  match (spec.assignedRanks.zip spec.headsPerRank).find? (·.1 = rank) with
  | some (_, heads) => heads
  | none => 0

end LayerShardSpec

/-! ## The layout -/

/-- The sum of two `int32_t`. -/
def int32Add (a b : ℕ) : Except LayoutFailure ℕ :=
  if a + b < 2 ^ 31 then .ok (a + b) else .error .overflow

/-- `heads_per_rank` when the heads are divided among `parts` ranks. -/
def shares (totalHeads parts : ℕ) : Except LayoutFailure (List ℕ) := do
  raiseIf (parts = 0) .divisionByZero
  return (List.range parts).map fun j =>
    totalHeads / parts + if j < totalHeads % parts then 1 else 0

/-- The layer with its heads, and the next offset. -/
def shard (worldSize rrOffset layerId totalHeads : ℕ) : Except LayoutFailure (LayerShardSpec × ℕ) :=
  if worldSize ≤ totalHeads then do
    let heads ← shares totalHeads worldSize
    return (⟨layerId, List.range worldSize, heads⟩, rrOffset)
  else do
    let ranks ← (List.range totalHeads).mapM fun j => do
      let rank ← int32Add rrOffset j
      return rank % worldSize
    let heads ← shares totalHeads totalHeads
    let offset ← int32Add rrOffset totalHeads
    return (⟨layerId, ranks, heads⟩, offset % worldSize)

/-- The loop over the layers. -/
def shardLayers (worldSize : ℕ) : ℕ → ℕ → List ℕ → Except LayoutFailure (List LayerShardSpec)
  | _, _, [] => return []
  | rrOffset, layerId, totalHeads :: rest => do
    let (spec, offset) ← shard worldSize rrOffset layerId totalHeads
    return spec :: (← shardLayers worldSize offset (layerId + 1) rest)

/-- `validate`. -/
def validate (specs : List LayerShardSpec) : Except LayoutFailure Unit :=
  raiseIf (¬ ∀ spec ∈ specs.zipIdx, spec.1.isValid ∧ spec.1.layerId = spec.2) .checkFailed

/-- `compute_ilu_layerwise_layout`. -/
def computeIluLayerwiseLayout (numLayers : ℕ) (perLayerKvHeads : List ℕ) (worldSize : ℕ) :
    Except LayoutFailure (List LayerShardSpec) := do
  raiseIf (perLayerKvHeads.length ≠ numLayers) .checkFailed
  raiseIf (¬ 0 < worldSize) .checkFailed
  let specs ← shardLayers worldSize 0 0 perLayerKvHeads
  validate specs
  return specs

/-! ## The estimate -/

/-- `dtype_bytes`. -/
def dtypeBytes (dtypeEnum : ℤ) : ℤ :=
  if dtypeEnum = 5 ∨ dtypeEnum = 15 then 2
  else if dtypeEnum = 6 then 4
  else if dtypeEnum = 2 then 1
  else 2

/-- `align_up`. -/
def alignUp (val align : ℤ) : ℤ := (val + align - 1).tdiv align * align

/-- The shape of the cache. -/
structure CacheShape where
  nBlocks : ℤ
  blockSize : ℤ
  headDim : ℤ
  dtypeEnum : ℤ

/-- `layer_bytes` for this number of heads, on a device with warps of 64. -/
def CacheShape.bytes (shape : CacheShape) (heads : ℤ) : ℤ :=
  2 * heads * shape.nBlocks * shape.blockSize * alignUp shape.headDim 64 *
    dtypeBytes shape.dtypeEnum

/-- `LayerwiseKVMemoryEstimate`. -/
structure LayerwiseKVMemoryEstimate where
  peakPerRankBytes : ℤ
  averagePerRankBytes : ℤ
  uniformPerRankBytes : ℤ
  perRankBytes : List ℤ
  savingsVsUniformPct : ℚ

/-- A round of the loop over the ranks of a layer. -/
def addRank (shape : CacheShape) (worldSize : ℕ) (perRankBytes : List ℤ) (share : ℕ × ℕ) :
    Except LayoutFailure (List ℤ) := do
  raiseIf (¬ share.1 < worldSize) .checkFailed
  return perRankBytes.modify share.1 (· + shape.bytes share.2)

/-- `estimate_layerwise_kv_memory`. -/
def estimateLayerwiseKvMemory (specs : List LayerShardSpec) (shape : CacheShape) (worldSize : ℕ) :
    Except LayoutFailure LayerwiseKVMemoryEstimate := do
  raiseIf (¬ 0 < specs.length) .checkFailed
  raiseIf (¬ 0 < worldSize) .checkFailed
  let perRankBytes ← specs.foldlM (fun perRankBytes spec =>
    (spec.assignedRanks.zip spec.headsPerRank).foldlM (addRank shape worldSize) perRankBytes)
    (List.replicate worldSize 0)
  let uniformTotal := (specs.map (·.totalHeads)).sum
  let uniformPerRank := shape.bytes (uniformTotal / worldSize : ℕ)
  let peak := perRankBytes.foldl max (perRankBytes.headD 0)
  return {
    peakPerRankBytes := peak
    averagePerRankBytes := truncate (perRankBytes.sum / worldSize)
    uniformPerRankBytes := uniformPerRank
    perRankBytes
    savingsVsUniformPct := if uniformPerRank > 0 then 100 * (1 - peak / uniformPerRank) else 0 }

/-! ## What a layout should be -/

/-- The heads of a rank in the layers that have fewer heads than ranks. -/
def sparseHeads (worldSize : ℕ) (specs : List LayerShardSpec) (rank : ℕ) : ℕ :=
  ((specs.filter (·.totalHeads < worldSize)).map (·.headsForRank rank)).sum

/-- Every head is on one rank, and the ranks hold equally many. -/
structure Distributes (worldSize : ℕ) (heads : List ℕ) (specs : List LayerShardSpec) : Prop where
  layers : List.Forall₂ (fun totalHeads spec => spec.totalHeads = totalHeads ∧
    spec.assignedRanks.length = spec.headsPerRank.length ∧ spec.assignedRanks.Nodup ∧
    ∀ rank ∈ spec.assignedRanks, rank < worldSize) heads specs
  balanced : ∀ r < worldSize, ∀ s < worldSize,
    sparseHeads worldSize specs r ≤ sparseHeads worldSize specs s + 1
  bytes : specs ≠ [] → ∀ shape, ∃ estimate,
    estimateLayerwiseKvMemory specs shape worldSize = .ok estimate ∧
      estimate.perRankBytes.sum = shape.bytes heads.sum

/-! ## One layer -/

variable {worldSize rrOffset layerId totalHeads parts : ℕ}

/-- What `heads_per_rank` is for `parts` ranks. -/
def evenShares (totalHeads parts : ℕ) : List ℕ :=
  (List.range parts).map fun j => totalHeads / parts + if j < totalHeads % parts then 1 else 0

/-- The layer with its heads. -/
def shardOf (worldSize rrOffset layerId totalHeads : ℕ) : LayerShardSpec :=
  if worldSize ≤ totalHeads then
    ⟨layerId, List.range worldSize, evenShares totalHeads worldSize⟩
  else
    ⟨layerId, (List.range totalHeads).map fun j => (rrOffset + j) % worldSize,
      evenShares totalHeads totalHeads⟩

/-- The offset after the layer. -/
def nextOffset (worldSize rrOffset totalHeads : ℕ) : ℕ :=
  if worldSize ≤ totalHeads then rrOffset else (rrOffset + totalHeads) % worldSize

theorem int32Add_eq_ok {a b c : ℕ} : int32Add a b = .ok c ↔ a + b < 2 ^ 31 ∧ a + b = c := by
  unfold int32Add
  split
  · next h => exact ⟨fun heq => ⟨h, Except.ok.inj heq⟩, fun heq => congrArg _ heq.2⟩
  · next h => exact ⟨fun heq => (nomatch heq), fun heq => absurd heq.1 h⟩

theorem shares_eq_ok {heads : List ℕ} :
    shares totalHeads parts = .ok heads ↔ 0 < parts ∧ evenShares totalHeads parts = heads := by
  unfold shares
  rw [bind_eq_ok]
  constructor
  · rintro ⟨_, hparts, hheads⟩
    exact ⟨Nat.pos_of_ne_zero (raiseIf_eq_ok.mp hparts), Except.ok.inj hheads⟩
  · rintro ⟨hparts, hheads⟩
    exact ⟨(), raiseIf_eq_ok.mpr (Nat.ne_of_gt hparts), congrArg _ hheads⟩

theorem shard_eq_ok (hworld : 0 < worldSize) {result : LayerShardSpec × ℕ} :
    shard worldSize rrOffset layerId totalHeads = .ok result ↔
      (totalHeads < worldSize → 0 < totalHeads ∧ rrOffset + totalHeads < 2 ^ 31) ∧
      (shardOf worldSize rrOffset layerId totalHeads, nextOffset worldSize rrOffset totalHeads) =
        result := by
  unfold shard shardOf nextOffset
  by_cases hdense : worldSize ≤ totalHeads
  · rw [if_pos hdense, if_pos hdense, if_pos hdense, bind_eq_ok]
    constructor
    · rintro ⟨heads, hheads, hresult⟩
      obtain ⟨-, rfl⟩ := shares_eq_ok.mp hheads
      exact ⟨fun hsparse => absurd hdense (Nat.not_le.mpr hsparse), Except.ok.inj hresult⟩
    · rintro ⟨-, hresult⟩
      exact ⟨_, shares_eq_ok.mpr ⟨hworld, rfl⟩, congrArg _ hresult⟩
  · have hsparse := Nat.not_le.mp hdense
    rw [if_neg hdense, if_neg hdense, if_neg hdense, bind_eq_ok]
    constructor
    · rintro ⟨ranks, hranks, hrest⟩
      obtain ⟨heads, hheads, hrest⟩ := bind_eq_ok.mp hrest
      obtain ⟨offset, hoffset, hresult⟩ := bind_eq_ok.mp hrest
      obtain ⟨hpos, rfl⟩ := shares_eq_ok.mp hheads
      obtain ⟨hlt, rfl⟩ := int32Add_eq_ok.mp hoffset
      have hranks' := hranks.symm.trans (mapM_eq_ok (g := fun j => (rrOffset + j) % worldSize)
        fun j hj => bind_eq_ok.mpr ⟨_, int32Add_eq_ok.mpr
          ⟨Nat.lt_trans (Nat.add_lt_add_left (List.mem_range.mp hj) _) hlt, rfl⟩, rfl⟩)
      obtain rfl := Except.ok.inj hranks'
      exact ⟨fun _ => ⟨hpos, hlt⟩, Except.ok.inj hresult⟩
    · rintro ⟨hfits, hresult⟩
      obtain ⟨hpos, hlt⟩ := hfits hsparse
      refine ⟨_, mapM_eq_ok (g := fun j => (rrOffset + j) % worldSize) fun j hj => ?_, ?_⟩
      · exact bind_eq_ok.mpr ⟨_, int32Add_eq_ok.mpr
          ⟨Nat.lt_trans (Nat.add_lt_add_left (List.mem_range.mp hj) _) hlt, rfl⟩, rfl⟩
      · refine bind_eq_ok.mpr ⟨_, shares_eq_ok.mpr ⟨hpos, rfl⟩, ?_⟩
        exact bind_eq_ok.mpr ⟨_, int32Add_eq_ok.mpr ⟨hlt, rfl⟩, congrArg _ hresult⟩

theorem sum_range_ite_lt (m p : ℕ) :
    ((List.range p).map fun j => if j < m then 1 else 0).sum = min m p := by
  induction p with
  | zero => rw [Nat.min_zero]; rfl
  | succ p ih =>
    rw [List.range_succ, List.map_append, List.sum_append, ih, List.map_singleton,
      List.sum_singleton]
    split
    · next h => rw [Nat.min_eq_right (Nat.le_of_lt h), Nat.min_eq_right h]
    · next h =>
      rw [Nat.min_eq_left (Nat.not_lt.mp h),
        Nat.min_eq_left (Nat.le_succ_of_le (Nat.not_lt.mp h)), Nat.add_zero]

/-- The shares are all of the heads. -/
theorem sum_evenShares (hparts : 0 < parts) : (evenShares totalHeads parts).sum = totalHeads := by
  have hrem := Nat.min_eq_left (Nat.le_of_lt (Nat.mod_lt totalHeads hparts))
  rw [evenShares, List.sum_map_add, sum_range_ite_lt, hrem, List.map_const', List.length_range,
    List.sum_replicate, smul_eq_mul, Nat.div_add_mod]

@[simp] theorem length_evenShares (totalHeads parts : ℕ) :
    (evenShares totalHeads parts).length = parts := by
  rw [evenShares, List.length_map, List.length_range]

/-- When each rank has one head, the shares are ones. -/
theorem evenShares_self : evenShares totalHeads totalHeads = List.replicate totalHeads 1 := by
  refine List.eq_replicate_iff.mpr ⟨length_evenShares _ _, fun share hshare => ?_⟩
  obtain ⟨j, hj, rfl⟩ := List.mem_map.mp hshare
  have hpos := Nat.zero_lt_of_lt (List.mem_range.mp hj)
  rw [Nat.div_self hpos, Nat.mod_self, if_neg (Nat.not_lt_zero j)]

theorem nodup_ranks (rrOffset : ℕ) (hsparse : totalHeads ≤ worldSize) :
    ((List.range totalHeads).map fun j => (rrOffset + j) % worldSize).Nodup := by
  refine List.Nodup.map_on (fun i hi j hj heq => ?_) List.nodup_range
  have hi' := Nat.lt_of_lt_of_le (List.mem_range.mp hi) hsparse
  have hj' := Nat.lt_of_lt_of_le (List.mem_range.mp hj) hsparse
  have hmod : i ≡ j [MOD worldSize] := Nat.ModEq.add_left_cancel' rrOffset heq
  exact Nat.ModEq.eq_of_lt_of_lt hmod hi' hj'

/-! ## All layers -/

/-- The layers of a layout. -/
def layersOf (worldSize : ℕ) : ℕ → ℕ → List ℕ → List LayerShardSpec
  | _, _, [] => []
  | rrOffset, layerId, totalHeads :: rest => shardOf worldSize rrOffset layerId totalHeads ::
      layersOf worldSize (nextOffset worldSize rrOffset totalHeads) (layerId + 1) rest

/-- A layer with fewer heads than ranks has a head, and its last rank is an `int32_t` before it is
reduced. -/
def Fits (worldSize : ℕ) : ℕ → List ℕ → Prop
  | _, [] => True
  | rrOffset, totalHeads :: rest =>
    (totalHeads < worldSize → 0 < totalHeads ∧ rrOffset + totalHeads < 2 ^ 31) ∧
      Fits worldSize (nextOffset worldSize rrOffset totalHeads) rest

theorem shardLayers_eq_ok (hworld : 0 < worldSize) {heads : List ℕ}
    {specs : List LayerShardSpec} :
    shardLayers worldSize rrOffset layerId heads = .ok specs ↔
      Fits worldSize rrOffset heads ∧ layersOf worldSize rrOffset layerId heads = specs := by
  induction heads generalizing rrOffset layerId specs with
  | nil => exact ⟨fun h => ⟨trivial, Except.ok.inj h⟩, fun h => congrArg _ h.2⟩
  | cons totalHeads rest ih =>
    rw [shardLayers, bind_eq_ok]
    constructor
    · rintro ⟨result, hshard, hrest⟩
      obtain ⟨hfits, rfl⟩ := (shard_eq_ok hworld).mp hshard
      obtain ⟨tail, htail, hspecs⟩ := bind_eq_ok.mp hrest
      obtain ⟨hfitsTail, rfl⟩ := ih.mp htail
      exact ⟨⟨hfits, hfitsTail⟩, Except.ok.inj hspecs⟩
    · rintro ⟨⟨hfits, hfitsTail⟩, hspecs⟩
      exact ⟨_, (shard_eq_ok hworld).mpr ⟨hfits, rfl⟩,
        bind_eq_ok.mpr ⟨_, ih.mpr ⟨hfitsTail, rfl⟩, congrArg _ hspecs⟩⟩

/-- A layer is as it should be. -/
structure LayerShardSpec.Shares (worldSize totalHeads : ℕ) (spec : LayerShardSpec) : Prop where
  total : spec.totalHeads = totalHeads
  length_eq : spec.assignedRanks.length = spec.headsPerRank.length
  nodup : spec.assignedRanks.Nodup
  lt : ∀ rank ∈ spec.assignedRanks, rank < worldSize

theorem shares_shardOf (rrOffset layerId : ℕ) (hworld : 0 < worldSize)
    (hfits : totalHeads < worldSize → 0 < totalHeads) :
    (shardOf worldSize rrOffset layerId totalHeads).Shares worldSize totalHeads := by
  unfold shardOf
  split
  · exact ⟨sum_evenShares hworld, by simp, List.nodup_range, fun rank => List.mem_range.mp⟩
  · next hsparse =>
    have hlt := Nat.not_le.mp hsparse
    refine ⟨sum_evenShares (hfits hlt), by simp, nodup_ranks _ (Nat.le_of_lt hlt), fun rank h => ?_⟩
    obtain ⟨j, -, rfl⟩ := List.mem_map.mp h
    exact Nat.mod_lt _ hworld

theorem shares_layersOf (layerId : ℕ) (hworld : 0 < worldSize) {heads : List ℕ}
    (hfits : Fits worldSize rrOffset heads) :
    List.Forall₂ (fun totalHeads spec => spec.Shares worldSize totalHeads) heads
      (layersOf worldSize rrOffset layerId heads) := by
  induction heads generalizing rrOffset layerId with
  | nil => exact .nil
  | cons totalHeads rest ih =>
    exact .cons (shares_shardOf _ _ hworld fun hlt => (hfits.1 hlt).1) (ih _ hfits.2)

theorem isValid_shardOf (hworld : 0 < worldSize)
    (hfits : totalHeads < worldSize → 0 < totalHeads) :
    (shardOf worldSize rrOffset layerId totalHeads).isValid = true := by
  unfold shardOf LayerShardSpec.isValid
  split
  · next hdense =>
    have hpos : 0 < totalHeads / worldSize := Nat.div_pos hdense hworld
    simp only [Bool.and_eq_true, decide_eq_true_eq, List.all_eq_true, length_evenShares,
      List.length_range, and_true]
    refine ⟨List.ne_nil_of_length_pos (by rwa [List.length_range]), fun share hshare => ?_⟩
    obtain ⟨j, -, rfl⟩ := List.mem_map.mp hshare
    exact Nat.add_pos_left hpos _
  · next hsparse =>
    have hpos := hfits (Nat.not_le.mp hsparse)
    rw [evenShares_self]
    simp only [Bool.and_eq_true, decide_eq_true_eq, List.all_eq_true, List.length_map,
      List.length_range, List.length_replicate, and_true]
    refine ⟨List.ne_nil_of_length_pos (by simpa using hpos), fun share hshare => ?_⟩
    rw [List.eq_of_mem_replicate hshare]
    exact Nat.one_pos

theorem layerId_shardOf : (shardOf worldSize rrOffset layerId totalHeads).layerId = layerId := by
  unfold shardOf
  split <;> rfl

theorem valid_layersOf (hworld : 0 < worldSize) {heads : List ℕ}
    (hfits : Fits worldSize rrOffset heads) :
    ∀ spec ∈ (layersOf worldSize rrOffset layerId heads).zipIdx layerId,
      spec.1.isValid = true ∧ spec.1.layerId = spec.2 := by
  induction heads generalizing rrOffset layerId with
  | nil => exact fun spec h => absurd h List.not_mem_nil
  | cons totalHeads rest ih =>
    rw [layersOf, List.zipIdx_cons, List.forall_mem_cons]
    exact ⟨⟨isValid_shardOf hworld fun hlt => (hfits.1 hlt).1, layerId_shardOf⟩, ih hfits.2⟩

theorem computeIluLayerwiseLayout_eq_ok (hworld : 0 < worldSize) {heads : List ℕ}
    {specs : List LayerShardSpec} :
    computeIluLayerwiseLayout heads.length heads worldSize = .ok specs ↔
      Fits worldSize 0 heads ∧ layersOf worldSize 0 0 heads = specs := by
  unfold computeIluLayerwiseLayout
  rw [raiseIf_bind (not_not.mpr rfl), raiseIf_bind (not_not.mpr hworld), bind_eq_ok]
  constructor
  · rintro ⟨_, hlayers, hrest⟩
    obtain ⟨hfits, rfl⟩ := (shardLayers_eq_ok hworld).mp hlayers
    obtain ⟨_, -, hspecs⟩ := bind_eq_ok.mp hrest
    exact ⟨hfits, Except.ok.inj hspecs⟩
  · rintro ⟨hfits, hspecs⟩
    refine ⟨_, (shardLayers_eq_ok hworld).mpr ⟨hfits, rfl⟩, ?_⟩
    exact bind_eq_ok.mpr ⟨(), raiseIf_eq_ok.mpr (not_not.mpr (valid_layersOf hworld hfits)),
      congrArg _ hspecs⟩

/-! ## Balance -/

/-- The heads of the layers that have fewer heads than ranks. -/
def sparseTotal (worldSize : ℕ) (heads : List ℕ) : ℕ := (heads.filter (· < worldSize)).sum

theorem headsForRank_replicate (layerId : ℕ) (ranks : List ℕ) (hnodup : ranks.Nodup) (rank : ℕ) :
    LayerShardSpec.headsForRank ⟨layerId, ranks, List.replicate ranks.length 1⟩ rank =
      ranks.countP (· = rank) := by
  unfold LayerShardSpec.headsForRank
  induction ranks with
  | nil => rfl
  | cons first ranks ih =>
    obtain ⟨hfirst, hrest⟩ := List.nodup_cons.mp hnodup
    simp only [List.length_cons, List.replicate_succ, List.zip_cons_cons, List.find?_cons]
    by_cases heq : first = rank
    · have hnone : ranks.countP (· = rank) = 0 :=
        List.countP_eq_zero.mpr fun r hr h => hfirst (heq ▸ of_decide_eq_true h ▸ hr)
      simp [heq, hnone]
    · rw [List.countP_cons_of_neg (by simpa using heq)]
      simpa [heq] using ih hrest

/-- The ranks of a layer with fewer heads than ranks are the next ones in turn. -/
theorem headsForRank_shardOf (hsparse : totalHeads < worldSize) (start rank : ℕ) :
    (shardOf worldSize (start % worldSize) layerId totalHeads).headsForRank rank =
      (List.range' start totalHeads).countP (· % worldSize = rank) := by
  have hranks : ((List.range totalHeads).map fun j => (start % worldSize + j) % worldSize) =
      (List.range' start totalHeads).map (· % worldSize) := by
    rw [List.range'_eq_map_range, List.map_map]
    exact List.map_congr_left fun j _ => Nat.mod_add_mod _ _ _
  have hnodup := hranks ▸ nodup_ranks (start % worldSize) (Nat.le_of_lt hsparse)
  have hlength : ((List.range' start totalHeads).map (· % worldSize)).length = totalHeads := by
    rw [List.length_map, List.length_range']
  have hcount := headsForRank_replicate layerId _ hnodup rank
  rw [hlength, List.countP_map] at hcount
  rw [shardOf, if_neg (Nat.not_le.mpr hsparse), hranks, evenShares_self]
  exact hcount

/-- The turns of the ranks run through the residues. -/
theorem sparseHeads_layersOf (layerId : ℕ) (hworld : 0 < worldSize) {heads : List ℕ} (start rank : ℕ)
    (hfits : Fits worldSize (start % worldSize) heads) :
    sparseHeads worldSize (layersOf worldSize (start % worldSize) layerId heads) rank =
      (List.range' start (sparseTotal worldSize heads)).countP (· % worldSize = rank) := by
  induction heads generalizing start layerId with
  | nil => rfl
  | cons totalHeads rest ih =>
    have htotal := (shares_shardOf (start % worldSize) layerId hworld
      fun hlt => (hfits.1 hlt).1).total
    have hrest := hfits.2
    unfold sparseHeads sparseTotal
    unfold nextOffset at hrest
    rw [layersOf, nextOffset]
    by_cases hdense : worldSize ≤ totalHeads
    · rw [if_pos hdense] at hrest ⊢
      rw [List.filter_cons_of_neg (by simpa [htotal] using hdense),
        List.filter_cons_of_neg (by simpa using hdense)]
      exact ih _ start hrest
    · have hsparse := Nat.not_le.mp hdense
      rw [if_neg hdense, Nat.mod_add_mod] at hrest
      rw [if_neg hdense, Nat.mod_add_mod,
        List.filter_cons_of_pos (by simpa [htotal] using hsparse),
        List.filter_cons_of_pos (by simpa using hsparse), List.map_cons, List.sum_cons,
        List.sum_cons, ← List.range'_append_1, List.countP_append, headsForRank_shardOf hsparse]
      exact congrArg _ (ih _ (start + totalHeads) hrest)

theorem sparseHeads_le (hworld : 0 < worldSize) {heads : List ℕ} (hfits : Fits worldSize 0 heads)
    {r r' : ℕ} (hr : r < worldSize) (hr' : r' < worldSize) :
    sparseHeads worldSize (layersOf worldSize 0 0 heads) r ≤
      sparseHeads worldSize (layersOf worldSize 0 0 heads) r' + 1 := by
  have hstart : Fits worldSize (0 % worldSize) heads := by rwa [Nat.zero_mod]
  have hcount (rank : ℕ) (hrank : rank < worldSize) :
      sparseHeads worldSize (layersOf worldSize 0 0 heads) rank =
        sparseTotal worldSize heads / worldSize +
          if rank < sparseTotal worldSize heads % worldSize then 1 else 0 := by
    have h := sparseHeads_layersOf 0 hworld 0 rank hstart
    rw [Nat.zero_mod, ← List.range_eq_range'] at h
    exact h.trans (ownedLayers_range hworld ⟨rank, hrank⟩ _)
  rw [hcount r hr, hcount r' hr']
  split <;> omega

/-! ## Bytes -/

theorem sum_modify_add (l : List ℤ) (x : ℤ) {i : ℕ} (hi : i < l.length) :
    (l.modify i (· + x)).sum = l.sum + x := by
  induction l generalizing i with
  | nil => exact absurd hi (Nat.not_lt_zero i)
  | cons y l ih =>
    cases i with
    | zero =>
      rw [List.modify_zero_cons, List.sum_cons, List.sum_cons]
      ring
    | succ i =>
      rw [List.modify_succ_cons, List.sum_cons, List.sum_cons, ih (Nat.lt_of_succ_lt_succ hi),
        add_assoc]

theorem CacheShape.bytes_add (shape : CacheShape) (a b : ℤ) :
    shape.bytes (a + b) = shape.bytes a + shape.bytes b := by
  unfold CacheShape.bytes
  ring

theorem CacheShape.bytes_zero (shape : CacheShape) : shape.bytes 0 = 0 := by
  simp [CacheShape.bytes]

/-- The bytes of the heads of a layer are added. -/
theorem exists_foldlM_addRank (shape : CacheShape) (sharesOfLayer : List (ℕ × ℕ))
    (hlt : ∀ share ∈ sharesOfLayer, share.1 < worldSize) (perRankBytes : List ℤ)
    (hlength : perRankBytes.length = worldSize) :
    ∃ bytes, sharesOfLayer.foldlM (addRank shape worldSize) perRankBytes = .ok bytes ∧
      bytes.length = worldSize ∧
      bytes.sum = perRankBytes.sum + shape.bytes (sharesOfLayer.map Prod.snd).sum := by
  induction sharesOfLayer generalizing perRankBytes with
  | nil => exact ⟨_, rfl, hlength, by simp [shape.bytes_zero]⟩
  | cons share rest ih =>
    have hshare := hlt share List.mem_cons_self
    obtain ⟨bytes, hok, hlen, hsum⟩ := ih (fun s hs => hlt s (List.mem_cons_of_mem _ hs))
      (perRankBytes.modify share.1 (· + shape.bytes share.2)) (by rw [List.length_modify, hlength])
    refine ⟨bytes, ?_, hlen, ?_⟩
    · rw [List.foldlM_cons]
      exact bind_eq_ok.mpr
        ⟨_, bind_eq_ok.mpr ⟨(), raiseIf_eq_ok.mpr (not_not.mpr hshare), rfl⟩, hok⟩
    · rw [hsum, sum_modify_add _ _ (hlength ▸ hshare), List.map_cons, List.sum_cons, Nat.cast_add,
        shape.bytes_add, add_assoc]

theorem exists_foldlM_specs (shape : CacheShape) {heads : List ℕ} {specs : List LayerShardSpec}
    (h : List.Forall₂ (fun totalHeads spec => spec.Shares worldSize totalHeads) heads specs)
    (perRankBytes : List ℤ) (hlength : perRankBytes.length = worldSize) :
    ∃ bytes, specs.foldlM (fun perRankBytes spec =>
        (spec.assignedRanks.zip spec.headsPerRank).foldlM (addRank shape worldSize) perRankBytes)
        perRankBytes = .ok bytes ∧
      bytes.sum = perRankBytes.sum + shape.bytes heads.sum := by
  induction h generalizing perRankBytes with
  | nil => exact ⟨_, rfl, by simp [shape.bytes_zero]⟩
  | @cons totalHeads spec heads specs hspec _ ih =>
    obtain ⟨layerBytes, hok, hlen, hsum⟩ := exists_foldlM_addRank shape
      (spec.assignedRanks.zip spec.headsPerRank)
      (fun share hshare => hspec.lt share.1 (List.of_mem_zip hshare).1) perRankBytes hlength
    obtain ⟨bytes, hbytes, hbytesSum⟩ := ih layerBytes hlen
    refine ⟨bytes, ?_, ?_⟩
    · rw [List.foldlM_cons]
      exact bind_eq_ok.mpr ⟨_, hok, hbytes⟩
    · have htotal : spec.headsPerRank.sum = totalHeads := hspec.total
      rw [hbytesSum, hsum, List.map_snd_zip (Nat.le_of_eq hspec.length_eq.symm), htotal,
        List.sum_cons, Nat.cast_add, shape.bytes_add, add_assoc]

theorem exists_estimate (hworld : 0 < worldSize) (shape : CacheShape) {heads : List ℕ}
    {specs : List LayerShardSpec} (hne : specs ≠ [])
    (h : List.Forall₂ (fun totalHeads spec => spec.Shares worldSize totalHeads) heads specs) :
    ∃ estimate, estimateLayerwiseKvMemory specs shape worldSize = .ok estimate ∧
      estimate.perRankBytes.sum = shape.bytes heads.sum := by
  obtain ⟨bytes, hok, hsum⟩ := exists_foldlM_specs shape h _ List.length_replicate
  rw [List.sum_replicate, nsmul_zero, zero_add] at hsum
  unfold estimateLayerwiseKvMemory
  rw [raiseIf_bind (not_not.mpr (List.length_pos_iff.mpr hne)), raiseIf_bind (not_not.mpr hworld),
    hok]
  exact ⟨_, rfl, hsum⟩

/-! ## Which lists have a layout -/

/-- The ranks of every layer with fewer heads than ranks are `int32_t` before they are reduced. -/
def RanksFit (worldSize : ℕ) (heads : List ℕ) : Prop :=
  ∀ before totalHeads after, heads = before ++ totalHeads :: after → totalHeads < worldSize →
    sparseTotal worldSize before % worldSize + totalHeads < 2 ^ 31

theorem sparseTotal_cons (first : ℕ) (heads : List ℕ) :
    sparseTotal worldSize (first :: heads) =
      sparseTotal worldSize [first] + sparseTotal worldSize heads := by
  unfold sparseTotal
  rw [← List.singleton_append, List.filter_append, List.sum_append]

theorem nextOffset_eq (start first : ℕ) : nextOffset worldSize (start % worldSize) first =
    (start + sparseTotal worldSize [first]) % worldSize := by
  unfold nextOffset sparseTotal
  split
  · next hdense =>
    rw [List.filter_cons_of_neg (by simpa using hdense), List.filter_nil, List.sum_nil,
      Nat.add_zero]
  · next hsparse =>
    rw [List.filter_cons_of_pos (by simpa using hsparse), List.filter_nil, List.sum_singleton,
      Nat.mod_add_mod]

theorem fits_iff (hworld : 0 < worldSize) (start : ℕ) (heads : List ℕ) :
    Fits worldSize (start % worldSize) heads ↔ (∀ totalHeads ∈ heads, 0 < totalHeads) ∧
      ∀ before totalHeads after, heads = before ++ totalHeads :: after → totalHeads < worldSize →
        (start + sparseTotal worldSize before) % worldSize + totalHeads < 2 ^ 31 := by
  induction heads generalizing start with
  | nil =>
    refine iff_of_true trivial ⟨fun h hh => absurd hh List.not_mem_nil, fun before h after heq => ?_⟩
    exact absurd heq.symm (by simp)
  | cons first rest ih =>
    rw [Fits, nextOffset_eq, ih, List.forall_mem_cons]
    constructor
    · rintro ⟨hfirst, hpos, hrest⟩
      refine ⟨⟨?_, hpos⟩, fun before totalHeads after heq hlt => ?_⟩
      · exact (Nat.lt_or_ge first worldSize).elim (fun h => (hfirst h).1) hworld.trans_le
      · cases before with
        | nil =>
          obtain ⟨rfl, -⟩ := List.cons.inj heq
          exact (hfirst hlt).2
        | cons b before =>
          obtain ⟨rfl, htail⟩ := List.cons.inj heq
          rw [sparseTotal_cons, ← Nat.add_assoc]
          exact hrest before totalHeads after htail hlt
    · rintro ⟨⟨hfirst, hpos⟩, hsplit⟩
      refine ⟨fun hlt => ⟨hfirst, hsplit [] first rest rfl hlt⟩, hpos, ?_⟩
      intro before totalHeads after heq hlt
      have h := hsplit (first :: before) totalHeads after (congrArg _ heq) hlt
      rwa [sparseTotal_cons, ← Nat.add_assoc] at h

/-- A list of head counts has a layout, and the layout distributes the heads evenly, exactly when every
layer has a head and the ranks fit. -/
theorem distributes_iff (heads : List ℕ) (worldSize : ℕ) (hworld : 1 ≤ worldSize) :
    (∃ specs, computeIluLayerwiseLayout heads.length heads worldSize = .ok specs ∧
      Distributes worldSize heads specs) ↔
      (∀ totalHeads ∈ heads, 0 < totalHeads) ∧ RanksFit worldSize heads := by
  have hfits := fits_iff hworld 0 heads
  simp only [Nat.zero_mod, Nat.zero_add] at hfits
  refine Iff.trans ?_ hfits
  constructor
  · rintro ⟨specs, hok, -⟩
    exact ((computeIluLayerwiseLayout_eq_ok hworld).mp hok).1
  · intro h
    have hshares := shares_layersOf 0 hworld h
    refine ⟨_, (computeIluLayerwiseLayout_eq_ok hworld).mpr ⟨h, rfl⟩, ?_, ?_, ?_⟩
    · exact hshares.imp fun totalHeads spec hspec =>
        ⟨hspec.total, hspec.length_eq, hspec.nodup, hspec.lt⟩
    · exact fun r hr r' hr' => sparseHeads_le hworld h hr hr'
    · exact fun hne shape => exists_estimate hworld shape hne hshares

theorem distributes_iff_oneHead :
    ∃ specs, computeIluLayerwiseLayout 3 [4, 1, 2] 4 = .ok specs ∧ Distributes 4 [4, 1, 2] specs := by
  refine (distributes_iff [4, 1, 2] 4 (by decide)).mpr ⟨by decide, ?_⟩
  intro before totalHeads after _ hlt
  have hmod := Nat.mod_lt (sparseTotal 4 before) (by decide : 0 < 4)
  omega

/-- A layer without heads divides by zero. -/
theorem not_distributes_of_noHeads : computeIluLayerwiseLayout 1 [0] 1 = .error .divisionByZero ∧
    ¬ ∃ specs, computeIluLayerwiseLayout 1 [0] 1 = .ok specs ∧ Distributes 1 [0] specs :=
  ⟨rfl, fun ⟨_, hok, _⟩ => nomatch hok⟩

end Ikun.KvCapacity
