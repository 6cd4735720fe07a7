import Ikun.Capacity.Layout

/-!
# Which rank owns which layer

Every full-attention layer is owned by one rank of the group, and the worker and the estimator agree
on it. How many layers a rank owns depends on their positions: for an interval that shares a factor
with the size of the group, some ranks own none (`oddLayers_unbalanced`). The counts differ by at
most one when the positions run through the ranks evenly, and then both estimators count the same
blocks; in general the estimator that only knows the number of layers is the larger one.
-/

namespace Ikun.KvCapacity

open Except

/-! ## Blocks that every rank can afford -/

theorem le_foldl_min {α : Type} {l : List α} {p : α → Prop} [DecidablePred p] {f : α → ℤ}
    {start x : ℤ} :
    x ≤ l.foldl (fun common a => if p a then common else min common (f a)) start ↔
      x ≤ start ∧ ∀ a ∈ l, ¬ p a → x ≤ f a := by
  induction l generalizing start with
  | nil => exact ⟨fun h => ⟨h, fun a ha => absurd ha List.not_mem_nil⟩, fun h => h.1⟩
  | cons a l ih =>
    rw [List.foldl_cons, ih, List.forall_mem_cons]
    split
    · next h => exact ⟨fun ⟨hs, hl⟩ => ⟨hs, fun hn => absurd h hn, hl⟩, fun ⟨hs, _, hl⟩ => ⟨hs, hl⟩⟩
    · next h =>
      rw [le_min_iff]
      exact ⟨fun ⟨⟨hs, ha⟩, hl⟩ => ⟨hs, fun _ => ha, hl⟩, fun ⟨hs, ha, hl⟩ => ⟨⟨hs, ha h⟩, hl⟩⟩

variable {g : ℕ} {owned owned' : Fin g → ℤ} {extra available : ℤ}

/-- What every rank with a layer can afford. -/
theorem le_commonBlockCount {x : ℤ} : x ≤ commonBlockCount owned extra available ↔
    x ≤ int64Max ∧ ∀ r, owned r ≠ 0 → x ≤ available.tdiv (owned r + extra) := by
  unfold commonBlockCount
  rw [le_foldl_min]
  exact and_congr_right fun _ => ⟨fun h r => h r (List.mem_finRange r), fun h r _ => h r⟩

/-- At a higher cost fewer blocks are paid for. -/
theorem tdiv_le_tdiv_of_le {cost cost' : ℤ} (havailable : 0 ≤ available) (hcost : 0 < cost)
    (hle : cost ≤ cost') : available.tdiv cost' ≤ available.tdiv cost := by
  have hcost' : 0 < cost' := Int.lt_of_lt_of_le hcost hle
  rw [Int.tdiv_eq_ediv_of_nonneg havailable, Int.tdiv_eq_ediv_of_nonneg havailable]
  have hquot : 0 ≤ available / cost' := Int.ediv_nonneg havailable (Int.le_of_lt hcost')
  rw [Int.le_ediv_iff_mul_le hcost]
  exact (Int.mul_le_mul_of_nonneg_left hle hquot).trans (Int.ediv_mul_le _ (Int.ne_of_gt hcost'))

/-- If some rank has more to hold than any rank in the other group, the group affords less. -/
theorem commonBlockCount_le (r₀ : Fin g) (hextra : 0 < extra) (havailable : 0 ≤ available)
    (howned : ∀ r, 0 ≤ owned' r) (hle : ∀ r, owned' r ≤ owned r₀) (hpos : owned r₀ ≠ 0) :
    commonBlockCount owned extra available ≤ commonBlockCount owned' extra available := by
  have hself := le_commonBlockCount.mp (le_refl (commonBlockCount owned extra available))
  refine le_commonBlockCount.mpr ⟨hself.1, fun r _ => (hself.2 r₀ hpos).trans ?_⟩
  exact tdiv_le_tdiv_of_le havailable (Int.add_pos_of_nonneg_of_pos (howned r) hextra)
    (Int.add_le_add_right (hle r) extra)

/-- A group in which some rank holds a layer counts blocks only within the memory. -/
theorem nonneg_of_pos_commonBlockCount {r : Fin g} (hr : 0 < owned r) (hextra : 0 < extra)
    (hcount : 0 < commonBlockCount owned extra available) : 0 ≤ available := by
  have hle := (le_commonBlockCount.mp (le_refl (commonBlockCount owned extra available))).2 r
    (Int.ne_of_gt hr)
  refine Int.not_lt.mp fun hneg => ?_
  have hdivisor : 0 ≤ owned r + extra := Int.add_nonneg (Int.le_of_lt hr) (Int.le_of_lt hextra)
  have hquot : 0 ≤ (-available).tdiv (owned r + extra) :=
    Int.tdiv_nonneg (Int.neg_nonneg_of_nonpos (Int.le_of_lt hneg)) hdivisor
  rw [Int.neg_tdiv] at hquot
  exact absurd (Int.lt_of_lt_of_le hcount hle) (Int.not_lt.mpr (Int.neg_nonneg.mp hquot))

/-! ## The layers of a rank -/

section layers

variable {args : ModelArgs} {cap : KVCacheCapacity} {layout : LayerwiseSplitLayout}

/-- The indices of the full-attention layers. -/
def fullLayers (args : ModelArgs) (numLayers : ℕ) : List ℕ :=
  (List.range numLayers).filter fun layerId => isFullAttentionLayer args layerId

/-- How many layers of a list a rank owns. -/
def ownedLayers (groupSize rank : ℕ) (layers : List ℕ) : ℕ :=
  layers.countP fun layerId => layerId % groupSize = rank

@[simp] theorem owns_ofRank (r : Fin g) (layerId : ℕ) :
    (LayerwiseSplitLayout.ofRank r).owns layerId = decide (layerId % g = r) := rfl

/-- The layers that the mask of a rank marks. -/
theorem getElem?_buildLayerCacheOwned {numLayers layerId : ℕ} :
    (buildLayerCacheOwned args layout numLayers)[layerId]? = some true ↔
      layerId < numLayers ∧ isFullAttentionLayer args layerId ∧ layout.owns layerId := by
  unfold buildLayerCacheOwned
  rw [List.getElem?_map, Option.map_eq_some_iff]
  constructor
  · intro ⟨l, hl, howned⟩
    obtain ⟨hlt, heq⟩ := List.getElem?_eq_some_iff.mp hl
    rw [List.getElem_range] at heq
    rw [← heq] at howned
    rw [List.length_range] at hlt
    exact ⟨hlt, (Bool.and_eq_true _ _).mp howned⟩
  · intro ⟨hlt, hfull, howns⟩
    exact ⟨layerId, List.getElem?_range hlt, (Bool.and_eq_true _ _).mpr ⟨hfull, howns⟩⟩

/-- The layers that a rank owns are counted by the mask. -/
theorem ownedLayers_fullLayers {numLayers : ℕ} (r : Fin g) :
    ownedLayers g r (fullLayers args numLayers) = (List.range numLayers).countP fun layerId =>
      isFullAttentionLayer args layerId && (LayerwiseSplitLayout.ofRank r).owns layerId := by
  unfold ownedLayers fullLayers
  rw [List.countP_filter]
  refine List.countP_congr fun layerId _ => ?_
  rw [owns_ofRank, Bool.and_comm]

theorem sum_map_ite {α : Type} (l : List α) (p : α → Bool) (c : ℤ) :
    (l.map fun a => if p a then c else 0).sum = l.countP p * c := by
  induction l with
  | nil => exact (Int.zero_mul c).symm
  | cons a l ih =>
    rw [List.map_cons, List.sum_cons, ih]
    cases h : p a with
    | true => rw [if_pos rfl, List.countP_cons_of_pos h]; push_cast; ring
    | false => rw [if_neg Bool.false_ne_true, List.countP_cons_of_neg (by simp [h]), Int.zero_add]

/-- The bytes that a full-attention layer has in a block. -/
def fullLayerBytes (cap : KVCacheCapacity) : ℤ :=
  cap.blockSize * (cap.slotSize + cap.scaleSlotSize +
    if 0 < cap.indexSlotSize then cap.indexSlotSize else 0)

/-- A rank holds as many bytes as it owns layers. -/
theorem ownedBytes_ofRank (r : Fin g) : ownedBytes args cap (.ofRank r)
    = ownedLayers g r (fullLayers args cap.nLayers) * fullLayerBytes cap := by
  have hzip : (List.range cap.nLayers).zip
      (buildLayerCacheOwned args (.ofRank r) cap.nLayers) = (List.range cap.nLayers).map fun l =>
        (l, isFullAttentionLayer args l && (LayerwiseSplitLayout.ofRank r).owns l) := by
    unfold buildLayerCacheOwned
    nth_rewrite 1 [← List.map_id (List.range cap.nLayers)]
    rw [List.zip_map']
    rfl
  rw [ownedLayers_fullLayers, ← sum_map_ite]
  unfold ownedBytes
  rw [hzip, List.map_map]
  refine congrArg List.sum (List.map_congr_left fun l _ => ?_)
  unfold layerBytes fullLayerBytes
  cases hfull : isFullAttentionLayer args l with
  | true => simp [hfull]
  | false => simp [hfull]

/-- The scratch of a block is as large as a layer, when there is a full-attention layer. -/
theorem scratchBytesPerBlock_eq (hfull : 0 < (fullLayers args cap.nLayers).length) :
    scratchBytesPerBlock args cap = fullLayerBytes cap := by
  have hany : anyIndexerLayer args cap = decide (0 < cap.indexSlotSize) := by
    obtain ⟨l, hl⟩ := List.exists_mem_of_length_pos hfull
    obtain ⟨hmem, hl⟩ := List.mem_filter.mp hl
    unfold anyIndexerLayer
    cases hindex : decide (0 < cap.indexSlotSize) with
    | true => exact List.any_eq_true.mpr ⟨l, hmem, by rw [hl]; rfl⟩
    | false =>
      refine List.any_eq_false.mpr fun l _ => ?_
      rw [Bool.and_false]
      exact Bool.false_ne_true
  unfold scratchBytesPerBlock fullLayerBytes
  rw [hany]
  simp only [decide_eq_true_eq]

/-- The rank of the numbered layers. -/
theorem denseOwnedBytes_ofRank {numFull : ℕ} {layerSize : ℤ} (r : Fin g) :
    denseOwnedBytes numFull layerSize (.ofRank r)
      = ownedLayers g r (List.range numFull) * layerSize :=
  sum_map_ite (List.range numFull) _ layerSize

/-! ## Counting residues -/

/-- Every layer has one owner. -/
theorem sum_ownedLayers (hg : 0 < g) (layers : List ℕ) :
    ∑ r : Fin g, ownedLayers g r layers = layers.length := by
  induction layers with
  | nil => exact Finset.sum_const_zero
  | cons l layers ih =>
    have hstep : ∀ r : Fin g, ownedLayers g r (l :: layers)
        = ownedLayers g r layers + if (⟨l % g, Nat.mod_lt l hg⟩ : Fin g) = r then 1 else 0 := by
      intro r
      unfold ownedLayers
      rw [List.countP_cons]
      simp only [decide_eq_true_eq, Fin.ext_iff]
    rw [Finset.sum_congr rfl fun r _ => hstep r, Finset.sum_add_distrib, ih,
      Finset.sum_ite_eq, if_pos (Finset.mem_univ _), List.length_cons]

theorem countP_range_eq_count (p : ℕ → Prop) [DecidablePred p] (n : ℕ) :
    (List.range n).countP (fun i => p i) = n.count p := by
  induction n with
  | zero => rfl
  | succ n ih =>
    rw [List.range_succ, List.countP_append, ih, Nat.count_succ, List.countP_singleton]
    simp only [decide_eq_true_eq]

/-- The numbered layers are spread evenly. -/
theorem ownedLayers_range (hg : 0 < g) (r : Fin g) (n : ℕ) :
    ownedLayers g r (List.range n) = n / g + if (r : ℕ) < n % g then 1 else 0 := by
  have hcount := Nat.count_modEq_card n hg r
  rw [← countP_range_eq_count, Nat.mod_eq_of_lt r.isLt] at hcount
  rw [← hcount]
  refine List.countP_congr fun l _ => ?_
  simp only [decide_eq_true_eq, Nat.ModEq, Nat.mod_eq_of_lt r.isLt]

/-- A rank of an evenly divided group owns at most its share, rounded up. -/
theorem ownedLayers_range_le (hg : 0 < g) (r : Fin g) (n : ℕ) :
    ownedLayers g r (List.range n) ≤ (n + g - 1) / g := by
  rw [ownedLayers_range hg, Nat.le_div_iff_mul_le hg]
  have hdiv := Nat.div_add_mod n g
  rw [Nat.mul_comm] at hdiv
  split
  · next hlt => rw [Nat.add_mul]; omega
  · rw [Nat.add_zero]; omega

/-- The first rank of an evenly divided group owns its share, rounded up. -/
theorem share_le_ownedLayers_range (hg : 0 < g) (n : ℕ) :
    (n + g - 1) / g ≤ ownedLayers g 0 (List.range n) := by
  refine Nat.lt_succ_iff.mp ((Nat.div_lt_iff_lt_mul hg).mpr ?_)
  have hdiv := Nat.div_add_mod n g
  rw [Nat.mul_comm] at hdiv
  have hfirst := ownedLayers_range hg ⟨0, hg⟩ n
  dsimp only at hfirst
  rw [hfirst, Nat.succ_mul]
  cases Nat.eq_zero_or_pos (n % g) with
  | inl hzero => rw [if_neg (Nat.not_lt.mpr (Nat.le_of_eq hzero)), Nat.add_zero]; omega
  | inr hrest =>
    have hmod := Nat.mod_lt n hg
    rw [if_pos hrest, Nat.add_mul]
    omega

/-- Some rank owns at least its share, rounded up. -/
theorem share_le_of_ownedLayers_le (hg : 0 < g) {layers : List ℕ} {most : ℕ}
    (hmost : ∀ r : Fin g, ownedLayers g r layers ≤ most) : (layers.length + g - 1) / g ≤ most := by
  have hsum : layers.length ≤ g * most := by
    rw [← sum_ownedLayers hg layers]
    refine (Finset.sum_le_card_nsmul Finset.univ _ most fun r _ => hmost r).trans_eq ?_
    rw [Finset.card_univ, Fintype.card_fin, smul_eq_mul]
  refine Nat.lt_succ_iff.mp ((Nat.div_lt_iff_lt_mul hg).mpr ?_)
  rw [Nat.succ_mul, Nat.mul_comm most]
  omega

/-- The positions of the layers run through the residues evenly. -/
def EvenlySpread (groupSize : ℕ) (layers : List ℕ) : Prop :=
  ∃ a b : ℕ, a.Coprime groupSize ∧
    ∀ (i : ℕ) (h : i < layers.length), layers[i] ≡ a * i + b [MOD groupSize]

/-- Layers that are spread evenly are owned as the numbered ones are, up to the order of the
ranks. -/
theorem EvenlySpread.exists_perm {layers : List ℕ} (hg : 0 < g) (h : EvenlySpread g layers) :
    ∃ σ : Equiv.Perm (Fin g), ∀ r,
      ownedLayers g (σ r) layers = ownedLayers g r (List.range layers.length) := by
  obtain ⟨a, b, hcoprime, hpos⟩ := h
  let step : Fin g → Fin g := fun r => ⟨(a * r + b) % g, Nat.mod_lt _ hg⟩
  have hcancel : ∀ i j : ℕ, a * i + b ≡ a * j + b [MOD g] → i ≡ j [MOD g] := fun i j hij =>
    Nat.ModEq.cancel_left_of_coprime (Nat.coprime_comm.mp hcoprime) (Nat.ModEq.add_right_cancel' b hij)
  have hinj : Function.Injective step := by
    intro r r' hrr
    have hmod := hcancel r r' (Fin.val_eq_of_eq hrr)
    unfold Nat.ModEq at hmod
    rw [Nat.mod_eq_of_lt r.isLt, Nat.mod_eq_of_lt r'.isLt] at hmod
    exact Fin.ext hmod
  refine ⟨Equiv.ofBijective step (Finite.injective_iff_bijective.mp hinj), fun r => ?_⟩
  have hget : ∀ (i : ℕ) (hi : i < layers.length), layers.getD i 0 = layers[i] := fun i hi => by
    rw [List.getD_eq_getElem?_getD, List.getElem?_eq_getElem hi, Option.getD_some]
  have hlayers : layers = (List.range layers.length).map fun i => layers.getD i 0 := by
    refine List.ext_getElem (by simp) fun i hi _ => ?_
    rw [List.getElem_map, List.getElem_range, hget i hi]
  unfold ownedLayers
  nth_rewrite 1 [hlayers]
  rw [List.countP_map]
  refine List.countP_congr fun i hi => ?_
  have hi' : i < layers.length := List.mem_range.mp hi
  have hmod := hpos i hi'
  simp only [Function.comp_apply, decide_eq_true_eq, Equiv.ofBijective_apply, step, hget i hi']
  constructor
  · intro heq
    have hstep := hcancel i r (hmod.symm.trans heq)
    exact Eq.trans hstep (Nat.mod_eq_of_lt r.isLt)
  · intro heq
    have hir : i ≡ r [MOD g] := Eq.trans heq (Nat.mod_eq_of_lt r.isLt).symm
    exact hmod.trans ((hir.mul_left a).add_right b)

/-- No rank owns more than its share of the layers, rounded up. -/
def WithinShare (groupSize : ℕ) (layers : List ℕ) : Prop :=
  ∀ r : Fin groupSize, ownedLayers groupSize r layers ≤ (layers.length + groupSize - 1) / groupSize

theorem EvenlySpread.withinShare {layers : List ℕ} (hg : 0 < g) (h : EvenlySpread g layers) :
    WithinShare g layers := by
  obtain ⟨σ, hσ⟩ := h.exists_perm hg
  intro r
  have hr := hσ (σ.symm r)
  rw [Equiv.apply_symm_apply] at hr
  rw [hr]
  exact ownedLayers_range_le hg _ _

/-! ## The two estimators -/

/-- A rank with a layer is charged. -/
theorem exists_charged (hfull : 0 < (fullLayers args cap.nLayers).length) (hg : 0 < g)
    (hsize : 0 < fullLayerBytes cap) :
    ∃ r : Fin g, ownedBytes args cap (.ofRank r) ≠ 0 ∧
      ∀ r' : Fin g, ownedBytes args cap (.ofRank r') ≤ ownedBytes args cap (.ofRank r) := by
  obtain ⟨r, -, hmax⟩ := Finset.exists_max_image Finset.univ
    (fun r : Fin g => ownedLayers g r (fullLayers args cap.nLayers)) ⟨⟨0, hg⟩, Finset.mem_univ _⟩
  replace hmax := fun r' => hmax r' (Finset.mem_univ r')
  refine ⟨r, ?_, fun r' => ?_⟩
  · rw [ownedBytes_ofRank]
    intro hzero
    have hnone : ownedLayers g r (fullLayers args cap.nLayers) = 0 := by
      cases Int.mul_eq_zero.mp hzero with
      | inl h => exact Int.ofNat_eq_zero.mp h
      | inr h => exact absurd h (Int.ne_of_gt hsize)
    have hsum := sum_ownedLayers hg (fullLayers args cap.nLayers)
    have hall : ∀ r' ∈ (Finset.univ : Finset (Fin g)), ownedLayers g r' (fullLayers args cap.nLayers) = 0 :=
      fun r' _ => Nat.le_zero.mp (hnone ▸ hmax r')
    rw [Finset.sum_eq_zero hall] at hsum
    exact absurd hsum (Nat.ne_of_lt hfull)
  · rw [ownedBytes_ofRank, ownedBytes_ofRank]
    exact Int.mul_le_mul_of_nonneg_right (Int.ofNat_le.mpr (hmax r')) (Int.le_of_lt hsize)

/-- What the estimator returns that knows the layers. -/
theorem layerwiseSplitBlockCount_eq_ok {additional blocks : ℤ} :
    layerwiseSplitBlockCount args cap g available additional = .ok blocks ↔
      0 < scratchBytesPerBlock args cap ∧ blocks ≠ int64Max ∧ 0 < blocks ∧
        commonBlockCount (fun r : Fin g => ownedBytes args cap (.ofRank r))
          (scratchBytesPerBlock args cap + additional) available = blocks := by
  unfold layerwiseSplitBlockCount
  constructor
  · intro h
    obtain ⟨_, hscratch, h⟩ := bind_eq_ok.mp h
    obtain ⟨_, hsome, h⟩ := bind_eq_ok.mp h
    obtain ⟨_, hone, h⟩ := bind_eq_ok.mp h
    have hblocks := Except.ok.inj h
    exact ⟨check_eq_ok.mp hscratch, hblocks ▸ check_eq_ok.mp hsome, hblocks ▸ check_eq_ok.mp hone,
      hblocks⟩
  · intro ⟨hscratch, hsome, hone, hblocks⟩
    rw [← hblocks] at hsome hone
    refine bind_eq_ok.mpr ⟨(), check_eq_ok.mpr hscratch, bind_eq_ok.mpr ⟨(), check_eq_ok.mpr hsome,
      bind_eq_ok.mpr ⟨(), check_eq_ok.mpr hone, ?_⟩⟩⟩
    exact congrArg Except.ok hblocks

/-- What the estimator returns that knows the number of layers, unless it is out of range. -/
theorem estimateLayerwiseSplitBlockCount_eq_ok {numFull : ℕ} {layerSize scratch : ℤ} (hg : 0 < g)
    (hfull : 0 < numFull) (hsize : 0 < layerSize) (hscratch : 0 < scratch)
    (hrange : commonBlockCount (fun r : Fin g => denseOwnedBytes numFull layerSize (.ofRank r))
      scratch available ≠ int64Max) :
    estimateLayerwiseSplitBlockCount g numFull layerSize scratch available
      = .ok (commonBlockCount (fun r : Fin g => denseOwnedBytes numFull layerSize (.ofRank r))
          scratch available) := by
  unfold estimateLayerwiseSplitBlockCount
  refine bind_eq_ok.mpr ⟨(), check_eq_ok.mpr hg, bind_eq_ok.mpr ⟨(), check_eq_ok.mpr hfull,
    bind_eq_ok.mpr ⟨(), check_eq_ok.mpr hsize, bind_eq_ok.mpr ⟨(), check_eq_ok.mpr hscratch, ?_⟩⟩⟩⟩
  dsimp only
  rw [if_neg hrange]
  rfl

/-- A count in which some rank holds a layer is in range. -/
theorem commonBlockCount_lt {r : Fin g} (havailable : available ≤ int64Max) (hr : 0 < owned r)
    (hextra : 0 < extra) : commonBlockCount owned extra available < int64Max := by
  have hle := (le_commonBlockCount.mp (le_refl (commonBlockCount owned extra available))).2 r
    (Int.ne_of_gt hr)
  refine Int.lt_of_le_of_lt hle ?_
  have hmax : (0 : ℤ) < int64Max := by decide
  cases lt_or_ge 0 available with
  | inl hpos =>
    rw [Int.tdiv_eq_ediv_of_nonneg (Int.le_of_lt hpos)]
    exact (Int.ediv_lt_self_of_pos_of_ne_one hpos (by omega)).trans_le havailable
  | inr hneg =>
    have hquot : 0 ≤ (-available).tdiv (owned r + extra) := Int.tdiv_nonneg (by omega) (by omega)
    rw [Int.neg_tdiv] at hquot
    omega

/-- The first of the numbered layers is charged to the first rank. -/
theorem denseOwnedBytes_pos {numFull : ℕ} {layerSize : ℤ} (hg : 0 < g) (hfull : 0 < numFull)
    (hsize : 0 < layerSize) : 0 < denseOwnedBytes numFull layerSize (.ofRank ⟨0, hg⟩) := by
  have hfirst : 0 < ownedLayers g 0 (List.range numFull) :=
    List.countP_pos_iff.mpr ⟨0, List.mem_range.mpr hfull, decide_eq_true (Nat.zero_mod g)⟩
  rw [denseOwnedBytes_ofRank]
  exact Int.mul_pos (Int.natCast_pos.mpr hfirst) hsize

/-- The numbered layers pay for a number of blocks that is in range. -/
theorem commonBlockCount_dense_lt {numFull : ℕ} {layerSize scratch : ℤ} (hg : 0 < g)
    (hfull : 0 < numFull) (hsize : 0 < layerSize) (hscratch : 0 < scratch)
    (havailable : available ≤ int64Max) :
    commonBlockCount (fun r : Fin g => denseOwnedBytes numFull layerSize (.ofRank r)) scratch
      available < int64Max :=
  commonBlockCount_lt (r := ⟨0, hg⟩) havailable (denseOwnedBytes_pos hg hfull hsize) hscratch

/-- The numbered layers pay for at least as many blocks as the layers of the model, and for the same
number if no rank owns more than its share. -/
theorem commonBlockCount_layers {scratch : ℤ} (hg : 0 < g)
    (hfull : 0 < (fullLayers args cap.nLayers).length) (hsize : 0 < fullLayerBytes cap)
    (hscratch : 0 < scratch) (havailable : 0 ≤ available) :
    commonBlockCount (fun r : Fin g => ownedBytes args cap (.ofRank r)) scratch available
        ≤ commonBlockCount (fun r : Fin g => denseOwnedBytes (fullLayers args cap.nLayers).length
            (fullLayerBytes cap) (.ofRank r)) scratch available ∧
      (WithinShare g (fullLayers args cap.nLayers) →
        commonBlockCount (fun r : Fin g => denseOwnedBytes (fullLayers args cap.nLayers).length
            (fullLayerBytes cap) (.ofRank r)) scratch available
          ≤ commonBlockCount (fun r : Fin g => ownedBytes args cap (.ofRank r)) scratch available) := by
  constructor
  · obtain ⟨r₀, hcharged, hmost⟩ := exists_charged hfull hg hsize
    have hmost' : ∀ r : Fin g, ownedLayers g r (fullLayers args cap.nLayers)
        ≤ ownedLayers g r₀ (fullLayers args cap.nLayers) := fun r => by
      have hle := hmost r
      rw [ownedBytes_ofRank, ownedBytes_ofRank] at hle
      exact Int.ofNat_le.mp (Int.le_of_mul_le_mul_right hle hsize)
    refine commonBlockCount_le r₀ hscratch havailable (fun r => ?_) (fun r => ?_) hcharged
    · rw [denseOwnedBytes_ofRank]
      exact Int.mul_nonneg (Int.natCast_nonneg _) (Int.le_of_lt hsize)
    · rw [denseOwnedBytes_ofRank, ownedBytes_ofRank]
      refine Int.mul_le_mul_of_nonneg_right (Int.ofNat_le.mpr ?_) (Int.le_of_lt hsize)
      exact (ownedLayers_range_le hg r _).trans (share_le_of_ownedLayers_le hg hmost')
  · intro hshare
    -- the first rank of the numbered layers holds its share, and no rank of the others holds more
    refine commonBlockCount_le ⟨0, hg⟩ hscratch havailable (fun r => ?_) (fun r => ?_)
      (Int.ne_of_gt (denseOwnedBytes_pos hg hfull hsize))
    · rw [ownedBytes_ofRank]
      exact Int.mul_nonneg (Int.natCast_nonneg _) (Int.le_of_lt hsize)
    · rw [denseOwnedBytes_ofRank, ownedBytes_ofRank]
      refine Int.mul_le_mul_of_nonneg_right (Int.ofNat_le.mpr ?_) (Int.le_of_lt hsize)
      exact (hshare r).trans (share_le_ownedLayers_range hg _)

/-- A model with a charged rank has a full-attention layer. -/
theorem length_fullLayers_pos {scratch : ℤ}
    (hsome : commonBlockCount (fun r : Fin g => ownedBytes args cap (.ofRank r)) scratch available
      ≠ int64Max) : 0 < (fullLayers args cap.nLayers).length := by
  refine Nat.pos_of_ne_zero fun hnone => hsome ?_
  have hzero : ∀ r : Fin g, ownedBytes args cap (.ofRank r) = 0 := fun r => by
    rw [ownedBytes_ofRank, List.length_eq_zero_iff.mp hnone]
    exact Int.zero_mul _
  exact le_antisymm (le_commonBlockCount.mp le_rfl).1
    (le_commonBlockCount.mpr ⟨le_rfl, fun r hr => absurd (hzero r) hr⟩)

/-- A charged rank holds bytes. -/
theorem ownedBytes_pos {r : Fin g} (hsize : 0 < fullLayerBytes cap)
    (hcharged : ownedBytes args cap (.ofRank r) ≠ 0) : 0 < ownedBytes args cap (.ofRank r) := by
  rw [ownedBytes_ofRank] at hcharged ⊢
  exact lt_of_le_of_ne (Int.mul_nonneg (Int.natCast_nonneg _) (Int.le_of_lt hsize)) hcharged.symm

/-- The estimator that knows the number of layers counts at least as many blocks. -/
theorem layerwise_le_dense {blocks : ℤ} (hg : 0 < g) (havailable : available ≤ int64Max)
    (hok : layerwiseSplitBlockCount args cap g available 0 = .ok blocks) :
    ∃ dense, estimateLayerwiseSplitBlockCount g (fullLayers args cap.nLayers).length
        (fullLayerBytes cap) (scratchBytesPerBlock args cap) available = .ok dense ∧
      blocks ≤ dense ∧ (WithinShare g (fullLayers args cap.nLayers) → dense = blocks) := by
  obtain ⟨hscratch, hsome, hpos, hcommon⟩ := layerwiseSplitBlockCount_eq_ok.mp hok
  rw [Int.add_zero] at hcommon
  have hfull := length_fullLayers_pos (hcommon ▸ hsome)
  have hsize : 0 < fullLayerBytes cap := scratchBytesPerBlock_eq hfull ▸ hscratch
  obtain ⟨r₀, hcharged, -⟩ := exists_charged hfull hg hsize
  have hnonneg : 0 ≤ available :=
    nonneg_of_pos_commonBlockCount (r := r₀) (ownedBytes_pos hsize hcharged) hscratch (hcommon ▸ hpos)
  have hrange := commonBlockCount_dense_lt hg hfull hsize hscratch havailable
  obtain ⟨hle, hge⟩ := commonBlockCount_layers (g := g) hg hfull hsize hscratch hnonneg
  rw [hcommon] at hle hge
  exact ⟨_, estimateLayerwiseSplitBlockCount_eq_ok hg hfull hsize hscratch (Int.ne_of_lt hrange), hle,
    fun hshare => le_antisymm (hge hshare) hle⟩

/-- If no rank owns more than its share, both estimators count the same blocks. -/
theorem dense_eq_layerwise {blocks : ℤ} (havailable : available ≤ int64Max)
    (hshare : WithinShare g (fullLayers args cap.nLayers)) (hblocks : 0 < blocks)
    (hok : estimateLayerwiseSplitBlockCount g (fullLayers args cap.nLayers).length
      (fullLayerBytes cap) (scratchBytesPerBlock args cap) available = .ok blocks) :
    layerwiseSplitBlockCount args cap g available 0 = .ok blocks := by
  obtain ⟨_, hg, hrest⟩ := bind_eq_ok.mp hok
  obtain ⟨_, hfull, hrest⟩ := bind_eq_ok.mp hrest
  obtain ⟨_, hsize, hrest⟩ := bind_eq_ok.mp hrest
  obtain ⟨_, hscratch, -⟩ := bind_eq_ok.mp hrest
  replace hg : 0 < g := check_eq_ok.mp hg
  replace hfull := check_eq_ok.mp hfull
  replace hsize := check_eq_ok.mp hsize
  replace hscratch := check_eq_ok.mp hscratch
  have hrange := commonBlockCount_dense_lt hg hfull hsize hscratch havailable
  rw [estimateLayerwiseSplitBlockCount_eq_ok hg hfull hsize hscratch (Int.ne_of_lt hrange)] at hok
  have hvalue := Except.ok.inj hok
  have hnonneg : 0 ≤ available :=
    nonneg_of_pos_commonBlockCount (r := ⟨0, hg⟩) (denseOwnedBytes_pos hg hfull hsize) hscratch
      (hvalue ▸ hblocks)
  obtain ⟨hle, hge⟩ := commonBlockCount_layers (g := g) hg hfull hsize hscratch hnonneg
  have hsame := le_antisymm hle (hge hshare)
  rw [hvalue] at hsame
  refine layerwiseSplitBlockCount_eq_ok.mpr ⟨hscratch, ?_, hblocks, ?_⟩
  · rw [← hvalue]
    exact Int.ne_of_lt hrange
  · rw [Int.add_zero]
    exact hsame

/-- A layer that is a full-attention layer for the estimator is one for the worker. -/
theorem isFullAttentionLayer_worker {layerId numLayers : ℕ}
    (hfull : isFullAttentionLayer args layerId) :
    isFullAttentionLayer { nLayers := numLayers, layerTypes := args.layerTypes } layerId := by
  unfold isFullAttentionLayer at hfull ⊢
  dsimp only
  cases htype : args.layerTypes[layerId]? with
  | some layerType =>
    rw [htype] at hfull
    exact hfull
  | none => rfl

/-- The worker marks the full-attention layers that the estimator charges to its rank. -/
theorem worker_agrees {numLayers : ℕ} (hg : 0 < g) (hlayers : 0 < numLayers) (r : Fin g) :
    ∃ mask, workerComputeLayerCacheOwned args.layerTypes g r numLayers = .ok mask ∧
      ∀ l < numLayers, isFullAttentionLayer args l →
        (mask[l]? = some true ↔ (buildLayerCacheOwned args (.ofRank r) numLayers)[l]? = some true) := by
  unfold workerComputeLayerCacheOwned
  have hchecks : ∀ {mask : List Bool} {rest : Except CheckFailure (List Bool)}, rest = .ok mask →
      (do
        check (1 ≤ g) .positiveSplitSize
        check (0 < numLayers) .positiveNumLayers
        rest) = .ok mask := fun hrest =>
    bind_eq_ok.mpr ⟨(), check_eq_ok.mpr hg, bind_eq_ok.mpr ⟨(), check_eq_ok.mpr hlayers, hrest⟩⟩
  cases Nat.lt_or_ge 1 g with
  | inl hsplit =>
    refine ⟨_, hchecks (dif_neg (Nat.not_le.mpr hsplit)), fun l hl hfull => ?_⟩
    rw [getElem?_buildLayerCacheOwned, getElem?_buildLayerCacheOwned]
    have hrank : ((r : ℕ) % g) = r := Nat.mod_eq_of_lt r.isLt
    simp only [owns_ofRank, hrank]
    exact ⟨fun h => ⟨hl, hfull, h.2.2⟩, fun h => ⟨hl, isFullAttentionLayer_worker hfull, h.2.2⟩⟩
  | inr hone =>
    refine ⟨_, hchecks (dif_pos hone), fun l hl hfull => ?_⟩
    rw [getElem?_buildLayerCacheOwned, owns_ofRank]
    have hg₁ : g = 1 := by omega
    have hrank : l % g = r := by
      have hmod := Nat.mod_lt l hg
      have hr := r.isLt
      omega
    rw [List.getElem?_replicate_of_lt hl]
    exact ⟨fun _ => ⟨hl, hfull, decide_eq_true hrank⟩, fun _ => rfl⟩

end layers

/-! ## The partition -/

/-- Layerwise split gives every full-attention layer one owner, on which the worker and the
estimator agree. If the layers are spread evenly, the ranks own the same numbers of them up to one
and no rank owns more than its share; and whenever none does, both estimators count the same
blocks. -/
theorem layerwise_split_ownership (args : ModelArgs) (cap : KVCacheCapacity) (g : ℕ) (hg : 1 ≤ g) :
    (∀ l < cap.nLayers, isFullAttentionLayer args l →
      ∃! r : Fin g, (buildLayerCacheOwned args (.ofRank r) cap.nLayers)[l]? = some true) ∧
    (0 < cap.nLayers → ∀ r : Fin g, ∃ mask,
      workerComputeLayerCacheOwned args.layerTypes g r cap.nLayers = .ok mask ∧
        ∀ l < cap.nLayers, isFullAttentionLayer args l → (mask[l]? = some true ↔
          (buildLayerCacheOwned args (.ofRank r) cap.nLayers)[l]? = some true)) ∧
    (EvenlySpread g (fullLayers args cap.nLayers) →
      WithinShare g (fullLayers args cap.nLayers) ∧ ∀ r r' : Fin g,
        (buildLayerCacheOwned args (.ofRank r) cap.nLayers).count true
            ≤ (buildLayerCacheOwned args (.ofRank r') cap.nLayers).count true + 1 ∧
          (buildLayerCacheOwned args (.ofRank r) cap.nLayers).count true
            ≤ ((fullLayers args cap.nLayers).length + g - 1) / g) ∧
    ∀ available ≤ int64Max, ∀ blocks,
      (layerwiseSplitBlockCount args cap g available 0 = .ok blocks →
        ∃ dense, estimateLayerwiseSplitBlockCount g (fullLayers args cap.nLayers).length
            (fullLayerBytes cap) (scratchBytesPerBlock args cap) available = .ok dense ∧
          blocks ≤ dense ∧ (WithinShare g (fullLayers args cap.nLayers) → dense = blocks)) ∧
      (WithinShare g (fullLayers args cap.nLayers) → 0 < blocks →
        estimateLayerwiseSplitBlockCount g (fullLayers args cap.nLayers).length
            (fullLayerBytes cap) (scratchBytesPerBlock args cap) available = .ok blocks →
          layerwiseSplitBlockCount args cap g available 0 = .ok blocks) := by
  refine ⟨fun l hl hfull => ⟨⟨l % g, Nat.mod_lt l hg⟩, ?_, fun r hr => ?_⟩,
    fun hlayers r => worker_agrees hg hlayers r,
    fun heven => ⟨heven.withinShare hg, fun r r' => ?_⟩,
    fun available havailable blocks => ⟨fun hok => layerwise_le_dense hg havailable hok,
      fun hshare hblocks hok => dense_eq_layerwise havailable hshare hblocks hok⟩⟩
  · exact getElem?_buildLayerCacheOwned.mpr ⟨hl, hfull, decide_eq_true rfl⟩
  · have howns := (getElem?_buildLayerCacheOwned.mp hr).2.2
    exact Fin.ext (of_decide_eq_true howns).symm
  · obtain ⟨σ, hσ⟩ := heven.exists_perm hg
    have hcount : ∀ r : Fin g, (buildLayerCacheOwned args (.ofRank r) cap.nLayers).count true
        = ownedLayers g (σ.symm r) (List.range (fullLayers args cap.nLayers).length) := by
      intro r
      rw [← hσ, Equiv.apply_symm_apply, ownedLayers_fullLayers]
      unfold buildLayerCacheOwned List.count
      rw [List.countP_map]
      refine List.countP_congr fun l _ => ?_
      simp only [Function.comp_apply, beq_iff_eq]
    rw [hcount, hcount]
    refine ⟨?_, ownedLayers_range_le hg _ _⟩
    rw [ownedLayers_range hg, ownedLayers_range hg]
    split <;> split <;> omega

/-- Five full-attention layers on two ranks: the first rank owns three of them. -/
theorem layerwise_split_ownership_five :
    fullLayers {} 5 = [0, 1, 2, 3, 4] ∧
      (buildLayerCacheOwned {} (.ofRank (0 : Fin 2)) 5).count true
        ≤ (buildLayerCacheOwned {} (.ofRank (1 : Fin 2)) 5).count true + 1 ∧
      (buildLayerCacheOwned {} (.ofRank (0 : Fin 2)) 5).count true
        ≤ ((fullLayers {} 5).length + 2 - 1) / 2 :=
  ⟨by decide +kernel, ((layerwise_split_ownership {} { nLayers := 5 } 2 (by decide)).2.2.1
    ⟨1, 0, Nat.coprime_one_left 2, by decide⟩).2 0 1⟩

/-- A model whose full-attention layers are at the odd indices. -/
def oddLayers : ModelArgs :=
  { nLayers := 4
    layerTypes := ["linear_attention", "full_attention", "linear_attention", "full_attention"] }

/-- Of two ranks, one owns all full-attention layers at the odd indices, and the estimators differ. -/
theorem oddLayers_unbalanced :
    ¬ (buildLayerCacheOwned oddLayers (.ofRank (1 : Fin 2)) 4).count true
        ≤ (buildLayerCacheOwned oddLayers (.ofRank (0 : Fin 2)) 4).count true + 1 ∧
      layerwiseSplitBlockCount oddLayers { nLayers := 4, blockSize := 1, slotSize := 1 } 2 12 0
        = .ok 4 ∧
      estimateLayerwiseSplitBlockCount 2 2 1 1 12 = .ok 6 := by
  decide +kernel

end Ikun.KvCapacity
