import Ikun.Moe.Mixture

/-!
# Modules that compute their documented functions

One choice for everything that the tiers take from outside, with a stable sort as `torch.topk`. It shows
that `Documented` can be met, for every exponential and every activation (`standardModules_documented`).
-/

namespace Ikun.Moe

open CountingSort

variable {K : Type} [Field K] [LinearOrder K]

/-- The first `k` positions in the order of falling values. -/
def sortTopk (values : List K) (k : ℕ) : List ℕ :=
  ((List.range values.length).mergeSort fun i j => values.getD j 0 ≤ values.getD i 0).take k

theorem isTopK_sortTopk {values : List K} {k : ℕ} (hk : k ≤ values.length) :
    IsTopK values k (sortTopk values k) := by
  let le := fun i j : ℕ => decide (values.getD j 0 ≤ values.getD i 0)
  have hperm : ((List.range values.length).mergeSort le).Perm (List.range values.length) :=
    List.mergeSort_perm _ _
  have hsorted : ((List.range values.length).mergeSort le).Pairwise fun i j => le i j = true := by
    refine List.pairwise_mergeSort ?_ ?_ _
    · intro a b c hab hbc
      exact decide_eq_true ((of_decide_eq_true hbc).trans (of_decide_eq_true hab))
    · intro a b
      rw [Bool.or_eq_true, decide_eq_true_eq, decide_eq_true_eq]
      exact le_total _ _
  have hmem : ∀ id ∈ sortTopk values k, id < values.length := fun id hid =>
    List.mem_range.mp (hperm.mem_iff.mp (List.mem_of_mem_take hid))
  refine ⟨?_, ?_, hmem, ?_⟩
  · unfold sortTopk
    rw [List.length_take, hperm.length_eq, List.length_range, min_eq_left hk]
  · exact (hperm.nodup_iff.mpr List.nodup_range).sublist (List.take_sublist k _)
  · intro id hid id' hid' hout
    have hdrop : id' ∈ ((List.range values.length).mergeSort le).drop k := by
      have hall := hperm.mem_iff.mpr (List.mem_range.mpr hid')
      rw [← List.take_append_drop k ((List.range values.length).mergeSort le)] at hall
      exact (List.mem_append.mp hall).resolve_left hout
    rw [← List.take_append_drop k ((List.range values.length).mergeSort le)] at hsorted
    exact of_decide_eq_true ((List.pairwise_append.mp hsorted).2.2 id hid id' hdrop)

/-- The documented function of the fused kernels. -/
def fusedTopk (exp : K → K) (k : ℕ) (logits : List K) : List (ℤ × K) :=
  let probs := routerSoftmax exp logits
  let ids := sortTopk probs k
  ids.map fun id : ℕ => ((id : ℤ), probs.getD id 0 / (ids.map fun id => probs.getD id 0).sum)

theorem isFusedTopk_fusedTopk (exp : K → K) {k : ℕ} {logits : List (List K)}
    (h : ∀ row ∈ logits, k ≤ row.length) :
    List.Forall₂ (IsFusedTopk exp k) logits (logits.map (fusedTopk exp k)) := by
  refine List.forall₂_map_right_iff.mpr (List.forall₂_same.mpr fun row hrow => ?_)
  refine ⟨_, isTopK_sortTopk ?_, rfl⟩
  rw [routerSoftmax, List.length_map]
  exact h row hrow

/-- The grouping of a serial walk over the ids. -/
def serialIndex (ids : List ℤ) (numExperts : ℕ) : MoeIndex :=
  let keys := ids.map Int.toNat
  { srcDst := (List.range keys.length).map fun i => (serialPos keys i : ℤ)
    dstSrc := (List.range keys.length).map fun p =>
      ((List.range keys.length).findIdx fun i => serialPos keys i = p : ℤ)
    expertSizes := (List.range numExperts).map fun e : ℕ => (keys.count e : ℤ) }

theorem groupingPermutation_serialIndex {ids : List ℤ} {numExperts : ℕ}
    (h : ∀ id ∈ ids, 0 ≤ id ∧ id < numExperts) :
    GroupingPermutation ids numExperts (serialIndex ids numExperts) := by
  have hids : (ids.map Int.toNat).map Nat.cast = ids := by
    rw [List.map_map]
    exact (List.map_congr_left fun id hid => Int.toNat_of_nonneg (h id hid).1).trans (List.map_id ids)
  have hkeys : ∀ k ∈ ids.map Int.toNat, k < numExperts := by
    intro k hk
    obtain ⟨id, hid, rfl⟩ := List.mem_map.mp hk
    have hrange := h id hid
    omega
  have hplacement := placement_serialPos (ids.map Int.toNat)
  have hgroup : GroupingPermutation ((ids.map Int.toNat).map Nat.cast) numExperts
      (serialIndex ids numExperts) := by
    refine groupingPermutation_of_placement hkeys hplacement rfl (by simp [serialIndex])
      (by simp [serialIndex]) (fun i hi => ?_) fun i hi => ?_
    · have hfind : (List.range (ids.map Int.toNat).length).findIdx (fun i' =>
          decide (serialPos (ids.map Int.toNat) i' = serialPos (ids.map Int.toNat) i)) = i := by
        rw [List.findIdx_eq (by simpa using hi)]
        refine ⟨by simp, fun j hj => ?_⟩
        rw [List.getElem_range, decide_eq_false_iff_not]
        intro heq
        exact absurd (hplacement.injective j i (hj.trans hi) hi heq) hj.ne
      unfold serialIndex
      dsimp only
      rw [List.getElem?_map, List.getElem?_range (hplacement.pos_lt hi), Option.map_some, hfind]
    · unfold serialIndex
      dsimp only
      rw [List.getElem?_map, List.getElem?_range hi, Option.map_some]
  rwa [hids] at hgroup

/-- Modules that do what they document. -/
def standardModules (exp silu : K → K) : Modules K where
  topk := sortTopk
  fusedMoeForward hidden logits experts k _ :=
    List.zipWith (mixture silu experts) hidden (logits.map (fusedTopk exp k))
  moeFusedTopk logits k := logits.map (fusedTopk exp k)
  moeTopkSoftmax logits k := logits.map (fusedTopk exp k)
  xllmMoeComputeIndex := serialIndex
  corexMoeComputeIndex := serialIndex
  moeCombineResult := weightedSum
  moeGroupGemm rows weights counts :=
    List.zipWith (fun row e i => ∑ j, row j * weights.getD e 0 i j) rows (labels counts)
  bridgeLinear := linear
  siluAndMul := siluMul silu

theorem standardModules_documented (exp silu : K → K) :
    Documented exp silu (standardModules exp silu) where
  topk _ _ hk := isTopK_sortTopk hk
  fusedMoeForward _ logits _ k hk hlogits _ :=
    ⟨logits.map (fusedTopk exp k),
      isFusedTopk_fusedTopk exp fun row hrow => hk.trans (hlogits row hrow).ge, rfl⟩
  moeFusedTopk _ _ h := isFusedTopk_fusedTopk exp h
  moeTopkSoftmax _ _ h := isFusedTopk_fusedTopk exp h
  xllmMoeComputeIndex _ _ h := groupingPermutation_serialIndex h
  corexMoeComputeIndex _ _ h := groupingPermutation_serialIndex h
  moeCombineResult _ _ := rfl
  moeGroupGemm _ _ _ _ _ := rfl
  bridgeLinear _ _ := rfl
  siluAndMul _ := rfl

end Ikun.Moe
