import Mathlib.Algebra.Order.BigOperators.Group.List
import Mathlib.Algebra.Module.Pi
import Mathlib.Algebra.Order.Field.Basic
import Mathlib.Data.List.GetD
import Ikun.Lib.Except
import Ikun.Moe.Grouping
import Ikun.Moe.Tiers

/-!
# The mixture of experts

What a MoE layer is for: a token gets the sum over its chosen experts of the routing weight times the MLP
of the expert (`mixture`). The choice is one of `top_k` largest logits, and the weights are the softmax
over the chosen logits (`IsRouting`).

`Documented` says what the extension modules compute by their documentation. With such modules the router
of every tier is a routing (`route_isRouting`).
-/

namespace Ikun.Moe

variable {K : Type} [Field K] {H I m n : ℕ}

instance : Zero (ExpertWeights K H I) := ⟨⟨0, 0⟩⟩

/-- The MLP of an expert: `w2 @ (silu(w1 @ x) * (w3 @ x))`. -/
def expertMlp (silu : K → K) (expert : ExpertWeights K H I) (x : Fin H → K) : Fin H → K := fun h =>
  ∑ j, expert.w2 h j * siluMul silu (fun row => ∑ c, x c * expert.w13 row c) j

/-- The sum over the chosen experts of routing weight times expert MLP. -/
def mixture (silu : K → K) (experts : List (ExpertWeights K H I)) (x : Fin H → K)
    (row : List (ℤ × K)) : Fin H → K :=
  (row.map fun p => p.2 • expertMlp silu (experts.getD p.1.toNat 0) x).sum

/-- All ids are ids of experts. -/
def InRange (numExperts : ℕ) (row : List (ℤ × K)) : Prop := ∀ p ∈ row, 0 ≤ p.1 ∧ p.1 < numExperts

/-- The experts without weights add nothing. -/
theorem expertMlp_zero (silu : K → K) (x : Fin H → K) :
    expertMlp silu (0 : ExpertWeights K H I) x = 0 := by
  funext h
  exact Finset.sum_eq_zero fun j _ => zero_mul _

theorem mixture_cons (silu : K → K) (experts : List (ExpertWeights K H I)) (x : Fin H → K)
    (p : ℤ × K) (row : List (ℤ × K)) :
    mixture silu experts x (p :: row) =
      p.2 • expertMlp silu (experts.getD p.1.toNat 0) x + mixture silu experts x row := rfl

/-- Pairs without a weight may be left out. -/
theorem mixture_filter [DecidableEq K] (silu : K → K) (experts : List (ExpertWeights K H I))
    (x : Fin H → K) (row : List (ℤ × K)) :
    mixture silu experts x (row.filter fun p => p.2 ≠ 0) = mixture silu experts x row := by
  induction row with
  | nil => rfl
  | cons p row ih =>
    rw [List.filter_cons, mixture_cons]
    split
    · rw [mixture_cons, ih]
    · next h =>
      have hzero : p.2 = 0 := by
        simpa using h
      rw [hzero, zero_smul, zero_add, ih]

/-! ## The extension modules -/

section documented

variable [LinearOrder K]

/-- Positions of `k` largest values. -/
structure IsTopK (values : List K) (k : ℕ) (ids : List ℕ) : Prop where
  length : ids.length = k
  nodup : ids.Nodup
  lt : ∀ id ∈ ids, id < values.length
  le : ∀ id ∈ ids, ∀ id' < values.length, id' ∉ ids → values.getD id' 0 ≤ values.getD id 0

/-- Some `k` experts with the largest logits, with the softmax over these logits. -/
def IsRouting (exp : K → K) (k : ℕ) (logits : List K) (row : List (ℤ × K)) : Prop :=
  ∃ ids, IsTopK logits k ids ∧ row = ids.map fun id : ℕ =>
    ((id : ℤ), exp (logits.getD id 0) / (ids.map fun id => exp (logits.getD id 0)).sum)

/-- The softmax over the logits of all experts. -/
def routerSoftmax (exp : K → K) (logits : List K) : List K :=
  logits.map fun l => exp l / (logits.map exp).sum

/-- What the fused kernels document: the softmax over all experts, `k` of its largest values, and these
renormalised. -/
def IsFusedTopk (exp : K → K) (k : ℕ) (logits : List K) (row : List (ℤ × K)) : Prop :=
  ∃ ids, IsTopK (routerSoftmax exp logits) k ids ∧ row = ids.map fun id : ℕ =>
    ((id : ℤ), (routerSoftmax exp logits).getD id 0 /
      (ids.map fun id => (routerSoftmax exp logits).getD id 0).sum)

/-- The expert of each row, for rows that are grouped by expert. -/
def labels (counts : List ℤ) : List ℕ :=
  counts.zipIdx.flatMap fun (count, e) => List.replicate count.toNat e

/-- The modules compute their documented functions. -/
structure Documented (exp silu : K → K) (modules : Modules K) : Prop where
  topk : ∀ logits k, k ≤ logits.length → IsTopK logits k (modules.topk logits k)
  fusedMoeForward : ∀ {H I : ℕ} (hidden : List (Fin H → K)) (logits : List (List K))
    (experts : List (ExpertWeights K H I)) (k : ℕ), k ≤ experts.length →
    (∀ row ∈ logits, row.length = experts.length) → hidden.length = logits.length →
    ∃ rows, List.Forall₂ (IsFusedTopk exp k) logits rows ∧
      modules.fusedMoeForward hidden logits experts k experts.length =
        List.zipWith (mixture silu experts) hidden rows
  moeFusedTopk : ∀ logits k, (∀ row ∈ logits, k ≤ row.length) →
    List.Forall₂ (IsFusedTopk exp k) logits (modules.moeFusedTopk logits k)
  moeTopkSoftmax : ∀ logits k, (∀ row ∈ logits, k ≤ row.length) →
    List.Forall₂ (IsFusedTopk exp k) logits (modules.moeTopkSoftmax logits k)
  xllmMoeComputeIndex : ∀ (ids : List ℤ) (numExperts : ℕ), (∀ id ∈ ids, 0 ≤ id ∧ id < numExperts) →
    GroupingPermutation ids numExperts (modules.xllmMoeComputeIndex ids numExperts)
  corexMoeComputeIndex : ∀ (ids : List ℤ) (numExperts : ℕ), (∀ id ∈ ids, 0 ≤ id ∧ id < numExperts) →
    GroupingPermutation ids numExperts (modules.corexMoeComputeIndex ids numExperts)
  moeCombineResult : ∀ {n : ℕ} (rows : List (Fin n → K)) (ws : List K),
    modules.moeCombineResult rows ws = weightedSum rows ws
  moeGroupGemm : ∀ {m n : ℕ} (rows : List (Fin m → K)) (weights : List (Fin n → Fin m → K))
    (counts : List ℤ), counts.length = weights.length → (labels counts).length = rows.length →
    modules.moeGroupGemm rows weights counts =
      List.zipWith (fun row e i => ∑ j, row j * weights.getD e 0 i j) rows (labels counts)
  bridgeLinear : ∀ {m n : ℕ} (x : List (Fin m → K)) (weight : Fin n → Fin m → K),
    modules.bridgeLinear x weight = linear x weight
  siluAndMul : ∀ {n : ℕ} (gateUp : Fin (n + n) → K), modules.siluAndMul gateUp = siluMul silu gateUp

/-! ## The router -/

variable [IsStrictOrderedRing K] {exp silu : K → K}

theorem sum_exp_pos (hpos : ∀ c, 0 < exp c) {logits : List K} (hne : logits ≠ []) :
    0 < (logits.map exp).sum := by
  cases logits with
  | nil => exact absurd rfl hne
  | cons l logits =>
    have hrest : 0 ≤ (logits.map exp).sum := by
      refine List.sum_nonneg fun a ha => ?_
      obtain ⟨b, -, rfl⟩ := List.mem_map.mp ha
      exact (hpos b).le
    rw [List.map_cons, List.sum_cons]
    exact add_pos_of_pos_of_nonneg (hpos l) hrest

omit [LinearOrder K] [IsStrictOrderedRing K] in
theorem getD_routerSoftmax {logits : List K} {id : ℕ} (hid : id < logits.length) :
    (routerSoftmax exp logits).getD id 0 = exp (logits.getD id 0) / (logits.map exp).sum := by
  unfold routerSoftmax
  rw [List.getD_eq_getElem _ _ (by rwa [List.length_map]), List.getElem_map,
    List.getD_eq_getElem _ _ hid]

/-- The renormalised softmax over all experts is the softmax over the chosen ones. -/
theorem IsFusedTopk.isRouting (hpos : ∀ c, 0 < exp c) (hmono : StrictMono exp) {k : ℕ}
    {logits : List K} {row : List (ℤ × K)} (h : IsFusedTopk exp k logits row) :
    IsRouting exp k logits row := by
  obtain ⟨ids, htop, rfl⟩ := h
  have hlt : ∀ id ∈ ids, id < logits.length := fun id hid => by
    have h := htop.lt id hid
    rwa [routerSoftmax, List.length_map] at h
  refine ⟨ids, ⟨htop.length, htop.nodup, hlt, ?_⟩, ?_⟩
  · intro id hid id' hid' hout
    have hle := htop.le id hid id' (by rwa [routerSoftmax, List.length_map]) hout
    have hne : logits ≠ [] := List.ne_nil_of_length_pos ((Nat.zero_le _).trans_lt hid')
    rw [getD_routerSoftmax hid', getD_routerSoftmax (hlt id hid),
      div_le_div_iff_of_pos_right (sum_exp_pos hpos hne)] at hle
    exact hmono.le_iff_le.mp hle
  · refine List.map_congr_left fun id hid => ?_
    have hne : logits ≠ [] := List.ne_nil_of_length_pos ((Nat.zero_le _).trans_lt (hlt id hid))
    have hsum : (ids.map fun id => (routerSoftmax exp logits).getD id 0).sum =
        (ids.map fun id => exp (logits.getD id 0)).sum / (logits.map exp).sum := by
      rw [List.map_congr_left fun id hid => getD_routerSoftmax (hlt id hid)]
      simp only [div_eq_mul_inv, List.sum_map_mul_right]
    rw [hsum, getD_routerSoftmax (hlt id hid),
      div_div_div_cancel_right₀ (sum_exp_pos hpos hne).ne']

omit [IsStrictOrderedRing K] in
theorem IsRouting.inRange {k : ℕ} {logits : List K} {row : List (ℤ × K)}
    (h : IsRouting exp k logits row) : InRange logits.length row := by
  obtain ⟨ids, htop, rfl⟩ := h
  intro p hp
  obtain ⟨id, hid, rfl⟩ := List.mem_map.mp hp
  exact ⟨Int.natCast_nonneg id, Int.ofNat_lt.mpr (htop.lt id hid)⟩

/-- The router of every tier gives a routing. -/
theorem route_isRouting {modules : Modules K} (hdoc : Documented exp silu modules)
    (hpos : ∀ c, 0 < exp c) (hmono : StrictMono exp) (flags : TierFlags) {topK : ℕ}
    {logits : List (List K)} (hlen : ∀ row ∈ logits, topK ≤ row.length) :
    List.Forall₂ (IsRouting exp topK) logits (route exp modules flags topK logits) := by
  unfold route
  split
  · exact (hdoc.moeFusedTopk logits topK hlen).imp fun _ _ h => h.isRouting hpos hmono
  · split
    · exact (hdoc.moeTopkSoftmax logits topK hlen).imp fun _ _ h => h.isRouting hpos hmono
    · refine List.forall₂_map_right_iff.mpr (List.forall₂_same.mpr fun row hrow => ?_)
      refine ⟨_, hdoc.topk row topK (hlen row hrow), ?_⟩
      unfold topkSoftmax
      dsimp only
      rw [List.map_map]
      rfl

end documented

end Ikun.Moe
