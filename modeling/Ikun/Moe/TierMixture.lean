import Ikun.Moe.Assignments

/-!
# Every tier computes the mixture

The paths for several tokens go through the assignments expert by expert: sorted (`severalTokens_eq`),
with three ways to sort them and two ways to multiply, or with a search for each expert
(`naiveBatchedMoeForward_eq`). For ids in range they return the mixture. Without expert parallelism this
is so for every setting of the flags (`pureTorchExperts_off`).
-/

namespace Ikun.Moe

variable {K : Type} [Field K] {H I : ℕ}

/-! ## Sorting by expert -/

/-- The elements group by group. -/
theorem flatMap_filter_perm {α : Type} (key : α → ℤ) (l : List α) (n : ℕ) :
    ((List.range n).flatMap fun e : ℕ => l.filter (key · = e)).Perm
      (l.filter fun a => 0 ≤ key a ∧ key a < n) := by
  induction n with
  | zero =>
    rw [List.filter_eq_nil_iff.mpr fun a _ => by simp]
    exact .refl _
  | succ n ih =>
    have hbelow : (l.filter fun a => 0 ≤ key a ∧ key a < (n + 1 : ℕ)).filter (key · < n) =
        l.filter fun a => 0 ≤ key a ∧ key a < n := by
      rw [List.filter_filter]
      refine List.filter_congr fun a _ => ?_
      rw [← Bool.decide_and, decide_eq_decide]
      omega
    have hlast : (l.filter fun a => 0 ≤ key a ∧ key a < (n + 1 : ℕ)).filter
        (fun a => !decide (key a < n)) =
        l.filter (key · = n) := by
      rw [List.filter_filter]
      refine List.filter_congr fun a _ => ?_
      rw [← decide_not, ← Bool.decide_and, decide_eq_decide]
      omega
    have hsplit := List.filter_append_perm (fun a => decide (key a < n))
      (l.filter fun a => 0 ≤ key a ∧ key a < (n + 1 : ℕ))
    rw [hbelow, hlast] at hsplit
    rw [List.range_succ, List.flatMap_append, List.flatMap_singleton]
    exact (ih.append_right _).trans hsplit

theorem flatMap_filter_perm_of_range {α : Type} {key : α → ℤ} {l : List α} {n : ℕ}
    (h : ∀ a ∈ l, 0 ≤ key a ∧ key a < n) :
    ((List.range n).flatMap fun e : ℕ => l.filter (key · = e)).Perm l := by
  have hperm := flatMap_filter_perm key l n
  rwa [List.filter_eq_self.mpr fun a ha => decide_eq_true (h a ha)] at hperm

theorem labels_map_range (f : ℕ → ℤ) (n : ℕ) :
    labels ((List.range n).map f) = (List.range n).flatMap fun e => List.replicate (f e).toNat e := by
  have hzip : ((List.range n).map f).zipIdx = (List.range n).map fun e => (f e, e) := by
    refine List.ext_getElem (by simp) fun i _ _ => by simp
  unfold labels
  rw [hzip, List.flatMap_map]

/-- An order of the ids that groups them by expert, with the number of each expert. -/
structure GroupsIds (ids : List ℤ) (numExperts : ℕ) (order counts : List ℤ) : Prop where
  perm : order.Perm ((List.range ids.length).map fun i : ℕ => (i : ℤ))
  length : counts.length = numExperts
  labels : order.map (fun i => ids.getD i.toNat 0) = (labels counts).map Nat.cast

theorem GroupsIds.of_index {ids : List ℤ} {numExperts : ℕ} {index : MoeIndex}
    (h : GroupingPermutation ids numExperts index) :
    GroupsIds ids numExperts index.dstSrc index.expertSizes := by
  have hget : ∀ i ∈ index.dstSrc, ids[i.toNat]? = some (ids.getD i.toNat 0) := by
    intro i hi
    obtain ⟨j, hj, rfl⟩ := List.mem_map.mp (h.dstSrc.mem_iff.mp hi)
    have hlt : j < ids.length := List.mem_range.mp hj
    rw [Int.toNat_natCast, List.getElem?_eq_getElem hlt, List.getD_eq_getElem _ _ hlt]
  refine ⟨h.dstSrc, by rw [h.expertSizes, List.length_map, List.length_range], ?_⟩
  refine List.map_injective_iff.mpr (Option.some_injective ℤ) ?_
  rw [List.map_map, h.expertSizes, labels_map_range, List.map_flatMap, List.map_flatMap]
  refine Eq.trans ?_ (h.grouped.trans ?_)
  · exact List.map_congr_left fun i hi => (hget i hi).symm
  · refine congrArg (fun f => (List.range numExperts).flatMap f) (funext fun e => ?_)
    rw [Int.toNat_natCast, List.map_replicate, List.map_replicate]

theorem labels_perm {ids : List ℤ} {n : ℕ} (h : ∀ id ∈ ids, 0 ≤ id ∧ id < (n : ℤ)) :
    ((labels ((List.range n).map fun e : ℕ => (ids.count (e : ℤ) : ℤ))).map
      (Nat.cast : ℕ → ℤ)).Perm ids := by
  have hperm : ((List.range n).flatMap fun e : ℕ => ids.filter (id · = (e : ℤ))).Perm ids :=
    flatMap_filter_perm_of_range h
  rw [labels_map_range, List.map_flatMap]
  refine (List.Perm.of_eq ?_).trans hperm
  refine congrArg (fun f => (List.range n).flatMap f) (funext fun e => ?_)
  rw [Int.toNat_natCast, List.map_replicate, ← List.filter_beq]
  rfl

theorem labels_pairwise (f : ℕ → ℤ) (n : ℕ) :
    ((labels ((List.range n).map f)).map (Nat.cast : ℕ → ℤ)).Pairwise (· ≤ ·) := by
  rw [labels_map_range, List.pairwise_map, List.pairwise_flatMap]
  constructor
  · intro e _
    exact List.pairwise_replicate.mpr (.inr le_rfl)
  · refine List.pairwise_lt_range.imp fun {e e'} hlt x hx y hy => ?_
    rw [List.eq_of_mem_replicate hx, List.eq_of_mem_replicate hy]
    exact Int.ofNat_le.mpr hlt.le

/-- `bincount`, for ids in range. -/
theorem bincount_eq {ids : List ℤ} {n : ℕ} (h : ∀ id ∈ ids, 0 ≤ id ∧ id < (n : ℤ)) :
    bincount ids n = .ok ((List.range n).map fun e : ℕ => (ids.count (e : ℤ) : ℤ)) := by
  have hsize : ∀ l : List ℤ, (∀ id ∈ l, 0 ≤ id ∧ id < (n : ℤ)) →
      l.foldl (fun size id => max size (id.toNat + 1)) n = n := by
    intro l
    induction l with
    | nil => exact fun _ => rfl
    | cons id l ih =>
      intro hl
      have hid := hl id List.mem_cons_self
      rw [List.foldl_cons, max_eq_left (by omega)]
      exact ih fun id' hid' => hl id' (List.mem_cons_of_mem id hid')
  unfold bincount
  rw [if_neg, hsize ids h]
  intro hany
  obtain ⟨id, hid, hneg⟩ := List.any_eq_true.mp hany
  exact absurd (of_decide_eq_true hneg) (not_lt.mpr (h id hid).1)

theorem argsort_perm (ids : List ℤ) :
    (argsort ids).Perm ((List.range ids.length).map fun i : ℕ => (i : ℤ)) :=
  (List.mergeSort_perm _ _).map _

/-- The stable sort groups the ids. -/
theorem GroupsIds.of_argsort {ids : List ℤ} {n : ℕ} (h : ∀ id ∈ ids, 0 ≤ id ∧ id < (n : ℤ)) :
    GroupsIds ids n (argsort ids) ((List.range n).map fun e : ℕ => (ids.count (e : ℤ) : ℤ)) := by
  refine ⟨argsort_perm ids, by rw [List.length_map, List.length_range], ?_⟩
  have hall : (List.range ids.length).map (fun i : ℕ => ids.getD i 0) = ids :=
    List.ext_getElem (by simp) fun i _ hi => by
      rw [List.getElem_map, List.getElem_range, List.getD_eq_getElem _ _ hi]
  have hperm : ((argsort ids).map fun i => ids.getD i.toNat 0).Perm ids := by
    have hmap := (argsort_perm ids).map fun i => ids.getD i.toNat 0
    rw [List.map_map] at hmap
    exact hmap.trans (List.Perm.of_eq hall)
  have hsorted : ((argsort ids).map fun i => ids.getD i.toNat 0).Pairwise (· ≤ ·) := by
    unfold argsort
    rw [List.map_map, List.pairwise_map]
    refine (List.pairwise_mergeSort ?_ ?_ (List.range ids.length)).imp fun {i j} hij => ?_
    · intro a b c hab hbc
      exact decide_eq_true ((of_decide_eq_true hab).trans (of_decide_eq_true hbc))
    · intro a b
      rw [Bool.or_eq_true, decide_eq_true_eq, decide_eq_true_eq]
      exact le_total _ _
    · exact of_decide_eq_true hij
  exact (hperm.trans (labels_perm h).symm).eq_of_pairwise (fun a b _ _ hab hba => le_antisymm hab hba)
    hsorted (labels_pairwise _ n)

/-! ## The sorted paths -/

/-- The assignments expert by expert. -/
structure Grouped (numExperts : ℕ) (flat grouped : List (ℕ × (ℤ × K))) (counts : List ℤ) : Prop where
  perm : grouped.Perm flat
  length : counts.length = numExperts
  labels : grouped.map (fun a => a.2.1) = (labels counts).map Nat.cast

/-- The position of a token with its weight, as the sorted arrays have it. -/
def tokenWeight (a : ℕ × (ℤ × K)) : ℕ × K := (a.1, a.2.2)

/-- Indexing the assignments with an order that groups their ids. -/
theorem gather_eq {flat : List (ℕ × (ℤ × K))} {n : ℕ} {order counts : List ℤ}
    (h : GroupsIds (flat.map fun a => a.2.1) n order counts) :
    ∃ grouped, Grouped n flat grouped counts ∧
      (order.mapM fun i => do
        let a ← getItem flat i
        return (a.1, a.2.2)) = Except.ok (grouped.map tokenWeight) := by
  have hmem : ∀ i ∈ order, 0 ≤ i ∧ i < (flat.length : ℤ) := by
    intro i hi
    obtain ⟨j, hj, rfl⟩ := List.mem_map.mp (h.perm.mem_iff.mp hi)
    rw [List.length_map] at hj
    exact ⟨Int.natCast_nonneg j, Int.ofNat_lt.mpr (List.mem_range.mp hj)⟩
  have hall : (List.range flat.length).map (fun i : ℕ => flat.getD i (0, 0, 0)) = flat :=
    List.ext_getElem (by simp) fun i _ hi => by
      rw [List.getElem_map, List.getElem_range, List.getD_eq_getElem _ _ hi]
  refine ⟨order.map fun i => flat.getD i.toNat (0, 0, 0), ⟨?_, h.length, ?_⟩, ?_⟩
  · have hmap := h.perm.map fun i => flat.getD i.toNat (0, 0, 0)
    rw [List.map_map, List.length_map] at hmap
    exact hmap.trans (List.Perm.of_eq hall)
  · rw [← h.labels, List.map_map]
    refine List.map_congr_left fun i hi => ?_
    exact (List.getD_map flat (0, 0, 0) (fun a : ℕ × (ℤ × K) => a.2.1)).symm
  · rw [List.map_map]
    refine Except.mapM_eq_ok fun i hi => ?_
    rw [getItem_eq (0, 0, 0) (hmem i hi).1 (hmem i hi).2]
    rfl

section tiers

variable [LinearOrder K] {exp silu : K → K} {modules : Modules K}

/-- All three ways to sort group the assignments by expert. -/
theorem sortAssignments_eq (hdoc : Documented exp silu modules) (flags : TierFlags) {n : ℕ}
    {flat : List (ℕ × (ℤ × K))} (h : ∀ a ∈ flat, 0 ≤ a.2.1 ∧ a.2.1 < n) :
    ∃ grouped counts, Grouped n flat grouped counts ∧
      sortAssignments modules flags n flat = .ok (grouped.map tokenWeight, counts) := by
  have hids : ∀ id ∈ flat.map fun a => a.2.1, 0 ≤ id ∧ id < (n : ℤ) := by
    intro id hid
    obtain ⟨a, ha, rfl⟩ := List.mem_map.mp hid
    exact h a ha
  unfold sortAssignments
  dsimp only
  split
  · obtain ⟨grouped, hgrouped, heq⟩ :=
      gather_eq (GroupsIds.of_index (hdoc.xllmMoeComputeIndex _ n hids))
    refine ⟨grouped, _, hgrouped, ?_⟩
    rw [heq]
    rfl
  · split
    · obtain ⟨grouped, hgrouped, heq⟩ :=
        gather_eq (GroupsIds.of_index (hdoc.corexMoeComputeIndex _ n hids))
      refine ⟨grouped, _, hgrouped, ?_⟩
      rw [heq]
      rfl
    · obtain ⟨grouped, hgrouped, heq⟩ := gather_eq (GroupsIds.of_argsort hids)
      refine ⟨grouped, _, hgrouped, ?_⟩
      rw [heq, bincount_eq hids]
      rfl

/-- The grouped products give each assignment its contribution. -/
theorem groupedGemm_eq (hdoc : Documented exp silu modules) {experts : List (ExpertWeights K H I)}
    {hidden : List (Fin H → K)} {flat grouped : List (ℕ × (ℤ × K))} {counts : List ℤ}
    (h : Grouped experts.length flat grouped counts) (htoken : ∀ a ∈ grouped, a.1 < hidden.length) :
    groupedGemm silu modules experts hidden (grouped.map tokenWeight) counts =
      .ok (indexAdd 0 (grouped.map (contribution silu experts hidden))) := by
  have hlabels : labels counts = grouped.map fun a => a.2.1.toNat := by
    have hmap := congrArg (List.map Int.toNat) h.labels
    rw [List.map_map, List.map_map] at hmap
    rw [show (fun a : ℕ × (ℤ × K) => a.2.1.toNat) = Int.toNat ∘ fun a => a.2.1 from rfl, hmap]
    exact (List.map_id'' (fun e => Int.toNat_natCast e) _).symm
  have hgather : ((grouped.map tokenWeight).mapM fun a => getItem hidden a.1) =
      Except.ok (grouped.map fun a => hidden.getD a.1 0) := by
    rw [mapM_getItem 0 fun p hp => ?_, List.map_map]
    · rfl
    · obtain ⟨a, ha, rfl⟩ := List.mem_map.mp hp
      exact ⟨Int.natCast_nonneg _, Int.ofNat_lt.mpr (htoken a ha)⟩
  have hgemm : ∀ {m n : ℕ} (row : ℕ × (ℤ × K) → Fin m → K) (weights : List (Fin n → Fin m → K)),
      weights.length = experts.length → modules.moeGroupGemm (grouped.map row) weights counts =
        grouped.map fun a i => ∑ j, row a j * weights.getD a.2.1.toNat 0 i j := by
    intro m n row weights hlength
    rw [hdoc.moeGroupGemm _ _ _ (by rw [h.length, hlength])
      (by rw [hlabels, List.length_map, List.length_map]), hlabels, List.zipWith_map, List.zipWith_self]
  have hw13 : ∀ e, (experts.map ExpertWeights.w13).getD e 0 = (experts.getD e 0).w13 := fun e =>
    List.getD_map experts 0 ExpertWeights.w13
  have hw2 : ∀ e, (experts.map ExpertWeights.w2).getD e 0 = (experts.getD e 0).w2 := fun e =>
    List.getD_map experts 0 ExpertWeights.w2
  unfold groupedGemm
  rw [hgather]
  refine congrArg Except.ok ?_
  rw [hgemm _ _ (List.length_map _), List.map_map, hgemm _ _ (List.length_map _), List.zip_map',
    List.map_map]
  refine congrArg _ (List.map_congr_left fun a _ => ?_)
  simp only [Function.comp_apply, hw13, hw2, tokenWeight, contribution]
  refine congrArg (fun v => (a.1, a.2.2 • v)) (funext fun i => ?_)
  exact Finset.sum_congr rfl fun j _ => mul_comm _ _

omit [LinearOrder K] in
/-- The rows of one expert in a loop over the experts. -/
theorem expertRows_eq (silu : K → K) (experts : List (ExpertWeights K H I))
    (hidden : List (Fin H → K)) {slice : List (ℕ × (ℤ × K))} {eid : ℕ}
    (hids : ∀ a ∈ slice, a.2.1 = (eid : ℤ)) :
    ((slice.zip ((slice.map fun a => hidden.getD a.1 0).map (expertMlp silu (experts.getD eid 0)))).map
      fun p => (p.1.1, p.1.2.2 • p.2)) = slice.map (contribution silu experts hidden) := by
  have hzip := List.zip_map' (f := fun a : ℕ × (ℤ × K) => a)
    (g := fun a => expertMlp silu (experts.getD eid 0) (hidden.getD a.1 0)) (l := slice)
  rw [List.map_id'] at hzip
  rw [List.map_map, Function.comp_def, hzip, List.map_map]
  refine List.map_congr_left fun a ha => ?_
  unfold contribution
  rw [hids a ha]
  rfl

omit [LinearOrder K] in
/-- The tokens of some assignments. -/
theorem mapM_tokens {hidden : List (Fin H → K)} {slice : List (ℕ × (ℤ × K))}
    (htoken : ∀ a ∈ slice, a.1 < hidden.length) :
    (slice.mapM fun a => getItem hidden a.1) = Except.ok (slice.map fun a => hidden.getD a.1 0) :=
  mapM_getItem 0 fun a ha => ⟨Int.natCast_nonneg _, Int.ofNat_lt.mpr (htoken a ha)⟩

/-- The fallback adds the assignments from its position on. The induction is on the counts that are
left. -/
theorem expertLoop_eq (hdoc : Documented exp silu modules) (flags : TierFlags)
    {experts : List (ExpertWeights K H I)} {hidden : List (Fin H → K)} {grouped : List (ℕ × (ℤ × K))}
    (htoken : ∀ a ∈ grouped, a.1 < hidden.length) (counts : List ℕ) (eid start : ℕ)
    (out : ℕ → Fin H → K) (hlen : eid + counts.length ≤ experts.length)
    (hlabels : (grouped.drop start).map (fun a => a.2.1) =
      ((counts.zipIdx eid).flatMap fun (count, e) => List.replicate count e).map Nat.cast) :
    expertLoop silu modules flags experts hidden (grouped.map tokenWeight) eid start counts out =
      .ok (indexAdd out ((grouped.drop start).map (contribution silu experts hidden))) := by
  induction counts generalizing eid start out with
  | nil =>
    rw [List.map_eq_nil_iff.mp hlabels]
    rfl
  | cons count counts ih =>
    rw [List.zipIdx_cons, List.flatMap_cons, List.map_append, List.map_replicate] at hlabels
    rw [List.length_cons] at hlen
    -- the assignments of this expert, and those of the experts behind it
    obtain ⟨slice, rest, hsplit, hslice, hrest⟩ := List.map_eq_append_iff.mp hlabels
    have hcount : slice.length = count := by
      rw [← List.length_map (f := fun a : ℕ × (ℤ × K) => a.2.1), hslice, List.length_replicate]
    have hdrop : grouped.drop (start + count) = rest := by
      rw [← List.drop_drop, hsplit, List.drop_left' hcount]
    have hnext := ih (eid + 1) (start + count)
      (indexAdd out (slice.map (contribution silu experts hidden))) (by omega) (hdrop ▸ hrest)
    rw [hdrop, ← indexAdd_append, ← List.map_append, ← hsplit] at hnext
    unfold expertLoop
    split
    · next hzero =>
      subst hzero
      rw [List.eq_nil_of_length_eq_zero hcount] at hnext
      exact hnext
    · have hids : ∀ a ∈ slice, a.2.1 = (eid : ℤ) := fun a ha =>
        List.eq_of_mem_replicate (hslice ▸ List.mem_map_of_mem ha)
      have hmem : ∀ a ∈ slice, a.1 < hidden.length := fun a ha =>
        htoken a (List.mem_of_mem_drop (hsplit ▸ List.mem_append_left rest ha))
      have hsorted : ((grouped.map tokenWeight).drop start).take count = slice.map tokenWeight := by
        rw [← List.map_drop, hsplit, ← List.map_take, List.take_left' hcount]
      have htokens : ((slice.map tokenWeight).mapM fun a => getItem hidden a.1) =
          Except.ok (slice.map fun a => hidden.getD a.1 0) := by
        rw [List.mapM_map]
        exact mapM_tokens hmem
      have hrows : ((slice.map tokenWeight).zip
          ((slice.map fun a => hidden.getD a.1 0).map (expertMlp silu (experts.getD eid 0)))).map
            (fun p => (p.1.1, p.1.2 • p.2)) = slice.map (contribution silu experts hidden) := by
        rw [← expertRows_eq silu experts hidden hids, List.zip_map_left, List.map_map]
        rfl
      simp only [fastLinear_eq hdoc]
      rw [hsorted, htokens, getItem_eq 0 (Int.natCast_nonneg eid) (by omega), Int.toNat_natCast]
      refine Eq.trans ?_ hnext
      rw [← hrows, ← linear_siluMul]
      rfl

theorem severalTokens_eq (hdoc : Documented exp silu modules) (layer : MoeLayer K H I)
    {hidden : List (Fin H → K)} {topk : List (List (ℤ × K))} (hlen : hidden.length = topk.length)
    (hrange : ∀ row ∈ topk, InRange layer.experts.length row) :
    severalTokens silu modules layer hidden topk =
      .ok (List.zipWith (mixture silu layer.experts) hidden topk) := by
  have hids : ∀ a ∈ assignments topk, 0 ≤ a.2.1 ∧ a.2.1 < layer.experts.length := fun a ha =>
    (mem_assignments hrange ha).2
  obtain ⟨grouped, counts, hgrouped, hsort⟩ := sortAssignments_eq hdoc layer.flags hids
  have htoken : ∀ a ∈ grouped, a.1 < hidden.length := fun a ha =>
    hlen ▸ (mem_assignments hrange (hgrouped.perm.mem_iff.mp ha)).1
  have hloop : expertLoop silu modules layer.flags layer.experts hidden (grouped.map tokenWeight) 0 0
      (counts.map Int.toNat) 0 =
        .ok (indexAdd 0 (grouped.map (contribution silu layer.experts hidden))) := by
    refine expertLoop_eq hdoc layer.flags htoken _ 0 0 0 ?_ ?_
    · rw [List.length_map, hgrouped.length, Nat.zero_add]
    · rw [List.drop_zero, hgrouped.labels, labels, List.zipIdx_map, List.flatMap_map]
      rfl
  unfold severalTokens
  rw [hsort]
  dsimp only [bind, Except.bind]
  rw [groupedGemm_eq hdoc hgrouped htoken, hloop, ite_self, ← rows_eq_mixture silu hlen hgrouped.perm]
  rfl

/-! ## The loop over experts -/

theorem naiveRound_eq (hdoc : Documented exp silu modules) {experts : List (ExpertWeights K H I)}
    {hidden : List (Fin H → K)} {flat : List (ℕ × (ℤ × K))} (htoken : ∀ a ∈ flat, a.1 < hidden.length)
    (out : ℕ → Fin H → K) (eid : ℕ) :
    naiveRound modules hidden flat out (experts.getD eid 0, eid) =
      .ok (indexAdd out ((flat.filter (·.2.1 = (eid : ℤ))).map (contribution silu experts hidden))) := by
  have hact : (modules.siluAndMul : (Fin (I + I) → K) → Fin I → K) = siluMul silu :=
    funext fun gateUp => hdoc.siluAndMul gateUp
  have hids : ∀ a ∈ flat.filter (·.2.1 = (eid : ℤ)), a.2.1 = (eid : ℤ) := fun a ha =>
    of_decide_eq_true (List.mem_filter.mp ha).2
  unfold naiveRound
  dsimp only
  split
  · next hempty =>
    rw [List.eq_nil_of_length_eq_zero hempty]
    rfl
  · rw [mapM_tokens fun a ha => htoken a (List.mem_filter.mp ha).1, hact,
      ← expertRows_eq silu experts hidden hids, ← linear_siluMul]
    rfl

theorem naiveBatchedMoeForward_eq (hdoc : Documented exp silu modules)
    {experts : List (ExpertWeights K H I)} {hidden : List (Fin H → K)} {topk : List (List (ℤ × K))}
    (hlen : hidden.length = topk.length) (hrange : ∀ row ∈ topk, InRange experts.length row)
    (hmany : 1 < hidden.length) :
    naiveBatchedMoeForward modules experts hidden topk =
      .ok (List.zipWith (mixture silu experts) hidden topk) := by
  have htoken : ∀ a ∈ assignments topk, a.1 < hidden.length := fun a ha =>
    hlen ▸ (mem_assignments hrange ha).1
  have hloop : ∀ n : ℕ, ((List.range n).map fun e => (experts.getD e 0, e)).foldlM
      (naiveRound modules hidden (assignments topk)) 0 =
        .ok (indexAdd 0 (((List.range n).flatMap fun e : ℕ =>
          (assignments topk).filter (·.2.1 = (e : ℤ))).map (contribution silu experts hidden))) := by
    intro n
    induction n with
    | zero => rfl
    | succ n ih =>
      rw [List.range_succ, List.map_append, List.foldlM_append, ih,
        List.flatMap_append, List.flatMap_singleton, List.map_append, indexAdd_append,
        ← naiveRound_eq hdoc htoken]
      exact bind_pure (naiveRound modules hidden (assignments topk) _ (experts.getD n 0, n))
  have hzip : experts.zipIdx = (List.range experts.length).map fun e => (experts.getD e 0, e) :=
    List.ext_getElem (by simp) fun i hi _ => by
      rw [List.length_zipIdx] at hi
      simp [List.getElem?_eq_getElem hi]
  have hids : ∀ a ∈ assignments topk, 0 ≤ a.2.1 ∧ a.2.1 < experts.length := fun a ha =>
    (mem_assignments hrange ha).2
  have hperm := flatMap_filter_perm_of_range hids
  unfold naiveBatchedMoeForward
  split
  · exact absurd hmany (Nat.lt_irrefl 1)
  · rw [hzip, hloop, ← rows_eq_mixture silu hlen hperm]
    rfl

/-! ## The layer -/

/-- Whether the layer takes one of the two tiers that work on the ids of the router. -/
def TierFlags.keepsIds (flags : TierFlags) (numTokens : ℕ) : Prop :=
  flags.useIxFusedMoe = true ∨ flags.useNaiveBatchedMoe = true ∧ 1 < numTokens

omit [LinearOrder K] in
/-- These tiers do not look at the state of expert parallelism. -/
theorem pureTorchExperts_keepsIds [DecidableEq K] (layer : MoeLayer K H I) {hidden : List (Fin H → K)}
    (logits : List (List K)) (h : layer.flags.keepsIds hidden.length) :
    pureTorchExperts exp silu modules layer hidden logits =
      pureTorchExperts exp silu modules { layer with ep := none } hidden logits := by
  unfold pureTorchExperts
  cases h with
  | inl hix =>
    dsimp only
    rw [if_pos hix, if_pos hix]
  | inr hnaive =>
    have hmany : (layer.flags.useNaiveBatchedMoe && decide (1 < hidden.length)) = true := by
      rw [Bool.and_eq_true, decide_eq_true_eq]
      exact hnaive
    dsimp only
    rw [if_pos hmany, if_pos hmany]

/-- What the point-optimised path makes of the ids of the router. -/
def localTopk (ep : Option EpState) (topk : List (List (ℤ × K))) : List (List (ℤ × K)) :=
  match ep with
  | some ep => epMaskAndRemap topk ep.startExpertId ep.numExpertsPerRank
  | none => topk

omit [LinearOrder K] in
theorem length_localTopk (ep : Option EpState) (topk : List (List (ℤ × K))) :
    (localTopk ep topk).length = topk.length := by
  cases ep with
  | none => rfl
  | some ep => exact List.length_map _

/-- The point-optimised path. -/
theorem pureTorchExperts_local (hdoc : Documented exp silu modules) (layer : MoeLayer K H I)
    {hidden : List (Fin H → K)} {logits : List (List K)} (h : ¬ layer.flags.keepsIds hidden.length)
    (hlen : hidden.length = (route exp modules layer.flags layer.topK logits).length)
    (hrange : ∀ row ∈ localTopk layer.ep (route exp modules layer.flags layer.topK logits),
      InRange layer.experts.length row) :
    pureTorchExperts exp silu modules layer hidden logits =
      .ok (List.zipWith (mixture silu layer.experts) hidden
        (localTopk layer.ep (route exp modules layer.flags layer.topK logits))) := by
  obtain ⟨hix, hnaive⟩ := not_or.mp h
  have hfew : ¬ (layer.flags.useNaiveBatchedMoe && decide (1 < hidden.length)) = true := by
    rw [Bool.and_eq_true, decide_eq_true_eq]
    exact hnaive
  rw [← length_localTopk layer.ep] at hlen
  unfold pureTorchExperts
  rw [if_neg hix, if_neg hfew]
  dsimp only
  split
  · next x =>
    obtain ⟨row, hrow⟩ := List.length_eq_one_iff.mp hlen.symm
    change (do
      return [← singleToken silu modules layer x ((localTopk layer.ep
        (route exp modules layer.flags layer.topK logits)).headD [])]) = _
    rw [hrow] at hrange ⊢
    rw [List.headD_cons, singleToken_eq hdoc layer x (hrange row List.mem_cons_self)]
    rfl
  · exact severalTokens_eq hdoc layer hlen hrange

variable [IsStrictOrderedRing K]

omit [IsStrictOrderedRing K] in
theorem inRange_of_isRouting {topK n : ℕ} {logits : List (List K)} {rows : List (List (ℤ × K))}
    (h : List.Forall₂ (IsRouting exp topK) logits rows) (hlen : ∀ row ∈ logits, row.length = n) :
    ∀ row ∈ rows, InRange n row := by
  induction h with
  | nil => exact fun row hrow => absurd hrow List.not_mem_nil
  | @cons l row logits rows hrow hrows ih =>
    intro row' hrow'
    cases List.mem_cons.mp hrow' with
    | inl heq =>
      subst heq
      exact hlen l List.mem_cons_self ▸ hrow.inRange
    | inr hmem => exact ih (fun row hrow => hlen row (List.mem_cons_of_mem l hrow)) row' hmem

/-- The routings that a layer with all experts uses; its output is the mixture. -/
theorem pureTorchExperts_off (hdoc : Documented exp silu modules) (hpos : ∀ c, 0 < exp c)
    (hmono : StrictMono exp) (layer : MoeLayer K H I) (hep : layer.ep = none)
    {hidden : List (Fin H → K)} {logits : List (List K)} (hlen : hidden.length = logits.length)
    (hlogits : ∀ row ∈ logits, row.length = layer.experts.length)
    (htopK : layer.topK ≤ layer.experts.length) :
    ∃ rows, List.Forall₂ (IsRouting exp layer.topK) logits rows ∧
      (¬ layer.flags.keepsIds hidden.length →
        rows = route exp modules layer.flags layer.topK logits) ∧
      pureTorchExperts exp silu modules layer hidden logits =
        .ok (List.zipWith (mixture silu layer.experts) hidden rows) := by
  have hroute : List.Forall₂ (IsRouting exp layer.topK) logits
      (route exp modules layer.flags layer.topK logits) :=
    route_isRouting hdoc hpos hmono layer.flags fun row hrow => (hlogits row hrow).symm ▸ htopK
  have hroutes : hidden.length = (route exp modules layer.flags layer.topK logits).length :=
    hlen.trans hroute.length_eq
  have hrange := inRange_of_isRouting hroute hlogits
  by_cases hkeeps : layer.flags.keepsIds hidden.length
  · by_cases hix : layer.flags.useIxFusedMoe = true
    · obtain ⟨rows, hrows, heq⟩ :=
        hdoc.fusedMoeForward hidden logits layer.experts layer.topK htopK hlogits hlen
      refine ⟨rows, hrows.imp fun _ _ h => h.isRouting hpos hmono, absurd hkeeps, ?_⟩
      unfold pureTorchExperts
      rw [if_pos hix, heq]
      rfl
    · cases hkeeps with
      | inl h => exact absurd h hix
      | inr hnaive =>
        have hmany : (layer.flags.useNaiveBatchedMoe && decide (1 < hidden.length)) = true := by
          rw [Bool.and_eq_true, decide_eq_true_eq]
          exact hnaive
        refine ⟨_, hroute, fun _ => rfl, ?_⟩
        unfold pureTorchExperts
        rw [if_neg hix, if_pos hmany]
        dsimp only
        rw [naiveBatchedMoeForward_eq hdoc hroutes hrange hnaive.2]
  · refine ⟨_, hroute, fun _ => rfl, ?_⟩
    have hlocal := pureTorchExperts_local hdoc layer hkeeps hroutes
    rw [hep] at hlocal
    exact hlocal hrange

end tiers

end Ikun.Moe
