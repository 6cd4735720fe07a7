import Ikun.Moe.Mixture

/-!
# Sums of assignments

A token gets its part of the output as the sum of its assignments, in whatever order a path goes through
them (`rows_eq_mixture`). The path for a single token adds the selected experts (`singleToken_eq`).
-/

namespace Ikun.Moe

variable {K : Type} [Field K] {H I m n : ℕ}

/-! ## Operators -/

theorem getItem_eq {α : Type} (d : α) {l : List α} {i : ℤ} (h0 : 0 ≤ i) (hi : i < l.length) :
    getItem l i = .ok (l.getD i.toNat d) := by
  have hlt : i.toNat < l.length := by
    rwa [← Int.ofNat_lt, Int.toNat_of_nonneg h0]
  unfold getItem
  rw [if_neg (not_lt.mpr h0), List.getElem?_eq_getElem hlt, List.getD_eq_getElem _ _ hlt]
  exact if_neg (by omega)

/-- Indexing a tensor with a list of ids. -/
theorem mapM_getItem {α β : Type} (d : α) {l : List α} {f : β → ℤ} {ps : List β}
    (h : ∀ p ∈ ps, 0 ≤ f p ∧ f p < l.length) :
    (ps.mapM fun p => getItem l (f p)) = .ok (ps.map fun p => l.getD (f p).toNat d) :=
  Except.mapM_eq_ok fun p hp => getItem_eq d (h p hp).1 (h p hp).2

/-- The values of the rows that are added to `t`. -/
theorem indexAdd_apply (out : ℕ → Fin H → K) (rows : List (ℕ × (Fin H → K))) (t : ℕ) :
    indexAdd out rows t = out t + ((rows.filter (·.1 = t)).map Prod.snd).sum := by
  unfold indexAdd
  induction rows generalizing out with
  | nil => exact (add_zero _).symm
  | cons row rows ih =>
    obtain ⟨t', row⟩ := row
    rw [List.foldl_cons, ih, List.filter_cons]
    dsimp only
    by_cases ht : t' = t
    · subst ht
      rw [Function.update_self, if_pos (decide_eq_true rfl), List.map_cons, List.sum_cons, add_assoc]
    · rw [Function.update_of_ne (Ne.symm ht), if_neg (by simpa using ht)]

theorem indexAdd_append (out : ℕ → Fin H → K) (rows rows' : List (ℕ × (Fin H → K))) :
    indexAdd out (rows ++ rows') = indexAdd (indexAdd out rows) rows' :=
  List.foldl_append

/-- The order of the rows does not matter. -/
theorem indexAdd_perm (out : ℕ → Fin H → K) {rows rows' : List (ℕ × (Fin H → K))}
    (h : rows.Perm rows') : indexAdd out rows = indexAdd out rows' := by
  funext t
  rw [indexAdd_apply, indexAdd_apply, ((h.filter _).map _).sum_eq]

/-! ## Products -/

/-- The products of the loops, for the rows of one expert. -/
theorem linear_siluMul (silu : K → K) (expert : ExpertWeights K H I) (tokens : List (Fin H → K)) :
    linear ((linear tokens expert.w13).map (siluMul silu)) expert.w2 =
      tokens.map (expertMlp silu expert) := by
  unfold linear
  rw [List.map_map, List.map_map]
  refine List.map_congr_left fun x _ => funext fun h => ?_
  show ∑ j, siluMul silu (fun i => ∑ c, x c * expert.w13 i c) j * expert.w2 h j = _
  exact Finset.sum_congr rfl fun j _ => mul_comm _ (expert.w2 h j)

/-- One product with the rows of all selected experts, cut again into the experts. -/
theorem selectedExperts_eq (silu : K → K) (x : Fin H → K) (selected : List (ExpertWeights K H I)) :
    selectedExperts linear (siluMul silu) x selected =
      selected.map fun expert => expertMlp silu expert x := by
  refine List.ext_getElem (by simp [selectedExperts]) fun i hi hi' => ?_
  have hlt : i < selected.length := by
    rwa [List.length_map] at hi'
  have hview : ∀ row : Fin (I + I),
      view ((linear [x] (reshapeW13 selected)).headD 0) ⟨i, hlt⟩ row =
        ∑ c, x c * (selected.get ⟨i, hlt⟩).w13 row c := by
    intro row
    have hinv := finProdFinEquiv.symm_apply_apply ((⟨i, hlt⟩ : Fin selected.length), row)
    have hdiv := congrArg Prod.fst hinv
    have hmod := congrArg Prod.snd hinv
    simp only [finProdFinEquiv_symm_apply] at hdiv hmod
    simp only [linear, List.map_cons, List.map_nil, List.headD_cons, view, reshapeW13, hdiv, hmod]
  simp only [selectedExperts, List.getElem_ofFn, List.getElem_map]
  funext h
  refine Finset.sum_congr rfl fun j _ => ?_
  rw [siluMul, siluMul, hview, hview]
  rfl

theorem weightedSum_map {α : Type} (f : α → Fin H → K) (w : α → K) (row : List α) :
    weightedSum (row.map f) (row.map w) = (row.map fun p => w p • f p).sum := by
  unfold weightedSum
  rw [List.zip_map', List.map_map]
  rfl

/-! ## Assignments -/

/-- What an assignment adds to its token. -/
def contribution (silu : K → K) (experts : List (ExpertWeights K H I)) (hidden : List (Fin H → K))
    (a : ℕ × (ℤ × K)) : ℕ × (Fin H → K) :=
  (a.1, a.2.2 • expertMlp silu (experts.getD a.2.1.toNat 0) (hidden.getD a.1 0))

omit [Field K] in
theorem filter_zipIdx_flatMap (topk : List (List (ℤ × K))) (t k : ℕ) :
    (((topk.zipIdx k).flatMap fun (row, t) => row.map fun p => (t, p)).filter (·.1 = k + t)) =
      (topk.getD t []).map fun p => (k + t, p) := by
  induction topk generalizing t k with
  | nil => simp
  | cons row topk ih =>
    rw [List.zipIdx_cons, List.flatMap_cons, List.filter_append, List.filter_map]
    cases t with
    | zero =>
      have hrest : (((topk.zipIdx (k + 1)).flatMap fun (row, t) => row.map fun p => (t, p)).filter
          (·.1 = k + 0)) = [] := by
        refine List.filter_eq_nil_iff.mpr fun a ha => ?_
        obtain ⟨⟨row', t⟩, hrow, ha⟩ := List.mem_flatMap.mp ha
        obtain ⟨p, -, rfl⟩ := List.mem_map.mp ha
        have hle := List.le_snd_of_mem_zipIdx hrow
        simp only [decide_eq_true_eq]
        omega
      rw [hrest, List.append_nil, List.filter_eq_self.mpr fun p _ => by simp]
      rfl
    | succ t =>
      have hhead : row.filter ((fun a : ℕ × (ℤ × K) => decide (a.1 = k + (t + 1))) ∘
          fun p => (k, p)) = [] :=
        List.filter_eq_nil_iff.mpr fun p _ => by simp
      have hstep : k + (t + 1) = k + 1 + t := by omega
      rw [hhead, List.map_nil, List.nil_append, hstep, ih]
      rfl

omit [Field K] in
/-- The assignments of a token. -/
theorem filter_assignments (topk : List (List (ℤ × K))) (t : ℕ) :
    (assignments topk).filter (·.1 = t) = (topk.getD t []).map fun p => (t, p) := by
  have h := filter_zipIdx_flatMap topk t 0
  rw [Nat.zero_add] at h
  exact h

/-- The sum over all assignments gives each token its mixture. -/
theorem indexAdd_assignments (silu : K → K) (experts : List (ExpertWeights K H I))
    (hidden : List (Fin H → K)) (topk : List (List (ℤ × K))) (t : ℕ) :
    indexAdd 0 ((assignments topk).map (contribution silu experts hidden)) t =
      mixture silu experts (hidden.getD t 0) (topk.getD t []) := by
  have hfilter : ((assignments topk).map (contribution silu experts hidden)).filter (·.1 = t) =
      ((assignments topk).filter (·.1 = t)).map (contribution silu experts hidden) := by
    rw [List.filter_map]
    rfl
  rw [indexAdd_apply, Pi.zero_apply, zero_add, hfilter, filter_assignments, List.map_map, List.map_map]
  rfl

/-- All tokens get their mixture when all assignments are added, in any order. -/
theorem rows_eq_mixture (silu : K → K) {experts : List (ExpertWeights K H I)}
    {hidden : List (Fin H → K)} {topk : List (List (ℤ × K))} (hlen : hidden.length = topk.length)
    {grouped : List (ℕ × (ℤ × K))} (hperm : grouped.Perm (assignments topk)) :
    (List.range hidden.length).map (indexAdd 0 (grouped.map (contribution silu experts hidden))) =
      List.zipWith (mixture silu experts) hidden topk := by
  rw [indexAdd_perm 0 (hperm.map _)]
  refine List.ext_getElem (by simp [hlen]) fun t ht ht' => ?_
  have hhidden : t < hidden.length := by
    simpa using ht
  rw [List.getElem_map, List.getElem_range, indexAdd_assignments, List.getElem_zipWith,
    List.getD_eq_getElem _ _ hhidden, List.getD_eq_getElem _ _ (hlen ▸ hhidden)]

omit [Field K] in
/-- The assignments have the tokens and the ids of their rows. -/
theorem mem_assignments {topk : List (List (ℤ × K))} {n : ℕ} (hrange : ∀ row ∈ topk, InRange n row)
    {a : ℕ × (ℤ × K)} (ha : a ∈ assignments topk) :
    a.1 < topk.length ∧ 0 ≤ a.2.1 ∧ a.2.1 < n := by
  obtain ⟨⟨row, t⟩, hrow, ha⟩ := List.mem_flatMap.mp ha
  obtain ⟨p, hp, rfl⟩ := List.mem_map.mp ha
  have hget := List.mem_zipIdx_iff_getElem?.mp hrow
  exact ⟨(List.getElem?_eq_some_iff.mp hget).1, hrange row (List.mem_of_getElem? hget) p hp⟩

/-! ## A single token -/

section tiers

variable [LinearOrder K] {exp silu : K → K} {modules : Modules K}

theorem fastLinear_eq (hdoc : Documented exp silu modules) (flags : TierFlags)
    (x : List (Fin m → K)) (weight : Fin n → Fin m → K) :
    fastLinear modules flags x weight = linear x weight := by
  unfold fastLinear
  split
  · exact hdoc.bridgeLinear x weight
  · rfl

theorem singleToken_eq (hdoc : Documented exp silu modules) (layer : MoeLayer K H I) (x : Fin H → K)
    {row : List (ℤ × K)} (hrange : InRange layer.experts.length row) :
    singleToken silu modules layer x row = .ok (mixture silu layer.experts x row) := by
  have hact : (if layer.flags.useFusedMoeActivation then modules.siluAndMul else siluMul silu) =
      (siluMul silu : (Fin (I + I) → K) → Fin I → K) := by
    split
    · exact funext fun gateUp => hdoc.siluAndMul gateUp
    · rfl
  have hlin : (fun {n : ℕ} => fastLinear modules layer.flags : ∀ {n : ℕ}, List (Fin H → K) →
      (Fin n → Fin H → K) → List (Fin n → K)) = fun {n : ℕ} => linear := by
    funext n x weight
    exact fastLinear_eq hdoc layer.flags x weight
  have hselect : ∀ row : List (ℤ × K), InRange layer.experts.length row →
      (row.mapM fun p => getItem layer.experts p.1) =
        .ok (row.map fun p => layer.experts.getD p.1.toNat 0) :=
    fun row h => mapM_getItem 0 h
  have hsum : ∀ row : List (ℤ × K), weightedSum (selectedExperts linear (siluMul silu) x
      (row.map fun p => layer.experts.getD p.1.toNat 0)) (row.map Prod.snd) =
        mixture silu layer.experts x row := by
    intro row
    rw [selectedExperts_eq, List.map_map]
    exact weightedSum_map _ Prod.snd row
  unfold singleToken
  simp only [hact, hlin, hdoc.moeCombineResult]
  split
  · -- the pairs without a weight are dropped
    split
    · next hempty =>
      have hmix := mixture_filter silu layer.experts x row
      rw [List.eq_nil_of_length_eq_zero hempty] at hmix
      rw [← hmix]
      rfl
    · rw [hselect _ fun p hp => hrange p (List.mem_filter.mp hp).1]
      refine congrArg Except.ok ?_
      rw [hsum, mixture_filter]
  · rw [hselect _ hrange]
    split
    · exact congrArg Except.ok (hsum row)
    · exact congrArg Except.ok (hsum row)

end tiers

end Ikun.Moe
