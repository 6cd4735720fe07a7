import Mathlib.Analysis.SpecialFunctions.Exp
import Ikun.Moe.StandardModules
import Ikun.Moe.TierMixture

/-!
# The layer with expert parallelism

The experts of the ranks, one rank after another, are those of the checkpoint (`flatMap_rankExperts`).
On the point-optimised path each pair of the router counts on the rank that holds its expert, so that the
ranks add up to the mixture (`sum_mixture_ranks`).

The two tiers that keep the ids of the router do not know which experts a rank holds: they give the same
sum whether an expert is the first of rank 0 or the first of rank 1 (`sum_keepsIds`). So the layer
computes the mixture exactly if there is one rank or neither of these tiers is taken
(`computesMixture_iff`).
-/

namespace Ikun.Moe

variable {K : Type} [Field K] {H I : ℕ}

/-! ## The experts of a rank -/

omit [Field K] in
theorem length_weightLoader (ep : Option EpState) (load : ExpertWeights K H I → ExpertWeights K H I)
    (param : List (ExpertWeights K H I)) (expertId : ℕ) :
    (weightLoader ep load param expertId).length = param.length := by
  rw [weightLoader_eq]
  cases localId ep expertId with
  | none => rfl
  | some j => exact List.length_modify _ _ _

omit [Field K] in
theorem length_loadExperts (ep : Option EpState) (checkpoint param : List (ExpertWeights K H I)) :
    (loadExperts ep checkpoint param).length = param.length := by
  unfold loadExperts
  dsimp only
  refine List.foldlRecOn (motive := fun l : List (ExpertWeights K H I) => l.length = param.length)
    _ _ ?_ fun l hl p _ => ?_
  · refine List.foldlRecOn (motive := fun l : List (ExpertWeights K H I) => l.length = param.length)
      _ _ rfl fun l hl p _ => ?_
    rw [length_weightLoader, length_weightLoader, hl]
  · rw [length_weightLoader, hl]

namespace EpGroup

variable (group : EpGroup)

/-- The experts of a rank after loading into parameters with any content. -/
def rankExperts (checkpoint : List (ExpertWeights K H I)) (param : ℕ → List (ExpertWeights K H I))
    (rank : ℕ) : List (ExpertWeights K H I) :=
  loadExperts (some (group.state rank)) checkpoint (param rank)

variable {group} {checkpoint : List (ExpertWeights K H I)} {param : ℕ → List (ExpertWeights K H I)}

theorem div_perRank_lt {e : ℕ} (he : e < group.numExperts) : e / group.perRank < group.epSize :=
  (Nat.div_lt_iff_lt_mul group.perRank_pos).mpr he

omit [Field K] in
theorem rankExperts_eq (hlen : checkpoint.length = group.numExperts)
    (hparam : ∀ rank, (param rank).length = group.perRank) {rank : ℕ} (hrank : rank < group.epSize) :
    group.rankExperts checkpoint param rank =
      (checkpoint.drop (rank * group.perRank)).take group.perRank := by
  refine List.ext_getElem? fun j => ?_
  by_cases hj : j < group.perRank
  · have hlt : rank * group.perRank + j < checkpoint.length := by
      rw [hlen]
      calc rank * group.perRank + j < (rank + 1) * group.perRank := by
            rw [Nat.succ_mul]
            exact Nat.add_lt_add_left hj _
        _ ≤ group.numExperts := Nat.mul_le_mul_right _ hrank
    have hdiv : (rank * group.perRank + j) / group.perRank = rank := by
      rw [Nat.add_comm, Nat.add_mul_div_right _ _ group.perRank_pos, Nat.div_eq_of_lt hj, Nat.zero_add]
    have hmod : (rank * group.perRank + j) % group.perRank = j := by
      rw [Nat.add_comm, Nat.add_mul_mod_self_right, Nat.mod_eq_of_lt hj]
    have hload := group.loadExperts_state (hparam rank) hdiv (List.getElem?_eq_getElem hlt)
    rw [hmod] at hload
    rw [List.getElem?_take_of_lt hj, List.getElem?_drop, List.getElem?_eq_getElem hlt]
    exact hload
  · rw [List.getElem?_eq_none, List.getElem?_eq_none]
    · exact (List.length_take_le _ _).trans (Nat.not_lt.mp hj)
    · rw [rankExperts, length_loadExperts, hparam]
      exact Nat.not_lt.mp hj

omit [Field K] in
/-- Each expert is held by exactly one rank: those of the ranks are those of the checkpoint. -/
theorem flatMap_rankExperts (hlen : checkpoint.length = group.numExperts)
    (hparam : ∀ rank, (param rank).length = group.perRank) :
    (List.range group.epSize).flatMap (group.rankExperts checkpoint param) = checkpoint := by
  have htake : ∀ k ≤ group.epSize, (List.range k).flatMap (group.rankExperts checkpoint param) =
      checkpoint.take (k * group.perRank) := by
    intro k hk
    induction k with
    | zero => simp
    | succ k ih =>
      rw [List.range_succ, List.flatMap_append, List.flatMap_singleton, ih (Nat.le_of_succ_le hk),
        rankExperts_eq hlen hparam hk, Nat.succ_mul, List.take_add]
  rw [htake _ le_rfl]
  exact List.take_of_length_le hlen.le

omit [Field K] in
theorem length_rankExperts (hparam : ∀ rank, (param rank).length = group.perRank) (rank : ℕ) :
    (group.rankExperts checkpoint param rank).length = group.perRank := by
  rw [rankExperts, length_loadExperts, hparam]

/-- The expert at its local id. -/
theorem getD_rankExperts (hlen : checkpoint.length = group.numExperts)
    (hparam : ∀ rank, (param rank).length = group.perRank) {e : ℕ} (he : e < group.numExperts) :
    (group.rankExperts checkpoint param (e / group.perRank)).getD (e % group.perRank) 0 =
      checkpoint.getD e 0 := by
  have hlt : e < checkpoint.length := hlen.symm ▸ he
  have hload := group.loadExperts_state (hparam (e / group.perRank)) rfl
    (List.getElem?_eq_getElem hlt)
  rw [List.getD_eq_getElem?_getD, List.getD_eq_getElem?_getD, List.getElem?_eq_getElem hlt]
  exact congrArg (Option.getD · 0) hload

/-- The part of one pair of the router on a rank. -/
theorem epMaskAndRemap_pair {silu : K → K} (hlen : checkpoint.length = group.numExperts)
    (hparam : ∀ rank, (param rank).length = group.perRank) (x : Fin H → K) {p : ℤ × K}
    (hp : 0 ≤ p.1 ∧ p.1 < group.numExperts) (rank : ℕ) :
    mixture silu (group.rankExperts checkpoint param rank) x
        (((epMaskAndRemap [[p]] (group.state rank).startExpertId
          (group.state rank).numExpertsPerRank).headD [])) =
      if p.1.toNat / group.perRank = rank then p.2 • expertMlp silu (checkpoint.getD p.1.toNat 0) x
      else 0 := by
  obtain ⟨id, w⟩ := p
  obtain ⟨e, rfl⟩ := Int.eq_ofNat_of_zero_le hp.1
  have he : e < group.numExperts := Int.ofNat_lt.mp hp.2
  have hdiv := Nat.div_add_mod' e group.perRank
  have hmod := Nat.mod_lt e group.perRank_pos
  rw [state_eq]
  unfold epMaskAndRemap
  simp only [List.map_cons, List.map_nil, List.headD_cons, Int.toNat_natCast]
  by_cases hrank : e / group.perRank = rank
  · subst hrank
    have hrange : ((e / group.perRank * group.perRank : ℕ) : ℤ) ≤ e ∧
        (e : ℤ) < (e / group.perRank * group.perRank : ℕ) + group.perRank := by
      omega
    rw [if_pos hrange, if_pos rfl, mixture_cons]
    have hlocal : ((e : ℤ) - (e / group.perRank * group.perRank : ℕ)).toNat = e % group.perRank := by
      omega
    dsimp only
    rw [hlocal, getD_rankExperts hlen hparam he, mul_one]
    exact add_zero _
  · have hrange : ¬ (((rank * group.perRank : ℕ) : ℤ) ≤ e ∧
        (e : ℤ) < (rank * group.perRank : ℕ) + group.perRank) := by
      rintro ⟨hle, hlt⟩
      refine hrank (Nat.div_eq_of_lt_le ?_ ?_)
      · exact Int.ofNat_le.mp hle
      · rw [Nat.succ_mul]
        exact Int.ofNat_lt.mp hlt
    rw [if_neg hrange, if_neg hrank, mixture_cons, mul_zero, zero_smul]
    exact add_zero _

/-- The ranks add up to the mixture. -/
theorem sum_mixture_ranks (silu : K → K) (hlen : checkpoint.length = group.numExperts)
    (hparam : ∀ rank, (param rank).length = group.perRank) (x : Fin H → K) {row : List (ℤ × K)}
    (hrow : InRange group.numExperts row) :
    ∑ rank ∈ Finset.range group.epSize, mixture silu (group.rankExperts checkpoint param rank) x
        ((epMaskAndRemap [row] (group.state rank).startExpertId
          (group.state rank).numExpertsPerRank).headD []) =
      mixture silu checkpoint x row := by
  induction row with
  | nil => exact Finset.sum_eq_zero fun rank _ => rfl
  | cons p row ih =>
    have hp := hrow p List.mem_cons_self
    have hhead : ∑ rank ∈ Finset.range group.epSize,
        mixture silu (group.rankExperts checkpoint param rank) x
          ((epMaskAndRemap [[p]] (group.state rank).startExpertId
            (group.state rank).numExpertsPerRank).headD []) =
        p.2 • expertMlp silu (checkpoint.getD p.1.toNat 0) x := by
      have hid : p.1.toNat < group.numExperts := by omega
      simp only [epMaskAndRemap_pair hlen hparam x hp]
      rw [Finset.sum_ite_eq, if_pos (Finset.mem_range.mpr (div_perRank_lt hid))]
    rw [mixture_cons, ← hhead, ← ih fun q hq => hrow q (List.mem_cons_of_mem p hq),
      ← Finset.sum_add_distrib]
    refine Finset.sum_congr rfl fun rank _ => ?_
    unfold epMaskAndRemap
    simp only [List.map_cons, List.map_nil, List.headD_cons, mixture_cons]
    exact (congrArg (· + _) (add_zero _)).symm

end EpGroup

omit [Field K] in
/-- Without expert parallelism all experts are loaded. -/
theorem loadExperts_none {checkpoint param : List (ExpertWeights K H I)}
    (hlen : param.length = checkpoint.length) : loadExperts none checkpoint param = checkpoint := by
  refine List.ext_getElem? fun e => ?_
  by_cases he : e < checkpoint.length
  · rw [List.getElem?_eq_getElem he]
    exact loadExperts_getElem? rfl (List.getElem?_eq_getElem he) (hlen.symm ▸ he)
  · rw [List.getElem?_eq_none (Nat.not_lt.mp he), List.getElem?_eq_none]
    rw [length_loadExperts, hlen]
    exact Nat.not_lt.mp he

/-! ## Statement -/

/-- The layer on a rank. -/
def EpGroup.rankLayer (group : EpGroup) (flags : TierFlags) (topK : ℕ)
    (checkpoint : List (ExpertWeights K H I)) (param : ℕ → List (ExpertWeights K H I)) (rank : ℕ) :
    MoeLayer K H I where
  flags := flags
  topK := topK
  experts := group.rankExperts checkpoint param rank
  ep := some (group.state rank)

/-- The layer without expert parallelism. -/
def fullLayer (flags : TierFlags) (topK : ℕ) (checkpoint param : List (ExpertWeights K H I)) :
    MoeLayer K H I where
  flags := flags
  topK := topK
  experts := loadExperts none checkpoint param
  ep := none

section statement

variable [LinearOrder K] (exp silu : K → K) (modules : Modules K) (group : EpGroup) (flags : TierFlags)
  (topK numTokens : ℕ)

/-- For all weights, hidden states and logits: each expert is held by one rank, the sum over the ranks and
the layer without expert parallelism give the mixture of a routing, and the local ids are in range. -/
def ComputesMixture (H I : ℕ) : Prop :=
  ∀ (checkpoint : List (ExpertWeights K H I)) (param : ℕ → List (ExpertWeights K H I))
    (allParam : List (ExpertWeights K H I)) (hidden : List (Fin H → K)) (logits : List (List K)),
    checkpoint.length = group.numExperts → (∀ rank, (param rank).length = group.perRank) →
    allParam.length = group.numExperts → hidden.length = numTokens → logits.length = numTokens →
    (∀ row ∈ logits, row.length = group.numExperts) →
    (List.range group.epSize).flatMap (group.rankExperts checkpoint param) = checkpoint ∧
    ∃ rows, List.Forall₂ (IsRouting exp topK) logits rows ∧
      (∃ outs : ℕ → List (Fin H → K),
        (∀ rank < group.epSize, pureTorchExperts exp silu modules
          (group.rankLayer flags topK checkpoint param rank) hidden logits = .ok (outs rank)) ∧
        (List.range numTokens).map
            (fun t => ∑ rank ∈ Finset.range group.epSize, (outs rank).getD t 0) =
          List.zipWith (mixture silu checkpoint) hidden rows) ∧
      pureTorchExperts exp silu modules (fullLayer flags topK checkpoint allParam) hidden logits =
        .ok (List.zipWith (mixture silu checkpoint) hidden rows) ∧
      ∀ rank < group.epSize, ∀ row ∈ localTopk (some (group.state rank)) rows,
        InRange (group.rankExperts checkpoint param rank).length row

end statement

section tiers

variable [LinearOrder K] {exp silu : K → K} {modules : Modules K} {group : EpGroup} {flags : TierFlags}
  {topK numTokens : ℕ}

omit [LinearOrder K] in
theorem inRange_localTopk (group : EpGroup) (rank : ℕ) (rows : List (List (ℤ × K))) :
    ∀ row ∈ localTopk (some (group.state rank)) rows, InRange group.perRank row := by
  unfold localTopk
  dsimp only
  rw [group.state_eq]
  exact epMaskAndRemap_range group.perRank_pos

/-! ## The point-optimised path -/

omit [LinearOrder K] in
/-- Token by token, the ranks add up to the mixture. -/
theorem sum_zipWith_ranks (silu : K → K) {checkpoint : List (ExpertWeights K H I)}
    {param : ℕ → List (ExpertWeights K H I)} (hlen : checkpoint.length = group.numExperts)
    (hparam : ∀ rank, (param rank).length = group.perRank) {hidden : List (Fin H → K)}
    {rows : List (List (ℤ × K))} (hhidden : hidden.length = rows.length)
    (hrows : ∀ row ∈ rows, InRange group.numExperts row) :
    (List.range hidden.length).map (fun t => ∑ rank ∈ Finset.range group.epSize,
      (List.zipWith (mixture silu (group.rankExperts checkpoint param rank)) hidden
        (localTopk (some (group.state rank)) rows)).getD t 0) =
      List.zipWith (mixture silu checkpoint) hidden rows := by
  refine List.ext_getElem (by simp [hhidden]) fun t ht _ => ?_
  have hlt : t < hidden.length := by
    simpa using ht
  have hrow : t < rows.length := hhidden ▸ hlt
  rw [List.getElem_map, List.getElem_range, List.getElem_zipWith,
    ← group.sum_mixture_ranks silu hlen hparam hidden[t] (hrows _ (List.getElem_mem hrow))]
  refine Finset.sum_congr rfl fun rank _ => ?_
  have hlocal : t < (localTopk (some (group.state rank)) rows).length := by
    rwa [length_localTopk]
  rw [List.getD_eq_getElem _ _ (by rw [List.length_zipWith, lt_min_iff]; exact ⟨hlt, hlocal⟩),
    List.getElem_zipWith]
  simp only [localTopk, epMaskAndRemap, List.getElem_map, List.map_cons, List.map_nil,
    List.headD_cons]

variable [IsStrictOrderedRing K]

theorem computesMixture_of_local (hdoc : Documented exp silu modules) (hpos : ∀ c, 0 < exp c)
    (hmono : StrictMono exp) (htopK : topK ≤ group.numExperts) (h : ¬ flags.keepsIds numTokens) :
    ComputesMixture exp silu modules group flags topK numTokens H I := by
  intro checkpoint param allParam hidden logits hlen hparam hall hhidden hlogits hrow
  subst hhidden
  have hfull : loadExperts none checkpoint allParam = checkpoint :=
    loadExperts_none (hall.trans hlen.symm)
  obtain ⟨rows, hrows, hroute, hoff⟩ := pureTorchExperts_off hdoc hpos hmono
    (fullLayer flags topK checkpoint allParam) rfl hlogits.symm
    (by rwa [fullLayer, hfull, hlen]) (by rwa [fullLayer, hfull, hlen])
  have hrange := inRange_of_isRouting hrows hrow
  have hcount : hidden.length = rows.length := hlogits.symm.trans hrows.length_eq
  have hroute := hroute h
  refine ⟨EpGroup.flatMap_rankExperts hlen hparam, rows, hrows,
    ⟨fun rank => List.zipWith (mixture silu (group.rankExperts checkpoint param rank)) hidden
      (localTopk (some (group.state rank)) rows), fun rank _ => ?_, ?_⟩, ?_, ?_⟩
  · have hroutes : rows = route exp modules flags topK logits := hroute
    rw [hroutes] at hcount ⊢
    refine pureTorchExperts_local hdoc (group.rankLayer flags topK checkpoint param rank) h hcount ?_
    unfold EpGroup.rankLayer
    dsimp only
    rw [EpGroup.length_rankExperts hparam]
    exact inRange_localTopk group rank _
  · exact sum_zipWith_ranks silu hlen hparam hcount hrange
  · rw [hoff, fullLayer, hfull]
  · intro rank _
    rw [EpGroup.length_rankExperts hparam]
    exact inRange_localTopk group rank rows

/-! ## One rank -/

omit [LinearOrder K] [IsStrictOrderedRing K] in
/-- The sum over one rank. -/
theorem sum_singleRank (hone : group.epSize = 1) (outs : ℕ → List (Fin H → K))
    (hlen : (outs 0).length = numTokens) :
    (List.range numTokens).map (fun t => ∑ rank ∈ Finset.range group.epSize, (outs rank).getD t 0) =
      outs 0 := by
  rw [hone]
  simp only [Finset.sum_range_one]
  refine List.ext_getElem (by simp [hlen]) fun t _ ht => ?_
  rw [List.getElem_map, List.getElem_range, List.getD_eq_getElem _ _ ht]

theorem computesMixture_of_one (hdoc : Documented exp silu modules) (hpos : ∀ c, 0 < exp c)
    (hmono : StrictMono exp) (htopK : topK ≤ group.numExperts) (hone : group.epSize = 1)
    (h : flags.keepsIds numTokens) :
    ComputesMixture exp silu modules group flags topK numTokens H I := by
  intro checkpoint param allParam hidden logits hlen hparam hall hhidden hlogits hrow
  subst hhidden
  have hfull : loadExperts none checkpoint allParam = checkpoint :=
    loadExperts_none (hall.trans hlen.symm)
  have hexperts : group.rankExperts checkpoint param 0 = checkpoint := by
    have hflat := EpGroup.flatMap_rankExperts hlen hparam
    rw [hone] at hflat
    exact (List.append_nil _).symm.trans hflat
  obtain ⟨rows, hrows, -, hoff⟩ := pureTorchExperts_off hdoc hpos hmono
    (fullLayer flags topK checkpoint allParam) rfl hlogits.symm
    (by rwa [fullLayer, hfull, hlen]) (by rwa [fullLayer, hfull, hlen])
  have hcount : hidden.length = rows.length := hlogits.symm.trans hrows.length_eq
  rw [fullLayer, hfull] at hoff
  refine ⟨EpGroup.flatMap_rankExperts hlen hparam, rows, hrows,
    ⟨fun _ => List.zipWith (mixture silu checkpoint) hidden rows, fun rank hrank => ?_, ?_⟩, ?_, ?_⟩
  · obtain rfl : rank = 0 := by
      omega
    rw [pureTorchExperts_keepsIds _ logits h, EpGroup.rankLayer, hexperts]
    exact hoff
  · refine sum_singleRank hone _ ?_
    rw [List.length_zipWith, ← hcount, min_self]
  · rw [fullLayer, hfull, hoff]
  · intro rank _
    rw [EpGroup.length_rankExperts hparam]
    exact inRange_localTopk group rank rows

/-! ## The tiers that keep the ids -/

section keepsIds

/-- One expert, and experts without weights at the other ids. -/
def oneExpert (group : EpGroup) (rank : ℕ) (expert : ExpertWeights K H I) :
    List (ExpertWeights K H I) :=
  (List.replicate group.numExperts 0).set (rank * group.perRank) expert

/-- No experts with weights. -/
def blank (group : EpGroup) (H I : ℕ) : List (ExpertWeights K H I) :=
  List.replicate group.perRank 0

omit [LinearOrder K] [IsStrictOrderedRing K] in
/-- The expert is the first of its rank. -/
theorem rankExperts_oneExpert {rank : ℕ} (hrank : rank < group.epSize) (expert : ExpertWeights K H I)
    {k : ℕ} :
    group.rankExperts (oneExpert group k expert) (fun _ => blank group H I) rank =
      if rank = k then (blank group H I).set 0 expert else blank group H I := by
  have hpos := group.perRank_pos
  rw [EpGroup.rankExperts_eq (by simp [oneExpert]) (fun _ => by simp [blank]) hrank]
  have hN : rank * group.perRank + group.perRank ≤ group.numExperts := by
    rw [← Nat.succ_mul]
    exact Nat.mul_le_mul_right _ hrank
  refine List.ext_getElem? fun j => ?_
  unfold oneExpert blank
  by_cases hj : j < group.perRank
  · rw [List.getElem?_take_of_lt hj, List.getElem?_drop, List.getElem?_set, List.length_replicate,
      List.getElem?_replicate]
    by_cases hk : rank = k
    · subst hk
      rw [if_pos rfl, List.getElem?_set, List.length_replicate, List.getElem?_replicate]
      by_cases hj0 : j = 0
      · subst hj0
        rw [if_pos (Nat.add_zero _).symm, if_pos rfl, if_pos (by omega), if_pos hpos]
      · rw [if_neg (by omega), if_neg (Ne.symm hj0), if_pos (by omega), if_pos hj]
    · have hne : ¬ k * group.perRank = rank * group.perRank + j := by
        intro heq
        have hdiv : (rank * group.perRank + j) / group.perRank = rank := by
          rw [Nat.add_comm, Nat.add_mul_div_right _ _ hpos, Nat.div_eq_of_lt hj, Nat.zero_add]
        rw [← heq, Nat.mul_div_cancel _ hpos] at hdiv
        exact hk hdiv.symm
      rw [if_neg hne, if_neg hk, List.getElem?_replicate, if_pos (by omega), if_pos hj]
  · rw [List.getElem?_eq_none, List.getElem?_eq_none]
    · split
      · rw [List.length_set, List.length_replicate]
        exact Nat.not_lt.mp hj
      · rw [List.length_replicate]
        exact Nat.not_lt.mp hj
    · exact (List.length_take_le _ _).trans (Nat.not_lt.mp hj)

omit [LinearOrder K] [IsStrictOrderedRing K] in
/-- A sum with one summand that may differ. -/
theorem sum_one_of_range {M : Type} [AddCommGroup M] {n k : ℕ} (hk : k < n) (a b : M) :
    ∑ i ∈ Finset.range n, (if i = k then a else b) = a - b + n • b := by
  have hsplit : ∀ i, (if i = k then a else b) = (if i = k then a - b else 0) + b := by
    intro i
    split
    · exact (sub_add_cancel a b).symm
    · exact (zero_add b).symm
  simp only [hsplit]
  rw [Finset.sum_add_distrib, Finset.sum_ite_eq', if_pos (Finset.mem_range.mpr hk), Finset.sum_const,
    Finset.card_range]

omit [IsStrictOrderedRing K] in
/-- Where the expert is does not change the sum over the ranks. -/
theorem sum_keepsIds {hidden : List (Fin H → K)} {logits : List (List K)}
    (h : flags.keepsIds hidden.length) (expert : ExpertWeights K H I) {k k' : ℕ}
    (hk : k < group.epSize) (hk' : k' < group.epSize) {outs outs' : ℕ → List (Fin H → K)}
    (houts : ∀ rank < group.epSize, pureTorchExperts exp silu modules (group.rankLayer flags topK
      (oneExpert group k expert) (fun _ => blank group H I) rank) hidden logits = .ok (outs rank))
    (houts' : ∀ rank < group.epSize, pureTorchExperts exp silu modules (group.rankLayer flags topK
      (oneExpert group k' expert) (fun _ => blank group H I) rank) hidden logits = .ok (outs' rank))
    (t : ℕ) :
    ∑ rank ∈ Finset.range group.epSize, (outs rank).getD t 0 =
      ∑ rank ∈ Finset.range group.epSize, (outs' rank).getD t 0 := by
  -- what a rank returns depends on its experts only
  have hrank : ∀ {k : ℕ} {outs : ℕ → List (Fin H → K)}, (∀ rank < group.epSize,
      pureTorchExperts exp silu modules (group.rankLayer flags topK (oneExpert group k expert)
        (fun _ => blank group H I) rank) hidden logits = .ok (outs rank)) → ∀ rank < group.epSize,
      pureTorchExperts exp silu modules ⟨flags, topK, if rank = k then (blank group H I).set 0 expert
        else blank group H I, none⟩ hidden logits = .ok (outs rank) := by
    intro k outs houts rank hlt
    rw [← rankExperts_oneExpert hlt, ← houts rank hlt]
    exact (pureTorchExperts_keepsIds (group.rankLayer flags topK (oneExpert group k expert)
      (fun _ => blank group H I) rank) logits h).symm
  have houts := hrank houts
  have houts' := hrank houts'
  by_cases hkk : k = k'
  · subst hkk
    refine Finset.sum_congr rfl fun rank hmem => ?_
    have hlt := Finset.mem_range.mp hmem
    rw [Except.ok.inj ((houts rank hlt).symm.trans (houts' rank hlt))]
  · -- the rank with the expert, and the others
    have hfull := houts k hk
    have hblank := houts k' hk'
    rw [if_pos rfl] at hfull
    rw [if_neg (Ne.symm hkk)] at hblank
    have hother : ∀ rank < group.epSize, outs rank = if rank = k then outs k else outs k' := by
      intro rank hlt
      have hout := houts rank hlt
      by_cases heq : rank = k
      · rw [if_pos heq, heq]
      · rw [if_neg heq] at hout ⊢
        exact Except.ok.inj (hout.symm.trans hblank)
    have hother' : ∀ rank < group.epSize, outs' rank = if rank = k' then outs k else outs k' := by
      intro rank hlt
      have hout := houts' rank hlt
      by_cases heq : rank = k'
      · rw [if_pos heq] at hout ⊢
        exact Except.ok.inj (hout.symm.trans hfull)
      · rw [if_neg heq] at hout ⊢
        exact Except.ok.inj (hout.symm.trans hblank)
    have hsum : ∀ {k : ℕ} {outs : ℕ → List (Fin H → K)} (a b : List (Fin H → K)),
        (∀ rank < group.epSize, outs rank = if rank = k then a else b) →
        ∑ rank ∈ Finset.range group.epSize, (outs rank).getD t 0 =
          ∑ rank ∈ Finset.range group.epSize, (if rank = k then a.getD t 0 else b.getD t 0) := by
      intro k outs a b h
      refine Finset.sum_congr rfl fun rank hmem => ?_
      rw [h rank (Finset.mem_range.mp hmem)]
      split <;> rfl
    rw [hsum _ _ hother, hsum _ _ hother', sum_one_of_range hk, sum_one_of_range hk']

/-! ## A router that prefers expert 0 -/

/-- Logits that prefer expert 0. -/
def firstLogits (group : EpGroup) : List K := (List.replicate group.numExperts 0).set 0 1

omit [LinearOrder K] [IsStrictOrderedRing K] in
theorem getD_firstLogits (group : EpGroup) {e : ℕ} (he : e < group.numExperts) :
    (firstLogits group : List K).getD e 0 = if e = 0 then 1 else 0 := by
  unfold firstLogits
  rw [List.getD_eq_getElem _ _ (by simpa using he), List.getElem_set]
  by_cases h : e = 0
  · rw [if_pos h.symm, if_pos h]
  · rw [if_neg (Ne.symm h), if_neg h, List.getElem_replicate]

/-- Expert 0 is chosen, and the sum of the exponentials does not depend on the other choices. -/
theorem isTopK_firstLogits (exp : K → K) {ids : List ℕ} (h : IsTopK (firstLogits group : List K) topK ids)
    (htopK : 1 ≤ topK) : 0 ∈ ids ∧
      (ids.map fun id => exp ((firstLogits group : List K).getD id 0)).sum =
        exp 1 + (topK - 1) • exp 0 := by
  have hN : 0 < group.numExperts := Nat.mul_pos group.epSize_pos group.perRank_pos
  have hlen : (firstLogits group : List K).length = group.numExperts := by
    simp [firstLogits]
  have hmem : 0 ∈ ids := by
    by_contra hout
    obtain ⟨id, hid⟩ := List.exists_mem_of_length_pos (h.length.symm ▸ htopK : 0 < ids.length)
    have hle := h.le id hid 0 (hlen.symm ▸ hN) hout
    have hne : id ≠ 0 := fun h0 => hout (h0 ▸ hid)
    rw [getD_firstLogits group hN, getD_firstLogits group (hlen ▸ h.lt id hid), if_pos rfl,
      if_neg hne] at hle
    exact absurd hle (not_le.mpr one_pos)
  refine ⟨hmem, ?_⟩
  have hperm := (List.perm_cons_erase hmem).map fun id => exp ((firstLogits group : List K).getD id 0)
  rw [hperm.sum_eq, List.map_cons, List.sum_cons, getD_firstLogits group hN, if_pos rfl]
  have hrest : (ids.erase 0).map (fun id => exp ((firstLogits group : List K).getD id 0)) =
      List.replicate (topK - 1) (exp 0) := by
    rw [List.eq_replicate_iff, List.length_map, List.length_erase_of_mem hmem, h.length]
    refine ⟨rfl, fun v hv => ?_⟩
    obtain ⟨id, hid, rfl⟩ := List.mem_map.mp hv
    obtain ⟨hne, hid⟩ := (List.Nodup.mem_erase_iff h.nodup).mp hid
    rw [getD_firstLogits group (hlen ▸ h.lt id hid), if_neg hne]
  rw [hrest, List.sum_replicate]

omit [IsStrictOrderedRing K] [LinearOrder K] in
/-- The mixture of one expert has the weights of its id. -/
theorem mixture_oneExpert (silu : K → K) {k : ℕ} (hk : k < group.epSize)
    (expert : ExpertWeights K H I) (x : Fin H → K) (w : ℕ → K) {ids : List ℕ}
    (hids : ∀ id ∈ ids, id < group.numExperts) :
    mixture silu (oneExpert group k expert) x (ids.map fun id : ℕ => ((id : ℤ), w id)) =
      ids.count (k * group.perRank) • w (k * group.perRank) • expertMlp silu expert x := by
  have hN : k * group.perRank < group.numExperts :=
    Nat.mul_lt_mul_of_pos_right hk group.perRank_pos
  have hget : ∀ id ∈ ids, (oneExpert group k expert).getD id 0 =
      if id = k * group.perRank then expert else 0 := by
    intro id hid
    unfold oneExpert
    rw [List.getD_eq_getElem _ _ (by simpa using hids id hid), List.getElem_set]
    by_cases h : id = k * group.perRank
    · rw [if_pos h.symm, if_pos h]
    · rw [if_neg (Ne.symm h), if_neg h, List.getElem_replicate]
  have hself : (oneExpert group k expert).getD (k * group.perRank) 0 = expert := by
    unfold oneExpert
    rw [List.getD_eq_getElem _ _ (by simpa using hN), List.getElem_set, if_pos rfl]
  unfold mixture
  rw [List.map_map, List.sum_map_eq_nsmul_single (k * group.perRank)]
  · rw [Function.comp_apply, Int.toNat_natCast, hself]
  · intro id hne hid
    rw [Function.comp_apply, Int.toNat_natCast, hget id hid, if_neg hne, expertMlp_zero, smul_zero]

/-- An expert with the output `silu c` for the hidden state 1. -/
def probe (c : K) : ExpertWeights K 1 1 := ⟨Fin.append (fun _ _ => c) fun _ _ => 1, fun _ _ => 1⟩

omit [LinearOrder K] [IsStrictOrderedRing K] in
theorem expertMlp_probe (silu : K → K) (c : K) : expertMlp silu (probe c) (fun _ => 1) 0 = silu c := by
  have hgate : Fin.append (fun _ _ => c : Fin 1 → Fin 1 → K) (fun _ _ => 1) (Fin.castAdd 1 (0 : Fin 1)) 0 = c :=
    congrFun (Fin.append_left _ _ 0) 0
  have hup : Fin.append (fun _ _ => c : Fin 1 → Fin 1 → K) (fun _ _ => 1) (Fin.natAdd 1 (0 : Fin 1)) 0 = 1 :=
    congrFun (Fin.append_right _ _ 0) 0
  simp only [expertMlp, siluMul, probe, Finset.univ_unique, Fin.default_eq_zero, Finset.sum_singleton,
    hgate, hup, one_mul, mul_one]

/-- What the ranks return together for the first token, if the layer computes the mixture. -/
theorem sum_firstToken (hcomputes : ComputesMixture exp silu modules group flags topK numTokens 1 1)
    (c : K) (htopK : 1 ≤ topK) (hT : 1 ≤ numTokens) {k : ℕ} (hk : k < group.epSize) :
    ∃ outs : ℕ → List (Fin 1 → K),
      (∀ rank < group.epSize, pureTorchExperts exp silu modules (group.rankLayer flags topK
        (oneExpert group k (probe c)) (fun _ => blank group 1 1) rank)
        (List.replicate numTokens fun _ => 1) (List.replicate numTokens (firstLogits group)) =
          .ok (outs rank)) ∧
      ∃ n : ℕ, (k = 0 → n = 1) ∧ n ≤ 1 ∧
        (∑ rank ∈ Finset.range group.epSize, (outs rank).getD 0 0) 0 =
          n * (exp (if k = 0 then 1 else 0) / (exp 1 + (topK - 1) • exp 0) * silu c) := by
  have hlen : (firstLogits group : List K).length = group.numExperts := by
    simp [firstLogits]
  obtain ⟨-, rows, hrows, ⟨outs, houts, hsum⟩, -⟩ := hcomputes (oneExpert group k (probe c))
    (fun _ => blank group 1 1) (List.replicate group.numExperts 0)
    (List.replicate numTokens fun _ => 1) (List.replicate numTokens (firstLogits group))
    (by simp [oneExpert]) (fun _ => List.length_replicate) List.length_replicate List.length_replicate
    List.length_replicate fun row hrow => List.eq_of_mem_replicate hrow ▸ hlen
  have hcount : rows.length = numTokens := hrows.length_eq.symm.trans List.length_replicate
  have hrow : 0 < rows.length := hcount.symm ▸ hT
  have hrouting := (List.forall₂_iff_get.mp hrows).2 0 (by simpa using Nat.pos_of_ne_zero (by omega)) hrow
  rw [List.get_eq_getElem, List.get_eq_getElem, List.getElem_replicate] at hrouting
  obtain ⟨ids, htop, hids⟩ := hrouting
  obtain ⟨hmem, htotal⟩ := isTopK_firstLogits exp htop htopK
  have hlt : ∀ id ∈ ids, id < group.numExperts := fun id hid => hlen ▸ htop.lt id hid
  have hkN : k * group.perRank < group.numExperts := Nat.mul_lt_mul_of_pos_right hk group.perRank_pos
  have hk0 : k * group.perRank = 0 ↔ k = 0 := by
    rw [Nat.mul_eq_zero, or_iff_left group.perRank_pos.ne']
  refine ⟨outs, houts, ids.count (k * group.perRank), ?_, ?_, ?_⟩
  · intro h0
    rw [h0, Nat.zero_mul]
    exact List.count_eq_one_of_mem htop.nodup hmem
  · exact List.nodup_iff_count_le_one.mp htop.nodup _
  · have hat := congrArg (fun l => l.getD 0 0 0) hsum
    rw [List.getD_eq_getElem _ _ (by simpa using Nat.pos_of_ne_zero (by omega)), List.getElem_map,
      List.getElem_range,
      List.getD_eq_getElem _ _ (by rw [List.length_zipWith, List.length_replicate, hcount]; omega),
      List.getElem_zipWith, List.getElem_replicate, hids, mixture_oneExpert silu hk _ _ _ hlt, htotal,
      getD_firstLogits group hkN, Pi.smul_apply, Pi.smul_apply, expertMlp_probe, nsmul_eq_mul,
      smul_eq_mul] at hat
    simp only [hk0] at hat
    exact hat

/-- Experts `0` and `perRank` are told apart by the mixture, but not by the layer. -/
theorem not_computesMixture (hpos : ∀ c, 0 < exp c) (hmono : StrictMono exp) {c : K}
    (hsilu : silu c ≠ 0) (htopK : 1 ≤ topK) (hT : 1 ≤ numTokens) (hranks : 1 < group.epSize)
    (h : flags.keepsIds numTokens) :
    ¬ ComputesMixture exp silu modules group flags topK numTokens 1 1 := by
  intro hcomputes
  obtain ⟨outs, houts, n, hn, -, hsum⟩ :=
    sum_firstToken hcomputes c htopK hT (Nat.zero_lt_of_lt hranks)
  obtain ⟨outs', houts', n', -, hn', hsum'⟩ := sum_firstToken hcomputes c htopK hT hranks
  have hkeeps : flags.keepsIds (List.replicate numTokens (fun _ => 1 : Fin 1 → K)).length := by
    rwa [List.length_replicate]
  rw [sum_keepsIds hkeeps (probe c) (Nat.zero_lt_of_lt hranks) hranks houts houts' 0, hsum', hn rfl,
    if_neg one_ne_zero, if_pos rfl, Nat.cast_one, one_mul] at hsum
  have htotal : 0 < exp 1 + (topK - 1) • exp 0 :=
    add_pos_of_pos_of_nonneg (hpos 1) (nsmul_nonneg (hpos 0).le _)
  rw [← mul_assoc, ← mul_div_assoc] at hsum
  have hsum := (div_left_inj' htotal.ne').mp (mul_right_cancel₀ hsilu hsum)
  -- a weight `exp 1` cannot be at most one weight `exp 0`
  have hle : (n' : K) * exp 0 ≤ exp 0 := by
    have hcast : (n' : K) ≤ 1 := by
      exact_mod_cast hn'
    exact mul_le_of_le_one_left (hpos 0).le hcast
  exact absurd (hsum ▸ hle) (not_le.mpr (hmono one_pos))

end keepsIds

/-! ## The condition -/

/-- The layer computes the mixture exactly if there is one rank, or the path taken maps the ids. -/
theorem computesMixture_iff (hdoc : Documented exp silu modules) (hpos : ∀ c, 0 < exp c)
    (hmono : StrictMono exp) (hsilu : ∃ c, silu c ≠ 0) (htopK : 1 ≤ topK)
    (hexperts : topK ≤ group.numExperts) (hT : 1 ≤ numTokens) :
    (∀ H I, ComputesMixture exp silu modules group flags topK numTokens H I) ↔
      group.epSize = 1 ∨ ¬ flags.keepsIds numTokens := by
  obtain ⟨c, hc⟩ := hsilu
  have hranks := group.epSize_pos
  constructor
  · intro h
    by_contra hcond
    obtain ⟨hone, hkeeps⟩ := not_or.mp hcond
    exact not_computesMixture hpos hmono hc htopK hT (by omega) (not_not.mp hkeeps) (h 1 1)
  · intro hcond H I
    by_cases hkeeps : flags.keepsIds numTokens
    · exact computesMixture_of_one hdoc hpos hmono hexperts
        (hcond.resolve_right (not_not.mpr hkeeps)) hkeeps
    · exact computesMixture_of_local hdoc hpos hmono hexperts hkeeps

end tiers

/-- `F.silu`. -/
noncomputable def realSilu (c : ℝ) : ℝ := c / (1 + Real.exp (-c))

theorem realSilu_one : realSilu 1 ≠ 0 :=
  div_ne_zero one_ne_zero (add_pos one_pos (Real.exp_pos _)).ne'

/-- Two ranks with two experts each. -/
def twoRanks : EpGroup := ⟨2, 2, Nat.zero_lt_two, Nat.zero_lt_two⟩

/-- The loop over experts, without any extension module. -/
def naiveFlags : TierFlags where
  useIxFusedMoe := false
  useNaiveBatchedMoe := true
  useXllmMoe := false
  useCorexMoeTopkSoftmax := false
  useCorexMoeIndexCombine := false
  useGemmGrouped := false
  useFusedMoeActivation := false
  hasBridgeLinear := false
  isHalf := true

theorem computesMixture_iff_twoRanks :
    ComputesMixture Real.exp realSilu (standardModules Real.exp realSilu) twoRanks naiveFlags 2 1 3 2 :=
  (computesMixture_iff (standardModules_documented _ _) Real.exp_pos Real.exp_strictMono
    ⟨1, realSilu_one⟩ (by decide) (by decide) le_rfl).mpr
    (.inr (by simp [TierFlags.keepsIds, naiveFlags])) 3 2

/-- Two tokens on two ranks, with the loop over experts: the ranks do not add up to the mixture. -/
theorem not_computesMixture_twoTokens :
    ¬ ∀ H I, ComputesMixture Real.exp realSilu (standardModules Real.exp realSilu) twoRanks naiveFlags
      1 2 H I := fun h =>
  not_computesMixture Real.exp_pos Real.exp_strictMono realSilu_one le_rfl (by decide) (by decide)
    (.inr ⟨rfl, by decide⟩) (h 1 1)

end Ikun.Moe
