import Mathlib.Tactic.NormNum
import Ikun.Moe.IndexKernels

/-!
# When `moe_compute_index` groups the pairs

The result is a grouping permutation, for all contents of the uninitialised buffers and in all
interleavings, exactly when the counters fit into 32 bits and the prefix sum reaches all experts that
occur (`moeComputeIndex_iff`).

For the other direction the buffers hold -1. An expert that the prefix sum does not reach keeps it as
its offset, so the first pair that is placed there is written outside of the buffer
(`not_finished_of_unreached`); a pair whose expert id is not below the number of experts as a 32-bit
integer keeps it as its position (`srcDst_of_skipped`).
-/

namespace Ikun.Moe

open Device Interleave CountingSort

variable {ids : List ℤ} {n grid t : ℕ} {e : ℤ}

theorem atomicAdd_some {buf buf' : List ℤ} {i v old : ℤ}
    (h : atomicAdd buf i v = some (old, buf')) :
    buf[i.toNat]? = some old ∧ buf' = buf.set i.toNat (toInt32 (old + v)) := by
  unfold atomicAdd at h
  split at h
  · exact absurd h (by simp)
  · obtain ⟨old', hload, h⟩ := Option.bind_eq_some_iff.mp h
    obtain ⟨buf₁, hstore, h⟩ := Option.bind_eq_some_iff.mp h
    obtain ⟨rfl, rfl⟩ := Prod.mk.inj (Option.some.inj h)
    unfold store at hstore
    split at hstore
    · exact ⟨hload, (Option.some.inj hstore).symm⟩
    · exact absurd hstore (by simp)

/-! ## The histogram -/

/-- What a step of the histogram may write. -/
theorem moeHistogram_some {l l' : Bool} {sizes sizes' : List ℤ}
    (h : moeHistogram ids n e t l sizes = some (l', sizes')) :
    sizes' = sizes ∨ ∃ (k : ℕ) (v : ℤ), (k : ℤ) < e ∧ sizes' = sizes.set k (toInt32 v) := by
  unfold moeHistogram at h
  split at h
  · obtain ⟨eid, _, h⟩ := Option.bind_eq_some_iff.mp h
    split at h
    · next heid =>
      obtain ⟨⟨old, buf⟩, hadd, h⟩ := Option.bind_eq_some_iff.mp h
      obtain ⟨-, rfl⟩ := Prod.mk.inj (Option.some.inj h)
      refine Or.inr ⟨eid.toNat, old + 1, ?_, (atomicAdd_some hadd).2⟩
      rw [Int.toNat_of_nonneg heid.1]
      exact heid.2
    · exact Or.inl (Prod.mk.inj (Option.some.inj h)).2.symm
  · exact Or.inl (Prod.mk.inj (Option.some.inj h)).2.symm

/-- The counters are 32-bit integers, and those that no 32-bit expert id selects stay 0. -/
theorem histogram_limits {numExperts : ℕ} {sizes : List ℤ} (he : e < 2 ^ 31)
    (h : (moeHistogramKernel grid ids n e).Ends (List.replicate numExperts 0) (some sizes)) :
    (∀ v ∈ sizes, v < 2 ^ 31) ∧ ∀ k < numExperts, 2 ^ 31 ≤ k → sizes[k]? = some 0 := by
  have hkeeps : (moeHistogramKernel grid ids n e).Keeps fun c =>
      (∀ v ∈ c.shared, v < 2 ^ 31) ∧ ∀ k < numExperts, 2 ^ 31 ≤ k → c.shared[k]? = some 0 := by
    intro c t l s' hc _ hstep
    cases moeHistogram_some (l := c.locals t) hstep with
    | inl heq => exact heq ▸ hc
    | inr hset =>
      obtain ⟨k, v, hk, rfl⟩ := hset
      refine ⟨fun w hw => ?_, fun k' hk' hle => ?_⟩
      · cases List.mem_or_eq_of_mem_set hw with
        | inl hmem => exact hc.1 w hmem
        | inr heq => exact heq ▸ toInt32_lt v
      · rw [List.getElem?_set_ne (by omega)]
        exact hc.2 k' hk' hle
  have hzero : ∀ v ∈ List.replicate numExperts (0 : ℤ), v < 2 ^ 31 := by
    intro v hv
    rw [(List.mem_replicate.mp hv).2]
    decide
  obtain ⟨c, rfl, _, hc⟩ := Threads.ends_some hkeeps
    ⟨hzero, fun k hk _ => (List.getElem?_replicate).trans (if_pos hk)⟩ h
  exact hc

/-! ## The placement -/

/-- What a thread of the placement does at a step. -/
inductive PlaceStep (ids : List ℤ) (n : ℕ) (e : ℤ) (t : ℕ) (buffers : IndexBuffers) :
    PlaceState → PlaceState → IndexBuffers → Prop
  | skip : (∀ eid, t < n → load ids t = some eid → eid < 0 ∨ e ≤ eid) →
      PlaceStep ids n e t buffers .start .done buffers
  | take {eid old} : t < n → load ids t = some eid → 0 ≤ eid → eid < e →
      buffers.expertOffsets[eid.toNat]? = some old →
      PlaceStep ids n e t buffers .start (.placed old) { buffers with
        expertOffsets := buffers.expertOffsets.set eid.toNat (toInt32 (old + 1)) }
  | first {p} : 0 ≤ p → PlaceStep ids n e t buffers (.placed p) (.indexed p)
      { buffers with dstSrc := buffers.dstSrc.set p.toNat (toInt32 t) }
  | second {p} : PlaceStep ids n e t buffers (.indexed p) .done
      { buffers with srcDst := buffers.srcDst.set t p }
  | done : PlaceStep ids n e t buffers .done .done buffers

theorem placeStep_of_some {l l' : PlaceState} {buffers buffers' : IndexBuffers}
    (h : moePlaceIndices ids n e t l buffers = some (l', buffers')) :
    PlaceStep ids n e t buffers l l' buffers' := by
  cases l with
  | start =>
    simp only [moePlaceIndices] at h
    split at h
    · next hn =>
      obtain ⟨rfl, rfl⟩ := Prod.mk.inj (Option.some.inj h)
      exact .skip fun _ ht _ => absurd ht (Nat.not_lt.mpr hn)
    · next hn =>
      obtain ⟨eid, hload, h⟩ := Option.bind_eq_some_iff.mp h
      split at h
      · next heid =>
        obtain ⟨rfl, rfl⟩ := Prod.mk.inj (Option.some.inj h)
        refine .skip fun eid' _ hload' => ?_
        obtain rfl := Option.some.inj (hload.symm.trans hload')
        exact heid
      · next heid =>
        obtain ⟨hnonneg, hlt⟩ := not_or.mp heid
        obtain ⟨⟨old, buf⟩, hadd, h⟩ := Option.bind_eq_some_iff.mp h
        obtain ⟨rfl, rfl⟩ := Prod.mk.inj (Option.some.inj h)
        obtain ⟨hold, rfl⟩ := atomicAdd_some hadd
        exact .take (not_le.mp hn) hload (not_lt.mp hnonneg) (not_le.mp hlt) hold
  | placed p =>
    obtain ⟨dstSrc, hstore, h⟩ := Option.bind_eq_some_iff.mp h
    obtain ⟨rfl, rfl⟩ := Prod.mk.inj (Option.some.inj h)
    unfold storeAt store at hstore
    split at hstore
    · exact absurd hstore (by simp)
    · next hp =>
      split at hstore
      · obtain rfl := Option.some.inj hstore
        exact .first (not_lt.mp hp)
      · exact absurd hstore (by simp)
  | indexed p =>
    obtain ⟨srcDst, hstore, h⟩ := Option.bind_eq_some_iff.mp h
    obtain ⟨rfl, rfl⟩ := Prod.mk.inj (Option.some.inj h)
    unfold store at hstore
    split at hstore
    · obtain rfl := Option.some.inj hstore
      exact .second
    · exact absurd hstore (by simp)
  | done =>
    obtain ⟨rfl, rfl⟩ := Prod.mk.inj (Option.some.inj h)
    exact .done

/-- What the steps of the placement keep. -/
theorem keeps_of_placeStep {I : Config PlaceState IndexBuffers → Prop}
    (h : ∀ c t l₀ l s', I c → c.locals t = l₀ → PlaceStep ids n e t c.shared l₀ l s' →
      I ⟨Function.update c.locals t l, s'⟩) : (moePlaceIndicesKernel grid ids n e).Keeps I :=
  fun c t l s' hc _ hstep => h c t (c.locals t) l s' hc rfl (placeStep_of_some hstep)

/-- The placement writes 32-bit integers. -/
theorem dstSrc_limit {buffers placed : IndexBuffers} (hbuffers : ∀ v ∈ buffers.dstSrc, v < 2 ^ 31)
    (h : (moePlaceIndicesKernel grid ids n e).Ends buffers (some placed)) :
    ∀ v ∈ placed.dstSrc, v < 2 ^ 31 := by
  have hkeeps : (moePlaceIndicesKernel grid ids n e).Keeps fun c =>
      ∀ v ∈ c.shared.dstSrc, v < 2 ^ 31 := by
    refine keeps_of_placeStep fun c t l₀ l s' hc _ hstep => ?_
    cases hstep with
    | skip _ => exact hc
    | take _ _ _ _ _ => exact hc
    | first _ =>
      intro v hv
      cases List.mem_or_eq_of_mem_set hv with
      | inl hmem => exact hc v hmem
      | inr heq => exact heq ▸ toInt32_lt _
    | second => exact hc
    | done => exact hc
  obtain ⟨c, rfl, _, hc⟩ := Threads.ends_some hkeeps hbuffers h
  exact hc

/-- A pair whose expert id is out of range is not placed. -/
theorem srcDst_of_skipped {buffers placed : IndexBuffers} {v : ℤ}
    (hids : ∀ eid, load ids t = some eid → e ≤ eid) (hv : buffers.srcDst[t]? = some v)
    (h : (moePlaceIndicesKernel grid ids n e).Ends buffers (some placed)) :
    placed.srcDst[t]? = some v := by
  have hkeeps : (moePlaceIndicesKernel grid ids n e).Keeps fun c =>
      c.shared.srcDst[t]? = some v ∧ (c.locals t = .start ∨ c.locals t = .done) := by
    refine keeps_of_placeStep fun c t' l₀ l s' hc hlocal hstep => ?_
    obtain ⟨hsrc, hl⟩ := hc
    by_cases heq : t' = t
    · subst heq
      dsimp only
      rw [Function.update_self]
      rw [hlocal] at hl
      cases hstep with
      | skip _ => exact ⟨hsrc, Or.inr rfl⟩
      | take _ hload _ hlt _ => exact absurd hlt (not_lt.mpr (hids _ hload))
      | first _ => exact absurd hl (by simp)
      | second => exact absurd hl (by simp)
      | done => exact ⟨hsrc, Or.inr rfl⟩
    · dsimp only
      rw [Function.update_of_ne (Ne.symm heq)]
      refine ⟨?_, hl⟩
      cases hstep with
      | skip _ => exact hsrc
      | take _ _ _ _ _ => exact hsrc
      | first _ => exact hsrc
      | second => exact (List.getElem?_set_ne heq).trans hsrc
      | done => exact hsrc
  obtain ⟨c, rfl, _, hc⟩ := Threads.ends_some hkeeps ⟨hv, Or.inl rfl⟩ h
  exact hc.1

/-- An expert whose offset is -1 has no pair that is placed. -/
theorem not_finished_of_unreached {buffers placed : IndexBuffers} {eid : ℤ} (ht : t < n)
    (hgrid : n ≤ grid * kMoeIndexBlock) (hload : load ids t = some eid) (hnonneg : 0 ≤ eid)
    (hlt : eid < e) (hoffset : buffers.expertOffsets[eid.toNat]? = some (-1)) :
    ¬ (moePlaceIndicesKernel grid ids n e).Ends buffers (some placed) := by
  intro h
  -- no pair of the expert has been placed, or one of them is about to be written at -1
  have hkeeps : (moePlaceIndicesKernel grid ids n e).Keeps fun c =>
      (c.shared.expertOffsets[eid.toNat]? = some (-1) ∧ c.locals t = .start) ∨
        ∃ t' < n, c.locals t' = .placed (-1) := by
    refine keeps_of_placeStep fun c t' l₀ l s' hc hlocal hstep => ?_
    cases hc with
    | inl hc =>
      obtain ⟨hoff, hl⟩ := hc
      cases hstep with
      | skip hskip =>
        left
        refine ⟨hoff, ?_⟩
        by_cases heq : t = t'
        · subst heq
          exact absurd (hskip eid ht hload) (by omega)
        · exact (Function.update_of_ne heq _ _).trans hl
      | @take eid' old htn hload' hnonneg' hlt' hold =>
        by_cases heid : eid'.toNat = eid.toNat
        · right
          rw [heid, hoff] at hold
          obtain rfl := Option.some.inj hold
          exact ⟨t', htn, Function.update_self _ _ _⟩
        · left
          refine ⟨(List.getElem?_set_ne heid).trans hoff, ?_⟩
          by_cases heq : t = t'
          · subst heq
            obtain rfl := Option.some.inj (hload.symm.trans hload')
            exact absurd rfl heid
          · exact (Function.update_of_ne heq _ _).trans hl
      | first _ =>
        left
        refine ⟨hoff, (Function.update_of_ne (fun heq => ?_) _ _).trans hl⟩
        subst heq
        exact absurd (hl.symm.trans hlocal) (by simp)
      | second =>
        left
        refine ⟨hoff, (Function.update_of_ne (fun heq => ?_) _ _).trans hl⟩
        subst heq
        exact absurd (hl.symm.trans hlocal) (by simp)
      | done =>
        left
        refine ⟨hoff, (Function.update_of_ne (fun heq => ?_) _ _).trans hl⟩
        subst heq
        exact absurd (hl.symm.trans hlocal) (by simp)
    | inr hc =>
      obtain ⟨i, hi, hl⟩ := hc
      by_cases heq : i = t'
      · -- the write at -1 is a fault
        subst heq
        rw [← hlocal, hl] at hstep
        cases hstep with
        | first hp => exact absurd hp (by decide)
      · exact Or.inr ⟨i, hi, (Function.update_of_ne heq _ _).trans hl⟩
  obtain ⟨c, _, hfinished, hc⟩ := Threads.ends_some hkeeps (Or.inl ⟨hoffset, rfl⟩) h
  have hdone : ∀ i < n, c.locals i = .done := fun i hi =>
    of_decide_eq_true (hfinished i (hi.trans_le hgrid))
  cases hc with
  | inl hc => exact absurd (hc.2.symm.trans (hdone t ht)) (by simp)
  | inr hc =>
    obtain ⟨i, hi, hl⟩ := hc
    exact absurd (hl.symm.trans (hdone i hi)) (by simp)

/-! ## The three kernels -/

/-- The prefix sum does not reach experts beyond its block. -/
theorem prefixSum_unreached {sizes offsets offsets' : List ℤ} {k : ℕ} (hk : kMoeIndexBlock ≤ k)
    (h : moePrefixSumKernel sizes offsets e = some offsets') : offsets'[k]? = offsets[k]? := by
  obtain ⟨vals, _, hstores⟩ := Option.bind_eq_some_iff.mp h
  refine forEach_kept (fun thread hthread => ?_) hstores
  exact Nat.ne_of_lt ((List.mem_range.mp (List.mem_filter.mp hthread).1).trans_le hk)

/-- If the result is a grouping permutation for buffers that hold -1, the counters fit and the prefix
sum reaches all experts that occur. -/
theorem indexFits_of_returns {expertId : List ℤ} {numExperts : ℕ}
    (hids : ∀ id ∈ expertId, 0 ≤ id ∧ id < numExperts)
    (h : Returns (MoeComputeIndex expertId numExperts ⟨List.replicate numExperts (-1),
        List.replicate expertId.length (-1), List.replicate expertId.length (-1)⟩)
      (GroupingPermutation expertId numExperts)) : IndexFits expertId numExperts := by
  obtain ⟨o, ho⟩ := h.ends
  obtain ⟨r, rfl, hr⟩ := h.sound o ho
  obtain ⟨sizes, hsizes, ho⟩ := andThen_some ho
  obtain ⟨offsets, hoffsets, ho⟩ := andThen_some ho
  obtain ⟨placed, hplaced, ho⟩ := andThen_some ho
  obtain rfl := Option.some.inj ho
  obtain ⟨hsmall, hzero⟩ := histogram_limits (toInt32_lt _) hsizes
  have hsizesEq : sizes = (List.range numExperts).map fun k : ℕ => (expertId.count (k : ℤ) : ℤ) :=
    hr.expertSizes
  have hcount : ∀ k < numExperts, sizes[k]? = some (expertId.count (k : ℤ) : ℤ) := by
    intro k hk
    rw [hsizesEq, List.getElem?_map, List.getElem?_range hk]
    rfl
  have hfilled : ∀ t < expertId.length,
      (List.replicate expertId.length (-1 : ℤ))[t]? = some (-1) := fun t ht =>
    (List.getElem?_replicate).trans (if_pos ht)
  refine ⟨?_, fun id hid => ?_⟩
  · -- position 2^31 would have to be listed
    by_contra hlen
    have hmem : ((2 ^ 31 : ℕ) : ℤ) ∈ placed.dstSrc :=
      hr.dstSrc.mem_iff.mpr (List.mem_map_of_mem (List.mem_range.mpr (not_le.mp hlen)))
    have hfill : ∀ v ∈ List.replicate expertId.length (-1 : ℤ), v < 2 ^ 31 := by
      intro v hv
      rw [(List.mem_replicate.mp hv).2]
      decide
    exact absurd (dstSrc_limit hfill hplaced _ hmem) (by norm_num)
  · obtain ⟨hnonneg, hlt⟩ := hids id hid
    obtain ⟨k, rfl⟩ := Int.eq_ofNat_of_zero_le hnonneg
    have hk : k < numExperts := Int.ofNat_lt.mp hlt
    have hbelow : expertId.count (k : ℤ) < 2 ^ 31 := by
      exact_mod_cast hsmall _ (List.mem_of_getElem? (hcount k hk))
    have hk32 : k < 2 ^ 31 := by
      by_contra hge
      have heq := Option.some.inj ((hcount k hk).symm.trans (hzero k hk (not_lt.mp hge)))
      have hpos := List.count_pos_iff.mpr hid
      omega
    obtain ⟨t, ht, hget⟩ := List.mem_iff_getElem.mp hid
    have hself : toInt32 k = k := toInt32_eq_self (Int.natCast_nonneg k) (by exact_mod_cast hk32)
    have hload : load (expertIdI32 expertId) t = some (k : ℤ) := by
      rw [load, expertIdI32, List.getElem?_map, List.getElem?_eq_getElem ht, hget, Option.map_some,
        hself]
    have he : (k : ℤ) < toInt32 numExperts := by
      by_contra hge
      have hskipped := srcDst_of_skipped (t := t) (v := -1) (fun eid heid => by
        rw [← Option.some.inj (hload.symm.trans heid)]
        exact not_lt.mp hge) (hfilled t ht) hplaced
      obtain ⟨i, _, hi⟩ := List.mem_map.mp (hr.srcDst.mem_iff.mp (List.mem_of_getElem? hskipped))
      omega
    refine ⟨?_, he, hbelow⟩
    by_contra hge
    have hblock : kMoeIndexBlock ≤ k := Int.ofNat_le.mp (not_lt.mp hge)
    have hoffset : offsets[k]? = some (-1) :=
      (prefixSum_unreached hblock hoffsets.symm).trans ((List.getElem?_replicate).trans (if_pos hk))
    exact not_finished_of_unreached ht (length_le_indexGrid _) hload (Int.natCast_nonneg k) he
      hoffset hplaced

/-- The result is a grouping permutation, whatever the buffers hold and however the atomic additions
interleave, if and only if the counters fit and the prefix sum reaches all experts that occur. -/
theorem moeComputeIndex_iff {expertId : List ℤ} {numExperts : ℕ}
    (hids : ∀ id ∈ expertId, 0 ≤ id ∧ id < numExperts) :
    (∀ buffers : IndexBuffers, buffers.Allocated expertId.length numExperts →
      Returns (MoeComputeIndex expertId numExperts buffers)
        (GroupingPermutation expertId numExperts)) ↔
      IndexFits expertId numExperts := by
  constructor
  · intro h
    exact indexFits_of_returns hids (h _
      ⟨List.length_replicate, List.length_replicate, List.length_replicate⟩)
  · intro hfits buffers hbuffers
    exact moeComputeIndex_returns hids hfits hbuffers

theorem moeComputeIndex_iff_twoExperts :
    (∀ buffers : IndexBuffers, buffers.Allocated (List.length [1, 0, 1]) 2 →
      Returns (MoeComputeIndex [1, 0, 1] 2 buffers) (GroupingPermutation [1, 0, 1] 2)) ↔
      IndexFits [1, 0, 1] 2 := by
  have hids : ∀ id ∈ ([1, 0, 1] : List ℤ), 0 ≤ id ∧ id < (2 : ℕ) := by decide
  exact moeComputeIndex_iff hids

/-- A pair of expert 256, which the prefix sum does not reach. -/
theorem not_groupingPermutation_of_block :
    ¬ ∀ (expertId : List ℤ) (numExperts : ℕ), 1 ≤ numExperts →
      (∀ id ∈ expertId, 0 ≤ id ∧ id < numExperts) →
      ∀ buffers : IndexBuffers, buffers.Allocated expertId.length numExperts →
        Returns (MoeComputeIndex expertId numExperts buffers)
          (GroupingPermutation expertId numExperts) := by
  intro h
  have hfits : IndexFits [256] 257 := indexFits_of_returns (by decide)
    (h [256] 257 (by decide) (by decide) _
      ⟨List.length_replicate, List.length_replicate, List.length_replicate⟩)
  exact absurd (hfits.2 256 (by decide)).1 (by decide)

end Ikun.Moe
