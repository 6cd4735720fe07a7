import Mathlib.Data.Int.Cast.Lemmas
import Ikun.Lib.CountingSort
import Ikun.Moe.ComputeIndex

/-!
# What `moe_compute_index` returns

`GroupingPermutation` says what the consumer relies on: the counts of the experts, and two mutually
inverse permutations of the pairs of which one lists the pairs expert by expert.

The placement gives every pair a place of its own among those of its expert, whatever the order of
the atomic additions (`Placing`). That makes the result a grouping permutation as long as the counters
fit and the prefix sum reaches the experts: its single block has 256 threads
(`moeComputeIndex_iff`).
-/

namespace Ikun.Moe

open Device Interleave CountingSort

/-- The result groups the positions of the expert ids by expert. -/
structure GroupingPermutation (expertId : List ℤ) (numExperts : ℕ) (r : MoeIndex) : Prop where
  expertSizes : r.expertSizes = (List.range numExperts).map fun e : ℕ => (expertId.count (e : ℤ) : ℤ)
  dstSrc : r.dstSrc.Perm ((List.range expertId.length).map fun i : ℕ => (i : ℤ))
  srcDst : r.srcDst.Perm ((List.range expertId.length).map fun i : ℕ => (i : ℤ))
  inverse : ∀ i p : ℕ, r.srcDst[i]? = some (p : ℤ) ↔ r.dstSrc[p]? = some (i : ℤ)
  /-- All positions of expert 0, then of expert 1, and so on. -/
  grouped : r.dstSrc.map (fun i => expertId[i.toNat]?) =
    (List.range numExperts).flatMap fun e : ℕ => List.replicate (expertId.count (e : ℤ)) (some (e : ℤ))
  /-- The walk of the consumer visits every position once, for its own expert. -/
  visits : (expertWalk r.dstSrc 0 0 (r.expertSizes.map Int.toNat)).Perm
    ((List.range expertId.length).map fun i : ℕ => ((expertId.getD i 0).toNat, (i : ℤ)))

/-! ## Placements -/

/-- A loop over the counts of an expert after another. -/
theorem expertWalk_append (sorted : List ℤ) (eid start : ℕ) (counts counts' : List ℕ) :
    expertWalk sorted eid start (counts ++ counts') = expertWalk sorted eid start counts ++
      expertWalk sorted (eid + counts.length) (start + counts.sum) counts' := by
  induction counts generalizing eid start with
  | nil => rfl
  | cons count counts ih =>
    simp only [List.cons_append, expertWalk, ih, List.append_assoc, List.length_cons,
      List.sum_cons]
    rw [Nat.add_assoc eid, Nat.add_comm 1, Nat.add_assoc start]

theorem zip_replicate (n a : ℕ) (l : List ℤ) :
    (List.replicate n a).zip l = (l.take n).map fun i => (a, i) := by
  induction l generalizing n with
  | nil => simp
  | cons x l ih =>
    cases n with
    | zero => rfl
    | succ n => simp [List.replicate_succ, ih]

/-- The walk pairs the sorted positions with the experts in order. -/
theorem expertWalk_eq_zip {keys : List ℕ} {sorted : List ℤ} {n : ℕ}
    (h : offset keys n ≤ sorted.length) :
    expertWalk sorted 0 0 ((List.range n).map keys.count) = (groups keys n).zip sorted := by
  induction n with
  | zero => rfl
  | succ n ih =>
    have hn : offset keys n ≤ sorted.length := (offset_mono keys n.le_succ).trans h
    have hgroups : groups keys (n + 1) = groups keys n ++ List.replicate (keys.count n) n := by
      simp [groups, List.range_succ]
    rw [List.range_succ, List.map_append, expertWalk_append, ih hn, hgroups, sum_count_eq_offset]
    have hzip : (groups keys n ++ List.replicate (keys.count n) n).zip
        (sorted.take (offset keys n) ++ sorted.drop (offset keys n)) =
        (groups keys n).zip (sorted.take (offset keys n)) ++
          (List.replicate (keys.count n) n).zip (sorted.drop (offset keys n)) :=
      List.zip_append (by rw [length_groups, List.length_take, min_eq_left hn])
    have hprefix : (groups keys n).zip sorted =
        (groups keys n).zip (sorted.take (offset keys n)) := by
      rw [← length_groups, List.zip_eq_zip_take_min, length_groups, min_eq_left hn,
        List.take_of_length_le (length_groups n).le]
    rw [List.take_append_drop] at hzip
    rw [hzip, hprefix, zip_replicate]
    simp [expertWalk]

theorem range_map_eq_ofFn {α : Type} (f : ℕ → α) (n : ℕ) :
    (List.range n).map f = List.ofFn fun i : Fin n => f i := by
  refine List.ext_getElem (by simp) fun i _ _ => by simp

/-- Places for all positions make the result a grouping permutation. -/
theorem groupingPermutation_of_placement {keys : List ℕ} {numExperts : ℕ} {r : MoeIndex}
    {pos : ℕ → ℕ} (hkeys : ∀ k ∈ keys, k < numExperts) (hplacement : Placement keys pos)
    (hsizes : r.expertSizes = (List.range numExperts).map fun e : ℕ => (keys.count e : ℤ))
    (hdstLength : r.dstSrc.length = keys.length) (hsrcLength : r.srcDst.length = keys.length)
    (hdst : ∀ i < keys.length, r.dstSrc[pos i]? = some (i : ℤ))
    (hsrc : ∀ i < keys.length, r.srcDst[i]? = some (pos i : ℤ)) :
    GroupingPermutation (keys.map Nat.cast) numExperts r := by
  obtain ⟨σ, hσ⟩ := hplacement.exists_perm
  have hpos : ∀ p, pos (σ.symm p) = p := fun p => by rw [← hσ, Equiv.apply_symm_apply]
  have hdstEq : r.dstSrc = List.ofFn fun p => ((σ.symm p : ℕ) : ℤ) := by
    refine List.ext_getElem (by simp [hdstLength]) fun p hp _ => ?_
    have hp' : p < keys.length := hdstLength ▸ hp
    have hget := hdst (σ.symm ⟨p, hp'⟩) (σ.symm ⟨p, hp'⟩).isLt
    rw [hpos, List.getElem?_eq_getElem hp] at hget
    rw [List.getElem_ofFn]
    exact Option.some.inj hget
  have hsrcEq : r.srcDst = List.ofFn fun i => ((σ i : ℕ) : ℤ) := by
    refine List.ext_getElem (by simp [hsrcLength]) fun i hi _ => ?_
    have hget := hsrc i (hsrcLength ▸ hi)
    rw [List.getElem?_eq_getElem hi] at hget
    rw [List.getElem_ofFn, hσ]
    exact Option.some.inj hget
  have hcount : ∀ e : ℕ, (keys.map Nat.cast).count (e : ℤ) = keys.count e := fun e =>
    List.count_map_of_injective keys Nat.cast Nat.cast_injective e
  have hsorted := hplacement.sorted_eq hkeys σ hσ
  have hlength : (keys.map (Nat.cast : ℕ → ℤ)).length = keys.length := List.length_map _
  refine ⟨?_, ?_, ?_, fun i p => ?_, ?_, ?_⟩
  · simp only [hsizes, hcount]
  · rw [hdstEq, hlength, range_map_eq_ofFn]
    exact Equiv.Perm.ofFn_comp_perm σ.symm fun i : Fin keys.length => ((i : ℕ) : ℤ)
  · rw [hsrcEq, hlength, range_map_eq_ofFn]
    exact σ.ofFn_comp_perm fun i : Fin keys.length => ((i : ℕ) : ℤ)
  · -- both lists are read at positions below the length
    constructor
    · intro h
      obtain ⟨hi, -⟩ := List.getElem?_eq_some_iff.mp h
      rw [hsrcLength] at hi
      have hpi : (pos i : ℤ) = p := Option.some.inj ((hsrc i hi).symm.trans h)
      rw [← Int.natCast_inj.mp hpi]
      exact hdst i hi
    · intro h
      obtain ⟨hp, -⟩ := List.getElem?_eq_some_iff.mp h
      rw [hdstLength] at hp
      have hip := hdst (σ.symm ⟨p, hp⟩) (σ.symm ⟨p, hp⟩).isLt
      rw [hpos, h] at hip
      have hi := Int.natCast_inj.mp (Option.some.inj hip)
      rw [hi, hsrc _ (Fin.isLt _), hpos]
  · have hkeysAt : r.dstSrc.map (fun i => (keys.map (Nat.cast : ℕ → ℤ))[i.toNat]?) =
        (List.ofFn fun p => keys[σ.symm p]).map fun k : ℕ => some (k : ℤ) := by
      rw [hdstEq, List.map_ofFn, List.map_ofFn]
      refine congrArg List.ofFn (funext fun p => ?_)
      simp
    rw [hkeysAt, hsorted, groups, List.map_flatMap]
    refine congrArg (fun f => (List.range numExperts).flatMap f) (funext fun e => ?_)
    rw [List.map_replicate, hcount]
  · have hcounts : r.expertSizes.map Int.toNat = (List.range numExperts).map keys.count := by
      rw [hsizes, List.map_map]
      exact List.map_congr_left fun e _ => Int.toNat_natCast _
    rw [hcounts, expertWalk_eq_zip (by rw [offset_eq_length hkeys, hdstLength]), ← hsorted, hdstEq,
      hlength, range_map_eq_ofFn]
    have hzip : (List.ofFn fun p => keys[σ.symm p]).zip
        (List.ofFn fun p => ((σ.symm p : ℕ) : ℤ)) =
        List.ofFn ((fun i : Fin keys.length => (((keys.map (Nat.cast : ℕ → ℤ)).getD i 0).toNat,
          ((i : ℕ) : ℤ))) ∘ σ.symm) := by
      refine List.ext_getElem (by simp) fun p _ _ => ?_
      simp
    rw [hzip]
    exact Equiv.Perm.ofFn_comp_perm σ.symm _

end Ikun.Moe
