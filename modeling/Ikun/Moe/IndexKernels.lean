import Mathlib.Algebra.BigOperators.Ring.Finset
import Ikun.Moe.Grouping

/-!
# The runs of the `moe_compute_index` kernels

Every interleaving of the histogram counts the expert ids (`moeHistogram_returns`), and every
interleaving of the placement gives each position a place of its own among those of its expert
(`moePlaceIndices_returns`). The prefix sum in between has one block of threads, so it reaches the
first 256 experts only (`moePrefixSumKernel_eq`).
-/

namespace Ikun.Moe

open Device Interleave CountingSort

variable {keys : List ℕ} {numExperts grid : ℕ} {e : ℤ}

theorem toInt32_add (a b : ℤ) : toInt32 (toInt32 a + b) = toInt32 (a + b) := Int.bmod_add_bmod

theorem toInt32_zero : toInt32 0 = 0 := toInt32_eq_self le_rfl (by decide)

theorem load_keys {t k : ℕ} (hk : keys[t]? = some k) :
    load (keys.map (Nat.cast : ℕ → ℤ)) t = some (k : ℤ) := by
  rw [load, List.getElem?_map, hk]
  rfl

theorem store_eq {buf : List ℤ} {i : ℕ} (h : i < buf.length) (v : ℤ) :
    store buf i v = some (buf.set i v) := if_pos h

theorem atomicAdd_eq {buf : List ℤ} {k : ℕ} {v : ℤ} (h : buf[k]? = some v) :
    atomicAdd buf k 1 = some (v, buf.set k (toInt32 (v + 1))) := by
  have hlt : k < buf.length := (List.getElem?_eq_some_iff.mp h).1
  simp [atomicAdd, load, h, store_eq hlt]

/-! ## The histogram -/

/-- The counters are the numbers of positions that have been counted. -/
structure Counting (keys : List ℕ) (numExperts : ℕ) (c : Config Bool (List ℤ)) : Prop where
  length : c.shared.length = numExperts
  count : ∀ k < numExperts,
    c.shared[k]? = some (toInt32 (tally keys (threadsIn id keys.length c.locals) k))

theorem moeHistogram_of_le {t : ℕ} {l : Bool} {sizes : List ℤ} (ht : keys.length ≤ t) :
    moeHistogram (keys.map Nat.cast) keys.length e t l sizes = some (true, sizes) :=
  if_neg (Nat.not_lt.mpr ht)

theorem moeHistogram_eq {t k : ℕ} {l : Bool} {sizes : List ℤ} {v : ℤ} (hk : keys[t]? = some k)
    (he : (k : ℤ) < e) (hv : sizes[k]? = some v) :
    moeHistogram (keys.map Nat.cast) keys.length e t l sizes =
      some (true, sizes.set k (toInt32 (v + 1))) := by
  have ht : t < keys.length := (List.getElem?_eq_some_iff.mp hk).1
  simp [moeHistogram, ht, load_keys hk, he, atomicAdd_eq hv]

theorem moeHistogram_done {ids : List ℤ} {n t : ℕ} {l l' : Bool} {sizes sizes' : List ℤ}
    (h : moeHistogram ids n e t l sizes = some (l', sizes')) : l' = true := by
  unfold moeHistogram at h
  split at h
  · obtain ⟨eid, _, h⟩ := Option.bind_eq_some_iff.mp h
    split at h
    · obtain ⟨r, _, h⟩ := Option.bind_eq_some_iff.mp h
      exact (Prod.mk.inj (Option.some.inj h)).1.symm
    · exact (Prod.mk.inj (Option.some.inj h)).1.symm
  · exact (Prod.mk.inj (Option.some.inj h)).1.symm

/-- One step of the histogram, from counters that are right. -/
theorem Counting.step (hkeys : ∀ k ∈ keys, k < numExperts ∧ (k : ℤ) < e)
    {c : Config Bool (List ℤ)} (hc : Counting keys numExperts c) {t : ℕ} {l : Bool}
    (ht : c.locals t = false) :
    ∃ sizes, moeHistogram (keys.map Nat.cast) keys.length e t l c.shared = some (true, sizes) ∧
      Counting keys numExperts ⟨Function.update c.locals t true, sizes⟩ := by
  cases Nat.lt_or_ge t keys.length with
  | inr hge =>
    refine ⟨c.shared, moeHistogram_of_le hge, hc.length, fun k hk => ?_⟩
    rw [threadsIn_update_same fun h => absurd h (Nat.not_lt.mpr hge)]
    exact hc.count k hk
  | inl hlt =>
    obtain ⟨hk, hke⟩ := hkeys keys[t] (List.getElem_mem hlt)
    have hget : keys[t]? = some keys[t] := List.getElem?_eq_getElem hlt
    have hfresh : t ∉ threadsIn id keys.length c.locals := fun h =>
      absurd (mem_threadsIn.mp h).2 (by simp [ht])
    refine ⟨_, moeHistogram_eq hget hke (hc.count _ hk), ?_, fun k hk' => ?_⟩
    · exact (List.length_set).trans hc.length
    · rw [threadsIn_update_insert hlt rfl, tally_insert hfresh k hget]
      by_cases heq : k = keys[t]
      · subst heq
        rw [if_pos rfl, List.getElem?_set_self (hc.length.symm ▸ hk), toInt32_add]
        rfl
      · rw [if_neg heq, List.getElem?_set_ne (Ne.symm heq)]
        exact hc.count k hk'

theorem moeHistogram_returns (hkeys : ∀ k ∈ keys, k < numExperts ∧ (k : ℤ) < e)
    (hgrid : keys.length ≤ grid * kMoeIndexBlock) :
    Returns ((moeHistogramKernel grid (keys.map Nat.cast) keys.length e).Ends
        (List.replicate numExperts 0))
      fun sizes => sizes = (List.range numExperts).map fun k : ℕ => toInt32 (keys.count k) := by
  have hinit : Counting keys numExperts ((moeHistogramKernel grid (keys.map Nat.cast)
      keys.length e).init (List.replicate numExperts 0)) := by
    refine ⟨List.length_replicate, fun k hk => ?_⟩
    have hempty : threadsIn id keys.length (fun _ => false) = ∅ :=
      Finset.filter_eq_empty_iff.mpr fun _ _ => Bool.false_ne_true
    change (List.replicate numExperts (0 : ℤ))[k]? =
      some (toInt32 (tally keys (threadsIn id keys.length fun _ => false) k))
    have hzero : tally keys ∅ k = 0 := rfl
    rw [hempty, List.getElem?_replicate, if_pos hk, hzero, Nat.cast_zero, toInt32_zero]
  have hreturns := Threads.returns (p := moeHistogramKernel grid (keys.map Nat.cast) keys.length e)
    (I := Counting keys numExperts) (fun done => if done then 0 else 1)
    (fun t l s l' s' hl hstep => ?_) (fun c t l s' hc hactive hstep => ?_)
    (fun c t hc hactive => ?_) hinit
  · refine ⟨hreturns.ends, fun o ho => ?_⟩
    obtain ⟨sizes, rfl, c, rfl, hfinished, hc⟩ := hreturns.sound o ho
    refine ⟨c.shared, rfl, List.ext_getElem? fun k => ?_⟩
    have hall : threadsIn id keys.length c.locals = Finset.range keys.length :=
      Finset.filter_eq_self.mpr fun t ht =>
        hfinished t ((Finset.mem_range.mp ht).trans_le hgrid)
    cases Nat.lt_or_ge k numExperts with
    | inl hk => rw [hc.count k hk, hall, tally_range, List.getElem?_map, List.getElem?_range hk]; rfl
    | inr hk =>
      rw [List.getElem?_eq_none (hc.length.le.trans hk), List.getElem?_eq_none (by simpa using hk)]
  · rw [moeHistogram_done (l := l) hstep, show l = false from hl]
    decide
  · obtain ⟨sizes, hstep', hc'⟩ := hc.step (l := c.locals t) hkeys hactive.2
    obtain ⟨rfl, rfl⟩ := Prod.mk.inj (Option.some.inj (hstep'.symm.trans hstep))
    exact hc'
  · obtain ⟨sizes, hstep', _⟩ := hc.step (l := c.locals t) hkeys hactive.2
    exact fun h => absurd (hstep'.symm.trans h) (Option.some_ne_none _)

/-! ## The prefix sum -/

theorem toInt32_sum (l : List ℤ) : toInt32 ((l.map toInt32).sum) = toInt32 l.sum := by
  induction l with
  | nil => rfl
  | cons a l ih =>
    rw [List.map_cons, List.sum_cons, List.sum_cons, toInt32_add, Int.add_comm, ← toInt32_add, ih,
      toInt32_add, Int.add_comm]

/-- The sums of the block of threads, for the experts that it reaches. -/
theorem exclusiveSum_eq {k n : ℕ} (p : ℕ → Bool) (hk : k < n) (hp : ∀ j < k, p j = true) :
    load (exclusiveSum ((List.range n).map fun thread =>
      if p thread then toInt32 (keys.count thread) else 0)) k = some (toInt32 (offset keys k)) := by
  have hlength : ((List.range n).map fun thread =>
      if p thread then toInt32 (keys.count thread) else 0).length = n := by simp
  have htake : ((List.range n).map fun thread =>
      if p thread then toInt32 (keys.count thread) else 0).take k =
        ((List.range k).map fun thread => (keys.count thread : ℤ)).map toInt32 := by
    rw [← List.map_take, List.take_range, min_eq_left hk.le, List.map_map]
    refine List.map_congr_left fun j hj => ?_
    rw [Function.comp_apply, if_pos (hp j (List.mem_range.mp hj))]
  have hcast : ((List.range k).map fun thread => (keys.count thread : ℤ)).sum =
      (offset keys k : ℤ) := by
    rw [← sum_count_eq_offset, Nat.cast_list_sum, List.map_map]
    rfl
  rw [load, exclusiveSum, List.getElem?_map, hlength, List.getElem?_range hk, Option.map_some,
    htake, toInt32_sum, hcast]

/-- The prefix sum gives the first 256 experts their offsets. -/
theorem moePrefixSumKernel_eq {sizes offsets : List ℤ}
    (hsizes : sizes = (List.range numExperts).map fun k : ℕ => toInt32 (keys.count k))
    (hoffsets : offsets.length = numExperts) :
    ∃ offsets', moePrefixSumKernel sizes offsets (toInt32 numExperts) = some offsets' ∧
      offsets'.length = numExperts ∧ ∀ k < kMoeIndexBlock, (k : ℤ) < toInt32 numExperts →
        offsets'[k]? = some (toInt32 (offset keys k)) := by
  set isExpert := fun thread : ℕ => decide ((thread : ℤ) < toInt32 numExperts % 2 ^ 32) with hdef
  have hbound : ∀ thread, isExpert thread = true → thread < numExperts := by
    intro thread h
    have hlt : (thread : ℤ) < toInt32 numExperts % 2 ^ 32 := of_decide_eq_true h
    have hmod : toInt32 numExperts % 2 ^ 32 = (numExperts : ℤ) % 2 ^ 32 := Int.bmod_emod
    omega
  have hloads : (List.range kMoeIndexBlock).mapM (fun thread =>
      if isExpert thread then load sizes thread else some 0) =
        some ((List.range kMoeIndexBlock).map fun thread =>
          if isExpert thread then toInt32 (keys.count thread) else 0) := by
    refine mapM_eq fun thread _ => ?_
    split
    · next h =>
      rw [hsizes, load, List.getElem?_map, List.getElem?_range (hbound thread h)]
      rfl
    · rfl
  have hstores : ∀ thread ∈ (List.range kMoeIndexBlock).filter isExpert,
      load (exclusiveSum ((List.range kMoeIndexBlock).map fun thread =>
        if isExpert thread then toInt32 (keys.count thread) else 0)) thread =
          some (toInt32 (offset keys thread)) := by
    intro thread h
    obtain ⟨hmem, hthread⟩ := List.mem_filter.mp h
    refine exclusiveSum_eq isExpert (List.mem_range.mp hmem) fun j hj => decide_eq_true ?_
    have hlt : (thread : ℤ) < toInt32 numExperts % 2 ^ 32 := of_decide_eq_true hthread
    omega
  obtain ⟨offsets', hok, hwritten⟩ := forEach_spec
    ((List.range kMoeIndexBlock).filter isExpert) id
    (fun thread _ => load (exclusiveSum ((List.range kMoeIndexBlock).map fun thread =>
      if isExpert thread then toInt32 (keys.count thread) else 0)) thread)
    (fun thread => toInt32 (offset keys thread)) offsets
    (by rw [List.map_id]; exact List.nodup_range.filter _)
    (fun thread h => hoffsets.symm ▸ hbound thread (List.mem_filter.mp h).2)
    (fun thread h _ _ _ => hstores thread h)
  refine ⟨offsets', ?_, hwritten.length.trans hoffsets, fun k hk hke => ?_⟩
  · unfold moePrefixSumKernel
    exact (bind_eq hloads _).trans hok
  · have hlt := toInt32_lt numExperts
    have hexpert : isExpert k = true := decide_eq_true (by omega)
    exact hwritten.written k (List.mem_filter.mpr ⟨List.mem_range.mpr hk, hexpert⟩)

/-! ## The placement -/

/-- Has the thread taken its place? -/
def hasPlace : PlaceState → Bool
  | .start => false
  | _ => true

/-- The next place of an expert, when the positions in `s` have one. -/
def nextPlace (keys : List ℕ) (s : Finset ℕ) (k : ℕ) : ℕ := offset keys k + tally keys s k

/-- The counters are past the places `pos` of the positions in `s`. No two of these are the same. -/
structure Places (keys : List ℕ) (pos : ℕ → ℕ) (s : Finset ℕ) (expertOffsets : List ℤ) :
    Prop where
  below : s ⊆ Finset.range keys.length
  counter : ∀ k ∈ keys, expertOffsets[k]? = some (toInt32 (nextPlace keys s k))
  place : ∀ i ∈ s, ∀ k, keys[i]? = some k → offset keys k ≤ pos i ∧ pos i < nextPlace keys s k
  injective : ∀ i ∈ s, ∀ j ∈ s, pos i = pos j → i = j

namespace Places

variable {pos : ℕ → ℕ} {s : Finset ℕ} {expertOffsets : List ℤ} {i k : ℕ}

theorem nextPlace_le (h : s ⊆ Finset.range keys.length) (k : ℕ) :
    nextPlace keys s k ≤ offset keys (k + 1) := by
  have htally := tally_mono keys h k
  rw [tally_range] at htally
  rw [offset_succ]
  exact Nat.add_le_add_left htally _

/-- There is room for a position that has no place yet. -/
theorem nextPlace_lt (h : Places keys pos s expertOffsets) (hi : i ∉ s) (hk : keys[i]? = some k) :
    nextPlace keys s k < offset keys (k + 1) := by
  rw [offset_succ]
  exact Nat.add_lt_add_left (tally_lt_count h.below hi hk) _

theorem pos_lt (h : Places keys pos s expertOffsets) (hi : i ∈ s) : pos i < keys.length := by
  have hlt := Finset.mem_range.mp (h.below hi)
  obtain ⟨_, hplace⟩ := h.place i hi _ (List.getElem?_eq_getElem hlt)
  exact (hplace.trans_le (nextPlace_le h.below _)).trans_le (offset_le_length keys _)

/-- The next place of an expert is not one that has been taken. -/
theorem pos_ne (h : Places keys pos s expertOffsets) {t : ℕ} (ht : t ∉ s) (hk : keys[t]? = some k)
    (hi : i ∈ s) : pos i ≠ nextPlace keys s k := by
  intro heq
  have hlt := Finset.mem_range.mp (h.below hi)
  obtain ⟨hle, hplace⟩ := h.place i hi _ (List.getElem?_eq_getElem hlt)
  rw [heq] at hle hplace
  have hsame : keys[i] = k := eq_of_places hle (hplace.trans_le (nextPlace_le h.below _))
    (Nat.le_add_right _ _) (h.nextPlace_lt ht hk)
  rw [hsame] at hplace
  exact absurd hplace (Nat.lt_irrefl _)

/-- The atomic addition: position `t` takes the next place of its expert. -/
theorem take (h : Places keys pos s expertOffsets) {t : ℕ} (ht : t ∉ s) (hk : keys[t]? = some k) :
    Places keys (Function.update pos t (nextPlace keys s k)) (insert t s)
      (expertOffsets.set k (toInt32 (nextPlace keys s k + 1))) := by
  have hlt : t < keys.length := (List.getElem?_eq_some_iff.mp hk).1
  have hkeys : k ∈ keys := List.mem_of_getElem? hk
  have hnext : ∀ k', nextPlace keys (insert t s) k' =
      nextPlace keys s k' + if k' = k then 1 else 0 := by
    intro k'
    rw [nextPlace, tally_insert ht k' hk, nextPlace, Nat.add_assoc]
  have hpos : ∀ i ∈ s, Function.update pos t (nextPlace keys s k) i = pos i := by
    intro i hi
    exact Function.update_of_ne (fun heq : i = t => ht (heq ▸ hi)) _ _
  constructor
  case below => exact Finset.insert_subset (Finset.mem_range.mpr hlt) h.below
  case counter =>
    intro k' hk'
    rw [hnext]
    by_cases heq : k' = k
    · subst heq
      rw [if_pos rfl, Nat.cast_add, Nat.cast_one]
      exact List.getElem?_set_self (List.getElem?_eq_some_iff.mp (h.counter k' hk')).1
    · rw [if_neg heq]
      exact (List.getElem?_set_ne (Ne.symm heq)).trans (h.counter k' hk')
  case place =>
    intro i hi k' hk'
    rw [hnext]
    cases Finset.mem_insert.mp hi with
    | inl heq =>
      subst heq
      obtain rfl : k = k' := Option.some.inj (hk.symm.trans hk')
      rw [Function.update_self, if_pos rfl]
      exact ⟨Nat.le_add_right _ _, Nat.lt_succ_self _⟩
    | inr hmem =>
      rw [hpos i hmem]
      obtain ⟨hle, hplace⟩ := h.place i hmem k' hk'
      exact ⟨hle, hplace.trans_le (Nat.le_add_right _ _)⟩
  case injective =>
    intro i hi j hj heq
    cases Finset.mem_insert.mp hi with
    | inl hit =>
      cases Finset.mem_insert.mp hj with
      | inl hjt => exact hit.trans hjt.symm
      | inr hmem =>
        rw [hit, Function.update_self, hpos j hmem] at heq
        exact absurd heq.symm (h.pos_ne ht hk hmem)
    | inr hmem =>
      cases Finset.mem_insert.mp hj with
      | inl hjt =>
        rw [hjt, Function.update_self, hpos i hmem] at heq
        exact absurd heq (h.pos_ne ht hk hmem)
      | inr hmem' =>
        rw [hpos i hmem, hpos j hmem'] at heq
        exact h.injective i hmem j hmem' heq

end Places

/-- The places that the threads have taken, and what they have written there. -/
structure Placing (keys : List ℕ) (pos : ℕ → ℕ) (c : Config PlaceState IndexBuffers) : Prop where
  places : Places keys pos (threadsIn hasPlace keys.length c.locals) c.shared.expertOffsets
  dstSrc_length : c.shared.dstSrc.length = keys.length
  srcDst_length : c.shared.srcDst.length = keys.length
  placed : ∀ i < keys.length, ∀ p, c.locals i = .placed p ∨ c.locals i = .indexed p → p = pos i
  dstSrc : ∀ i < keys.length, (∃ p, c.locals i = .indexed p) ∨ c.locals i = .done →
    c.shared.dstSrc[pos i]? = some (i : ℤ)
  srcDst : ∀ i < keys.length, c.locals i = .done → c.shared.srcDst[i]? = some (pos i : ℤ)
  idle : ∀ i, keys.length ≤ i → c.locals i = .start ∨ c.locals i = .done

namespace Placing

variable {pos : ℕ → ℕ} {c : Config PlaceState IndexBuffers} {t : ℕ}

theorem mem_of_hasPlace {l : PlaceState} (ht : t < keys.length) (hl : c.locals t = l)
    (hplace : hasPlace l = true) : t ∈ threadsIn hasPlace keys.length c.locals :=
  mem_threadsIn.mpr ⟨ht, hl ▸ hplace⟩

/-- A thread beyond the positions ends at once. -/
theorem step_idle (hc : Placing keys pos c) (ht : keys.length ≤ t) :
    Placing keys pos ⟨Function.update c.locals t .done, c.shared⟩ := by
  have hsame : ∀ i < keys.length, Function.update c.locals t .done i = c.locals i := fun i hi =>
    Function.update_of_ne (Nat.ne_of_lt (hi.trans_le ht)) _ _
  constructor
  case places =>
    dsimp only
    rw [threadsIn_update_same fun h => absurd h (Nat.not_lt.mpr ht)]
    exact hc.places
  case dstSrc_length => exact hc.dstSrc_length
  case srcDst_length => exact hc.srcDst_length
  case placed => intro i hi; dsimp only; rw [hsame i hi]; exact hc.placed i hi
  case dstSrc => intro i hi; dsimp only; rw [hsame i hi]; exact hc.dstSrc i hi
  case srcDst => intro i hi; dsimp only; rw [hsame i hi]; exact hc.srcDst i hi
  case idle =>
    intro i hi
    by_cases heq : i = t
    · subst heq
      exact Or.inr (Function.update_self _ _ _)
    · dsimp only
      rw [Function.update_of_ne heq]
      exact hc.idle i hi

/-- The atomic addition. -/
theorem step_start (hc : Placing keys pos c) {k : ℕ} (hk : keys[t]? = some k)
    (ht : c.locals t = .start) :
    ∃ p : ℕ, p < keys.length ∧ (keys.length ≤ 2 ^ 31 → c.shared.expertOffsets[k]? = some (p : ℤ)) ∧
      Placing keys (Function.update pos t p) ⟨Function.update c.locals t (.placed p),
        { c.shared with expertOffsets := c.shared.expertOffsets.set k (toInt32 (p + 1)) }⟩ := by
  have hlt : t < keys.length := (List.getElem?_eq_some_iff.mp hk).1
  have hfresh : t ∉ threadsIn hasPlace keys.length c.locals := fun h => by
    have hplace := (mem_threadsIn.mp h).2
    rw [ht] at hplace
    exact absurd hplace (by decide)
  set p := nextPlace keys (threadsIn hasPlace keys.length c.locals) k
  have hp : p < keys.length := (hc.places.nextPlace_lt hfresh hk).trans_le (offset_le_length keys _)
  have hother : ∀ i, i ≠ t → Function.update c.locals t (.placed p) i = c.locals i ∧
      Function.update pos t p i = pos i := fun i hi =>
    ⟨Function.update_of_ne hi _ _, Function.update_of_ne hi _ _⟩
  refine ⟨p, hp, fun hN => ?_, ?_⟩
  · rw [hc.places.counter k (List.mem_of_getElem? hk), toInt32_eq_self (Int.natCast_nonneg _)]
    exact_mod_cast hp.trans_le hN
  constructor
  case places =>
    dsimp only
    rw [threadsIn_update_insert hlt rfl]
    exact hc.places.take hfresh hk
  case dstSrc_length => exact hc.dstSrc_length
  case srcDst_length => exact hc.srcDst_length
  case placed =>
    intro i hi q hq
    by_cases heq : i = t
    · subst heq
      dsimp only at hq
      rw [Function.update_self] at hq ⊢
      cases hq with
      | inl h => exact (PlaceState.placed.inj h).symm
      | inr h => exact PlaceState.noConfusion h
    · obtain ⟨hl, hp⟩ := hother i heq
      rw [hp]
      exact hc.placed i hi q (hl ▸ hq)
  case dstSrc =>
    intro i hi hq
    by_cases heq : i = t
    · subst heq
      dsimp only at hq
      rw [Function.update_self] at hq
      cases hq with
      | inl h => exact PlaceState.noConfusion h.choose_spec
      | inr h => exact PlaceState.noConfusion h
    · obtain ⟨hl, hp⟩ := hother i heq
      rw [hp]
      exact hc.dstSrc i hi (hl ▸ hq)
  case srcDst =>
    intro i hi hq
    by_cases heq : i = t
    · subst heq
      dsimp only at hq
      rw [Function.update_self] at hq
      exact PlaceState.noConfusion hq
    · obtain ⟨hl, hp⟩ := hother i heq
      rw [hp]
      exact hc.srcDst i hi (hl ▸ hq)
  case idle =>
    intro i hi
    dsimp only
    rw [Function.update_of_ne (Nat.ne_of_gt (hlt.trans_le hi))]
    exact hc.idle i hi

/-- The first write. -/
theorem step_placed (hc : Placing keys pos c) (hlt : t < keys.length)
    (ht : c.locals t = .placed (pos t)) :
    Placing keys pos ⟨Function.update c.locals t (.indexed (pos t)),
      { c.shared with dstSrc := c.shared.dstSrc.set (pos t) t }⟩ := by
  have hmem := mem_of_hasPlace hlt ht rfl
  have hthreads : threadsIn hasPlace keys.length
      (Function.update c.locals t (.indexed (pos t))) = threadsIn hasPlace keys.length c.locals :=
    threadsIn_update_same fun _ => by rw [ht]; rfl
  constructor
  case places =>
    dsimp only
    rw [hthreads]
    exact hc.places
  case dstSrc_length => exact List.length_set.trans hc.dstSrc_length
  case srcDst_length => exact hc.srcDst_length
  case placed =>
    intro i hi q hq
    by_cases heq : i = t
    · subst heq
      dsimp only at hq
      rw [Function.update_self] at hq
      cases hq with
      | inl h => exact PlaceState.noConfusion h
      | inr h => exact (PlaceState.indexed.inj h).symm
    · dsimp only at hq
      rw [Function.update_of_ne heq] at hq
      exact hc.placed i hi q hq
  case dstSrc =>
    intro i hi hq
    by_cases heq : i = t
    · subst heq
      exact List.getElem?_set_self (hc.dstSrc_length.symm ▸ hc.places.pos_lt hmem)
    · dsimp only at hq
      rw [Function.update_of_ne heq] at hq
      have hi' : i ∈ threadsIn hasPlace keys.length c.locals := by
        cases hq with
        | inl h => exact mem_of_hasPlace hi h.choose_spec rfl
        | inr h => exact mem_of_hasPlace hi h rfl
      -- another position has another place
      refine (List.getElem?_set_ne fun hpos => heq ?_).trans (hc.dstSrc i hi hq)
      exact hc.places.injective i hi' t hmem hpos.symm
  case srcDst =>
    intro i hi hq
    by_cases heq : i = t
    · subst heq
      dsimp only at hq
      rw [Function.update_self] at hq
      exact PlaceState.noConfusion hq
    · dsimp only at hq
      rw [Function.update_of_ne heq] at hq
      exact hc.srcDst i hi hq
  case idle =>
    intro i hi
    dsimp only
    rw [Function.update_of_ne (Nat.ne_of_gt (hlt.trans_le hi))]
    exact hc.idle i hi

/-- The second write. -/
theorem step_indexed (hc : Placing keys pos c) (hlt : t < keys.length)
    (ht : c.locals t = .indexed (pos t)) :
    Placing keys pos ⟨Function.update c.locals t .done,
      { c.shared with srcDst := c.shared.srcDst.set t (pos t) }⟩ := by
  have hthreads : threadsIn hasPlace keys.length (Function.update c.locals t .done) =
      threadsIn hasPlace keys.length c.locals :=
    threadsIn_update_same fun _ => by rw [ht]; rfl
  constructor
  case places =>
    dsimp only
    rw [hthreads]
    exact hc.places
  case dstSrc_length => exact hc.dstSrc_length
  case srcDst_length => exact List.length_set.trans hc.srcDst_length
  case placed =>
    intro i hi q hq
    by_cases heq : i = t
    · subst heq
      dsimp only at hq
      rw [Function.update_self] at hq
      cases hq with
      | inl h => exact PlaceState.noConfusion h
      | inr h => exact PlaceState.noConfusion h
    · dsimp only at hq
      rw [Function.update_of_ne heq] at hq
      exact hc.placed i hi q hq
  case dstSrc =>
    intro i hi hq
    by_cases heq : i = t
    · subst heq
      exact hc.dstSrc i hi (Or.inl ⟨_, ht⟩)
    · dsimp only at hq
      rw [Function.update_of_ne heq] at hq
      exact hc.dstSrc i hi hq
  case srcDst =>
    intro i hi hq
    by_cases heq : i = t
    · subst heq
      exact List.getElem?_set_self (hc.srcDst_length.symm ▸ hlt)
    · dsimp only at hq
      rw [Function.update_of_ne heq] at hq
      exact (List.getElem?_set_ne (Ne.symm heq)).trans (hc.srcDst i hi hq)
  case idle =>
    intro i hi
    dsimp only
    rw [Function.update_of_ne (Nat.ne_of_gt (hlt.trans_le hi))]
    exact hc.idle i hi

/-- One step of a thread that has not ended. -/
theorem step (hN : keys.length ≤ 2 ^ 31) (hkeys : ∀ k ∈ keys, (k : ℤ) < e)
    (hc : Placing keys pos c) (ht : c.locals t ≠ .done) :
    ∃ l buffers pos', moePlaceIndices (keys.map Nat.cast) keys.length e t (c.locals t) c.shared =
      some (l, buffers) ∧ Placing keys pos' ⟨Function.update c.locals t l, buffers⟩ := by
  cases Nat.lt_or_ge t keys.length with
  | inr hge =>
    have hl := (hc.idle t hge).resolve_right ht
    rw [hl]
    exact ⟨.done, c.shared, pos, if_pos hge, hc.step_idle hge⟩
  | inl hlt =>
    cases hl : c.locals t with
    | start =>
      have hk : keys[t]? = some keys[t] := List.getElem?_eq_getElem hlt
      have he := hkeys keys[t] (List.getElem_mem hlt)
      obtain ⟨p, hp, hcount, hc'⟩ := hc.step_start hk hl
      refine ⟨_, _, _, ?_, hc'⟩
      simp [moePlaceIndices, Nat.not_le.mpr hlt, load_keys hk, not_le.mpr he,
        atomicAdd_eq (hcount hN)]
    | placed p =>
      obtain rfl := hc.placed t hlt p (Or.inl hl)
      refine ⟨_, _, _, ?_, hc.step_placed hlt hl⟩
      have hpos := hc.places.pos_lt (mem_of_hasPlace hlt hl rfl)
      have hself : toInt32 t = t := toInt32_eq_self (Int.natCast_nonneg _) (by
        exact_mod_cast hlt.trans_le hN)
      simp [moePlaceIndices, storeAt, not_lt.mpr (Int.natCast_nonneg (pos t)), hself,
        store_eq (hc.dstSrc_length.symm ▸ hpos)]
    | indexed p =>
      obtain rfl := hc.placed t hlt p (Or.inr hl)
      refine ⟨_, _, _, ?_, hc.step_indexed hlt hl⟩
      simp [moePlaceIndices, store_eq (hc.srcDst_length.symm ▸ hlt)]
    | done => exact absurd hl ht

end Placing

/-- The steps that a thread of the placement still has to take. -/
def PlaceState.rank : PlaceState → ℕ
  | .start => 3
  | .placed _ => 2
  | .indexed _ => 1
  | .done => 0

theorem moePlaceIndices_rank {ids : List ℤ} {n t : ℕ} {l l' : PlaceState}
    {buffers buffers' : IndexBuffers} (hl : l ≠ .done)
    (h : moePlaceIndices ids n e t l buffers = some (l', buffers')) : l'.rank < l.rank := by
  cases l with
  | start =>
    simp only [moePlaceIndices] at h
    split at h
    · obtain ⟨rfl, -⟩ := Prod.mk.inj (Option.some.inj h)
      decide
    · obtain ⟨eid, _, h⟩ := Option.bind_eq_some_iff.mp h
      split at h
      · obtain ⟨rfl, -⟩ := Prod.mk.inj (Option.some.inj h)
        decide
      · obtain ⟨r, _, h⟩ := Option.bind_eq_some_iff.mp h
        obtain ⟨rfl, -⟩ := Prod.mk.inj (Option.some.inj h)
        exact Nat.lt_succ_self 2
  | placed p =>
    obtain ⟨dstSrc, _, h⟩ := Option.bind_eq_some_iff.mp h
    obtain ⟨rfl, -⟩ := Prod.mk.inj (Option.some.inj h)
    exact Nat.lt_succ_self 1
  | indexed p =>
    obtain ⟨srcDst, _, h⟩ := Option.bind_eq_some_iff.mp h
    obtain ⟨rfl, -⟩ := Prod.mk.inj (Option.some.inj h)
    exact Nat.lt_succ_self 0
  | done => exact absurd rfl hl

/-- Every interleaving of the placement gives each position a place, and writes it down in both
lists. -/
theorem moePlaceIndices_returns (hN : keys.length ≤ 2 ^ 31) (hkeys : ∀ k ∈ keys, (k : ℤ) < e)
    (hgrid : keys.length ≤ grid * kMoeIndexBlock) (buffers : IndexBuffers)
    (hdstSrc : buffers.dstSrc.length = keys.length) (hsrcDst : buffers.srcDst.length = keys.length)
    (hoffsets : ∀ k ∈ keys, buffers.expertOffsets[k]? = some (toInt32 (offset keys k))) :
    Returns ((moePlaceIndicesKernel grid (keys.map Nat.cast) keys.length e).Ends buffers)
      fun r => ∃ pos, Placement keys pos ∧ r.dstSrc.length = keys.length ∧
        r.srcDst.length = keys.length ∧ (∀ i < keys.length, r.dstSrc[pos i]? = some (i : ℤ)) ∧
        ∀ i < keys.length, r.srcDst[i]? = some (pos i : ℤ) := by
  have hinit : Placing keys (fun _ => 0)
      ((moePlaceIndicesKernel grid (keys.map Nat.cast) keys.length e).init buffers) := by
    have hempty : threadsIn hasPlace keys.length (fun _ => PlaceState.start) = ∅ :=
      Finset.filter_eq_empty_iff.mpr fun _ _ => Bool.false_ne_true
    constructor
    case places =>
      change Places keys _ (threadsIn hasPlace keys.length fun _ => PlaceState.start) _
      rw [hempty]
      exact ⟨Finset.empty_subset _, hoffsets, fun i hi => absurd hi (Finset.notMem_empty i),
        fun i hi => absurd hi (Finset.notMem_empty i)⟩
    case dstSrc_length => exact hdstSrc
    case srcDst_length => exact hsrcDst
    case placed =>
      intro i _ p hp
      cases hp with
      | inl h => exact PlaceState.noConfusion h
      | inr h => exact PlaceState.noConfusion h
    case dstSrc =>
      intro i _ hq
      cases hq with
      | inl h => exact PlaceState.noConfusion h.choose_spec
      | inr h => exact PlaceState.noConfusion h
    case srcDst => exact fun i _ hq => PlaceState.noConfusion hq
    case idle => exact fun i _ => Or.inl rfl
  have hreturns := Threads.returns
    (p := moePlaceIndicesKernel grid (keys.map Nat.cast) keys.length e)
    (I := fun c => ∃ pos, Placing keys pos c) PlaceState.rank
    (fun t l s l' s' hl hstep => moePlaceIndices_rank (of_decide_eq_false hl) hstep)
    (fun c t l s' hc hactive hstep => ?_) (fun c t hc hactive => ?_) ⟨_, hinit⟩
  · refine ⟨hreturns.ends, fun o ho => ?_⟩
    obtain ⟨r, rfl, c, rfl, hfinished, pos, hc⟩ := hreturns.sound o ho
    have hdone : ∀ i < keys.length, c.locals i = .done := fun i hi =>
      of_decide_eq_true (hfinished i (hi.trans_le hgrid))
    have hmem : ∀ i < keys.length, i ∈ threadsIn hasPlace keys.length c.locals := fun i hi =>
      Placing.mem_of_hasPlace hi (hdone i hi) rfl
    refine ⟨c.shared, rfl, pos, ⟨fun i k hk => ?_, fun i j hi hj => ?_⟩, hc.dstSrc_length,
      hc.srcDst_length, fun i hi => hc.dstSrc i hi (Or.inr (hdone i hi)),
      fun i hi => hc.srcDst i hi (hdone i hi)⟩
    · have hi := (List.getElem?_eq_some_iff.mp hk).1
      obtain ⟨hle, hlt⟩ := hc.places.place i (hmem i hi) k hk
      exact ⟨hle, hlt.trans_le (Places.nextPlace_le hc.places.below k)⟩
    · exact hc.places.injective i (hmem i hi) j (hmem j hj)
  · obtain ⟨pos, hc⟩ := hc
    obtain ⟨l₁, buffers₁, pos₁, hstep₁, hc₁⟩ := hc.step hN hkeys (of_decide_eq_false hactive.2)
    obtain ⟨rfl, rfl⟩ := Prod.mk.inj (Option.some.inj (hstep₁.symm.trans hstep))
    exact ⟨pos₁, hc₁⟩
  · obtain ⟨pos, hc⟩ := hc
    obtain ⟨l₁, buffers₁, pos₁, hstep₁, _⟩ := hc.step hN hkeys (of_decide_eq_false hactive.2)
    exact fun h => absurd (hstep₁.symm.trans h) (Option.some_ne_none _)

/-! ## The three kernels -/

theorem length_le_indexGrid (n : ℕ) : n ≤ indexGrid n * kMoeIndexBlock := by
  unfold indexGrid kMoeIndexBlock
  omega

/-- The counters fit into 32 bits, and the prefix sum reaches all experts that occur. -/
def IndexFits (expertId : List ℤ) (numExperts : ℕ) : Prop :=
  expertId.length ≤ 2 ^ 31 ∧ ∀ id ∈ expertId,
    id < kMoeIndexBlock ∧ id < toInt32 numExperts ∧ expertId.count id < 2 ^ 31

theorem moeComputeIndex_returns {expertId : List ℤ}
    (hids : ∀ id ∈ expertId, 0 ≤ id ∧ id < numExperts) (hfits : IndexFits expertId numExperts)
    {buffers : IndexBuffers} (hbuffers : buffers.Allocated expertId.length numExperts) :
    Returns (MoeComputeIndex expertId numExperts buffers)
      (GroupingPermutation expertId numExperts) := by
  obtain ⟨keys, rfl⟩ : ∃ keys : List ℕ, expertId = keys.map Nat.cast :=
    ⟨expertId.map Int.toNat, by
      rw [List.map_map]
      exact (List.map_id _).symm.trans (List.map_congr_left fun id hid =>
        (Int.toNat_of_nonneg (hids id hid).1).symm)⟩
  have hlength : (keys.map (Nat.cast : ℕ → ℤ)).length = keys.length := List.length_map _
  have hcount : ∀ k : ℕ, (keys.map Nat.cast).count (k : ℤ) = keys.count k := fun k =>
    List.count_map_of_injective keys Nat.cast Nat.cast_injective k
  obtain ⟨hN, hfits⟩ := hfits
  rw [hlength] at hN hbuffers
  have hkeys : ∀ k ∈ keys, k < numExperts ∧ k < kMoeIndexBlock ∧ (k : ℤ) < toInt32 numExperts ∧
      keys.count k < 2 ^ 31 := by
    intro k hk
    have hmem : (k : ℤ) ∈ keys.map Nat.cast := List.mem_map_of_mem hk
    obtain ⟨hblock, he, hc⟩ := hfits k hmem
    rw [hcount] at hc
    exact ⟨Int.ofNat_lt.mp (hids k hmem).2, Int.ofNat_lt.mp hblock, he, hc⟩
  have hcast : expertIdI32 (keys.map Nat.cast) = keys.map Nat.cast := by
    refine (List.map_congr_left fun id hid => ?_).trans (List.map_id _)
    obtain ⟨k, hk, rfl⟩ := List.mem_map.mp hid
    refine toInt32_eq_self (Int.natCast_nonneg k) ?_
    exact (hkeys k hk).2.2.1.trans (toInt32_lt _)
  unfold MoeComputeIndex
  rw [hlength, hcast]
  refine (moeHistogram_returns (fun k hk => ⟨(hkeys k hk).1, (hkeys k hk).2.2.1⟩)
    (length_le_indexGrid _)).andThen fun sizes hsizes => ?_
  obtain ⟨offsets, hprefix, hoffsetsLength, hoffsets⟩ :=
    moePrefixSumKernel_eq hsizes hbuffers.expertOffsets
  refine (Returns.of_eq hprefix rfl).andThen fun offsets' hoffsets' => ?_
  subst hoffsets'
  refine (moePlaceIndices_returns hN (fun k hk => (hkeys k hk).2.2.1) (length_le_indexGrid _)
    { buffers with expertOffsets := offsets } hbuffers.dstSrc hbuffers.srcDst fun k hk =>
      hoffsets k (hkeys k hk).2.1 (hkeys k hk).2.2.1).andThen fun placed hplaced => ?_
  obtain ⟨pos, hplacement, hdstLength, hsrcLength, hdst, hsrc⟩ := hplaced
  refine Returns.of_eq rfl (groupingPermutation_of_placement (fun k hk => (hkeys k hk).1) hplacement
    ?_ hdstLength hsrcLength hdst hsrc)
  refine hsizes.trans (List.map_congr_left fun k _ => toInt32_eq_self (Int.natCast_nonneg _) ?_)
  by_cases hk : k ∈ keys
  · exact_mod_cast (hkeys k hk).2.2.2
  · rw [List.count_eq_zero_of_not_mem hk]
    decide

end Ikun.Moe
