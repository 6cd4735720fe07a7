import Mathlib.Order.Interval.Finset.Nat
import Ikun.Mamba.Slots

/-!
# What the steps of the manager do to the slots

A specification for every method: a swap and a move out of a slot rearrange the slots, an assignment
puts a pair on its position of the batch, and a release frees the slots of a request. None of them
raises when the pairs that own a slot, together with the pairs still to be assigned, fit the tensors.
-/

namespace Ikun.MambaCacheManager

open Exec SlotLemmas

variable {ρ S : Type} [DecidableEq ρ] {m m' : MambaCacheManager ρ S} {p q : ρ × ℕ} {r : ρ}
  {i j d : ℕ}

/-! ## Tensors -/

section tensors

variable {R : MambaExn → MambaCacheManager ρ S → Prop}

omit [DecidableEq ρ] in
theorem wp_checkIndex [DecidableEq ρ] {Q : Unit → MambaCacheManager ρ S → Prop}
    (hi : i < m.capacity) (h : Q () m) : wp (checkIndex i) Q R m := by
  unfold checkIndex
  rw [wp_bind, wp_get, wp_raiseIf]
  exact ⟨fun hle => absurd hi (Nat.not_lt.mpr hle), fun _ => h⟩

theorem wp_zeroMambaCache [Zero S] {Q : Unit → MambaCacheManager ρ S → Prop}
    (hi : i < m.capacity)
    (h : Q () { m with mambaCache := Function.update m.mambaCache i 0 }) :
    wp (zeroMambaCache i) Q R m := by
  unfold zeroMambaCache
  rw [wp_bind]
  exact wp_checkIndex hi h

theorem wp_copyMambaCache {Q : Unit → MambaCacheManager ρ S → Prop}
    (hi : i < m.capacity) (hj : j < m.capacity)
    (h : Q () { m with mambaCache := Function.update m.mambaCache j (m.mambaCache i) }) :
    wp (copyMambaCache i j) Q R m := by
  unfold copyMambaCache
  rw [wp_bind]
  refine wp_checkIndex hi ?_
  rw [wp_bind]
  exact wp_checkIndex hj h

theorem wp_swapMambaCache {Q : Unit → MambaCacheManager ρ S → Prop}
    (hi : i < m.capacity) (hj : j < m.capacity)
    (h : Q () { m with
      mambaCache := Function.update (Function.update m.mambaCache j (m.mambaCache i)) i
        (m.mambaCache j) }) :
    wp (swapMambaCache i j) Q R m := by
  unfold swapMambaCache
  rw [wp_bind]
  refine wp_checkIndex hi ?_
  rw [wp_bind]
  exact wp_checkIndex hj h

end tensors

/-! ## Mapping -/

/-- A new entry of the mapping. -/
theorem slotOf_set {c : ℕ → S} {n : ℕ} (D : Dict ρ (Dict ℕ ℕ)) (r : ρ) (d : Dict ℕ ℕ)
    (p : ρ × ℕ) : slotOf ⟨n, c, D.set r d⟩ p =
      if p.1 = r then d.get? p.2 else slotOf ⟨n, c, D⟩ p := by
  show ((D.set r d).get? p.1).bind _ = _
  rw [Dict.get?_set]
  split <;> rfl

/-- The mapping after a swap. -/
theorem slotOf_mapValues {c : ℕ → S} {n : ℕ} (D : Dict ρ (Dict ℕ ℕ)) (f : ℕ → ℕ) (p : ρ × ℕ) :
    slotOf ⟨n, c, mapValues (mapValues f) D⟩ p = (slotOf ⟨n, c, D⟩ p).map f := by
  show ((mapValues (mapValues f) D).get? p.1).bind _ = ((D.get? p.1).bind _).map f
  rw [get?_mapValues]
  cases D.get? p.1 with
  | none => rfl
  | some d => exact get?_mapValues f d p.2

/-- The first entry with a value is the one that `updateFirst` changes. -/
theorem get?_updateFirst {d : Dict ℕ ℕ} {s : ℕ} (hs : d.get? s = some i)
    (huniq : ∀ s', d.get? s' = some i → s' = s) (j s' : ℕ) :
    (updateFirst i j d).get? s' = if s' = s then some j else d.get? s' := by
  unfold updateFirst
  split
  · next e he =>
    obtain ⟨s₀, i₀⟩ := e
    have hi₀ : i₀ = i := by simpa using List.find?_some he
    subst hi₀
    obtain rfl := huniq s₀ (Dict.mem_items.mp (List.mem_of_find?_eq_some he))
    exact Dict.get?_set d s₀ s' j
  · next he =>
    have hnot := List.find?_eq_none.mp he (s, i) (Dict.mem_items.mpr hs)
    exact absurd (decide_eq_true rfl) hnot

/-! ## Swaps and moves -/

/-- `_swap_pair_indices_and_mappings` swaps two slots. -/
theorem wp_swapPair {R : MambaExn → MambaCacheManager ρ S → Prop} (hi : i < m.capacity)
    (hj : j < m.capacity) :
    wp (swapPairIndicesAndMappings i j) (fun _ m' => Relocated (Equiv.swap i j) m m') R m := by
  unfold swapPairIndicesAndMappings
  rw [wp_bind]
  refine wp_swapMambaCache hi hj ?_
  unfold swapMappingIndex
  rw [wp_modify]
  have hswap : (fun index => if i = index then j else if j = index then i else index)
      = ⇑(Equiv.swap i j) := by
    funext k
    rw [Equiv.swap_apply_def]
    simp only [eq_comm]
  refine ⟨rfl, fun r => ?_, fun p => ?_, fun p k _ => ?_⟩
  · dsimp only
    rw [get?_mapValues]
    simp
  · rw [slotOf_mapValues, hswap]
    rfl
  · show Function.update (Function.update m.mambaCache j (m.mambaCache i)) i (m.mambaCache j)
      (Equiv.swap i j k) = m.mambaCache k
    rw [Equiv.swap_apply_def]
    split
    · next h =>
      subst h
      rw [Function.update_apply, Function.update_self]
      split
      · next h' => rw [h']
      · rfl
    · split
      · next h h' => rw [h', Function.update_self]
      · next h h' => rw [Function.update_of_ne h, Function.update_of_ne h']

/-- `_move_cache_index_and_mappings` to a slot without owner is a swap with it. -/
theorem wp_moveCacheIndex {R : MambaExn → MambaCacheManager ρ S → Prop} (hm : SlotsOk m)
    (hp : m.slotOf p = some i) (hj : j < m.capacity) (hfree : ∀ q, m.slotOf q ≠ some j) :
    wp (moveCacheIndexAndMappings i j) (fun _ m' => Relocated (Equiv.swap i j) m m') R m := by
  obtain ⟨r, s⟩ := p
  obtain ⟨d, hd, hs⟩ := Option.bind_eq_some_iff.mp hp
  unfold moveCacheIndexAndMappings
  rw [wp_bind]
  refine wp_copyMambaCache (hm.lt _ i hp) hj ?_
  unfold updateMappingIndex
  rw [wp_modify]
  dsimp only
  -- the owner of the slot is the entry that is found
  have hfind : m.indicesMapping.items.find? (i ∈ ·.2.values) = some (r, d) := by
    cases hf : m.indicesMapping.items.find? (i ∈ ·.2.values) with
    | none =>
      have hnot := List.find?_eq_none.mp hf (r, d) (Dict.mem_items.mpr hd)
      exact absurd (Dict.mem_values.mpr ⟨s, hs⟩) (by simpa using hnot)
    | some e =>
      obtain ⟨r', d'⟩ := e
      have hr' := Dict.mem_items.mp (List.mem_of_find?_eq_some hf)
      obtain ⟨s', hs'⟩ := Dict.mem_values.mp (by simpa using List.find?_some hf)
      have heq := hm.inj (r', s') (r, s) i (by show (_ : Option _).bind _ = _; rw [hr']; exact hs') hp
      obtain rfl := congrArg Prod.fst heq
      obtain rfl := Option.some.inj (hd.symm.trans hr')
      rfl
  have hslot : ∀ q, slotOf ⟨m.capacity, Function.update m.mambaCache j (m.mambaCache i),
      m.indicesMapping.set r (updateFirst i j d)⟩ q = if q = (r, s) then some j else m.slotOf q := by
    intro q
    obtain ⟨r', s'⟩ := q
    rw [slotOf_set]
    dsimp only
    by_cases hr : r' = r
    · subst hr
      have huniq : ∀ s', d.get? s' = some i → s' = s := by
        intro s' hs'
        have heq := hm.inj (r', s') (r', s) i (by show (_ : Option _).bind _ = _; rw [hd]; exact hs')
          hp
        exact congrArg Prod.snd heq
      rw [if_pos rfl, get?_updateFirst hs huniq]
      by_cases hs' : s' = s
      · simp [hs']
      · rw [if_neg hs', if_neg fun h => hs' (congrArg Prod.snd h)]
        show d.get? s' = (m.indicesMapping.get? r').bind fun d => d.get? s'
        rw [hd]
        rfl
    · rw [if_neg hr, if_neg fun h => hr (congrArg Prod.fst h)]
      rfl
  rw [hfind]
  dsimp only
  refine ⟨rfl, fun r' => ?_, fun q => ?_, fun q k hk => ?_⟩
  · dsimp only
    rw [Dict.get?_set]
    split
    · next h => simp [h, hd]
    · rfl
  · rw [hslot]
    split
    · next h => rw [h, hp, Option.map_some, Equiv.swap_apply_left]
    · next h =>
      cases hq : m.slotOf q with
      | none => rfl
      | some k =>
        have hki : k ≠ i := fun hki => h (hm.inj q (r, s) i (hki ▸ hq) hp)
        have hkj : k ≠ j := fun hkj => hfree q (hkj ▸ hq)
        rw [Option.map_some, Equiv.swap_apply_of_ne_of_ne hki hkj]
  · show Function.update m.mambaCache j (m.mambaCache i) (Equiv.swap i j k) = m.mambaCache k
    have hkj : k ≠ j := fun hkj => hfree q (hkj ▸ hk)
    by_cases hki : k = i
    · rw [hki, Equiv.swap_apply_left, Function.update_self]
    · rw [Equiv.swap_apply_of_ne_of_ne hki hkj, Function.update_of_ne hkj]

/-- `_move_out_if_already_occupied`: the slot has no owner afterwards, and nobody but its owner has
moved. -/
theorem wp_moveOut {R : MambaExn → MambaCacheManager ρ S → Prop} (hm : SlotsOk m)
    (hroom : m.livePairs.card < m.capacity) :
    wp (moveOutIfAlreadyOccupied d) (fun _ m' => Rearranged m m' ∧ (∀ q, m'.slotOf q ≠ some d) ∧
      ∀ q i, m.slotOf q = some i → i ≠ d → m'.slotOf q = some i) R m := by
  unfold moveOutIfAlreadyOccupied
  rw [wp_bind, wp_get, wp_ite]
  refine ⟨fun hocc => ?_, fun hocc => ?_⟩
  · obtain ⟨p, hp⟩ := mem_allOccupiedIndices.mp hocc
    obtain ⟨free, hfree⟩ : ∃ i, (List.range m.capacity).find? (· ∉ m.allOccupiedIndices) = some i := by
      refine exists_free fun hall => ?_
      have hcard := card_le_of_owned (A := Finset.range m.capacity) (P := m.livePairs) fun i hi => by
        obtain ⟨q, hq⟩ := hall i (List.mem_range.mpr (Finset.mem_range.mp hi))
        exact ⟨q, mem_livePairs_of_slot hq, hq⟩
      rw [Finset.card_range] at hcard
      exact absurd hroom (Nat.not_lt.mpr hcard)
    have hlt : free < m.capacity := List.mem_range.mp (List.mem_of_find?_eq_some hfree)
    have hno : ∀ q, m.slotOf q ≠ some free := fun q hq =>
      absurd (mem_allOccupiedIndices.mpr ⟨q, hq⟩) (by simpa using List.find?_some hfree)
    have hd : d < m.capacity := hm.lt p d hp
    have hne : free ≠ d := fun h => hno p (h ▸ hp)
    unfold firstFreeIndex
    rw [wp_bind, wp_bind, wp_get, hfree]
    dsimp only
    rw [wp_pure]
    refine wp_mono (wp_moveCacheIndex (R := R) hm hp hlt hno) (fun _ m' hrel => ?_) fun _ _ h => h
    refine ⟨hrel.rearranged hm fun i hi => ?_, fun q hq => ?_, fun q i hq hi => ?_⟩
    · rw [Equiv.swap_apply_def]
      split
      · exact hlt
      · split
        · exact hd
        · exact hi
    · rw [hrel.slots] at hq
      obtain ⟨i, hi, he⟩ := Option.map_eq_some_iff.mp hq
      have hfree' : i = free :=
        (Equiv.swap d free).injective (he.trans (Equiv.swap_apply_right d free).symm)
      exact hno q (hfree' ▸ hi)
    · have hi' : i ≠ free := fun h => hno q (h ▸ hq)
      rw [hrel.slots, hq, Option.map_some, Equiv.swap_apply_of_ne_of_ne hi hi']
  · rw [wp_pure]
    exact ⟨.refl hm, fun q hq => hocc (mem_allOccupiedIndices.mpr ⟨q, hq⟩), fun _ _ hq _ => hq⟩

/-! ## Assignment -/

/-- The pair `p` has been put on position `d`: the other pairs keep their state, those in front of
`d` their slot as well. -/
structure Assigned (p : ρ × ℕ) (d : ℕ) (m m' : MambaCacheManager ρ S) [Zero S] : Prop where
  ok : SlotsOk m'
  capacity : m'.capacity = m.capacity
  requests : ∀ r, m'.indicesMapping.get? r ≠ none ↔ r = p.1 ∨ m.indicesMapping.get? r ≠ none
  slot : m'.slotOf p = some d
  front : ∀ q i, m.slotOf q = some i → i < d → q ≠ p → m'.slotOf q = some i
  others : ∀ q, q ≠ p → m'.stateOf q = m.stateOf q
  kept : p ∈ m.livePairs → m'.stateOf p = m.stateOf p
  zeroed : m.indicesMapping.get? p.1 = none → m'.stateOf p = some 0
  copied : p ∉ m.livePairs → m.indicesMapping.get? p.1 ≠ none →
    ∃ s, s ≠ p.2 ∧ (p.1, s) ∈ m.livePairs ∧ m'.stateOf p = m.stateOf (p.1, s)

/-- A new owner on a slot without owner. -/
theorem slotsOk_setSlot {r : ρ} {s : ℕ} (hm : SlotsOk m) (hd : d < m.capacity)
    (hfree : ∀ q, m.slotOf q ≠ some d) {D : Dict ℕ ℕ} {x : S}
    (hD : ∀ s', D.get? s' = if s' = s then some d else m.slotOf (r, s')) :
    let m' : MambaCacheManager ρ S := ⟨m.capacity, Function.update m.mambaCache d x,
      m.indicesMapping.set r D⟩
    SlotsOk m' ∧ (∀ q, m'.slotOf q = if q = (r, s) then some d else m.slotOf q) ∧
      (∀ q, q ≠ (r, s) → m'.stateOf q = m.stateOf q) ∧ m'.stateOf (r, s) = some x := by
  intro m'
  have hslot : ∀ q, m'.slotOf q = if q = (r, s) then some d else m.slotOf q := by
    intro q
    obtain ⟨r', s'⟩ := q
    rw [slotOf_set]
    by_cases hr : r' = r
    · subst hr
      rw [if_pos rfl, hD]
      simp only [Prod.mk.injEq, true_and]
    · rw [if_neg hr, if_neg fun h => hr (congrArg Prod.fst h)]
      rfl
  refine ⟨⟨fun p q i hp hq => ?_, fun p i hp => ?_, fun r' hr' => ?_⟩, hslot, fun q hq => ?_, ?_⟩
  · rw [hslot] at hp hq
    split at hp
    · next h =>
      obtain rfl := Option.some.inj hp
      split at hq
      · next h' => rw [h, h']
      · exact absurd hq (hfree q)
    · split at hq
      · obtain rfl := Option.some.inj hq
        exact absurd hp (hfree p)
      · exact hm.inj p q i hp hq
  · rw [hslot] at hp
    split at hp
    · exact Option.some.inj hp ▸ hd
    · exact hm.lt p i hp
  · by_cases h : r' = r
    · exact ⟨s, by rw [h, hslot, if_pos rfl]; simp⟩
    · have hr : m.indicesMapping.get? r' ≠ none := by
        have := Dict.get?_set_ne m.indicesMapping h D
        exact this ▸ hr'
      obtain ⟨s', hs'⟩ := hm.inhabited r' hr
      exact ⟨s', by rwa [hslot, if_neg fun he => h (congrArg Prod.fst he)]⟩
  · unfold MambaCacheManager.stateOf
    rw [hslot, if_neg hq]
    cases hi : m.slotOf q with
    | none => rfl
    | some i =>
      have hne : i ≠ d := fun h => hfree q (h ▸ hi)
      show some (Function.update m.mambaCache d x i) = some (m.mambaCache i)
      rw [Function.update_of_ne hne]
  · unfold MambaCacheManager.stateOf
    rw [hslot, if_pos rfl]
    show some (Function.update m.mambaCache d x d) = some x
    rw [Function.update_self]

/-- A pair that owns a slot is put on a position by a swap. -/
theorem Assigned.of_swap [Zero S] (hm : SlotsOk m) (hd : d < m.capacity) (hp : m.slotOf p = some i)
    (h : Relocated (Equiv.swap i d) m m') : Assigned p d m m' where
  ok := (h.rearranged hm fun k hk => by
    rw [Equiv.swap_apply_def]
    split
    · exact hd
    · split
      · exact hm.lt p i hp
      · exact hk).ok
  capacity := h.capacity
  requests r := by
    rw [h.requests]
    refine ⟨Or.inr, fun hr => hr.elim (fun hr => ?_) id⟩
    obtain ⟨D, hD, -⟩ := Option.bind_eq_some_iff.mp hp
    simp [hr, hD]
  slot := by rw [h.slots, hp, Option.map_some, Equiv.swap_apply_left]
  front q k hk hkd hq := by
    have hki : k ≠ i := fun hki => hq (hm.inj q p i (hki ▸ hk) hp)
    rw [h.slots, hk, Option.map_some, Equiv.swap_apply_of_ne_of_ne hki (Nat.ne_of_lt hkd)]
  others q _ := h.stateOf_eq q
  kept _ := h.stateOf_eq p
  zeroed hr := by
    obtain ⟨D, hD, -⟩ := Option.bind_eq_some_iff.mp hp
    exact absurd (hr.symm.trans hD) (by simp)
  copied hnot := absurd (mem_livePairs_of_slot hp) hnot

/-- A pair that owned no slot is put on a position that has been freed. -/
theorem Assigned.of_free [Zero S] {m₁ : MambaCacheManager ρ S} {D : Dict ℕ ℕ} {x : S}
    (hd : d < m.capacity) (hp : p ∉ m.livePairs) (h : Rearranged m m₁)
    (hfree : ∀ q, m₁.slotOf q ≠ some d)
    (hfront : ∀ q i, m.slotOf q = some i → i ≠ d → m₁.slotOf q = some i)
    (hD : ∀ s', D.get? s' = if s' = p.2 then some d else m₁.slotOf (p.1, s'))
    (hzero : m.indicesMapping.get? p.1 = none → x = 0)
    (hcopy : m.indicesMapping.get? p.1 ≠ none →
      ∃ s, (p.1, s) ∈ m.livePairs ∧ m₁.stateOf (p.1, s) = some x) :
    Assigned p d m ⟨m₁.capacity, Function.update m₁.mambaCache d x, m₁.indicesMapping.set p.1 D⟩ := by
  obtain ⟨hok, hslot, hothers, hself⟩ := slotsOk_setSlot h.ok (h.capacity ▸ hd) hfree (x := x) hD
  refine ⟨hok, h.capacity, fun r => ?_, ?_, fun q i hi hid hq => ?_, fun q hq => ?_,
    fun hlive => absurd hlive hp, fun hr => ?_, fun _ hr => ?_⟩
  · show (m₁.indicesMapping.set p.1 D).get? r ≠ none ↔ _
    rw [Dict.get?_set, ← h.requests]
    split
    · next he => simp [he]
    · next he => simp [he]
  · rw [hslot, if_pos rfl]
  · rw [hslot, if_neg hq]
    exact hfront q i hi (Nat.ne_of_lt hid)
  · exact (hothers q hq).trans (h.stateOf q)
  · rw [← hzero hr]
    exact hself
  · obtain ⟨s, hs, hx⟩ := hcopy hr
    refine ⟨s, fun he => hp (he ▸ hs : (p.1, p.2) ∈ m.livePairs), hs, ?_⟩
    rw [← h.stateOf, hx]
    exact hself

/-- `_assign_seq_id_to_mamba_cache_in_specific_dest`. -/
theorem wp_assignSeqId [Zero S] {R : MambaExn → MambaCacheManager ρ S → Prop} (hm : SlotsOk m)
    (hd : d < m.capacity) (hroom : p ∉ m.livePairs → m.livePairs.card < m.capacity) :
    wp (assignSeqId p.1 p.2 d) (fun _ m' => Assigned p d m m') R m := by
  unfold assignSeqId
  rw [wp_bind, wp_get]
  cases hr : m.indicesMapping.get? p.1 with
  | none =>
    have hslots : ∀ s, m.slotOf (p.1, s) = none := fun s => by
      show (m.indicesMapping.get? p.1).bind _ = none
      rw [hr]
      rfl
    have hp : p ∉ m.livePairs := fun h => mem_livePairs.mp h (hslots p.2)
    dsimp only
    rw [wp_bind]
    refine wp_mono (wp_moveOut (R := R) hm (hroom hp)) (fun _ m₁ h => ?_) fun _ _ h => h
    obtain ⟨hrearr, hfree, hfront⟩ := h
    rw [wp_bind]
    refine wp_zeroMambaCache (hrearr.capacity ▸ hd) ?_
    rw [wp_modify]
    refine Assigned.of_free hd hp hrearr hfree hfront (fun s' => ?_) (fun _ => rfl) fun h =>
      absurd hr h
    rw [Dict.get?_set, Dict.get?_empty]
    have hnone : m₁.slotOf (p.1, s') = none := by
      have hlive : (p.1, s') ∉ m₁.livePairs := by
        rw [hrearr.livePairs_eq]
        exact fun h => mem_livePairs.mp h (hslots s')
      by_contra h
      exact hlive (mem_livePairs.mpr h)
    rw [hnone]
  | some D =>
    dsimp only
    cases hs : D.get? p.2 with
    | none =>
      have hnone : m.slotOf p = none := by
        show (m.indicesMapping.get? p.1).bind _ = none
        rw [hr]
        exact hs
      have hp : p ∉ m.livePairs := fun h => mem_livePairs.mp h hnone
      dsimp only
      rw [wp_bind]
      refine wp_mono (wp_moveOut (R := R) hm (hroom hp)) (fun _ m₁ h => ?_) fun _ _ h => h
      obtain ⟨hrearr, hfree, hfront⟩ := h
      rw [wp_bind, wp_get]
      obtain ⟨D₁, hD₁⟩ := Option.ne_none_iff_exists'.mp
        ((hrearr.requests p.1).mpr (by rw [hr]; exact Option.some_ne_none D))
      have hslot₁ : ∀ s', m₁.slotOf (p.1, s') = D₁.get? s' := fun s' => by
        show (m₁.indicesMapping.get? p.1).bind _ = _
        rw [hD₁]
        rfl
      rw [hD₁, Option.getD_some]
      -- every request of the mapping has a sibling to copy from
      cases hv : D₁.values with
      | nil =>
        obtain ⟨s', hs'⟩ := hrearr.ok.inhabited p.1 (by rw [hD₁]; exact Option.some_ne_none D₁)
        obtain ⟨i, hi⟩ := Option.ne_none_iff_exists'.mp hs'
        have hmem : i ∈ D₁.values := Dict.mem_values.mpr ⟨s', (hslot₁ s').symm.trans hi⟩
        exact absurd (hv ▸ hmem) List.not_mem_nil
      | cons indexExists rest =>
        obtain ⟨s', hs'⟩ : ∃ s', D₁.get? s' = some indexExists :=
          Dict.mem_values.mp (hv ▸ List.mem_cons_self)
        have hi : m₁.slotOf (p.1, s') = some indexExists := (hslot₁ s').trans hs'
        have hstate : m₁.stateOf (p.1, s') = some (m₁.mambaCache indexExists) := by
          unfold MambaCacheManager.stateOf
          rw [hi]
          rfl
        dsimp only
        rw [wp_bind]
        refine wp_copyMambaCache (hrearr.ok.lt _ _ hi) (hrearr.capacity ▸ hd) ?_
        rw [wp_modify]
        refine Assigned.of_free hd hp hrearr hfree hfront (fun s'' => ?_)
          (fun h => absurd (h.symm.trans hr) (by simp)) fun _ => ⟨s', ?_, hstate⟩
        · rw [Dict.get?_set, hslot₁]
        · rw [← hrearr.livePairs_eq]
          exact mem_livePairs_of_slot hi
    | some index =>
      have hslot : m.slotOf p = some index := by
        show (m.indicesMapping.get? p.1).bind _ = some index
        rw [hr]
        exact hs
      dsimp only
      rw [wp_ite]
      refine ⟨fun _ => ?_, fun heq => ?_⟩
      · exact wp_mono (wp_swapPair (R := R) (hm.lt p index hslot) hd)
          (fun _ m' h => .of_swap hm hd hslot h) fun _ _ h => h
      · rw [wp_pure]
        obtain rfl : index = d := Classical.not_not.mp heq
        exact .of_swap hm hd hslot (by rw [Equiv.swap_self]; exact .refl m)

/-! ## The loop over the batch -/

/-- The pairs of `batch` that run have been put on the positions from `d` on. -/
structure AssignedAll (finished : List ρ) (d : ℕ) (batch : List (ρ × ℕ))
    (m m' : MambaCacheManager ρ S) (indices : List ℕ) [Zero S] : Prop where
  ok : SlotsOk m'
  capacity : m'.capacity = m.capacity
  slot : ∀ k p, batch[k]? = some p → p.1 ∉ finished → m'.slotOf p = some (d + k)
  indices : ∀ i, i ∈ indices ↔ ∃ k p, i = d + k ∧ batch[k]? = some p ∧ p.1 ∉ finished
  front : ∀ q i, m.slotOf q = some i → i < d → q ∉ batch → m'.slotOf q = some i
  live : ∀ q, q ∈ m'.livePairs ↔ q ∈ m.livePairs ∨ (q ∈ batch ∧ q.1 ∉ finished)
  kept : ∀ q ∈ m.livePairs, m'.stateOf q = m.stateOf q
  zeroed : ∀ k p, batch[k]? = some p → p.1 ∉ finished → m.indicesMapping.get? p.1 = none →
    (∀ q ∈ batch.take k, q.1 ≠ p.1) → m'.stateOf p = some 0
  copied : ∀ k p, batch[k]? = some p → p.1 ∉ finished → p ∉ m.livePairs →
    (m.indicesMapping.get? p.1 ≠ none ∨ ∃ q ∈ batch.take k, q.1 = p.1) →
    ∃ s, s ≠ p.2 ∧ ((p.1, s) ∈ m.livePairs ∨ (p.1, s) ∈ batch.take k) ∧
      m'.stateOf p = m'.stateOf (p.1, s)

namespace AssignedAll

variable [Zero S] {finished : List ρ} {batch : List (ρ × ℕ)} {m₁ : MambaCacheManager ρ S}
  {indices : List ℕ}

theorem nil (hm : SlotsOk m) : AssignedAll finished d [] m m [] where
  ok := hm
  capacity := rfl
  slot k p h := absurd h (by simp)
  indices i := by simp
  front q i h _ _ := h
  live q := by simp
  kept _ _ := rfl
  zeroed k p h := absurd h (by simp)
  copied k p h := absurd h (by simp)

/-- A pair of a finished request is passed over. -/
theorem skip (hp : p.1 ∈ finished) (h : AssignedAll finished (d + 1) batch m m' indices) :
    AssignedAll finished d (p :: batch) m m' indices where
  ok := h.ok
  capacity := h.capacity
  slot k q hk hq := by
    cases k with
    | zero => exact absurd (Option.some.inj hk ▸ hp) hq
    | succ k => rw [h.slot k q hk hq, Nat.add_right_comm, Nat.add_assoc]
  indices i := by
    rw [h.indices]
    constructor
    · rintro ⟨k, q, rfl, hk, hq⟩
      exact ⟨k + 1, q, by omega, hk, hq⟩
    · rintro ⟨k, q, rfl, hk, hq⟩
      cases k with
      | zero => exact absurd (Option.some.inj hk ▸ hp) hq
      | succ k => exact ⟨k, q, by omega, hk, hq⟩
  front q i hi hlt hq := h.front q i hi (Nat.lt_succ_of_lt hlt) fun hmem =>
    hq (List.mem_cons_of_mem p hmem)
  live q := by
    rw [h.live, List.mem_cons]
    refine or_congr_right (and_congr_left fun hq => ?_)
    exact ⟨Or.inr, fun hmem => hmem.resolve_left fun he => hq (he ▸ hp)⟩
  kept := h.kept
  zeroed k q hk hq hr hfirst := by
    cases k with
    | zero => exact absurd (Option.some.inj hk ▸ hp) hq
    | succ k => exact h.zeroed k q hk hq hr fun x hx => hfirst x (List.mem_cons_of_mem p hx)
  copied k q hk hq hlive hr := by
    cases k with
    | zero => exact absurd (Option.some.inj hk ▸ hp) hq
    | succ k =>
      have hr' : m.indicesMapping.get? q.1 ≠ none ∨ ∃ x ∈ batch.take k, x.1 = q.1 := by
        refine hr.imp_right fun ⟨x, hx, hxq⟩ => ⟨x, (List.mem_cons.mp hx).resolve_left ?_, hxq⟩
        exact fun he => hq (hxq ▸ he ▸ hp)
      obtain ⟨s, hs, hmem, heq⟩ := h.copied k q hk hq hlive hr'
      exact ⟨s, hs, hmem.imp_right (List.mem_cons_of_mem p), heq⟩

/-- A pair is put on its position, then the rest of the batch. -/
theorem cons (hnodup : (p :: batch).Nodup) (hp : p.1 ∉ finished) (h₁ : Assigned p d m m₁)
    (h : AssignedAll finished (d + 1) batch m₁ m' indices) :
    AssignedAll finished d (p :: batch) m m' (d :: indices) := by
  have hnot : p ∉ batch := (List.nodup_cons.mp hnodup).1
  have hlive₁ : ∀ q, q ∈ m₁.livePairs ↔ q = p ∨ q ∈ m.livePairs := by
    intro q
    by_cases hq : q = p
    · subst hq
      exact ⟨fun _ => .inl rfl, fun _ => mem_livePairs_of_slot h₁.slot⟩
    · rw [mem_livePairs_iff_stateOf, h₁.others q hq, ← mem_livePairs_iff_stateOf]
      simp [hq]
  have hp₁ : p ∈ m₁.livePairs := (hlive₁ p).mpr (.inl rfl)
  have hkept : ∀ q ∈ m.livePairs, m'.stateOf q = m.stateOf q := by
    intro q hq
    rw [h.kept q ((hlive₁ q).mpr (.inr hq))]
    by_cases he : q = p
    · subst he
      exact h₁.kept hq
    · exact h₁.others q he
  have hslot : m'.slotOf p = some d := h.front p d h₁.slot (Nat.lt_succ_self d) hnot
  refine ⟨h.ok, h.capacity.trans h₁.capacity, fun k q hk hq => ?_, fun i => ?_,
    fun q i hi hlt hq => ?_, fun q => ?_, hkept, fun k q hk hq hr hfirst => ?_,
    fun k q hk hq hlive hr => ?_⟩
  · cases k with
    | zero =>
      obtain rfl := Option.some.inj hk
      exact hslot
    | succ k => rw [h.slot k q hk hq, Nat.add_right_comm, Nat.add_assoc]
  · rw [List.mem_cons, h.indices]
    constructor
    · rintro (rfl | ⟨k, q, rfl, hk, hq⟩)
      · exact ⟨0, p, rfl, rfl, hp⟩
      · exact ⟨k + 1, q, by omega, hk, hq⟩
    · rintro ⟨k, q, rfl, hk, hq⟩
      cases k with
      | zero => exact .inl rfl
      | succ k => exact .inr ⟨k, q, by omega, hk, hq⟩
  · have hne : q ≠ p := fun he => hq (he ▸ List.mem_cons_self)
    have hmem : q ∉ batch := fun hmem => hq (List.mem_cons_of_mem p hmem)
    exact h.front q i (h₁.front q i hi hlt hne) (Nat.lt_succ_of_lt hlt) hmem
  · rw [h.live, hlive₁, List.mem_cons]
    constructor
    · rintro ((rfl | hq) | ⟨hq, hf⟩)
      · exact .inr ⟨.inl rfl, hp⟩
      · exact .inl hq
      · exact .inr ⟨.inr hq, hf⟩
    · rintro (hq | ⟨rfl | hq, hf⟩)
      · exact .inl (.inr hq)
      · exact .inl (.inl rfl)
      · exact .inr ⟨hq, hf⟩
  · cases k with
    | zero =>
      obtain rfl := Option.some.inj hk
      rw [h.kept p hp₁]
      exact h₁.zeroed hr
    | succ k =>
      refine h.zeroed k q hk hq ?_ fun x hx => hfirst x (List.mem_cons_of_mem p hx)
      by_contra hne
      rcases (h₁.requests q.1).mp hne with he | hne
      · exact hfirst p List.mem_cons_self he.symm
      · exact hne hr
  · cases k with
    | zero =>
      obtain rfl := Option.some.inj hk
      have hr' : m.indicesMapping.get? p.1 ≠ none := hr.resolve_right (by simp)
      obtain ⟨s, hs, hmem, heq⟩ := h₁.copied hlive hr'
      refine ⟨s, hs, .inl hmem, ?_⟩
      rw [h.kept p hp₁, hkept _ hmem, heq]
    | succ k =>
      have hqp : q ≠ p := fun he => hnot (he ▸ List.mem_of_getElem? hk)
      have hlive' : q ∉ m₁.livePairs := fun hq' => ((hlive₁ q).mp hq').elim hqp hlive
      have hr' : m₁.indicesMapping.get? q.1 ≠ none ∨ ∃ x ∈ batch.take k, x.1 = q.1 := by
        rcases hr with hr | ⟨x, hx, hxq⟩
        · exact .inl ((h₁.requests q.1).mpr (.inr hr))
        · rcases List.mem_cons.mp hx with rfl | hx
          · exact .inl ((h₁.requests q.1).mpr (.inl hxq.symm))
          · exact .inr ⟨x, hx, hxq⟩
      obtain ⟨s, hs, hmem, heq⟩ := h.copied k q hk hq hlive' hr'
      refine ⟨s, hs, ?_, heq⟩
      rcases hmem with hmem | hmem
      · rcases (hlive₁ _).mp hmem with he | hmem
        · exact .inr (he ▸ List.mem_cons_self)
        · exact .inl hmem
      · exact .inr (List.mem_cons_of_mem p hmem)

end AssignedAll

/-- The loop of `_prepare_current_run_mamba_cache`. -/
theorem wp_assignAll [Zero S] {R : MambaExn → MambaCacheManager ρ S → Prop} (finished : List ρ) :
    ∀ (batch : List (ρ × ℕ)) (d : ℕ) (m : MambaCacheManager ρ S), SlotsOk m → batch.Nodup →
      d + batch.length ≤ m.capacity →
      (m.livePairs ∪ (batch.filter (·.1 ∉ finished)).toFinset).card ≤ m.capacity →
      wp (assignAll finished d batch)
        (fun indices m' => AssignedAll finished d batch m m' indices) R m
  | [], d, m, hm, _, _, _ => .nil hm
  | p :: batch, d, m, hm, hnodup, hlen, hroom => by
    obtain ⟨r, s⟩ := p
    rw [List.length_cons] at hlen
    have hrest := (List.nodup_cons.mp hnodup).2
    unfold assignAll
    rw [wp_ite]
    refine ⟨fun hp => ?_, fun hp => ?_⟩
    · rw [List.filter_cons_of_neg (by simpa using hp)] at hroom
      exact wp_mono (wp_assignAll finished batch (d + 1) m hm hrest (by omega) hroom)
        (fun _ _ h => h.skip hp) fun _ _ h => h
    · rw [List.filter_cons_of_pos (by simpa using hp), List.toFinset_cons] at hroom
      have hroom₁ : (r, s) ∉ m.livePairs → m.livePairs.card < m.capacity := by
        intro hnot
        calc m.livePairs.card < (insert (r, s) m.livePairs).card := by
              rw [Finset.card_insert_of_notMem hnot]
              exact Nat.lt_succ_self _
          _ ≤ _ := Finset.card_le_card (by
              rw [Finset.union_insert]
              exact Finset.insert_subset_insert _ Finset.subset_union_left)
          _ ≤ m.capacity := hroom
      rw [wp_bind]
      refine wp_mono (wp_assignSeqId (R := R) (p := (r, s)) hm (by omega) hroom₁)
        (fun _ m₁ h₁ => ?_) fun _ _ h => h
      rw [wp_bind]
      have hsub : m₁.livePairs ∪ (batch.filter (·.1 ∉ finished)).toFinset ⊆
          m.livePairs ∪ insert (r, s) (batch.filter (·.1 ∉ finished)).toFinset := by
        intro q hq
        rw [Finset.union_insert, Finset.mem_insert]
        rcases Finset.mem_union.mp hq with hq | hq
        · by_cases he : q = (r, s)
          · exact .inl he
          · rw [mem_livePairs_iff_stateOf, h₁.others q he, ← mem_livePairs_iff_stateOf] at hq
            exact .inr (Finset.mem_union_left _ hq)
        · exact .inr (Finset.mem_union_right _ hq)
      have hroom₂ := (Finset.card_le_card hsub).trans hroom
      rw [← h₁.capacity] at hlen hroom₂
      refine wp_mono (wp_assignAll finished batch (d + 1) m₁ h₁.ok hrest (by omega) hroom₂)
        (fun _ _ h => ?_) fun _ _ h => h
      rw [wp_pure]
      exact .cons hnodup hp h₁ h

/-! ## Cleaning up -/

/-- What `_clean_up_first_bs_blocks` has done when the slots of `todo` are still to be visited. -/
structure CleanedUp (batchSize : ℕ) (indices todo : List ℕ) (m m' : MambaCacheManager ρ S) :
    Prop where
  rearranged : Rearranged m m'
  running : ∀ p, ∀ i ∈ indices, m.slotOf p = some i → m'.slotOf p = some i
  retained : ∀ p i, m'.slotOf p = some i → i < batchSize → i ∈ indices ∨ i ∈ todo
  todo_lt : ∀ i ∈ todo, i < batchSize

section cleanUp

variable {batchSize : ℕ} {indices : List ℕ}

/-- The pairs that do not run. -/
def retainedPairs (m : MambaCacheManager ρ S) (indices : List ℕ) : Finset (ρ × ℕ) :=
  m.livePairs.filter fun p => ∀ i ∈ indices, m.slotOf p ≠ some i

/-- A pair in the first slots that does not run leaves a slot free for it behind the batch. -/
theorem CleanedUp.exists_free {todo : List ℕ} (h : CleanedUp batchSize indices todo m m')
    (hidx : ∀ i ∈ indices, i < batchSize)
    (hcount : (m.retainedPairs indices).card + batchSize ≤ m.capacity)
    (hp : m'.slotOf p = some j) (hj : j < batchSize) (hrun : j ∉ indices) :
    ∃ i, (List.range' batchSize (m'.capacity - batchSize)).find? (· ∉ m'.allOccupiedIndices)
      = some i := by
  refine SlotLemmas.exists_free fun hall => ?_
  have howned : ∀ i ∈ insert j (Finset.Ico batchSize m.capacity),
      ∃ q ∈ m.retainedPairs indices, m'.slotOf q = some i := by
    intro i hi
    have hnotrun : i ∉ indices := by
      intro hmem
      rcases Finset.mem_insert.mp hi with rfl | hi
      · exact hrun hmem
      · exact absurd (hidx i hmem) (Nat.not_lt.mpr (Finset.mem_Ico.mp hi).1)
    obtain ⟨q, hq⟩ : ∃ q, m'.slotOf q = some i := by
      rcases Finset.mem_insert.mp hi with rfl | hi
      · exact ⟨p, hp⟩
      · obtain ⟨hge, hlt⟩ := Finset.mem_Ico.mp hi
        exact hall i (List.mem_range'_1.mpr ⟨hge, by rw [h.rearranged.capacity]; omega⟩)
    refine ⟨q, Finset.mem_filter.mpr ⟨?_, fun k hk hslot => ?_⟩, hq⟩
    · rw [← h.rearranged.livePairs_eq]
      exact mem_livePairs_of_slot hq
    · have heq : i = k := Option.some.inj (hq.symm.trans (h.running q k hk hslot))
      exact hnotrun (heq ▸ hk)
  have hcard := card_le_of_owned howned
  rw [Finset.card_insert_of_notMem (by simp [hj]), Nat.card_Ico] at hcard
  omega

/-- One round of the loop. -/
theorem CleanedUp.step {R : MambaExn → MambaCacheManager ρ S → Prop} {todo : List ℕ}
    (hidx : ∀ i ∈ indices, i < batchSize)
    (hcount : (m.retainedPairs indices).card + batchSize ≤ m.capacity)
    (h : CleanedUp batchSize indices (j :: todo) m m') :
    wp (do
      let allOccupied := (← get).allOccupiedIndices
      if j ∈ allOccupied ∧ j ∉ indices then
        let firstAvailIndex ← firstFreeIndex (List.range' batchSize (m.capacity - batchSize))
        swapPairIndicesAndMappings j firstAvailIndex)
      (fun _ m'' => CleanedUp batchSize indices todo m m'') R m' := by
  have hcap := h.rearranged.capacity
  have hj : j < batchSize := h.todo_lt j List.mem_cons_self
  rw [wp_bind, wp_get, wp_ite]
  refine ⟨fun hocc => ?_, fun hocc => ?_⟩
  · obtain ⟨p, hp⟩ := mem_allOccupiedIndices.mp hocc.1
    obtain ⟨free, hfree⟩ := h.exists_free hidx hcount hp hj hocc.2
    have hmem := List.mem_range'_1.mp (List.mem_of_find?_eq_some hfree)
    have hno : ∀ q, m'.slotOf q ≠ some free := fun q hq =>
      absurd (mem_allOccupiedIndices.mpr ⟨q, hq⟩) (by simpa using List.find?_some hfree)
    unfold firstFreeIndex
    rw [wp_bind, wp_bind, wp_get, ← hcap, hfree]
    dsimp only
    rw [wp_pure]
    refine wp_mono (wp_swapPair (R := R) (by omega) (by omega)) (fun _ m'' hrel => ?_)
      fun _ _ h => h
    have hrearr := hrel.rearranged h.rearranged.ok fun i hi => by
      rw [Equiv.swap_apply_def]
      split
      · omega
      · split
        · omega
        · exact hi
    refine ⟨h.rearranged.trans hrearr, fun q i hi hq => ?_, fun q i hq hi => ?_,
      fun i hi => h.todo_lt i (List.mem_cons_of_mem j hi)⟩
    · have hne : i ≠ j := fun he => hocc.2 (he ▸ hi)
      have hne' : i ≠ free := fun he => absurd (hidx i hi) (by omega)
      rw [hrel.slots, h.running q i hi hq, Option.map_some, Equiv.swap_apply_of_ne_of_ne hne hne']
    · rw [hrel.slots] at hq
      obtain ⟨k, hk, he⟩ := Option.map_eq_some_iff.mp hq
      have hkfree : k ≠ free := fun hk' => hno q (hk' ▸ hk)
      have hkj : k ≠ j := by
        rintro rfl
        rw [Equiv.swap_apply_left] at he
        omega
      rw [Equiv.swap_apply_of_ne_of_ne hkj hkfree] at he
      obtain rfl := he
      exact (h.retained q k hk hi).imp_right fun hmem => (List.mem_cons.mp hmem).resolve_left hkj
  · rw [wp_pure]
    refine ⟨h.rearranged, h.running, fun q i hq hi => ?_,
      fun i hi => h.todo_lt i (List.mem_cons_of_mem j hi)⟩
    rcases h.retained q i hq hi with hmem | hmem
    · exact .inl hmem
    · rcases List.mem_cons.mp hmem with rfl | hmem
      · exact .inl (Classical.not_not.mp fun hrun =>
          hocc ⟨mem_allOccupiedIndices.mpr ⟨q, hq⟩, hrun⟩)
      · exact .inr hmem

/-- `_clean_up_first_bs_blocks`. -/
theorem wp_cleanUp {R : MambaExn → MambaCacheManager ρ S → Prop} (hm : SlotsOk m)
    (hidx : ∀ i ∈ indices, i < batchSize)
    (hcount : (m.retainedPairs indices).card + batchSize ≤ m.capacity) :
    wp (cleanUpFirstBsBlocks batchSize indices)
      (fun _ m' => CleanedUp batchSize indices [] m m') R m := by
  unfold cleanUpFirstBsBlocks
  rw [wp_bind, wp_get, wp_ite]
  refine ⟨fun hfull => ?_, fun _ => ?_⟩
  · rw [wp_pure]
    have hempty : m.retainedPairs indices = ∅ := Finset.card_eq_zero.mp (by omega)
    refine ⟨.refl hm, fun _ _ _ h => h, fun p i hp _ => .inl ?_, fun _ h => absurd h (by simp)⟩
    by_contra hnot
    have hmem : p ∈ m.retainedPairs indices := Finset.mem_filter.mpr
      ⟨mem_livePairs_of_slot hp, fun k hk he => hnot (Option.some.inj (hp.symm.trans he) ▸ hk)⟩
    rw [hempty] at hmem
    exact absurd hmem (Finset.notMem_empty p)
  · refine wp_forM (I := fun todo m' => CleanedUp batchSize indices todo m m')
      (fun j todo m' h => h.step hidx hcount) _ m ?_
    exact ⟨.refl hm, fun _ _ _ h => h, fun _ i _ hi => .inr (List.mem_range.mpr hi),
      fun i hi => List.mem_range.mp hi⟩

end cleanUp

/-! ## Release -/

/-- The pairs of the requests `finished` own no slot any more; the others keep slot and state. -/
structure Released (finished : List ρ) (m m' : MambaCacheManager ρ S) : Prop where
  ok : SlotsOk m'
  capacity : m'.capacity = m.capacity
  slots : ∀ p, m'.slotOf p = if p.1 ∈ finished then none else m.slotOf p
  states : ∀ p, p.1 ∉ finished → m'.stateOf p = m.stateOf p

/-- The release of one request. -/
theorem wp_releaseOne [Zero S] {R : MambaExn → MambaCacheManager ρ S → Prop} (hm : SlotsOk m)
    (r : ρ) :
    wp (do
      match (← get).indicesMapping.get? r with
      | none => pure PUnit.unit
      | some seqMapping =>
        modify fun m => { m with indicesMapping := m.indicesMapping.erase r }
        forM seqMapping.values zeroMambaCache)
      (fun _ m' => Released [r] m m') R m := by
  rw [wp_bind, wp_get]
  cases hr : m.indicesMapping.get? r with
  | none =>
    dsimp only
    rw [wp_pure]
    refine ⟨hm, rfl, fun p => ?_, fun _ _ => rfl⟩
    split
    · next h =>
      obtain rfl := List.mem_singleton.mp h
      show (m.indicesMapping.get? p.1).bind _ = none
      rw [hr]
      rfl
    · rfl
  | some D =>
    have hD : ∀ s, m.slotOf (r, s) = D.get? s := fun s => by
      show (m.indicesMapping.get? r).bind _ = _
      rw [hr]
      rfl
    dsimp only
    rw [wp_bind, wp_modify]
    -- zeroing touches the slots of the request only
    refine wp_mono (Q := fun _ m' => m'.capacity = m.capacity ∧
        m'.indicesMapping = m.indicesMapping.erase r ∧
        ∀ i, i ∉ D.values → m'.mambaCache i = m.mambaCache i)
      (wp_forM (R := R) (I := fun todo m' => (∀ i ∈ todo, i ∈ D.values) ∧
        m'.capacity = m.capacity ∧ m'.indicesMapping = m.indicesMapping.erase r ∧
        ∀ i, i ∉ D.values → m'.mambaCache i = m.mambaCache i) ?_ D.values _
        ⟨fun _ h => h, rfl, rfl, fun _ _ => rfl⟩ |> fun h => wp_mono h (fun _ _ h => h.2)
          fun _ _ h => h) ?_ fun _ _ h => h
    · rintro i todo m' ⟨htodo, hcap, hmap, hcache⟩
      obtain ⟨s, hs⟩ := Dict.mem_values.mp (htodo i List.mem_cons_self)
      refine wp_zeroMambaCache (hcap ▸ hm.lt (r, s) i ((hD s).trans hs)) ?_
      refine ⟨fun k hk => htodo k (List.mem_cons_of_mem i hk), hcap, hmap, fun k hk => ?_⟩
      have hne : k ≠ i := fun h => hk (h ▸ htodo i List.mem_cons_self)
      exact (Function.update_of_ne hne 0 _).trans (hcache k hk)
    · rintro _ m' ⟨hcap, hmap, hcache⟩
      have hslot : ∀ p, m'.slotOf p = if p.1 ∈ [r] then none else m.slotOf p := by
        intro p
        show (m'.indicesMapping.get? p.1).bind _ = _
        rw [hmap, Dict.get?_erase]
        simp only [List.mem_singleton]
        split <;> rfl
      have hkeep : ∀ p i, m'.slotOf p = some i → p.1 ≠ r ∧ m.slotOf p = some i := by
        intro p i hp
        rw [hslot] at hp
        split at hp
        · exact absurd hp (by simp)
        · next h => exact ⟨fun he => h (List.mem_singleton.mpr he), hp⟩
      refine ⟨⟨fun p q i hp hq => hm.inj p q i (hkeep p i hp).2 (hkeep q i hq).2,
        fun p i hp => hcap ▸ hm.lt p i (hkeep p i hp).2, fun r' hr' => ?_⟩, hcap, hslot,
        fun p hp => ?_⟩
      · rw [hmap, Dict.get?_erase] at hr'
        split at hr'
        · exact absurd rfl hr'
        · next h =>
          obtain ⟨s, hs⟩ := hm.inhabited r' hr'
          exact ⟨s, by rwa [hslot, if_neg fun hmem => h (List.mem_singleton.mp hmem)]⟩
      · unfold MambaCacheManager.stateOf
        rw [hslot, if_neg hp]
        cases hi : m.slotOf p with
        | none => rfl
        | some i =>
          have hnot : i ∉ D.values := by
            intro hmem
            obtain ⟨s, hs⟩ := Dict.mem_values.mp hmem
            have heq := hm.inj p (r, s) i hi ((hD s).trans hs)
            exact hp (List.mem_singleton.mpr (congrArg Prod.fst heq))
          rw [Option.map_some, Option.map_some, hcache i hnot]

/-- `_release_finished_requests`. -/
theorem wp_release [Zero S] {R : MambaExn → MambaCacheManager ρ S → Prop} :
    ∀ (finished : List ρ) (m : MambaCacheManager ρ S), SlotsOk m →
      wp (releaseFinishedRequests finished) (fun _ m' => Released finished m m') R m
  | [], m, hm => ⟨hm, rfl, fun p => by simp, fun _ _ => rfl⟩
  | r :: finished, m, hm => by
    unfold releaseFinishedRequests
    rw [List.forM_cons, wp_bind]
    refine wp_mono (wp_releaseOne (R := R) hm r) (fun _ m₁ h₁ => ?_) fun _ _ h => h
    refine wp_mono (wp_release (R := R) finished m₁ h₁.ok) (fun _ m' h => ?_) fun _ _ h => h
    refine ⟨h.ok, h.capacity.trans h₁.capacity, fun p => ?_, fun p hp => ?_⟩
    · rw [h.slots, h₁.slots]
      simp only [List.mem_cons, List.not_mem_nil, or_false]
      by_cases hf : p.1 ∈ finished
      · simp [hf]
      · simp [hf]
    · obtain ⟨hne, hf⟩ : p.1 ∉ [r] ∧ p.1 ∉ finished := by simpa using hp
      exact (h.states p hf).trans (h₁.states p hne)

end Ikun.MambaCacheManager
