import Ikun.Lib.Recency
import Ikun.PrefixStates.Worker

/-!
# The index of the captured states

The scheduler's index is a bounded set in the order of the last use: `select_restore` touches the
restored key, `admit` admits the captured ones. The worker learns of the evicted and the captured
keys, and that is enough to follow the index (`Residents.admitKeys`): a restored key is not evicted
before it is read, because it is the one used last and a step captures at most two states.
-/

namespace Ikun.PrefixStates

open Except GdnPrefix Scheduling

variable {δ : Type} [DecidableEq δ] {p p' : GdnPrefixStatePolicy δ}

/-- What holds of the index: every key is there once and has a block, and there are no more than the
capacity allows. -/
structure Residents (p : GdnPrefixStatePolicy δ) : Prop where
  nodup : p.resident.Nodup
  length_le : p.resident.length ≤ p.capacity
  blocks_pos : ∀ key ∈ p.resident, 0 < key.1

omit [DecidableEq δ] in
theorem residents_empty (policy : CachePolicy) :
    Residents ({ policy := policy } : GdnPrefixStatePolicy δ) :=
  ⟨List.nodup_nil, Nat.zero_le _, fun _ h => nomatch h⟩

omit [DecidableEq δ] in
/-- The states of a step fit into every index that captures at all. -/
theorem capacity_ge (hne : p.capacity ≠ 0) : 32 ≤ p.capacity := by
  unfold GdnPrefixStatePolicy.capacity at hne ⊢
  cases hpolicy : p.policy with
  | fine32 => exact Nat.le_refl 32
  | admission64 => exact show 32 ≤ 64 by decide
  | off => exact absurd (by rw [hpolicy]) hne

omit [DecidableEq δ] in
theorem capacity_eq_zero : p.capacity = 0 ↔ p.policy = .off := by
  unfold GdnPrefixStatePolicy.capacity
  cases p.policy with
  | fine32 => exact iff_of_false (by decide) (by decide)
  | admission64 => exact iff_of_false (by decide) (by decide)
  | off => exact iff_of_true rfl rfl

/-! ## Selecting -/

/-- What `select_restore` does: nothing, or the selected key becomes the one used last. -/
theorem selectRestore_cases {liveKeys : List (GdnPrefixKey δ)} {maxBlocks : ℕ}
    {restored : Option (GdnPrefixKey δ)}
    (h : p.selectRestore liveKeys maxBlocks = (restored, p')) :
    (restored = none ∧ p' = p) ∨
      ∃ key, restored = some key ∧ key ∈ p.resident ∧ p' = p.moveToEnd key := by
  unfold GdnPrefixStatePolicy.selectRestore at h
  split at h
  · obtain ⟨rfl, rfl⟩ := Prod.mk.inj h
    exact .inl ⟨rfl, rfl⟩
  · split at h
    · next best hbest =>
      obtain ⟨rfl, rfl⟩ := Prod.mk.inj h
      have hmem := (List.mem_filter.mp (List.mem_of_getLast? hbest)).2
      exact .inr ⟨best, rfl, of_decide_eq_true hmem, rfl⟩
    · obtain ⟨rfl, rfl⟩ := Prod.mk.inj h
      exact .inl ⟨rfl, rfl⟩

/-- The index has the same keys in another order, and the restored one is the last. -/
structure Reordered (p p' : GdnPrefixStatePolicy δ) (restored : Option (GdnPrefixKey δ)) : Prop where
  policy : p'.policy = p.policy
  mem_iff : ∀ key, key ∈ p'.resident ↔ key ∈ p.resident
  residents : Residents p → Residents p'
  last : ∀ key, restored = some key → [key] <:+ p'.resident

omit [DecidableEq δ] in
theorem Reordered.refl (p : GdnPrefixStatePolicy δ) : Reordered p p none :=
  ⟨rfl, fun _ => Iff.rfl, id, fun _ h => nomatch h⟩

theorem selectRestore_reordered {liveKeys : List (GdnPrefixKey δ)} {maxBlocks : ℕ}
    {restored : Option (GdnPrefixKey δ)}
    (h : p.selectRestore liveKeys maxBlocks = (restored, p')) : Reordered p p' restored := by
  cases selectRestore_cases h with
  | inl hnone =>
    obtain ⟨rfl, rfl⟩ := hnone
    exact .refl _
  | inr hsome =>
    obtain ⟨key, rfl, hmem, rfl⟩ := hsome
    have hiff : ∀ k, k ∈ Recency.touch p.resident key ↔ k ∈ p.resident := fun k => by
      rw [Recency.mem_touch]
      constructor
      · intro h
        cases h with
        | inl h => exact h ▸ hmem
        | inr h => exact h
      · exact .inr
    refine ⟨rfl, hiff, fun hres => ⟨Recency.nodup_touch hres.nodup, ?_, fun k hk => ?_⟩, ?_⟩
    · exact (Recency.length_touch_of_mem hmem).trans_le hres.length_le
    · exact hres.blocks_pos k ((hiff k).mp hk)
    · intro k hk
      obtain rfl := Option.some.inj hk
      exact List.suffix_append _ _

/-! ## Admitting -/

/-- `admit` is the admission to a bounded set, for keys that have blocks. -/
theorem admitAll_ok {keys evicted : List (GdnPrefixKey δ)}
    (h : GdnPrefixStatePolicy.admitAll keys p = .ok (evicted, p')) :
    evicted = (Recency.admitAll p.capacity keys p.resident).1 ∧
      p' = { p with resident := (Recency.admitAll p.capacity keys p.resident).2 } ∧
      ∀ key ∈ keys, 0 < key.1 := by
  induction keys generalizing p p' evicted with
  | nil =>
    obtain ⟨rfl, rfl⟩ := Prod.mk.inj (Except.ok.inj h)
    exact ⟨rfl, rfl, fun _ h => nomatch h⟩
  | cons key rest ih =>
    obtain ⟨⟨evicted₁, p₁⟩, hadmits, h⟩ := bind_eq_ok.mp h
    obtain ⟨⟨evicted₂, p₂⟩, hrest, h⟩ := bind_eq_ok.mp h
    obtain ⟨rfl, rfl⟩ := Prod.mk.inj (Except.ok.inj h)
    obtain ⟨_, hkey, hadmits⟩ := bind_eq_ok.mp hadmits
    obtain ⟨rfl, rfl⟩ := Prod.mk.inj (Except.ok.inj hadmits)
    obtain ⟨hevicted, hleft, hpos⟩ := ih hrest
    refine ⟨hevicted ▸ rfl, hleft ▸ rfl, fun k hk => ?_⟩
    cases List.mem_cons.mp hk with
    | inl heq => exact heq ▸ (makePrefixKey_ok hkey).2
    | inr hmem => exact hpos k hmem

/-- What is evicted was there, or was admitted before. -/
theorem blocks_pos_evicted (capacity : ℕ) {keys l : List (GdnPrefixKey δ)}
    (hkeys : ∀ key ∈ keys, 0 < key.1) (hl : ∀ key ∈ l, 0 < key.1) :
    (∀ key ∈ (Recency.admitAll capacity keys l).1, 0 < key.1) ∧
      ∀ key ∈ (Recency.admitAll capacity keys l).2, 0 < key.1 := by
  induction keys generalizing l with
  | nil => exact ⟨fun _ h => absurd h List.not_mem_nil, hl⟩
  | cons key rest ih =>
    have htouch : ∀ k ∈ Recency.touch l key, 0 < k.1 := fun k hk => by
      cases Recency.mem_touch.mp hk with
      | inl heq => exact heq ▸ hkeys key List.mem_cons_self
      | inr hmem => exact hl k hmem
    obtain ⟨hevicted, hleft⟩ := ih (l := Recency.trim capacity (Recency.touch l key))
      (fun k hk => hkeys k (List.mem_cons_of_mem key hk))
      fun k hk => htouch k (List.mem_of_mem_drop hk)
    refine ⟨fun k hk => ?_, hleft⟩
    cases List.mem_append.mp hk with
    | inl hnow => exact htouch k (List.mem_of_mem_take hnow)
    | inr hlater => exact hevicted k hlater

/-- What the index becomes when a step captures `keys` and evicts `evicted`. -/
structure Admitted (p p' : GdnPrefixStatePolicy δ) (keys evicted : List (GdnPrefixKey δ)) :
    Prop where
  policy : p'.policy = p.policy
  residents : Residents p'
  mem_iff : ∀ key, key ∈ p'.resident ↔ key ∈ keys ∨ key ∈ p.resident ∧ key ∉ evicted
  keys_pos : ∀ key ∈ keys, 0 < key.1
  evicted_pos : ∀ key ∈ evicted, 0 < key.1
  spared : ∀ key, [key] <:+ p.resident → key ∉ evicted

/-- At most two states are admitted to an index that captures. -/
theorem Residents.admitKeys (h : Residents p) {keys evicted : List (GdnPrefixKey δ)}
    (hne : p.policy ≠ .off) (hlength : keys.length ≤ 2)
    (hok : p.admitKeys keys = .ok (evicted, p')) : Admitted p p' keys evicted := by
  have hcapacity : p.capacity ≠ 0 := fun hzero => hne (capacity_eq_zero.mp hzero)
  have hge := capacity_ge hcapacity
  unfold GdnPrefixStatePolicy.admitKeys at hok
  rw [if_neg hcapacity] at hok
  obtain ⟨rfl, rfl, hpos⟩ := admitAll_ok hok
  obtain ⟨hnodup, hle⟩ := Recency.admitAll_spec keys h.nodup h.length_le
  obtain ⟨hevicted, hleft⟩ := blocks_pos_evicted p.capacity hpos h.blocks_pos
  refine ⟨rfl, ⟨hnodup, hle, hleft⟩, fun key => ?_, hpos, hevicted, fun key hlast => ?_⟩
  · exact Recency.mem_admitAll h.nodup (by omega)
  · exact Recency.not_mem_evicted h.nodup hlast (by rw [List.length_singleton]; omega)
      List.mem_cons_self

end Ikun.PrefixStates
