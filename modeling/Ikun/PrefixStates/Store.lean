import Ikun.PrefixStates.Actions

/-!
# The store follows the index

The worker replays the actions of a step in another order than the scheduler: it drops the evicted
states before it reads the restored one, and saves the captured states at the end. With the actions
of one prompt it finds the state that it is to restore, and its keys are those of the index
(`forward_spec`).
-/

namespace Ikun.PrefixStates

open Except GdnPrefix Scheduling

variable {ρ δ S : Type} [DecidableEq δ] {text : DigestText δ} {store store' : Store δ S}
  {p p' : GdnPrefixStatePolicy δ}

/-- The store has the states of the index. -/
def Follows (store : Store δ S) (p : GdnPrefixStatePolicy δ) : Prop :=
  ∀ key, key ∈ store.keys ↔ key ∈ p.resident

/-! ## The parts of a step -/

omit [DecidableEq δ] in
theorem validateGdnPrefixKey_ok {key : GdnPrefixKey δ} (hpos : 0 < key.1) :
    validateGdnPrefixKey text key = .ok key :=
  raiseIf_bind (Nat.ne_of_gt hpos)

/-- The evicted states are dropped. -/
theorem evictStates_ok (text : DigestText δ) (store : Store δ S) {evicted : List (GdnPrefixKey δ)} (hpos : ∀ key ∈ evicted, 0 < key.1) :
    ∃ kept, evicted.foldlM (evictState text) store = .ok kept ∧
      ∀ key, kept.get? key = if key ∈ evicted then none else store.get? key := by
  induction evicted generalizing store with
  | nil => exact ⟨store, rfl, fun key => (if_neg List.not_mem_nil).symm⟩
  | cons first rest ih =>
    obtain ⟨kept, hkept, hget⟩ := ih (store.erase first)
      fun key hkey => hpos key (List.mem_cons_of_mem first hkey)
    refine ⟨kept, ?_, fun key => ?_⟩
    · rw [List.foldlM_cons]
      unfold evictState
      rw [validateGdnPrefixKey_ok (hpos first List.mem_cons_self)]
      exact hkept
    · rw [hget key]
      by_cases hrest : key ∈ rest
      · rw [if_pos hrest, if_pos (List.mem_cons_of_mem first hrest)]
      · rw [if_neg hrest]
        by_cases hfirst : key = first
        · subst hfirst
          rw [Dict.get?_erase_self, if_pos List.mem_cons_self]
        · rw [Dict.get?_erase_ne _ hfirst, if_neg]
          exact fun hmem => (List.mem_cons.mp hmem).elim hfirst hrest

omit [DecidableEq δ] in
/-- Ascending capture points within the query are taken as they are. -/
theorem captureKeys_ok {queryLen : ℕ} {points : List (ℕ × GdnPrefixKey δ)}
    (hascending : points.Pairwise (·.1 < ·.1)) (htwo : points.length ≤ 2)
    (hpoints : ∀ point ∈ points, 0 < point.1 ∧ point.1 ≤ queryLen ∧ 0 < point.2.1) :
    ∃ keys, captureKeys text queryLen points = .ok keys ∧ keys.items = points := by
  have hround : ∀ (rest : List (ℕ × GdnPrefixKey δ)) (keys : Dict ℕ (GdnPrefixKey δ)),
      (∀ point ∈ rest, 0 < point.1 ∧ point.1 ≤ queryLen ∧ 0 < point.2.1) →
      rest.Pairwise (·.1 < ·.1) → (∀ point ∈ rest, ∀ item ∈ keys.items, item.1 < point.1) →
      ∃ keys', rest.foldlM (addCapturePoint text queryLen) keys = .ok keys' ∧
        keys'.items = keys.items ++ rest := by
    intro rest
    induction rest with
    | nil => exact fun keys _ _ _ => ⟨keys, rfl, (List.append_nil _).symm⟩
    | cons point rest ih =>
      intro keys hrange hsorted hbehind
      obtain ⟨hfirst, hsorted⟩ := List.pairwise_cons.mp hsorted
      obtain ⟨hpos, hle, hkey⟩ := hrange point List.mem_cons_self
      have hnew : point.1 ∉ keys.keys := fun hmem => by
        obtain ⟨item, hitem, heq⟩ := List.mem_map.mp hmem
        exact Nat.ne_of_lt (hbehind point List.mem_cons_self item hitem) heq
      have hitems := Dict.items_set_of_not_mem hnew point.2
      obtain ⟨keys', hkeys', hitems'⟩ := ih (keys.set point.1 point.2)
        (fun q hq => hrange q (List.mem_cons_of_mem point hq)) hsorted fun q hq item hitem => by
          rw [hitems] at hitem
          cases List.mem_append.mp hitem with
          | inl hold => exact hbehind q (List.mem_cons_of_mem point hq) item hold
          | inr hlast => exact List.mem_singleton.mp hlast ▸ hfirst q hq
      refine ⟨keys', ?_, ?_⟩
      · rw [List.foldlM_cons]
        unfold addCapturePoint
        rw [raiseIf_bind, validateGdnPrefixKey_ok hkey]
        · exact hkeys'
        · rintro (hzero | hlong | hcontains)
          · exact Nat.ne_of_gt hpos hzero
          · exact Nat.not_lt.mpr hle hlong
          · exact hnew (Dict.contains_iff_mem_keys.mp hcontains)
      · rw [hitems', hitems, List.append_assoc]
        rfl
  obtain ⟨keys, hkeys, hitems⟩ := hround points .empty hpoints hascending
    fun _ _ item hitem => absurd hitem List.not_mem_nil
  refine ⟨keys, ?_, hitems⟩
  unfold captureKeys
  rw [hkeys]
  refine raiseIf_bind ?_
  rw [show keys.length = points.length from congrArg List.length hitems]
  exact Nat.not_lt.mpr htwo

/-- The segment offsets of a step pass. -/
theorem checkSegmentOffsets_ok {queryLen : ℕ} {offsets : List ℕ}
    (hinside : ∀ offset ∈ offsets, 0 < offset ∧ offset < queryLen) (hfew : offsets.length ≤ 3) :
    checkSegmentOffsets queryLen offsets = .ok () := by
  have hloop : offsets.forM (checkSegmentOffset queryLen) = .ok () := by
    clear hfew
    induction offsets with
    | nil => rfl
    | cons offset rest ih =>
      obtain ⟨hpos, hlt⟩ := hinside offset List.mem_cons_self
      have hcheck : checkSegmentOffset queryLen offset = .ok () := raiseIf_eq_ok.mpr (by omega)
      change (checkSegmentOffset queryLen offset >>= fun _ => rest.forM _) = _
      rw [hcheck]
      exact ih fun o ho => hinside o (List.mem_cons_of_mem offset ho)
  unfold checkSegmentOffsets
  rw [hloop]
  refine raiseIf_eq_ok.mpr ?_
  have hdedup := (List.dedup_sublist offsets).length_le
  omega

/-- The saved states are those of the capture points. -/
theorem get?_saveStates {states : ℕ → S} {keys : Dict ℕ (GdnPrefixKey δ)} {key : GdnPrefixKey δ}
    {state : S} (h : (saveStates states keys store).get? key = some state) :
    (∃ offset, (offset, key) ∈ keys.items ∧ state = states offset) ∨
      key ∉ keys.items.map (·.2) ∧ store.get? key = some state := by
  unfold saveStates at h
  generalize keys.items = points at h ⊢
  induction points generalizing store with
  | nil => exact .inr ⟨List.not_mem_nil, h⟩
  | cons point rest ih =>
    rw [List.foldl_cons] at h
    cases ih h with
    | inl hcaptured =>
      obtain ⟨offset, hmem, hstate⟩ := hcaptured
      exact .inl ⟨offset, List.mem_cons_of_mem point hmem, hstate⟩
    | inr hstored =>
      obtain ⟨hother, hget⟩ := hstored
      by_cases heq : key = point.2
      · subst heq
        rw [Dict.get?_set_self] at hget
        exact .inl ⟨point.1, List.mem_cons_self, (Option.some.inj hget).symm⟩
      · rw [Dict.get?_set_ne _ heq] at hget
        exact .inr ⟨fun hmem => (List.mem_cons.mp hmem).elim heq hother, hget⟩

/-- The captured keys are added to those of the store. -/
theorem mem_keys_saveStates {states : ℕ → S} {keys : Dict ℕ (GdnPrefixKey δ)}
    {key : GdnPrefixKey δ} :
    key ∈ (saveStates states keys store).keys ↔ key ∈ keys.items.map (·.2) ∨ key ∈ store.keys := by
  unfold saveStates
  generalize keys.items = points
  induction points generalizing store with
  | nil => exact ⟨.inr, fun h => h.resolve_left List.not_mem_nil⟩
  | cons point rest ih =>
    rw [List.foldl_cons, ih, Dict.mem_keys_set, List.map_cons, List.mem_cons]
    tauto

/-! ## A step -/

/-- The step has an action, in the sense of `has_gdn_actions`. -/
def Acts (a : Scheduler.PrefillActions δ) : Prop :=
  a.restoreKey ≠ none ∨ a.capturePoints ≠ [] ∨ a.evictKeys ≠ [] ∨ a.segmentOffsets ≠ []

/-- The actions as the model receives them. -/
def sentActions (a : Scheduler.PrefillActions δ) : GdnActions δ where
  restoreKey := a.restoreKey
  capturePoints := some a.capturePoints
  evictKeys := some a.evictKeys
  segmentOffsets := some a.segmentOffsets

omit [DecidableEq δ] in
theorem hasGdnActions_iff {numSeqs numPrefillTokens : ℕ} {a : Scheduler.PrefillActions δ} :
    (ModelInput.mk numSeqs numPrefillTokens (sentActions a)).hasGdnActions = true ↔ Acts a := by
  unfold ModelInput.hasGdnActions Acts sentActions
  simp only [Option.getD_some, Bool.or_eq_true, decide_eq_true_eq, List.isEmpty_iff,
    Option.isSome_iff_ne_none, or_assoc]

/-- The model refuses a prompt with actions in a batch of several sequences. -/
def singleSequenceError : Exn :=
  .runtimeError "GDN prefix-cache actions require a single-sequence prefill"

/-- The state in front of the query: that of the slot, or the restored one. -/
structure StartsFrom (slot : S) (store : Store δ S) (restored : Option (GdnPrefixKey δ))
    (start : S) : Prop where
  fresh : restored = none → start = slot
  saved : ∀ key, restored = some key → store.get? key = some start

/-- A restored state is found. -/
theorem restoreState_ok (text : DigestText δ) (slot : S) (store : Store δ S) {restored : Option (GdnPrefixKey δ)}
    (h : ∀ key, restored = some key → 0 < key.1 ∧ key ∈ store.keys) :
    ∃ start, restoreState text slot store restored = .ok start ∧
      StartsFrom slot store restored start := by
  cases restored with
  | none => exact ⟨slot, rfl, fun _ => rfl, fun _ h => nomatch h⟩
  | some key =>
    obtain ⟨hpos, hmem⟩ := h key rfl
    obtain ⟨saved, hsaved⟩ := Dict.mem_keys.mp hmem
    refine ⟨saved, bind_eq_ok.mpr ⟨key, validateGdnPrefixKey_ok hpos, ?_⟩, (fun h => nomatch h),
      fun k hk => ?_⟩
    · rw [hsaved]
      rfl
    · exact Option.some.inj hk ▸ hsaved

/-- What `forward` leaves behind a prompt that starts from `start`. -/
structure Forwarded (layers : S → ℕ → S) (start : S) (store : Store δ S)
    (a : Scheduler.PrefillActions δ) (p' : GdnPrefixStatePolicy δ) (queryLen : ℕ)
    (r : S × Store δ S) : Prop where
  slot : r.1 = layers start queryLen
  follows : Follows r.2 p'
  states : ∀ key state, r.2.get? key = some state →
    (∃ offset, (offset, key) ∈ a.capturePoints ∧ state = layers start offset) ∨
      store.get? key = some state

/-- With the actions of one prompt, `forward` follows the index, and it raises exactly when there
are actions in a batch of several sequences. -/
theorem forward_spec (layers : S → ℕ → S) (slot : S) {a : Scheduler.PrefillActions δ}
    {numSeqs queryLen : ℕ} (hfollows : Follows store p) (ha : PromptActions p p' a queryLen)
    (hquery : 0 < queryLen) :
    (Acts a ∧ numSeqs ≠ 1 ∧ forward text layers slot ⟨numSeqs, queryLen, sentActions a⟩ store
        = .error singleSequenceError) ∨
      (Acts a → numSeqs = 1) ∧
        ∃ start r, forward text layers slot ⟨numSeqs, queryLen, sentActions a⟩ store = .ok r ∧
          StartsFrom slot store a.restoreKey start ∧
          Forwarded layers start store a p'
            (ModelInput.mk numSeqs queryLen (sentActions a)).queryLen r := by
  by_cases hrefused : Acts a ∧ numSeqs ≠ 1
  · have hcheck : (ModelInput.mk numSeqs queryLen (sentActions a)).hasGdnActions ∧
        ¬ (ModelInput.mk numSeqs queryLen (sentActions a)).isSingleSeqPrefill :=
      ⟨hasGdnActions_iff.mpr hrefused.1, fun hsingle =>
        hrefused.2 (of_decide_eq_true hsingle).2⟩
    refine .inl ⟨hrefused.1, hrefused.2, ?_⟩
    unfold forward raiseIf
    rw [if_pos hcheck]
    rfl
  refine .inr ⟨fun hacts => not_not.mp fun hne => hrefused ⟨hacts, hne⟩, ?_⟩
  obtain ⟨kept, hkept, hget⟩ := evictStates_ok text store
    ha.admitted.evicted_pos
  have hmemKept : ∀ key, key ∈ kept.keys ↔ key ∈ p.resident ∧ key ∉ a.evictKeys := fun key => by
    rw [← hfollows key, Dict.mem_keys, Dict.mem_keys, hget key]
    by_cases hevicted : key ∈ a.evictKeys
    · rw [if_pos hevicted]
      exact iff_of_false (fun ⟨_, h⟩ => nomatch h) fun h => h.2 hevicted
    · rw [if_neg hevicted]
      exact (and_iff_left hevicted).symm
  obtain ⟨start, hstart, hfrom⟩ := restoreState_ok text slot kept
    fun key hkey => by
      obtain ⟨hpos, hmem, hspared⟩ := ha.restored key hkey
      exact ⟨hpos, (hmemKept key).mpr ⟨hmem, hspared⟩⟩
  -- the query is that of the prompt, or there is nothing to check
  have hlength : (ModelInput.mk numSeqs queryLen (sentActions a)).queryLen = queryLen ∨ ¬ Acts a := by
    by_cases hacts : Acts a
    · have hone : numSeqs = 1 := not_not.mp fun hne => hrefused ⟨hacts, hne⟩
      exact .inl (if_pos (decide_eq_true ⟨hquery, hone⟩))
    · exact .inr hacts
  have hcaptured : ∃ keys, captureKeys text
      (ModelInput.mk numSeqs queryLen (sentActions a)).queryLen a.capturePoints = .ok keys ∧
        keys.items = a.capturePoints := by
    refine captureKeys_ok ha.ascending ha.two fun point hpoint => ?_
    cases hlength with
    | inl hlength =>
      obtain ⟨hpos, hle⟩ := ha.captured point hpoint
      exact ⟨hpos, hlength.symm ▸ hle,
        ha.admitted.keys_pos point.2 (List.mem_map_of_mem hpoint)⟩
    | inr hnone => exact absurd (.inr (.inl (List.ne_nil_of_mem hpoint))) hnone
  have hsegments : checkSegmentOffsets (ModelInput.mk numSeqs queryLen (sentActions a)).queryLen
      a.segmentOffsets = .ok () := by
    refine checkSegmentOffsets_ok (fun offset hoffset => ?_) ha.few
    cases hlength with
    | inl hlength => exact hlength.symm ▸ ha.segments offset hoffset
    | inr hnone => exact absurd (.inr (.inr (.inr (List.ne_nil_of_mem hoffset)))) hnone
  obtain ⟨keys, hkeys, hitems⟩ := hcaptured
  refine ⟨start, (layers start (ModelInput.mk numSeqs queryLen (sentActions a)).queryLen,
    saveStates (layers start) keys kept), ?_, ⟨hfrom.fresh, fun key hkey => ?_⟩,
    ⟨rfl, fun key => ?_, fun key state hstate => ?_⟩⟩
  · unfold forward
    rw [raiseIf_bind]
    · refine bind_eq_ok.mpr ⟨kept, hkept, bind_eq_ok.mpr ⟨start, hstart, ?_⟩⟩
      exact bind_eq_ok.mpr ⟨keys, hkeys, bind_eq_ok.mpr ⟨(), hsegments, rfl⟩⟩
    · rintro ⟨hacts, hsingle⟩
      refine hrefused ⟨hasGdnActions_iff.mp hacts, fun hone => hsingle ?_⟩
      exact decide_eq_true ⟨hquery, hone⟩
  · have hsaved := hfrom.saved key hkey
    rwa [hget key, if_neg (ha.restored key hkey).2.2] at hsaved
  · rw [mem_keys_saveStates, hitems, hmemKept, ha.admitted.mem_iff]
  · cases get?_saveStates hstate with
    | inl hcaptured => exact .inl (hitems ▸ hcaptured)
    | inr hstored =>
      have hold := hstored.2
      rw [hget key] at hold
      split at hold
      · cases hold
      · exact .inr hold

end Ikun.PrefixStates
