import Ikun.Lib.Copy
import Ikun.CpuKv.Invariant

/-!
# The bytes behind the CPU KV cache

The scheduler's cache is an index. The bytes are in the memory of the workers, which execute the
maps of `drain_step`: every D2H copy, then every H2D copy, then the model, which writes any GPU
blocks it likes.

`Content` ties the index to the memory as it was when the step began. `swapIn_serves_content` is the
result: whatever the scheduler does within a step, every H2D copy finds, in its slot, the content
that the load was staged for, and delivers it.
-/

namespace Ikun.CpuKvContentCache

open Exec

variable {Hash κ : Type} [DecidableEq Hash]

/-! ## The workers -/

/-- The KV blocks of a worker: on the GPU, and in pinned host memory. -/
structure Memory (κ : Type) where
  gpu : ℕ → κ
  cpu : ℕ → κ

/-- `cache_engine.swap_out`: the D2H copies. -/
def swapOut (pairs : SwapMapping) (m : Memory κ) : Memory κ :=
  { m with cpu := copyAll pairs m.gpu m.cpu }

/-- `cache_engine.swap_in`: the H2D copies. -/
def swapIn (pairs : SwapMapping) (m : Memory κ) : Memory κ :=
  { m with gpu := copyAll pairs m.cpu m.gpu }

/-- The transfers of a step, in the order of `execute_worker`: every D2H before any H2D. -/
def executeTransfers (maps : SwapMapping × SwapMapping) (m : Memory κ) : Memory κ :=
  swapIn maps.1 (swapOut maps.2 m)

/-! ## Runs -/

/-- A call that the scheduler makes within a step. -/
inductive Op (Hash : Type)
  | claimLoad (contentHash : Hash)
  | cancelLoad (contentHash : Hash) (cpuSlot : ℕ)
  | stageLoad (contentHash : Hash) (cpuSlot gpuBlock : ℕ)
  | stageStore (contentHash : Hash) (gpuBlock : ℕ)

/-- Makes the call. -/
def Op.run : Op Hash → Method Hash PUnit
  | .claimLoad h => discard (CpuKvContentCache.claimLoad h)
  | .cancelLoad h slot => CpuKvContentCache.cancelLoad h slot
  | .stageLoad h slot b => CpuKvContentCache.stageLoad h slot b
  | .stageStore h b => discard (CpuKvContentCache.stageStore h b)

/-- A step of the scheduler: `begin_step`, the calls, `drain_step`. -/
def schedulerStep (ops : List (Op Hash)) : Method Hash (SwapMapping × SwapMapping) := do
  beginStep
  forM ops Op.run
  drainStep

/-- The cache of the scheduler and the memory of a worker. -/
structure World (Hash κ : Type) where
  cache : CpuKvContentCache Hash
  memory : Memory κ

/-- One step of scheduler and worker. Every call is accepted, every store is staged from a block
that holds its content when the step begins, and after the transfers the GPU blocks may be
anything. -/
structure Step (kv : Hash → κ) (w : World Hash κ) (ops : List (Op Hash))
    (maps : SwapMapping × SwapMapping) (w' : World Hash κ) : Prop where
  returns : schedulerStep ops w.cache = .ok maps w'.cache
  stored : ∀ h b, Op.stageStore h b ∈ ops → w.memory.gpu b = kv h
  memory : w'.memory.cpu = (executeTransfers maps w.memory).cpu

/-- The worlds that steps lead to. -/
def Reachable (kv : Hash → κ) : World Hash κ → World Hash κ → Prop :=
  Relation.ReflTransGen fun w w' => ∃ ops maps, Step kv w ops maps w'

/-! ## The invariant -/

/-- Within a step, what the index says of the memory as it was when the step began. -/
structure Content (kv : Hash → κ) (m : Memory κ) (c : CpuKvContentCache Hash) : Prop where
  ready : ∀ s ∈ c.readySlots, ∀ h, c.slotToHash.get? s = some h → m.cpu s = kv h
  d2h : ∀ b s h, c.stepD2h.get? b = some s → c.slotToHash.get? s = some h → m.gpu b = kv h
  deferred : ∀ e ∈ c.deferredD2h.items, m.gpu e.1 = kv e.2

/-- The H2D map is exactly what the calls so far have staged, and the slots still hold what the
loads were staged for. -/
structure Staged (done : List (Op Hash)) (c : CpuKvContentCache Hash) : Prop where
  logged : ∀ s b, c.stepH2d.get? s = some b → ∃ h, Op.stageLoad h s b ∈ done
  kept : ∀ h s b, Op.stageLoad h s b ∈ done →
    c.stepH2d.get? s = some b ∧ c.slotToHash.get? s = some h

/-- Between two steps, ready and published slots hold the content of their hash. -/
structure Faithful (kv : Hash → κ) (w : World Hash κ) : Prop where
  idle : w.cache.Idle
  content : ∀ s ∈ w.cache.readySlots ∪ w.cache.pendingReadySlots, ∀ h,
    w.cache.slotToHash.get? s = some h → w.memory.cpu s = kv h

/-! ## Helpers -/

namespace WorkerLemmas

variable {kv : Hash → κ} {m : Memory κ} {c c' : CpuKvContentCache Hash} {done : List (Op Hash)}

theorem content_committed (hm : c.Content kv m) {h : Hash} {b slot : ℕ} (hb : m.gpu b = kv h)
    (hslot : slot ∉ c.stepD2h.values) : (c.committed h b slot).Content kv m where
  ready s hs h' hh' := by
    simp only [committed, Finset.mem_erase, Dict.get?_set] at hs hh'
    rw [if_neg hs.1] at hh'
    exact hm.ready s hs.2 h' hh'
  d2h b' s h' hs hh' := by
    simp only [committed, Dict.get?_set] at hs hh'
    split at hs
    · next he =>
      obtain rfl := Option.some.inj hs
      rw [if_pos rfl] at hh'
      rw [he, hb, Option.some.inj hh']
    · have hne : s ≠ slot := fun he => hslot (Dict.mem_values.mpr ⟨b', he ▸ hs⟩)
      rw [if_neg hne] at hh'
      exact hm.d2h b' s h' hs hh'
  deferred := hm.deferred

theorem staged_committed (ht : c.Transfers) (hd : c.Staged done) {h : Hash} {b slot : ℕ}
    (hslot : slot ∉ c.stepSlotsInUse) : (c.committed h b slot).Staged done where
  logged := hd.logged
  kept h' s b' hs := by
    obtain ⟨h₁, h₂⟩ := hd.kept h' s b' hs
    have hload := ht.h2dLoad s (Dict.mem_keys.mpr ⟨b', h₁⟩)
    have hne : s ≠ slot := fun he => hslot (he ▸ (ht.inUse s).mpr (Or.inl hload))
    refine ⟨h₁, ?_⟩
    simp only [committed, Dict.get?_set_ne _ hne]
    exact h₂

omit [DecidableEq Hash] in
/-- A call that is no `stage_load` adds nothing to the H2D map. -/
theorem staged_append {op : Op Hash} (hop : ∀ h s b, op ≠ .stageLoad h s b)
    (hd : c.Staged done) : c.Staged (done ++ [op]) where
  logged s b hs := by
    obtain ⟨h, hh⟩ := hd.logged s b hs
    exact ⟨h, List.mem_append_left _ hh⟩
  kept h s b hs := by
    rcases List.mem_append.mp hs with hs | hs
    · exact hd.kept h s b hs
    · exact absurd (List.mem_singleton.mp hs).symm (hop h s b)

theorem claimLoad_content {h : Hash} {r : Option ℕ} (hm : c.Content kv m) (hd : c.Staged done)
    (hr : claimLoad h c = .ok r c') : c'.Content kv m ∧ c'.Staged done := by
  obtain ⟨_, ⟨_, _, rfl⟩ | ⟨slot, _, _, _, _, rfl⟩⟩ := claimLoad_ok_iff.mp hr
  · exact ⟨{ hm with }, { hd with }⟩
  · exact ⟨{ hm with }, { hd with }⟩

theorem cancelLoad_content {h : Hash} {slot : ℕ} {u : Unit} (hm : c.Content kv m)
    (hd : c.Staged done) (hr : cancelLoad h slot c = .ok u c') :
    c'.Content kv m ∧ c'.Staged done := by
  obtain ⟨_, _, _, _, rfl⟩ := cancelLoad_ok_iff.mp hr
  exact ⟨{ hm with }, { hd with }⟩

theorem stageLoad_content {h : Hash} {slot b : ℕ} {u : Unit} (hc : c.Index)
    (hm : c.Content kv m) (hd : c.Staged done) (hr : stageLoad h slot b c = .ok u c') :
    c'.Content kv m ∧ c'.Staged (done ++ [.stageLoad h slot b]) := by
  obtain ⟨hslot, _, _, hnew, _, _, rfl⟩ := stageLoad_ok_iff.mp hr
  refine ⟨{ hm with }, ?_, ?_⟩
  · intro s b' hs
    simp only [Dict.get?_set] at hs
    split at hs
    · next he => exact ⟨h, by simp [he, Option.some.inj hs]⟩
    · obtain ⟨h', hh'⟩ := hd.logged s b' hs
      exact ⟨h', List.mem_append_left _ hh'⟩
  · intro h' s b' hs
    rcases List.mem_append.mp hs with hs | hs
    · obtain ⟨h₁, h₂⟩ := hd.kept h' s b' hs
      have hne : s ≠ slot := fun he => by rw [he, hnew] at h₁; exact absurd h₁ (by simp)
      exact ⟨by rw [Dict.get?_set_ne _ hne]; exact h₁, h₂⟩
    · simp only [List.mem_singleton, Op.stageLoad.injEq] at hs
      obtain ⟨rfl, rfl, rfl⟩ := hs
      exact ⟨Dict.get?_set_self _ _ _, hc.resident_of_hash hslot⟩

theorem stageStore_content {h : Hash} {b : ℕ} {r : Bool} (hc : c.InStep) (hm : c.Content kv m)
    (hd : c.Staged done) (hb : m.gpu b = kv h) (hr : stageStore h b c = .ok r c') :
    c'.Content kv m ∧ c'.Staged done := by
  obtain ⟨_, ⟨_, _, rfl⟩ | ⟨_, _, _, hdef, _, hstore⟩⟩ := stageStore_ok_iff.mp hr
  · exact ⟨{ hm with }, { hd with }⟩
  · obtain ⟨slot, rest, hpop, hcan, rfl⟩ | ⟨_, rfl⟩ := hstore
    · have hmem : slot ∈ c.freeSlots := heappop_mem hpop
      have huse := hc.toTransfers.not_inUse_of_empty hc.toIndex (hc.free slot hmem)
      exact ⟨content_committed (c := { c with freeSlots := rest }) { hm with } hb
          hcan.notDestination,
        staged_committed (c := { c with freeSlots := rest }) { hc.toTransfers with } { hd with }
          huse⟩
    · refine ⟨{ hm with deferred := fun e he => ?_ }, { hd with }⟩
      rw [Dict.items_set_of_not_mem (Dict.get?_eq_none_iff.mp hdef)] at he
      rcases List.mem_append.mp he with he | he
      · exact hm.deferred e he
      · rw [List.mem_singleton.mp he]
        exact hb

/-- The loop of `_resolve_deferred_stores`, with the entries `xs` still to be visited; `c₀` is the
cache when the loop begins. -/
structure Resolving (kv : Hash → κ) (m : Memory κ) (done : List (Op Hash))
    (c₀ : CpuKvContentCache Hash) (xs : List (ℕ × Hash)) (c : CpuKvContentCache Hash) : Prop where
  index : c.Index
  transfers : c.Transfers
  waiting : Waiting c.hashToSlot c.stepD2h xs
  content : c.Content kv m
  staged : c.Staged done
  source : ∀ e ∈ xs, m.gpu e.1 = kv e.2
  loads : c.stepLoadSlots = c₀.stepLoadSlots
  h2d : c.stepH2d = c₀.stepH2d

theorem resolving_committed {c₀ : CpuKvContentCache Hash} {e : ℕ × Hash} {xs : List (ℕ × Hash)}
    {slot : ℕ} (hc : Resolving kv m done c₀ (e :: xs) c) (huse : slot ∉ c.stepSlotsInUse)
    (hfree : slot ∉ c.freeSlots) (hlt : slot < c.capacity) :
    Resolving kv m done c₀ xs (c.committed e.2 e.1 slot) where
  index := hc.index.committed (hc.waiting.absent e List.mem_cons_self) hfree hlt
  transfers := hc.transfers.committed huse (hc.waiting.newSource e List.mem_cons_self)
  waiting := hc.waiting.tail.committed (List.nodup_cons.mp hc.waiting.hashes).1
    (List.nodup_cons.mp hc.waiting.blocks).1
  content := content_committed hc.content (hc.source e List.mem_cons_self)
    (hc.transfers.canCommit hc.index huse).notDestination
  staged := staged_committed hc.transfers hc.staged huse
  source e' he := hc.source e' (List.mem_cons_of_mem _ he)
  loads := hc.loads
  h2d := hc.h2d

theorem resolving_popped {c₀ : CpuKvContentCache Hash} {xs : List (ℕ × Hash)} {slot : ℕ}
    {rest : List ℕ} (hc : Resolving kv m done c₀ xs c)
    (hpop : heappop c.freeSlots = some (slot, rest)) :
    Resolving kv m done c₀ xs { c with freeSlots := rest } where
  index := hc.index.popped hpop
  transfers := { hc.transfers with }
  waiting := hc.waiting
  content := { hc.content with }
  staged := { hc.staged with }
  source := hc.source
  loads := hc.loads
  h2d := hc.h2d

theorem wp_resolveDeferredStore {c₀ : CpuKvContentCache Hash} {e : ℕ × Hash}
    {xs : List (ℕ × Hash)} (hc : Resolving kv m done c₀ (e :: xs) c) :
    wp (resolveDeferredStore e) (fun _ c' => Resolving kv m done c₀ xs c') (fun _ _ => False) c := by
  unfold resolveDeferredStore
  rw [wp_bind]
  cases hpop : heappop c.freeSlots with
  | some p =>
    obtain ⟨slot, rest⟩ := p
    have hsel := selectStoreSlot_ok_iff.mpr (Or.inl ⟨slot, rest, hpop, rfl, rfl⟩)
    have hmem : slot ∈ c.freeSlots := heappop_mem hpop
    have huse := hc.transfers.not_inUse_of_empty hc.index (hc.index.free slot hmem)
    have hc' := resolving_popped hc hpop
    rw [wp_ok hsel, wp_ok (commitStore_ok (hc'.transfers.canCommit hc'.index huse))]
    exact resolving_committed hc' huse (hc.index.not_mem_popped hpop) (hc.index.freeLt slot hmem)
  | none =>
    rw [wp_ok (selectStoreSlot_ok_iff.mpr (Or.inr ⟨hpop, rfl, rfl⟩))]
    cases hsel : c.lru.keys.find? (· ∉ c.stepSlotsInUse) with
    | none =>
      exact
        { hc with
          index := { hc.index with }
          transfers := { hc.transfers with }
          waiting := hc.waiting.tail
          content := { hc.content with }
          staged := { hc.staged with }
          source := fun e' he => hc.source e' (List.mem_cons_of_mem _ he) }
    | some slot =>
      obtain ⟨hlru, huse⟩ := InvariantLemmas.find_lru hsel
      have hres := hc.index.lru slot hlru
      have hfree : slot ∉ c.freeSlots := fun hf => hres (hc.index.free slot hf)
      show wp (commitStore e.2 e.1 slot) _ _ c
      rw [wp_ok (commitStore_ok (hc.transfers.canCommit hc.index huse))]
      exact resolving_committed hc huse hfree (hc.index.residentLt slot hres)

/-- `_resolve_deferred_stores` never raises. -/
theorem wp_resolveDeferredStores (hc : c.InStep) (hm : c.Content kv m) (hd : c.Staged done) :
    wp resolveDeferredStores
      (fun _ c' => Resolving kv m done c [] c' ∧ c'.deferredD2h = .empty ∧ c'.deferredHashes = ∅)
      (fun _ _ => False) c := by
  have hstart : Resolving kv m done c c.deferredD2h.items c :=
    { index := hc.toIndex
      transfers := hc.toTransfers
      waiting := hc.waiting
      content := hm
      staged := hd
      source := hm.deferred
      loads := rfl
      h2d := rfl }
  have hempty : ∀ c' : CpuKvContentCache Hash, Resolving kv m done c [] c' →
      Resolving kv m done c [] { c' with deferredD2h := .empty, deferredHashes := ∅ } := fun c' h' =>
    { h' with
      index := { h'.index with }
      transfers := { h'.transfers with }
      content := { h'.content with deferred := fun e he => absurd he List.not_mem_nil }
      staged := { h'.staged with } }
  unfold resolveDeferredStores
  simp only [wp_bind, wp_get, wp_ite, wp_set, wp_modify]
  constructor
  · intro _
    refine ⟨hempty { c with skippedStores := c.skippedStores + c.deferredD2h.length } ?_,
      trivial, trivial⟩
    exact
      { hstart with
        index := { hc.toIndex with }
        transfers := { hc.toTransfers with }
        waiting := ⟨by simp, by simp, List.nodup_nil, List.nodup_nil⟩
        content := { hm with }
        staged := { hd with }
        source := by simp }
  · intro _
    refine wp_mono (wp_forM (I := Resolving kv m done c)
      (fun e xs c' h' => wp_resolveDeferredStore h') _ c hstart) ?_ fun _ _ h => h
    exact fun _ c' h' => ⟨hempty c' h', trivial, trivial⟩

theorem sortedItems_perm (d : Dict ℕ ℕ) : (sortedItems d).Perm d.items :=
  List.perm_insertionSort _ _

theorem mem_sortedItems {d : Dict ℕ ℕ} {k v : ℕ} : (k, v) ∈ sortedItems d ↔ d.get? k = some v := by
  rw [(sortedItems_perm d).mem_iff, Dict.mem_items]

/-- If no value is stored twice, the sorted entries are copies with distinct destinations. -/
theorem nodup_sortedItems {d : Dict ℕ ℕ}
    (h : ∀ k k' v, d.get? k = some v → d.get? k' = some v → k = k') :
    ((sortedItems d).map Prod.snd).Nodup := by
  refine ((sortedItems_perm d).map Prod.snd).nodup_iff.mpr ?_
  refine List.Nodup.map_on ?_ (List.Nodup.of_map _ d.nodup)
  rintro ⟨k, v⟩ hk ⟨k', v'⟩ hk' he
  obtain rfl : v = v' := he
  rw [h k k' v (Dict.mem_items.mp hk) (Dict.mem_items.mp hk')]

end WorkerLemmas

open WorkerLemmas

/-! ## Steps -/

section steps

variable {kv : Hash → κ} {m : Memory κ} {c c' : CpuKvContentCache Hash}

/-- One accepted call keeps the invariant and is added to the log. -/
theorem run_inStep {done : List (Op Hash)} {op : Op Hash} {u : PUnit} (hc : c.InStep)
    (hm : c.Content kv m) (hd : c.Staged done)
    (hstore : ∀ h b, op = .stageStore h b → m.gpu b = kv h) (hr : op.run c = .ok u c') :
    c'.InStep ∧ c'.Content kv m ∧ c'.Staged (done ++ [op]) := by
  cases op with
  | claimLoad h =>
    obtain ⟨r, -, hr⟩ := map_ok_iff.mp hr
    obtain ⟨hm', hd'⟩ := claimLoad_content hm hd hr
    exact ⟨claimLoad_inStep hc hr, hm', staged_append (by simp) hd'⟩
  | cancelLoad h slot =>
    obtain ⟨hm', hd'⟩ := cancelLoad_content hm hd hr
    exact ⟨cancelLoad_inStep hc hr, hm', staged_append (by simp) hd'⟩
  | stageLoad h slot b =>
    obtain ⟨hm', hd'⟩ := stageLoad_content hc.toIndex hm hd hr
    exact ⟨stageLoad_inStep hc hr, hm', hd'⟩
  | stageStore h b =>
    obtain ⟨r, -, hr⟩ := map_ok_iff.mp hr
    obtain ⟨hm', hd'⟩ := stageStore_content hc hm hd (hstore h b rfl) hr
    exact ⟨stageStore_inStep hc hr, hm', staged_append (by simp) hd'⟩

/-- A sequence of accepted calls keeps the invariant. -/
theorem runs_inStep {done ops : List (Op Hash)} {u : PUnit} (hc : c.InStep)
    (hm : c.Content kv m) (hd : c.Staged done)
    (hstore : ∀ h b, Op.stageStore h b ∈ ops → m.gpu b = kv h)
    (hr : forM ops Op.run c = .ok u c') :
    c'.InStep ∧ c'.Content kv m ∧ c'.Staged (done ++ ops) := by
  induction ops generalizing done c with
  | nil =>
    obtain ⟨-, rfl⟩ := pure_ok_iff.mp hr
    rw [List.append_nil]
    exact ⟨hc, hm, hd⟩
  | cons op ops ih =>
    rw [List.forM_cons, bind_ok_iff] at hr
    obtain ⟨u', c₁, hr₁, hr⟩ := hr
    obtain ⟨hc₁, hm₁, hd₁⟩ := run_inStep hc hm hd
      (fun h b he => hstore h b (he ▸ List.mem_cons_self)) hr₁
    have := ih hc₁ hm₁ hd₁ (fun h b he => hstore h b (List.mem_cons_of_mem _ he)) hr
    rwa [List.append_assoc] at this

/-- What a drained step leaves and delivers: the cache is idle, the maps are copies with distinct
destinations, no slot is read and written, and every copy carries what the index says. -/
structure Drained (kv : Hash → κ) (m : Memory κ) (ops : List (Op Hash))
    (maps : SwapMapping × SwapMapping) (c : CpuKvContentCache Hash) : Prop where
  idle : c.Idle
  ready : ∀ s ∈ c.readySlots, ∀ h, c.slotToHash.get? s = some h → m.cpu s = kv h
  pending : ∀ s ∈ c.pendingReadySlots, s ∈ maps.2.map Prod.snd
  disjoint : ∀ s ∈ maps.2.map Prod.snd, s ∉ c.readySlots
  stored : ∀ b s h, (b, s) ∈ maps.2 → c.slotToHash.get? s = some h → m.gpu b = kv h
  loaded : ∀ s b, (s, b) ∈ maps.1 → s ∈ c.readySlots ∧ ∃ h, Op.stageLoad h s b ∈ ops
  kept : ∀ h s b, Op.stageLoad h s b ∈ ops → c.slotToHash.get? s = some h
  h2dNodup : (maps.1.map Prod.snd).Nodup
  d2hNodup : (maps.2.map Prod.snd).Nodup

theorem mem_map_snd_sortedItems {d : Dict ℕ ℕ} {s : ℕ} :
    s ∈ (sortedItems d).map Prod.snd ↔ s ∈ d.values :=
  ((sortedItems_perm d).map Prod.snd).mem_iff

theorem drainStep_drained {ops : List (Op Hash)} {maps : SwapMapping × SwapMapping}
    (hc : c.InStep) (hm : c.Content kv m) (hd : c.Staged ops) (hr : drainStep c = .ok maps c') :
    Drained kv m ops maps c' := by
  obtain ⟨u, c₁, hr₁, -, -, -, rfl, rfl⟩ := drainStep_ok_iff.mp hr
  obtain ⟨h₁, hnone, hnone'⟩ := of_wp_ok (wp_resolveDeferredStores hc hm hd) hr₁
  have hpend : c₁.drained.pendingReadySlots = c₁.stepD2h.values.toFinset := by
    simp only [drained, h₁.transfers.noPending, Finset.empty_union]
  exact
    { idle :=
        { h₁.index with
          pending := fun s hs => by
            rw [hpend, List.mem_toFinset] at hs
            exact (h₁.transfers.d2hFresh s hs).2
          noSlots := rfl
          noLoads := rfl
          noH2d := rfl
          noD2h := rfl
          noDeferred := hnone
          noDeferredHashes := hnone' }
      ready := h₁.content.ready
      pending := fun s hs => by
        rw [hpend, List.mem_toFinset] at hs
        exact mem_map_snd_sortedItems.mpr hs
      disjoint := fun s hs => (h₁.transfers.d2hFresh s (mem_map_snd_sortedItems.mp hs)).1
      stored := fun b s h hbs hh => h₁.content.d2h b s h (mem_sortedItems.mp hbs) hh
      loaded := fun s b hsb => by
        have hget := mem_sortedItems.mp hsb
        have hload := h₁.transfers.h2dLoad s (Dict.mem_keys.mpr ⟨b, hget⟩)
        exact ⟨h₁.transfers.loadReady s hload, h₁.staged.logged s b hget⟩
      kept := fun h s b hs => (h₁.staged.kept h s b hs).2
      h2dNodup := nodup_sortedItems h₁.transfers.h2dInj
      d2hNodup := nodup_sortedItems h₁.transfers.d2hInj }

/-- What a step of the scheduler leaves and delivers. -/
theorem schedulerStep_drained {w : World Hash κ} {ops : List (Op Hash)}
    {maps : SwapMapping × SwapMapping} (hw : Faithful kv w)
    (hstore : ∀ h b, Op.stageStore h b ∈ ops → w.memory.gpu b = kv h)
    (hr : schedulerStep ops w.cache = .ok maps c') : Drained kv w.memory ops maps c' := by
  unfold schedulerStep at hr
  obtain ⟨_, c₁, hr₁, hr⟩ := bind_ok_iff.mp hr
  obtain ⟨_, c₂, hr₂, hr₃⟩ := bind_ok_iff.mp hr
  obtain ⟨-, rfl⟩ := beginStep_ok_iff.mp hr₁
  have hm : Content kv w.memory { w.cache with
      readySlots := w.cache.readySlots ∪ w.cache.pendingReadySlots
      pendingReadySlots := ∅ } :=
    { ready := hw.content
      d2h := fun b s h hb => by simp [hw.idle.noD2h] at hb
      deferred := fun e he => by simp [hw.idle.noDeferred] at he }
  have hd : Staged [] { w.cache with
      readySlots := w.cache.readySlots ∪ w.cache.pendingReadySlots
      pendingReadySlots := ∅ } :=
    ⟨fun s b hs => by simp [hw.idle.noH2d] at hs, fun h s b hs => absurd hs List.not_mem_nil⟩
  obtain ⟨hc₂, hm₂, hd₂⟩ := runs_inStep (beginStep_inStep hw.idle) hm hd hstore hr₂
  exact drainStep_drained hc₂ hm₂ hd₂ hr₃

/-- After the D2H copies of a step, ready and published slots hold the content of their hash. -/
theorem Drained.cpu_swapOut {ops : List (Op Hash)} {maps : SwapMapping × SwapMapping}
    (h : Drained kv m ops maps c) {s : ℕ} (hs : s ∈ c.readySlots ∪ c.pendingReadySlots) {k : Hash}
    (hk : c.slotToHash.get? s = some k) : (swapOut maps.2 m).cpu s = kv k := by
  show copyAll maps.2 m.gpu m.cpu s = kv k
  by_cases hd : s ∈ maps.2.map Prod.snd
  · obtain ⟨⟨b, s'⟩, hbs, rfl⟩ := List.mem_map.mp hd
    rw [copyAll_of_mem h.d2hNodup hbs]
    exact h.stored b s' k hbs hk
  · rw [copyAll_of_notMem hd]
    rcases Finset.mem_union.mp hs with hs | hs
    · exact h.ready s hs k hk
    · exact absurd (h.pending s hs) hd

/-- A step keeps the invariant between steps. -/
theorem step_faithful {w w' : World Hash κ} {ops : List (Op Hash)}
    {maps : SwapMapping × SwapMapping} (hw : Faithful kv w) (hs : Step kv w ops maps w') :
    Faithful kv w' := by
  have hd := schedulerStep_drained hw hs.stored hs.returns
  refine ⟨hd.idle, fun s hmem h hh => ?_⟩
  rw [hs.memory]
  exact hd.cpu_swapOut hmem hh

/-- Every reachable world satisfies the invariant. -/
theorem reachable_faithful {capacity : ℤ} {m : Memory κ} {w : World Hash κ}
    (h₀ : init capacity = .ok c) (hr : Reachable kv ⟨c, m⟩ w) : Faithful kv w := by
  have hfresh : Faithful kv ⟨c, m⟩ := by
    unfold init at h₀
    split at h₀
    · exact absurd h₀ (by simp)
    · obtain rfl := Except.ok.inj h₀
      exact ⟨fresh_idle _, fun s hs => absurd hs (Finset.notMem_empty s)⟩
  refine invariant_of_step ?_ hfresh hr
  rintro w w' hw ⟨ops, maps, hs⟩
  exact step_faithful hw hs

end steps

/-! ## The tier never serves wrong bytes -/

/-- In every run, for every pair `(slot, gpuBlock)` of a step's H2D map: some call of the step
staged it, and for the content `h` that it was staged for, the slot holds the content of `h` when
the H2D copies run, and the GPU block holds it after them. -/
theorem swapIn_serves_content {kv : Hash → κ} {capacity : ℤ} {c : CpuKvContentCache Hash}
    {m : Memory κ} {w w' : World Hash κ} {ops : List (Op Hash)} {maps : SwapMapping × SwapMapping}
    {slot gpuBlock : ℕ} (h₀ : init capacity = .ok c) (hr : Reachable kv ⟨c, m⟩ w)
    (hs : Step kv w ops maps w') (hp : (slot, gpuBlock) ∈ maps.1) :
    (∃ h, Op.stageLoad h slot gpuBlock ∈ ops) ∧
      ∀ h, Op.stageLoad h slot gpuBlock ∈ ops →
        (swapOut maps.2 w.memory).cpu slot = kv h ∧
        (executeTransfers maps w.memory).gpu gpuBlock = kv h := by
  have hd := schedulerStep_drained (reachable_faithful h₀ hr) hs.stored hs.returns
  obtain ⟨hready, hstaged⟩ := hd.loaded slot gpuBlock hp
  refine ⟨hstaged, fun h hh => ?_⟩
  have hcpu := hd.cpu_swapOut (Finset.mem_union_left _ hready) (hd.kept h slot gpuBlock hh)
  refine ⟨hcpu, ?_⟩
  show copyAll maps.1 (swapOut maps.2 w.memory).cpu _ gpuBlock = kv h
  rw [copyAll_of_mem hd.h2dNodup hp]
  exact hcpu

/-! ### A run

Content `7` is stored from block `3` in one step and loaded into block `5` in the next one. -/

namespace Reload

/-- A cache with two slots, in front of a GPU whose block `3` holds content `7`. -/
def start : World ℕ ℕ := ⟨fresh 2, { gpu := fun b => if b = 3 then 7 else 0, cpu := fun _ => 0 }⟩

/-- The cache after a step. -/
def cacheAfter (ops : List (Op ℕ)) (w : World ℕ ℕ) : CpuKvContentCache ℕ :=
  match schedulerStep ops w.cache with
  | .ok _ c => c
  | .error _ c => c

def stored : World ℕ ℕ :=
  ⟨cacheAfter [.stageStore 7 3] start,
    { gpu := fun _ => 0, cpu := (executeTransfers ([], [(3, 0)]) start.memory).cpu }⟩

def loads : List (Op ℕ) := [.claimLoad 7, .stageLoad 7 0 5]

def loaded : World ℕ ℕ :=
  ⟨cacheAfter loads stored, executeTransfers ([(0, 5)], []) stored.memory⟩

theorem step_stored : Step id start [.stageStore 7 3] ([], [(3, 0)]) stored where
  returns := rfl
  stored h b hs := by
    simp only [List.mem_singleton, Op.stageStore.injEq] at hs
    obtain ⟨rfl, rfl⟩ := hs
    rfl
  memory := rfl

theorem step_loaded : Step id stored loads ([(0, 5)], []) loaded where
  returns := rfl
  stored h b hs := by simp [loads] at hs
  memory := rfl

end Reload

theorem swapIn_serves_content_reload :
    (executeTransfers ([(0, 5)], []) Reload.stored.memory).gpu 5 = id 7 :=
  ((swapIn_serves_content (show init 2 = .ok (fresh 2) from rfl)
    (Relation.ReflTransGen.single ⟨_, _, Reload.step_stored⟩) Reload.step_loaded
    (List.mem_singleton.mpr rfl)).2 7 (by simp [Reload.loads])).2

end Ikun.CpuKvContentCache
