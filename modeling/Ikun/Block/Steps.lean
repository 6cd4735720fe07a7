import Ikun.Block.Classes
import Ikun.CpuKv.Worker

/-!
# Scheduler steps with a CPU tier

Within a scheduler step the operations on tables stand between `beginStep` and `drainStep`; between
two steps finished sequences are freed. `StepRun` are the runs in which no block that a step has
allocated, or restored from the tier, loses its last reference in the same step.

`StepRun.transfers_valid`: in such a run `beginStep` and `drainStep` return, no operation raises a
`RuntimeError`, and the maps that `drainStep` returns are valid transfers. An operation that fails is
judged by what it did up to the exception: what the handler of a failed load gives back afterwards is
not in the log.
-/

namespace Ikun.PrefixCachingBlockAllocator

open Exec CpuKvContentCache WorkerLemmas

variable {Token Hash : Type} [DecidableEq Hash] {cfg : AllocatorConfig Token Hash}
  {K : Finset ObjId} {ids : List BlockId} {a : PrefixCachingBlockAllocator Token Hash}
  {c c' : CpuKvContentCache Hash} {x : BlockId} {b : ℕ}

/-! ## The end of a step -/

/-- The maps of a step (H2D from slots to blocks, D2H from blocks to slots) are valid transfers
between `capacity` slots and `numBlocks` blocks. -/
structure ValidMaps (capacity numBlocks : ℕ) (maps : SwapMapping × SwapMapping) : Prop where
  h2dRange : ∀ p ∈ maps.1, p.1 < capacity ∧ p.2 < numBlocks
  d2hRange : ∀ p ∈ maps.2, p.1 < numBlocks ∧ p.2 < capacity
  oneWay : ∀ s ∈ maps.1.map Prod.fst, s ∉ maps.2.map Prod.snd
  h2dDestinations : (maps.1.map Prod.snd).Nodup
  d2hDestinations : (maps.2.map Prod.snd).Nodup
  d2hSources : (maps.2.map Prod.fst).Nodup

omit [DecidableEq Hash] in
theorem physicalBlockId_lt (hx : x ∈ cfg.blockIds) :
    physicalBlockId cfg x < cfg.blockIds.length := by
  have hlt := List.idxOf_lt_length_iff.mpr ((List.mem_insertionSort (· ≤ ·)).mpr hx)
  rw [List.length_insertionSort] at hlt
  exact hlt

namespace Tier

/-- The blocks that the step transfers are blocks of the allocator. -/
theorem lt_of_allocated (ht : Tier cfg [] a c) (hc : Counts cfg K ids a)
    (hx : .allocated x ∈ a.history) : physicalBlockId cfg x < cfg.blockIds.length :=
  physicalBlockId_lt (hc.held x (ht.alive x hx))

/-- GPU blocks with a number in range, and the calls that have staged the loads. -/
def rangeMemory (cfg : AllocatorConfig Token Hash) : Memory Bool where
  gpu b := decide (b < cfg.blockIds.length)
  cpu _ := true

def stagedLoads (c : CpuKvContentCache Hash) : List (CpuKvContentCache.Op Hash) :=
  c.stepH2d.items.filterMap fun p =>
    (c.slotToHash.get? p.1).map fun h => .stageLoad h p.1 p.2

omit [DecidableEq Hash] in
theorem mem_stagedLoads {h : Hash} {s : ℕ} :
    .stageLoad h s b ∈ stagedLoads c ↔ c.stepH2d.get? s = some b ∧ c.slotToHash.get? s = some h := by
  unfold stagedLoads
  simp only [List.mem_filterMap, Option.map_eq_some_iff, Prod.exists,
    CpuKvContentCache.Op.stageLoad.injEq]
  constructor
  · rintro ⟨s', b', hmem, h', hh', rfl, rfl, rfl⟩
    exact ⟨Dict.mem_items.mp hmem, hh'⟩
  · rintro ⟨hs, hh⟩
    exact ⟨s, b, Dict.mem_items.mpr hs, h, hh, rfl, rfl, rfl⟩

theorem content (ht : Tier cfg [] a c) (hc : Counts cfg K ids a) :
    Content (fun _ => true) (rangeMemory cfg) c where
  ready _ _ _ _ := rfl
  d2h b s h hb _ := by
    obtain ⟨x, hx, rfl⟩ := ht.saved b (Or.inl (by simp [hb]))
    exact decide_eq_true (ht.lt_of_allocated hc hx)
  deferred e he := by
    obtain ⟨x, hx, hphys⟩ := ht.saved e.1 (Or.inr (by simp [Dict.mem_items.mp he]))
    exact decide_eq_true (hphys ▸ ht.lt_of_allocated hc hx)

theorem staged (ht : Tier cfg [] a c) : Staged (stagedLoads c) c where
  logged s b hs := by
    obtain ⟨x, h, _, _, hh, _⟩ := ht.promoted s b hs
    exact ⟨h, mem_stagedLoads.mpr ⟨hs, hh⟩⟩
  kept h s b hs := mem_stagedLoads.mp hs

/-- `drain_step` returns valid maps and leaves the tier idle. -/
theorem wp_drainStep (ht : Tier cfg [] a c) (hc : Counts cfg K ids a) :
    wp CpuKvContentCache.drainStep
      (fun maps c' => c'.Idle ∧ ValidMaps c'.capacity cfg.blockIds.length maps)
      (fun _ _ => False) c := by
  have hwp := wp_resolveDeferredStores ht.inStep (ht.content hc) ht.staged
  cases hr : resolveDeferredStores c with
  | error e c₁ => exact (of_wp_error hwp hr).elim
  | ok u c₁ =>
    obtain ⟨h₁, hnone, hnone'⟩ := of_wp_ok hwp hr
    have htr := h₁.transfers
    -- every claimed slot has been staged
    have hkeys : ∀ s, s ∈ c₁.stepH2d.keys ↔ s ∈ c₁.stepLoadSlots := by
      intro s
      refine ⟨htr.h2dLoad s, fun hs => ?_⟩
      rw [h₁.loads] at hs
      rw [h₁.h2d]
      rcases ht.loads s hs with hs | hs
      · exact hs
      · exact absurd hs (by simp)
    have hfresh : ∀ s ∈ c₁.stepH2d.keys, s ∉ c₁.stepD2h.values := fun s hs hd =>
      (htr.d2hFresh s hd).1 (htr.loadReady s ((hkeys s).mp hs))
    have hok : CpuKvContentCache.drainStep c =
        .ok (sortedItems c₁.stepH2d, sortedItems c₁.stepD2h) c₁.drained := by
      refine drainStep_ok_iff.mpr ⟨u, c₁, hr, ?_, ?_, ?_, rfl, rfl⟩
      · ext s
        simp only [Finset.mem_union, List.mem_toFinset, htr.inUse, hkeys]
      · ext s
        simp only [Finset.mem_inter, List.mem_toFinset, Finset.notMem_empty, iff_false]
        rintro ⟨hs, hd⟩
        exact hfresh s hs hd
      · ext s
        simp only [List.mem_toFinset, hkeys]
    rw [wp_ok hok]
    refine ⟨(drainStep_drained ht.inStep (ht.content hc) ht.staged hok).idle, ?_⟩
    have hsource : ∀ s b, c₁.stepH2d.get? s = some b → s < c₁.capacity := fun s b hs =>
      h₁.index.residentLt s (h₁.index.ready s
        (htr.loadReady s (htr.h2dLoad s (Dict.mem_keys.mpr ⟨b, hs⟩))))
    exact
      { h2dRange := fun p hp => by
          have hget := mem_sortedItems.mp hp
          refine ⟨hsource p.1 p.2 hget, ?_⟩
          rw [h₁.h2d] at hget
          obtain ⟨x, _, hx, hphys, _⟩ := ht.promoted p.1 p.2 hget
          exact hphys ▸ ht.lt_of_allocated hc hx
        d2hRange := fun p hp => by
          have hget := mem_sortedItems.mp hp
          have hres := (htr.d2hFresh p.2 (Dict.mem_values.mpr ⟨p.1, hget⟩)).2
          obtain ⟨h, hh⟩ := Option.ne_none_iff_exists'.mp hres
          exact ⟨of_decide_eq_true (h₁.content.d2h p.1 p.2 h hget hh),
            h₁.index.residentLt p.2 hres⟩
        oneWay := fun s hs hd => by
          obtain ⟨⟨s', b⟩, hp, rfl⟩ := List.mem_map.mp hs
          exact hfresh s' (Dict.mem_keys.mpr ⟨b, mem_sortedItems.mp hp⟩)
            (mem_map_snd_sortedItems.mp hd)
        h2dDestinations := nodup_sortedItems htr.h2dInj
        d2hDestinations := nodup_sortedItems htr.d2hInj
        d2hSources := ((sortedItems_perm _).map Prod.fst).nodup_iff.mpr (Dict.nodup_keys _) }

end Tier

end Ikun.PrefixCachingBlockAllocator

namespace Ikun.BlockTables

open Exec PrefixCachingBlockAllocator CpuKvContentCache

variable {Token Hash : Type} [DecidableEq Hash] {cfg : AllocatorConfig Token Hash}
  {policy : EvictionPolicy} {capacity : ℕ} {inStep : Bool} {w w' : BlockTables Token Hash}

/-! ## Runs -/

/-- The runs of an allocator with a CPU tier of `capacity` slots, and whether they are within a
step. Operations return or raise `NoFreeBlocksError`, and no block that the step has allocated or
restored is given up in the step. -/
inductive StepRun (cfg : AllocatorConfig Token Hash) (policy : EvictionPolicy) (capacity : ℕ) :
    Bool → BlockTables Token Hash → Prop
  | init : StepRun cfg policy capacity false (.init cfg policy (some (fresh capacity)))
  | beginStep {w w' : BlockTables Token Hash} {maps : SwapMapping × SwapMapping} :
      StepRun cfg policy capacity false w → Op.beginStep.run cfg w = .ok maps w' →
      StepRun cfg policy capacity true w'
  | op {w w' : BlockTables Token Hash} {op : Op Token} : StepRun cfg policy capacity true w →
      op.onBlocks →
      (∃ maps, op.run cfg w = .ok maps w') ∨ op.run cfg w = .error .noFreeBlocks w' →
      NoDrop w'.alloc.history → StepRun cfg policy capacity true w'
  | drainStep {w w' : BlockTables Token Hash} {maps : SwapMapping × SwapMapping} :
      StepRun cfg policy capacity true w → Op.drainStep.run cfg w = .ok maps w' →
      StepRun cfg policy capacity false w'
  | free {w w' : BlockTables Token Hash} {i : ℕ} {maps : SwapMapping × SwapMapping} :
      StepRun cfg policy capacity false w → (Op.free i).run cfg w = .ok maps w' →
      StepRun cfg policy capacity false w'

/-- Between two steps. -/
structure IdleOk (cfg : AllocatorConfig Token Hash) (capacity : ℕ) (w : BlockTables Token Hash) :
    Prop where
  holds : Holds cfg False w
  tier : OfTier (HasTier fun c => c.Idle ∧ c.capacity = capacity) w

/-- Within a step. -/
structure StepOk (cfg : AllocatorConfig Token Hash) (capacity : ℕ) (w : BlockTables Token Hash) :
    Prop where
  holds : Holds cfg True w
  noDrop : NoDrop w.alloc.history
  tier : OfTier (HasTier (HasCapacity capacity)) w

/-- Another part of the invariant for the tier. -/
theorem Holds.retier {g g' : Prop} (h : Holds cfg g w)
    (htier : g' → NoDrop w.alloc.history → ∀ c, w.alloc.externalCache = some c →
      Tier cfg [] w.alloc c) : Holds cfg g' w := by
  obtain ⟨K, hw⟩ := h
  exact ⟨K, { hw with core := { hw.core with tier := htier } }⟩

theorem callbacks_capacity : Callbacks (HasCapacity capacity : CpuKvContentCache Hash → Prop) where
  claimLoad _ := preserves_claimLoad
  cancelLoad _ _ := preserves_cancelLoad
  stageLoad _ _ _ := preserves_stageLoad
  stageStore _ _ := preserves_stageStore

/-- `begin_step` of the tier leads into a step without transfers. -/
theorem freshStep_beginStep {c : CpuKvContentCache Hash} (hc : c.Idle) :
    FreshStep { c with
      readySlots := c.readySlots ∪ c.pendingReadySlots
      pendingReadySlots := ∅ } :=
  ⟨beginStep_inStep hc, hc.noLoads, hc.noH2d, hc.noD2h, hc.noDeferred⟩

theorem wp_beginStep (h : IdleOk cfg capacity w) :
    wp (Op.beginStep.run cfg) (fun _ w' => StepOk cfg capacity w') (fun _ _ => False) w := by
  obtain ⟨c, hext, hidle, hcap⟩ := h.tier
  simp only [Op.run, wp_bind, onAllocator, wp_focus, BlockTables.beginStep, wp_get, hext,
    Option.isSome_some, if_true, wp_modify]
  refine (wp_onExternalCache hext).mpr ?_
  rw [wp_ok (beginStep_ok hidle)]
  have hfresh := freshStep_beginStep hidle
  refine ⟨(h.holds.withTier _ []).retier fun _ _ c' hc' => ?_, trivial, _, rfl, hcap⟩
  exact (Option.some.inj hc') ▸ hfresh.tier rfl

theorem wp_op {op : Op Token} (hop : op.onBlocks) (h : StepOk cfg capacity w) :
    wp (op.run cfg) (fun _ w' => NoDrop w'.alloc.history → StepOk cfg capacity w')
      (fun e w' => (e = .noFreeBlocks → NoDrop w'.alloc.history → StepOk cfg capacity w') ∧
        ∀ msg, e = .runtimeError msg → ¬ NoDrop w'.alloc.history) w := by
  refine wp_mono (wp_and (wp_run hop h.holds) (preserves_run callbacks_capacity hop w h.tier))
    ?_ ?_
  · rintro _ w' ⟨hw', ht⟩ hn
    exact ⟨hw', hn, ht⟩
  · rintro e w' ⟨⟨hfree, hrt⟩, ht⟩
    exact ⟨fun he hn => ⟨hfree he, hn, ht⟩, fun msg he hn => hrt msg he ⟨trivial, hn⟩⟩

theorem wp_drainStep (h : StepOk cfg capacity w) :
    wp (Op.drainStep.run cfg)
      (fun maps w' => IdleOk cfg capacity w' ∧ ValidMaps capacity cfg.blockIds.length maps)
      (fun _ _ => False) w := by
  obtain ⟨c, hext, hcap⟩ := h.tier
  obtain ⟨K, hw⟩ := h.holds
  have ht := hw.core.tier trivial h.noDrop c hext
  simp only [Op.run, onAllocator, wp_focus, BlockTables.drainStep, wp_bind, wp_get, hext,
    Option.isSome_some, if_true]
  refine (wp_onExternalCache hext).mpr ?_
  refine wp_mono (wp_and (ht.wp_drainStep hw.core.counts) (preserves_drainStep c hcap)) ?_ ?_
  · rintro maps c' ⟨⟨hidle, hvalid⟩, hcap'⟩
    refine ⟨⟨?_, c', rfl, hidle, hcap'⟩, hcap' ▸ hvalid⟩
    exact (Holds.retier ⟨K, hw⟩ fun hf => hf.elim).withTier (some c') w.alloc.history
  · rintro e c' ⟨hf, _⟩
    exact hf.elim

/-! ## Results -/

theorem StepRun.ok (h : StepRun cfg policy capacity inStep w) :
    if inStep then StepOk cfg capacity w else IdleOk cfg capacity w := by
  induction h with
  | init =>
    exact ⟨⟨∅, init_worldOk policy _ fun hg => hg.elim⟩, _, rfl, fresh_idle capacity, rfl⟩
  | beginStep _ hr ih => exact of_wp_ok (Q := fun _ w' => StepOk cfg capacity w') (wp_beginStep ih) hr
  | op _ hop hr hn ih =>
    rcases hr with ⟨maps, hr⟩ | hr
    · exact of_wp_ok (Q := fun _ w' => NoDrop w'.alloc.history → StepOk cfg capacity w')
        (wp_op hop ih) hr hn
    · exact (of_wp_error (wp_op hop ih) hr).1 rfl hn
  | drainStep _ hr ih => exact (of_wp_ok (wp_drainStep ih) hr).1
  | @free w w' i maps _ hr ih =>
    have hholds : Holds cfg False w' :=
      of_wp_ok (Q := fun _ w' => Holds cfg False w') (wp_run_blocks ih.holds) hr
    have htier : OfTier (HasTier fun c => c.Idle ∧ c.capacity = capacity) w' :=
      of_wp_ok (Q := fun _ w' => OfTier _ w') (preserves_free i w ih.tier) hr
    exact ⟨hholds, htier⟩

/-- The bookkeeping of the CPU tier never raises, and its transfers are always valid: `beginStep`
returns, no operation of a step raises a `RuntimeError` unless a block of the step had been given up
before the exception, and `drainStep` returns valid maps. -/
theorem StepRun.transfers_valid (h : StepRun cfg policy capacity inStep w) :
    (inStep = false → ∃ maps w', Op.beginStep.run cfg w = .ok maps w') ∧
    (inStep = true → (∀ op : Op Token, op.onBlocks → ∀ msg w',
        op.run cfg w = .error (.runtimeError msg) w' → ¬ NoDrop w'.alloc.history) ∧
      ∃ maps w', Op.drainStep.run cfg w = .ok maps w' ∧
        ValidMaps capacity cfg.blockIds.length maps) := by
  have hok := h.ok
  constructor
  · rintro rfl
    have hwp := wp_beginStep (by simpa using hok)
    cases hr : Op.beginStep.run cfg w with
    | ok maps w' => exact ⟨maps, w', rfl⟩
    | error e w' => exact (of_wp_error hwp hr).elim
  · rintro rfl
    have hok : StepOk cfg capacity w := by simpa using hok
    refine ⟨fun op hop msg w' hr => (of_wp_error (wp_op hop hok) hr).2 msg rfl, ?_⟩
    have hwp := wp_drainStep hok
    cases hr : Op.drainStep.run cfg w with
    | ok maps w' => exact ⟨maps, w', rfl, (of_wp_ok hwp hr).2⟩
    | error e w' => exact (of_wp_error hwp hr).elim

/-- The state after an operation. -/
def after (op : Op ℕ) (w : BlockTables ℕ (List ℕ)) : BlockTables ℕ (List ℕ) :=
  stateOf (op.run oneBlock w)

/-- A step with a prompt, which then finishes. -/
def firstStep : BlockTables ℕ (List ℕ) :=
  after (.free 0) (after .drainStep (after (.allocate 0 [1]) (after (.new [])
    (after .beginStep oneBlockInit))))

/-- In the next step, a prompt that takes its block: the content is staged for the CPU tier. -/
def secondStep : BlockTables ℕ (List ℕ) :=
  after (.allocate 1 [2]) (after (.new []) (after .beginStep firstStep))

theorem StepRun.returned {w : BlockTables ℕ (List ℕ)} (h : StepRun oneBlock .lru 2 true w)
    (op : Op ℕ) (hop : op.onBlocks) (hr : exnOf (op.run oneBlock w) = none)
    (hn : NoDrop (after op w).alloc.history) : StepRun oneBlock .lru 2 true (after op w) :=
  h.op hop (Or.inl (exists_eq_ok_of_exnOf hr)) hn

theorem stepRun_firstStep : StepRun oneBlock .lru 2 false firstStep := by
  obtain ⟨_, h₁⟩ := exists_eq_ok_of_exnOf
    (show exnOf ((Op.beginStep : Op ℕ).run oneBlock oneBlockInit) = none by decide +kernel)
  have r₁ := StepRun.beginStep .init h₁
  have r₂ := r₁.returned (.new []) trivial (by decide +kernel) (by decide +kernel)
  have r₃ := r₂.returned (.allocate 0 [1]) trivial (by decide +kernel) (by decide +kernel)
  obtain ⟨_, h₄⟩ := exists_eq_ok_of_exnOf (show exnOf ((Op.drainStep : Op ℕ).run oneBlock
    (after (.allocate 0 [1]) (after (.new []) (after .beginStep oneBlockInit)))) = none by
      decide +kernel)
  obtain ⟨_, h₅⟩ := exists_eq_ok_of_exnOf (show exnOf ((Op.free 0 : Op ℕ).run oneBlock
    (after .drainStep (after (.allocate 0 [1]) (after (.new []) (after .beginStep oneBlockInit)))))
      = none by decide +kernel)
  exact (StepRun.drainStep r₃ h₄).free h₅

theorem transfers_valid_secondStep :
    ∃ maps w', (Op.drainStep : Op ℕ).run oneBlock secondStep = .ok maps w' ∧
      ValidMaps 2 1 maps := by
  obtain ⟨_, h₁⟩ := exists_eq_ok_of_exnOf
    (show exnOf ((Op.beginStep : Op ℕ).run oneBlock firstStep) = none by decide +kernel)
  have r₁ := StepRun.beginStep stepRun_firstStep h₁
  have r₂ := r₁.returned (.new []) trivial (by decide +kernel) (by decide +kernel)
  have r₃ := r₂.returned (.allocate 1 [2]) trivial (by decide +kernel) (by decide +kernel)
  exact ((StepRun.transfers_valid r₃).2 rfl).2

end Ikun.BlockTables
