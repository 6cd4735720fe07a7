import Ikun.Block.Frame
import Ikun.Block.Tables

/-!
# Operations on tables

The invariant of an allocator with its tables, and that every operation keeps it: when it returns,
and also when it raises `NoFreeBlocksError`. Other exceptions leave an operation half done. Those of
the CPU tier can only arise from a block that was given up in the step that allocated it.
-/

namespace Ikun.BlockTables

open Exec PrefixCachingBlockAllocator BlockTable

variable {Token Hash : Type} [DecidableEq Hash] {cfg : AllocatorConfig Token Hash}
  {g : Prop} {K K' : Finset ObjId} {w w' : BlockTables Token Hash} {i : ℕ} {t : BlockTable}
  {s' : TableState Token Hash}

/-! ## The invariant -/

/-- What holds of the allocator and its tables over the objects `K`. -/
structure WorldOk (cfg : AllocatorConfig Token Hash) (g : Prop) (K : Finset ObjId)
    (w : BlockTables Token Hash) : Prop where
  core : Core cfg g K ⟨[], [], none⟩ w.alloc
  pool : PoolOk cfg K w.alloc
  tables : ∀ (i : ℕ) (t : BlockTable), w.tables[i]? = some t → TableOk K w.alloc.pool t
  disjoint : ∀ (i j : ℕ) (t t' : BlockTable), i ≠ j → w.tables[i]? = some t → w.tables[j]? = some t' →
    ∀ o ∈ t.blocks, o ∉ t'.blocks

/-- The invariant between two operations. -/
def Holds (cfg : AllocatorConfig Token Hash) (g : Prop) (w : BlockTables Token Hash) : Prop :=
  ∃ K, WorldOk cfg g K w

/-! ## Helpers -/

section helpers

/-- What stands in a list of tables after one of them was replaced. -/
theorem getElem?_set_cases {ts : List BlockTable} {u : BlockTable} {j : ℕ}
    (h : (ts.set i u)[j]? = some t) : (j = i ∧ t = u) ∨ (j ≠ i ∧ ts[j]? = some t) := by
  by_cases hji : j = i
  · subst hji
    have hlt : j < ts.length := by
      have := (List.getElem?_eq_some_iff.mp h).1
      simpa using this
    rw [List.getElem?_set_self hlt] at h
    exact Or.inl ⟨rfl, (Option.some.inj h).symm⟩
  · rw [List.getElem?_set_ne (Ne.symm hji)] at h
    exact Or.inr ⟨hji, h⟩

/-- The fresh allocator. -/
theorem init_counts (policy : EvictionPolicy) (external : Option (CpuKvContentCache Hash)) :
    Counts cfg ∅ [] (PrefixCachingBlockAllocator.init cfg policy external) where
  refcount x := by
    have hnone : holders ∅ (PrefixCachingBlockAllocator.init cfg policy external).pool x = 0 := by
      simp [holders]
    rw [hnone]
    rfl
  tracked x := by simp [PrefixCachingBlockAllocator.init]
  held x hx := absurd hx (lt_irrefl 0)
  free x hx := ⟨hx, rfl, by simp [PrefixCachingBlockAllocator.init]⟩
  freeNodup := cfg.blockIds_nodup
  evictable x m hm := by
    simp [PrefixCachingBlockAllocator.init, Evictor.freeTable_make] at hm
  idle x hx _ := Or.inl hx
  evictorWf := Evictor.make_wf policy
  cachedInj h h' x hx := by simp [PrefixCachingBlockAllocator.init] at hx
  cachedIds h x hx := by simp [PrefixCachingBlockAllocator.init] at hx

omit [DecidableEq Hash] in
theorem init_poolOk (policy : EvictionPolicy) (external : Option (CpuKvContentCache Hash)) :
    PoolOk cfg ∅ (PrefixCachingBlockAllocator.init cfg policy external) where
  freeIdsNodup := List.nodup_range
  freeIdsLt o ho := List.mem_range.mp ho
  keptLt := by simp
  live o ho := by
    have hfree : o ∈ (PrefixCachingBlockAllocator.init cfg policy external).freeIds :=
      List.mem_range.mpr ho
    simpa using hfree
  nonempty hb := by
    have := List.length_pos_iff.mpr hb
    show 0 < cfg.blockIds.length * 4
    omega

/-- A CPU tier without transfers, within a step. -/
structure FreshStep (c : CpuKvContentCache Hash) : Prop where
  inStep : c.InStep
  stepLoadSlots : c.stepLoadSlots = ∅
  stepH2d : c.stepH2d = .empty
  stepD2h : c.stepD2h = .empty
  deferredD2h : c.deferredD2h = .empty

theorem FreshStep.tier {a : PrefixCachingBlockAllocator Token Hash} {c : CpuKvContentCache Hash}
    (h : FreshStep c) (ha : a.history = []) : Tier cfg [] a c where
  inStep := h.inStep
  loads := by simp [h.stepLoadSlots]
  claimed := by simp
  alive x hx := by simp [ha] at hx
  promoted s b hs := by simp [h.stepH2d] at hs
  saved b hb := by simp [h.stepD2h, h.deferredD2h] at hb

theorem init_worldOk (policy : EvictionPolicy) (external : Option (CpuKvContentCache Hash))
    (htier : g → ∀ c, external = some c → FreshStep c) :
    WorldOk cfg g ∅ (BlockTables.init cfg policy external) where
  core :=
    { chains := ⟨by simp, by simp, by simp, by simp⟩
      counts := init_counts policy external
      contents := ⟨by simp, by simp⟩
      tier := fun hg _ c hc => (htier hg c hc).tier rfl }
  pool := init_poolOk policy external
  tables := by simp [BlockTables.init]
  disjoint := by simp [BlockTables.init]

/-- A table that others share nothing with. -/
theorem not_mem_other (hw : WorldOk cfg g K w) {j : ℕ} {t' : BlockTable} (hij : j ≠ i)
    (hi : w.tables[i]? = some t) (hj : w.tables[j]? = some t') {o : ObjId} (ho : o ∈ t'.blocks) :
    o ∉ t.blocks :=
  hw.disjoint j i t' t hij hj hi o ho

/-- After a method of table `i`. -/
theorem WorldOk.grown (hw : WorldOk cfg g K w) (hi : w.tables[i]? = some t)
    (h : Grown cfg g K ⟨w.alloc, t⟩ s') : Holds cfg g ⟨s'.alloc, w.tables.set i s'.table⟩ := by
  obtain ⟨K', hs', hg⟩ := h
  have hother : ∀ {j t'}, j ≠ i → w.tables[j]? = some t' → TableOk K' s'.alloc.pool t' := by
    intro j t' hji hj
    have ht' := hw.tables j t' hj
    refine ht'.congr hg.sub (fun o ho => ?_) hg.links fun q hq hqK p hp hqp => ?_
    · exact hg.others o (ht'.kept o ho) (not_mem_other hw hji hi hj ho)
    · exact not_mem_other hw hji hi hj hp (hg.prevs q hq hqK p (ht'.kept p hp) hqp)
  have hnew : ∀ {j t'}, j ≠ i → w.tables[j]? = some t' → ∀ o ∈ t'.blocks, o ∉ s'.table.blocks := by
    intro j t' hji hj o ho ho'
    rcases hg.blocks o ho' with hb | hK
    · exact not_mem_other hw hji hi hj ho hb
    · exact hK ((hw.tables j t' hj).kept o ho)
  refine ⟨K', hs'.core, hs'.pool, fun j t' hj => ?_, fun j k t' t'' hjk hj hk o ho => ?_⟩
  · rcases getElem?_set_cases hj with ⟨_, rfl⟩ | ⟨hji, hj⟩
    · exact hs'.table
    · exact hother hji hj
  · rcases getElem?_set_cases hj with ⟨rfl, rfl⟩ | ⟨hji, hj'⟩ <;>
      rcases getElem?_set_cases hk with ⟨rfl, rfl⟩ | ⟨hki, hk'⟩
    · exact absurd rfl hjk
    · exact fun ho' => hnew hki hk' o ho' ho
    · exact hnew hji hj' o ho
    · exact hw.disjoint j k t' t'' hjk hj' hk' o ho

/-- After a table was freed. -/
theorem WorldOk.freed (hw : WorldOk cfg g K w) (hi : w.tables[i]? = some t)
    (hs' : Good cfg g (K.filter (· ∉ t.blocks)) s') (hempty : s'.table.blocks = [])
    (hk : Keeps (K.filter (· ∉ t.blocks)) w.alloc s'.alloc) :
    Holds cfg g ⟨s'.alloc, w.tables.set i s'.table⟩ := by
  refine ⟨K.filter (· ∉ t.blocks), hs'.core, hs'.pool, fun j t' hj => ?_,
    fun j k t' t'' hjk hj hk' o ho => ?_⟩
  · rcases getElem?_set_cases hj with ⟨_, rfl⟩ | ⟨hji, hj⟩
    · exact hs'.table
    · have ht' := hw.tables j t' hj
      have hkept : ∀ o ∈ t'.blocks, o ∈ K.filter (· ∉ t.blocks) := fun o ho =>
        Finset.mem_filter.mpr ⟨ht'.kept o ho, by simpa using not_mem_other hw hji hi hj ho⟩
      have hsmall : TableOk (K.filter (· ∉ t.blocks)) w.alloc.pool t' :=
        { ht' with
          kept := hkept
          closed := fun q hq => ht'.closed q (Finset.mem_filter.mp hq).1 }
      exact hsmall.congr (Finset.Subset.refl _) (fun o ho => hk o (hkept o ho))
        (fun q hq => (hk q hq).1) fun q hq hqK => absurd hq hqK
  · rcases getElem?_set_cases hj with ⟨rfl, rfl⟩ | ⟨hji, hj⟩ <;>
      rcases getElem?_set_cases hk' with ⟨rfl, rfl⟩ | ⟨hki, hk'⟩
    · exact absurd rfl hjk
    · rw [hempty] at ho
      exact absurd ho (by simp)
    · rw [hempty]
      simp
    · exact hw.disjoint j k t' t'' hjk hj hk' o ho

/-- A new table over new objects. -/
theorem WorldOk.added (hw : WorldOk cfg g K w) (ht : TableOk K w.alloc.pool t)
    (hnew : ∀ (i : ℕ) (t' : BlockTable), w.tables[i]? = some t' → ∀ o ∈ t'.blocks, o ∉ t.blocks) :
    WorldOk cfg g K { w with tables := w.tables ++ [t] } where
  core := hw.core
  pool := hw.pool
  tables i t' hi := by
    simp only [List.getElem?_append] at hi
    split at hi
    · exact hw.tables i t' hi
    · obtain rfl : t' = t := by
        have := List.mem_of_getElem? hi
        simpa using this
      exact ht
  disjoint i j t' t'' hij hi hj o ho := by
    have hlast : ∀ {k u}, ([t] : List BlockTable)[k]? = some u → u = t ∧ k = 0 := by
      intro k u hk
      cases k with
      | zero => exact ⟨by simpa using hk.symm, rfl⟩
      | succ k => exact absurd hk (by simp)
    simp only [List.getElem?_append] at hi hj
    split at hi <;> split at hj
    · exact hw.disjoint i j t' t'' hij hi hj o ho
    · obtain ⟨rfl, _⟩ := hlast hj
      exact hnew i t' hi o ho
    · obtain ⟨rfl, _⟩ := hlast hi
      exact fun ho' => hnew j t'' hj o ho' ho
    · have h₁ := (hlast hi).2
      have h₂ := (hlast hj).2
      omega

/-- A change of the allocator that its tables do not see. -/
theorem WorldOk.withAlloc {a' : PrefixCachingBlockAllocator Token Hash} (hw : WorldOk cfg g K w)
    (hc : Core cfg g K ⟨[], [], none⟩ a') (hp : PoolOk cfg K a') (hpool : a'.pool = w.alloc.pool) :
    WorldOk cfg g K { w with alloc := a' } where
  core := hc
  pool := hp
  tables i t hi := hpool ▸ hw.tables i t hi
  disjoint := hw.disjoint

end helpers

/-! ## Operations -/

/-- How an operation may raise. -/
def Raises (cfg : AllocatorConfig Token Hash) (g : Prop) (e : Exn) (w : BlockTables Token Hash) :
    Prop :=
  (e = .noFreeBlocks → Holds cfg g w) ∧
    ∀ msg, e = .runtimeError msg → ¬ (g ∧ NoDrop w.alloc.history)

theorem Raises.of_fails {I : PrefixCachingBlockAllocator Token Hash → Prop} {e : Exn}
    (h : Fails g I e w.alloc) (hI : I w.alloc → Holds cfg g w) : Raises cfg g e w := by
  rcases h with rfl | ⟨rfl, h⟩ | ⟨he, h⟩
  · exact ⟨by simp, by simp⟩
  · exact ⟨fun _ => hI h, by simp⟩
  · exact ⟨fun hn => absurd hn he, fun _ _ => h⟩

theorem Raises.of_ne {e : Exn} (hn : e ≠ .noFreeBlocks) (hr : ∀ msg, e ≠ .runtimeError msg) :
    Raises cfg g e w :=
  ⟨fun h => absurd h hn, fun msg h => absurd h (hr msg)⟩

omit [DecidableEq Hash] in
/-- A method of table `i` with a specification for tables. -/
theorem wp_onTable {α : Type} {m : BlockTable.Method Token Hash α}
    {Q : α → BlockTables Token Hash → Prop} {R : Exn → BlockTables Token Hash → Prop}
    (hnone : w.tables[i]? = none → R .indexError w)
    (hsome : ∀ t, w.tables[i]? = some t →
      wp m (fun r s' => Q r ⟨s'.alloc, w.tables.set i s'.table⟩)
        (fun e s' => R e ⟨s'.alloc, w.tables.set i s'.table⟩) ⟨w.alloc, t⟩) :
    wp (onTable i m) Q R w := by
  cases hi : w.tables[i]? with
  | none =>
    unfold wp onTable
    simp only [hi]
    exact hnone hi
  | some t =>
    have h := hsome t hi
    unfold wp onTable
    unfold wp at h
    simp only [hi]
    cases hm : m ⟨w.alloc, t⟩ with
    | ok r s' => simpa only [hm] using h
    | error e s' => simpa only [hm] using h

/-- A method that only adds to its table. -/
theorem wp_onTable_grows {α : Type} {m : BlockTable.Method Token Hash α} (hw : WorldOk cfg g K w)
    (hm : ∀ s, Good cfg g K s → wp m (fun _ s' => Grown cfg g K s s')
      (fun e s' => Fails g (fun a' => Grown cfg g K s ⟨a', s'.table⟩) e s'.alloc ∨ e = .indexError)
      s) :
    wp (onTable i m) (fun _ w' => Holds cfg g w') (Raises cfg g) w := by
  refine wp_onTable (fun _ => Raises.of_ne (by simp) (by simp)) fun t hi => ?_
  refine wp_mono (hm _ ⟨hw.core, hw.pool, hw.tables i t hi⟩) (fun _ s' h => hw.grown hi h) ?_
  rintro e s' (h | rfl)
  · exact Raises.of_fails h fun hg => hw.grown hi hg
  · exact Raises.of_ne (by simp) (by simp)

theorem wp_free_op (hw : WorldOk cfg g K w) :
    wp (onTable i (BlockTable.free cfg)) (fun _ w' => Holds cfg g w') (Raises cfg g) w := by
  refine wp_onTable (fun _ => Raises.of_ne (by simp) (by simp)) fun t hi => ?_
  refine wp_mono (BlockTable.wp_free ⟨hw.core, hw.pool, hw.tables i t hi⟩) ?_ ?_
  · rintro _ s' ⟨hs', hempty, hk⟩
    exact hw.freed hi hs' hempty hk
  · rintro e s' rfl
    exact Raises.of_ne (by simp) (by simp)

theorem wp_fork_op (hw : WorldOk cfg g K w) :
    wp (do
        let forked ← onTable i (BlockTable.fork cfg)
        modify fun w => { w with tables := w.tables ++ [forked] })
      (fun _ w' => Holds cfg g w') (Raises cfg g) w := by
  simp only [wp_bind]
  refine wp_onTable (fun _ => Raises.of_ne (by simp) (by simp)) fun t hi => ?_
  refine wp_mono (BlockTable.wp_fork ⟨hw.core, hw.pool, hw.tables i t hi⟩) ?_ ?_
  · rintro forked s' ⟨K', hs', hg, htable, hforked, hnew⟩
    simp only [wp_modify]
    have hset : w.tables.set i s'.table = w.tables := by
      rw [htable]
      refine List.ext_getElem? fun j => ?_
      rw [List.getElem?_set]
      split
      · next hij =>
        have hlt : i < w.tables.length := (List.getElem?_eq_some_iff.mp hi).1
        rw [if_pos hlt, ← hij, hi]
      · rfl
    rw [hset]
    have hkept : WorldOk cfg g K' ⟨s'.alloc, w.tables⟩ := by
      refine ⟨hs'.core, hs'.pool, fun j t' hj => ?_, hw.disjoint⟩
      have ht' := hw.tables j t' hj
      by_cases hji : j = i
      · subst hji
        obtain rfl := Option.some.inj (hi.symm.trans hj)
        have ht := hs'.table
        rwa [htable] at ht
      · refine ht'.congr hg.sub (fun o ho => ?_) hg.links fun q hq hqK p hp hqp => ?_
        · exact hg.others o (ht'.kept o ho) (not_mem_other hw hji hi hj ho)
        · exact not_mem_other hw hji hi hj hp (hg.prevs q hq hqK p (ht'.kept p hp) hqp)
    exact ⟨K', hkept.added hforked fun j t' hj o ho ho' =>
      hnew o ho' ((hw.tables j t' hj).kept o ho)⟩
  · rintro e s' rfl
    exact Raises.of_ne (by simp) (by simp)

/-- Every operation on blocks keeps the invariant. -/
theorem wp_run {op : Op Token} (hop : op.onBlocks) (h : Holds cfg g w) :
    wp (op.run cfg) (fun _ w' => Holds cfg g w') (Raises cfg g) w := by
  obtain ⟨K, hw⟩ := h
  cases op with
  | new cacheNamespace =>
    have hempty : TableOk K w.alloc.pool (BlockTable.empty cacheNamespace) :=
      ⟨trivial, by simp [BlockTable.empty], by simp [BlockTable.empty], by simp [BlockTable.empty],
        List.Forall₂.nil, by simp [BlockTable.empty]⟩
    exact ⟨K, hw.added hempty (by simp [BlockTable.empty])⟩
  | allocate t tokenIds =>
    simp only [Op.run, wp_bind]
    exact wp_onTable_grows hw fun s hs => wp_mono (wp_allocate hs) (fun _ _ h => h)
      fun _ _ h => Or.inl h
  | appendTokenIds t tokenIds numLookaheadSlots =>
    simp only [Op.run, wp_bind]
    exact wp_onTable_grows hw fun s hs => BlockTable.wp_appendTokenIds hs
  | ensureNumEmptySlots t numEmptySlots =>
    simp only [Op.run, wp_bind]
    exact wp_onTable_grows hw fun s hs => wp_mono (wp_ensureNumEmptySlots hs) (fun _ _ h => h)
      fun _ _ h => Or.inl h
  | fork t =>
    have h := wp_fork_op (i := t) hw
    simp only [wp_bind] at h
    simp only [Op.run, wp_bind]
    exact h
  | free t =>
    simp only [Op.run, wp_bind]
    exact wp_free_op hw
  | markBlocksAsAccessed blockIds now =>
    simp only [Op.run, wp_bind, onAllocator, wp_focus]
    refine wp_mono (wp_markBlocksAsAccessed hw.core hw.pool) ?_ ?_
    · rintro _ a' ⟨hc, hp, hpool⟩
      exact ⟨K, hw.withAlloc hc hp hpool⟩
    · rintro e a' (rfl | ⟨msg, rfl⟩)
      · exact Raises.of_ne (by simp) (by simp)
      · exact Raises.of_ne (by simp) (by simp)
  | markBlocksAsComputed =>
    simp only [Op.run, wp_bind, onAllocator, wp_focus]
    refine wp_mono (wp_markBlocksAsComputed hw.core hw.pool) ?_ fun _ _ he => he.elim
    rintro _ a' ⟨hc, hp, hpool⟩
    exact ⟨K, hw.withAlloc hc hp hpool⟩
  | clearCopyOnWrites =>
    exact ⟨K, hw.withAlloc (hw.core.metadata rfl fun _ => rfl) (hw.pool.of_eq rfl rfl) rfl⟩
  | beginStep => exact hop.elim
  | drainStep => exact hop.elim

/-! ## Runs -/

/-- `beginStep` and `drainStep` leave the blocks alone. What the tier's part of the invariant would
say after them is another matter, so it is left out here. -/
theorem Holds.withTier (h : Holds cfg False w) (c : Option (CpuKvContentCache Hash))
    (events : List RefEvent) :
    Holds cfg False { w with alloc := { w.alloc with externalCache := c, history := events } } := by
  obtain ⟨K, hw⟩ := h
  refine ⟨K, hw.withAlloc ?_ (hw.pool.of_eq rfl rfl) rfl⟩
  exact
    { chains := hw.core.chains
      counts := { hw.core.counts with }
      contents := { hw.core.contents with }
      tier := fun hg => hg.elim }

omit [DecidableEq Hash] in
/-- A callback changes nothing but the external cache. -/
theorem wp_onExternalCache_frame {α : Type} {m : CpuKvContentCache.Method Hash α}
    {a : PrefixCachingBlockAllocator Token Hash} :
    wp (onExternalCache m) (fun _ a' => ∃ c, a' = { a with externalCache := c })
      (fun _ a' => ∃ c, a' = { a with externalCache := c }) a := by
  cases hext : a.externalCache with
  | none =>
    simp only [onExternalCache, wp_bind, wp_get, hext]
    exact ⟨none, by rw [← hext]⟩
  | some c =>
    refine (wp_onExternalCache hext).mpr (wp_iff.mpr ⟨fun r c' _ => ?_, fun e c' _ => ?_⟩)
    · exact ⟨some c', rfl⟩
    · exact ⟨some c', rfl⟩

/-- Every operation keeps the invariant of the blocks. -/
theorem wp_run_blocks {op : Op Token} (h : Holds cfg False w) :
    wp (op.run cfg) (fun _ w' => Holds cfg False w')
      (fun e w' => e = .noFreeBlocks → Holds cfg False w') w := by
  cases op
  case beginStep =>
    simp only [Op.run, wp_bind, onAllocator, wp_focus, BlockTables.beginStep, wp_get, wp_ite]
    refine ⟨fun _ => ?_, fun _ => h.withTier w.alloc.externalCache []⟩
    refine wp_mono wp_onExternalCache_frame ?_ ?_
    · rintro _ a' ⟨c, rfl⟩
      exact h.withTier c []
    · rintro e a' ⟨c, rfl⟩ _
      exact h.withTier c w.alloc.history
  case drainStep =>
    simp only [Op.run, onAllocator, wp_focus, BlockTables.drainStep, wp_bind, wp_get, wp_ite]
    refine ⟨fun _ => ?_, fun _ => h⟩
    refine wp_mono wp_onExternalCache_frame ?_ ?_
    · rintro _ a' ⟨c, rfl⟩
      exact h.withTier c w.alloc.history
    · rintro e a' ⟨c, rfl⟩ _
      exact h.withTier c w.alloc.history
  all_goals exact wp_mono (wp_run trivial h) (fun _ _ h => h) fun _ _ h => h.1

/-- An operation that returned, or raised `NoFreeBlocksError`. -/
def Step (cfg : AllocatorConfig Token Hash) (w w' : BlockTables Token Hash) : Prop :=
  ∃ op : Op Token,
    (∃ maps, op.run cfg w = .ok maps w') ∨ op.run cfg w = .error .noFreeBlocks w'

/-- The states that a run from a fresh allocator reaches, with any external cache. -/
def Reachable (cfg : AllocatorConfig Token Hash) (policy : EvictionPolicy)
    (external : Option (CpuKvContentCache Hash)) : BlockTables Token Hash → Prop :=
  Relation.ReflTransGen (Step cfg) (BlockTables.init cfg policy external)

theorem Step.holds (h : Step cfg w w') (hw : Holds cfg False w) : Holds cfg False w' := by
  obtain ⟨op, ⟨maps, hr⟩ | hr⟩ := h
  · exact of_wp_ok (Q := fun _ w' => Holds cfg False w') (wp_run_blocks hw) hr
  · exact of_wp_error (wp_run_blocks hw) hr rfl

theorem Reachable.holds {policy : EvictionPolicy} {external : Option (CpuKvContentCache Hash)}
    (h : Reachable cfg policy external w) : Holds cfg False w :=
  invariant_of_step (fun _ _ hw hs => hs.holds hw)
    ⟨∅, init_worldOk policy external fun hg => hg.elim⟩ h

/-- Performs operations in order, up to the first one that raises. -/
def runOps (cfg : AllocatorConfig Token Hash) : List (Op Token) → Method Token Hash Unit
  | [] => pure ()
  | op :: ops => do
    discard (op.run cfg)
    runOps cfg ops

/-- A run of operations that all return. -/
theorem runOps_steps {ops : List (Op Token)} (h : runOps cfg ops w = .ok () w') :
    Relation.ReflTransGen (Step cfg) w w' := by
  induction ops generalizing w with
  | nil =>
    obtain ⟨_, rfl⟩ := pure_ok_iff.mp h
    exact .refl
  | cons op ops ih =>
    obtain ⟨_, w₁, hop, hrest⟩ := bind_ok_iff.mp h
    obtain ⟨maps, _, hop⟩ := map_ok_iff.mp hop
    exact .head ⟨op, Or.inl ⟨maps, hop⟩⟩ (ih hrest)

end Ikun.BlockTables
