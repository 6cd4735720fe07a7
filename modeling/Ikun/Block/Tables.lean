import Ikun.Block.ChainOps

/-!
# The invariant of block tables

`TableOk` says what holds of a table and the objects behind it. A method of a table changes its own
blocks and adds new ones (`Grows`); what it leaves behind when it fails is not reachable from any
table.
-/

namespace Ikun

open Exec PrefixCachingBlockAllocator ChainLemmas

variable {Token Hash : Type} [DecidableEq Hash] {cfg : AllocatorConfig Token Hash}

namespace BlockTable

variable {g : Prop} {K K' K'' : Finset ObjId} {s s' s'' : TableState Token Hash}
  {a a' : PrefixCachingBlockAllocator Token Hash} {t : BlockTable}
  {pool pool' : ObjId → Block Token Hash} {blocks : List ObjId} {blockIds : List BlockId}
  {o : ObjId}

/-! ## The invariant -/

/-- The ids that a table lists are those of the blocks that stand on one. -/
def IdsOk (pool : ObjId → Block Token Hash) (blocks : List ObjId) (blockIds : List BlockId) :
    Prop :=
  List.Forall₂ (fun o x => ∀ y, (pool o).blockId = some y → y = x) blocks blockIds

/-- The number of tokens in the blocks. -/
def numTokens (pool : ObjId → Block Token Hash) (blocks : List ObjId) : ℕ :=
  (blocks.map fun o => (pool o).tokenIds.length).sum

/-- What holds of a table over the objects `K`. -/
structure TableOk (K : Finset ObjId) (pool : ObjId → Block Token Hash) (t : BlockTable) : Prop where
  linked : Linked pool none t.blocks
  kept : ∀ o ∈ t.blocks, o ∈ K
  named : ∀ o ∈ t.blocks, (pool o).cacheNamespace = t.cacheNamespace
  filled : t.blocks ≠ [] → t.numFullSlots ≤ numTokens pool t.blocks
  ids : IdsOk pool t.blocks t.blockIds
  closed : ∀ q ∈ K, ∀ p ∈ t.blocks, (pool q).prevBlock = some p → q ∈ t.blocks

/-- A method of a table changes its own blocks only, and adds new ones. -/
structure Grows (K K' : Finset ObjId) (s s' : TableState Token Hash) : Prop where
  sub : K ⊆ K'
  others : ∀ q ∈ K, q ∉ s.table.blocks → SameNode (s.alloc.pool q) (s'.alloc.pool q)
  links : ∀ q ∈ K, (s'.alloc.pool q).prevBlock = (s.alloc.pool q).prevBlock
  prevs : ∀ q ∈ K', q ∉ K → ∀ p ∈ K, (s'.alloc.pool q).prevBlock = some p → p ∈ s.table.blocks
  blocks : ∀ o ∈ s'.table.blocks, o ∈ s.table.blocks ∨ o ∉ K
  cacheNamespace : s'.table.cacheNamespace = s.table.cacheNamespace

/-- The allocator and the table between two operations. -/
structure Good (cfg : AllocatorConfig Token Hash) (g : Prop) (K : Finset ObjId)
    (s : TableState Token Hash) : Prop where
  core : Core cfg g K ⟨[], [], none⟩ s.alloc
  pool : PoolOk cfg K s.alloc
  table : TableOk K s.alloc.pool s.table

/-- After a method of a table. -/
def Grown (cfg : AllocatorConfig Token Hash) (g : Prop) (K : Finset ObjId)
    (s s' : TableState Token Hash) : Prop :=
  ∃ K', Good cfg g K' s' ∧ Grows K K' s s'

/-! ## Helpers -/

section helpers

omit [DecidableEq Hash]

theorem Grows.refl (K : Finset ObjId) (s : TableState Token Hash) : Grows K K s s where
  sub := Finset.Subset.refl K
  others _ _ _ := SameNode.refl _
  links _ _ := rfl
  prevs _ hq hqK := absurd hq hqK
  blocks _ ho := Or.inl ho
  cacheNamespace := rfl

theorem Grows.trans (h : Grows K K' s s') (h' : Grows K' K'' s' s'') : Grows K K'' s s'' where
  sub := h.sub.trans h'.sub
  others q hq hqb := by
    refine (h.others q hq hqb).trans (h'.others q (h.sub hq) fun hqb' => ?_)
    rcases h.blocks q hqb' with hqb' | hqK
    · exact hqb hqb'
    · exact hqK hq
  links q hq := (h'.links q (h.sub hq)).trans (h.links q hq)
  prevs q hq hqK p hp hqp := by
    by_cases hq' : q ∈ K'
    · rw [h'.links q hq'] at hqp
      exact h.prevs q hq' hqK p hp hqp
    · rcases h.blocks p (h'.prevs q hq hq' p (h.sub hp) hqp) with hpb | hpK
      · exact hpb
      · exact absurd hp hpK
  blocks o ho := by
    rcases h'.blocks o ho with ho | ho
    · exact h.blocks o ho
    · exact Or.inr fun hoK => ho (h.sub hoK)
  cacheNamespace := h'.cacheNamespace.trans h.cacheNamespace

theorem idsOk_mono (h : IdsOk pool blocks blockIds)
    (himp : ∀ o ∈ blocks, ∀ y, (pool' o).blockId = some y → (pool o).blockId = some y) :
    IdsOk pool' blocks blockIds := by
  unfold IdsOk at h ⊢
  induction h with
  | nil => exact List.Forall₂.nil
  | cons hx _ ih =>
    exact List.Forall₂.cons (fun y hy => hx y (himp _ List.mem_cons_self y hy))
      (ih fun o ho => himp o (List.mem_cons_of_mem _ ho))

theorem idsOk_congr (h : IdsOk pool blocks blockIds)
    (heq : ∀ o ∈ blocks, (pool' o).blockId = (pool o).blockId) : IdsOk pool' blocks blockIds :=
  idsOk_mono h fun o ho _ hy => (heq o ho).symm.trans hy

theorem idsOk_of_mapM (h : blocks.mapM (fun o => (pool o).blockId) = some blockIds) :
    IdsOk pool blocks blockIds := by
  induction blocks generalizing blockIds with
  | nil =>
    obtain rfl : blockIds = [] := by simpa using h.symm
    exact List.Forall₂.nil
  | cons o rest ih =>
    rw [List.mapM_cons] at h
    obtain ⟨x, hx, h⟩ := Option.bind_eq_some_iff.mp h
    obtain ⟨xs, hxs, h⟩ := Option.bind_eq_some_iff.mp h
    obtain rfl : x :: xs = blockIds := Option.some.inj h
    exact List.Forall₂.cons (fun y hy => Option.some.inj (hy.symm.trans hx)) (ih hxs)

theorem numTokens_congr (heq : ∀ o ∈ blocks, (pool' o).tokenIds = (pool o).tokenIds) :
    numTokens pool' blocks = numTokens pool blocks := by
  unfold numTokens
  rw [List.map_congr_left fun o ho => by rw [heq o ho]]

theorem numTokens_append (pool : ObjId → Block Token Hash) (blocks blocks' : List ObjId) :
    numTokens pool (blocks ++ blocks') = numTokens pool blocks + numTokens pool blocks' := by
  unfold numTokens
  rw [List.map_append, List.sum_append]

/-- A table whose blocks stay. -/
theorem TableOk.congr {pool' : ObjId → Block Token Hash} (h : TableOk K pool t) (hsub : K ⊆ K')
    (heq : ∀ o ∈ t.blocks, SameNode (pool o) (pool' o))
    (hlinks : ∀ q ∈ K, (pool' q).prevBlock = (pool q).prevBlock)
    (hnew : ∀ q ∈ K', q ∉ K → ∀ p ∈ t.blocks, (pool' q).prevBlock ≠ some p) :
    TableOk K' pool' t where
  linked := h.linked.congr fun o ho => (heq o ho).1
  kept o ho := hsub (h.kept o ho)
  named o ho := (heq o ho).2.2.1.trans (h.named o ho)
  filled hne := by
    rw [numTokens_congr fun o ho => (heq o ho).2.1]
    exact h.filled hne
  ids := idsOk_congr h.ids fun o ho => (heq o ho).2.2.2.2
  closed q hq p hp hqp := by
    by_cases hqK : q ∈ K
    · rw [hlinks q hqK] at hqp
      exact h.closed q hqK p hp hqp
    · exact absurd hqp (hnew q hq hqK p hp)

/-- The blocks of a table are distinct. -/
theorem TableOk.nodup (h : TableOk K pool t) (hc : Chains cfg K pool) : t.blocks.Nodup := by
  -- every later block is deeper
  have hgrow : ∀ {l : List ObjId} {prev : Option ObjId}, Linked pool prev l → (∀ o ∈ l, o ∈ K) →
      l.Nodup ∧ ∀ p, prev = some p → ∀ o ∈ l, (pool p).depth < (pool o).depth := by
    intro l
    induction l with
    | nil => exact fun _ _ => ⟨List.nodup_nil, fun _ _ _ ho => absurd ho (by simp)⟩
    | cons o l ih =>
      intro prev hl hK
      obtain ⟨hnd, hdeep⟩ := ih hl.2 fun q hq => hK q (List.mem_cons_of_mem _ hq)
      refine ⟨List.nodup_cons.mpr ⟨fun ho => ?_, hnd⟩, fun p hp q hq => ?_⟩
      · exact lt_irrefl _ (hdeep o rfl o ho)
      · have hlt := (hc.prev o (hK o List.mem_cons_self) p (hl.1.trans hp)).2
        rcases List.mem_cons.mp hq with rfl | hq
        · exact hlt
        · exact hlt.trans (hdeep o rfl q hq)
  exact (hgrow h.linked h.kept).1

end helpers

/-! ## Lists of block ids -/

omit [DecidableEq Hash] in
/-- `_add_block_id` of blocks that stand on a physical block. -/
theorem wp_addBlockIds (hplaced : ∀ o ∈ blocks, (s.alloc.pool o).blockId ≠ none) :
    wp (addBlockIds blocks)
      (fun _ s' => ∃ xs, IdsOk s.alloc.pool blocks xs ∧ s' = ⟨s.alloc, { s.table with
        blockIds := s.table.blockIds ++ xs }⟩)
      (fun _ _ => False) s := by
  unfold addBlockIds
  induction blocks generalizing s with
  | nil => exact ⟨[], List.Forall₂.nil, by simp⟩
  | cons o rest ih =>
    rw [List.forM_cons]
    obtain ⟨x, hx⟩ := Option.ne_none_iff_exists'.mp (hplaced o List.mem_cons_self)
    simp only [wp_bind, wp_get, hx, wp_assertSome_some, modifyTable, wp_modify]
    refine wp_mono (ih fun q hq => hplaced q (List.mem_cons_of_mem _ hq)) ?_ fun _ _ he => he
    rintro _ s' ⟨xs, hids, rfl⟩
    refine ⟨x :: xs, List.Forall₂.cons (fun y hy => ?_) hids, by simp⟩
    exact Option.some.inj (hy.symm.trans hx)

/-! ## Allocating a table -/

omit [DecidableEq Hash] in
/-- A new chain is a table. -/
theorem tableOk_of_appended {numFullSlots : ℕ} {cacheNamespace : Bytes}
    (hc : Chains cfg K a.pool)
    (happ : Appended K K' none cacheNamespace blocks a a') (hids : IdsOk a'.pool blocks blockIds)
    (hfull : numFullSlots ≤ numTokens a'.pool blocks) :
    TableOk K' a'.pool ⟨cacheNamespace, blocks, blockIds, numFullSlots⟩ where
  linked := happ.linked
  kept o ho := (happ.mem o).mpr (Or.inr ho)
  named := happ.named
  filled _ := hfull
  ids := hids
  closed q hq p hp hqp := by
    rcases (happ.mem q).mp hq with hqK | hqb
    · rw [(happ.kept q hqK).1] at hqp
      exact absurd (hc.prev q hqK p hqp).1 (happ.new p hp)
    · exact hqb

/-- `_allocate_blocks_for_token_ids`: a new chain with the tokens. -/
theorem wp_allocateBlocksForTokenIds {cacheNamespace : Bytes} {tokenIds : List Token}
    (hc : Core cfg g K ⟨[], [], none⟩ a) (hp : PoolOk cfg K a) :
    wp (allocateBlocksForTokenIds cfg cacheNamespace tokenIds)
      (fun blocks a' => ∃ K', Core cfg g K' ⟨[], [], none⟩ a' ∧ PoolOk cfg K' a' ∧
        Appended K K' none cacheNamespace blocks a a' ∧
        numTokens a'.pool blocks = tokenIds.length)
      (Fails g (LeakedChain cfg g K none a)) a := by
  unfold allocateBlocksForTokenIds
  simp only [wp_bind]
  have hsum := sum_length_filter (fun c => decide (c.length = cfg.blockSize))
    (chunkList cfg.blockSize tokenIds)
  rw [sum_length_chunkList cfg.blockSize_pos] at hsum
  have hneg : (chunkList cfg.blockSize tokenIds).filter (fun c => ! decide (c.length = cfg.blockSize)) =
      (chunkList cfg.blockSize tokenIds).filter (·.length ≠ cfg.blockSize) :=
    List.filter_congr fun c _ => by simp
  rw [hneg] at hsum
  refine wp_mono (wp_allocateImmutableBlocks hc hp (by simp)
    (fun c hcm => by simpa using (List.mem_filter.mp hcm).2)) ?_ fun e a' he => he
  rintro blocks a₁ ⟨K₁, hc₁, hp₁, happ, hmap⟩
  have htokens : numTokens a₁.pool blocks =
      (((chunkList cfg.blockSize tokenIds).filter (·.length = cfg.blockSize)).map
        List.length).sum := by
    rw [← hmap, List.map_map]
    rfl
  generalize htail : (chunkList cfg.blockSize tokenIds).filter (·.length ≠ cfg.blockSize) = tail
    at hsum ⊢
  cases tail with
  | nil =>
    simp only [wp_pure]
    refine ⟨K₁, hc₁, hp₁, happ, htokens.trans ?_⟩
    simpa using hsum
  | cons cur more =>
    cases more with
    | cons _ _ => exact Fails.assertion
    | nil =>
      simp only [wp_bind]
      have hlastmem : ∀ p, blocks.getLast? = some p → p ∈ blocks := fun p hpp =>
        List.mem_of_getLast? hpp
      have hlastK : ∀ p, blocks.getLast? = some p → p ∈ K₁ := fun p hpp =>
        (happ.mem p).mpr (Or.inr (hlastmem p hpp))
      have hleak : ∀ {q p : ObjId}, q ∈ K₁ → q ∉ K → p ∈ K → (a₁.pool q).prevBlock = some p →
          False := by
        intro q p hq hqK hpK hqp
        have hqb := ((happ.mem q).mp hq).resolve_left hqK
        obtain ⟨i, hi, hqi⟩ := List.mem_iff_getElem.mp hqb
        have hprev := happ.linked.prev_getElem? (List.getElem?_eq_some_iff.mpr ⟨hi, hqi⟩)
        rw [hqp] at hprev
        split at hprev
        · exact absurd hprev (by simp)
        · exact happ.new p (List.mem_of_getElem? hprev.symm) hpK
      refine wp_mono (wp_allocateMutableBlock hc₁ hp₁ hlastK) ?_ fun e a' hs => Or.inr (hs.mono ?_)
      · rintro o a₂ ⟨hc₂, hp₂, hcr⟩
        have hprev₂ : ∀ p, (a₂.pool o).prevBlock = some p → isFull cfg (a₂.pool p) := by
          intro p hpp
          rw [hcr.linked] at hpp
          unfold isFull
          rw [(hcr.kept p (hlastK p hpp)).2.1]
          have hmem : (a₁.pool p).tokenIds ∈ blocks.map fun o => (a₁.pool o).tokenIds :=
            List.mem_map_of_mem (hlastmem p hpp)
          rw [hmap] at hmem
          simpa using (List.mem_filter.mp hmem).2
        have hlink₂ : (a₂.pool o).prevBlock = blocks.getLast? := hcr.linked
        have hleak₂ : ∀ {a₃ : PrefixCachingBlockAllocator Token Hash},
            Keeps ((insert o K₁).erase o) a₂ a₃ → (a₃.pool o).prevBlock = (a₂.pool o).prevBlock →
            ∀ q ∈ insert o K₁, q ∉ K → ∀ p ∈ K, (a₃.pool q).prevBlock = some p → False := by
          intro a₃ hk hlink q hq hqK p hpK hqp
          rcases Finset.mem_insert.mp hq with rfl | hq
          · rw [hlink, hlink₂] at hqp
            exact happ.new p (hlastmem p hqp) hpK
          · have hqo : q ≠ o := fun he => hcr.new (he ▸ hq)
            rw [(hk q (Finset.mem_erase.mpr ⟨hqo, Finset.mem_insert_of_mem hq⟩)).1,
              (hcr.kept q hq).1] at hqp
            exact hleak hq hqK hpK hqp
        have hkeep₂ : ∀ {a₃ : PrefixCachingBlockAllocator Token Hash},
            Keeps ((insert o K₁).erase o) a₂ a₃ → Keeps K₁ a₁ a₃ := by
          intro a₃ hk
          rw [Finset.erase_insert hcr.new] at hk
          exact hcr.kept.trans hk
        refine wp_mono (wp_appendTokenIds hc₂ hp₂ (Finset.mem_insert_self o K₁) hprev₂) ?_
          fun e a' he => he.mono ?_
        · rintro _ a₃ ⟨hc₃, hp₃, hext, hplaced⟩
          simp only [wp_pure]
          have hk := hkeep₂ hext.others
          refine ⟨insert o K₁, hc₃, hp₃,
            ⟨fun q => ?_, fun q hq => ?_, happ.kept.trans (hk.mono happ.subset), ?_, fun q hq => ?_,
              fun q hq => ?_⟩, ?_⟩
          · rw [Finset.mem_insert, happ.mem, List.mem_append, List.mem_singleton]
            tauto
          · rcases List.mem_append.mp hq with hq | hq
            · exact happ.new q hq
            · obtain rfl := List.mem_singleton.mp hq
              exact fun hqK => hcr.new (happ.subset hqK)
          · have hlinked : Linked a₃.pool none blocks := happ.linked.congr fun q hq =>
              (hk q ((happ.mem q).mpr (Or.inr hq))).1
            have hlast : (a₃.pool o).prevBlock = blocks.getLast? := hext.prevBlock.trans hlink₂
            cases hb : blocks with
            | nil =>
              rw [hb] at hlast
              exact ⟨hlast, trivial⟩
            | cons q rest =>
              rw [← hb]
              exact hlinked.append_one (by rw [hb]; simp) hlast
          · rcases List.mem_append.mp hq with hq | hq
            · exact (hk q ((happ.mem q).mpr (Or.inr hq))).2.2.1.trans (happ.named q hq)
            · obtain rfl := List.mem_singleton.mp hq
              refine hext.cacheNamespace.trans (hcr.named.trans (resolvedNamespace_eq fun p hpp => ?_))
              exact happ.named p (hlastmem p hpp)
          · rcases List.mem_append.mp hq with hq | hq
            · rw [(hk q ((happ.mem q).mpr (Or.inr hq))).2.2.2.2]
              exact happ.placed q hq
            · obtain rfl := List.mem_singleton.mp hq
              exact fun hn => hcr.placed (hplaced hn)
          · rw [numTokens_append, numTokens_congr fun q hq =>
              (hk q ((happ.mem q).mpr (Or.inr hq))).2.1, htokens]
            simp only [numTokens, List.map_cons, List.map_nil, List.sum_cons, List.sum_nil,
              hext.tokenIds, hcr.filled, List.nil_append]
            simpa using hsum
        · rintro ⟨hc₃, hp₃, hext, _⟩
          refine ⟨insert o K₁, happ.subset.trans (Finset.subset_insert o K₁), hc₃, hp₃,
            happ.kept.trans ((hkeep₂ hext.others).mono happ.subset), fun q hq hqK p hpK hqp => ?_⟩
          exact (hleak₂ hext.others hext.prevBlock q hq hqK p hpK hqp).elim
      · rintro rfl
        exact ⟨K₁, happ.subset, hc₁, hp₁, happ.kept,
          fun q hq hqK p hpK hqp => (hleak hq hqK hpK hqp).elim⟩

/-- A failed operation that left new objects behind. -/
theorem grown_of_leaked {prevBlock : Option ObjId} (hs : Good cfg g K s)
    (h : LeakedChain cfg g K prevBlock s.alloc a')
    (hprev : ∀ p, prevBlock = some p → p ∉ s.table.blocks → p ∉ K) :
    s.table.blocks = [] → Grown cfg g K s ⟨a', s.table⟩ := by
  intro hempty
  obtain ⟨K', hsub, hc, hp, hk, hleak⟩ := h
  have hnot : ∀ q ∈ K', q ∉ K → ∀ p ∈ K, (a'.pool q).prevBlock ≠ some p := fun q hq hqK p hpK hqp =>
    hprev p (hleak q hq hqK p hpK hqp) (by simp [hempty]) hpK
  refine ⟨K', ⟨hc, hp, hs.table.congr hsub (fun o ho => hk o (hs.table.kept o ho))
    (fun q hq => (hk q hq).1) fun q hq hqK p hpb => hnot q hq hqK p (hs.table.kept p hpb)⟩, ?_⟩
  exact
    { sub := hsub
      others := fun q hq _ => hk q hq
      links := fun q hq => (hk q hq).1
      prevs := fun q hq hqK p hpK hqp => absurd hqp (hnot q hq hqK p hpK)
      blocks := fun o ho => Or.inl ho
      cacheNamespace := rfl }

/-- `allocate`. -/
theorem wp_allocate {tokenIds : List Token} (hs : Good cfg g K s) :
    wp (allocate cfg tokenIds) (fun _ s' => Grown cfg g K s s')
      (fun e s' => Fails g (fun a' => Grown cfg g K s ⟨a', s'.table⟩) e s'.alloc) s := by
  unfold allocate
  simp only [wp_bind, wp_get, wp_assertThat, onAllocator, wp_focus]
  refine ⟨fun _ => Fails.assertion, fun hempty => ⟨fun _ => Fails.assertion, fun _ => ?_⟩⟩
  refine wp_mono (wp_allocateBlocksForTokenIds hs.core hs.pool) ?_
    fun e a' he => he.mono fun hl => grown_of_leaked hs hl (by simp) hempty
  rintro blocks a' ⟨K', hc', hp', happ, htokens⟩
  simp only [update, wp_bind, modifyTable, wp_modify]
  refine wp_mono (wp_addBlockIds happ.placed) ?_ fun _ _ he => he.elim
  rintro _ s' ⟨xs, hids, rfl⟩
  have htable := tableOk_of_appended hs.core.chains happ hids htokens.ge
  refine ⟨K', ⟨hc', hp', htable⟩, ?_⟩
  exact
    { sub := happ.subset
      others := fun q hq _ => happ.kept q hq
      links := fun q hq => (happ.kept q hq).1
      prevs := fun q hq hqK p hpK hqp => by
        have hqb := ((happ.mem q).mp hq).resolve_left hqK
        obtain ⟨i, hi, hqi⟩ := List.mem_iff_getElem.mp hqb
        have hprev := happ.linked.prev_getElem? (List.getElem?_eq_some_iff.mpr ⟨hi, hqi⟩)
        change (a'.pool q).prevBlock = some p at hqp
        rw [hqp] at hprev
        split at hprev
        · exact absurd hprev (by simp)
        · exact absurd hpK (happ.new p (List.mem_of_getElem? hprev.symm))
      blocks := fun o ho => Or.inr (happ.new o ho)
      cacheNamespace := rfl }

/-! ## New mutable blocks -/

/-- `BlockList.append` of a new mutable block. -/
theorem wp_appendMutableBlock (hs : Good cfg g K s) :
    wp (appendMutableBlock cfg) (fun _ s' => Grown cfg g K s s')
      (fun e s' => Fails g (fun a' => Grown cfg g K s ⟨a', s'.table⟩) e s'.alloc) s := by
  unfold appendMutableBlock
  simp only [wp_bind, wp_get, wp_assertThat, onAllocator, wp_focus]
  refine ⟨fun _ => Fails.assertion, fun hne => ?_⟩
  obtain ⟨last, hlast⟩ := Option.ne_none_iff_exists'.mp
    (fun h => hne (List.getLast?_eq_none_iff.mp h))
  have hlastb : last ∈ s.table.blocks := List.mem_of_getLast? hlast
  have hprev : ∀ p, s.table.blocks.getLast? = some p → p ∈ K := fun p hp =>
    hs.table.kept p (List.mem_of_getLast? hp)
  refine wp_mono (wp_allocateMutableBlock hs.core hs.pool hprev) ?_
    fun e a' he => Or.inr (he.mono ?_)
  · rintro o a' ⟨hc', hp', hcr⟩
    simp only [modifyTable, wp_modify]
    refine wp_mono (wp_addBlockIds (by simpa using hcr.placed)) ?_ fun _ _ he => he.elim
    rintro _ s' ⟨xs, hids, rfl⟩
    have hkb : ∀ q ∈ s.table.blocks, SameNode (s.alloc.pool q) (a'.pool q) := fun q hq =>
      hcr.kept q (hs.table.kept q hq)
    have hlinko : (a'.pool o).prevBlock = s.table.blocks.getLast? := hcr.linked
    refine ⟨insert o K, ⟨hc', hp', ?_⟩, ?_⟩
    · refine
        { linked := (hs.table.linked.congr fun q hq => (hkb q hq).1).append_one hne hlinko
          kept := fun q hq => ?_
          named := fun q hq => ?_
          filled := fun _ => ?_
          ids := List.rel_append (idsOk_congr hs.table.ids fun q hq => (hkb q hq).2.2.2.2) hids
          closed := fun q hq p hp hqp => ?_ }
      · rcases List.mem_append.mp hq with hq | hq
        · exact Finset.mem_insert_of_mem (hs.table.kept q hq)
        · obtain rfl := List.mem_singleton.mp hq
          exact Finset.mem_insert_self q K
      · rcases List.mem_append.mp hq with hq | hq
        · exact (hkb q hq).2.2.1.trans (hs.table.named q hq)
        · obtain rfl := List.mem_singleton.mp hq
          refine hcr.named.trans ?_
          rw [hlast]
          exact hs.table.named last hlastb
      · show s.table.numFullSlots ≤ numTokens a'.pool (s.table.blocks ++ [o])
        rw [numTokens_append, numTokens_congr fun q hq => (hkb q hq).2.1]
        exact Nat.le_add_right_of_le (hs.table.filled hne)
      · simp only [List.mem_append, List.mem_singleton] at hp ⊢
        rcases Finset.mem_insert.mp hq with rfl | hqK
        · exact Or.inr rfl
        · have hqp' : (s.alloc.pool q).prevBlock = some p := (hcr.kept q hqK).1.symm.trans hqp
          rcases hp with hp | rfl
          · exact Or.inl (hs.table.closed q hqK p hp hqp')
          · exact absurd (hs.core.chains.prev q hqK p hqp').1 hcr.new
    · exact
        { sub := Finset.subset_insert o K
          others := fun q hq _ => hcr.kept q hq
          links := fun q hq => (hcr.kept q hq).1
          prevs := fun q hq hqK p hpK hqp => by
            obtain rfl := (Finset.mem_insert.mp hq).resolve_right hqK
            rw [hlinko] at hqp
            exact List.mem_of_getLast? hqp
          blocks := fun q hq => by
            rcases List.mem_append.mp hq with hq | hq
            · exact Or.inl hq
            · obtain rfl := List.mem_singleton.mp hq
              exact Or.inr hcr.new
          cacheNamespace := rfl }
  · rintro rfl
    exact ⟨K, hs, Grows.refl K s⟩

/-- `ensure_num_empty_slots`. -/
theorem wp_ensureNumEmptySlots {numEmptySlots : ℕ} (hs : Good cfg g K s) :
    wp (ensureNumEmptySlots cfg numEmptySlots) (fun _ s' => Grown cfg g K s s')
      (fun e s' => Fails g (fun a' => Grown cfg g K s ⟨a', s'.table⟩) e s'.alloc) s := by
  unfold ensureNumEmptySlots
  simp only [wp_bind, wp_get, wp_assertThat]
  refine ⟨fun _ => Fails.assertion, fun _ => ?_⟩
  split
  · exact ⟨K, hs, Grows.refl K s⟩
  · refine wp_forM (I := fun _ s' => Grown cfg g K s s') (fun _ _ s₁ h₁ => ?_) _ s
      ⟨K, hs, Grows.refl K s⟩
    obtain ⟨K₁, hs₁, hg₁⟩ := h₁
    refine wp_mono (wp_appendMutableBlock hs₁) ?_ fun e s₂ he => he.mono ?_
    · rintro _ s₂ ⟨K₂, hs₂, hg₂⟩
      exact ⟨K₂, hs₂, hg₁.trans hg₂⟩
    · rintro ⟨K₂, hs₂, hg₂⟩
      exact ⟨K₂, hs₂, hg₁.trans hg₂⟩

/-! ## Appending tokens -/

omit [DecidableEq Hash] in
/-- The ids after one block moved. -/
theorem idsOk_set {x : BlockId} {i : ℕ} (h : IdsOk pool blocks blockIds)
    (hnd : blocks.Nodup) (hi : blocks[i]? = some o)
    (heq : ∀ q ∈ blocks, q ≠ o → (pool' q).blockId = (pool q).blockId)
    (hx : ∀ y, (pool' o).blockId = some y → y = x) : IdsOk pool' blocks (blockIds.set i x) := by
  unfold IdsOk at h ⊢
  induction h generalizing i with
  | nil => exact absurd hi (by simp)
  | @cons q y rest ids hy hrest ih =>
    obtain ⟨hq, hnd⟩ := List.nodup_cons.mp hnd
    cases i with
    | zero =>
      obtain rfl : q = o := by simpa using hi
      refine List.Forall₂.cons hx (idsOk_congr hrest fun r hr => ?_)
      exact heq r (List.mem_cons_of_mem _ hr) fun he => hq (he ▸ hr)
    | succ i =>
      rw [List.getElem?_cons_succ] at hi
      have hqo : q ≠ o := by
        rintro rfl
        exact hq (List.mem_of_getElem? hi)
      refine List.Forall₂.cons (fun z hz => hy z ?_) (ih hnd hi fun r hr => ?_)
      · rw [← heq q List.mem_cons_self hqo]
        exact hz
      · exact heq r (List.mem_cons_of_mem _ hr)

omit [DecidableEq Hash] in
/-- The number of tokens after one block grew. -/
theorem numTokens_extend (pool pool' : ObjId → Block Token Hash) (n : ℕ) (hnd : blocks.Nodup) (ho : o ∈ blocks)
    (heq : ∀ q ∈ blocks, q ≠ o → (pool' q).tokenIds = (pool q).tokenIds)
    (hn : (pool' o).tokenIds.length = (pool o).tokenIds.length + n) :
    numTokens pool' blocks = numTokens pool blocks + n := by
  unfold numTokens
  induction blocks with
  | nil => exact absurd ho (by simp)
  | cons q rest ih =>
    obtain ⟨hq, hnd⟩ := List.nodup_cons.mp hnd
    simp only [List.map_cons, List.sum_cons]
    by_cases hqo : q = o
    · subst hqo
      have hrest : rest.map (fun r => (pool' r).tokenIds.length) =
          rest.map fun r => (pool r).tokenIds.length :=
        List.map_congr_left fun r hr => by
          rw [heq r (List.mem_cons_of_mem _ hr) fun he => hq (he ▸ hr)]
      rw [hrest, hn]
      omega
    · rw [heq q List.mem_cons_self hqo,
        ih hnd ((List.mem_cons.mp ho).resolve_left (Ne.symm hqo))
          fun r hr => heq r (List.mem_cons_of_mem _ hr)]
      omega

/-- The blocks of a table after tokens were appended to one of them. -/
structure Appending (o : ObjId) (tokenIds : List Token) (s s' : TableState Token Hash) : Prop where
  blocks : s'.table.blocks = s.table.blocks
  numFullSlots : s'.table.numFullSlots = s.table.numFullSlots
  tokens : (s'.alloc.pool o).tokenIds = (s.alloc.pool o).tokenIds ++ tokenIds
  links : ∀ q ∈ s.table.blocks, (s'.alloc.pool q).prevBlock = (s.alloc.pool q).prevBlock
  others : ∀ q ∈ s.table.blocks, q ≠ o → (s'.alloc.pool q).tokenIds = (s.alloc.pool q).tokenIds

/-- A block of the table that was extended, with the ids of the table. -/
theorem good_of_extended {tokenIds : List Token} {ids : List BlockId} (hs : Good cfg g K s)
    (ho : o ∈ s.table.blocks) (hc : Core cfg g K ⟨[], [], none⟩ a') (hp : PoolOk cfg K a')
    (hext : Extended K o tokenIds s.alloc a') (hids : IdsOk a'.pool s.table.blocks ids) :
    Good cfg g K ⟨a', { s.table with blockIds := ids }⟩ ∧
      Grows K K s ⟨a', { s.table with blockIds := ids }⟩ ∧
      Appending o tokenIds s ⟨a', { s.table with blockIds := ids }⟩ ∧
      numTokens a'.pool s.table.blocks =
        numTokens s.alloc.pool s.table.blocks + tokenIds.length := by
  have hnd := hs.table.nodup hs.core.chains
  have hsame : ∀ q ∈ K, q ≠ o → SameNode (s.alloc.pool q) (a'.pool q) := fun q hq hqo =>
    hext.others q (Finset.mem_erase.mpr ⟨hqo, hq⟩)
  have hlinks : ∀ q ∈ K, (a'.pool q).prevBlock = (s.alloc.pool q).prevBlock := by
    intro q hq
    by_cases hqo : q = o
    · rw [hqo]
      exact hext.prevBlock
    · exact (hsame q hq hqo).1
  have htokens := numTokens_extend s.alloc.pool a'.pool tokenIds.length
    hnd ho (fun q hq hqo => (hsame q (hs.table.kept q hq) hqo).2.1)
    (by rw [hext.tokenIds, List.length_append])
  refine ⟨⟨hc, hp, ?_⟩, ?_, ?_, htokens⟩
  · exact
      { linked := hs.table.linked.congr fun q hq => hlinks q (hs.table.kept q hq)
        kept := hs.table.kept
        named := fun q hq => by
          by_cases hqo : q = o
          · rw [hqo, hext.cacheNamespace]
            exact hs.table.named o ho
          · exact (hsame q (hs.table.kept q hq) hqo).2.2.1.trans (hs.table.named q hq)
        filled := fun hne => by
          show s.table.numFullSlots ≤ numTokens a'.pool s.table.blocks
          rw [htokens]
          exact Nat.le_add_right_of_le (hs.table.filled hne)
        ids := hids
        closed := fun q hq p hpb hqp => by
          rw [hlinks q hq] at hqp
          exact hs.table.closed q hq p hpb hqp }
  · exact
      { sub := Finset.Subset.refl K
        others := fun q hq hqb => hsame q hq fun he => hqb (he ▸ ho)
        links := hlinks
        prevs := fun q hq hqK => absurd hq hqK
        blocks := fun q hq => Or.inl hq
        cacheNamespace := rfl }
  · exact
      { blocks := rfl
        numFullSlots := rfl
        tokens := hext.tokenIds
        links := fun q hq => hlinks q (hs.table.kept q hq)
        others := fun q hq hqo => (hsame q (hs.table.kept q hq) hqo).2.1 }

/-- `BlockList.append_token_ids` of a block behind full blocks. -/
theorem wp_blockListAppendTokenIds {i : ℕ} {tokenIds : List Token} (hs : Good cfg g K s)
    (hprev : ∀ o, s.table.blocks[i]? = some o → ∀ p, (s.alloc.pool o).prevBlock = some p →
      isFull cfg (s.alloc.pool p)) :
    wp (blockListAppendTokenIds cfg i tokenIds)
      (fun _ s' => ∃ o, s.table.blocks[i]? = some o ∧ Good cfg g K s' ∧ Grows K K s s' ∧
        Appending o tokenIds s s' ∧ numTokens s'.alloc.pool s.table.blocks =
          numTokens s.alloc.pool s.table.blocks + tokenIds.length)
      (fun e s' => Fails g (fun a' => Grown cfg g K s ⟨a', s'.table⟩) e s'.alloc ∨ e = .indexError)
      s := by
  unfold blockListAppendTokenIds
  simp only [wp_bind, wp_get]
  cases hi : s.table.blocks[i]? with
  | none => exact Or.inr rfl
  | some o =>
    have ho : o ∈ s.table.blocks := List.mem_of_getElem? hi
    have hnd := hs.table.nodup hs.core.chains
    have hother : ∀ {a' : PrefixCachingBlockAllocator Token Hash},
        Extended K o tokenIds s.alloc a' → ∀ q ∈ s.table.blocks, q ≠ o →
        (a'.pool q).blockId = (s.alloc.pool q).blockId := fun hext q hq hqo =>
      (hext.others q (Finset.mem_erase.mpr ⟨hqo, hs.table.kept q hq⟩)).2.2.2.2
    simp only [wp_bind, onAllocator, wp_focus, wp_get]
    refine wp_mono (wp_appendTokenIds hs.core hs.pool (hs.table.kept o ho) (hprev o hi)) ?_
      fun e a' he => Or.inl (he.mono ?_)
    · rintro _ a' ⟨hc', hp', hext, _⟩
      split
      · next hmoved =>
        simp only [wp_bind, wp_assertSome, modifyTable, wp_modify]
        refine ⟨fun _ => Or.inl Fails.assertion, fun x hx => ⟨o, rfl, ?_⟩⟩
        refine good_of_extended hs ho hc' hp' hext (idsOk_set hs.table.ids hnd hi (hother hext) ?_)
        intro y hy
        exact Option.some.inj (hy.symm.trans hx)
      · next hsame =>
        refine ⟨o, rfl, good_of_extended hs ho hc' hp' hext (idsOk_congr hs.table.ids ?_)⟩
        intro q hq
        by_cases hqo : q = o
        · rw [hqo]
          exact (not_not.mp hsame).symm
        · exact hother hext q hq hqo
    · rintro ⟨hc', hp', hext, hnone⟩
      have hids : IdsOk a'.pool s.table.blocks s.table.blockIds := by
        refine idsOk_mono hs.table.ids fun q hq y hy => ?_
        by_cases hqo : q = o
        · rw [hqo, hnone] at hy
          exact absurd hy (by simp)
        · exact (hother hext q hq hqo).symm.trans hy
      obtain ⟨hgood, hgrows, _⟩ := good_of_extended hs ho hc' hp' hext hids
      exact ⟨K, hgood, hgrows⟩

/-- The loop of `append_token_ids`. The chunks before the last one fill their blocks up. -/
theorem wp_appendTokenBlocks (chunks : List (List Token)) (i : ℕ) (hs : Good cfg g K s)
    (hprev : chunks ≠ [] → ∀ o, s.table.blocks[i]? = some o → ∀ p,
      (s.alloc.pool o).prevBlock = some p → isFull cfg (s.alloc.pool p))
    (hfirst : ∀ c rest, chunks = c :: rest → rest ≠ [] → ∀ o, s.table.blocks[i]? = some o →
      cfg.blockSize ≤ (s.alloc.pool o).tokenIds.length + c.length)
    (hrest : ∀ c ∈ chunks.tail.dropLast, c.length = cfg.blockSize) :
    wp (appendTokenBlocks cfg i chunks)
      (fun _ s' => Good cfg g K s' ∧ Grows K K s s' ∧ s'.table.blocks = s.table.blocks ∧
        s'.table.numFullSlots = s.table.numFullSlots ∧
        numTokens s'.alloc.pool s.table.blocks =
          numTokens s.alloc.pool s.table.blocks + (chunks.map List.length).sum)
      (fun e s' => Fails g (fun a' => Grown cfg g K s ⟨a', s'.table⟩) e s'.alloc ∨ e = .indexError)
      s := by
  induction chunks generalizing s i with
  | nil =>
    unfold appendTokenBlocks
    exact ⟨hs, Grows.refl K s, rfl, rfl, by simp⟩
  | cons c rest ih =>
    unfold appendTokenBlocks
    simp only [wp_bind]
    refine wp_mono (wp_blockListAppendTokenIds hs (hprev (by simp))) ?_ fun _ _ he => he
    rintro _ s₁ ⟨o, hi, hs₁, hg₁, happ, htokens⟩
    have ho : o ∈ s.table.blocks := List.mem_of_getElem? hi
    -- the block that follows stands behind `o`
    have hnext : ∀ q, s.table.blocks[i + 1]? = some q → (s.alloc.pool q).prevBlock = some o := by
      intro q hq
      rw [hs.table.linked.prev_getElem? hq, if_neg (Nat.succ_ne_zero i)]
      exact hi
    have hfull : rest ≠ [] → isFull cfg (s₁.alloc.pool o) := by
      intro hne
      have hle := hfirst c rest rfl hne o hi
      have hshort := hs₁.core.chains.short o (hs₁.table.kept o (happ.blocks ▸ ho))
      unfold isFull
      rw [happ.tokens, List.length_append] at hshort ⊢
      omega
    refine wp_mono (ih hs₁ (i := i + 1) (fun hne q hq p hqp => ?_) (fun d ds hd hne q hq => ?_)
      (fun d hd => ?_)) ?_ fun e s₂ he => ?_
    · rw [happ.blocks] at hq
      rw [happ.links q (List.mem_of_getElem? hq), hnext q hq] at hqp
      obtain rfl := Option.some.inj hqp
      exact hfull hne
    · have : d.length = cfg.blockSize := by
        refine hrest d ?_
        rw [hd, List.tail_cons, List.dropLast_cons_of_ne_nil hne]
        exact List.mem_cons_self
      omega
    · refine hrest d ?_
      rw [List.tail_cons]
      cases rest with
      | nil => exact absurd hd (by simp)
      | cons e ds =>
        rw [List.tail_cons] at hd
        cases ds with
        | nil => exact absurd hd (by simp)
        | cons f ds =>
          rw [List.dropLast_cons_of_ne_nil (by simp)]
          exact List.mem_cons_of_mem _ hd
    · intro _ s₂ h₂
      obtain ⟨hs₂, hg₂, hblocks, hslots, htokens₂⟩ := h₂
      rw [happ.blocks] at hblocks htokens₂
      refine ⟨hs₂, hg₁.trans hg₂, hblocks, hslots.trans happ.numFullSlots, ?_⟩
      rw [htokens₂, htokens, List.map_cons, List.sum_cons]
      omega
    · refine he.imp_left fun hf => hf.mono ?_
      rintro ⟨K₂, hs₂, hg₂⟩
      exact ⟨K₂, hs₂, hg₁.trans hg₂⟩

/-- `append_token_ids`. -/
theorem wp_appendTokenIds {tokenIds : List Token} {numLookaheadSlots : ℕ} (hs : Good cfg g K s) :
    wp (appendTokenIds cfg tokenIds numLookaheadSlots) (fun _ s' => Grown cfg g K s s')
      (fun e s' => Fails g (fun a' => Grown cfg g K s ⟨a', s'.table⟩) e s'.alloc ∨ e = .indexError)
      s := by
  unfold appendTokenIds
  simp only [wp_bind, wp_get, wp_assertThat]
  refine ⟨fun _ => Or.inl Fails.assertion, fun _ => ?_⟩
  refine wp_mono (wp_ensureNumEmptySlots hs) ?_ fun _ _ he => Or.inl he
  rintro _ s₁ ⟨K₁, hs₁, hg₁⟩
  have hpacked := hs₁.table.linked.packed hs₁.core.chains hs₁.table.kept
  -- a block of the table is there only if the table has blocks
  have hfilled : ∀ {i o}, s₁.table.blocks[i]? = some o →
      s₁.table.numFullSlots ≤ numTokens s₁.alloc.pool s₁.table.blocks := fun hi =>
    hs₁.table.filled (List.ne_nil_of_mem (List.mem_of_getElem? hi))
  have hloop := wp_appendTokenBlocks (chunkTokenBlocksForAppend cfg s₁.table tokenIds)
    (s₁.table.numFullSlots / cfg.blockSize) hs₁
    (fun _ o hi p hop => by
      have hprev := hs₁.table.linked.prev_getElem? hi
      rw [hop] at hprev
      split at hprev
      · exact absurd hprev (by simp)
      · next hne =>
        have hlen := hpacked.full_before cfg.blockSize_pos (hfilled hi)
          (i := s₁.table.numFullSlots / cfg.blockSize - 1) (Nat.sub_one_lt hne)
        rw [List.getElem?_map, ← hprev] at hlen
        exact Option.some.inj hlen)
    (fun c rest hc hne o hi => by
      have hpart := hpacked.partly_filled cfg.blockSize_pos (hfilled hi)
        (s₁.alloc.pool o).tokenIds.length (by rw [List.getElem?_map, hi]; rfl)
      unfold chunkTokenBlocksForAppend at hc
      split at hc
      · exact absurd hc (by simp)
      · simp only [List.cons.injEq] at hc
        obtain ⟨rfl, rfl⟩ := hc
        have hlong : tokenIds.drop
            (cfg.blockSize - s₁.table.numFullSlots % cfg.blockSize) ≠ [] := by
          intro hnil
          rw [hnil] at hne
          exact hne rfl
        have hpos := List.length_pos_iff.mpr hlong
        rw [List.length_drop] at hpos
        rw [List.length_take]
        omega)
    (fun c hc => by
      unfold chunkTokenBlocksForAppend at hc
      split at hc
      · exact absurd hc (by simp)
      · exact chunkList_full hc)
  refine wp_mono hloop ?_ fun e s₂ he => ?_
  · rintro _ s₂ ⟨hs₂, hg₂, hblocks, hslots, htokens⟩
    simp only [modifyTable, wp_modify]
    have hsum : ((chunkTokenBlocksForAppend cfg s₁.table tokenIds).map List.length).sum =
        tokenIds.length := by
      unfold chunkTokenBlocksForAppend
      split
      · next h => simp [h]
      · rw [List.map_cons, List.sum_cons, sum_length_chunkList cfg.blockSize_pos,
          ← List.length_append, List.take_append_drop]
    refine ⟨K₁, ⟨hs₂.core, hs₂.pool, { hs₂.table with filled := fun hne => ?_ }⟩,
      hg₁.trans { hg₂ with }⟩
    show s₂.table.numFullSlots + tokenIds.length ≤ numTokens s₂.alloc.pool s₂.table.blocks
    change s₂.table.blocks ≠ [] at hne
    rw [hblocks] at hne ⊢
    rw [htokens, hsum, hslots]
    have := hs₁.table.filled hne
    omega
  · refine he.imp_left fun hf => hf.mono ?_
    rintro ⟨K₂, hs₂, hg₂⟩
    exact ⟨K₂, hs₂, hg₁.trans hg₂⟩

/-! ## Forking and freeing -/

/-- `fork`: the new table is a copy, over new objects. -/
theorem wp_fork (hs : Good cfg g K s) :
    wp (fork cfg)
      (fun forked s' => ∃ K', Good cfg g K' s' ∧ Grows K K' s s' ∧ s'.table = s.table ∧
        TableOk K' s'.alloc.pool forked ∧ ∀ o ∈ forked.blocks, o ∉ K)
      (fun e _ => e = .assertionError) s := by
  unfold fork
  simp only [wp_bind, wp_get]
  cases hlast : s.table.blocks.getLast? with
  | none => rfl
  | some last =>
    simp only [wp_bind, onAllocator, wp_focus, wp_get]
    refine wp_mono (PrefixCachingBlockAllocator.wp_fork hs.core hs.pool hs.table.kept hs.table.linked
      hs.table.named hlast) ?_ fun _ _ he => he
    rintro forked a' ⟨K', hc', hp', happ, _⟩
    cases hids : forked.mapM fun o => (a'.pool o).blockId with
    | none => rfl
    | some xs =>
      simp only [wp_pure]
      have hidsOk := idsOk_of_mapM hids
      have hforked : TableOk K' a'.pool ⟨_, forked, xs, numTokens a'.pool forked⟩ :=
        tableOk_of_appended hs.core.chains happ hidsOk (le_refl _)
      have hnew : ∀ q ∈ K', q ∉ K → ∀ p ∈ K, (a'.pool q).prevBlock ≠ some p := by
        intro q hq hqK p hpK hqp
        have hqb := ((happ.mem q).mp hq).resolve_left hqK
        obtain ⟨i, hi, hqi⟩ := List.mem_iff_getElem.mp hqb
        have hprev := happ.linked.prev_getElem? (List.getElem?_eq_some_iff.mpr ⟨hi, hqi⟩)
        rw [hqp] at hprev
        split at hprev
        · exact absurd hprev (by simp)
        · exact happ.new p (List.mem_of_getElem? hprev.symm) hpK
      refine ⟨K', ⟨hc', hp', hs.table.congr happ.subset
        (fun o ho => happ.kept o (hs.table.kept o ho)) (fun q hq => (happ.kept q hq).1)
        fun q hq hqK p hpb => hnew q hq hqK p (hs.table.kept p hpb)⟩, ?_, trivial, hforked, happ.new⟩
      exact
        { sub := happ.subset
          others := fun q hq _ => happ.kept q hq
          links := fun q hq => (happ.kept q hq).1
          prevs := fun q hq hqK p hpK hqp => absurd hqp (hnew q hq hqK p hpK)
          blocks := fun o ho => Or.inl ho
          cacheNamespace := rfl }

/-- `free`. -/
theorem wp_free (hs : Good cfg g K s) :
    wp (free cfg)
      (fun _ s' => Good cfg g (K.filter (· ∉ s.table.blocks)) s' ∧ s'.table.blocks = [] ∧
        Keeps (K.filter (· ∉ s.table.blocks)) s.alloc s'.alloc)
      (fun e _ => e = .assertionError) s := by
  unfold free
  simp only [wp_bind, wp_get, onAllocator, wp_focus]
  refine wp_mono (wp_freeAll hs.core hs.pool hs.table.kept (hs.table.nodup hs.core.chains)
    hs.table.closed) ?_ fun _ _ he => he
  rintro _ a' ⟨hc', hp', hk⟩
  simp only [modifyTable, wp_modify]
  exact ⟨⟨hc', hp', ⟨trivial, by simp, by simp, by simp, List.Forall₂.nil, by simp⟩⟩, trivial, hk⟩

end BlockTable

end Ikun
