import Ikun.Block.References

/-!
# Filling and allocating blocks

The specifications of the methods that the block tables call: `append_token_ids` with copy-on-write
and promotion, `allocate_mutable_block`, and `allocate_immutable_block` with a hit, a restore from
the CPU tier, or a miss.
-/

namespace Ikun.PrefixCachingBlockAllocator

open Exec ChainLemmas HolderLemmas CoreLemmas CpuKvContentCache

variable {Token Hash : Type} [DecidableEq Hash] {cfg : AllocatorConfig Token Hash}
  {g : Prop} {K : Finset ObjId} {ids : List BlockId} {claims : List (Hash × ℕ)}
  {filling : Option ObjId} {a a' a'' : PrefixCachingBlockAllocator Token Hash}
  {o : ObjId} {x y : BlockId} {h : Hash} {tokenIds : List Token} {prevBlock : Option ObjId}
  {cacheNamespace : Bytes} {fl : InFlight Hash}

/-! ## Frames -/

/-- The tokens were appended to `o`, and the other objects of `K` stay. -/
structure Extended (K : Finset ObjId) (o : ObjId) (tokenIds : List Token)
    (a a' : PrefixCachingBlockAllocator Token Hash) : Prop where
  others : Keeps (K.erase o) a a'
  prevBlock : (a'.pool o).prevBlock = (a.pool o).prevBlock
  tokenIds : (a'.pool o).tokenIds = (a.pool o).tokenIds ++ tokenIds
  cacheNamespace : (a'.pool o).cacheNamespace = (a.pool o).cacheNamespace
  depth : (a'.pool o).depth = (a.pool o).depth

omit [DecidableEq Hash] in
/-- A move after the tokens were appended. -/
theorem Extended.moved {v : Option BlockId} (he : Extended K o tokenIds a a')
    (hothers : Keeps (K.erase o) a' a'')
    (hself : SameNode { a'.pool o with blockId := v } (a''.pool o)) :
    Extended K o tokenIds a a'' where
  others := he.others.trans hothers
  prevBlock := hself.1.trans he.prevBlock
  tokenIds := hself.2.1.trans he.tokenIds
  cacheNamespace := hself.2.2.1.trans he.cacheNamespace
  depth := hself.2.2.2.1.trans he.depth

omit [DecidableEq Hash] in
theorem SameNode.with_blockId {b b' : Block Token Hash} {v : Option BlockId} (h : SameNode b b')
    (hv : b.blockId = v) : SameNode { b with blockId := v } b' := by
  subst hv
  exact h

/-- A new object `o` in its chain, on some physical block. -/
structure Created (K : Finset ObjId) (o : ObjId) (prevBlock : Option ObjId)
    (tokenIds : List Token) (cacheNamespace : Bytes)
    (a a' : PrefixCachingBlockAllocator Token Hash) : Prop where
  new : o ∉ K
  kept : Keeps K a a'
  linked : (a'.pool o).prevBlock = prevBlock
  filled : (a'.pool o).tokenIds = tokenIds
  named : (a'.pool o).cacheNamespace = a.resolvedNamespace prevBlock cacheNamespace
  placed : (a'.pool o).blockId ≠ none

/-- An allocation that failed has left the invariant intact, and maybe new objects that no one
uses. -/
def Leaked (cfg : AllocatorConfig Token Hash) (g : Prop) (K : Finset ObjId)
    (prevBlock : Option ObjId) (a a' : PrefixCachingBlockAllocator Token Hash) : Prop :=
  ∃ K', K ⊆ K' ∧ Core cfg g K' ⟨[], [], none⟩ a' ∧ PoolOk cfg K' a' ∧ Keeps K a a' ∧
    ∀ q ∈ K', q ∉ K → (a'.pool q).prevBlock = prevBlock

/-- Hashes do not matter to a new object. -/
theorem Core.startFilling (hc : Core cfg g K ⟨ids, claims, none⟩ a) :
    Core cfg g K ⟨ids, claims, filling⟩ a where
  chains := hc.chains
  counts := hc.counts
  contents :=
    { hashed := fun o ho _ => hc.contents.hashed o ho (by simp)
      unhashed := fun o ho _ => hc.contents.unhashed o ho (by simp) }
  tier := hc.tier

/-- A new state of the CPU tier. -/
theorem Core.withExternal (newClaims : List (Hash × ℕ)) (c : CpuKvContentCache Hash)
    (hc : Core cfg g K ⟨ids, claims, filling⟩ a)
    (ht : g → NoDrop a.history → Tier cfg newClaims a c) :
    Core cfg g K ⟨ids, newClaims, filling⟩ { a with externalCache := some c } where
  chains := hc.chains
  counts := { hc.counts with }
  contents := { hc.contents with }
  tier hg hn c' hcc := by
    obtain rfl : c = c' := Option.some.inj hcc
    exact (ht hg hn).congr rfl (fun _ hx => hx) rfl

/-! ## Filling -/

/-- `NaiveBlock.append_token_ids` of the inner block. Afterwards the object is the only one on its
physical block. -/
theorem wp_naiveAppendTokenIds (hc : Core cfg g K ⟨ids, claims, none⟩ a) (hp : PoolOk cfg K a)
    (ho : o ∈ K) (hnot : ¬ isFull cfg (a.pool o))
    (hprev : ∀ p, (a.pool o).prevBlock = some p → isFull cfg (a.pool p)) :
    wp (naiveAppendTokenIds cfg o tokenIds)
      (fun _ a' => Core cfg g K ⟨ids, claims, some o⟩ a' ∧ PoolOk cfg K a' ∧
        Extended K o tokenIds a a' ∧ ((a'.pool o).blockId = none → (a.pool o).blockId = none) ∧
        ∀ x, (a'.pool o).blockId = some x → a'.refcounts x = 1 ∧ x ∉ a'.cachedBlocks.values)
      (Fails g fun a' => Core cfg g K ⟨ids, claims, none⟩ a' ∧ PoolOk cfg K a' ∧
        Extended K o tokenIds a a' ∧ (a'.pool o).blockId = none) a := by
  unfold naiveAppendTokenIds
  simp only [wp_bind, wp_get, wp_assertThat, wp_modifyBlock]
  refine ⟨fun _ => Fails.assertion, fun hlen => ?_⟩
  have hshort := hc.chains.short o ho
  have hfill := hc.fill (b := { a.pool o with tokenIds := (a.pool o).tokenIds ++ tokenIds }) ho hnot
    hprev (by rw [List.length_append]; omega) ⟨rfl, rfl, rfl, rfl, rfl⟩
  generalize hb : ({ a.pool o with tokenIds := (a.pool o).tokenIds ++ tokenIds } :
    Block Token Hash) = b at hfill ⊢
  generalize ha₁ : ({ a with pool := Function.update a.pool o b } :
    PrefixCachingBlockAllocator Token Hash) = a₁ at hfill ⊢
  have hself : a₁.pool o = b := by rw [← ha₁]; exact Function.update_self _ _ _
  have hp₁ : PoolOk cfg K a₁ := ha₁ ▸ hp.of_eq rfl rfl
  have hid₁ : (a₁.pool o).blockId = (a.pool o).blockId := by rw [hself, ← hb]
  have hext₁ : Extended K o tokenIds a a₁ := by
    refine ⟨Keeps.of_update (Finset.notMem_erase o K) (by rw [← ha₁]), ?_, ?_, ?_, ?_⟩
    all_goals rw [hself, ← hb]
  cases hx : (a.pool o).blockId with
  | none =>
    simp only [Option.isSome_none, Bool.false_eq_true, if_false, wp_pure]
    refine ⟨hfill, hp₁, hext₁, fun _ => trivial, fun x hx' => ?_⟩
    rw [hid₁, hx] at hx'
    exact absurd hx' (by simp)
  | some x =>
    have hx₁ : (a₁.pool o).blockId = some x := hid₁.trans hx
    have hpos := counts_pos_of_holder hfill.counts ho hx₁
    have hxb := hfill.counts.held x hpos
    have hvalues : x ∉ a₁.cachedBlocks.values := by
      rw [← ha₁]
      exact hc.contents.unhashed o ho (by simp) x hx hnot
    simp only [Option.isSome_some, if_true, wp_bind, cowBlockIfNotAppendable, wp_get, hx₁,
      wp_assertSome_some]
    refine (wp_refcount hxb).mpr ?_
    by_cases hone : a₁.refcounts x ≤ 1
    · simp only [hone, if_true, wp_pure, wp_modifyBlock]
      have hsame : Function.update a₁.pool o { a₁.pool o with blockId := some x } = a₁.pool := by
        rw [← hx₁]
        exact Function.update_eq_self _ _
      rw [hsame]
      refine ⟨hfill, hp₁, hext₁, fun hn => ?_, fun z hz => ?_⟩
      · exact absurd (hx₁.symm.trans hn) (by simp)
      · obtain rfl := Option.some.inj (hx₁.symm.trans hz)
        exact ⟨by omega, hvalues⟩
    · simp only [hone, if_false, wp_bind]
      refine wp_mono (wp_decrRefcountHashlessBlock hfill ho hx₁ fun _ => hvalues) ?_
        fun _ _ he => he.elim
      rintro _ a₂ ⟨hc₂, hm₂, _, _, _⟩
      have hp₂ : PoolOk cfg K a₂ := hp₁.of_eq hm₂.poolSize hm₂.freeIds
      have hext₂ := hext₁.moved hm₂.others hm₂.self
      simp only [wp_get, wp_assertThat, hm₂.blockId, not_true_eq_false, false_imp_iff, true_imp_iff,
        true_and]
      refine wp_mono (wp_allocateBlockId hc₂ hp₂) ?_ ?_
      · rintro z a₃ ⟨hc₃, hp₃, hal⟩
        simp only [wp_modify, wp_pure, wp_modifyBlock]
        have hnone₃ : (a₃.pool o).blockId = none := by rw [hal.kept o ho]; exact hm₂.blockId
        have hattach := hc₃.attach ho hnone₃
          (fun hf => absurd rfl hf) (fun hf => absurd rfl hf)
        refine ⟨hattach.metadata rfl fun _ => rfl, hp₃.of_eq rfl rfl, ?_, fun hn => ?_,
          fun w hw => ?_⟩
        · refine hext₂.moved (v := some z) ?_ ?_
          · refine (Keeps.of_eq fun q hq => hal.kept q (Finset.mem_of_mem_erase hq)).trans ?_
            exact Keeps.of_update (Finset.notMem_erase o K) rfl
          · simp only [Function.update_self, hal.kept o ho]
            exact SameNode.refl _
        · simp only [Function.update_self] at hn
          exact absurd hn (by simp)
        · simp only [Function.update_self, Option.some.injEq] at hw
          subst hw
          exact ⟨hal.single, hal.fresh⟩
      · rintro e a₃ hs
        refine Or.inr (hs.mono ?_)
        rintro rfl
        refine ⟨hc₂.stopFilling (fun z hz => ?_) (fun z hz => ?_), hp₂, hext₂, hm₂.blockId⟩
        all_goals
          rw [hm₂.blockId] at hz
          exact absurd hz (by simp)

/-- `append_token_ids` of a block whose predecessors are full. -/
theorem wp_appendTokenIds (hc : Core cfg g K ⟨ids, [], none⟩ a) (hp : PoolOk cfg K a)
    (ho : o ∈ K) (hprev : ∀ p, (a.pool o).prevBlock = some p → isFull cfg (a.pool p)) :
    wp (appendTokenIds cfg o tokenIds)
      (fun _ a' => Core cfg g K ⟨ids, [], none⟩ a' ∧ PoolOk cfg K a' ∧
        Extended K o tokenIds a a' ∧ ((a'.pool o).blockId = none → (a.pool o).blockId = none))
      (Fails g fun a' => Core cfg g K ⟨ids, [], none⟩ a' ∧ PoolOk cfg K a' ∧
        Extended K o tokenIds a a' ∧ (a'.pool o).blockId = none) a := by
  unfold appendTokenIds
  simp only [wp_bind]
  refine wp_mono (wp_contentHash hc.chains ho) ?_ fun _ _ he => he.elim
  rintro r a₁ ⟨hr, hiff⟩
  have hc₁ := hc.rehashed hr
  have hp₁ : PoolOk cfg K a₁ := by
    rw [hr.fields]
    exact hp.of_eq rfl rfl
  have hnode : SameNode (a.pool o) (a₁.pool o) := hr.keeps K o ho
  simp only [wp_assertThat, wp_get]
  refine ⟨fun _ => Fails.assertion, fun hnone => ⟨fun _ => Fails.assertion, fun _ => ?_⟩⟩
  obtain rfl : r = none := Option.isNone_iff_eq_none.mp hnone
  have hnot : ¬ isFull cfg (a₁.pool o) := by
    intro hf
    obtain ⟨h, hh⟩ := hc₁.chains.hashOf_of_full ho hf
    have := (hiff h).mpr ((hashOf_sameContent hr.content).mp hh)
    exact absurd this (by simp)
  by_cases htokens : tokenIds = []
  · simp only [htokens, if_true, wp_pure]
    refine ⟨hc₁, hp₁, ⟨(hr.keeps K).mono (Finset.erase_subset o K), hnode.1, ?_, hnode.2.2.1,
      hnode.2.2.2.1⟩, fun hn => hnode.2.2.2.2.symm.trans hn⟩
    rw [List.append_nil, hnode.2.1]
  · simp only [htokens, if_false, wp_bind]
    have hprev₁ : ∀ p, (a₁.pool o).prevBlock = some p → isFull cfg (a₁.pool p) := by
      intro p hpp
      unfold isFull
      rw [hr.content p]
      exact hprev p (hnode.1 ▸ hpp)
    have hback : ∀ {a' : PrefixCachingBlockAllocator Token Hash}, Extended K o tokenIds a₁ a' →
        Extended K o tokenIds a a' := fun he =>
      ⟨((hr.keeps K).mono (Finset.erase_subset o K)).trans he.others, he.prevBlock.trans hnode.1,
        by rw [he.tokenIds, hnode.2.1], he.cacheNamespace.trans hnode.2.2.1,
        he.depth.trans hnode.2.2.2.1⟩
    refine wp_mono (wp_naiveAppendTokenIds hc₁ hp₁ ho hnot hprev₁) ?_ fun e a' he =>
      he.mono fun h => ⟨h.1, h.2.1, hback h.2.2.1, h.2.2.2⟩
    rintro _ a₂ ⟨hc₂, hp₂, hext₂, hnone₂, hsingle⟩
    simp only [wp_modify]
    -- the number of tokens of the chain is not part of the invariant
    generalize hb : ({ a₂.pool o with
      cachedNumTokensTotal := a₂.prevNumTokensTotal (a₂.pool o).prevBlock +
        (a₂.pool o).tokenIds.length } : Block Token Hash) = b
    generalize ha₃ : ({ a₂ with pool := Function.update a₂.pool o b } :
      PrefixCachingBlockAllocator Token Hash) = a₃
    have hself : a₃.pool o = b := by rw [← ha₃]; exact Function.update_self _ _ _
    have hc₃ : Core cfg g K ⟨ids, [], some o⟩ a₃ := by
      rw [← ha₃]
      refine hc₂.congr_pool fun q _ => ?_
      by_cases hq : q = o
      · rw [hq, Function.update_self, ← hb]
        exact ⟨⟨rfl, rfl, rfl⟩, rfl, rfl, rfl⟩
      · rw [Function.update_of_ne hq]
        exact ⟨⟨rfl, rfl, rfl⟩, rfl, rfl, rfl⟩
    have hp₃ : PoolOk cfg K a₃ := ha₃ ▸ hp₂.of_eq rfl rfl
    have hid₃ : (a₃.pool o).blockId = (a₂.pool o).blockId := by rw [hself, ← hb]
    have hext₃ : Extended K o tokenIds a a₃ := by
      refine hback (hext₂.moved (v := (a₂.pool o).blockId) ?_ ?_)
      · exact Keeps.of_update (Finset.notMem_erase o K) (by rw [← ha₃])
      · rw [hself, ← hb]
        exact ⟨rfl, rfl, rfl, rfl, rfl⟩
    have hsingle₃ : ∀ x, (a₃.pool o).blockId = some x →
        a₃.refcounts x = 1 ∧ x ∉ a₃.cachedBlocks.values := by
      intro x hx
      have := hsingle x (hid₃ ▸ hx)
      rw [← ha₃]
      exact this
    refine wp_mono (wp_contentHash hc₃.chains ho) ?_ fun _ _ he => he.elim
    rintro r a₄ ⟨hr₄, hiff₄⟩
    have hc₄ := hc₃.rehashed hr₄
    have hp₄ : PoolOk cfg K a₄ := by
      rw [hr₄.fields]
      exact hp₃.of_eq rfl rfl
    have hnode₄ : SameNode (a₃.pool o) (a₄.pool o) := hr₄.keeps K o ho
    have hext₄ : Extended K o tokenIds a a₄ :=
      hext₃.moved ((hr₄.keeps K).mono (Finset.erase_subset o K)) (hnode₄.with_blockId rfl)
    have hsingle₄ : ∀ x, (a₄.pool o).blockId = some x →
        a₄.refcounts x = 1 ∧ x ∉ a₄.cachedBlocks.values := by
      intro x hx
      have := hsingle₃ x (hnode₄.2.2.2.2.symm.trans hx)
      rw [hr₄.fields]
      exact this
    cases r with
    | none =>
      simp only [wp_pure]
      refine ⟨hc₄.stopFilling (fun x _ h hh => ?_) (fun x hx _ => (hsingle₄ x hx).2), hp₄, hext₄,
        fun hn => ?_⟩
      · have := (hiff₄ h).mpr ((hashOf_sameContent hr₄.content).mp hh)
        exact absurd this (by simp)
      · rw [hnode₄.2.2.2.2, hid₃] at hn
        exact (hnode.2.2.2.2).symm.trans (hnone₂ hn)
    | some h =>
      have hh₄ : HashOf cfg a₄.pool o h :=
        (hashOf_sameContent hr₄.content).mpr ((hiff₄ h).mp rfl)
      simp only [wp_bind]
      cases hx : (a₄.pool o).blockId with
      | none =>
        -- an object without a physical block cannot be promoted
        unfold promoteToImmutableBlock
        simp only [wp_bind]
        refine wp_mono (wp_contentHash hc₄.chains ho) ?_ fun _ _ he => he.elim
        rintro r a₅ ⟨hr₅, hiff₅⟩
        obtain rfl : r = some h := (hiff₅ h).mpr hh₄
        have hx₅ : (a₅.pool o).blockId = none := (hr₅.keeps K o ho).2.2.2.2.trans hx
        simp only [wp_assertSome_some, wp_get, hx₅]
        exact Fails.assertion
      | some x =>
        obtain ⟨hone, hfresh⟩ := hsingle₄ x hx
        refine wp_mono (wp_promoteToImmutableBlock hc₄ ho hx hone hfresh hh₄) ?_
          fun _ _ he => he.elim
        rintro y a₅ ⟨hc₅, hm₅⟩
        simp only [wp_modifyBlock]
        have hsame : Function.update a₅.pool o { a₅.pool o with blockId := some y } = a₅.pool := by
          rw [← hm₅.blockId]
          exact Function.update_eq_self _ _
        rw [hsame]
        refine ⟨hc₅, hp₄.of_eq hm₅.poolSize hm₅.freeIds, hext₄.moved hm₅.others hm₅.self,
          fun hn => ?_⟩
        exact absurd (hm₅.blockId.symm.trans hn) (by simp)

/-! ## Allocating a mutable block -/

/-- `allocate_mutable_block` creates an empty object on a new block. -/
theorem wp_allocateMutableBlock (hc : Core cfg g K ⟨ids, claims, none⟩ a) (hp : PoolOk cfg K a)
    (hprev : ∀ p, prevBlock = some p → p ∈ K) :
    wp (allocateMutableBlock cfg prevBlock cacheNamespace)
      (fun o a' => Core cfg g (insert o K) ⟨ids, claims, none⟩ a' ∧ PoolOk cfg (insert o K) a' ∧
        Created K o prevBlock [] cacheNamespace a a')
      (Stops g fun a' => a' = a) a := by
  unfold allocateMutableBlock
  simp only [wp_bind]
  refine wp_mono (wp_allocateBlockId hc hp) ?_ fun _ _ h => h
  rintro x a₁ ⟨hc₁, hp₁, hal⟩
  have hxb : x ∈ cfg.blockIds := hc₁.counts.held x (by rw [hal.single]; exact Nat.one_pos)
  refine wp_mono (wp_initBlock hp₁ hprev) ?_ ?_
  · rintro o a₂ ⟨ht, hp₂, hlen, hb⟩
    have htokens : (a₂.pool o).tokenIds = [] := by rw [hb]; rfl
    have hnot : ¬ isFull cfg (a₂.pool o) := by
      unfold isFull
      rw [htokens]
      exact Nat.ne_of_lt cfg.blockSize_pos
    have hc₂ := hc₁.newObjectOn ht hb hlen
      (fun p hpp => ⟨hprev p hpp, fun hne => absurd rfl hne⟩)
      (fun h hh => absurd (hashOf_full hh) hnot)
      (fun _ => by rw [ht.fields]; exact hal.fresh)
    have hcomputed : (a₂.pool o).computed = false := by rw [hb]; rfl
    simp only [wp_get, wp_assertThat, hcomputed, not_true_eq_false, false_imp_iff, true_imp_iff,
      true_and]
    refine wp_mono (wp_contentHash hc₂.chains (Finset.mem_insert_self o K)) ?_ fun _ _ he => he.elim
    rintro r a₃ ⟨hr, hiff⟩
    obtain rfl : r = none := by
      cases r with
      | none => rfl
      | some h => exact absurd (hashOf_full ((hiff h).mp rfl)) hnot
    simp only [Option.isNone_none, not_true_eq_false, false_imp_iff, true_imp_iff,
      true_and, wp_pure]
    have hnode : SameNode (a₂.pool o) (a₃.pool o) :=
      hr.keeps (insert o K) o (Finset.mem_insert_self o K)
    refine ⟨hc₂.rehashed hr, by rw [hr.fields]; exact hp₂.of_eq rfl rfl, ht.new, ?_, ?_, ?_, ?_, ?_⟩
    · exact (Keeps.of_eq fun q hq => (ht.kept q hq).trans (hal.kept q hq)).trans (hr.keeps K)
    · rw [hnode.1, hb]
      rfl
    · rw [hnode.2.1, htokens]
    · rw [hnode.2.2.1, hb]
      show a₁.resolvedNamespace prevBlock cacheNamespace = _
      unfold resolvedNamespace inheritedNamespace
      cases prevBlock with
      | none => rfl
      | some p => simp only [hal.kept p (hprev p rfl)]
    · rw [hnode.2.2.2.2, hb]
      exact Option.some_ne_none x
  · rintro e a₂ ⟨_, hb | hlen⟩
    · rw [hb] at hxb
      exact absurd hxb (by simp)
    · exact absurd hlen (Nat.not_lt_zero _)

/-! ## Restoring a block from the CPU tier -/

/-- Giving up a claim logs nothing and raises no `NoFreeBlocksError`, whatever state the CPU tier is
in. -/
theorem wp_cancelLoad_history (h : Hash) (slot : ℕ) :
    wp (onExternalCache (CpuKvContentCache.cancelLoad h slot))
      (fun _ a' => a'.history = a.history)
      (fun e a' => e ≠ .noFreeBlocks ∧ a'.history = a.history) a := by
  unfold onExternalCache
  simp only [wp_bind, wp_get]
  cases hext : a.externalCache with
  | none => exact ⟨by simp, rfl⟩
  | some c =>
    simp only [wp_assertSome_some, wp_focus]
    exact wp_mono wp_cancelLoad_raises (fun _ _ _ => trivial) fun _ _ he => ⟨he, trivial⟩

/-- Giving up the claim after the allocation of a block failed. -/
theorem wp_cancelLoad_unallocated {slot : ℕ} {e : Exn}
    (hc : Core cfg g K ⟨ids, [(h, slot)], filling⟩ a) {c : CpuKvContentCache Hash}
    (hext : a.externalCache = some c) {I : PrefixCachingBlockAllocator Token Hash → Prop}
    (hI : ∀ a', Core cfg g K ⟨ids, [], filling⟩ a' → a'.pool = a.pool →
      a'.poolSize = a.poolSize → a'.freeIds = a.freeIds → I a')
    (hs : Stops g (fun a' => a' = a) e a') :
    wp (onExternalCache (CpuKvContentCache.cancelLoad h slot)) (fun _ a'' => Fails g I e a'')
      (fun e' a'' => Fails g I e' a'') a' := by
  by_cases hg : g ∧ NoDrop a'.history
  · obtain ⟨rfl, rfl⟩ | ⟨_, hn⟩ := hs
    · obtain ⟨c', hr, ht⟩ := (hc.tier hg.1 hg.2 c hext).cancelLoad_ok
      refine (wp_onExternalCache hext).mpr ((wp_ok hr).mpr (Or.inr (Or.inl ⟨rfl, ?_⟩)))
      exact hI _ (hc.withExternal _ _ fun _ _ => ht) rfl rfl rfl
    · exact absurd hg hn
  · obtain ⟨rfl, rfl⟩ | ⟨he, hn⟩ := hs
    · refine (wp_onExternalCache hext).mpr (wp_mono wp_cancelLoad_raises (fun _ c' _ => ?_) ?_)
      · refine Or.inr (Or.inl ⟨rfl, hI _ (hc.withExternal _ _ fun h₁ h₂ => ?_) rfl rfl rfl⟩)
        exact absurd ⟨h₁, h₂⟩ hg
      · exact fun e' c' he' => Or.inr (Or.inr ⟨he', hg⟩)
    · exact wp_mono (wp_cancelLoad_history h slot)
        (fun _ _ hh => Or.inr (Or.inr ⟨he, hh ▸ hn⟩))
        fun _ _ he' => Or.inr (Or.inr ⟨he'.1, he'.2 ▸ hn⟩)

omit [DecidableEq Hash] in
theorem wp_unlogged {handler : Method Token Hash Unit}
    {Q : Unit → PrefixCachingBlockAllocator Token Hash → Prop}
    {R : Exn → PrefixCachingBlockAllocator Token Hash → Prop} :
    wp (unlogged handler) Q R a ↔ wp handler (fun u a' => Q u { a' with history := a.history })
      (fun e a' => R e { a' with history := a.history }) a :=
  wp_focus

/-- Undoing the allocation after the load could not be staged: the handler raises no
`NoFreeBlocksError`, and the log still ends at the failed load. -/
theorem wp_undo_stageLoad (h : Hash) (slot : ℕ) {e : Exn} (hc : Core cfg g K ⟨ids, claims, filling⟩ a)
    (ho : o ∈ K) (hx : (a.pool o).blockId = some x) (hfresh : x ∉ a.cachedBlocks.values)
    (he : e ≠ .noFreeBlocks) (hn : ¬ (g ∧ NoDrop a.history))
    {I : PrefixCachingBlockAllocator Token Hash → Prop} :
    wp (unlogged do
        decrRefcountHashlessBlock cfg o
        onExternalCache (CpuKvContentCache.cancelLoad h slot)
        poolFreeBlock o)
      (fun _ a' => Fails g I e a') (fun e' a' => Fails g I e' a') a := by
  rw [wp_unlogged]
  simp only [wp_bind]
  refine wp_mono (wp_decrRefcountHashlessBlock hc ho hx fun _ => hfresh) ?_ fun _ _ h => h.elim
  rintro _ a₁ -
  refine wp_mono (wp_cancelLoad_history h slot) (fun _ a₂ _ => ?_) fun e' a₂ he' => ?_
  · exact Or.inr (Or.inr ⟨he, hn⟩)
  · exact Or.inr (Or.inr ⟨he'.1, hn⟩)

/-- The content of a claimed slot is staged for a block that the step has just allocated, and the
index receives the block. -/
theorem wp_loadClaimedBlock {slot : ℕ} (hc : Core cfg g K ⟨ids, [(h, slot)], some o⟩ a)
    (hp : PoolOk cfg K a) (ho : o ∈ K) (hx : (a.pool o).blockId = some x)
    (hone : a.refcounts x = 1) (hfresh : x ∉ a.cachedBlocks.values)
    (hh : HashOf cfg a.pool o h) (hmiss : a.cachedBlocks.get? h = none)
    (hlogged : .allocated x ∈ a.history) {c : CpuKvContentCache Hash}
    (hext : a.externalCache = some c) {I : PrefixCachingBlockAllocator Token Hash → Prop} :
    wp (loadClaimedBlock cfg o h slot x)
      (fun r a' => Core cfg g K ⟨ids, [], none⟩ a' ∧ PoolOk cfg K a' ∧ Keeps (K.erase o) a a' ∧
        SameNode (a.pool o) (a'.pool o) ∧ r = true)
      (Fails g I) a := by
  unfold loadClaimedBlock
  simp only [wp_bind, wp_onException]
  refine (wp_onExternalCache hext).mpr
    (wp_iff.mpr ⟨fun _ c' hload => ?_, fun e c' hload => ?_⟩)
  · have hcontains : a.cachedBlocks.contains h = false := Dict.contains_eq_false_iff.mpr hmiss
    simp only [wp_get, wp_raiseIf, hcontains, Bool.false_eq_true, not_false_eq_true,
      false_imp_iff, true_imp_iff, true_and, wp_modify, wp_pure]
    have henter := hc.enter (some c') [] ho hx hone hfresh hmiss hh fun hg hn c₀ hcc => by
      obtain rfl := Option.some.inj hcc
      obtain ⟨c₁, hrun, ht⟩ := (hc.tier hg hn c hext).stageLoad_ok hc.counts hlogged hfresh
      rw [hload] at hrun
      cases hrun
      exact ht
    have hmark : Core cfg g K ⟨ids, [], none⟩ { a with
        cachedBlocks := a.cachedBlocks.set h x
        externalCache := some c'
        blockTracker := Function.update a.blockTracker x
          { a.blockTracker x with computed := true } } :=
      henter.metadata rfl fun y => by by_cases hy : y = x <;> simp [hy]
    have hdone := hmark.congr_pool fun q (_ : q ∈ K) => show SamePlace (a.pool q)
      (Function.update a.pool o { a.pool o with computed := true } q) by
        by_cases hq : q = o
        · subst hq
          simp only [Function.update_self]
          exact ⟨⟨rfl, rfl, rfl⟩, rfl, rfl, rfl⟩
        · simp only [Function.update_of_ne hq]
          exact ⟨⟨rfl, rfl, rfl⟩, rfl, rfl, rfl⟩
    refine ⟨hdone, hp.of_eq rfl rfl, Keeps.of_update (Finset.notMem_erase o K) rfl, ?_, trivial⟩
    simp only [Function.update_self]
    exact SameNode.refl _
  · -- within the invariant the load would have been staged
    have he := of_wp_error wp_stageLoad_raises hload
    have hn : ¬ (g ∧ NoDrop a.history) := by
      rintro ⟨hg, hn⟩
      obtain ⟨c₁, hrun, _⟩ := (hc.tier hg hn c hext).stageLoad_ok hc.counts hlogged hfresh
      rw [hload] at hrun
      exact absurd hrun (by simp)
    exact wp_undo_stageLoad h slot (hc.withExternal [] c' fun hg hn' => absurd ⟨hg, hn'⟩ hn) ho hx
      hfresh he hn

/-- A claimed content is restored into a new block, or the claim is given up. -/
theorem wp_restoreClaimedBlock {slot : ℕ} (hc : Core cfg g K ⟨ids, [(h, slot)], none⟩ a)
    (hp : PoolOk cfg K a) (ho : o ∈ K) (hnone : (a.pool o).blockId = none)
    (hh : HashOf cfg a.pool o h) (hmiss : a.cachedBlocks.get? h = none)
    {c : CpuKvContentCache Hash} (hext : a.externalCache = some c) :
    wp (restoreClaimedBlock cfg o h slot)
      (fun r a' => Core cfg g K ⟨ids, [], none⟩ a' ∧ PoolOk cfg K a' ∧ Keeps (K.erase o) a a' ∧
        r = true ∧ ∃ x, SameNode { a.pool o with blockId := some x } (a'.pool o))
      (Fails g fun a' => Core cfg g K ⟨ids, [], none⟩ a' ∧ PoolOk cfg K a' ∧ Keeps K a a') a := by
  unfold restoreClaimedBlock
  simp only [wp_bind, wp_onException]
  refine wp_mono (wp_allocateBlockId hc hp) ?_ fun e a' hs => ?_
  · rintro x a₁ ⟨hc₁, hp₁, hal⟩
    simp only [wp_modifyBlock]
    have hnone₁ : (a₁.pool o).blockId = none := by
      rw [hal.kept o ho]
      exact hnone
    have hstart : Core cfg g K ⟨x :: ids, [(h, slot)], some o⟩ a₁ := hc₁.startFilling
    have hc₂ := hstart.attach ho hnone₁ (fun hf => absurd rfl hf) (fun hf => absurd rfl hf)
    have hkeeps : Keeps (K.erase o) a (a₁.setBlockId o (some x)) :=
      (Keeps.of_eq fun q hq => hal.kept q (Finset.mem_of_mem_erase hq)).trans
        (Keeps.of_update (Finset.notMem_erase o K) rfl)
    have hself : SameNode { a.pool o with blockId := some x }
        ((a₁.setBlockId o (some x)).pool o) := by
      rw [setBlockId_self, hal.kept o ho]
      exact SameNode.refl _
    have hh₂ : HashOf cfg (a₁.setBlockId o (some x)).pool o h := by
      rw [hashOf_setBlockId]
      refine (hc.chains.hashOf_congr_on (fun q hq => ?_) ho).mpr hh
      rw [hal.kept q hq]
      exact ⟨rfl, rfl, rfl⟩
    have hx₂ : ((a₁.setBlockId o (some x)).pool o).blockId = some x := by rw [setBlockId_self]
    obtain ⟨c₂, hext₂⟩ := Option.isSome_iff_exists.mp
      (show (a₁.setBlockId o (some x)).externalCache.isSome = true by
        show a₁.externalCache.isSome = true
        rw [hal.external, hext]
        rfl)
    refine wp_mono (wp_loadClaimedBlock hc₂ (hp₁.of_eq rfl rfl) ho hx₂ hal.single hal.fresh hh₂
      (hal.missing h hmiss) hal.logged hext₂) ?_ fun _ _ hf => hf
    rintro r a₂ ⟨hc₃, hp₃, hothers, hnode, hr⟩
    exact ⟨hc₃, hp₃, hkeeps.trans hothers, hr, x, hself.trans hnode⟩
  · refine wp_cancelLoad_unallocated hc hext (fun a'' hc' hpool hsize hfree => ?_) hs
    exact ⟨hc', hp.of_eq hsize hfree, Keeps.of_eq fun q _ => by rw [hpool]⟩

/-- `_maybe_restore_external_cached_block` of content that no GPU block holds. -/
theorem wp_maybeRestoreExternalCachedBlock (hc : Core cfg g K ⟨ids, [], none⟩ a)
    (hp : PoolOk cfg K a) (ho : o ∈ K) (hnone : (a.pool o).blockId = none)
    (hh : HashOf cfg a.pool o h) (hmiss : a.cachedBlocks.get? h = none) :
    wp (maybeRestoreExternalCachedBlock cfg o)
      (fun r a' => Core cfg g K ⟨ids, [], none⟩ a' ∧ PoolOk cfg K a' ∧
        Keeps (K.erase o) a a' ∧
        ∃ v, SameNode { a.pool o with blockId := v } (a'.pool o) ∧ (r = true ↔ v ≠ none))
      (Fails g fun a' => Core cfg g K ⟨ids, [], none⟩ a' ∧ PoolOk cfg K a' ∧ Keeps K a a') a := by
  unfold maybeRestoreExternalCachedBlock
  simp only [wp_bind, wp_get]
  cases hext : a.externalCache with
  | none =>
    simp only [Option.isNone_none, if_true, wp_pure]
    exact ⟨hc, hp, Keeps.refl _ a, none, (SameNode.refl _).with_blockId hnone, by simp⟩
  | some c =>
    simp only [Option.isNone_some, Bool.false_eq_true, if_false, wp_bind]
    refine wp_mono (wp_contentHash hc.chains ho) ?_ fun _ _ he => he.elim
    rintro r a₁ ⟨hr, hiff⟩
    obtain rfl : r = some h := (hiff h).mpr hh
    have hc₁ := hc.rehashed hr
    have hp₁ : PoolOk cfg K a₁ := by
      rw [hr.fields]
      exact hp.of_eq rfl rfl
    have hnode₁ : SameNode (a.pool o) (a₁.pool o) := hr.keeps K o ho
    have hnone₁ : (a₁.pool o).blockId = none := hnode₁.2.2.2.2.trans hnone
    have hmiss₁ : a₁.cachedBlocks.get? h = none := by
      rw [hr.fields]
      exact hmiss
    have hext₁ : a₁.externalCache = some c := by
      rw [hr.fields]
      exact hext
    have hh₁ : HashOf cfg a₁.pool o h := (hashOf_sameContent hr.content).mpr hh
    simp only [wp_assertSome_some, wp_get, wp_assertThat, hnone₁, not_true_eq_false, false_imp_iff,
      true_imp_iff, true_and]
    refine (wp_onExternalCache hext₁).mpr (wp_iff.mpr ⟨fun r c' hclaim => ?_, fun e c' hclaim => ?_⟩)
    · cases r with
      | none =>
        simp only [wp_pure]
        refine ⟨hc₁.withExternal _ _ fun hg hn => (hc₁.tier hg hn c hext₁).missed hclaim,
          hp₁.of_eq rfl rfl, (hr.keeps K).mono (Finset.erase_subset o K), none, ?_, by simp⟩
        exact hnode₁.with_blockId hnone
      | some slot =>
        have hc₂ : Core cfg g K ⟨ids, [(h, slot)], none⟩
            { a₁ with externalCache := some c' } :=
          hc₁.withExternal _ _ fun hg hn => (hc₁.tier hg hn c hext₁).claim hmiss₁ hclaim
        refine wp_mono (wp_restoreClaimedBlock hc₂ (hp₁.of_eq rfl rfl) ho hnone₁ hh₁ hmiss₁ rfl) ?_
          fun e a' hf => hf.mono fun hleft => ⟨hleft.1, hleft.2.1, (hr.keeps K).trans hleft.2.2⟩
        rintro r a₂ ⟨hc₃, hp₃, hothers, hdone, x, hself⟩
        refine ⟨hc₃, hp₃, ((hr.keeps K).mono (Finset.erase_subset o K)).trans hothers, some x, ?_,
          iff_of_true hdone (Option.some_ne_none x)⟩
        obtain ⟨h₁, h₂, h₃, h₄, _⟩ := hnode₁
        have hplaced : SameNode { a.pool o with blockId := some x }
            { a₁.pool o with blockId := some x } := ⟨h₁, h₂, h₃, h₄, rfl⟩
        exact hplaced.trans hself
    · have he := of_wp_error wp_claimLoad_raises hclaim
      refine Or.inr (Or.inr ⟨he, ?_⟩)
      rintro ⟨hg, hn⟩
      obtain ⟨r, c'', hrun⟩ := (hc₁.tier hg hn c hext₁).claimLoad_ok hmiss₁
      rw [hclaim] at hrun
      exact absurd hrun (by simp)

/-! ## Allocating an immutable block -/

/-- Giving a new object without a physical block back to the pool. -/
theorem Core.withoutNew (hc : Core cfg g (insert o K) fl a) (hnew : o ∉ K)
    (hnone : (a.pool o).blockId = none)
    (hclosed : ∀ q ∈ K, ∀ p, (a.pool q).prevBlock = some p → p ∈ K) : Core cfg g K fl a := by
  refine hc.restrict (Finset.subset_insert o K) (fun q hq hqK => ?_) hclosed
  obtain rfl : q = o := (Finset.mem_insert.mp hq).resolve_right hqK
  exact hnone

/-- A mutable block is allocated and filled. -/
theorem wp_allocateFilledBlock (hc : Core cfg g K ⟨[], [], none⟩ a) (hp : PoolOk cfg K a)
    (hprev : ∀ p, prevBlock = some p → p ∈ K ∧ isFull cfg (a.pool p)) :
    wp (allocateFilledBlock cfg prevBlock tokenIds cacheNamespace)
      (fun o a' => Core cfg g (insert o K) ⟨[], [], none⟩ a' ∧ PoolOk cfg (insert o K) a' ∧
        Created K o prevBlock tokenIds cacheNamespace a a')
      (Fails g (Leaked cfg g K prevBlock a)) a := by
  have hprevK : ∀ p, prevBlock = some p → p ∈ K := fun p hpp => (hprev p hpp).1
  unfold allocateFilledBlock
  simp only [wp_bind]
  refine wp_mono (wp_allocateMutableBlock hc hp hprevK) ?_ fun e a' hs => Or.inr (hs.mono ?_)
  · rintro o a₁ ⟨hc₁, hp₁, hcr⟩
    have hprev₁ : ∀ p, (a₁.pool o).prevBlock = some p → isFull cfg (a₁.pool p) := by
      intro p hpp
      rw [hcr.linked] at hpp
      unfold isFull
      rw [(hcr.kept p (hprevK p hpp)).2.1]
      exact (hprev p hpp).2
    have herase : (insert o K).erase o = K := Finset.erase_insert hcr.new
    refine wp_mono (wp_appendTokenIds hc₁ hp₁ (Finset.mem_insert_self o K) hprev₁) ?_
      fun e a' he => he.mono ?_
    · rintro _ a₂ ⟨hc₂, hp₂, hext, hplaced⟩
      have hothers := hext.others
      rw [herase] at hothers
      refine ⟨hc₂, hp₂, hcr.new, hcr.kept.trans hothers, hext.prevBlock.trans hcr.linked, ?_,
        hext.cacheNamespace.trans hcr.named, fun hn => hcr.placed (hplaced hn)⟩
      rw [hext.tokenIds, hcr.filled, List.nil_append]
    · rintro ⟨hc₂, hp₂, hext, _⟩
      have hothers := hext.others
      rw [herase] at hothers
      refine ⟨insert o K, Finset.subset_insert o K, hc₂, hp₂, hcr.kept.trans hothers,
        fun q hq hqK => ?_⟩
      obtain rfl : q = o := (Finset.mem_insert.mp hq).resolve_right hqK
      exact hext.prevBlock.trans hcr.linked
  · rintro rfl
    exact ⟨K, Finset.Subset.refl K, hc, hp, Keeps.refl K a', fun q hq hqK => absurd hq hqK⟩

omit [DecidableEq Hash] in
/-- What was created behind a frame was created. -/
theorem Created.behind (hcr : Created K o prevBlock tokenIds cacheNamespace a' a'')
    (hkeeps : Keeps K a a') (hprev : ∀ p, prevBlock = some p → p ∈ K) :
    Created K o prevBlock tokenIds cacheNamespace a a'' where
  new := hcr.new
  kept := hkeeps.trans hcr.kept
  linked := hcr.linked
  filled := hcr.filled
  named := by
    rw [hcr.named]
    unfold resolvedNamespace inheritedNamespace
    cases prevBlock with
    | none => rfl
    | some p => simp only [(hkeeps p (hprev p rfl)).2.2.1]
  placed := hcr.placed

theorem Leaked.behind (hl : Leaked cfg g K prevBlock a' a'') (hkeeps : Keeps K a a') :
    Leaked cfg g K prevBlock a a'' := by
  obtain ⟨K', hsub, hc, hp, hk, hnew⟩ := hl
  exact ⟨K', hsub, hc, hp, hkeeps.trans hk, hnew⟩

/-- `allocate_immutable_block` of a chunk of tokens behind full blocks. -/
theorem wp_allocateImmutableBlock (hc : Core cfg g K ⟨[], [], none⟩ a) (hp : PoolOk cfg K a)
    (hprev : ∀ p, prevBlock = some p → p ∈ K ∧ isFull cfg (a.pool p)) :
    wp (allocateImmutableBlock cfg prevBlock tokenIds cacheNamespace)
      (fun o a' => Core cfg g (insert o K) ⟨[], [], none⟩ a' ∧ PoolOk cfg (insert o K) a' ∧
        Created K o prevBlock tokenIds cacheNamespace a a')
      (Fails g (Leaked cfg g K prevBlock a)) a := by
  have hprevK : ∀ p, prevBlock = some p → p ∈ K := fun p hpp => (hprev p hpp).1
  unfold allocateImmutableBlock
  simp only [wp_bind]
  refine wp_mono (wp_initBlock hp hprevK) ?_ fun e a' he => Or.inl he.1
  rintro o a₁ ⟨ht, hp₁, hlen, hb⟩
  have hc₁ := hc.newObject ht hb hlen fun p hpp => ⟨hprevK p hpp, fun _ => (hprev p hpp).2⟩
  refine wp_mono (wp_contentHash hc₁.chains (Finset.mem_insert_self o K)) ?_ fun _ _ he => he.elim
  rintro r a₂ ⟨hr, hiff⟩
  have hc₂ := hc₁.rehashed hr
  have hp₂ : PoolOk cfg (insert o K) a₂ := by
    rw [hr.fields]
    exact hp₁.of_eq rfl rfl
  have hkeeps₂ : Keeps K a a₂ := (Keeps.of_eq ht.kept).trans (hr.keeps K)
  have hnode₂ : SameNode (a₁.pool o) (a₂.pool o) :=
    hr.keeps (insert o K) o (Finset.mem_insert_self o K)
  have hcreated : ∀ {a' : PrefixCachingBlockAllocator Token Hash} {v : Option BlockId},
      Keeps K a₂ a' → SameNode { a₂.pool o with blockId := v } (a'.pool o) → v ≠ none →
      Created K o prevBlock tokenIds cacheNamespace a a' := by
    intro a' v hk hself hv
    rw [hb] at hnode₂
    exact
      { new := ht.new
        kept := hkeeps₂.trans hk
        linked := hself.1.trans hnode₂.1
        filled := hself.2.1.trans hnode₂.2.1
        named := hself.2.2.1.trans hnode₂.2.2.1
        placed := hself.2.2.2.2 ▸ hv }
  have hnone₂ : (a₂.pool o).blockId = none := by
    rw [hnode₂.2.2.2.2, hb]
    rfl
  simp only [wp_assertSome]
  refine ⟨fun _ => Fails.assertion, fun h hrh => ?_⟩
  have hh₂ : HashOf cfg a₂.pool o h := (hashOf_sameContent hr.content).mpr ((hiff h).mp hrh)
  simp only [wp_get]
  have herase : (insert o K).erase o = K := Finset.erase_insert ht.new
  cases hcache : a₂.cachedBlocks.get? h with
  | some y =>
    simp only [wp_bind, query, wp_modify, wp_modifyBlock]
    have hc₃ : Core cfg g (insert o K) ⟨[], [], none⟩
        { a₂ with metricData := a₂.metricData.query true } := hc₂.metadata rfl fun _ => rfl
    refine wp_mono (wp_incrRefcountCachedBlock hc₃ (Finset.mem_insert_self o K) hnone₂ hh₂ hcache)
      ?_ fun _ _ he => he.elim
    rintro _ a₄ ⟨hc₄, hm₄, _⟩
    refine ⟨hc₄, hp₂.of_eq hm₄.poolSize hm₄.freeIds, hcreated ?_ hm₄.self (by simp)⟩
    have hothers := hm₄.others
    rw [herase] at hothers
    exact hothers
  | none =>
    simp only [wp_bind]
    refine wp_mono (wp_maybeRestoreExternalCachedBlock hc₂ hp₂ (Finset.mem_insert_self o K) hnone₂
      hh₂ hcache) ?_ fun e a' he => he.mono fun hleft => ?_
    · rintro r a₃ ⟨hc₃, hp₃, hothers, v, hself, hv⟩
      rw [herase] at hothers
      have hkeeps₃ : Keeps K a a₃ := hkeeps₂.trans hothers
      cases r with
      | true =>
        simp only [if_true, wp_bind, query, wp_modify, wp_pure]
        exact ⟨hc₃.metadata rfl fun _ => rfl, hp₃.of_eq rfl rfl,
          hcreated hothers hself (hv.mp rfl)⟩
      | false =>
        simp only [Bool.false_eq_true, if_false, wp_bind, query, wp_modify, wp_poolFreeBlock]
        have hvnone : v = none := by
          by_contra hne
          exact absurd (hv.mpr hne) (by simp)
        have hclosed : ∀ q ∈ K, ∀ p, (a₃.pool q).prevBlock = some p → p ∈ K := by
          intro q hq p hpp
          rw [(hkeeps₃ q hq).1] at hpp
          exact (hc.chains.prev q hq p hpp).1
        have hc₄ : Core cfg g K ⟨[], [], none⟩ { a₃ with
            metricData := a₃.metricData.query false
            freeIds := o :: a₃.freeIds } :=
          (hc₃.withoutNew ht.new (hself.2.2.2.2.trans hvnone) hclosed).metadata rfl fun _ => rfl
        have hp₄ : PoolOk cfg K { a₃ with
            metricData := a₃.metricData.query false
            freeIds := o :: a₃.freeIds } := by
          have hgiven := hp₃.give (Finset.mem_insert_self o K)
          rw [herase] at hgiven
          exact hgiven.of_eq rfl rfl
        have hprev₃ : ∀ p, prevBlock = some p → p ∈ K ∧ isFull cfg (a₃.pool p) := by
          intro p hpp
          refine ⟨hprevK p hpp, ?_⟩
          unfold isFull
          rw [(hkeeps₃ p (hprevK p hpp)).2.1]
          exact (hprev p hpp).2
        refine wp_mono (wp_allocateFilledBlock hc₄ hp₄ hprev₃) ?_
          fun e a' he => he.mono fun hleft => Leaked.behind hleft hkeeps₃
        rintro o' a₅ ⟨hc₅, hp₅, hcr⟩
        exact ⟨hc₅, hp₅, Created.behind hcr hkeeps₃ hprevK⟩
    · obtain ⟨hc', hp', hk'⟩ := hleft
      refine ⟨insert o K, Finset.subset_insert o K, hc', hp',
        hkeeps₂.trans (hk'.mono (Finset.subset_insert o K)), fun q hq hqK => ?_⟩
      obtain rfl : q = o := (Finset.mem_insert.mp hq).resolve_right hqK
      rw [(hk' q hq).1, hnode₂.1, hb]
      rfl

end Ikun.PrefixCachingBlockAllocator
