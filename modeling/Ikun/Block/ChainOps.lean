import Mathlib.Data.Finset.Union
import Ikun.Block.Allocate
import Ikun.Block.Chunks

/-!
# Operations on whole chains

A table holds a chain of objects, in order. `Linked pool none blocks` says that `blocks` is such a
chain from its first block on. Chains are allocated block by block, forked as a copy on the same
physical blocks, and freed from the front.
-/

namespace Ikun.PrefixCachingBlockAllocator

open Exec ChainLemmas HolderLemmas CoreLemmas

variable {Token Hash : Type} [DecidableEq Hash] {cfg : AllocatorConfig Token Hash}
  {g : Prop} {K K' : Finset ObjId} {a a' a'' : PrefixCachingBlockAllocator Token Hash}
  {pool pool' : ObjId → Block Token Hash} {o p : ObjId} {prevBlock : Option ObjId}
  {blocks : List ObjId} {cacheNamespace : Bytes}

/-! ## Linked lists of objects -/

/-- The objects follow each other, and the first one follows `prevBlock`. -/
def Linked (pool : ObjId → Block Token Hash) : Option ObjId → List ObjId → Prop
  | _, [] => True
  | prevBlock, o :: rest => (pool o).prevBlock = prevBlock ∧ Linked pool (some o) rest

namespace Linked

omit [DecidableEq Hash]

theorem congr (h : Linked pool prevBlock blocks)
    (heq : ∀ o ∈ blocks, (pool' o).prevBlock = (pool o).prevBlock) :
    Linked pool' prevBlock blocks := by
  induction blocks generalizing prevBlock with
  | nil => trivial
  | cons o rest ih =>
    exact ⟨(heq o List.mem_cons_self).trans h.1,
      ih h.2 fun q hq => heq q (List.mem_cons_of_mem _ hq)⟩

theorem append_one (h : Linked pool prevBlock blocks) (hne : blocks ≠ [])
    (ho : (pool o).prevBlock = blocks.getLast?) : Linked pool prevBlock (blocks ++ [o]) := by
  induction blocks generalizing prevBlock with
  | nil => exact absurd rfl hne
  | cons q rest ih =>
    cases rest with
    | nil => exact ⟨h.1, ho, trivial⟩
    | cons r rest =>
      exact ⟨h.1, ih h.2 (by simp) (by rwa [List.getLast?_cons_cons] at ho)⟩

/-- The block before the block at position `i + 1` is the block at position `i`. -/
theorem prev_getElem? (h : Linked pool prevBlock blocks) {i : ℕ} (ho : blocks[i]? = some o) :
    (pool o).prevBlock = if i = 0 then prevBlock else blocks[i - 1]? := by
  induction blocks generalizing prevBlock i with
  | nil => exact absurd ho (by simp)
  | cons q rest ih =>
    cases i with
    | zero =>
      obtain rfl : q = o := by simpa using ho
      exact h.1
    | succ i =>
      rw [List.getElem?_cons_succ] at ho
      rw [ih h.2 ho]
      cases i with
      | zero => rfl
      | succ i => simp

/-- Depths grow along the chain, so that the chain is as long as its last block says. -/
theorem length_le_depth (hc : Chains cfg K pool) (h : Linked pool prevBlock blocks)
    (hK : ∀ o ∈ blocks, o ∈ K) (hlast : blocks.getLast? = some o) :
    blocks.length ≤ (pool o).depth + 1 := by
  induction blocks generalizing prevBlock with
  | nil => exact absurd hlast (by simp)
  | cons q rest ih =>
    cases rest with
    | nil => simp
    | cons r rest =>
      -- every later block is deeper than `q`
      have hgrow : ∀ {p : ObjId} {l : List ObjId}, Linked pool (some p) l → (∀ o ∈ l, o ∈ K) →
          l.getLast? = some o → (pool p).depth + l.length ≤ (pool o).depth := by
        intro p l
        induction l generalizing p with
        | nil => intro _ _ hl; exact absurd hl (by simp)
        | cons s l ih =>
          intro hl hlK hlast
          have hlt := (hc.prev s (hlK s List.mem_cons_self) p hl.1).2
          cases l with
          | nil =>
            obtain rfl : s = o := by simpa using hlast
            exact hlt
          | cons s' l =>
            have := ih hl.2 (fun q hq => hlK q (List.mem_cons_of_mem _ hq))
              (by rwa [List.getLast?_cons_cons] at hlast)
            simp only [List.length_cons] at this ⊢
            omega
      have := hgrow h.2 (fun q hq => hK q (List.mem_cons_of_mem _ hq))
        (by rwa [List.getLast?_cons_cons] at hlast)
      simp only [List.length_cons] at this ⊢
      omega

/-- Following the links from the last block visits the chain. -/
theorem allBlocks_eq (h : Linked a.pool none blocks) (hlast : blocks.getLast? = some o) :
    ∀ {fuel : ℕ}, blocks.length ≤ fuel → allBlocks a fuel o = blocks := by
  induction blocks using List.reverseRecOn generalizing o with
  | nil => exact absurd hlast (by simp)
  | append_singleton init q ih =>
    intro fuel hfuel
    obtain rfl : q = o := by simpa using hlast
    cases fuel with
    | zero => simp at hfuel
    | succ fuel =>
      have hprev := h.prev_getElem? (i := init.length) (o := q) (by simp)
      unfold allBlocks
      cases init using List.reverseRecOn with
      | nil =>
        have : (a.pool q).prevBlock = none := by simpa using hprev
        simp [this]
      | append_singleton init' r =>
        have : (a.pool q).prevBlock = some r := by simpa using hprev
        rw [this]
        have hinit : Linked a.pool none (init' ++ [r]) := by
          clear ih hprev this hfuel hlast
          generalize init' ++ [r] = l at h
          revert h
          generalize (none : Option ObjId) = pb
          induction l generalizing pb with
          | nil => exact fun _ => trivial
          | cons s l ih => exact fun h => ⟨h.1, ih _ h.2⟩
        simp only
        rw [ih hinit (by simp) (by simpa using hfuel)]

/-- The blocks of a chain are filled from the front. -/
theorem packed (hc : Chains cfg K pool) (h : Linked pool prevBlock blocks)
    (hK : ∀ o ∈ blocks, o ∈ K) :
    Packed cfg.blockSize (blocks.map fun o => (pool o).tokenIds.length) := by
  induction blocks generalizing prevBlock with
  | nil => trivial
  | cons o rest ih =>
    have hrest := ih h.2 fun q hq => hK q (List.mem_cons_of_mem _ hq)
    refine ⟨hc.short o (hK o List.mem_cons_self), fun hlt => ?_, hrest⟩
    cases rest with
    | nil => simp
    | cons q rest =>
      have hempty : (pool q).tokenIds.length = 0 := by
        by_contra hne
        have hf := hc.fill q (hK q (by simp)) o h.2.1 fun he => hne (by rw [he]; rfl)
        exact absurd hf (Nat.ne_of_lt hlt)
      intro x hx
      simp only [List.map_cons, List.mem_cons] at hx hrest
      rcases hx with rfl | hx
      · exact hempty
      · exact hrest.2.1 (by rw [hempty]; exact cfg.blockSize_pos) x hx

end Linked

/-! ## Allocating a chain -/

/-- `blocks` are new objects, chained behind `prevBlock`, in namespace `cacheNamespace`. -/
structure Appended (K K' : Finset ObjId) (prevBlock : Option ObjId) (cacheNamespace : Bytes)
    (blocks : List ObjId) (a a' : PrefixCachingBlockAllocator Token Hash) : Prop where
  mem : ∀ o, o ∈ K' ↔ o ∈ K ∨ o ∈ blocks
  new : ∀ o ∈ blocks, o ∉ K
  kept : Keeps K a a'
  linked : Linked a'.pool prevBlock blocks
  named : ∀ o ∈ blocks, (a'.pool o).cacheNamespace = cacheNamespace
  placed : ∀ o ∈ blocks, (a'.pool o).blockId ≠ none

/-- A failed operation has left the invariant intact, and maybe new objects that no one uses. They
follow each other or `prevBlock`. -/
def LeakedChain (cfg : AllocatorConfig Token Hash) (g : Prop) (K : Finset ObjId)
    (prevBlock : Option ObjId) (a a' : PrefixCachingBlockAllocator Token Hash) : Prop :=
  ∃ K', K ⊆ K' ∧ Core cfg g K' ⟨[], [], none⟩ a' ∧ PoolOk cfg K' a' ∧ Keeps K a a' ∧
    ∀ q ∈ K', q ∉ K → ∀ p ∈ K, (a'.pool q).prevBlock = some p → prevBlock = some p

namespace Appended

omit [DecidableEq Hash]

theorem nil (K : Finset ObjId) (a : PrefixCachingBlockAllocator Token Hash) :
    Appended K K prevBlock cacheNamespace [] a a where
  mem o := by simp
  new o ho := absurd ho (by simp)
  kept := Keeps.refl K a
  linked := trivial
  named o ho := absurd ho (by simp)
  placed o ho := absurd ho (by simp)

theorem subset (h : Appended K K' prevBlock cacheNamespace blocks a a') : K ⊆ K' :=
  fun _ ho => (h.mem _).mpr (Or.inl ho)

/-- One block, and a chain behind it. -/
theorem cons {o : ObjId} (ho : o ∉ K) (hk : Keeps K a a')
    (hb : (a'.pool o).prevBlock = prevBlock ∧ (a'.pool o).cacheNamespace = cacheNamespace ∧
      (a'.pool o).blockId ≠ none)
    (h : Appended (insert o K) K' (some o) cacheNamespace blocks a' a'') :
    Appended K K' prevBlock cacheNamespace (o :: blocks) a a'' where
  mem q := by
    rw [h.mem, Finset.mem_insert, List.mem_cons]
    tauto
  new q hq hqK := by
    rcases List.mem_cons.mp hq with rfl | hq
    · exact ho hqK
    · exact h.new q hq (Finset.mem_insert_of_mem hqK)
  kept := hk.trans (h.kept.mono (Finset.subset_insert o K))
  linked := ⟨(h.kept o (Finset.mem_insert_self o K)).1.trans hb.1, h.linked⟩
  named q hq := by
    rcases List.mem_cons.mp hq with rfl | hq
    · exact (h.kept q (Finset.mem_insert_self q K)).2.2.1.trans hb.2.1
    · exact h.named q hq
  placed q hq := by
    rcases List.mem_cons.mp hq with rfl | hq
    · rw [(h.kept q (Finset.mem_insert_self q K)).2.2.2.2]
      exact hb.2.2
    · exact h.placed q hq

end Appended

omit [DecidableEq Hash] in
/-- The namespace of a block behind a block of the same namespace. -/
theorem resolvedNamespace_eq (hn : ∀ p, prevBlock = some p →
    (a.pool p).cacheNamespace = cacheNamespace) :
    a.resolvedNamespace prevBlock cacheNamespace = cacheNamespace := by
  unfold resolvedNamespace
  split
  · next he =>
    cases prevBlock with
    | none => exact he.symm
    | some p => exact hn p rfl
  · rfl

/-- `allocate_immutable_blocks` of full chunks, behind a full block of the same namespace. -/
theorem wp_allocateImmutableBlocks {chunks : List (List Token)}
    (hc : Core cfg g K ⟨[], [], none⟩ a) (hp : PoolOk cfg K a)
    (hprev : ∀ p, prevBlock = some p → p ∈ K ∧ isFull cfg (a.pool p) ∧
      (a.pool p).cacheNamespace = cacheNamespace)
    (hchunks : ∀ c ∈ chunks, c.length = cfg.blockSize) :
    wp (BlockTable.allocateImmutableBlocks cfg cacheNamespace prevBlock chunks)
      (fun blocks a' => ∃ K', Core cfg g K' ⟨[], [], none⟩ a' ∧ PoolOk cfg K' a' ∧
        Appended K K' prevBlock cacheNamespace blocks a a' ∧
        blocks.map (fun o => (a'.pool o).tokenIds) = chunks)
      (Fails g (LeakedChain cfg g K prevBlock a)) a := by
  induction chunks generalizing K prevBlock a with
  | nil =>
    unfold BlockTable.allocateImmutableBlocks
    exact ⟨K, hc, hp, Appended.nil K a, rfl⟩
  | cons c rest ih =>
    unfold BlockTable.allocateImmutableBlocks
    simp only [wp_bind]
    refine wp_mono (wp_allocateImmutableBlock hc hp fun p hpp => ⟨(hprev p hpp).1, (hprev p hpp).2.1⟩)
      ?_ fun e a' he => he.mono ?_
    · rintro o a₁ ⟨hc₁, hp₁, hcr⟩
      have hns : (a₁.pool o).cacheNamespace = cacheNamespace :=
        hcr.named.trans (resolvedNamespace_eq fun p hpp => (hprev p hpp).2.2)
      refine wp_mono (ih hc₁ hp₁ (fun p hpp => ?_)
        fun d hd => hchunks d (List.mem_cons_of_mem _ hd)) ?_ fun e a' he => he.mono ?_
      · obtain rfl := Option.some.inj hpp
        refine ⟨Finset.mem_insert_self o K, ?_, hns⟩
        unfold isFull
        rw [hcr.filled]
        exact hchunks c List.mem_cons_self
      · rintro blocks a₂ ⟨K', hc₂, hp₂, happ, hmap⟩
        simp only [wp_pure]
        refine ⟨K', hc₂, hp₂, happ.cons hcr.new hcr.kept ⟨hcr.linked, hns, hcr.placed⟩, ?_⟩
        rw [List.map_cons, hmap, (happ.kept o (Finset.mem_insert_self o K)).2.1, hcr.filled]
      · rintro ⟨K', hsub, hc₂, hp₂, hk, hleak⟩
        refine ⟨K', (Finset.subset_insert o K).trans hsub, hc₂, hp₂,
          hcr.kept.trans (hk.mono (Finset.subset_insert o K)), fun q hq hqK p hpK hqp => ?_⟩
        by_cases hqo : q = o
        · subst hqo
          rw [(hk q (Finset.mem_insert_self q K)).1, hcr.linked] at hqp
          exact hqp
        · have := hleak q hq (fun h => hqK ((Finset.mem_insert.mp h).resolve_left hqo)) p
            (Finset.mem_insert_of_mem hpK) hqp
          obtain rfl := Option.some.inj this
          exact absurd hpK hcr.new
    · rintro ⟨K', hsub, hc₂, hp₂, hk, hleak⟩
      exact ⟨K', hsub, hc₂, hp₂, hk, fun q hq hqK p _ hqp => (hleak q hq hqK).symm.trans hqp⟩

/-! ## Forking a chain -/

/-- The blocks before `o` and before its copy: none, or a block and its copy. -/
def CopiedPrev (cfg : AllocatorConfig Token Hash) (K : Finset ObjId)
    (pool : ObjId → Block Token Hash) (cacheNamespace : Bytes) (prev copied : Option ObjId) : Prop :=
  prev = none ∧ copied = none ∨ ∃ p p', prev = some p ∧ copied = some p' ∧ p ∈ K ∧ p' ∈ K ∧
    (pool p').tokenIds = (pool p).tokenIds ∧ (pool p').cacheNamespace = cacheNamespace ∧
    ∀ h, HashOf cfg pool p' h ↔ HashOf cfg pool p h

omit [DecidableEq Hash] in
theorem hashOf_of_copy {o o' : ObjId} {h : Hash} (ht : (pool o').tokenIds = (pool o).tokenIds)
    (hn : (pool o').cacheNamespace = (pool o).cacheNamespace)
    (hp : (pool o).prevBlock = none ∧ (pool o').prevBlock = none ∨
      ∃ p p', (pool o).prevBlock = some p ∧ (pool o').prevBlock = some p' ∧
        ∀ h, HashOf cfg pool p h → HashOf cfg pool p' h)
    (hh : HashOf cfg pool o h) : HashOf cfg pool o' h := by
  cases hh with
  | first hprev hf =>
    rcases hp with ⟨_, hprev'⟩ | ⟨p, p', hp, _, _⟩
    · rw [← ht, ← hn]
      refine HashOf.first hprev' ?_
      unfold isFull at hf ⊢
      rw [ht]
      exact hf
    · rw [hprev] at hp
      exact absurd hp (by simp)
  | @next _ q _ hprev hf hq =>
    rcases hp with ⟨hp, _⟩ | ⟨p, p', hp, hp', himp⟩
    · rw [hprev] at hp
      exact absurd hp (by simp)
    · obtain rfl : q = p := Option.some.inj (hprev.symm.trans hp)
      rw [← ht, ← hn]
      refine HashOf.next hp' ?_ (himp _ hq)
      unfold isFull at hf ⊢
      rw [ht]
      exact hf

omit [DecidableEq Hash] in
/-- The hashes of a chain stay when new objects come. -/
theorem Keeps.hashOf {h : Hash} (hk : Keeps K a a') (hc : Chains cfg K a.pool) (ho : o ∈ K) :
    HashOf cfg a'.pool o h ↔ HashOf cfg a.pool o h :=
  hc.hashOf_congr_on (fun q hq => ⟨(hk q hq).1, (hk q hq).2.1, (hk q hq).2.2.1⟩) ho

omit [DecidableEq Hash] in
theorem CopiedPrev.keeps {prev copied : Option ObjId}
    (h : CopiedPrev cfg K a.pool cacheNamespace prev copied) (hk : Keeps K a a')
    (hc : Chains cfg K a.pool) : CopiedPrev cfg K a'.pool cacheNamespace prev copied := by
  rcases h with h | ⟨p, p', hp, hp', hpK, hpK', ht, hn, hh⟩
  · exact Or.inl h
  · refine Or.inr ⟨p, p', hp, hp', hpK, hpK', ?_, (hk p' hpK').2.2.1.trans hn, fun h => ?_⟩
    · rw [(hk p' hpK').2.1, (hk p hpK).2.1, ht]
    · rw [hk.hashOf hc hpK', hk.hashOf hc hpK, hh]

omit [DecidableEq Hash] in
/-- A copied block has the hash of the original. -/
theorem CopiedPrev.hashOf {prev copied : Option ObjId} {o o' : ObjId} {h : Hash}
    (hcp : CopiedPrev cfg K pool cacheNamespace prev copied)
    (hp : (pool o).prevBlock = prev) (hp' : (pool o').prevBlock = copied)
    (ht : (pool o').tokenIds = (pool o).tokenIds)
    (hn : (pool o').cacheNamespace = (pool o).cacheNamespace) :
    HashOf cfg pool o' h ↔ HashOf cfg pool o h := by
  rcases hcp with ⟨rfl, rfl⟩ | ⟨p, p', rfl, rfl, _, _, _, _, hh⟩
  · exact ⟨hashOf_of_copy ht.symm hn.symm (Or.inl ⟨hp', hp⟩),
      hashOf_of_copy ht hn (Or.inl ⟨hp, hp'⟩)⟩
  · exact ⟨hashOf_of_copy ht.symm hn.symm (Or.inr ⟨p', p, hp', hp, fun h => (hh h).mp⟩),
      hashOf_of_copy ht hn (Or.inr ⟨p, p', hp, hp', fun h => (hh h).mpr⟩)⟩

/-- The loop of `fork`: a copy of the chain, on the same physical blocks. -/
theorem wp_forkBlocks {prev copied : Option ObjId} (hc : Core cfg g K ⟨[], [], none⟩ a)
    (hp : PoolOk cfg K a) (hK : ∀ o ∈ blocks, o ∈ K) (hl : Linked a.pool prev blocks)
    (hn : ∀ o ∈ blocks, (a.pool o).cacheNamespace = cacheNamespace)
    (hcp : CopiedPrev cfg K a.pool cacheNamespace prev copied) :
    wp (forkBlocks cfg copied blocks)
      (fun forked a' => ∃ K', Core cfg g K' ⟨[], [], none⟩ a' ∧ PoolOk cfg K' a' ∧
        Appended K K' copied cacheNamespace forked a a' ∧ forked.length = blocks.length)
      (fun e _ => e = .assertionError) a := by
  induction blocks generalizing K prev copied a with
  | nil =>
    unfold forkBlocks
    exact ⟨K, hc, hp, Appended.nil K a, rfl⟩
  | cons o rest ih =>
    have hoK := hK o List.mem_cons_self
    unfold forkBlocks
    simp only [wp_bind, wp_get, wp_assertSome]
    refine ⟨fun _ => trivial, fun x hx => ?_⟩
    have hpos := counts_pos_of_holder hc.counts hoK hx
    refine (wp_incr (hc.counts.held x hpos)).mpr ?_
    have hshare := hc.share hpos
    generalize ha₁ : ({ a with refcounts := Function.update a.refcounts x (a.refcounts x + 1) } :
      PrefixCachingBlockAllocator Token Hash) = a₁ at hshare
    have hpool₁ : a₁.pool = a.pool := by rw [← ha₁]
    have hp₁ : PoolOk cfg K a₁ := ha₁ ▸ hp.of_eq rfl rfl
    have hcopiedK : ∀ p, copied = some p → p ∈ K := by
      intro p hpp
      rcases hcp with ⟨_, h⟩ | ⟨_, p', _, h, _, hpK', _⟩
      · rw [h] at hpp
        exact absurd hpp (by simp)
      · obtain rfl := Option.some.inj (h.symm.trans hpp)
        exact hpK'
    simp only [wp_assertThat]
    refine ⟨fun _ => trivial, fun _ => ?_⟩
    refine wp_mono (wp_initBlock hp₁ hcopiedK) ?_ fun e a' he => he.1
    rintro o' a₂ ⟨ht, hp₂, hlen, hb⟩
    have hkeep : Keeps K a a₂ := Keeps.of_eq fun q hq => by rw [ht.kept q hq, hpool₁]
    have hns : a₁.resolvedNamespace copied (a.pool o).cacheNamespace = cacheNamespace := by
      rw [hn o List.mem_cons_self]
      refine resolvedNamespace_eq fun p hpp => ?_
      rw [hpool₁]
      rcases hcp with ⟨_, h⟩ | ⟨_, p', _, h, _, _, _, hn', _⟩
      · rw [h] at hpp
        exact absurd hpp (by simp)
      · obtain rfl := Option.some.inj (h.symm.trans hpp)
        exact hn'
    have hcp₂ := hcp.keeps hkeep hc.chains
    have hprev₂ : (a₂.pool o).prevBlock = prev := (hkeep o hoK).1.trans hl.1
    have hprev₂' : (a₂.pool o').prevBlock = copied := by rw [hb]; rfl
    have htokens₂ : (a₂.pool o').tokenIds = (a₂.pool o).tokenIds := by
      rw [hb, (hkeep o hoK).2.1]
      rfl
    have hns₂ : (a₂.pool o').cacheNamespace = cacheNamespace := by
      rw [hb]
      exact hns
    have hnso₂ : (a₂.pool o).cacheNamespace = cacheNamespace :=
      (hkeep o hoK).2.2.1.trans (hn o List.mem_cons_self)
    have hhash : ∀ h, HashOf cfg a₂.pool o' h ↔ HashOf cfg a₂.pool o h := fun h =>
      hcp₂.hashOf hprev₂ hprev₂' htokens₂ (hns₂.trans hnso₂.symm)
    have hcached₂ : a₂.cachedBlocks = a.cachedBlocks := by rw [ht.fields, ← ha₁]
    have hc₂ := hshare.newObjectOn ht hb hlen
      (fun p hpp => ⟨hcopiedK p hpp, fun hne => by
        -- a block with tokens stands behind a full one, and so does its copy
        rw [hpool₁]
        rcases hcp with ⟨_, h⟩ | ⟨q, p', hq, h, _, _, htp, _⟩
        · rw [h] at hpp
          exact absurd hpp (by simp)
        · obtain rfl := Option.some.inj (h.symm.trans hpp)
          have hf := hc.chains.fill o hoK q (hl.1.trans hq) hne
          unfold isFull at hf ⊢
          rw [htp]
          exact hf⟩)
      (fun h hh => by
        rw [hcached₂]
        exact hc.contents.hashed o hoK (by simp) x h hx
          ((hkeep.hashOf hc.chains hoK).mp ((hhash h).mp hh)))
      (fun hnot => by
        rw [hcached₂]
        refine hc.contents.unhashed o hoK (by simp) x hx fun hf => hnot ?_
        unfold isFull at hf ⊢
        rw [htokens₂, (hkeep o hoK).2.1]
        exact hf)
    have hK₂ : ∀ q ∈ rest, q ∈ K := fun q hq => hK q (List.mem_cons_of_mem _ hq)
    refine wp_mono (ih hc₂ hp₂
      (fun q hq => Finset.mem_insert_of_mem (hK₂ q hq))
      (hl.2.congr fun q hq => (hkeep q (hK₂ q hq)).1)
      (fun q hq => (hkeep q (hK₂ q hq)).2.2.1.trans (hn q (List.mem_cons_of_mem _ hq)))
      (Or.inr ⟨o, o', rfl, rfl, Finset.mem_insert_of_mem hoK, Finset.mem_insert_self o' K, htokens₂,
        hns₂, hhash⟩)) ?_ fun _ _ he => he
    rintro forked a₃ ⟨K', hc₃, hp₃, happ, hlength⟩
    simp only [wp_pure]
    refine ⟨K', hc₃, hp₃, happ.cons ht.new hkeep ⟨hprev₂', hns₂, ?_⟩, by simp [hlength]⟩
    rw [hb]
    exact Option.some_ne_none x

/-- `fork` of a chain of the same namespace. -/
theorem wp_fork (hc : Core cfg g K ⟨[], [], none⟩ a) (hp : PoolOk cfg K a)
    (hK : ∀ o ∈ blocks, o ∈ K) (hl : Linked a.pool none blocks)
    (hn : ∀ o ∈ blocks, (a.pool o).cacheNamespace = cacheNamespace)
    (hlast : blocks.getLast? = some o) :
    wp (fork cfg o)
      (fun forked a' => ∃ K', Core cfg g K' ⟨[], [], none⟩ a' ∧ PoolOk cfg K' a' ∧
        Appended K K' none cacheNamespace forked a a' ∧ forked.length = blocks.length)
      (fun e _ => e = .assertionError) a := by
  unfold fork
  simp only [wp_bind, wp_get]
  rw [hl.allBlocks_eq hlast (hl.length_le_depth hc.chains hK hlast)]
  exact wp_forkBlocks hc hp hK hl hn (Or.inl ⟨rfl, rfl⟩)

/-! ## Freeing a chain -/

/-- A table's blocks are being freed: the objects of `rest` still stand on their blocks. -/
structure Freeing (cfg : AllocatorConfig Token Hash) (g : Prop) (K : Finset ObjId)
    (blocks rest : List ObjId) (a a' : PrefixCachingBlockAllocator Token Hash) : Prop where
  core : Core cfg g K ⟨[], [], none⟩ a'
  suffix : ∃ done, blocks = done ++ rest ∧ (∀ o ∈ done, (a'.pool o).blockId = none) ∧
    a'.freeIds = done.reverse ++ a.freeIds
  poolSize : a'.poolSize = a.poolSize
  others : ∀ q ∈ K, q ∉ blocks → SameNode (a.pool q) (a'.pool q)
  links : ∀ q ∈ K, (a'.pool q).prevBlock = (a.pool q).prevBlock

/-- `free` of one block of the chain. -/
theorem wp_free_step {rest : List ObjId} (hK : ∀ o ∈ blocks, o ∈ K) (hnd : blocks.Nodup)
    (h : Freeing cfg g K blocks (o :: rest) a a') :
    wp (free cfg o) (fun _ a'' => Freeing cfg g K blocks rest a a'')
      (fun e _ => e = .assertionError) a' := by
  obtain ⟨done, hblocks, hdone, hfree⟩ := h.suffix
  have ho : o ∈ blocks := by rw [hblocks]; simp
  unfold free
  simp only [wp_bind]
  refine wp_mono (wp_freeBlockId h.core (hK o ho)) ?_ fun _ _ he => he
  rintro _ a₁ ⟨hc₁, hm₁⟩
  simp only [wp_poolFreeBlock]
  refine
    { core := hc₁.metadata rfl fun _ => rfl
      suffix := ⟨done ++ [o], by rw [hblocks]; simp, fun q hq => ?_, ?_⟩
      poolSize := hm₁.poolSize.trans h.poolSize
      others := fun q hq hqb => ?_
      links := fun q hq => ?_ }
  · rcases List.mem_append.mp hq with hqd | hq
    · have hqo : q ≠ o := by
        rintro rfl
        rw [hblocks] at hnd
        exact (List.disjoint_of_nodup_append hnd hqd List.mem_cons_self).elim
      have hqK : q ∈ K := hK q (by rw [hblocks]; exact List.mem_append_left _ hqd)
      exact (hm₁.others q (Finset.mem_erase.mpr ⟨hqo, hqK⟩)).2.2.2.2.trans (hdone q hqd)
    · obtain rfl := List.mem_singleton.mp hq
      exact hm₁.blockId
  · simp only [hm₁.freeIds, hfree, List.reverse_append, List.reverse_singleton, List.cons_append,
      List.nil_append]
  · have hqo : q ≠ o := fun he => hqb (he ▸ ho)
    exact (h.others q hq hqb).trans (hm₁.others q (Finset.mem_erase.mpr ⟨hqo, hq⟩))
  · by_cases hqo : q = o
    · subst hqo
      exact hm₁.self.1.trans (h.links q hq)
    · exact (hm₁.others q (Finset.mem_erase.mpr ⟨hqo, hq⟩)).1.trans (h.links q hq)

/-- Freeing a chain that no other object hangs on. -/
theorem wp_freeAll (hc : Core cfg g K ⟨[], [], none⟩ a) (hp : PoolOk cfg K a)
    (hK : ∀ o ∈ blocks, o ∈ K) (hnd : blocks.Nodup)
    (hclosed : ∀ q ∈ K, ∀ p ∈ blocks, (a.pool q).prevBlock = some p → q ∈ blocks) :
    wp (forM blocks (free cfg))
      (fun _ a' => Core cfg g (K.filter (· ∉ blocks)) ⟨[], [], none⟩ a' ∧
        PoolOk cfg (K.filter (· ∉ blocks)) a' ∧ Keeps (K.filter (· ∉ blocks)) a a')
      (fun e _ => e = .assertionError) a := by
  have hstart : Freeing cfg g K blocks blocks a a :=
    ⟨hc, ⟨[], rfl, by simp, rfl⟩, rfl, fun _ _ _ => SameNode.refl _, fun _ _ => rfl⟩
  refine wp_mono (wp_forM (I := fun rest a' => Freeing cfg g K blocks rest a a')
    (fun o rest a' h => wp_free_step hK hnd h) blocks a hstart) ?_ fun _ _ he => he
  intro _ a' h
  obtain ⟨done, hblocks, hdone, hfree⟩ := h.suffix
  rw [List.append_nil] at hblocks
  subst hblocks
  refine ⟨h.core.restrict (Finset.filter_subset _ K) (fun o ho hn => ?_) (fun o ho p hpp => ?_),
    ⟨?_, fun o ho => ?_, fun o ho => ?_, fun o ho => ?_, fun hb => ?_⟩, fun q hq => ?_⟩
  · refine hdone o ?_
    by_contra hd
    exact hn (Finset.mem_filter.mpr ⟨ho, by simpa using hd⟩)
  · obtain ⟨hoK, hob⟩ := Finset.mem_filter.mp ho
    rw [h.links o hoK] at hpp
    refine Finset.mem_filter.mpr ⟨(hc.chains.prev o hoK p hpp).1, ?_⟩
    exact fun hpb => hob (hclosed o hoK p hpb hpp)
  · rw [hfree]
    refine List.nodup_append.mpr ⟨List.nodup_reverse.mpr hnd, hp.freeIdsNodup, ?_⟩
    rintro o ho q hq rfl
    rw [List.mem_reverse] at ho
    exact (hp.live o (hp.keptLt o (hK o ho))).mp (hK o ho) hq
  · rw [h.poolSize]
    rw [hfree, List.mem_append, List.mem_reverse] at ho
    exact ho.elim (fun ho => hp.keptLt o (hK o ho)) (hp.freeIdsLt o)
  · rw [h.poolSize]
    exact hp.keptLt o (Finset.mem_filter.mp ho).1
  · rw [h.poolSize] at ho
    rw [Finset.mem_filter, hfree, List.mem_append, List.mem_reverse, not_or, hp.live o ho]
    tauto
  · rw [h.poolSize]
    exact hp.nonempty hb
  · obtain ⟨hqK, hqb⟩ := Finset.mem_filter.mp hq
    exact h.others q hqK hqb

/-! ## Marks -/

/-- One round of `mark_blocks_as_accessed`. -/
theorem wp_markBlockAsAccessed {now : ℚ} {x : BlockId} (hc : Core cfg g K ⟨[], [], none⟩ a)
    (hp : PoolOk cfg K a) :
    wp (markBlockAsAccessed cfg now x)
      (fun _ a' => Core cfg g K ⟨[], [], none⟩ a' ∧ PoolOk cfg K a' ∧ a'.pool = a.pool)
      (fun e _ => e = .keyError ∨ ∃ msg, e = .valueError msg) a := by
  unfold markBlockAsAccessed
  simp only [wp_bind, wp_get, wp_raiseIf]
  refine ⟨fun _ => Or.inl trivial, fun _ => ?_⟩
  by_cases hactive : (a.blockTracker x).active = true
  · simp only [hactive, if_true, wp_set]
    refine ⟨hc.metadata rfl fun y => ?_, hp.of_eq rfl rfl, trivial⟩
    by_cases hy : y = x
    · simp [hy, hactive]
    · simp [hy]
  · by_cases hmem : a.evictor.freeTable.contains x = true
    · obtain ⟨m, hm⟩ := Option.ne_none_iff_exists'.mp (Dict.contains_iff.mp hmem)
      obtain ⟨e', hrun, htable, hwf⟩ := Evictor.update_ok (t := now) hc.counts.evictorWf hm
      simp only [hactive, hmem, if_true, if_false, Bool.false_eq_true, onEvictor, wp_focus]
      refine (wp_ok hrun).mpr ⟨hc.evictorUpdated hwf fun y => ?_, hp.of_eq rfl rfl, trivial⟩
      rw [htable, Dict.get?_set]
      split
      · next hy => rw [hy, hm]; rfl
      · rfl
    · simp only [hactive, hmem, if_false, Bool.false_eq_true, wp_throw]
      exact Or.inr ⟨_, rfl⟩

/-- `mark_blocks_as_accessed`. -/
theorem wp_markBlocksAsAccessed {now : ℚ} {xs : List BlockId}
    (hc : Core cfg g K ⟨[], [], none⟩ a) (hp : PoolOk cfg K a) :
    wp (markBlocksAsAccessed cfg xs now)
      (fun _ a' => Core cfg g K ⟨[], [], none⟩ a' ∧ PoolOk cfg K a' ∧ a'.pool = a.pool)
      (fun e _ => e = .keyError ∨ ∃ msg, e = .valueError msg) a :=
  wp_forM (I := fun _ a' => Core cfg g K ⟨[], [], none⟩ a' ∧ PoolOk cfg K a' ∧ a'.pool = a.pool)
    (fun _ _ _ h => wp_mono (wp_markBlockAsAccessed h.1 h.2.1)
      (fun _ _ h' => ⟨h'.1, h'.2.1, h'.2.2.trans h.2.2⟩) fun _ _ he => he) xs a ⟨hc, hp, rfl⟩

/-- `mark_blocks_as_computed`. -/
theorem wp_markBlocksAsComputed (hc : Core cfg g K ⟨[], [], none⟩ a) (hp : PoolOk cfg K a) :
    wp markBlocksAsComputed
      (fun _ a' => Core cfg g K ⟨[], [], none⟩ a' ∧ PoolOk cfg K a' ∧ a'.pool = a.pool)
      (fun _ _ => False) a := by
  unfold markBlocksAsComputed
  simp only [wp_modify]
  refine ⟨hc.metadata rfl fun x => ?_, hp.of_eq rfl rfl, trivial⟩
  show (if x ∈ a.touchedBlocks then _ else a.blockTracker x).active = _
  split <;> rfl

end Ikun.PrefixCachingBlockAllocator
