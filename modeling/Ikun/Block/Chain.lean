import Mathlib.Data.Finset.Card
import Ikun.Block.BlockTable

/-!
# Chains of blocks and their content hashes

`Block` objects refer to the block before them. `HashOf` is the content hash of a chain, as a
relation: it holds when the block and all blocks before it are full. The property `content_hash`
computes it (`wp_contentHash`) and caches it on the way.

`Chains K` says that the blocks of a set `K` of objects form chains: the block before a kept block is
kept, blocks fill from the front, and a cached hash is the hash of the chain. `holders K x` counts
the objects of `K` that stand on physical block `x`.
-/

namespace Ikun.PrefixCachingBlockAllocator

open Exec

variable {Token Hash : Type} {cfg : AllocatorConfig Token Hash}

/-! ## Content hashes -/

/-- `HashOf cfg pool o h`: block `o` and the blocks before it are full, and `h` is its hash. -/
inductive HashOf (cfg : AllocatorConfig Token Hash) (pool : ObjId → Block Token Hash) :
    ObjId → Hash → Prop
  | first {o : ObjId} : (pool o).prevBlock = none → isFull cfg (pool o) →
      HashOf cfg pool o
        (cfg.hashBlockTokens none (pool o).tokenIds (pool o).cacheNamespace)
  | next {o p : ObjId} {prevHash : Hash} : (pool o).prevBlock = some p → isFull cfg (pool o) →
      HashOf cfg pool p prevHash →
      HashOf cfg pool o
        (cfg.hashBlockTokens (some prevHash) (pool o).tokenIds (pool o).cacheNamespace)

/-- The two versions of a block may differ in the cached hash only. -/
def SameContent (b b' : Block Token Hash) : Prop :=
  b' = { b with cachedContentHash := b'.cachedContentHash }

namespace ChainLemmas

theorem sameContent_trans {b b' b'' : Block Token Hash} (h : SameContent b b')
    (h' : SameContent b' b'') : SameContent b b'' := by
  unfold SameContent at h h' ⊢
  rw [h', h]

theorem hashOf_full {pool : ObjId → Block Token Hash} {o : ObjId} {h : Hash}
    (hh : HashOf cfg pool o h) : isFull cfg (pool o) := by
  cases hh with
  | first _ hf => exact hf
  | next _ hf _ => exact hf

theorem hashOf_unique {pool : ObjId → Block Token Hash} {o : ObjId} {h h' : Hash}
    (hh : HashOf cfg pool o h) (hh' : HashOf cfg pool o h') : h = h' := by
  induction hh generalizing h' with
  | first hp _ =>
    cases hh' with
    | first _ _ => rfl
    | next hp' _ _ => rw [hp] at hp'; exact absurd hp' (by simp)
  | @next o p ph hp _ _ ih =>
    cases hh' with
    | first hp' _ => rw [hp] at hp'; exact absurd hp' (by simp)
    | @next _ p' ph' hp' _ hph' =>
      obtain rfl : p = p' := Option.some.inj (hp.symm.trans hp')
      rw [ih hph']

/-- The hash of a chain only reads the links, the tokens and the namespaces of the chain, here of a
set `K` of objects that is closed under "the block before". -/
theorem hashOf_congr {K : ObjId → Prop} {pool pool' : ObjId → Block Token Hash}
    (hK : ∀ o p, K o → (pool o).prevBlock = some p → K p)
    (hp : ∀ o, K o → (pool' o).prevBlock = (pool o).prevBlock)
    (ht : ∀ o, K o → (pool' o).tokenIds = (pool o).tokenIds)
    (hn : ∀ o, K o → (pool' o).cacheNamespace = (pool o).cacheNamespace)
    {o : ObjId} {h : Hash} (ho : K o) (hh : HashOf cfg pool o h) : HashOf cfg pool' o h := by
  induction hh with
  | @first o hprev hf =>
    rw [← ht o ho, ← hn o ho]
    refine HashOf.first ((hp o ho).trans hprev) ?_
    unfold isFull at hf ⊢
    rw [ht o ho]
    exact hf
  | @next o p ph hprev hf _ ih =>
    rw [← ht o ho, ← hn o ho]
    refine HashOf.next ((hp o ho).trans hprev) ?_ (ih (hK o p ho hprev))
    unfold isFull at hf ⊢
    rw [ht o ho]
    exact hf

theorem hashOf_sameContent {pool pool' : ObjId → Block Token Hash}
    (hs : ∀ o, SameContent (pool o) (pool' o)) {o : ObjId} {h : Hash} :
    HashOf cfg pool' o h ↔ HashOf cfg pool o h := by
  have hp : ∀ o, (pool' o).prevBlock = (pool o).prevBlock := fun o => by rw [hs o]
  have ht : ∀ o, (pool' o).tokenIds = (pool o).tokenIds := fun o => by rw [hs o]
  have hn : ∀ o, (pool' o).cacheNamespace = (pool o).cacheNamespace := fun o => by rw [hs o]
  constructor
  · exact hashOf_congr (fun _ _ _ _ => trivial) (fun o _ => (hp o).symm) (fun o _ => (ht o).symm)
      (fun o _ => (hn o).symm) trivial
  · exact hashOf_congr (fun _ _ _ _ => trivial) (fun o _ => hp o) (fun o _ => ht o)
      (fun o _ => hn o) trivial

end ChainLemmas

open ChainLemmas

/-! ## Chains -/

/-- The objects of `K` form chains of blocks. -/
structure Chains (cfg : AllocatorConfig Token Hash) (K : Finset ObjId)
    (pool : ObjId → Block Token Hash) : Prop where
  prev : ∀ o ∈ K, ∀ p, (pool o).prevBlock = some p → p ∈ K ∧ (pool p).depth < (pool o).depth
  fill : ∀ o ∈ K, ∀ p, (pool o).prevBlock = some p → (pool o).tokenIds ≠ [] →
    isFull cfg (pool p)
  short : ∀ o ∈ K, (pool o).tokenIds.length ≤ cfg.blockSize
  cached : ∀ o ∈ K, ∀ h, (pool o).cachedContentHash = some h → HashOf cfg pool o h

namespace Chains

variable {K : Finset ObjId} {pool pool' : ObjId → Block Token Hash}

/-- A block whose predecessors are full has a hash exactly when it is full. -/
theorem hashOf_of_full (hc : Chains cfg K pool) {o : ObjId} (ho : o ∈ K)
    (hf : isFull cfg (pool o)) : ∃ h, HashOf cfg pool o h := by
  have hne : (pool o).tokenIds ≠ [] := by
    intro h
    unfold isFull at hf
    rw [h] at hf
    exact absurd hf (Nat.ne_of_lt cfg.blockSize_pos)
  induction hd : (pool o).depth using Nat.strongRecOn generalizing o with
  | ind d ih =>
    cases hp : (pool o).prevBlock with
    | none => exact ⟨_, HashOf.first hp hf⟩
    | some p =>
      obtain ⟨hpK, hlt⟩ := hc.prev o ho p hp
      have hpf := hc.fill o ho p hp hne
      have hpne : (pool p).tokenIds ≠ [] := by
        intro h
        unfold isFull at hpf
        rw [h] at hpf
        exact absurd hpf (Nat.ne_of_lt cfg.blockSize_pos)
      obtain ⟨ph, hph⟩ := ih _ (hd ▸ hlt) hpK hpf hpne rfl
      exact ⟨_, HashOf.next hp hf hph⟩

/-- Only the links, the tokens, the namespaces and the cached hashes of the objects in `K` matter. -/
theorem hashOf_congr_on (hc : Chains cfg K pool)
    (heq : ∀ o ∈ K, (pool' o).prevBlock = (pool o).prevBlock ∧
      (pool' o).tokenIds = (pool o).tokenIds ∧
      (pool' o).cacheNamespace = (pool o).cacheNamespace)
    {o : ObjId} (ho : o ∈ K) {h : Hash} : HashOf cfg pool' o h ↔ HashOf cfg pool o h := by
  constructor
  · refine hashOf_congr (K := fun o => o ∈ K) (fun o p ho hp => ?_)
      (fun o ho => (heq o ho).1.symm) (fun o ho => (heq o ho).2.1.symm)
      (fun o ho => (heq o ho).2.2.symm) ho
    rw [(heq o ho).1] at hp
    exact (hc.prev o ho p hp).1
  · exact hashOf_congr (K := fun o => o ∈ K) (fun o p ho hp => (hc.prev o ho p hp).1)
      (fun o ho => (heq o ho).1) (fun o ho => (heq o ho).2.1) (fun o ho => (heq o ho).2.2) ho

theorem congr_on (hc : Chains cfg K pool)
    (heq : ∀ o ∈ K, (pool' o).prevBlock = (pool o).prevBlock ∧
      (pool' o).tokenIds = (pool o).tokenIds ∧
      (pool' o).cacheNamespace = (pool o).cacheNamespace)
    (hd : ∀ o ∈ K, (pool' o).depth = (pool o).depth)
    (hh : ∀ o ∈ K, (pool' o).cachedContentHash = (pool o).cachedContentHash) :
    Chains cfg K pool' where
  prev o ho p hp := by
    rw [(heq o ho).1] at hp
    have h := hc.prev o ho p hp
    rw [hd o ho, hd p h.1]
    exact h
  fill o ho p hp ht := by
    rw [(heq o ho).1] at hp
    rw [(heq o ho).2.1] at ht
    unfold isFull
    rw [(heq p (hc.prev o ho p hp).1).2.1]
    exact hc.fill o ho p hp ht
  short o ho := by
    rw [(heq o ho).2.1]
    exact hc.short o ho
  cached o ho h hk := by
    rw [hh o ho] at hk
    exact (hc.hashOf_congr_on heq ho).mpr (hc.cached o ho h hk)

end Chains

/-- Caching hashes keeps the chains, if every cached hash is the hash of its chain. -/
theorem Chains.sameContent {K : Finset ObjId} {pool pool' : ObjId → Block Token Hash}
    (hc : Chains cfg K pool) (hs : ∀ o, SameContent (pool o) (pool' o))
    (hcached : ∀ o ∈ K, ∀ h, (pool' o).cachedContentHash = some h → HashOf cfg pool o h) :
    Chains cfg K pool' where
  prev o ho p hp := by
    rw [hs o] at hp ⊢
    rw [hs p]
    exact hc.prev o ho p hp
  fill o ho p hp ht := by
    rw [hs o] at hp ht
    unfold isFull
    rw [hs p]
    exact hc.fill o ho p hp ht
  short o ho := by
    rw [hs o]
    exact hc.short o ho
  cached o ho h hh := (hashOf_sameContent hs).mpr (hcached o ho h hh)

/-! ## `content_hash` -/

/-- The object `a'` differs from `a` in cached hashes only, and these are right. -/
structure Rehashed (cfg : AllocatorConfig Token Hash)
    (a a' : PrefixCachingBlockAllocator Token Hash) : Prop where
  fields : a' = { a with pool := a'.pool }
  content : ∀ o, SameContent (a.pool o) (a'.pool o)
  cached : ∀ o h, (a'.pool o).cachedContentHash = some h →
    (a.pool o).cachedContentHash = some h ∨ HashOf cfg a.pool o h

namespace Rehashed

variable {a a' a'' : PrefixCachingBlockAllocator Token Hash}

theorem refl (a : PrefixCachingBlockAllocator Token Hash) : Rehashed cfg a a :=
  ⟨rfl, fun _ => rfl, fun _ _ h => Or.inl h⟩

theorem trans (h : Rehashed cfg a a') (h' : Rehashed cfg a' a'') : Rehashed cfg a a'' where
  fields := by rw [h'.fields, h.fields]
  content o := sameContent_trans (h.content o) (h'.content o)
  cached o k hk := by
    rcases h'.cached o k hk with hk | hk
    · exact h.cached o k hk
    · exact Or.inr ((hashOf_sameContent h.content).mp hk)

/-- Caching the hash of a chain. -/
theorem cache (a : PrefixCachingBlockAllocator Token Hash) {o : ObjId} {h : Hash}
    (hh : HashOf cfg a.pool o h) :
    Rehashed cfg a { a with
      pool := Function.update a.pool o { a.pool o with cachedContentHash := some h } } where
  fields := rfl
  content q := by
    unfold SameContent
    by_cases hq : q = o
    · rw [hq]
      simp only [Function.update_self]
    · simp only [Function.update_of_ne hq]
  cached q k hk := by
    by_cases hq : q = o
    · rw [hq] at hk ⊢
      simp only [Function.update_self, Option.some.injEq] at hk
      exact Or.inr (hk ▸ hh)
    · simp only [Function.update_of_ne hq] at hk
      exact Or.inl hk

end Rehashed

/-- The recursion of `content_hash` computes the hash of the chain, if there is one. -/
theorem wp_contentHashRec {K : Finset ObjId} {fuel : ℕ} {o : ObjId}
    {a : PrefixCachingBlockAllocator Token Hash} (hc : Chains cfg K a.pool) (ho : o ∈ K)
    (hfuel : (a.pool o).depth < fuel) :
    wp (contentHashRec cfg fuel o)
      (fun r a' => Rehashed cfg a a' ∧ ∀ h, r = some h ↔ HashOf cfg a.pool o h)
      (fun _ _ => False) a := by
  induction fuel generalizing o a with
  | zero => exact absurd hfuel (Nat.not_lt_zero _)
  | succ fuel ih =>
    unfold contentHashRec
    simp only [wp_bind, wp_get]
    cases hcached : (a.pool o).cachedContentHash with
    | some h =>
      have hh := hc.cached o ho h hcached
      refine ⟨Rehashed.refl a, fun h' => ?_⟩
      rw [Option.some.injEq]
      exact ⟨fun he => he ▸ hh, fun hh' => hashOf_unique hh hh'⟩
    | none =>
      by_cases hf : isFull cfg (a.pool o)
      · simp only [hf, not_true_eq_false, if_false]
        cases hp : (a.pool o).prevBlock with
        | none =>
          have hh : HashOf cfg a.pool o _ := HashOf.first hp hf
          refine ⟨Rehashed.cache a hh, fun h' => ?_⟩
          rw [Option.some.injEq]
          exact ⟨fun he => he ▸ hh, fun hh' => hashOf_unique hh hh'⟩
        | some p =>
          obtain ⟨hpK, hlt⟩ := hc.prev o ho p hp
          simp only [wp_bind]
          refine wp_mono (ih hc hpK (by omega)) ?_ (fun _ _ h => h)
          rintro r a₁ ⟨hr, hiff⟩
          cases r with
          | none =>
            refine ⟨hr, fun h' => ⟨fun he => absurd he (by simp), fun hh' => ?_⟩⟩
            -- a hash of `o` comes from one of `p`
            cases hh' with
            | first hp' _ => rw [hp] at hp'; exact absurd hp' (by simp)
            | @next _ p' ph hp' _ hph =>
              obtain rfl : p = p' := Option.some.inj (hp.symm.trans hp')
              exact absurd ((hiff ph).mpr hph) (by simp)
          | some ph =>
            have hh : HashOf cfg a.pool o _ := HashOf.next hp hf ((hiff ph).mp rfl)
            have hh₁ := (hashOf_sameContent hr.content).mpr hh
            refine ⟨hr.trans (Rehashed.cache a₁ hh₁), fun h' => ?_⟩
            rw [Option.some.injEq]
            exact ⟨fun he => he ▸ hh, fun hh' => hashOf_unique hh hh'⟩
      · simp only [hf, not_false_eq_true, if_true]
        refine ⟨Rehashed.refl a, fun h' => ⟨fun he => absurd he (by simp), fun hh' => ?_⟩⟩
        exact absurd (hashOf_full hh') hf

/-- `content_hash` never raises on a chain, and returns the hash of the chain. -/
theorem wp_contentHash {K : Finset ObjId} {o : ObjId}
    {a : PrefixCachingBlockAllocator Token Hash} (hc : Chains cfg K a.pool) (ho : o ∈ K) :
    wp (contentHash cfg o)
      (fun r a' => Rehashed cfg a a' ∧ ∀ h, r = some h ↔ HashOf cfg a.pool o h)
      (fun _ _ => False) a := by
  unfold contentHash
  simp only [wp_bind, wp_get]
  exact wp_contentHashRec hc ho (Nat.lt_succ_self _)

/-! ## Holders -/

/-- The number of objects of `K` that stand on physical block `x`. -/
def holders (K : Finset ObjId) (pool : ObjId → Block Token Hash) (x : BlockId) : ℕ :=
  (K.filter fun o => (pool o).blockId = some x).card

namespace HolderLemmas

variable {K : Finset ObjId} {pool pool' : ObjId → Block Token Hash} {o : ObjId} {x : BlockId}

theorem holders_congr (h : ∀ o ∈ K, (pool' o).blockId = (pool o).blockId) :
    holders K pool' x = holders K pool x := by
  unfold holders
  congr 1
  refine Finset.filter_congr fun o ho => ?_
  rw [h o ho]

theorem holders_insert (ho : o ∉ K) :
    holders (insert o K) pool x = holders K pool x + if (pool o).blockId = some x then 1 else 0 := by
  unfold holders
  rw [Finset.filter_insert]
  split
  · rw [Finset.card_insert_of_notMem fun h => ho (Finset.mem_filter.mp h).1]
  · rfl

theorem holders_erase (ho : o ∈ K) :
    holders K pool x =
      holders (K.erase o) pool x + if (pool o).blockId = some x then 1 else 0 := by
  rw [← holders_insert (Finset.notMem_erase o K), Finset.insert_erase ho]

/-- Moving one object to another physical block. -/
theorem holders_update (pool' : ObjId → Block Token Hash) (x : BlockId) (ho : o ∈ K)
    (h : ∀ q ∈ K, q ≠ o → (pool' q).blockId = (pool q).blockId) :
    holders K pool' x + (if (pool o).blockId = some x then 1 else 0) =
      holders K pool x + if (pool' o).blockId = some x then 1 else 0 := by
  have he : holders (K.erase o) pool' x = holders (K.erase o) pool x :=
    holders_congr fun q hq => h q (Finset.mem_of_mem_erase hq) (Finset.ne_of_mem_erase hq)
  rw [holders_erase ho, holders_erase ho, he]
  omega

/-- If one object at most stands on `x`, two that do are the same. -/
theorem eq_of_holders_le_one {q : ObjId} (h : holders K pool x ≤ 1) (ho : o ∈ K) (hq : q ∈ K)
    (hox : (pool o).blockId = some x) (hqx : (pool q).blockId = some x) : o = q :=
  Finset.card_le_one.mp h o (Finset.mem_filter.mpr ⟨ho, hox⟩) q (Finset.mem_filter.mpr ⟨hq, hqx⟩)

theorem holders_pos (ho : o ∈ K) (hx : (pool o).blockId = some x) : 0 < holders K pool x :=
  Finset.card_pos.mpr ⟨o, Finset.mem_filter.mpr ⟨ho, hx⟩⟩

end HolderLemmas

end Ikun.PrefixCachingBlockAllocator
