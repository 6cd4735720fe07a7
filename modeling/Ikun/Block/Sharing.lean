import Mathlib.Data.Set.Function
import Ikun.Block.Classes

/-!
# Sharing of physical blocks

Two sequences share a physical block when their blocks have the same content hash. The hash of a
block is a SHA-256 digest over the namespace, or the digest of the block before, and the tokens.
Here SHA-256 is any function that is injective on the byte strings in question.

* `Reachable.sharing_isolated`: blocks of two tables on the same physical block have the same
  namespace and the same tokens up to and including this block, and content hashes are equal exactly
  in this case, provided that no namespace is itself the digest of a block.
* `digest_namespace_shares`: a namespace that is the digest of a block of another table makes the
  two tables share a block with different prefixes.
-/

namespace Ikun.PrefixCachingBlockAllocator

open Exec ChainLemmas

/-! ## `hash_block_tokens` -/

/-- The characters of an ASCII byte literal. -/
def asciiBytes (s : String) : Bytes := s.toList.map fun c => UInt8.ofNat c.toNat

/-- The last `k` base-256 digits of `n`, the most significant one first. -/
def packBytes : ℕ → ℕ → Bytes
  | 0, _ => []
  | k + 1, n => packBytes k (n / 256) ++ [UInt8.ofNat (n % 256)]

/-- `struct.pack(f"!{len(token_ids)}q", *token_ids)`. -/
def packTokenIds (tokenIds : List Int64) : Bytes :=
  (tokenIds.map fun tokenId => packBytes 8 tokenId.toBitVec.toNat).flatten

/-- The byte string that `hash_block_tokens` feeds to SHA-256. -/
def hashInput (prevBlockHash : Option Bytes) (tokenIds : List Int64) (cacheNamespace : Bytes) :
    Bytes :=
  asciiBytes "vllm-prefix-cache-v2" ++ prevBlockHash.getD cacheNamespace ++ packTokenIds tokenIds

/-- An allocator with `PrefixCachingBlock.hash_block_tokens`. -/
def digestConfig (sha256 : Bytes → Bytes) (blockSize : ℕ) (hsize : 0 < blockSize)
    (blockIds : List BlockId) (hnodup : blockIds.Nodup) : AllocatorConfig Int64 Bytes where
  blockSize := blockSize
  blockSize_pos := hsize
  blockIds := blockIds
  blockIds_nodup := hnodup
  hashBlockTokens := fun prevBlockHash tokenIds cacheNamespace =>
    sha256 (hashInput prevBlockHash tokenIds cacheNamespace)

namespace DigestLemmas

@[simp] theorem length_packBytes (k n : ℕ) : (packBytes k n).length = k := by
  induction k generalizing n with
  | zero => rfl
  | succ k ih => simp [packBytes, ih]

theorem packBytes_injective {k m n : ℕ} (hm : m < 256 ^ k) (hn : n < 256 ^ k)
    (h : packBytes k m = packBytes k n) : m = n := by
  induction k generalizing m n with
  | zero =>
    rw [Nat.pow_zero] at hm hn
    omega
  | succ k ih =>
    obtain ⟨hhigh, hlow⟩ := List.append_inj h (by simp)
    rw [Nat.pow_succ] at hm hn
    have hdiv : m / 256 = n / 256 :=
      ih (Nat.div_lt_of_lt_mul (by omega)) (Nat.div_lt_of_lt_mul (by omega)) hhigh
    have hmod : m % 256 = n % 256 := by
      have hbyte := congrArg UInt8.toNat (List.head_eq_of_cons_eq hlow)
      simpa using hbyte
    omega

@[simp] theorem length_packTokenIds (tokenIds : List Int64) :
    (packTokenIds tokenIds).length = 8 * tokenIds.length := by
  induction tokenIds with
  | nil => rfl
  | cons t ts ih =>
    unfold packTokenIds at ih ⊢
    simp only [List.map_cons, List.flatten_cons, List.length_append, length_packBytes, ih,
      List.length_cons]
    omega

theorem packTokenIds_injective {ts ts' : List Int64} (hlen : ts.length = ts'.length)
    (h : packTokenIds ts = packTokenIds ts') : ts = ts' := by
  induction ts generalizing ts' with
  | nil => exact (List.length_eq_zero_iff.mp hlen.symm).symm
  | cons t ts ih =>
    cases ts' with
    | nil => exact absurd hlen (by simp)
    | cons t' ts' =>
      unfold packTokenIds at h ih
      simp only [List.map_cons, List.flatten_cons] at h
      obtain ⟨hhead, htail⟩ := List.append_inj h (by simp)
      have ht : t = t' := by
        have hlt : ∀ t : Int64, t.toBitVec.toNat < 256 ^ 8 := fun t => t.toBitVec.isLt
        have := packBytes_injective (hlt t) (hlt t') hhead
        exact Int64.toBitVec_inj.mp (BitVec.eq_of_toNat_eq this)
      rw [ht, ih (by simpa using hlen) htail]

/-- The input determines the tokens of a block, and what stands before them. -/
theorem hashInput_inj {prev prev' : Option Bytes} {ts ts' : List Int64} {ns ns' : Bytes}
    (hlen : ts.length = ts'.length) (h : hashInput prev ts ns = hashInput prev' ts' ns') :
    prev.getD ns = prev'.getD ns' ∧ ts = ts' := by
  unfold hashInput at h
  rw [List.append_assoc, List.append_assoc] at h
  have h := List.append_cancel_left h
  obtain ⟨hprev, htokens⟩ := List.append_inj' h (by simp [hlen])
  exact ⟨hprev, packTokenIds_injective hlen htokens⟩

end DigestLemmas

open DigestLemmas

/-! ## Digests of chains -/

section digests

variable {sha256 : Bytes → Bytes} {blockSize : ℕ} {hsize : 0 < blockSize}
  {blockIds : List BlockId} {hnodup : blockIds.Nodup} {pool : ObjId → Block Int64 Bytes}

/-- The hash of the block before, for a block that has a hash. -/
inductive PrevHash (cfg : AllocatorConfig Int64 Bytes) (pool : ObjId → Block Int64 Bytes)
    (o : ObjId) : Option Bytes → Prop
  | first : (pool o).prevBlock = none → PrevHash cfg pool o none
  | next {p : ObjId} {h : Bytes} : (pool o).prevBlock = some p → HashOf cfg pool p h →
      PrevHash cfg pool o (some h)

/-- The byte strings that the hashes of full blocks are the digests of. -/
def HashInputs (cfg : AllocatorConfig Int64 Bytes) (pool : ObjId → Block Int64 Bytes)
    (K : ObjId → Prop) : Set Bytes :=
  {s | ∃ o prev, K o ∧ isFull cfg (pool o) ∧ PrevHash cfg pool o prev ∧
    s = hashInput prev (pool o).tokenIds (pool o).cacheNamespace}

theorem hashOf_digest {o : ObjId} {h : Bytes}
    (hh : HashOf (digestConfig sha256 blockSize hsize blockIds hnodup) pool o h) :
    ∃ prev, PrevHash (digestConfig sha256 blockSize hsize blockIds hnodup) pool o prev ∧
      h = sha256 (hashInput prev (pool o).tokenIds (pool o).cacheNamespace) := by
  cases hh with
  | first hp _ => exact ⟨none, .first hp, rfl⟩
  | next hp _ hph => exact ⟨some _, .next hp hph, rfl⟩

variable {K : ObjId → Prop}

/-- Two blocks with one hash have the same tokens, and the same before them. -/
theorem hashOf_inj_step
    (hinj : Set.InjOn sha256
      (HashInputs (digestConfig sha256 blockSize hsize blockIds hnodup) pool K))
    {o o' : ObjId} {h : Bytes} (ho : K o) (ho' : K o')
    (hh : HashOf (digestConfig sha256 blockSize hsize blockIds hnodup) pool o h)
    (hh' : HashOf (digestConfig sha256 blockSize hsize blockIds hnodup) pool o' h) :
    (pool o).tokenIds = (pool o').tokenIds ∧ ∃ prev prev',
      PrevHash (digestConfig sha256 blockSize hsize blockIds hnodup) pool o prev ∧
      PrevHash (digestConfig sha256 blockSize hsize blockIds hnodup) pool o' prev' ∧
      prev.getD (pool o).cacheNamespace = prev'.getD (pool o').cacheNamespace := by
  obtain ⟨prev, hprev, rfl⟩ := hashOf_digest hh
  obtain ⟨prev', hprev', heq⟩ := hashOf_digest hh'
  have hf := hashOf_full hh
  have hf' := hashOf_full hh'
  have hinput := hinj ⟨o, prev, ho, hf, hprev, rfl⟩ ⟨o', prev', ho', hf', hprev', rfl⟩ heq
  obtain ⟨hbefore, htokens⟩ := hashInput_inj (Eq.trans hf (Eq.symm hf')) hinput
  exact ⟨htokens, prev, prev', hprev, hprev', hbefore⟩

end digests

end Ikun.PrefixCachingBlockAllocator

namespace Ikun.BlockTables

open Exec PrefixCachingBlockAllocator BlockTable ChainLemmas

/-! ## Blocks of tables -/

section tables

variable {Token Hash : Type} [DecidableEq Hash] {cfg : AllocatorConfig Token Hash}
  {w : BlockTables Token Hash}

/-- The `i`-th block of the table `t` of `w` is `o`, and it is full. -/
structure FullBlock (cfg : AllocatorConfig Token Hash) (w : BlockTables Token Hash)
    (t : BlockTable) (i : ℕ) (o : ObjId) : Prop where
  mem : t ∈ w.tables
  block : t.blocks[i]? = some o
  full : isFull cfg (w.alloc.pool o)

/-- The tokens of a table up to and including its `i`-th block, block by block. -/
def prefixTokens (w : BlockTables Token Hash) (t : BlockTable) (i : ℕ) : List (List Token) :=
  (t.blocks.take (i + 1)).map fun o => (w.alloc.pool o).tokenIds

/-- The value of `content_hash`. -/
def contentHashOf (cfg : AllocatorConfig Token Hash) (w : BlockTables Token Hash) (o : ObjId) :
    Option Hash :=
  match contentHash cfg o w.alloc with
  | .ok h _ => h
  | .error _ _ => none

/-- An object of some table. -/
def InTable (w : BlockTables Token Hash) (o : ObjId) : Prop := ∃ t ∈ w.tables, o ∈ t.blocks

variable {K : Finset ObjId} {t t' : BlockTable} {i j : ℕ} {o o' : ObjId} {h : Hash}

omit [DecidableEq Hash] in
theorem prefixTokens_zero (ho : t.blocks[0]? = some o) :
    prefixTokens w t 0 = [(w.alloc.pool o).tokenIds] := by
  unfold prefixTokens
  obtain ⟨q, rest, hb⟩ : ∃ q rest, t.blocks = q :: rest := by
    cases hb : t.blocks with
    | nil => rw [hb] at ho; exact absurd ho (by simp)
    | cons q rest => exact ⟨q, rest, rfl⟩
  rw [hb] at ho ⊢
  obtain rfl : q = o := by simpa using ho
  simp

omit [DecidableEq Hash] in
theorem prefixTokens_succ (ho : t.blocks[i + 1]? = some o) :
    prefixTokens w t (i + 1) = prefixTokens w t i ++ [(w.alloc.pool o).tokenIds] := by
  unfold prefixTokens
  rw [List.take_add_one, ho]
  simp

omit [DecidableEq Hash] in
theorem length_prefixTokens (ho : t.blocks[i]? = some o) :
    (prefixTokens w t i).length = i + 1 := by
  have hlt := (List.getElem?_eq_some_iff.mp ho).1
  unfold prefixTokens
  rw [List.length_map, List.length_take]
  omega

/-- What `WorldOk` says of the blocks of a table. -/
structure InChain (w : BlockTables Token Hash) (t : BlockTable) : Prop where
  mem : t ∈ w.tables
  linked : Linked w.alloc.pool none t.blocks
  named : ∀ o ∈ t.blocks, (w.alloc.pool o).cacheNamespace = t.cacheNamespace

omit [DecidableEq Hash] in
/-- The first block has no block before it. -/
theorem prevBlock_first (hl : Linked w.alloc.pool none t.blocks) (ho : t.blocks[0]? = some o) :
    (w.alloc.pool o).prevBlock = none := hl.prev_getElem? ho

omit [DecidableEq Hash] in
theorem prevBlock_succ (hl : Linked w.alloc.pool none t.blocks)
    (ho : t.blocks[i + 1]? = some o) : ∃ p, t.blocks[i]? = some p ∧
      (w.alloc.pool o).prevBlock = some p := by
  have hprev := hl.prev_getElem? ho
  have hlt : i < t.blocks.length := by
    have := (List.getElem?_eq_some_iff.mp ho).1
    omega
  obtain ⟨p, hp⟩ : ∃ p, t.blocks[i]? = some p := ⟨_, List.getElem?_eq_getElem hlt⟩
  exact ⟨p, hp, by simpa [hp] using hprev⟩

omit [DecidableEq Hash] in
/-- Equal prefixes have equal hashes. -/
theorem hashOf_of_prefixTokens (ht : InChain w t) (ht' : InChain w t')
    (hns : t.cacheNamespace = t'.cacheNamespace) (ho : t.blocks[i]? = some o)
    (ho' : t'.blocks[i]? = some o') (htokens : prefixTokens w t i = prefixTokens w t' i)
    (hh : HashOf cfg w.alloc.pool o h) : HashOf cfg w.alloc.pool o' h := by
  have hname : (w.alloc.pool o).cacheNamespace = (w.alloc.pool o').cacheNamespace := by
    rw [ht.named o (List.mem_of_getElem? ho), ht'.named o' (List.mem_of_getElem? ho'), hns]
  induction i generalizing o o' h with
  | zero =>
    rw [prefixTokens_zero ho, prefixTokens_zero ho'] at htokens
    have htok := List.head_eq_of_cons_eq htokens
    have hprev := prevBlock_first ht.linked ho
    have hprev' := prevBlock_first ht'.linked ho'
    cases hh with
    | first _ hf =>
      rw [htok, hname]
      refine HashOf.first hprev' ?_
      unfold isFull at hf ⊢
      rw [← htok]
      exact hf
    | next hp _ _ => exact absurd (hprev.symm.trans hp) (by simp)
  | succ i ih =>
    rw [prefixTokens_succ ho, prefixTokens_succ ho'] at htokens
    obtain ⟨hbefore, hlast⟩ := List.append_inj' htokens rfl
    have htok := List.head_eq_of_cons_eq hlast
    obtain ⟨p, hp, hprev⟩ := prevBlock_succ ht.linked ho
    obtain ⟨p', hp', hprev'⟩ := prevBlock_succ ht'.linked ho'
    cases hh with
    | first hnone _ => exact absurd (hprev.symm.trans hnone) (by simp)
    | @next _ q _ hq hf hph =>
      obtain rfl : q = p := Option.some.inj (hq.symm.trans hprev)
      have hpname : (w.alloc.pool q).cacheNamespace = (w.alloc.pool p').cacheNamespace := by
        rw [ht.named q (List.mem_of_getElem? hp), ht'.named p' (List.mem_of_getElem? hp'), hns]
      rw [htok, hname]
      refine HashOf.next hprev' ?_ (ih hp hp' hbefore hph hpname)
      unfold isFull at hf ⊢
      rw [← htok]
      exact hf

end tables

/-! ## Isolation -/

section isolation

variable {sha256 : Bytes → Bytes} {blockSize : ℕ} {hsize : 0 < blockSize}
  {blockIds : List BlockId} {hnodup : blockIds.Nodup} {w : BlockTables Int64 Bytes}
  {t t' : BlockTable} {i j : ℕ} {o o' : ObjId} {h : Bytes}

/-- No namespace is the digest of a block. -/
def NamespacesApart (cfg : AllocatorConfig Int64 Bytes) (w : BlockTables Int64 Bytes) : Prop :=
  ∀ t ∈ w.tables, ∀ o, InTable w o → ¬ HashOf cfg w.alloc.pool o t.cacheNamespace

/-- Blocks of tables with one hash have the same namespace and the same tokens up to here. -/
theorem prefixTokens_of_hashOf
    (hinj : Set.InjOn sha256
      (HashInputs (digestConfig sha256 blockSize hsize blockIds hnodup) w.alloc.pool (InTable w)))
    (hapart : NamespacesApart (digestConfig sha256 blockSize hsize blockIds hnodup) w)
    (ht : InChain w t) (ht' : InChain w t')
    (ho : t.blocks[i]? = some o) (ho' : t'.blocks[j]? = some o')
    (hh : HashOf (digestConfig sha256 blockSize hsize blockIds hnodup) w.alloc.pool o h)
    (hh' : HashOf (digestConfig sha256 blockSize hsize blockIds hnodup) w.alloc.pool o' h) :
    t.cacheNamespace = t'.cacheNamespace ∧ prefixTokens w t i = prefixTokens w t' j := by
  have hmem : ∀ {i o}, t.blocks[i]? = some o → InTable w o := fun ho =>
    ⟨t, ht.mem, List.mem_of_getElem? ho⟩
  have hmem' : ∀ {i o}, t'.blocks[i]? = some o → InTable w o := fun ho =>
    ⟨t', ht'.mem, List.mem_of_getElem? ho⟩
  -- the chains are compared from their last blocks
  induction i generalizing j o o' h with
  | zero =>
    obtain ⟨htok, prev, prev', hp, hp', hbefore⟩ :=
      hashOf_inj_step hinj (hmem ho) (hmem' ho') hh hh'
    rw [ht.named o (List.mem_of_getElem? ho), ht'.named o' (List.mem_of_getElem? ho')] at hbefore
    have hnone := prevBlock_first ht.linked ho
    cases hp with
    | next hsome _ => exact absurd (hnone.symm.trans hsome) (by simp)
    | first _ =>
      cases j with
      | zero =>
        have hnone' := prevBlock_first ht'.linked ho'
        cases hp' with
        | next hsome _ => exact absurd (hnone'.symm.trans hsome) (by simp)
        | first _ =>
          refine ⟨hbefore, ?_⟩
          rw [prefixTokens_zero ho, prefixTokens_zero ho', htok]
      | succ j =>
        obtain ⟨p', hpos, hprev'⟩ := prevBlock_succ ht'.linked ho'
        cases hp' with
        | first hnone' => exact absurd (hprev'.symm.trans hnone') (by simp)
        | @next q h' hq hhq =>
          obtain rfl : q = p' := Option.some.inj (hq.symm.trans hprev')
          have hns : t.cacheNamespace = h' := hbefore
          exact absurd (hns ▸ hhq) (hapart t ht.mem q (hmem' hpos))
  | succ i ih =>
    obtain ⟨htok, prev, prev', hp, hp', hbefore⟩ :=
      hashOf_inj_step hinj (hmem ho) (hmem' ho') hh hh'
    rw [ht.named o (List.mem_of_getElem? ho), ht'.named o' (List.mem_of_getElem? ho')] at hbefore
    obtain ⟨p, hpos, hprev⟩ := prevBlock_succ ht.linked ho
    cases hp with
    | first hnone => exact absurd (hprev.symm.trans hnone) (by simp)
    | @next q h₁ hq hhq =>
      obtain rfl : q = p := Option.some.inj (hq.symm.trans hprev)
      cases j with
      | zero =>
        have hnone' := prevBlock_first ht'.linked ho'
        cases hp' with
        | next hsome _ => exact absurd (hnone'.symm.trans hsome) (by simp)
        | first _ =>
          have hns : h₁ = t'.cacheNamespace := hbefore
          exact absurd (hns ▸ hhq) (hapart t' ht'.mem q (hmem hpos))
      | succ j =>
        obtain ⟨p', hpos', hprev'⟩ := prevBlock_succ ht'.linked ho'
        cases hp' with
        | first hnone' => exact absurd (hprev'.symm.trans hnone') (by simp)
        | @next q' h₂ hq' hhq' =>
          obtain rfl : q' = p' := Option.some.inj (hq'.symm.trans hprev')
          obtain rfl : h₁ = h₂ := hbefore
          obtain ⟨hns, htokens⟩ := ih hpos hpos' hhq hhq'
          refine ⟨hns, ?_⟩
          rw [prefixTokens_succ ho, prefixTokens_succ ho', htokens, htok]

/-- `content_hash` of a kept block. -/
theorem contentHashOf_eq_some_iff {cfg : AllocatorConfig Int64 Bytes} {K : Finset ObjId}
    (hc : Chains cfg K w.alloc.pool) (ho : o ∈ K) :
    contentHashOf cfg w o = some h ↔ HashOf cfg w.alloc.pool o h := by
  have hwp := wp_contentHash hc ho
  unfold contentHashOf
  cases hr : contentHash cfg o w.alloc with
  | ok r a' =>
    obtain ⟨_, hiff⟩ := of_wp_ok hwp hr
    exact hiff h
  | error e a' => exact (of_wp_error hwp hr).elim

/-- Sharing is sound and isolated: of two full blocks of tables, possibly of one table,

1. if they stand on the same physical block, their tables have the same namespace and the same
   tokens in the blocks up to and including them;
2. they have a content hash, and it is the same one exactly in this case. -/
theorem Reachable.sharing_isolated {policy : EvictionPolicy}
    {external : Option (CpuKvContentCache Bytes)}
    (h : Reachable (digestConfig sha256 blockSize hsize blockIds hnodup) policy external w)
    (hinj : Set.InjOn sha256
      (HashInputs (digestConfig sha256 blockSize hsize blockIds hnodup) w.alloc.pool (InTable w)))
    (hapart : NamespacesApart (digestConfig sha256 blockSize hsize blockIds hnodup) w)
    (ho : FullBlock (digestConfig sha256 blockSize hsize blockIds hnodup) w t i o)
    (ho' : FullBlock (digestConfig sha256 blockSize hsize blockIds hnodup) w t' j o') :
    (∀ x, (w.alloc.pool o).blockId = some x → (w.alloc.pool o').blockId = some x →
      t.cacheNamespace = t'.cacheNamespace ∧ prefixTokens w t i = prefixTokens w t' j) ∧
    contentHashOf (digestConfig sha256 blockSize hsize blockIds hnodup) w o ≠ none ∧
    (contentHashOf (digestConfig sha256 blockSize hsize blockIds hnodup) w o =
        contentHashOf (digestConfig sha256 blockSize hsize blockIds hnodup) w o' ↔
      t.cacheNamespace = t'.cacheNamespace ∧ prefixTokens w t i = prefixTokens w t' j) := by
  obtain ⟨K, hw⟩ := h.holds
  have hchain : ∀ {t}, t ∈ w.tables → InChain w t ∧ ∀ o ∈ t.blocks, o ∈ K := by
    intro t ht
    obtain ⟨k, hk⟩ := List.mem_iff_getElem?.mp ht
    have hok := hw.tables k t hk
    exact ⟨⟨ht, hok.linked, hok.named⟩, hok.kept⟩
  obtain ⟨hc, hK⟩ := hchain ho.mem
  obtain ⟨hc', hK'⟩ := hchain ho'.mem
  have hoK := hK o (List.mem_of_getElem? ho.block)
  have hoK' := hK' o' (List.mem_of_getElem? ho'.block)
  obtain ⟨k, hk⟩ := hw.core.chains.hashOf_of_full hoK ho.full
  obtain ⟨k', hk'⟩ := hw.core.chains.hashOf_of_full hoK' ho'.full
  have hv := (contentHashOf_eq_some_iff hw.core.chains hoK).mpr hk
  have hv' := (contentHashOf_eq_some_iff hw.core.chains hoK').mpr hk'
  refine ⟨fun x hx hx' => ?_, by simp [hv], ?_⟩
  · -- the content index has one hash for a physical block
    have hcached := hw.core.contents.hashed o hoK (by simp) x k hx hk
    have hcached' := hw.core.contents.hashed o' hoK' (by simp) x k' hx' hk'
    obtain rfl := hw.core.counts.cachedInj k k' x hcached hcached'
    exact prefixTokens_of_hashOf hinj hapart hc hc' ho.block ho'.block hk hk'
  · rw [hv, hv', Option.some.injEq]
    constructor
    · rintro rfl
      exact prefixTokens_of_hashOf hinj hapart hc hc' ho.block ho'.block hk hk'
    · rintro ⟨hns, htokens⟩
      have hij : i = j := by
        have hlen := congrArg List.length htokens
        rw [length_prefixTokens ho.block, length_prefixTokens ho'.block] at hlen
        omega
      subst hij
      exact hashOf_unique (hashOf_of_prefixTokens hc hc' hns ho.block ho'.block htokens hk) hk'

/-- Blocks of one token, with a function in place of SHA-256 that is injective on all byte
strings. -/
def fourBlocks : AllocatorConfig Int64 Bytes :=
  digestConfig id 1 Nat.one_pos [0, 1, 2, 3] (by decide)

def fourBlocksInit : BlockTables Int64 Bytes := BlockTables.init fourBlocks .lru none

/-- Two prompts that begin with the same token. -/
def commonFirstToken : List (Op Int64) :=
  [.new [], .allocate 0 [1, 2], .new [], .allocate 1 [1, 3]]

theorem sharing_commonFirstToken :
    let w := stateOf (runOps fourBlocks commonFirstToken fourBlocksInit)
    (w.alloc.pool 0).blockId = some 0 ∧ (w.alloc.pool 2).blockId = some 0 ∧
      prefixTokens w ⟨[], [0, 1], [0, 1], 2⟩ 0 = prefixTokens w ⟨[], [2, 3], [0, 2], 2⟩ 0 := by
  intro w
  have hns : ∀ t ∈ w.tables, t.cacheNamespace = [] := by decide +kernel
  have hx : (w.alloc.pool 0).blockId = some 0 := by decide +kernel
  have hx' : (w.alloc.pool 2).blockId = some 0 := by decide +kernel
  have hreach : Reachable fourBlocks .lru none w :=
    runOps_steps (eq_ok_of_exnOf (by decide +kernel))
  have hapart : NamespacesApart fourBlocks w := by
    intro t ht o _ hh
    obtain ⟨prev, _, heq⟩ := hashOf_digest hh
    rw [hns t ht] at heq
    exact absurd (congrArg List.length heq) (by simp [hashInput, asciiBytes])
  have hfirst : FullBlock fourBlocks w ⟨[], [0, 1], [0, 1], 2⟩ 0 0 :=
    ⟨by decide +kernel, rfl, by decide +kernel⟩
  have hsecond : FullBlock fourBlocks w ⟨[], [2, 3], [0, 2], 2⟩ 0 2 :=
    ⟨by decide +kernel, rfl, by decide +kernel⟩
  exact ⟨hx, hx',
    ((Reachable.sharing_isolated hreach (Set.injOn_id _) hapart hfirst hsecond).1 0 hx hx').2⟩

/-- A prompt, and then one whose namespace is the digest of the first block of the other. -/
def digestNamespace : List (Op Int64) :=
  [.new [], .allocate 0 [1, 2], .new (hashInput none [1] []), .allocate 1 [2]]

/-- The first block of the second table is the second block of the first table, although the
namespaces and the prefixes differ. -/
theorem digest_namespace_shares :
    ∃ w, Reachable fourBlocks .lru none w ∧
      Set.InjOn id (HashInputs fourBlocks w.alloc.pool (InTable w)) ∧
      ∃ t t' i j o o' x, FullBlock fourBlocks w t i o ∧ FullBlock fourBlocks w t' j o' ∧
        (w.alloc.pool o).blockId = some x ∧ (w.alloc.pool o').blockId = some x ∧
        t.cacheNamespace ≠ t'.cacheNamespace ∧
        prefixTokens w t i ≠ prefixTokens w t' j := by
  refine ⟨stateOf (runOps fourBlocks digestNamespace fourBlocksInit),
    runOps_steps (eq_ok_of_exnOf (by decide +kernel)), Set.injOn_id _,
    ⟨[], [0, 1], [0, 1], 2⟩, ⟨hashInput none [1] [], [2], [1], 1⟩, 1, 0, 1, 2, 1,
    ⟨by decide +kernel, rfl, by decide +kernel⟩, ⟨by decide +kernel, rfl, by decide +kernel⟩,
    by decide +kernel, by decide +kernel, by decide, by decide +kernel⟩

end isolation

end Ikun.BlockTables
