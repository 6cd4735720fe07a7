import Ikun.Block.Moves
import Ikun.Block.Tier

/-!
# Objects and physical blocks

The specifications of the methods that take a `Block` object from the pool, that allocate a physical
block, and that take or give up a reference to one.

A method that raises does so in one of these ways. `NoFreeBlocksError` leaves the invariant intact.
Any other exception of these methods needs a CPU tier, and a block that was given up in the step
that allocated it (`Stops`). The methods of the next modules also fail assertions (`Fails`).
-/

namespace Ikun.PrefixCachingBlockAllocator

open Exec ChainLemmas HolderLemmas CoreLemmas

variable {Token Hash : Type} [DecidableEq Hash] {cfg : AllocatorConfig Token Hash}

/-! ## Outcomes -/

/-- How an allocation may raise. `g` says whether the CPU tier is within a step. -/
def Stops (g : Prop) (I : PrefixCachingBlockAllocator Token Hash → Prop) (e : Exn)
    (a : PrefixCachingBlockAllocator Token Hash) : Prop :=
  e = .noFreeBlocks ∧ I a ∨ e ≠ .noFreeBlocks ∧ ¬ (g ∧ NoDrop a.history)

/-- How a method may raise: as an allocation does, or by a failed assertion. -/
def Fails (g : Prop) (I : PrefixCachingBlockAllocator Token Hash → Prop) (e : Exn)
    (a : PrefixCachingBlockAllocator Token Hash) : Prop :=
  e = .assertionError ∨ Stops g I e a

/-- The two versions of a block agree, apart from its caches and its metadata. -/
def SameNode (b b' : Block Token Hash) : Prop :=
  b'.prevBlock = b.prevBlock ∧ b'.tokenIds = b.tokenIds ∧ b'.cacheNamespace = b.cacheNamespace ∧
    b'.depth = b.depth ∧ b'.blockId = b.blockId

/-- The objects of `K` stay as they are. -/
def Keeps (K : Finset ObjId) (a a' : PrefixCachingBlockAllocator Token Hash) : Prop :=
  ∀ q ∈ K, SameNode (a.pool q) (a'.pool q)

section outcomes

variable {g : Prop} {I I' : PrefixCachingBlockAllocator Token Hash → Prop} {e : Exn}
  {K K' : Finset ObjId} {a a' a'' : PrefixCachingBlockAllocator Token Hash} {o : ObjId}

omit [DecidableEq Hash]

theorem Stops.mono (h : Stops g I e a) (hI : I a → I' a) : Stops g I' e a :=
  h.imp_left fun h => ⟨h.1, hI h.2⟩

theorem Fails.mono (h : Fails g I e a) (hI : I a → I' a) : Fails g I' e a :=
  h.imp_right fun h => h.mono hI

theorem Fails.assertion : Fails g I .assertionError a := Or.inl rfl

theorem SameNode.refl (b : Block Token Hash) : SameNode b b := ⟨rfl, rfl, rfl, rfl, rfl⟩

theorem SameNode.trans {b b' b'' : Block Token Hash} (h : SameNode b b') (h' : SameNode b' b'') :
    SameNode b b'' := by
  obtain ⟨h₁, h₂, h₃, h₄, h₅⟩ := h
  obtain ⟨h₁', h₂', h₃', h₄', h₅'⟩ := h'
  exact ⟨h₁'.trans h₁, h₂'.trans h₂, h₃'.trans h₃, h₄'.trans h₄, h₅'.trans h₅⟩

theorem Keeps.refl (K : Finset ObjId) (a : PrefixCachingBlockAllocator Token Hash) : Keeps K a a :=
  fun _ _ => SameNode.refl _

theorem Keeps.trans (h : Keeps K a a') (h' : Keeps K a' a'') : Keeps K a a'' :=
  fun q hq => (h q hq).trans (h' q hq)

theorem Keeps.mono (h : Keeps K a a') (hK : K' ⊆ K) : Keeps K' a a' := fun q hq => h q (hK hq)

theorem Keeps.of_eq (h : ∀ q ∈ K, a'.pool q = a.pool q) : Keeps K a a' :=
  fun q hq => by rw [h q hq]; exact SameNode.refl _

/-- Changing an object that is not in `K`. -/
theorem Keeps.of_update {b : Block Token Hash} (ho : o ∉ K)
    (h : a'.pool = Function.update a.pool o b) : Keeps K a a' :=
  Keeps.of_eq fun q hq => by
    rw [h, Function.update_of_ne]
    exact fun he => ho (he ▸ hq)

theorem Rehashed.keeps (h : Rehashed cfg a a') (K : Finset ObjId) : Keeps K a a' :=
  fun q _ => by
    rw [h.content q]
    exact ⟨rfl, rfl, rfl, rfl, rfl⟩

end outcomes

/-! ## Statements -/

section statements

variable {σ α : Type} {s : σ} {R : Exn → σ → Prop}

@[simp] theorem wp_assertThat {Q : Unit → σ → Prop} {c : Prop} [Decidable c] :
    wp (assertThat c) Q R s ↔ (¬ c → R .assertionError s) ∧ (c → Q () s) := by
  unfold assertThat
  rw [wp_raiseIf, not_not]

theorem wp_assertSome_some {Q : α → σ → Prop} (v : α) : wp (assertSome (some v)) Q R s ↔ Q v s :=
  Iff.rfl

theorem wp_assertSome {Q : α → σ → Prop} {r : Option α} :
    wp (assertSome r) Q R s ↔ (r = none → R .assertionError s) ∧ (∀ v, r = some v → Q v s) := by
  cases r with
  | none => exact ⟨fun h => ⟨fun _ => h, fun v hv => absurd hv (by simp)⟩, fun h => h.1 rfl⟩
  | some v =>
    exact ⟨fun h => ⟨fun he => absurd he (by simp), fun w hw => Option.some.inj hw ▸ h⟩,
      fun h => h.2 v rfl⟩

@[simp] theorem wp_discard {Q : Unit → σ → Prop} {m : EStateM Exn σ α} :
    wp (discard m) Q R s ↔ wp m (fun _ s' => Q () s') R s := by
  show wp ((fun _ => ()) <$> m) Q R s ↔ _
  exact wp_map

end statements

section statements

variable {a : PrefixCachingBlockAllocator Token Hash} {o : ObjId} {x : BlockId}
  {R : Exn → PrefixCachingBlockAllocator Token Hash → Prop}

omit [DecidableEq Hash] in
@[simp] theorem wp_modifyBlock {Q : Unit → PrefixCachingBlockAllocator Token Hash → Prop}
    {f : Block Token Hash → Block Token Hash} :
    wp (modifyBlock o f) Q R a ↔
      Q () { a with pool := Function.update a.pool o (f (a.pool o)) } := Iff.rfl

omit [DecidableEq Hash] in
@[simp] theorem wp_log {Q : Unit → PrefixCachingBlockAllocator Token Hash → Prop} {e : RefEvent} :
    wp (log e) Q R a ↔ Q () { a with history := e :: a.history } := Iff.rfl

omit [DecidableEq Hash] in
@[simp] theorem wp_poolFreeBlock {Q : Unit → PrefixCachingBlockAllocator Token Hash → Prop} :
    wp (poolFreeBlock o) Q R a ↔ Q () { a with freeIds := o :: a.freeIds } := Iff.rfl

omit [DecidableEq Hash] in
theorem wp_incr {Q : ℕ → PrefixCachingBlockAllocator Token Hash → Prop}
    (hx : x ∈ cfg.blockIds) :
    wp (incr cfg x) Q R a ↔ Q (a.refcounts x + 1)
      { a with refcounts := Function.update a.refcounts x (a.refcounts x + 1) } := by
  unfold incr
  simp [hx]

omit [DecidableEq Hash] in
theorem wp_refcount {Q : ℕ → PrefixCachingBlockAllocator Token Hash → Prop}
    (hx : x ∈ cfg.blockIds) : wp (refcount cfg x) Q R a ↔ Q (a.refcounts x) a := by
  unfold refcount
  simp [hx]

omit [DecidableEq Hash] in
/-- `decr` of one of several references. -/
theorem wp_decr_shared {Q : ℕ → PrefixCachingBlockAllocator Token Hash → Prop}
    (hx : x ∈ cfg.blockIds) (h : 1 < a.refcounts x) :
    wp (decr cfg x) Q R a ↔ Q (a.refcounts x - 1)
      { a with refcounts := Function.update a.refcounts x (a.refcounts x - 1) } := by
  have hpos : 0 < a.refcounts x := by omega
  have hne : a.refcounts x - 1 ≠ 0 := by omega
  unfold decr
  simp only [wp_bind, wp_assertThat, hx, not_true_eq_false, false_imp_iff, true_imp_iff, true_and,
    wp_get, wp_set, hpos, hne, if_false, wp_pure]

omit [DecidableEq Hash] in
/-- `decr` of the last reference. -/
theorem wp_decr_last {Q : ℕ → PrefixCachingBlockAllocator Token Hash → Prop}
    (hx : x ∈ cfg.blockIds) (h : a.refcounts x = 1) :
    wp (decr cfg x) Q R a ↔ Q 0 { a with
      refcounts := Function.update a.refcounts x 0
      history := .released x :: a.history } := by
  unfold decr
  simp [hx, h]

omit [DecidableEq Hash] in
theorem wp_trackBlockId {Q : Unit → PrefixCachingBlockAllocator Token Hash → Prop}
    {computed : Bool} (hx : x ∈ cfg.blockIds) (h : (a.blockTracker x).active = false) :
    wp (trackBlockId cfg x computed) Q R a ↔ Q () { a with
      blockTracker :=
        Function.update a.blockTracker x ⟨true, defaultLastAccessedTime, computed⟩ } := by
  unfold trackBlockId
  simp [hx, h]

omit [DecidableEq Hash] in
theorem wp_untrackBlockId {Q : Unit → PrefixCachingBlockAllocator Token Hash → Prop}
    (hx : x ∈ cfg.blockIds) (h : (a.blockTracker x).active = true) :
    wp (untrackBlockId cfg x) Q R a ↔ Q () { a with
      blockTracker := Function.update a.blockTracker x ⟨false, defaultLastAccessedTime, false⟩ } := by
  unfold untrackBlockId
  simp [hx, h]

omit [DecidableEq Hash] in
theorem wp_onExternalCache {α : Type} {Q : α → PrefixCachingBlockAllocator Token Hash → Prop}
    {m : CpuKvContentCache.Method Hash α} {c : CpuKvContentCache Hash}
    (hc : a.externalCache = some c) :
    wp (onExternalCache m) Q R a ↔
      wp m (fun r c' => Q r { a with externalCache := some c' })
        (fun e c' => R e { a with externalCache := some c' }) c := by
  unfold onExternalCache
  simp only [wp_bind, wp_get, hc, wp_assertSome_some, wp_focus]

end statements

/-! ## Objects of the pool -/

section pool

variable {g : Prop} {K : Finset ObjId} {fl : InFlight Hash}
  {a a' : PrefixCachingBlockAllocator Token Hash} {o : ObjId} {prevBlock : Option ObjId}
  {tokenIds : List Token} {x : Option BlockId} {cacheNamespace : Bytes}

/-- A freshly initialised object. -/
def newBlock (a : PrefixCachingBlockAllocator Token Hash) (prevBlock : Option ObjId)
    (tokenIds : List Token) (x : Option BlockId) (cacheNamespace : Bytes) : Block Token Hash where
  prevBlock := prevBlock
  tokenIds := tokenIds
  blockId := x
  computed := false
  cachedContentHash := none
  cacheNamespace := cacheNamespace
  cachedNumTokensTotal := a.prevNumTokensTotal prevBlock + tokenIds.length
  depth := prevDepth a prevBlock

/-- An object was taken from the pool. -/
structure Taken (K : Finset ObjId) (o : ObjId) (a a' : PrefixCachingBlockAllocator Token Hash) :
    Prop where
  new : o ∉ K
  fields : a' = { a with poolSize := a'.poolSize, freeIds := a'.freeIds, pool := a'.pool }
  kept : ∀ q ∈ K, a'.pool q = a.pool q

omit [DecidableEq Hash] in
/-- The pool grows when it is empty. -/
theorem increasePool_poolOk (hp : PoolOk cfg K a) (hempty : a.freeIds = []) :
    PoolOk cfg K { a with
      poolSize := a.poolSize * 2
      freeIds := a.freeIds ++ List.range' a.poolSize a.poolSize
      pool := fun o => if a.poolSize ≤ o ∧ o < a.poolSize * 2 then blankBlock else a.pool o } where
  freeIdsNodup := by
    simp only [hempty, List.nil_append]
    exact List.nodup_range'
  freeIdsLt o ho := by
    simp only [hempty, List.nil_append, List.mem_range'_1] at ho
    exact (Nat.mul_two a.poolSize).symm ▸ ho.2
  keptLt o ho := Nat.lt_of_lt_of_le (hp.keptLt o ho) (Nat.le_mul_of_pos_right _ Nat.two_pos)
  live o ho := by
    have hlt : o ∈ K → o < a.poolSize := hp.keptLt o
    have hin : o < a.poolSize → o ∈ K := fun h => (hp.live o h).mpr (by simp [hempty])
    simp only [hempty, List.nil_append, List.mem_range'_1] at ho ⊢
    constructor
    · intro h h'
      have := hlt h
      omega
    · exact fun h => hin (by omega)
  nonempty h := by
    have := hp.nonempty h
    show 0 < a.poolSize * 2
    omega

omit [DecidableEq Hash] in
/-- Taking the first object of the free list. -/
theorem PoolOk.take {rest : List ObjId} (hp : PoolOk cfg K a) (h : a.freeIds = o :: rest)
    {pool' : ObjId → Block Token Hash} :
    PoolOk cfg (insert o K) { a with freeIds := rest, pool := pool' } := by
  have hnd := hp.freeIdsNodup
  rw [h, List.nodup_cons] at hnd
  have ho : o < a.poolSize := hp.freeIdsLt o (h ▸ List.mem_cons_self)
  refine ⟨hnd.2, fun q hq => hp.freeIdsLt q (h ▸ List.mem_cons_of_mem _ hq), fun q hq => ?_,
    fun q hq => ?_, hp.nonempty⟩
  · rcases Finset.mem_insert.mp hq with rfl | hq
    · exact ho
    · exact hp.keptLt q hq
  · have hlive := hp.live q hq
    rw [h, List.mem_cons] at hlive
    simp only [Finset.mem_insert]
    by_cases hqo : q = o
    · subst hqo
      exact ⟨fun _ => hnd.1, fun _ => Or.inl rfl⟩
    · rw [hlive]
      tauto

omit [DecidableEq Hash] in
/-- Giving an object back to the pool. -/
theorem PoolOk.give (hp : PoolOk cfg K a) (ho : o ∈ K) :
    PoolOk cfg (K.erase o) { a with freeIds := o :: a.freeIds } := by
  have hlt := hp.keptLt o ho
  refine ⟨List.nodup_cons.mpr ⟨(hp.live o hlt).mp ho, hp.freeIdsNodup⟩, fun q hq => ?_,
    fun q hq => hp.keptLt q (Finset.mem_of_mem_erase hq), fun q hq => ?_, hp.nonempty⟩
  · rcases List.mem_cons.mp hq with rfl | hq
    · exact hlt
    · exact hp.freeIdsLt q hq
  · rw [Finset.mem_erase, hp.live q hq, List.mem_cons, not_or]

omit [DecidableEq Hash] in
theorem PoolOk.of_eq (hp : PoolOk cfg K a) (hs : a'.poolSize = a.poolSize)
    (hf : a'.freeIds = a.freeIds) : PoolOk cfg K a' where
  freeIdsNodup := hf ▸ hp.freeIdsNodup
  freeIdsLt := by rw [hf, hs]; exact hp.freeIdsLt
  keptLt := hs ▸ hp.keptLt
  live := by rw [hf, hs]; exact hp.live
  nonempty := hs ▸ hp.nonempty

omit [DecidableEq Hash] in
theorem wp_takePoolId (hp : PoolOk cfg K a) :
    wp takePoolId (fun o a' => Taken K o a a' ∧ PoolOk cfg (insert o K) a')
      (fun e _ => e = .assertionError ∧ cfg.blockIds = []) a := by
  unfold takePoolId
  simp only [wp_bind, wp_get]
  by_cases hempty : a.freeIds = []
  · have hp₁ := increasePool_poolOk hp hempty
    simp only [hempty, if_true, increasePool, wp_bind, wp_modify, wp_get, List.nil_append] at hp₁ ⊢
    split
    · next hids =>
      refine ⟨rfl, ?_⟩
      by_contra hb
      have hpos := hp.nonempty hb
      simp only [List.range'_eq_nil_iff] at hids
      omega
    · next o rest hids =>
      rw [hids] at hp₁ ⊢
      have hnew : o ∉ K := fun ho => (hp₁.live o (hp₁.keptLt o ho)).mp ho List.mem_cons_self
      refine ⟨⟨hnew, rfl, fun q hq => ?_⟩, hp₁.take rfl⟩
      have hlt := hp.keptLt q hq
      exact if_neg fun h => absurd hlt (Nat.not_lt.mpr h.1)
  · simp only [hempty, if_false, wp_bind, wp_get]
    obtain ⟨o, rest, hids⟩ := List.exists_cons_of_ne_nil hempty
    have hnew : o ∉ K := fun ho => (hp.live o (hp.keptLt o ho)).mp ho (by simp [hids])
    simp only [hids]
    exact ⟨⟨hnew, rfl, fun _ _ => rfl⟩, hp.take hids⟩

omit [DecidableEq Hash] in
theorem wp_poolInitBlock (hp : PoolOk cfg K a) (hprev : ∀ p, prevBlock = some p → p ∈ K) :
    wp (poolInitBlock cfg prevBlock tokenIds x)
      (fun o a' => Taken K o a a' ∧ PoolOk cfg (insert o K) a' ∧
        tokenIds.length ≤ cfg.blockSize ∧
        a'.pool o = newBlock a prevBlock tokenIds x (inheritedNamespace a prevBlock))
      (fun e _ => e = .assertionError ∧
        (cfg.blockIds = [] ∨ cfg.blockSize < tokenIds.length)) a := by
  unfold poolInitBlock
  simp only [wp_bind]
  refine wp_mono (wp_takePoolId hp) ?_ fun _ _ h => ⟨h.1, Or.inl h.2⟩
  rintro o a₁ ⟨ht, hp₁⟩
  simp only [wp_get, wp_modifyBlock, wp_assertThat, wp_pure]
  refine ⟨fun h => ⟨trivial, Or.inr (by omega)⟩,
    fun h => ⟨⟨ht.new, ?_, ?_⟩, hp₁.of_eq rfl rfl, h, ?_⟩⟩
  · rw [ht.fields]
  · intro q hq
    have hqo : q ≠ o := fun he => ht.new (he ▸ hq)
    simp only [Function.update_of_ne hqo]
    exact ht.kept q hq
  · simp only [Function.update_self, blankBlock, newBlock]
    cases prevBlock with
    | none => rfl
    | some p => simp only [inheritedNamespace, prevDepth, prevNumTokensTotal, ht.kept p (hprev p rfl)]

omit [DecidableEq Hash] in
theorem wp_initBlock (hp : PoolOk cfg K a) (hprev : ∀ p, prevBlock = some p → p ∈ K) :
    wp (initBlock cfg prevBlock tokenIds x cacheNamespace)
      (fun o a' => Taken K o a a' ∧ PoolOk cfg (insert o K) a' ∧
        tokenIds.length ≤ cfg.blockSize ∧
        a'.pool o =
          newBlock a prevBlock tokenIds x (resolvedNamespace a prevBlock cacheNamespace))
      (fun e _ => e = .assertionError ∧
        (cfg.blockIds = [] ∨ cfg.blockSize < tokenIds.length)) a := by
  unfold initBlock
  simp only [wp_bind]
  refine wp_mono (wp_poolInitBlock hp hprev) ?_ (fun _ _ h => h)
  rintro o a₁ ⟨ht, hp₁, hlen, hb⟩
  have hnone : (a₁.pool o).cachedContentHash = none := by rw [hb]; rfl
  have hns : a₁.resolvedNamespace prevBlock cacheNamespace =
      a.resolvedNamespace prevBlock cacheNamespace := by
    unfold resolvedNamespace inheritedNamespace
    cases prevBlock with
    | none => rfl
    | some p => simp only [ht.kept p (hprev p rfl)]
  simp only [wp_get, wp_raiseIf, hnone, ne_eq, not_true_eq_false, not_false_eq_true, false_imp_iff,
    true_imp_iff, true_and, wp_modifyBlock, wp_pure]
  refine ⟨⟨ht.new, ?_, fun q hq => ?_⟩, ?_, hlen, ?_⟩
  · rw [ht.fields]
  · have hqo : q ≠ o := fun he => ht.new (he ▸ hq)
    simp only [Function.update_of_ne hqo]
    exact ht.kept q hq
  · exact hp₁.of_eq rfl rfl
  · simp only [Function.update_self, hb, newBlock, hns]

/-- The new object enters the invariant. -/
theorem Core.newObject (hc : Core cfg g K fl a) (ht : Taken K o a a')
    (hb : a'.pool o = newBlock a prevBlock tokenIds none cacheNamespace)
    (hlen : tokenIds.length ≤ cfg.blockSize)
    (hprev : ∀ p, prevBlock = some p → p ∈ K ∧ (tokenIds ≠ [] → isFull cfg (a.pool p))) :
    Core cfg g (insert o K) fl a' := by
  have hpool : Core cfg g K fl { a with pool := a'.pool } := hc.congr_pool fun q hq => by
    rw [ht.kept q hq]
    exact ⟨⟨rfl, rfl, rfl⟩, rfl, rfl, rfl⟩
  have hinsert := hpool.withObject (b := a'.pool o) ht.new (by rw [hb]; rfl) (by rw [hb]; rfl)
    (by rw [hb]; exact hlen) fun p hp => by
      rw [hb] at hp ⊢
      obtain ⟨hpK, hf⟩ := hprev p hp
      have hpb : prevBlock = some p := hp
      refine ⟨hpK, ?_, fun hne => ?_⟩
      · simp only [ht.kept p hpK, newBlock, hpb, prevDepth]
        exact Nat.lt_succ_self _
      · simp only [ht.kept p hpK]
        exact hf hne
  simp only [Function.update_eq_self] at hinsert
  refine hinsert.metadata ?_ fun x => ?_
  · rw [ht.fields]
  · rw [ht.fields]

/-- The new object enters the invariant with a physical block that was on its way. -/
theorem Core.newObjectOn {y : BlockId} {ids : List BlockId} {claims : List (Hash × ℕ)}
    {filling : Option ObjId} (hc : Core cfg g K ⟨y :: ids, claims, filling⟩ a) (ht : Taken K o a a')
    (hb : a'.pool o = newBlock a prevBlock tokenIds (some y) cacheNamespace)
    (hlen : tokenIds.length ≤ cfg.blockSize)
    (hprev : ∀ p, prevBlock = some p → p ∈ K ∧ (tokenIds ≠ [] → isFull cfg (a.pool p)))
    (hhash : ∀ h, HashOf cfg a'.pool o h → a'.cachedBlocks.get? h = some y)
    (hnot : ¬ isFull cfg (a'.pool o) → y ∉ a'.cachedBlocks.values) :
    Core cfg g (insert o K) ⟨ids, claims, filling⟩ a' := by
  have ht' : Taken K o a (a'.setBlockId o none) := by
    refine ⟨ht.new, ?_, fun q hq => ?_⟩
    · unfold setBlockId
      rw [ht.fields]
    · have hqo : q ≠ o := fun he => ht.new (he ▸ hq)
      rw [setBlockId_of_ne hqo, ht.kept q hq]
  have hnew := hc.newObject ht' (by rw [setBlockId_self, hb]; rfl) hlen hprev
  have hon := hnew.attach (Finset.mem_insert_self o K) (by rw [setBlockId_self])
    (fun _ h hh => hhash h (hashOf_setBlockId.mp hh))
    (fun _ hn => hnot fun hf => hn (isFull_setBlockId.mpr hf))
  have heq : (a'.setBlockId o none).setBlockId o (some y) = a' := by
    have hid : (a'.pool o).blockId = some y := by rw [hb]; rfl
    unfold setBlockId
    simp only [Function.update_self, Function.update_idem, ← hid, Function.update_eq_self]
  rwa [heq] at hon

end pool

/-! ## Allocation of a physical block -/

section allocation

variable {g : Prop} {K : Finset ObjId} {ids : List BlockId} {claims : List (Hash × ℕ)}
  {filling : Option ObjId} {a a' : PrefixCachingBlockAllocator Token Hash} {x : BlockId}

theorem wp_maybeAllocateHashlessBlockId (hc : Counts cfg K ids a) (hp : PoolOk cfg K a) :
    wp (maybeAllocateHashlessBlockId cfg)
      (fun r a' => r = none ∧ a' = a ∨ ∃ x, r = some x ∧ Acquired cfg K x a a' ∧
        PoolOk cfg K a' ∧ a'.history = a.history ∧ a'.externalCache = a.externalCache)
      (fun _ _ => False) a := by
  unfold maybeAllocateHashlessBlockId
  simp only [wp_bind, wp_get]
  cases hfree : a.freeBlockIndices with
  | nil => exact Or.inl ⟨rfl, rfl⟩
  | cons x rest =>
    obtain ⟨hxb, hzero, hvalues⟩ := hc.free x (by simp [hfree])
    have hnd := hc.freeNodup
    rw [hfree, List.nodup_cons] at hnd
    have hinactive : (a.blockTracker x).active = false := by
      have := hc.tracked x
      rw [hzero] at this
      simpa using this
    have hnotEvictable : a.evictor.freeTable.get? x = none := by
      cases hm : a.evictor.freeTable.get? x with
      | none => rfl
      | some m => exact absurd (Dict.mem_values.mpr ⟨_, (hc.evictable x m hm).2.2⟩) hvalues
    simp only [wp_bind, wp_modify, wp_discard, wp_incr hxb]
    refine wp_mono (wp_poolInitBlock (K := K) (hp.of_eq rfl rfl) (by simp)) ?_ ?_
    · rintro o a₁ ⟨ht, hp₁, _, _⟩
      have hactive₁ : (a₁.blockTracker x).active = false := by rw [ht.fields]; exact hinactive
      simp only [wp_poolFreeBlock]
      refine (wp_trackBlockId hxb (by exact hactive₁)).mpr ?_
      refine Or.inr ⟨x, rfl, ?_, ?_, by rw [ht.fields], by rw [ht.fields]⟩
      · refine
          { inRange := hxb
            zero := hzero
            refcounts := by rw [ht.fields]; simp only [hzero, Nat.zero_add]
            tracked := fun y => ?_
            free := ?_
            evictor := fun y => ?_
            evictorWf := by rw [ht.fields]; exact hc.evictorWf
            cached := fun h => ?_
            pool := fun q hq => ht.kept q hq }
        · rw [ht.fields]
          by_cases hy : y = x
          · simp [hy]
          · simp [hy]
        · rw [ht.fields]
          simp only [hfree, ne_eq, List.filter_cons, not_true_eq_false, decide_false, Bool.false_eq_true,
            if_false]
          refine (List.filter_eq_self.mpr fun y hy => ?_).symm
          simp only [decide_eq_true_eq]
          rintro rfl
          exact hnd.1 hy
        · rw [ht.fields]
          split
          · next hy => rw [hy]; exact hnotEvictable
          · rfl
        · rw [ht.fields]
          split
          · next hh => exact absurd (Dict.mem_values.mpr ⟨h, hh⟩) hvalues
          · rfl
      · have hgive := hp₁.give (Finset.mem_insert_self o K)
        rw [Finset.erase_insert ht.new] at hgive
        exact hgive.of_eq rfl rfl
    · rintro e a₁ ⟨_, hb | hlen⟩
      · rw [hb] at hxb
        exact absurd hxb (by simp)
      · exact absurd hlen (Nat.not_lt_zero _)

theorem wp_maybeAllocateEvictedBlockId (hc : Core cfg g K ⟨ids, claims, filling⟩ a)
    (hp : PoolOk cfg K a) :
    wp (maybeAllocateEvictedBlockId cfg)
      (fun r a' => r = none ∧ a' = a ∨ ∃ x, r = some x ∧ Acquired cfg K x a a' ∧
        PoolOk cfg K a' ∧ a'.history = a.history ∧
        (a.externalCache = none ∧ a'.externalCache = none ∨
          ∃ c h r c', a.externalCache = some c ∧ a'.externalCache = some c' ∧
            CpuKvContentCache.stageStore h (physicalBlockId cfg x) c = .ok r c'))
      (fun e a' => e ≠ .noFreeBlocks ∧ ¬ (g ∧ NoDrop a'.history)) a := by
  unfold maybeAllocateEvictedBlockId
  simp only [wp_bind, wp_get]
  by_cases hempty : a.evictor.numBlocks = 0
  · simp only [hempty, if_true, wp_pure]
    exact Or.inl ⟨trivial, trivial⟩
  · simp only [hempty, if_false, wp_bind, onEvictor, wp_focus]
    obtain ⟨x, m, e', hrun, hxm, htable, hwf⟩ := Evictor.evict_ok hc.counts.evictorWf hempty
    obtain ⟨hxb, hzero, hcache⟩ := hc.counts.evictable x m hxm
    have hvalue : x ∈ a.cachedBlocks.values := Dict.mem_values.mpr ⟨_, hcache⟩
    have hinactive : (a.blockTracker x).active = false := by
      have := hc.counts.tracked x
      rw [hzero] at this
      simpa using this
    have hacquired : ∀ c, Acquired cfg K x a { a with
        evictor := e'
        externalCache := c
        cachedBlocks := a.cachedBlocks.erase m.contentHash
        refcounts := Function.update a.refcounts x (a.refcounts x + 1)
        blockTracker := Function.update a.blockTracker x ⟨true, defaultLastAccessedTime, false⟩ } := by
      intro c
      refine
        { inRange := hxb
          zero := hzero
          refcounts := by simp only [hzero, Nat.zero_add]
          tracked := fun y => ?_
          free := ?_
          evictor := fun y => ?_
          evictorWf := hwf
          cached := fun h => ?_
          pool := fun _ _ => rfl }
      · by_cases hy : y = x
        · simp [hy]
        · simp [hy]
      · refine (List.filter_eq_self.mpr fun y hy => ?_).symm
        simp only [ne_eq, decide_eq_true_eq]
        rintro rfl
        exact (hc.counts.free y hy).2.2 hvalue
      · simp only [htable, Dict.get?_erase]
      · simp only [Dict.get?_erase]
        by_cases hh : h = m.contentHash
        · rw [if_pos hh, if_pos (hh ▸ hcache)]
        · rw [if_neg hh, if_neg fun hx => hh (hc.counts.cachedInj _ _ x hx hcache)]
    rw [wp_ok hrun]
    simp only [wp_get, hcache, wp_assertSome_some, wp_refcount hxb, hzero, wp_assertThat,
      not_true_eq_false, false_imp_iff, true_imp_iff, true_and]
    cases hext : a.externalCache with
    | none =>
      simp only [Option.isSome_none, Bool.false_eq_true, if_false, wp_bind, wp_modify, wp_discard,
        wp_incr hxb]
      refine (wp_trackBlockId hxb (by exact hinactive)).mpr ?_
      exact Or.inr ⟨x, rfl, hacquired none, hp.of_eq rfl rfl, rfl, Or.inl ⟨trivial, rfl⟩⟩
    | some c =>
      simp only [Option.isSome_some, if_true, wp_bind, wp_discard]
      refine (wp_onExternalCache (c := c) rfl).mpr (wp_iff.mpr ⟨fun r c' hr => ?_, fun e c' hr => ?_⟩)
      · simp only [wp_modify, wp_incr hxb]
        refine (wp_trackBlockId hxb (by exact hinactive)).mpr ?_
        exact Or.inr ⟨x, rfl, hacquired _, hp.of_eq rfl rfl, rfl,
          Or.inr ⟨c, _, r, c', rfl, rfl, hr⟩⟩
      · have he := of_wp_error wp_stageStore_raises hr
        refine ⟨he, fun hg => ?_⟩
        obtain ⟨r, c'', hok⟩ := (hc.tier hg.1 hg.2 c hext).stageStore_ok hc.counts hzero
        rw [hr] at hok
        exact absurd hok (by simp)

/-- What is known of a block that was just allocated. -/
structure Allocates (K : Finset ObjId) (x : BlockId)
    (a a' : PrefixCachingBlockAllocator Token Hash) : Prop where
  kept : ∀ q ∈ K, a'.pool q = a.pool q
  fresh : x ∉ a'.cachedBlocks.values
  single : a'.refcounts x = 1
  logged : .allocated x ∈ a'.history
  missing : ∀ h, a.cachedBlocks.get? h = none → a'.cachedBlocks.get? h = none
  external : a'.externalCache.isSome = a.externalCache.isSome

theorem Acquired.allocates {c : Option (CpuKvContentCache Hash)} (ha : Acquired cfg K x a a')
    (hext : c.isSome = a.externalCache.isSome) :
    Allocates K x a
      { a' with history := .allocated x :: a'.history, externalCache := c } where
  kept := ha.pool
  fresh := ha.not_mem_values
  single := by
    simp only [ha.refcounts, Function.update_self]
  logged := List.mem_cons_self
  missing h hh := by
    simp only [ha.cached, hh]
    rfl
  external := hext

/-- `_allocate_block_id` returns a block that nothing else refers to, or raises. -/
theorem wp_allocateBlockId (hc : Core cfg g K ⟨ids, claims, filling⟩ a) (hp : PoolOk cfg K a) :
    wp (allocateBlockId cfg)
      (fun x a' => Core cfg g K ⟨x :: ids, claims, filling⟩ a' ∧ PoolOk cfg K a' ∧
        Allocates K x a a')
      (Stops g fun a' => a' = a) a := by
  unfold allocateBlockId
  simp only [wp_bind]
  refine wp_mono (wp_maybeAllocateHashlessBlockId hc.counts hp) ?_ fun _ _ h => h.elim
  rintro r a₁ (⟨rfl, rfl⟩ | ⟨x, rfl, hacq, hp₁, hhist, hext⟩)
  · simp only [wp_bind]
    refine wp_mono (wp_maybeAllocateEvictedBlockId hc hp) ?_ fun e a' h => Or.inr h
    rintro r a₂ (⟨rfl, rfl⟩ | ⟨x, rfl, hacq, hp₂, hhist, hext⟩)
    · exact Or.inl ⟨rfl, rfl⟩
    · simp only [wp_bind, wp_log, wp_pure]
      have hacq' : Acquired cfg K x a₁ { a₂ with history := .allocated x :: a₂.history } :=
        { hacq with }
      refine ⟨⟨hacq'.chains hc.chains, hacq'.counts hc.counts,
        hacq'.contents hc.chains hc.counts hc.contents, fun hg hn c hcc => ?_⟩,
        hp₂.of_eq rfl rfl, ?_⟩
      · rcases hext with ⟨_, hnone⟩ | ⟨c₁, h, r, c₂, hc₁, hc₂, hstore⟩
        · rw [show _ = a₂.externalCache from rfl, hnone] at hcc
          exact absurd hcc (by simp)
        · obtain rfl : c₂ = c := Option.some.inj (hc₂.symm.trans hcc)
          have hn' : NoDrop a₁.history := hhist ▸ hn
          have ht := hacq'.tier (by simp only [hhist]) (hc.tier hg hn' c₁ hc₁)
          exact ht.stored List.mem_cons_self hstore
      · refine hacq.allocates (c := a₂.externalCache) ?_
        rcases hext with ⟨h₁, h₂⟩ | ⟨c₁, h, r, c₂, h₁, h₂, _⟩
        · rw [h₁, h₂]
        · rw [h₁, h₂]
          rfl
  · simp only [wp_bind, wp_log, wp_pure]
    have hacq' : Acquired cfg K x a { a₁ with history := .allocated x :: a₁.history } :=
      { hacq with }
    refine ⟨⟨hacq'.chains hc.chains, hacq'.counts hc.counts,
      hacq'.contents hc.chains hc.counts hc.contents, fun hg hn c hcc => ?_⟩,
      hp₁.of_eq rfl rfl, hacq.allocates (c := a₁.externalCache) (by rw [hext])⟩
    have hn' : NoDrop a.history := hhist ▸ hn
    exact hacq'.tier (by simp only [hhist]) (hc.tier hg hn' c (hext ▸ hcc))

end allocation

end Ikun.PrefixCachingBlockAllocator
