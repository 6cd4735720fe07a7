import Mathlib.Data.Prod.Lex
import Mathlib.Data.Rat.Cast.Order
import Mathlib.Order.Lattice
import Ikun.Basic
import Ikun.Lib.Dict
import Ikun.Lib.Exec
import Ikun.Lib.Heap

/-!
# Evictors

An evictor holds the cached blocks that no sequence uses, until it is asked to give one up. There
are two: `LRUEvictor`, and `FrequencyAwareEvictor`, whose heap of candidates is invalidated lazily.

The allocator relies on what the two have in common, which is stated about `Evictor`: the evictor
holds the blocks of its `freeTable`; on a well-formed evictor no operation raises when the allocator
may call it; `evict` gives up a block that it holds, with the content hash it was added with
(`evict_ok`, `add_ok`, `update_ok`, `remove_ok`).

Timestamps are floats in the source and rationals here. Only their order matters.
-/

namespace Ikun

open Exec

/-- `BlockMetaData`. -/
structure BlockMetaData (Hash : Type) where
  contentHash : Hash
  numHashedTokens : ℕ
  lastAccessed : ℚ
  deriving DecidableEq

/-! ## `LRUEvictor` -/

structure LRUEvictor (Hash : Type) where
  freeTable : Dict ℕ (BlockMetaData Hash)

namespace LRUEvictor

variable {Hash : Type}

/-- The loop of `evict`: `cur` is the candidate so far. The loop stops at the first block that was
accessed later than the candidate. -/
def scan (cur : ℕ × BlockMetaData Hash) : List (ℕ × BlockMetaData Hash) → ℕ × BlockMetaData Hash
  | [] => cur
  | entry :: rest =>
    if cur.2.lastAccessed < entry.2.lastAccessed then cur
    else if cur.2.numHashedTokens < entry.2.numHashedTokens then scan entry rest
    else scan cur rest

def evict : EStateM Exn (LRUEvictor Hash) (ℕ × Hash) := do
  let e ← get
  match e.freeTable.items with
  | [] => throw (.valueError "No usable cache memory left")
  | first :: rest =>
    let (evictedBlockId, evictedBlock) := scan first rest
    set { e with freeTable := e.freeTable.erase evictedBlockId }
    pure (evictedBlockId, evictedBlock.contentHash)

def add (blockId : ℕ) (contentHash : Hash) (numHashedTokens : ℕ) (lastAccessed : ℚ) :
    EStateM Exn (LRUEvictor Hash) Unit :=
  modify fun e => { e with
    freeTable := e.freeTable.set blockId ⟨contentHash, numHashedTokens, lastAccessed⟩ }

def update (blockId : ℕ) (lastAccessed : ℚ) : EStateM Exn (LRUEvictor Hash) Unit := do
  let e ← get
  match e.freeTable.get? blockId with
  | none => throw .keyError
  | some block =>
    set { e with freeTable := e.freeTable.set blockId { block with lastAccessed := lastAccessed } }

def remove (blockId : ℕ) : EStateM Exn (LRUEvictor Hash) Unit := do
  let e ← get
  raiseIf (e.freeTable.contains blockId = false)
    (.valueError "Attempting to remove block that's not in the evictor")
  set { e with freeTable := e.freeTable.erase blockId }

theorem scan_mem (cur : ℕ × BlockMetaData Hash) (xs : List (ℕ × BlockMetaData Hash)) :
    scan cur xs ∈ cur :: xs := by
  induction xs generalizing cur with
  | nil => exact List.mem_singleton.mpr rfl
  | cons x xs ih =>
    unfold scan
    split
    · exact List.mem_cons_self
    · split
      · exact List.mem_cons_of_mem _ (ih x)
      · rcases List.mem_cons.mp (ih cur) with h | h
        · rw [h]
          exact List.mem_cons_self
        · exact List.mem_cons_of_mem _ (List.mem_cons_of_mem _ h)

end LRUEvictor

/-! ## `FrequencyAwareEvictor` -/

/-- A heap entry: (frequency, last_accessed, -num_hashed_tokens, block_id, generation), ordered
lexicographically. -/
structure HeapEntry where
  frequency : ℕ
  lastAccessed : ℚ
  negNumHashedTokens : ℤ
  blockId : ℕ
  generation : ℕ

namespace HeapEntry

def key (x : HeapEntry) : ℕ ×ₗ ℚ ×ₗ ℤ ×ₗ ℕ ×ₗ ℕ :=
  toLex (x.frequency, toLex (x.lastAccessed, toLex (x.negNumHashedTokens,
    toLex (x.blockId, x.generation))))

theorem key_injective : Function.Injective key := by
  intro x y h
  simp only [key, EmbeddingLike.apply_eq_iff_eq, Prod.mk.injEq] at h
  obtain ⟨h₁, h₂, h₃, h₄, h₅⟩ := h
  cases x
  cases y
  simp_all

instance : LinearOrder HeapEntry := LinearOrder.lift' key key_injective

end HeapEntry

structure FrequencyAwareEvictor (Hash : Type) where
  freeTable : Dict ℕ (BlockMetaData Hash)
  frequencyByHash : Dict Hash ℕ
  heap : List HeapEntry
  generations : Dict ℕ ℕ
  nextGeneration : ℕ

namespace FrequencyAwareEvictor

variable {Hash : Type} [DecidableEq Hash]

/-- `_heap_key`; `none` stands for the `KeyError` of the lookup. -/
def heapKey (e : FrequencyAwareEvictor Hash) (blockId : ℕ) (block : BlockMetaData Hash)
    (generation : ℕ) : Option HeapEntry :=
  (e.frequencyByHash.get? block.contentHash).map fun frequency =>
    ⟨frequency, block.lastAccessed, -block.numHashedTokens, blockId, generation⟩

/-- `_push`. -/
def push (blockId : ℕ) : EStateM Exn (FrequencyAwareEvictor Hash) Unit := do
  modify fun e => { e with
    nextGeneration := e.nextGeneration + 1
    generations := e.generations.set blockId (e.nextGeneration + 1) }
  let e ← get
  match (e.freeTable.get? blockId).bind fun block => e.heapKey blockId block e.nextGeneration with
  | none => throw .keyError
  | some entry => set { e with heap := entry :: e.heap }

/-- The keys of all blocks in the table; `none` stands for a `KeyError`. -/
def heapKeys (e : FrequencyAwareEvictor Hash) :
    List (ℕ × BlockMetaData Hash) → Option (List HeapEntry)
  | [] => some []
  | (blockId, block) :: rest =>
    match (e.generations.get? blockId).bind (e.heapKey blockId block), e.heapKeys rest with
    | some entry, some entries => some (entry :: entries)
    | _, _ => none

/-- `_compact_if_needed`. -/
def compactIfNeeded : EStateM Exn (FrequencyAwareEvictor Hash) Unit := do
  let e ← get
  if e.heap.length ≤ 2 * e.freeTable.length + 1 then
    pure ()
  else
    match e.heapKeys e.freeTable.items with
    | none => throw .keyError
    | some heap => set { e with heap := heap }

/-- The `while` loop of `evict`, for at most `fuel` rounds. -/
def evictLoop : ℕ → EStateM Exn (FrequencyAwareEvictor Hash) (ℕ × Hash)
  | 0 => throw .recursionError
  | fuel + 1 => do
    let e ← get
    match heappop e.heap with
    | none => throw (.runtimeError "Evictor heap has no usable entry")
    | some (entry, rest) =>
      set { e with heap := rest }
      match e.freeTable.get? entry.blockId with
      | none => evictLoop fuel
      | some block =>
        if e.generations.get? entry.blockId ≠ some entry.generation then
          evictLoop fuel
        else
          match e.heapKey entry.blockId block entry.generation with
          | none => throw .keyError
          | some current =>
            if current.frequency ≠ entry.frequency then
              set { e with heap := current :: rest }
              evictLoop fuel
            else
              set { e with
                heap := rest
                freeTable := e.freeTable.erase entry.blockId
                generations := e.generations.erase entry.blockId }
              compactIfNeeded
              pure (entry.blockId, block.contentHash)

def evict : EStateM Exn (FrequencyAwareEvictor Hash) (ℕ × Hash) := do
  let e ← get
  raiseIf (e.freeTable.items = []) (.valueError "No usable cache memory left")
  -- every round removes an entry or corrects one
  evictLoop (2 * e.heap.length + 1)

def add (blockId : ℕ) (contentHash : Hash) (numHashedTokens : ℕ) (lastAccessed : ℚ) :
    EStateM Exn (FrequencyAwareEvictor Hash) Unit := do
  modify fun e => { e with
    frequencyByHash :=
      e.frequencyByHash.set contentHash ((e.frequencyByHash.get? contentHash).getD 0 + 1)
    freeTable := e.freeTable.set blockId ⟨contentHash, numHashedTokens, lastAccessed⟩ }
  push blockId
  compactIfNeeded

def update (blockId : ℕ) (lastAccessed : ℚ) : EStateM Exn (FrequencyAwareEvictor Hash) Unit := do
  let e ← get
  match e.freeTable.get? blockId with
  | none => throw .keyError
  | some block =>
    set { e with freeTable := e.freeTable.set blockId { block with lastAccessed := lastAccessed } }
    push blockId
    compactIfNeeded

def remove (blockId : ℕ) : EStateM Exn (FrequencyAwareEvictor Hash) Unit := do
  let e ← get
  raiseIf (e.freeTable.contains blockId = false)
    (.valueError "Attempting to remove block that's not in the evictor")
  set { e with freeTable := e.freeTable.erase blockId }
  raiseIf (e.generations.contains blockId = false) .keyError
  modify fun e => { e with generations := e.generations.erase blockId }
  compactIfNeeded

end FrequencyAwareEvictor

/-! ## Both -/

/-- `EvictionPolicy`. -/
inductive EvictionPolicy
  | lru
  | frequencyAware
  deriving DecidableEq

/-- An evictor of one of the two classes. -/
inductive Evictor (Hash : Type)
  | lru (e : LRUEvictor Hash)
  | frequencyAware (e : FrequencyAwareEvictor Hash)

namespace Evictor

variable {Hash : Type} [DecidableEq Hash]

/-- `make_evictor`. -/
def make : EvictionPolicy → Evictor Hash
  | .lru => .lru ⟨.empty⟩
  | .frequencyAware => .frequencyAware ⟨.empty, .empty, [], .empty, 0⟩

/-- The blocks that the evictor holds. -/
def freeTable : Evictor Hash → Dict ℕ (BlockMetaData Hash)
  | .lru e => e.freeTable
  | .frequencyAware e => e.freeTable

/-- `num_blocks`. -/
def numBlocks (e : Evictor Hash) : ℕ := e.freeTable.length

/-- Calls the method of the evictor's class. -/
def dispatch {α : Type} (onLru : EStateM Exn (LRUEvictor Hash) α)
    (onFrequency : EStateM Exn (FrequencyAwareEvictor Hash) α) :
    EStateM Exn (Evictor Hash) α
  | .lru e =>
    match onLru e with
    | .ok a e' => .ok a (.lru e')
    | .error x e' => .error x (.lru e')
  | .frequencyAware e =>
    match onFrequency e with
    | .ok a e' => .ok a (.frequencyAware e')
    | .error x e' => .error x (.frequencyAware e')

def evict : EStateM Exn (Evictor Hash) (ℕ × Hash) :=
  dispatch LRUEvictor.evict FrequencyAwareEvictor.evict

def add (blockId : ℕ) (contentHash : Hash) (numHashedTokens : ℕ) (lastAccessed : ℚ) :
    EStateM Exn (Evictor Hash) Unit :=
  dispatch (LRUEvictor.add blockId contentHash numHashedTokens lastAccessed)
    (FrequencyAwareEvictor.add blockId contentHash numHashedTokens lastAccessed)

def update (blockId : ℕ) (lastAccessed : ℚ) : EStateM Exn (Evictor Hash) Unit :=
  dispatch (LRUEvictor.update blockId lastAccessed)
    (FrequencyAwareEvictor.update blockId lastAccessed)

def remove (blockId : ℕ) : EStateM Exn (Evictor Hash) Unit :=
  dispatch (LRUEvictor.remove blockId) (FrequencyAwareEvictor.remove blockId)

end Evictor

/-! ## Well-formed evictors -/

namespace FrequencyAwareEvictor

variable {Hash : Type} [DecidableEq Hash]

/-- Every block in the table has a generation and a candidate of that generation in the heap, and
the frequency of its content is known. -/
structure Wf (e : FrequencyAwareEvictor Hash) : Prop where
  candidate : ∀ b m, e.freeTable.get? b = some m → ∃ g, e.generations.get? b = some g ∧
    ∃ x ∈ e.heap, x.blockId = b ∧ x.generation = g
  frequency : ∀ b m, e.freeTable.get? b = some m → e.frequencyByHash.get? m.contentHash ≠ none

variable {e : FrequencyAwareEvictor Hash}

theorem heapKey_of_frequency {b g : ℕ} {m : BlockMetaData Hash}
    (h : e.frequencyByHash.get? m.contentHash ≠ none) :
    ∃ x, e.heapKey b m g = some x ∧ x.blockId = b ∧ x.generation = g := by
  obtain ⟨f, hf⟩ := Option.ne_none_iff_exists'.mp h
  exact ⟨_, by rw [heapKey, hf]; rfl, rfl, rfl⟩

/-- The keys of blocks that have a generation and a frequency can be computed, and contain a
candidate for each of them. -/
theorem heapKeys_ok {l : List (ℕ × BlockMetaData Hash)}
    (h : ∀ p ∈ l, (∃ g, e.generations.get? p.1 = some g) ∧
      e.frequencyByHash.get? p.2.contentHash ≠ none) :
    ∃ heap, e.heapKeys l = some heap ∧ ∀ p ∈ l, ∀ g, e.generations.get? p.1 = some g →
      ∃ x ∈ heap, x.blockId = p.1 ∧ x.generation = g := by
  induction l with
  | nil => exact ⟨[], rfl, fun p hp => absurd hp List.not_mem_nil⟩
  | cons p l ih =>
    obtain ⟨⟨g, hg⟩, hf⟩ := h p List.mem_cons_self
    obtain ⟨x, hx, hxb, hxg⟩ := heapKey_of_frequency (b := p.1) (g := g) hf
    obtain ⟨heap, hheap, hall⟩ := ih fun q hq => h q (List.mem_cons_of_mem _ hq)
    refine ⟨x :: heap, ?_, fun q hq g' hg' => ?_⟩
    · simp only [heapKeys, hg, Option.bind_some, hx, hheap]
    · rcases List.mem_cons.mp hq with rfl | hq
      · obtain rfl : g = g' := Option.some.inj (hg.symm.trans hg')
        exact ⟨x, List.mem_cons_self, hxb, hxg⟩
      · obtain ⟨y, hy, hyb⟩ := hall q hq g' hg'
        exact ⟨y, List.mem_cons_of_mem _ hy, hyb⟩

theorem compactIfNeeded_ok (he : e.Wf) :
    ∃ e', compactIfNeeded e = .ok () e' ∧ e'.freeTable = e.freeTable ∧ e'.Wf := by
  unfold compactIfNeeded
  by_cases hlen : e.heap.length ≤ 2 * e.freeTable.length + 1
  · refine ⟨e, ?_, rfl, he⟩
    simp [hlen]
  · have hall : ∀ p ∈ e.freeTable.items, (∃ g, e.generations.get? p.1 = some g) ∧
        e.frequencyByHash.get? p.2.contentHash ≠ none := by
      intro p hp
      have hget : e.freeTable.get? p.1 = some p.2 := Dict.mem_items.mp hp
      obtain ⟨g, hg, _⟩ := he.candidate p.1 p.2 hget
      exact ⟨⟨g, hg⟩, he.frequency p.1 p.2 hget⟩
    obtain ⟨heap, hheap, hcand⟩ := heapKeys_ok hall
    refine ⟨{ e with heap := heap }, ?_, rfl, fun b m hm => ?_, he.frequency⟩
    · simp [hlen, hheap]
    · obtain ⟨g, hg, _⟩ := he.candidate b m hm
      exact ⟨g, hg, hcand (b, m) (Dict.mem_items.mpr hm) g hg⟩

theorem push_ok {b : ℕ} {m : BlockMetaData Hash} (hb : e.freeTable.get? b = some m)
    (hf : ∀ b m, e.freeTable.get? b = some m → e.frequencyByHash.get? m.contentHash ≠ none)
    (hc : ∀ b' m, b' ≠ b → e.freeTable.get? b' = some m → ∃ g, e.generations.get? b' = some g ∧
      ∃ x ∈ e.heap, x.blockId = b' ∧ x.generation = g) :
    ∃ e', push b e = .ok () e' ∧ e'.freeTable = e.freeTable ∧ e'.Wf := by
  obtain ⟨x, hx, hxb, hxg⟩ := heapKey_of_frequency (e := { e with
    nextGeneration := e.nextGeneration + 1
    generations := e.generations.set b (e.nextGeneration + 1) }) (b := b)
    (g := e.nextGeneration + 1) (hf b m hb)
  refine ⟨{ e with
    nextGeneration := e.nextGeneration + 1
    generations := e.generations.set b (e.nextGeneration + 1)
    heap := x :: e.heap }, ?_, rfl, ?_, hf⟩
  · unfold push
    simp [hb, hx]
  · intro b' m' hm'
    by_cases hne : b' = b
    · subst hne
      exact ⟨_, Dict.get?_set_self _ _ _, x, List.mem_cons_self, hxb, hxg⟩
    · obtain ⟨g, hg, y, hy, hyb⟩ := hc b' m' hne hm'
      refine ⟨g, ?_, y, List.mem_cons_of_mem _ hy, hyb⟩
      show (e.generations.set b _).get? b' = some g
      rw [Dict.get?_set_ne _ hne]
      exact hg

theorem add_ok {b n : ℕ} {h : Hash} {t : ℚ} (he : e.Wf) :
    ∃ e', add b h n t e = .ok () e' ∧ e'.freeTable = e.freeTable.set b ⟨h, n, t⟩ ∧ e'.Wf := by
  obtain ⟨e₁, h₁, ht₁, hw₁⟩ := push_ok (e := { e with
      frequencyByHash := e.frequencyByHash.set h ((e.frequencyByHash.get? h).getD 0 + 1)
      freeTable := e.freeTable.set b ⟨h, n, t⟩ }) (b := b) (m := ⟨h, n, t⟩)
    (Dict.get?_set_self _ _ _)
    (fun b' m hm => by
      have := he.frequency b' m
      simp only [Dict.get?_set] at hm ⊢
      grind)
    (fun b' m hne hm => he.candidate b' m (by rwa [Dict.get?_set_ne _ hne] at hm))
  obtain ⟨e₂, h₂, ht₂, hw₂⟩ := compactIfNeeded_ok hw₁
  refine ⟨e₂, ?_, ht₂.trans ht₁, hw₂⟩
  unfold add
  simp only [bind_ok_iff, modify_ok_iff]
  exact ⟨⟨⟩, _, rfl, (), e₁, h₁, h₂⟩

theorem update_ok {b : ℕ} {m : BlockMetaData Hash} {t : ℚ} (he : e.Wf)
    (hb : e.freeTable.get? b = some m) :
    ∃ e', update b t e = .ok () e' ∧
      e'.freeTable = e.freeTable.set b { m with lastAccessed := t } ∧ e'.Wf := by
  obtain ⟨e₁, h₁, ht₁, hw₁⟩ := push_ok (e := { e with
      freeTable := e.freeTable.set b { m with lastAccessed := t } }) (b := b)
    (m := { m with lastAccessed := t }) (Dict.get?_set_self _ _ _)
    (fun b' m' hm => by
      have h₁ := he.frequency b' m'
      have h₂ := he.frequency b m hb
      simp only [Dict.get?_set] at hm
      grind)
    (fun b' m hne hm => he.candidate b' m (by rwa [Dict.get?_set_ne _ hne] at hm))
  obtain ⟨e₂, h₂, ht₂, hw₂⟩ := compactIfNeeded_ok hw₁
  refine ⟨e₂, ?_, ht₂.trans ht₁, hw₂⟩
  unfold update
  simp only [bind_ok_iff, get_ok_iff]
  refine ⟨e, e, ⟨rfl, rfl⟩, ?_⟩
  simp only [hb, bind_ok_iff, set_ok_iff]
  exact ⟨⟨⟩, _, rfl, (), e₁, h₁, h₂⟩

theorem Wf.remove {b : ℕ} (he : e.Wf) :
    Wf { e with freeTable := e.freeTable.erase b, generations := e.generations.erase b } := by
  refine ⟨fun b' m hm => ?_, fun b' m hm => ?_⟩
  · by_cases hne : b' = b
    · simp [hne] at hm
    · simp only [Dict.get?_erase_ne _ hne] at hm ⊢
      exact he.candidate b' m hm
  · by_cases hne : b' = b
    · simp [hne] at hm
    · simp only [Dict.get?_erase_ne _ hne] at hm
      exact he.frequency b' m hm

theorem remove_ok {b : ℕ} (he : e.Wf) (hb : e.freeTable.get? b ≠ none) :
    ∃ e', remove b e = .ok () e' ∧ e'.freeTable = e.freeTable.erase b ∧ e'.Wf := by
  obtain ⟨m, hm⟩ := Option.ne_none_iff_exists'.mp hb
  obtain ⟨g, hg, _⟩ := he.candidate b m hm
  obtain ⟨e', h', ht', hw'⟩ := compactIfNeeded_ok (he.remove (b := b))
  refine ⟨e', ?_, ht', hw'⟩
  unfold remove
  simp only [bind_ok_iff, get_ok_iff, raiseIf_ok_iff, set_ok_iff, modify_ok_iff,
    Dict.contains_eq_false_iff]
  exact ⟨e, e, ⟨rfl, rfl⟩, (), e, ⟨hb, rfl⟩, ⟨⟩, _, rfl, (), _, ⟨by simp [hg], rfl⟩, ⟨⟩, _, rfl, h'⟩

/-- Does the loop of `evict` have to correct the frequency of this candidate? -/
def outdated (e : FrequencyAwareEvictor Hash) (x : HeapEntry) : Bool :=
  match e.freeTable.get? x.blockId with
  | none => false
  | some m => decide (e.frequencyByHash.get? m.contentHash ≠ some x.frequency)

/-- Dropping a candidate that is not the current one of any block keeps the rest usable. -/
theorem Wf.drop {x : HeapEntry} {rest : List HeapEntry} (he : e.Wf)
    (hpop : heappop e.heap = some (x, rest))
    (hx : e.freeTable.get? x.blockId = none ∨ e.generations.get? x.blockId ≠ some x.generation) :
    Wf { e with heap := rest } := by
  refine ⟨fun b m hm => ?_, he.frequency⟩
  obtain ⟨g, hg, y, hy, hyb, hyg⟩ := he.candidate b m hm
  refine ⟨g, hg, y, mem_of_heappop hpop hy ?_, hyb, hyg⟩
  rintro rfl
  rcases hx with hx | hx
  · rw [hyb, hm] at hx
    exact absurd hx (by simp)
  · rw [hyb, hyg] at hx
    exact hx hg

/-- So does correcting a candidate. -/
theorem Wf.correct {x y : HeapEntry} {rest : List HeapEntry} (he : e.Wf)
    (hpop : heappop e.heap = some (x, rest)) (hb : y.blockId = x.blockId)
    (hg : y.generation = x.generation) : Wf { e with heap := y :: rest } := by
  refine ⟨fun b m hm => ?_, he.frequency⟩
  obtain ⟨g, hbg, z, hz, hzb, hzg⟩ := he.candidate b m hm
  by_cases hzx : z = x
  · subst hzx
    exact ⟨g, hbg, y, List.mem_cons_self, hb.trans hzb, hg.trans hzg⟩
  · exact ⟨g, hbg, z, List.mem_cons_of_mem _ (mem_of_heappop hpop hz hzx), hzb, hzg⟩

/-- So does giving up its block. -/
theorem Wf.take {x : HeapEntry} {rest : List HeapEntry} (he : e.Wf)
    (hpop : heappop e.heap = some (x, rest)) : Wf { e with
      heap := rest
      freeTable := e.freeTable.erase x.blockId
      generations := e.generations.erase x.blockId } := by
  refine ⟨fun b m hm => ?_, fun b m hm => ?_⟩
  · have hne : b ≠ x.blockId := by
      rintro rfl
      simp at hm
    simp only [Dict.get?_erase_ne _ hne] at hm ⊢
    obtain ⟨g, hg, z, hz, hzb, hzg⟩ := he.candidate b m hm
    exact ⟨g, hg, z, mem_of_heappop hpop hz fun h => hne (h ▸ hzb).symm, hzb, hzg⟩
  · have hne : b ≠ x.blockId := by
      rintro rfl
      simp at hm
    simp only [Dict.get?_erase_ne _ hne] at hm
    exact he.frequency b m hm

theorem countP_rest {x : HeapEntry} {heap rest : List HeapEntry} (p : HeapEntry → Bool)
    (hpop : heappop heap = some (x, rest)) :
    heap.countP p = rest.countP p + if p x then 1 else 0 := by
  rw [heappop_rest hpop, (List.perm_cons_erase (heappop_mem hpop)).countP_eq, List.countP_cons]

/-- The loop of `evict` finds a usable candidate. Every round either drops a candidate or corrects
an outdated one. -/
theorem evictLoop_ok {fuel : ℕ} (he : e.Wf) (hne : e.freeTable.items ≠ [])
    (hfuel : e.heap.length + e.heap.countP e.outdated < fuel) :
    ∃ b m e', evictLoop fuel e = .ok (b, m.contentHash) e' ∧ e.freeTable.get? b = some m ∧
      e'.freeTable = e.freeTable.erase b ∧ e'.Wf := by
  induction fuel generalizing e with
  | zero => exact absurd hfuel (Nat.not_lt_zero _)
  | succ fuel ih =>
    cases hpop : heappop e.heap with
    | none =>
      -- a block in the table has a candidate
      obtain ⟨⟨b, m⟩, hbm⟩ := List.exists_mem_of_ne_nil _ hne
      obtain ⟨g, _, x, hx, _⟩ := he.candidate b m (Dict.mem_items.mp hbm)
      rw [heappop_eq_none_iff.mp hpop] at hx
      exact absurd hx List.not_mem_nil
    | some p =>
      obtain ⟨x, rest⟩ := p
      have hlen := heappop_length hpop
      have hcount := countP_rest e.outdated hpop
      cases hget : e.freeTable.get? x.blockId with
      | none =>
        obtain ⟨b, m, e', hr, hbm, ht, hw⟩ := ih (e := { e with heap := rest })
          (he.drop hpop (Or.inl hget)) hne (by
            show rest.length + rest.countP e.outdated < fuel
            omega)
        refine ⟨b, m, e', ?_, hbm, ht, hw⟩
        simp [evictLoop, hpop, hget, hr]
      | some m =>
        by_cases hgen : e.generations.get? x.blockId = some x.generation
        · obtain ⟨y, hy, hyb, hyg⟩ := heapKey_of_frequency (b := x.blockId) (g := x.generation)
            (he.frequency x.blockId m hget)
          have hyf : e.frequencyByHash.get? m.contentHash = some y.frequency := by
            unfold heapKey at hy
            obtain ⟨f, hf, rfl⟩ := Option.map_eq_some_iff.mp hy
            exact hf
          by_cases hfreq : y.frequency = x.frequency
          · -- a usable candidate
            obtain ⟨e', hr, ht, hw'⟩ := compactIfNeeded_ok (he.take hpop)
            refine ⟨x.blockId, m, e', ?_, hget, ht, hw'⟩
            simp [evictLoop, hpop, hget, hgen, hy, hfreq, hr]
          · -- an outdated candidate is corrected
            have hx : e.outdated x = true := by
              simp only [outdated, hget, hyf, ne_eq, Option.some.injEq, hfreq, not_false_eq_true,
                decide_true]
            have hy' : e.outdated y = false := by
              simp [outdated, hyb, hget, hyf]
            obtain ⟨b, m', e', hr, hbm, ht, hw'⟩ := ih (e := { e with heap := y :: rest })
              (he.correct hpop hyb hyg) hne (by
              show (y :: rest).length + (y :: rest).countP e.outdated < fuel
              rw [hx, if_pos rfl] at hcount
              rw [List.length_cons, List.countP_cons, hy']
              simp only [Bool.false_eq_true, if_false]
              omega)
            refine ⟨b, m', e', ?_, hbm, ht, hw'⟩
            simp [evictLoop, hpop, hget, hgen, hy, hfreq, hr]
        · obtain ⟨b, m', e', hr, hbm, ht, hw⟩ := ih (e := { e with heap := rest })
            (he.drop hpop (Or.inr hgen)) hne (by
              show rest.length + rest.countP e.outdated < fuel
              omega)
          refine ⟨b, m', e', ?_, hbm, ht, hw⟩
          simp [evictLoop, hpop, hget, hgen, hr]

theorem evict_ok (he : e.Wf) (hne : e.freeTable.items ≠ []) :
    ∃ b m e', evict e = .ok (b, m.contentHash) e' ∧ e.freeTable.get? b = some m ∧
      e'.freeTable = e.freeTable.erase b ∧ e'.Wf := by
  have hle := List.countP_le_length (p := e.outdated) (l := e.heap)
  obtain ⟨b, m, e', hr, h⟩ := evictLoop_ok he hne
    (show e.heap.length + e.heap.countP e.outdated < 2 * e.heap.length + 1 by omega)
  refine ⟨b, m, e', ?_, h⟩
  unfold evict
  simp [hne, hr]

end FrequencyAwareEvictor

namespace Evictor

variable {Hash : Type} [DecidableEq Hash] {e : Evictor Hash}

/-- What the operations keep. -/
def Wf : Evictor Hash → Prop
  | .lru _ => True
  | .frequencyAware e => e.Wf

theorem make_wf (policy : EvictionPolicy) : (make policy : Evictor Hash).Wf := by
  cases policy with
  | lru => trivial
  | frequencyAware => exact ⟨fun b m h => absurd h (by simp), fun b m h => absurd h (by simp)⟩

omit [DecidableEq Hash] in
theorem freeTable_make (policy : EvictionPolicy) :
    (make policy : Evictor Hash).freeTable = .empty := by
  cases policy <;> rfl

/-- `evict` gives up a block that the evictor holds. -/
theorem evict_ok (he : e.Wf) (hne : e.numBlocks ≠ 0) :
    ∃ b m e', evict e = .ok (b, m.contentHash) e' ∧ e.freeTable.get? b = some m ∧
      e'.freeTable = e.freeTable.erase b ∧ e'.Wf := by
  have hitems : e.freeTable.items ≠ [] := fun h => hne (by rw [numBlocks, Dict.length, h]; rfl)
  cases e with
  | lru e =>
    obtain ⟨first, rest, hcons⟩ := List.exists_cons_of_ne_nil hitems
    have hmem := LRUEvictor.scan_mem first rest
    change e.freeTable.items = first :: rest at hcons
    refine ⟨(LRUEvictor.scan first rest).1, (LRUEvictor.scan first rest).2,
      .lru { e with freeTable := e.freeTable.erase (LRUEvictor.scan first rest).1 }, ?_, ?_, rfl,
      trivial⟩
    · have : LRUEvictor.evict e = .ok
          ((LRUEvictor.scan first rest).1, (LRUEvictor.scan first rest).2.contentHash)
          { e with freeTable := e.freeTable.erase (LRUEvictor.scan first rest).1 } := by
        unfold LRUEvictor.evict
        simp [hcons]
      simp only [evict, dispatch, this]
    · rw [← hcons] at hmem
      exact Dict.mem_items.mp hmem
  | frequencyAware e =>
    obtain ⟨b, m, e', hr, hbm, ht, hw⟩ := FrequencyAwareEvictor.evict_ok he hitems
    exact ⟨b, m, .frequencyAware e', by simp only [evict, dispatch, hr], hbm, ht, hw⟩

theorem add_ok {b n : ℕ} {h : Hash} {t : ℚ} (he : e.Wf) :
    ∃ e', add b h n t e = .ok () e' ∧ e'.freeTable = e.freeTable.set b ⟨h, n, t⟩ ∧ e'.Wf := by
  cases e with
  | lru e => exact ⟨_, rfl, rfl, trivial⟩
  | frequencyAware e =>
    obtain ⟨e', hr, ht, hw⟩ := FrequencyAwareEvictor.add_ok (b := b) (n := n) (h := h) (t := t) he
    exact ⟨.frequencyAware e', by simp only [add, dispatch, hr], ht, hw⟩

theorem update_ok {b : ℕ} {m : BlockMetaData Hash} {t : ℚ} (he : e.Wf)
    (hb : e.freeTable.get? b = some m) :
    ∃ e', update b t e = .ok () e' ∧
      e'.freeTable = e.freeTable.set b { m with lastAccessed := t } ∧ e'.Wf := by
  cases e with
  | lru e =>
    change e.freeTable.get? b = some m at hb
    refine ⟨.lru { e with freeTable := e.freeTable.set b { m with lastAccessed := t } }, ?_, rfl,
      trivial⟩
    have : LRUEvictor.update b t e =
        .ok () { e with freeTable := e.freeTable.set b { m with lastAccessed := t } } := by
      unfold LRUEvictor.update
      simp [hb]
    simp only [update, dispatch, this]
  | frequencyAware e =>
    obtain ⟨e', hr, ht, hw⟩ := FrequencyAwareEvictor.update_ok (t := t) he hb
    exact ⟨.frequencyAware e', by simp only [update, dispatch, hr], ht, hw⟩

theorem remove_ok {b : ℕ} (he : e.Wf) (hb : e.freeTable.get? b ≠ none) :
    ∃ e', remove b e = .ok () e' ∧ e'.freeTable = e.freeTable.erase b ∧ e'.Wf := by
  cases e with
  | lru e =>
    change e.freeTable.get? b ≠ none at hb
    refine ⟨.lru { e with freeTable := e.freeTable.erase b }, ?_, rfl, trivial⟩
    have : LRUEvictor.remove b e = .ok () { e with freeTable := e.freeTable.erase b } := by
      unfold LRUEvictor.remove
      simp [hb]
    simp only [remove, dispatch, this]
  | frequencyAware e =>
    obtain ⟨e', hr, ht, hw⟩ := FrequencyAwareEvictor.remove_ok he hb
    exact ⟨.frequencyAware e', by simp only [remove, dispatch, hr], ht, hw⟩

end Evictor

end Ikun
