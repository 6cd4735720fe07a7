import Mathlib.Data.List.MinMax
import Mathlib.Tactic.NormNum
import Ikun.Block.Evictor

/-!
# Runs of the evictors

What an evictor is for is said by `FreeSet`: a set of free blocks, and how often a block of each
content was added to it. An evictor is run by a sequence of operations, each issued as the allocator
does it: it adds blocks that are not there, and updates and removes blocks that are.

* `FrequencyAwareEvictor` gives up the block of least priority, in every run
  (`frequencyAwareEvictor_refines`). Its heap holds candidates whose priority may have grown since
  they were pushed (`Candidates`), so the least one is only trusted when it is up to date.
* `LRUEvictor` scans its table in the order in which the blocks were added, and stops early. It
  gives up a least recently used block if and only if the table is in an order in which the scan
  finds one (`lruEvictor_run_iff`).
-/

namespace Ikun

open Exec

variable {Hash : Type}

/-! ## Operations and runs -/

/-- An operation, with its arguments. -/
inductive EvictorOp (Hash : Type)
  | add (blockId : ℕ) (contentHash : Hash) (numHashedTokens : ℕ) (lastAccessed : ℚ)
  | update (blockId : ℕ) (lastAccessed : ℚ)
  | remove (blockId : ℕ)
  | evict

namespace EvictorOp

/-- Does the allocator issue the operation when the evictor holds these blocks? -/
def Issuable (freeTable : Dict ℕ (BlockMetaData Hash)) : EvictorOp Hash → Prop
  | .add blockId _ _ _ => freeTable.get? blockId = none
  | .update blockId _ => freeTable.get? blockId ≠ none
  | .remove blockId => freeTable.get? blockId ≠ none
  | .evict => freeTable.items ≠ []

/-- How many blocks of this content the operation adds. -/
def added [DecidableEq Hash] (contentHash : Hash) : EvictorOp Hash → ℕ
  | .add _ h _ _ => if h = contentHash then 1 else 0
  | _ => 0

end EvictorOp

/-- The states that `init` reaches by operations that `exec` runs. -/
inductive EvictorRun {σ : Type} (exec : EvictorOp Hash → EStateM Exn σ (Option (ℕ × Hash)))
    (freeTable : σ → Dict ℕ (BlockMetaData Hash)) (init : σ) : List (EvictorOp Hash) → σ → Prop
  | nil : EvictorRun exec freeTable init [] init
  | snoc {ops op s s' out} : EvictorRun exec freeTable init ops s → op.Issuable (freeTable s) →
      exec op s = .ok out s' → EvictorRun exec freeTable init (ops ++ [op]) s'

/-! ## What an evictor is for -/

/-- The free blocks, and how often a block of each content was added to them. -/
structure FreeSet (Hash : Type) where
  table : ℕ → Option (BlockMetaData Hash)
  frequency : Hash → ℕ

namespace FreeSet

def put (s : FreeSet Hash) (b : ℕ) (m : BlockMetaData Hash) : FreeSet Hash :=
  { s with table := Function.update s.table b (some m) }

def erase (s : FreeSet Hash) (b : ℕ) : FreeSet Hash :=
  { s with table := Function.update s.table b none }

/-- One more block of this content has been added. -/
def count [DecidableEq Hash] (s : FreeSet Hash) (h : Hash) : FreeSet Hash :=
  { s with frequency := Function.update s.frequency h (s.frequency h + 1) }

/-- An operation on the set, and what it returns. `Chosen` says which block may be given up. -/
inductive Step [DecidableEq Hash]
    (Chosen : FreeSet Hash → ℕ → BlockMetaData Hash → Prop) (s : FreeSet Hash) :
    EvictorOp Hash → Option (ℕ × Hash) → FreeSet Hash → Prop
  | add {b h n t} : s.table b = none →
      Step Chosen s (.add b h n t) none ((s.count h).put b ⟨h, n, t⟩)
  | update {b t m} : s.table b = some m →
      Step Chosen s (.update b t) none (s.put b { m with lastAccessed := t })
  | remove {b} : s.table b ≠ none → Step Chosen s (.remove b) none (s.erase b)
  | evict {b m} : s.table b = some m → Chosen s b m →
      Step Chosen s .evict (some (b, m.contentHash)) (s.erase b)

/-- (frequency, last_accessed, -num_hashed_tokens, block_id), ordered lexicographically. -/
def priority (s : FreeSet Hash) (b : ℕ) (m : BlockMetaData Hash) : ℕ ×ₗ ℚ ×ₗ ℤ ×ₗ ℕ :=
  toLex (s.frequency m.contentHash,
    toLex (m.lastAccessed, toLex (-(m.numHashedTokens : ℤ), b)))

/-- No free block has a smaller priority. -/
def LeastPriority (s : FreeSet Hash) (b : ℕ) (m : BlockMetaData Hash) : Prop :=
  ∀ b' m', s.table b' = some m' → s.priority b m ≤ s.priority b' m'

/-- No free block was accessed earlier, and none of those accessed at the same time has more hashed
tokens. -/
def LeastRecentlyUsed (s : FreeSet Hash) (_ : ℕ) (m : BlockMetaData Hash) : Prop :=
  ∀ b' m', s.table b' = some m' → m.lastAccessed ≤ m'.lastAccessed ∧
    (m'.lastAccessed = m.lastAccessed → m'.numHashedTokens ≤ m.numHashedTokens)

/-- The blocks of a table after `ops`. -/
def ofTable [DecidableEq Hash] (ops : List (EvictorOp Hash))
    (freeTable : Dict ℕ (BlockMetaData Hash)) : FreeSet Hash :=
  ⟨freeTable.get?, fun h => (ops.map (EvictorOp.added h)).sum⟩

variable [DecidableEq Hash] {ops : List (EvictorOp Hash)} {table : Dict ℕ (BlockMetaData Hash)}

theorem ofTable_add (b n : ℕ) (h : Hash) (t : ℚ) :
    ofTable (ops ++ [.add b h n t]) (table.set b ⟨h, n, t⟩) =
      ((ofTable ops table).count h).put b ⟨h, n, t⟩ := by
  simp only [ofTable, put, count, FreeSet.mk.injEq]
  constructor
  · funext b'
    rw [Dict.get?_set, Function.update_apply]
  · funext h'
    rw [List.map_append, List.sum_append, Function.update_apply]
    by_cases heq : h' = h
    · subst heq
      simp [EvictorOp.added]
    · simp [EvictorOp.added, heq, Ne.symm heq]

/-- An operation that adds nothing changes the table only. -/
theorem ofTable_append {op : EvictorOp Hash} (hop : ∀ h, op.added h = 0)
    (table : Dict ℕ (BlockMetaData Hash)) : ofTable (ops ++ [op]) table = ofTable ops table := by
  simp only [ofTable, FreeSet.mk.injEq, true_and]
  funext h
  simp [hop h]

theorem ofTable_set (b : ℕ) (m : BlockMetaData Hash) :
    ofTable ops (table.set b m) = (ofTable ops table).put b m := by
  simp only [ofTable, put, FreeSet.mk.injEq, and_true]
  funext b'
  rw [Dict.get?_set, Function.update_apply]

theorem ofTable_erase (b : ℕ) : ofTable ops (table.erase b) = (ofTable ops table).erase b := by
  simp only [ofTable, erase, FreeSet.mk.injEq, and_true]
  funext b'
  rw [Dict.get?_erase, Function.update_apply]

end FreeSet

/-! ## `FrequencyAwareEvictor` -/

namespace FrequencyAwareEvictor

variable [DecidableEq Hash] {e e' : FrequencyAwareEvictor Hash}

def exec : EvictorOp Hash → EStateM Exn (FrequencyAwareEvictor Hash) (Option (ℕ × Hash))
  | .add blockId contentHash numHashedTokens lastAccessed => do
    add blockId contentHash numHashedTokens lastAccessed
    pure none
  | .update blockId lastAccessed => do
    update blockId lastAccessed
    pure none
  | .remove blockId => do
    remove blockId
    pure none
  | .evict => do
    let evicted ← evict
    pure (some evicted)

/-- How often a block of this content was added, according to the evictor. -/
def frequencyOf (e : FrequencyAwareEvictor Hash) (h : Hash) : ℕ := (e.frequencyByHash.get? h).getD 0

/-- The heap entry that a block of the table has when it is up to date. -/
def entry (e : FrequencyAwareEvictor Hash) (b : ℕ) (m : BlockMetaData Hash) (g : ℕ) : HeapEntry :=
  ⟨e.frequencyOf m.contentHash, m.lastAccessed, -m.numHashedTokens, b, g⟩

theorem eq_entry_of_heapKey {b g : ℕ} {m : BlockMetaData Hash} {x : HeapEntry}
    (h : e.heapKey b m g = some x) : x = e.entry b m g := by
  unfold heapKey at h
  obtain ⟨f, hf, rfl⟩ := Option.map_eq_some_iff.mp h
  rw [entry, frequencyOf, hf]
  rfl

/-- Every candidate in the heap that is the current one of its block is up to date, except that the
frequency of the content may have grown. -/
structure Candidates (e : FrequencyAwareEvictor Hash) : Prop where
  current : ∀ x ∈ e.heap, ∀ m, e.freeTable.get? x.blockId = some m →
    e.generations.get? x.blockId = some x.generation →
    ∃ f ≤ e.frequencyOf m.contentHash,
      x = { e.entry x.blockId m x.generation with frequency := f }
  /-- Generations in the heap have been given out. -/
  fresh : ∀ x ∈ e.heap, x.generation ≤ e.nextGeneration
  /-- So have those of the blocks. -/
  given : ∀ b g, e.generations.get? b = some g → g ≤ e.nextGeneration

/-- Is the heap small enough? -/
def Compact (e : FrequencyAwareEvictor Hash) : Prop :=
  e.heap.length ≤ 2 * e.freeTable.length + 1

/-- Dropping candidates and blocks keeps the candidates of the blocks that stay. -/
theorem Candidates.drop (he : e.Candidates) (hheap : ∀ x ∈ e'.heap, x ∈ e.heap)
    (htable : ∀ b m, e'.freeTable.get? b = some m → e.freeTable.get? b = some m)
    (hgenerations : ∀ b g, e'.generations.get? b = some g → e.generations.get? b = some g)
    (hfrequency : ∀ h, e.frequencyOf h = e'.frequencyOf h)
    (hnext : e.nextGeneration = e'.nextGeneration) : e'.Candidates := by
  refine ⟨fun x hx m hm hg => ?_, fun x hx => ?_, fun b g hg => ?_⟩
  · obtain ⟨f, hf, hxf⟩ :=
      he.current x (hheap x hx) m (htable _ _ hm) (hgenerations _ _ hg)
    exact ⟨f, hfrequency m.contentHash ▸ hf, hxf⟩
  · exact hnext ▸ he.fresh x (hheap x hx)
  · exact hnext ▸ he.given b g (hgenerations b g hg)

/-! ### Pushing and compacting -/

/-- What `_push` does. -/
theorem push_eq {b : ℕ} (h : push b e = .ok () e') : ∃ m, e.freeTable.get? b = some m ∧
    e' = { e with
      nextGeneration := e.nextGeneration + 1
      generations := e.generations.set b (e.nextGeneration + 1)
      heap := e.entry b m (e.nextGeneration + 1) :: e.heap } := by
  unfold push at h
  simp only [bind_ok_iff, modify_ok_iff, get_ok_iff] at h
  obtain ⟨_, e₁, rfl, _, _, ⟨rfl, rfl⟩, h⟩ := h
  cases hm : e.freeTable.get? b with
  | none => simp [hm] at h
  | some m =>
    refine ⟨m, rfl, ?_⟩
    simp only [hm, Option.bind_some, heapKey] at h
    cases hf : e.frequencyByHash.get? m.contentHash with
    | none => simp [hf] at h
    | some f =>
      simp only [hf, Option.map_some, set_ok_iff] at h
      rw [h, entry, frequencyOf, hf]
      rfl

/-- Pushing keeps what is known about the candidates of the other blocks, and gives the block an
up-to-date one. -/
theorem Candidates.push {b : ℕ} (h : push b e = .ok () e') (hcurrent : ∀ x ∈ e.heap, x.blockId ≠ b → ∀ m,
      e.freeTable.get? x.blockId = some m → e.generations.get? x.blockId = some x.generation →
      ∃ f ≤ e.frequencyOf m.contentHash,
        x = { e.entry x.blockId m x.generation with frequency := f })
    (hfresh : ∀ x ∈ e.heap, x.generation ≤ e.nextGeneration)
    (hgiven : ∀ b g, e.generations.get? b = some g → g ≤ e.nextGeneration) :
    e'.Candidates := by
  obtain ⟨m, hm, rfl⟩ := push_eq h
  refine ⟨fun x hx m' hm' hg => ?_, fun x hx => ?_, fun b' g hg => ?_⟩
  · cases List.mem_cons.mp hx with
    | inl heq =>
      subst heq
      obtain rfl : m = m' := Option.some.inj (hm.symm.trans hm')
      exact ⟨_, le_rfl, rfl⟩
    | inr hx =>
      change (e.generations.set b _).get? _ = _ at hg
      rw [Dict.get?_set] at hg
      split at hg
      · -- the generation of `b` is new
        have hle := hfresh x hx
        rw [← Option.some.inj hg] at hle
        exact absurd hle (Nat.not_succ_le_self _)
      · next hne => exact hcurrent x hx hne m' hm' hg
  · cases List.mem_cons.mp hx with
    | inl heq =>
      subst heq
      exact le_rfl
    | inr hx => exact (hfresh x hx).trans (Nat.le_succ _)
  · change (e.generations.set b _).get? _ = _ at hg
    rw [Dict.get?_set] at hg
    split at hg
    · exact (Option.some.inj hg).ge
    · exact (hgiven b' g hg).trans (Nat.le_succ _)

theorem heapKeys_eq {l : List (ℕ × BlockMetaData Hash)} {heap : List HeapEntry}
    (h : e.heapKeys l = some heap) : heap.length = l.length ∧ ∀ x ∈ heap, ∃ p ∈ l, ∃ g,
      e.generations.get? p.1 = some g ∧ x = e.entry p.1 p.2 g := by
  induction l generalizing heap with
  | nil =>
    obtain rfl := Option.some.inj h
    exact ⟨rfl, fun x hx => absurd hx List.not_mem_nil⟩
  | cons p l ih =>
    unfold heapKeys at h
    split at h
    · next x entries hx hrest =>
      obtain rfl := Option.some.inj h
      obtain ⟨hlen, hall⟩ := ih hrest
      obtain ⟨g, hg, hx⟩ := Option.bind_eq_some_iff.mp hx
      refine ⟨congrArg Nat.succ hlen, fun y hy => ?_⟩
      cases List.mem_cons.mp hy with
      | inl heq => exact ⟨p, List.mem_cons_self, g, hg, heq.trans (eq_entry_of_heapKey hx)⟩
      | inr hy =>
        obtain ⟨q, hq, g', hg', hyq⟩ := hall y hy
        exact ⟨q, List.mem_cons_of_mem _ hq, g', hg', hyq⟩
    · exact absurd h (by simp)

/-- What `_compact_if_needed` does. -/
theorem compactIfNeeded_eq (h : compactIfNeeded e = .ok () e') : ∃ heap, e' = { e with heap := heap }
    ∧ heap.length ≤ 2 * e.freeTable.length + 1 ∧ (heap = e.heap ∨
      e.heapKeys e.freeTable.items = some heap) := by
  unfold compactIfNeeded at h
  simp only [bind_ok_iff, get_ok_iff] at h
  obtain ⟨_, _, ⟨h₁, h₂⟩, h⟩ := h
  rw [h₁, h₂] at h
  split at h
  · next hlen =>
    rw [pure_ok_iff] at h
    exact ⟨e.heap, h.2, hlen, Or.inl rfl⟩
  · cases hheap : e.heapKeys e.freeTable.items with
    | none => simp [hheap] at h
    | some heap =>
      simp only [hheap, set_ok_iff] at h
      refine ⟨heap, h, ?_, Or.inr rfl⟩
      rw [(heapKeys_eq hheap).1, Dict.length]
      omega

theorem Candidates.compactIfNeeded (he : e.Candidates) (h : compactIfNeeded e = .ok () e') :
    e'.Candidates ∧ e'.Compact ∧ e'.freeTable = e.freeTable ∧
      e'.frequencyByHash = e.frequencyByHash := by
  obtain ⟨heap, rfl, hlen, hheap⟩ := compactIfNeeded_eq h
  refine ⟨?_, hlen, rfl, rfl⟩
  cases hheap with
  | inl heq =>
    subst heq
    exact he
  | inr hheap =>
    have hall := (heapKeys_eq hheap).2
    refine ⟨fun x hx m hm hg => ?_, fun x hx => ?_, he.given⟩
    · obtain ⟨p, hp, g, hpg, rfl⟩ := hall x hx
      obtain rfl : p.2 = m := Option.some.inj ((Dict.mem_items.mp hp).symm.trans hm)
      exact ⟨_, le_rfl, rfl⟩
    · obtain ⟨p, hp, g, hpg, rfl⟩ := hall x hx
      exact he.given p.1 g hpg

/-! ### Eviction -/

/-- The evictor without the block that a candidate stands for. -/
def take (e : FrequencyAwareEvictor Hash) (x : HeapEntry) (rest : List HeapEntry) :
    FrequencyAwareEvictor Hash :=
  { e with
    heap := rest
    freeTable := e.freeTable.erase x.blockId
    generations := e.generations.erase x.blockId }

/-- What one round of the loop of `evict` does, when the loop returns. -/
theorem evictLoop_succ_iff {fuel : ℕ} {out : ℕ × Hash} :
    evictLoop (fuel + 1) e = .ok out e' ↔ ∃ x rest, heappop e.heap = some (x, rest) ∧
      ((e.freeTable.get? x.blockId = none ∨ e.generations.get? x.blockId ≠ some x.generation) ∧
        evictLoop fuel { e with heap := rest } = .ok out e' ∨
      ∃ m y, e.freeTable.get? x.blockId = some m ∧
        e.generations.get? x.blockId = some x.generation ∧
        e.heapKey x.blockId m x.generation = some y ∧
        (y.frequency ≠ x.frequency ∧ evictLoop fuel { e with heap := y :: rest } = .ok out e' ∨
          y.frequency = x.frequency ∧ out = (x.blockId, m.contentHash) ∧
            compactIfNeeded (e.take x rest) = .ok () e')) := by
  cases hpop : heappop e.heap with
  | none => simp [evictLoop, hpop]
  | some p =>
    obtain ⟨x, rest⟩ := p
    cases hm : e.freeTable.get? x.blockId with
    | none => simp [evictLoop, hpop, hm]
    | some m =>
      by_cases hg : e.generations.get? x.blockId = some x.generation
      · cases hkey : e.heapKey x.blockId m x.generation with
        | none => simp [evictLoop, hpop, hm, hg, hkey]
        | some y =>
          by_cases hf : y.frequency = x.frequency
          · simp [evictLoop, hpop, hm, hg, hkey, hf, take]
            exact fun _ => ⟨fun ⟨_, h⟩ => h, fun h => ⟨(), h⟩⟩
          · simp [evictLoop, hpop, hm, hg, hkey, hf]
      · simp [evictLoop, hpop, hm, hg]

/-- Correcting a candidate. -/
theorem Candidates.correct {x : HeapEntry} {rest : List HeapEntry} {m : BlockMetaData Hash}
    (hc : e.Candidates) (hsub : ∀ y ∈ rest, y ∈ e.heap) (hmem : x ∈ e.heap)
    (hm : e.freeTable.get? x.blockId = some m) :
    Candidates { e with heap := e.entry x.blockId m x.generation :: rest } := by
  refine ⟨fun y hy m' hm' hg' => ?_, fun y hy => ?_, hc.given⟩
  · cases List.mem_cons.mp hy with
    | inl heq =>
      subst heq
      obtain rfl : m = m' := Option.some.inj (hm.symm.trans hm')
      exact ⟨_, le_rfl, rfl⟩
    | inr hy => exact hc.current y (hsub y hy) m' hm' hg'
  · cases List.mem_cons.mp hy with
    | inl heq =>
      subst heq
      exact hc.fresh x hmem
    | inr hy => exact hc.fresh y (hsub y hy)

theorem Candidates.take {x : HeapEntry} {rest : List HeapEntry} (hc : e.Candidates)
    (hsub : ∀ y ∈ rest, y ∈ e.heap) : (e.take x rest).Candidates :=
  hc.drop hsub (fun _ _ h => Dict.get?_of_erase h) (fun _ _ h => Dict.get?_of_erase h) (fun _ => rfl) rfl

/-- The blocks that the evictor holds, and the frequencies it has counted. -/
def toFreeSet (e : FrequencyAwareEvictor Hash) : FreeSet Hash :=
  ⟨e.freeTable.get?, e.frequencyOf⟩

/-- An up-to-date candidate that comes before a candidate of another block has no larger priority
than that block, although the other candidate may be out of date. -/
theorem priority_le_of_entry_le {b b' g g' f : ℕ} {m m' : BlockMetaData Hash}
    (h : e.entry b m g ≤ { e.entry b' m' g' with frequency := f })
    (hf : f ≤ e.frequencyOf m'.contentHash) :
    e.toFreeSet.priority b m ≤ e.toFreeSet.priority b' m' := by
  change (e.entry b m g).key ≤ HeapEntry.key _ at h
  simp only [HeapEntry.key, entry, Prod.Lex.toLex_le_toLex] at h
  simp only [FreeSet.priority, toFreeSet, Prod.Lex.toLex_le_toLex]
  cases hf.lt_or_eq with
  | inl hlt =>
    cases h with
    | inl h => exact Or.inl (h.trans hlt)
    | inr h => exact Or.inl (h.1.trans_lt hlt)
  | inr heq =>
    subst heq
    refine h.imp_right fun h => h.imp_right fun h => h.imp_right fun h => h.imp_right fun h => ?_
    refine h.imp_right fun h => h.imp_right fun h => ?_
    exact h.elim le_of_lt fun h => h.1.le

/-- The loop of `evict` gives up a block of least priority, and nothing else. -/
theorem evictLoop_spec {fuel : ℕ} {out : ℕ × Hash} (hw : e.Wf) (hc : e.Candidates)
    (h : evictLoop fuel e = .ok out e') : ∃ b m, out = (b, m.contentHash) ∧
      e.freeTable.get? b = some m ∧ e.toFreeSet.LeastPriority b m ∧
      e'.freeTable = e.freeTable.erase b ∧ e'.frequencyByHash = e.frequencyByHash ∧
      e'.Candidates ∧ e'.Compact := by
  induction fuel generalizing e with
  | zero => simp [evictLoop] at h
  | succ fuel ih =>
    obtain ⟨x, rest, hpop, hround⟩ := evictLoop_succ_iff.mp h
    obtain ⟨hmem, hleast, hrest⟩ := heappop_eq_some_iff.mp hpop
    have hsub : ∀ y ∈ rest, y ∈ e.heap := fun y hy => List.mem_of_mem_erase (hrest ▸ hy)
    cases hround with
    | inl hround =>
      obtain ⟨hstale, hloop⟩ := hround
      exact ih (e := { e with heap := rest }) (hw.drop hpop hstale)
        (hc.drop hsub (fun _ _ h => h) (fun _ _ h => h) (fun _ => rfl) rfl) hloop
    | inr hround =>
      obtain ⟨m, y, hm, hg, hkey, hround⟩ := hround
      obtain rfl := eq_entry_of_heapKey hkey
      cases hround with
      | inl hround =>
        exact ih (e := { e with heap := e.entry x.blockId m x.generation :: rest })
          (hw.correct hpop rfl rfl) (hc.correct hsub hmem hm) hround.2
      | inr hround =>
        obtain ⟨hfreq, rfl, hcompact⟩ := hround
        have hx : x = e.entry x.blockId m x.generation := by
          obtain ⟨f, _, hxf⟩ := hc.current x hmem m hm hg
          rw [hxf] at hfreq
          rw [show f = e.frequencyOf m.contentHash from hfreq.symm] at hxf
          exact hxf
        obtain ⟨hc', hcompact, ht, hf⟩ := Candidates.compactIfNeeded (hc.take hsub) hcompact
        refine ⟨x.blockId, m, rfl, hm, fun b' m' hm' => ?_, ht, hf, hc', hcompact⟩
        -- every block has a current candidate, which comes after `x`
        obtain ⟨g, hg', y, hy, rfl, rfl⟩ := hw.candidate b' m' hm'
        obtain ⟨f, hle, hyf⟩ := hc.current y hy m' hm' hg'
        have hxy := hleast y hy
        rw [hx, hyf] at hxy
        exact priority_le_of_entry_le hxy hle

/-- More fuel does not change what the loop returns. -/
theorem evictLoop_mono {fuel fuel' : ℕ} {out : ℕ × Hash} (h : evictLoop fuel e = .ok out e')
    (hle : fuel ≤ fuel') : evictLoop fuel' e = .ok out e' := by
  induction fuel generalizing e fuel' with
  | zero => simp [evictLoop] at h
  | succ fuel ih =>
    obtain ⟨fuel', rfl⟩ := Nat.exists_eq_add_of_le' (Nat.lt_of_lt_of_le fuel.succ_pos hle)
    have hle' : fuel ≤ fuel' := Nat.le_of_succ_le_succ hle
    obtain ⟨x, rest, hpop, hround⟩ := evictLoop_succ_iff.mp h
    refine evictLoop_succ_iff.mpr ⟨x, rest, hpop, hround.imp (And.imp_right (ih · hle')) ?_⟩
    rintro ⟨m, y, hm, hg, hkey, hround⟩
    exact ⟨m, y, hm, hg, hkey, hround.imp_left (And.imp_right (ih · hle'))⟩

/-! ### The other operations -/

theorem Candidates.add {b n : ℕ} {h : Hash} {t : ℚ} (hc : e.Candidates)
    (hadd : add b h n t e = .ok () e') : e'.Candidates ∧ e'.Compact ∧
      e'.frequencyOf = Function.update e.frequencyOf h (e.frequencyOf h + 1) := by
  unfold FrequencyAwareEvictor.add at hadd
  simp only [bind_ok_iff, modify_ok_iff] at hadd
  obtain ⟨_, e₁, rfl, _, e₂, hpush, hcompact⟩ := hadd
  have hfrequency : frequencyOf { e with
      frequencyByHash := e.frequencyByHash.set h (e.frequencyOf h + 1)
      freeTable := e.freeTable.set b ⟨h, n, t⟩ } =
        Function.update e.frequencyOf h (e.frequencyOf h + 1) := by
    funext h'
    rw [frequencyOf, Dict.get?_set, Function.update_apply]
    split
    · rfl
    · rfl
  have hc₂ : e₂.Candidates := by
    refine Candidates.push hpush (fun x hx hne m hm hg => ?_) hc.fresh hc.given
    change (e.freeTable.set b _).get? _ = _ at hm
    rw [Dict.get?_set_ne _ hne] at hm
    obtain ⟨f, hf, hxf⟩ := hc.current x hx m hm hg
    refine ⟨f, hf.trans ?_, hxf⟩
    change _ ≤ frequencyOf { e with
      frequencyByHash := e.frequencyByHash.set h (e.frequencyOf h + 1)
      freeTable := e.freeTable.set b ⟨h, n, t⟩ } _
    rw [hfrequency, Function.update_apply]
    split
    · next heq => exact heq ▸ Nat.le_succ _
    · exact le_rfl
  obtain ⟨hc', hcompact', _, hf⟩ := hc₂.compactIfNeeded hcompact
  obtain ⟨m, _, rfl⟩ := push_eq hpush
  refine ⟨hc', hcompact', ?_⟩
  rw [← hfrequency]
  funext h'
  rw [frequencyOf, hf]
  rfl

theorem Candidates.update {b : ℕ} {t : ℚ} (hc : e.Candidates) (hupdate : update b t e = .ok () e') :
    e'.Candidates ∧ e'.Compact ∧ e'.frequencyByHash = e.frequencyByHash := by
  unfold FrequencyAwareEvictor.update at hupdate
  simp only [bind_ok_iff, get_ok_iff] at hupdate
  obtain ⟨_, _, ⟨h₁, h₂⟩, hupdate⟩ := hupdate
  rw [h₁, h₂] at hupdate
  cases hm : e.freeTable.get? b with
  | none => simp [hm] at hupdate
  | some m =>
    simp only [hm, bind_ok_iff, set_ok_iff] at hupdate
    obtain ⟨_, e₁, rfl, _, e₂, hpush, hcompact⟩ := hupdate
    have hc₂ : e₂.Candidates := by
      refine Candidates.push hpush (fun x hx hne m' hm' hg => ?_) hc.fresh hc.given
      change (e.freeTable.set b _).get? _ = _ at hm'
      rw [Dict.get?_set_ne _ hne] at hm'
      exact hc.current x hx m' hm' hg
    obtain ⟨hc', hcompact', _, hf⟩ := hc₂.compactIfNeeded hcompact
    obtain ⟨_, _, rfl⟩ := push_eq hpush
    exact ⟨hc', hcompact', hf⟩

theorem Candidates.remove {b : ℕ} (hc : e.Candidates) (hremove : remove b e = .ok () e') :
    e'.Candidates ∧ e'.Compact ∧ e'.frequencyByHash = e.frequencyByHash := by
  unfold FrequencyAwareEvictor.remove at hremove
  simp only [bind_ok_iff, get_ok_iff, raiseIf_ok_iff, set_ok_iff, modify_ok_iff] at hremove
  obtain ⟨_, _, ⟨h₁, h₂⟩, _, _, ⟨_, h₃⟩, _, _, h₄, _, _, ⟨_, h₅⟩, _, _, h₆, hcompact⟩ := hremove
  subst h₆ h₅ h₄ h₃ h₂ h₁
  obtain ⟨hc', hcompact', _, hf⟩ := Candidates.compactIfNeeded (by
    exact hc.drop (fun _ h => h) (fun _ _ h => Dict.get?_of_erase h)
      (fun _ _ h => Dict.get?_of_erase h) (fun _ => rfl) rfl) hcompact
  exact ⟨hc', hcompact', hf⟩

/-! ### Runs -/

/-- `__init__`. -/
def init : FrequencyAwareEvictor Hash := ⟨.empty, .empty, [], .empty, 0⟩

/-- What every run of operations keeps. -/
structure Refines (ops : List (EvictorOp Hash)) (e : FrequencyAwareEvictor Hash) : Prop where
  wf : e.Wf
  candidates : e.Candidates
  compact : e.Compact
  counted : e.toFreeSet = FreeSet.ofTable ops e.freeTable

theorem init_refines : Refines [] (init : FrequencyAwareEvictor Hash) where
  wf := ⟨fun _ _ h => absurd h (by simp [init]), fun _ _ h => absurd h (by simp [init])⟩
  candidates := ⟨fun _ h => absurd h (by simp [init]), fun _ h => absurd h (by simp [init]),
    fun _ _ h => absurd h (by simp [init])⟩
  compact := Nat.zero_le _
  counted := rfl

variable {ops : List (EvictorOp Hash)}

/-- An operation that adds no block counts nothing. -/
theorem Refines.counted_append {op : EvictorOp Hash} (he : e.Refines ops)
    (hop : ∀ h, op.added h = 0) (hf : e'.frequencyByHash = e.frequencyByHash) :
    e'.toFreeSet = FreeSet.ofTable (ops ++ [op]) e'.freeTable := by
  have hfrequency : e'.frequencyOf = e.frequencyOf := by
    funext h
    rw [frequencyOf, hf, frequencyOf]
  have hcounted := congrArg FreeSet.frequency he.counted
  rw [FreeSet.ofTable_append hop, toFreeSet, hfrequency]
  exact congrArg (FreeSet.mk e'.freeTable.get?) hcounted

/-- One operation, issued as the allocator does it, is an operation on the set of free blocks. -/
theorem Refines.exec {op : EvictorOp Hash} (he : e.Refines ops) (hop : op.Issuable e.freeTable) :
    ∃ out e', exec op e = .ok out e' ∧ e'.Refines (ops ++ [op]) ∧
      FreeSet.Step FreeSet.LeastPriority (FreeSet.ofTable ops e.freeTable) op out
        (FreeSet.ofTable (ops ++ [op]) e'.freeTable) := by
  cases op with
  | add b h n t =>
    obtain ⟨e', hadd, ht, hw⟩ := add_ok (b := b) (n := n) (h := h) (t := t) he.wf
    obtain ⟨hc, hcompact, hf⟩ := he.candidates.add hadd
    refine ⟨none, e', by simp [FrequencyAwareEvictor.exec, hadd], ⟨hw, hc, hcompact, ?_⟩, ?_⟩
    · rw [ht, FreeSet.ofTable_add, ← he.counted, toFreeSet, hf, ht]
      simp only [FreeSet.put, FreeSet.count, toFreeSet, FreeSet.mk.injEq, and_true]
      funext b'
      rw [Dict.get?_set, Function.update_apply]
    · rw [ht, FreeSet.ofTable_add]
      exact .add hop
  | update b t =>
    obtain ⟨m, hm⟩ := Option.ne_none_iff_exists'.mp hop
    obtain ⟨e', hupdate, ht, hw⟩ := update_ok (t := t) he.wf hm
    obtain ⟨hc, hcompact, hf⟩ := he.candidates.update hupdate
    refine ⟨none, e', by simp [FrequencyAwareEvictor.exec, hupdate],
      ⟨hw, hc, hcompact, he.counted_append (fun _ => rfl) hf⟩, ?_⟩
    rw [ht, FreeSet.ofTable_append (fun _ => rfl), FreeSet.ofTable_set]
    exact .update hm
  | remove b =>
    obtain ⟨e', hremove, ht, hw⟩ := remove_ok he.wf hop
    obtain ⟨hc, hcompact, hf⟩ := he.candidates.remove hremove
    refine ⟨none, e', by simp [FrequencyAwareEvictor.exec, hremove],
      ⟨hw, hc, hcompact, he.counted_append (fun _ => rfl) hf⟩, ?_⟩
    rw [ht, FreeSet.ofTable_append (fun _ => rfl), FreeSet.ofTable_erase]
    exact .remove hop
  | evict =>
    obtain ⟨b, m, e', hevict, hm, ht, hw⟩ := evict_ok he.wf hop
    have hloop : evictLoop (2 * e.heap.length + 1) e = .ok (b, m.contentHash) e' := by
      unfold evict at hevict
      simpa [show e.freeTable.items ≠ [] from hop] using hevict
    obtain ⟨b', m', hout, hm', hleast, ht', hf, hc, hcompact⟩ :=
      evictLoop_spec he.wf he.candidates hloop
    obtain ⟨rfl, hhash⟩ := Prod.mk.inj hout
    obtain rfl : m = m' := Option.some.inj (hm.symm.trans hm')
    refine ⟨some (b, m.contentHash), e', by simp [FrequencyAwareEvictor.exec, hevict],
      ⟨hw, hc, hcompact, he.counted_append (fun _ => rfl) hf⟩, ?_⟩
    rw [ht, FreeSet.ofTable_append (fun _ => rfl), FreeSet.ofTable_erase, ← he.counted]
    exact .evict hm hleast

theorem refines_of_run (hrun : EvictorRun FrequencyAwareEvictor.exec freeTable init ops e) :
    e.Refines ops := by
  induction hrun with
  | nil => exact init_refines
  | snoc _ hop hexec ih =>
    obtain ⟨out, e', hexec', he', _⟩ := ih.exec hop
    rw [hexec] at hexec'
    obtain ⟨_, rfl⟩ := EStateM.Result.ok.inj hexec'
    exact he'

/-- In every run of operations that are issued as the allocator does it, the next operation does not
raise, it is an operation on the set of free blocks that gives up a block of least priority, and the
heap stays within a linear bound. The loop of `evict` needs no more rounds than it gets. -/
theorem frequencyAwareEvictor_refines
    (hrun : EvictorRun FrequencyAwareEvictor.exec freeTable init ops e) {op : EvictorOp Hash}
    (hop : op.Issuable e.freeTable) :
    ∃ out e', FrequencyAwareEvictor.exec op e = .ok out e' ∧
      FreeSet.Step FreeSet.LeastPriority (FreeSet.ofTable ops e.freeTable) op out
        (FreeSet.ofTable (ops ++ [op]) e'.freeTable) ∧
      e'.heap.length ≤ 2 * e'.freeTable.length + 1 ∧
      ∀ fuel > 2 * e.heap.length, op = .evict →
        (some <$> evictLoop fuel) e = .ok out e' := by
  obtain ⟨out, e', hexec, he', hstep⟩ := (refines_of_run hrun).exec hop
  refine ⟨out, e', hexec, hstep, he'.compact, fun fuel hfuel hevict => ?_⟩
  subst hevict
  have hne : e.freeTable.items ≠ [] := hop
  unfold FrequencyAwareEvictor.exec evict at hexec
  simp only [bind_ok_iff, get_ok_iff, raiseIf_ok_iff, pure_ok_iff] at hexec
  obtain ⟨p, _, ⟨_, _, ⟨h₁, h₂⟩, _, _, ⟨_, h₃⟩, hloop⟩, rfl, h₄⟩ := hexec
  rw [h₃, h₂, h₁] at hloop
  rw [map_ok_iff]
  exact ⟨p, rfl, evictLoop_mono (h₄ ▸ hloop) hfuel⟩

theorem frequencyAwareEvictor_refines_twoBlocks :
    ∃ (e : FrequencyAwareEvictor ℕ) (out : Option (ℕ × ℕ)) (e' : FrequencyAwareEvictor ℕ),
      EvictorRun FrequencyAwareEvictor.exec freeTable init [.add 1 7 16 5, .add 2 7 32 5] e ∧
      FreeSet.Step FreeSet.LeastPriority
        (FreeSet.ofTable [.add 1 7 16 5, .add 2 7 32 5] e.freeTable) .evict out
        (FreeSet.ofTable [.add 1 7 16 5, .add 2 7 32 5, .evict] e'.freeTable) := by
  have hrun : EvictorRun FrequencyAwareEvictor.exec freeTable
      (init : FrequencyAwareEvictor ℕ) ([] ++ [.add 1 7 16 5] ++ [.add 2 7 32 5]) _ :=
    .snoc (.snoc .nil rfl rfl) rfl rfl
  have hissuable {table : Dict ℕ (BlockMetaData ℕ)} (hne : table.items ≠ []) :
      EvictorOp.evict.Issuable table := hne
  obtain ⟨out, e', _, hstep, _⟩ :=
    frequencyAwareEvictor_refines hrun (hissuable (List.cons_ne_nil _ _))
  exact ⟨_, out, e', hrun, hstep⟩

end FrequencyAwareEvictor

/-! ## `LRUEvictor` -/

namespace LRUEvictor

/-- The number of hashed tokens of an entry of the table. -/
def tokens (x : ℕ × BlockMetaData Hash) : ℕ := x.2.numHashedTokens

/-- No entry was accessed later than the one with the most hashed tokens among those before it (the
first such). -/
def NeverLater (items : List (ℕ × BlockMetaData Hash)) : Prop :=
  ∀ l x, l ++ [x] <+: items → ∀ c ∈ l.argmax tokens, x.2.lastAccessed ≤ c.2.lastAccessed

/-- The order in which the scan finds a least recently used block: all blocks before one of those
have fewer hashed tokens, and none of them was accessed later than the one with the most hashed
tokens before it. -/
def ScanFinds (items : List (ℕ × BlockMetaData Hash)) : Prop :=
  ∃ before entry after, items = before ++ entry :: after ∧
    (∀ x ∈ items, entry.2.lastAccessed ≤ x.2.lastAccessed ∧
      (x.2.lastAccessed = entry.2.lastAccessed → tokens x ≤ tokens entry)) ∧
    (∀ x ∈ before, tokens x < tokens entry) ∧ NeverLater before

/-! ### The scan -/

theorem argmax_concat_some {l : List (ℕ × BlockMetaData Hash)} {c x : ℕ × BlockMetaData Hash}
    (h : l.argmax tokens = some c) :
    (l ++ [x]).argmax tokens = if tokens c < tokens x then some x else some c := by
  rw [List.argmax_concat, h]

/-- The first entry with the most hashed tokens. -/
theorem exists_split_of_argmax {l : List (ℕ × BlockMetaData Hash)} {c : ℕ × BlockMetaData Hash}
    (h : l.argmax tokens = some c) :
    ∃ before after, l = before ++ c :: after ∧ ∀ x ∈ before, tokens x < tokens c := by
  induction l with
  | nil => exact absurd h (by simp)
  | cons a l ih =>
    rw [List.argmax_cons] at h
    cases hl : l.argmax tokens with
    | none =>
      rw [hl] at h
      obtain rfl := Option.some.inj h
      exact ⟨[], l, rfl, fun _ hx => absurd hx List.not_mem_nil⟩
    | some d =>
      simp only [hl] at h
      split at h
      · next hlt =>
        obtain rfl := Option.some.inj h
        obtain ⟨before, after, rfl, hbefore⟩ := ih hl
        exact ⟨a :: before, after, rfl, List.forall_mem_cons.mpr ⟨hlt, hbefore⟩⟩
      · obtain rfl := Option.some.inj h
        exact ⟨[], l, rfl, fun _ hx => absurd hx List.not_mem_nil⟩

theorem neverLater_concat {l : List (ℕ × BlockMetaData Hash)} {c x : ℕ × BlockMetaData Hash}
    (hc : l.argmax tokens = some c) :
    NeverLater (l ++ [x]) ↔ NeverLater l ∧ x.2.lastAccessed ≤ c.2.lastAccessed := by
  constructor
  · intro h
    exact ⟨fun l' y hy => h l' y (hy.trans (List.prefix_append _ _)),
      h l x List.prefix_rfl c hc⟩
  · rintro ⟨h, hx⟩ l' y hy d hd
    cases List.prefix_concat_iff.mp hy with
    | inl heq =>
      obtain ⟨rfl, hyx⟩ := List.append_inj' heq rfl
      obtain rfl := List.singleton_inj.mp hyx
      obtain rfl : c = d := Option.some.inj (hc.symm.trans hd)
      exact hx
    | inr hy => exact h l' y hy d hd

/-- The scan goes past entries that were not accessed later than its candidate. -/
theorem scan_append {seen xs : List (ℕ × BlockMetaData Hash)} {cur : ℕ × BlockMetaData Hash}
    (ys : List (ℕ × BlockMetaData Hash)) (hcur : seen.argmax tokens = some cur)
    (h : NeverLater (seen ++ xs)) :
    ∃ cur', (seen ++ xs).argmax tokens = some cur' ∧ scan cur (xs ++ ys) = scan cur' ys := by
  induction xs generalizing seen cur with
  | nil => exact ⟨cur, by rwa [List.append_nil], rfl⟩
  | cons x xs ih =>
    have hx := h seen x ⟨xs, by simp⟩ cur hcur
    rw [List.append_cons] at h ⊢
    rw [List.cons_append, scan, if_neg hx.not_gt]
    have hnext := argmax_concat_some (x := x) hcur
    split
    · next hlt => exact ih (by rw [hnext]; exact if_pos hlt) h
    · next hlt => exact ih (by rw [hnext]; exact if_neg hlt) h

/-- The scan keeps a candidate that is the one to evict. -/
theorem scan_eq_self {xs : List (ℕ × BlockMetaData Hash)} {cur : ℕ × BlockMetaData Hash}
    (h : ∀ x ∈ xs, cur.2.lastAccessed ≤ x.2.lastAccessed ∧
      (x.2.lastAccessed = cur.2.lastAccessed → tokens x ≤ tokens cur)) : scan cur xs = cur := by
  induction xs with
  | nil => rfl
  | cons x xs ih =>
    obtain ⟨hx, hxs⟩ := List.forall_mem_cons.mp h
    rw [scan]
    split
    · rfl
    · next hlt =>
      have hle : x.2.numHashedTokens ≤ cur.2.numHashedTokens :=
        hx.2 (le_antisymm (not_lt.mp hlt) hx.1)
      rw [if_neg hle.not_gt]
      exact ih hxs

/-- The scan returns the entry with the most hashed tokens among those that it looks at. -/
theorem scan_eq_argmax {seen : List (ℕ × BlockMetaData Hash)} {cur : ℕ × BlockMetaData Hash}
    (xs : List (ℕ × BlockMetaData Hash)) (hcur : seen.argmax tokens = some cur) (h : NeverLater seen) :
    ∃ l, l <+: seen ++ xs ∧ l.argmax tokens = some (scan cur xs) ∧ NeverLater l := by
  induction xs generalizing seen cur with
  | nil => exact ⟨seen, List.prefix_append _ _, hcur, h⟩
  | cons x xs ih =>
    rw [scan]
    split
    · exact ⟨seen, List.prefix_append _ _, hcur, h⟩
    · next hle =>
      have hseen := (neverLater_concat (x := x) hcur).mpr ⟨h, not_lt.mp hle⟩
      have hnext := argmax_concat_some (x := x) hcur
      rw [List.append_cons]
      split
      · next hlt => exact ih (by rw [hnext]; exact if_pos hlt) hseen
      · next hlt => exact ih (by rw [hnext]; exact if_neg hlt) hseen

/-- When does the scan find a least recently used block? -/
theorem scan_iff (first : ℕ × BlockMetaData Hash) (rest : List (ℕ × BlockMetaData Hash)) :
    (∀ x ∈ first :: rest, (scan first rest).2.lastAccessed ≤ x.2.lastAccessed ∧
      (x.2.lastAccessed = (scan first rest).2.lastAccessed →
        tokens x ≤ tokens (scan first rest))) ↔ ScanFinds (first :: rest) := by
  have hfirst : [first].argmax tokens = some first := rfl
  have hnever : NeverLater [first] := by
    intro l x hl c hc
    obtain rfl : l = [] := by simpa using hl.length_le
    exact absurd hc (by simp)
  constructor
  · intro h
    obtain ⟨l, ⟨tail, hl⟩, hmax, hlater⟩ := scan_eq_argmax rest hfirst hnever
    obtain ⟨before, after, rfl, hbefore⟩ := exists_split_of_argmax hmax
    refine ⟨before, scan first rest, after ++ tail, ?_, h, hbefore, fun l x hx => ?_⟩
    · rw [← List.cons_append, ← List.append_assoc]
      exact hl.symm
    · exact hlater l x (hx.trans (List.prefix_append _ _))
  · rintro ⟨before, entry, after, hitems, hleast, hbefore, hlater⟩
    have hscan : scan first rest = entry := by
      have hafter : scan entry after = entry := scan_eq_self fun x hx =>
        hleast x (hitems ▸ List.mem_append_right _ (List.mem_cons_of_mem _ hx))
      cases before with
      | nil =>
        obtain ⟨rfl, rfl⟩ := List.cons.inj hitems
        exact hafter
      | cons b before =>
        obtain ⟨rfl, rfl⟩ := List.cons.inj hitems
        obtain ⟨cur, hcur, hscan⟩ := scan_append (entry :: after) hfirst hlater
        have hmem : cur ∈ first :: before := List.argmax_mem hcur
        have hle := (hleast cur (List.mem_append_left _ hmem)).1
        have hlt : cur.2.numHashedTokens < entry.2.numHashedTokens := hbefore cur hmem
        change scan first (before ++ entry :: after) = entry
        rw [hscan, scan, if_neg hle.not_gt, if_pos hlt]
        exact hafter
    rw [hscan]
    exact hleast

/-! ### Runs -/

variable [DecidableEq Hash] {e : LRUEvictor Hash} {ops : List (EvictorOp Hash)}

/-- `__init__`. -/
def init : LRUEvictor Hash := ⟨.empty⟩

omit [DecidableEq Hash] in
def exec : EvictorOp Hash → EStateM Exn (LRUEvictor Hash) (Option (ℕ × Hash))
  | .add blockId contentHash numHashedTokens lastAccessed => do
    add blockId contentHash numHashedTokens lastAccessed
    pure none
  | .update blockId lastAccessed => do
    update blockId lastAccessed
    pure none
  | .remove blockId => do
    remove blockId
    pure none
  | .evict => do
    let evicted ← evict
    pure (some evicted)

omit [DecidableEq Hash] in
/-- The evictor after an operation, which may raise. -/
def step (e : LRUEvictor Hash) (op : EvictorOp Hash) : LRUEvictor Hash :=
  match exec op e with
  | .ok _ e' => e'
  | .error _ e' => e'

/-- The evictor after any operations. -/
def run (ops : List (EvictorOp Hash)) : LRUEvictor Hash := ops.foldl step init

omit [DecidableEq Hash] in
/-- The runs in which the allocator issues the operations are among these. -/
theorem run_of_issued (hrun : EvictorRun exec freeTable init ops e) : run ops = e := by
  induction hrun with
  | nil => rfl
  | snoc _ _ hexec ih =>
    unfold run at ih ⊢
    rw [List.foldl_append, ih, List.foldl_cons, List.foldl_nil]
    unfold step
    rw [hexec]

/-- An eviction after `ops` gives up a least recently used block. -/
def EvictsLeastRecentlyUsed (ops : List (EvictorOp Hash)) (e : LRUEvictor Hash) : Prop :=
  ∃ out e', exec .evict e = .ok out e' ∧
    FreeSet.Step FreeSet.LeastRecentlyUsed (FreeSet.ofTable ops e.freeTable) .evict out
      (FreeSet.ofTable (ops ++ [.evict]) e'.freeTable)

theorem evictsLeastRecentlyUsed_iff (hne : e.freeTable.items ≠ []) :
    EvictsLeastRecentlyUsed ops e ↔ ScanFinds e.freeTable.items := by
  obtain ⟨first, rest, hitems⟩ := List.exists_cons_of_ne_nil hne
  have hget : e.freeTable.get? (scan first rest).1 = some (scan first rest).2 :=
    Dict.mem_items.mp (hitems ▸ scan_mem first rest)
  have hexec : exec .evict e = .ok
      (some ((scan first rest).1, (scan first rest).2.contentHash))
      { e with freeTable := e.freeTable.erase (scan first rest).1 } := by
    unfold exec evict
    simp [hitems]
  rw [hitems, ← scan_iff]
  constructor
  · rintro ⟨out, e', hout, hstep⟩ x hx
    rw [hexec] at hout
    rw [← (EStateM.Result.ok.inj hout).1] at hstep
    generalize hgiven : some ((scan first rest).1, (scan first rest).2.contentHash) = given,
      FreeSet.ofTable (ops ++ [.evict]) e'.freeTable = s' at hstep
    cases hstep with
    | evict hm hleast =>
      obtain ⟨rfl, _⟩ := Prod.mk.inj (Option.some.inj hgiven)
      obtain rfl := Option.some.inj (hget.symm.trans hm)
      exact hleast x.1 x.2 (Dict.mem_items.mp (hitems ▸ hx))
  · intro hleast
    refine ⟨_, _, hexec, ?_⟩
    rw [FreeSet.ofTable_append (fun _ => rfl), FreeSet.ofTable_erase]
    exact .evict hget fun b' m' hm' => hleast (b', m') (hitems ▸ Dict.mem_items.mpr hm')

/-- Among any operations, all evictions of an evictor that has a block give up a least recently used
one if and only if the scan finds one at each of them. -/
theorem lruEvictor_run_iff (ops : List (EvictorOp Hash)) :
    (∀ before after, ops = before ++ .evict :: after → (run before).freeTable.items ≠ [] →
      EvictsLeastRecentlyUsed before (run before)) ↔
    ∀ before after, ops = before ++ .evict :: after → (run before).freeTable.items ≠ [] →
      ScanFinds (run before).freeTable.items := by
  constructor
  · intro h before after hops hne
    exact (evictsLeastRecentlyUsed_iff hne).mp (h before after hops hne)
  · intro h before after hops hne
    exact (evictsLeastRecentlyUsed_iff hne).mpr (h before after hops hne)

/-- The timestamps of an operation come from a clock that stands at `now`: a block may be added that
was accessed earlier. -/
def Stamped (now : ℚ) : EvictorOp Hash → Prop
  | .add _ _ _ lastAccessed => lastAccessed ≤ now
  | .update _ lastAccessed => lastAccessed = now
  | _ => True

/-- A block that was accessed earlier than the blocks that are already free is not found: it is
added last, and the scan starts with the oldest entry of the table. -/
theorem not_evictsLeastRecentlyUsed_of_run : ¬ ∀ (clock : ℕ → ℚ) (ops : List (EvictorOp ℕ)),
    Monotone clock → (∀ i op, ops[i]? = some op → Stamped (clock i) op) →
      EvictorRun exec freeTable init ops (run ops) →
      EvictorOp.Issuable (run ops).freeTable .evict → EvictsLeastRecentlyUsed ops (run ops) := by
  intro h
  have hrun : EvictorRun exec freeTable (init : LRUEvictor ℕ)
      ([] ++ [.add 1 7 16 5] ++ [.add 2 8 16 3]) _ := .snoc (.snoc .nil rfl rfl) rfl rfl
  have hsame : run [.add 1 7 16 5, .add 2 8 16 3] = _ := run_of_issued hrun
  have hstamped : ∀ (i : ℕ) (op : EvictorOp ℕ),
      ([.add 1 7 16 5, .add 2 8 16 3] : List (EvictorOp ℕ))[i]? = some op → Stamped 5 op := by
    intro i op hop
    cases List.mem_cons.mp (List.mem_of_getElem? hop) with
    | inl heq =>
      subst heq
      exact le_rfl
    | inr hmem =>
      obtain rfl := List.mem_singleton.mp hmem
      exact show (3 : ℚ) ≤ 5 by norm_num
  have hlru := h (fun _ => 5) _ monotone_const hstamped (hsame ▸ hrun)
    (hsame ▸ List.cons_ne_nil _ _)
  rw [hsame] at hlru
  have hfinds := (evictsLeastRecentlyUsed_iff (List.cons_ne_nil _ _)).mp hlru
  have hle := ((scan_iff (1, ⟨7, 16, 5⟩) [(2, ⟨8, 16, 3⟩)]).mpr hfinds (2, ⟨8, 16, 3⟩)
    (by decide)).1
  rw [show scan (1, ⟨7, 16, 5⟩) [(2, ⟨8, 16, 3⟩)] = (1, (⟨7, 16, 5⟩ : BlockMetaData ℕ)) by
    decide +kernel] at hle
  exact absurd hle (show ¬ (5 : ℚ) ≤ 3 by norm_num)

end LRUEvictor

end Ikun
