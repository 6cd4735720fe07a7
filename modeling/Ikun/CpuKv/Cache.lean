import Mathlib.Data.Finset.Basic
import Mathlib.Data.Finset.Union
import Mathlib.Data.List.Sort
import Ikun.Basic
import Ikun.Lib.Dict
import Ikun.Lib.Exec
import Ikun.Lib.Heap

/-!
# The CPU KV content cache

`CpuKvContentCache` is the scheduler's index of the KV blocks that the workers keep in pinned host
memory. It never touches the bytes: `drain_step` returns two maps, which the workers execute.

The methods are programs over the object's fields, with the exceptions of the source. A content
hash is a value of an arbitrary type `Hash` (the source checks that it is a 32-byte string), and
slots and block ids are natural numbers.

For every method `m`, the lemma `wp_m` lists its outcomes: which exception it raises when, and
the object it returns with.
-/

namespace Ikun

open Exec

/-- The fields of a `CpuKvContentCache`. -/
structure CpuKvContentCache (Hash : Type) where
  capacity : ℕ
  hashToSlot : Dict Hash ℕ
  slotToHash : Dict ℕ Hash
  readySlots : Finset ℕ
  lru : Dict ℕ Unit
  freeSlots : List ℕ
  stepSlotsInUse : Finset ℕ
  stepLoadSlots : Finset ℕ
  stepH2d : Dict ℕ ℕ
  stepD2h : Dict ℕ ℕ
  deferredD2h : Dict ℕ Hash
  deferredHashes : Finset Hash
  pendingReadySlots : Finset ℕ
  hits : ℕ
  misses : ℕ
  stores : ℕ
  deduplicatedStores : ℕ
  evictions : ℕ
  skippedStores : ℕ

/-- A `SwapMapping` is a list of pairs (source, destination). -/
abbrev SwapMapping := List (ℕ × ℕ)

namespace CpuKvContentCache

variable {Hash : Type} [DecidableEq Hash]

/-! ## Methods -/

/-- `__init__` with a positive capacity. -/
def fresh (capacity : ℕ) : CpuKvContentCache Hash where
  capacity := capacity
  hashToSlot := .empty
  slotToHash := .empty
  readySlots := ∅
  lru := .empty
  freeSlots := List.range capacity
  stepSlotsInUse := ∅
  stepLoadSlots := ∅
  stepH2d := .empty
  stepD2h := .empty
  deferredD2h := .empty
  deferredHashes := ∅
  pendingReadySlots := ∅
  hits := 0
  misses := 0
  stores := 0
  deduplicatedStores := 0
  evictions := 0
  skippedStores := 0

/-- `CpuKvContentCache(capacity)`. -/
def init (capacity : ℤ) : Except Exn (CpuKvContentCache Hash) :=
  if capacity ≤ 0 then .error (.valueError "CPU KV content cache capacity must be positive")
  else .ok (fresh capacity.toNat)

/-- A method of the cache. -/
abbrev Method (Hash α : Type) := EStateM Exn (CpuKvContentCache Hash) α

/-- `_touch`: `slot` becomes the most recently used one. -/
def touch (slot : ℕ) : Method Hash Unit :=
  modify fun c => { c with lru := (c.lru.erase slot).set slot () }

/-- `_select_store_slot`: a free slot, or the least recently used slot that this step does not
use. -/
def selectStoreSlot : Method Hash (Option ℕ) := do
  let c ← get
  match heappop c.freeSlots with
  | some (slot, rest) =>
    set { c with freeSlots := rest }
    pure (some slot)
  | none => pure (c.lru.keys.find? (· ∉ c.stepSlotsInUse))

/-- The first half of `_commit_store`: forget the content that `slot` holds. -/
def dropOldContent (slot : ℕ) : Method Hash Unit := do
  let c ← get
  match c.slotToHash.get? slot with
  | none => pure ()
  | some oldHash =>
    raiseIf (slot ∈ c.stepSlotsInUse)
      (.runtimeError "selected an in-use CPU KV slot for eviction")
    raiseIf (c.hashToSlot.contains oldHash = false) .keyError
    set { c with
      hashToSlot := c.hashToSlot.erase oldHash
      readySlots := c.readySlots.erase slot
      evictions := c.evictions + 1 }

/-- `_commit_store`: `slot` becomes the D2H destination of `gpuBlock`. -/
def commitStore (contentHash : Hash) (gpuBlock slot : ℕ) : Method Hash Unit := do
  dropOldContent slot
  let c ← get
  raiseIf (c.stepH2d.contains slot)
    (.runtimeError
      "a CPU KV slot cannot be an H2D source and D2H destination in one scheduler step")
  raiseIf (slot ∈ c.stepD2h.values) (.runtimeError s!"duplicate D2H destination CPU slot {slot}")
  set { c with
    hashToSlot := c.hashToSlot.set contentHash slot
    slotToHash := c.slotToHash.set slot contentHash
    readySlots := c.readySlots.erase slot
    stepSlotsInUse := insert slot c.stepSlotsInUse
    stepD2h := c.stepD2h.set gpuBlock slot }
  touch slot
  modify fun c => { c with stores := c.stores + 1 }

/-- `begin_step`: the stores of the preceding step become ready. -/
def beginStep : Method Hash Unit := do
  let c ← get
  raiseIf (c.stepSlotsInUse ≠ ∅ ∨ c.stepH2d.keys ≠ [] ∨ c.stepD2h.keys ≠ [] ∨
      c.deferredD2h.keys ≠ [] ∨ c.deferredHashes ≠ ∅)
    (.runtimeError "cannot begin a CPU KV step before draining it")
  set { c with readySlots := c.readySlots ∪ c.pendingReadySlots, pendingReadySlots := ∅ }

/-- `_require_step_started`. -/
def requireStepStarted : Method Hash Unit := do
  raiseIf ((← get).pendingReadySlots ≠ ∅)
    (.runtimeError "CPU KV step must begin before content lookup or eviction")

/-- `claim_load`: pin and return the slot that holds the content, if it is ready. -/
def claimLoad (contentHash : Hash) : Method Hash (Option ℕ) := do
  requireStepStarted
  let c ← get
  match c.hashToSlot.get? contentHash with
  | none =>
    set { c with misses := c.misses + 1 }
    pure none
  | some slot =>
    if slot ∉ c.readySlots then
      set { c with misses := c.misses + 1 }
      pure none
    else
      raiseIf (slot ∈ c.stepSlotsInUse)
        (.runtimeError s!"CPU KV slot {slot} was claimed twice in one scheduler step")
      set { c with
        stepSlotsInUse := insert slot c.stepSlotsInUse
        stepLoadSlots := insert slot c.stepLoadSlots }
      touch slot
      modify fun c => { c with hits := c.hits + 1 }
      pure (some slot)

/-- `cancel_load`: give up a claim that was not staged. -/
def cancelLoad (contentHash : Hash) (cpuSlot : ℕ) : Method Hash Unit := do
  let c ← get
  raiseIf (c.hashToSlot.get? contentHash ≠ some cpuSlot)
    (.runtimeError "CPU KV load cancellation key/slot mismatch")
  raiseIf (c.stepH2d.contains cpuSlot)
    (.runtimeError "cannot cancel a CPU KV load after H2D staging")
  raiseIf (cpuSlot ∉ c.stepSlotsInUse) (.runtimeError "cannot cancel an unclaimed CPU KV load")
  set { c with stepSlotsInUse := c.stepSlotsInUse.erase cpuSlot }
  raiseIf (cpuSlot ∉ c.stepLoadSlots) .keyError
  modify fun c => { c with stepLoadSlots := c.stepLoadSlots.erase cpuSlot }

/-- `stage_load`: the claimed slot becomes the H2D source of `gpuBlock`. -/
def stageLoad (contentHash : Hash) (cpuSlot gpuBlock : ℕ) : Method Hash Unit := do
  let c ← get
  raiseIf (c.hashToSlot.get? contentHash ≠ some cpuSlot)
    (.runtimeError "CPU KV load key/slot mismatch")
  raiseIf (cpuSlot ∉ c.readySlots) (.runtimeError "CPU KV load source is not ready")
  raiseIf (cpuSlot ∉ c.stepSlotsInUse) (.runtimeError "CPU KV load source was not claimed")
  raiseIf (c.stepH2d.contains cpuSlot) (.runtimeError s!"duplicate H2D source CPU slot {cpuSlot}")
  raiseIf (gpuBlock ∈ c.stepH2d.values)
    (.runtimeError s!"duplicate H2D destination GPU block {gpuBlock}")
  raiseIf (cpuSlot ∈ c.stepD2h.values)
    (.runtimeError
      "a CPU KV slot cannot be an H2D source and D2H destination in one scheduler step")
  set { c with stepH2d := c.stepH2d.set cpuSlot gpuBlock }

/-- `stage_store`: keep the content of a GPU block that is about to be reused. -/
def stageStore (contentHash : Hash) (gpuBlock : ℕ) : Method Hash Bool := do
  requireStepStarted
  let c ← get
  if c.hashToSlot.contains contentHash ∨ contentHash ∈ c.deferredHashes then
    match c.hashToSlot.get? contentHash with
    | some slot => touch slot
    | none => pure ()
    modify fun c => { c with deduplicatedStores := c.deduplicatedStores + 1 }
    pure false
  else
    raiseIf (c.stepD2h.contains gpuBlock ∨ c.deferredD2h.contains gpuBlock)
      (.runtimeError s!"duplicate D2H source GPU block {gpuBlock}")
    match heappop c.freeSlots with
    | some (slot, rest) =>
      set { c with freeSlots := rest }
      commitStore contentHash gpuBlock slot
      pure true
    | none =>
      -- resident content is only replaced once every lookup of the step is known
      set { c with
        deferredD2h := c.deferredD2h.set gpuBlock contentHash
        deferredHashes := insert contentHash c.deferredHashes }
      pure true

/-- The body of the loop of `_resolve_deferred_stores`. -/
def resolveDeferredStore (entry : ℕ × Hash) : Method Hash PUnit := do
  match ← selectStoreSlot with
  | none => modify fun c => { c with skippedStores := c.skippedStores + 1 }
  | some slot => commitStore entry.2 entry.1 slot

/-- `_resolve_deferred_stores`. -/
def resolveDeferredStores : Method Hash Unit := do
  let c ← get
  if c.stepLoadSlots ≠ ∅ then
    set { c with skippedStores := c.skippedStores + c.deferredD2h.length }
  else
    forM c.deferredD2h.items resolveDeferredStore
  modify fun c => { c with deferredD2h := .empty, deferredHashes := ∅ }

/-- `sorted(d.items())`; the keys are distinct, so they decide the order. -/
def sortedItems (d : Dict ℕ ℕ) : SwapMapping :=
  d.items.insertionSort fun p q => p.1 ≤ q.1

/-- `drain_step`: finish the step and return its maps (H2D, D2H). -/
def drainStep : Method Hash (SwapMapping × SwapMapping) := do
  resolveDeferredStores
  let c ← get
  raiseIf (c.stepH2d.keys.toFinset ∪ c.stepD2h.values.toFinset ≠ c.stepSlotsInUse)
    (.runtimeError "CPU KV scheduler step contains an uncommitted slot claim")
  raiseIf (c.stepH2d.keys.toFinset ∩ c.stepD2h.values.toFinset ≠ ∅)
    (.runtimeError "CPU KV scheduler step reuses a CPU slot across directions")
  raiseIf (c.stepH2d.keys.toFinset ≠ c.stepLoadSlots)
    (.runtimeError "CPU KV scheduler step contains an unstaged load claim")
  set { c with
    pendingReadySlots := c.pendingReadySlots ∪ c.stepD2h.values.toFinset
    stepH2d := .empty
    stepD2h := .empty
    stepSlotsInUse := ∅
    stepLoadSlots := ∅ }
  pure (sortedItems c.stepH2d, sortedItems c.stepD2h)

/-! ## Runs that return

For every method, when it returns and the object it leaves. -/

/-- The object after `_touch`. -/
def touched (c : CpuKvContentCache Hash) (slot : ℕ) : CpuKvContentCache Hash :=
  { c with lru := (c.lru.erase slot).set slot () }

/-- The hash index after `slot` has given up its content. -/
def indexWithout (c : CpuKvContentCache Hash) (slot : ℕ) : Dict Hash ℕ :=
  match c.slotToHash.get? slot with
  | none => c.hashToSlot
  | some oldHash => c.hashToSlot.erase oldHash

/-- The object after `_commit_store`. -/
def committed (c : CpuKvContentCache Hash) (contentHash : Hash) (gpuBlock slot : ℕ) :
    CpuKvContentCache Hash :=
  { c with
    hashToSlot := (c.indexWithout slot).set contentHash slot
    slotToHash := c.slotToHash.set slot contentHash
    readySlots := c.readySlots.erase slot
    lru := (c.lru.erase slot).set slot ()
    stepSlotsInUse := insert slot c.stepSlotsInUse
    stepD2h := c.stepD2h.set gpuBlock slot
    stores := c.stores + 1
    evictions := c.evictions + if (c.slotToHash.get? slot).isSome then 1 else 0 }

/-- `slot` can take new content: nothing in this step uses it. -/
structure CanCommit (c : CpuKvContentCache Hash) (slot : ℕ) : Prop where
  notInUse : ∀ oldHash, c.slotToHash.get? slot = some oldHash → slot ∉ c.stepSlotsInUse
  indexed : ∀ oldHash, c.slotToHash.get? slot = some oldHash → c.hashToSlot.get? oldHash ≠ none
  notSource : c.stepH2d.get? slot = none
  notDestination : slot ∉ c.stepD2h.values

omit [DecidableEq Hash] in
theorem touch_ok_iff {c c' : CpuKvContentCache Hash} {slot : ℕ} {u : Unit} :
    touch slot c = .ok u c' ↔ c' = c.touched slot := by
  unfold touch
  exact modify_ok_iff

theorem commitStore_ok_iff {c c' : CpuKvContentCache Hash} {h : Hash} {b slot : ℕ} {u : Unit} :
    commitStore h b slot c = .ok u c' ↔ c.CanCommit slot ∧ c' = c.committed h b slot := by
  have hc : c.CanCommit slot ↔
      (∀ o, c.slotToHash.get? slot = some o → slot ∉ c.stepSlotsInUse) ∧
      (∀ o, c.slotToHash.get? slot = some o → c.hashToSlot.get? o ≠ none) ∧
      c.stepH2d.get? slot = none ∧ slot ∉ c.stepD2h.values :=
    ⟨fun h => ⟨h.1, h.2, h.3, h.4⟩, fun h => ⟨h.1, h.2.1, h.2.2.1, h.2.2.2⟩⟩
  rw [hc]
  unfold commitStore dropOldContent committed indexWithout
  cases ho : c.slotToHash.get? slot with
  | none => simp [ho, touch_ok_iff, touched, and_assoc]
  | some o => simp [ho, touch_ok_iff, touched, and_assoc]

theorem commitStore_ok {c : CpuKvContentCache Hash} {h : Hash} {b slot : ℕ}
    (hc : c.CanCommit slot) : commitStore h b slot c = .ok () (c.committed h b slot) :=
  commitStore_ok_iff.mpr ⟨hc, rfl⟩

/-- The object after a successful `claim_load`. -/
def claimed (c : CpuKvContentCache Hash) (slot : ℕ) : CpuKvContentCache Hash :=
  { c with
    stepSlotsInUse := insert slot c.stepSlotsInUse
    stepLoadSlots := insert slot c.stepLoadSlots
    lru := (c.lru.erase slot).set slot ()
    hits := c.hits + 1 }

theorem claimLoad_ok_iff {c c' : CpuKvContentCache Hash} {h : Hash} {r : Option ℕ} :
    claimLoad h c = .ok r c' ↔ c.pendingReadySlots = ∅ ∧
      ((∀ slot, c.hashToSlot.get? h = some slot → slot ∉ c.readySlots) ∧ r = none ∧
          c' = { c with misses := c.misses + 1 } ∨
        ∃ slot, c.hashToSlot.get? h = some slot ∧ slot ∈ c.readySlots ∧
          slot ∉ c.stepSlotsInUse ∧ r = some slot ∧ c' = c.claimed slot) := by
  unfold claimLoad requireStepStarted claimed
  cases hs : c.hashToSlot.get? h with
  | none => simp [hs]
  | some slot =>
    by_cases hr : slot ∈ c.readySlots
    · simp [hs, hr, touch_ok_iff, touched]
    · simp [hs, hr]

theorem cancelLoad_ok_iff {c c' : CpuKvContentCache Hash} {h : Hash} {slot : ℕ} {u : Unit} :
    cancelLoad h slot c = .ok u c' ↔
      c.hashToSlot.get? h = some slot ∧ c.stepH2d.get? slot = none ∧ slot ∈ c.stepSlotsInUse ∧
        slot ∈ c.stepLoadSlots ∧
        c' = { c with
          stepSlotsInUse := c.stepSlotsInUse.erase slot
          stepLoadSlots := c.stepLoadSlots.erase slot } := by
  unfold cancelLoad
  simp

theorem stageLoad_ok_iff {c c' : CpuKvContentCache Hash} {h : Hash} {slot b : ℕ} {u : Unit} :
    stageLoad h slot b c = .ok u c' ↔
      c.hashToSlot.get? h = some slot ∧ slot ∈ c.readySlots ∧ slot ∈ c.stepSlotsInUse ∧
        c.stepH2d.get? slot = none ∧ b ∉ c.stepH2d.values ∧ slot ∉ c.stepD2h.values ∧
        c' = { c with stepH2d := c.stepH2d.set slot b } := by
  unfold stageLoad
  simp

/-- The object after a `stage_store` of content that is already kept. -/
def deduplicated (c : CpuKvContentCache Hash) (contentHash : Hash) : CpuKvContentCache Hash :=
  { c with
    lru := match c.hashToSlot.get? contentHash with
      | some slot => (c.lru.erase slot).set slot ()
      | none => c.lru
    deduplicatedStores := c.deduplicatedStores + 1 }

theorem stageStore_ok_iff {c c' : CpuKvContentCache Hash} {h : Hash} {b : ℕ} {r : Bool} :
    stageStore h b c = .ok r c' ↔ c.pendingReadySlots = ∅ ∧
      ((c.hashToSlot.get? h ≠ none ∨ h ∈ c.deferredHashes) ∧ r = false ∧ c' = c.deduplicated h ∨
        c.hashToSlot.get? h = none ∧ h ∉ c.deferredHashes ∧ c.stepD2h.get? b = none ∧
          c.deferredD2h.get? b = none ∧ r = true ∧
          ((∃ slot rest, heappop c.freeSlots = some (slot, rest) ∧
              ({ c with freeSlots := rest } : CpuKvContentCache Hash).CanCommit slot ∧
              c' = ({ c with freeSlots := rest } : CpuKvContentCache Hash).committed h b slot) ∨
            heappop c.freeSlots = none ∧ c' = { c with
              deferredD2h := c.deferredD2h.set b h
              deferredHashes := insert h c.deferredHashes })) := by
  unfold stageStore requireStepStarted
  by_cases hd : c.hashToSlot.get? h ≠ none ∨ h ∈ c.deferredHashes
  · have hn : ¬ (c.hashToSlot.get? h = none ∧ h ∉ c.deferredHashes) := by tauto
    cases hs : c.hashToSlot.get? h with
    | none => simp_all [deduplicated]
    | some slot => simp [hs, deduplicated, touch_ok_iff, touched]
  · have hs : c.hashToSlot.get? h = none := by tauto
    have hh : h ∉ c.deferredHashes := by tauto
    cases hp : heappop c.freeSlots with
    | none => simp [hs, hh, hp, and_assoc]
    | some p =>
      obtain ⟨slot, rest⟩ := p
      simp [hs, hh, hp, commitStore_ok_iff, and_assoc]

omit [DecidableEq Hash] in
theorem selectStoreSlot_ok_iff {c c' : CpuKvContentCache Hash} {r : Option ℕ} :
    selectStoreSlot c = .ok r c' ↔
      (∃ slot rest, heappop c.freeSlots = some (slot, rest) ∧ r = some slot ∧
          c' = { c with freeSlots := rest }) ∨
        heappop c.freeSlots = none ∧ r = c.lru.keys.find? (· ∉ c.stepSlotsInUse) ∧ c' = c := by
  unfold selectStoreSlot
  cases hp : heappop c.freeSlots with
  | none => simp [hp]
  | some p =>
    obtain ⟨slot, rest⟩ := p
    simp [hp]

theorem beginStep_ok_iff {c c' : CpuKvContentCache Hash} {u : Unit} :
    beginStep c = .ok u c' ↔
      (c.stepSlotsInUse = ∅ ∧ c.stepH2d.keys = [] ∧ c.stepD2h.keys = [] ∧
        c.deferredD2h.keys = [] ∧ c.deferredHashes = ∅) ∧
      c' = { c with
        readySlots := c.readySlots ∪ c.pendingReadySlots
        pendingReadySlots := ∅ } := by
  unfold beginStep
  simp [and_assoc]

/-- The object after `drain_step`, once the deferred stores are resolved. -/
def drained (c : CpuKvContentCache Hash) : CpuKvContentCache Hash :=
  { c with
    pendingReadySlots := c.pendingReadySlots ∪ c.stepD2h.values.toFinset
    stepH2d := .empty
    stepD2h := .empty
    stepSlotsInUse := ∅
    stepLoadSlots := ∅ }

theorem drainStep_ok_iff {c c' : CpuKvContentCache Hash} {r : SwapMapping × SwapMapping} :
    drainStep c = .ok r c' ↔ ∃ u c₁, resolveDeferredStores c = .ok u c₁ ∧
      c₁.stepH2d.keys.toFinset ∪ c₁.stepD2h.values.toFinset = c₁.stepSlotsInUse ∧
      c₁.stepH2d.keys.toFinset ∩ c₁.stepD2h.values.toFinset = ∅ ∧
      c₁.stepH2d.keys.toFinset = c₁.stepLoadSlots ∧
      r = (sortedItems c₁.stepH2d, sortedItems c₁.stepD2h) ∧ c' = c₁.drained := by
  unfold drainStep drained
  simp

end CpuKvContentCache

end Ikun
