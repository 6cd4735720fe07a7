import Mathlib.Algebra.Ring.Nat
import Ikun.Mamba.Arrange

/-!
# Runs of the manager

A run alternates the arrangement of the slots for a batch with a model run, which leaves an
arbitrary new state in each of the first slots. Next to the manager goes a history: the state that
every pair last had.

`Run.arranged` says that in every run each pair finds the state it last had: it is in its slot, no
matter how often it has been moved, and it is in the slot that the model reads when the pair runs.
The arrangement never fails as long as the batch and the retained pairs outside it fit the tensors.
It does not suffice to count the retained pairs of the requests outside the batch
(`noFreeSpot_of_sibling`): a request keeps the slots of the sequences that do not run any more.
-/

namespace Ikun.MambaCacheManager

open Exec SlotLemmas

variable {ρ S : Type} [DecidableEq ρ] {m m' : MambaCacheManager ρ S} {capacity : ℕ}

/-- What one step of the engine hands to the manager, and the states that the model run leaves in
the first slots. -/
structure StepInput (ρ S : Type) where
  batch : Dict ρ (List ℕ)
  finished : List ρ
  output : ℕ → S

/-- The pair on position `k` of the batch runs: its request is not finished. -/
def StepInput.RunsAt (input : StepInput ρ S) (k : ℕ) (p : ρ × ℕ) : Prop :=
  (flattenBatch input.batch)[k]? = some p ∧ p.1 ∉ input.finished

/-- The pairs that keep their slot without being in the batch. -/
def StepInput.retained (input : StepInput ρ S) (m : MambaCacheManager ρ S) : Finset (ρ × ℕ) :=
  m.livePairs.filter fun p => p.1 ∉ input.finished ∧ p ∉ flattenBatch input.batch

/-- The batch has distinct pairs, and fits the tensors together with the retained pairs. -/
structure Fits (m : MambaCacheManager ρ S) (input : StepInput ρ S) : Prop where
  distinct : (flattenBatch input.batch).Nodup
  room : (flattenBatch input.batch).length + (input.retained m).card ≤ m.capacity

instance (m : MambaCacheManager ρ S) (input : StepInput ρ S) : Decidable (Fits m input) :=
  decidable_of_iff ((flattenBatch input.batch).Nodup ∧
    (flattenBatch input.batch).length + (input.retained m).card ≤ m.capacity)
    ⟨fun h => ⟨h.1, h.2⟩, fun h => ⟨h.distinct, h.room⟩⟩

/-- The model run writes the first `batchSize` slots. -/
def afterModel (batchSize : ℕ) (output : ℕ → S) (m : MambaCacheManager ρ S) :
    MambaCacheManager ρ S :=
  { m with mambaCache := fun i => if i < batchSize then output i else m.mambaCache i }

/-- The history after a step. -/
def StepInput.lastStates (input : StepInput ρ S) (last : ρ × ℕ → S) (p : ρ × ℕ) : S :=
  if p ∈ flattenBatch input.batch ∧ p.1 ∉ input.finished then
    input.output ((flattenBatch input.batch).idxOf p)
  else last p

/-- The states of a manager in a run, with the state that each pair last had. -/
inductive Run [Zero S] (capacity : ℕ) : MambaCacheManager ρ S → (ρ × ℕ → S) → Prop
  | init (last : ρ × ℕ → S) : Run capacity (.init capacity) last
  | step {m m' : MambaCacheManager ρ S} {last : ρ × ℕ → S} {input : StepInput ρ S}
      {batchSize : ℕ} : Run capacity m last → Fits m input →
      currentRunTensors input.batch input.finished m = .ok batchSize m' →
      Run capacity (m'.afterModel batchSize input.output) (input.lastStates last)

/-- The slots are arranged for the model run. -/
structure Arranged [Zero S] (input : StepInput ρ S) (last : ρ × ℕ → S)
    (m m' : MambaCacheManager ρ S) : Prop where
  /-- No slot has two owners. -/
  injective : ∀ p q i, m'.slotOf p = some i → m'.slotOf q = some i → p = q
  /-- A running pair is in the slot of its position. -/
  running : ∀ k p, input.RunsAt k p → m'.slotOf p = some k
  /-- The first slots are owned by running pairs only. -/
  front : ∀ p k, m'.slotOf p = some k → k < (flattenBatch input.batch).length → input.RunsAt k p
  /-- Exactly the pairs of finished requests have lost their slot. -/
  live : ∀ p, p ∈ m'.livePairs ↔
    p.1 ∉ input.finished ∧ (p ∈ m.livePairs ∨ p ∈ flattenBatch input.batch)
  /-- Every pair keeps the state that it last had. -/
  kept : ∀ p ∈ m.livePairs, p.1 ∉ input.finished → m'.stateOf p = some (last p)
  /-- The first sequence of a new request starts from zero. -/
  zeroed : ∀ k p, input.RunsAt k p → (∀ s, (p.1, s) ∉ m.livePairs) →
    (∀ q ∈ (flattenBatch input.batch).take k, q.1 ≠ p.1) → m'.stateOf p = some 0
  /-- A new sequence of a known request starts from the state of a sibling. -/
  copied : ∀ k p, input.RunsAt k p → p ∉ m.livePairs →
    ((∃ s, (p.1, s) ∈ m.livePairs) ∨ ∃ q ∈ (flattenBatch input.batch).take k, q.1 = p.1) →
    ∃ s, s ≠ p.2 ∧ ((p.1, s) ∈ m.livePairs ∨ (p.1, s) ∈ (flattenBatch input.batch).take k) ∧
      m'.stateOf p = m'.stateOf (p.1, s)

/-! ## One step -/

section step

variable [Zero S] {last : ρ × ℕ → S} {input : StepInput ρ S}

/-- The arrangement of the slots for a batch that fits. -/
theorem wp_currentRunTensors {R : MambaExn → MambaCacheManager ρ S → Prop} (hm : SlotsOk m)
    (hlast : ∀ p ∈ m.livePairs, m.stateOf p = some (last p)) (hfits : Fits m input) :
    wp (currentRunTensors input.batch input.finished) (fun batchSize m' =>
      batchSize = (flattenBatch input.batch).length ∧ SlotsOk m' ∧ m'.capacity = m.capacity ∧
        Arranged input last m m') R m := by
  set batch := flattenBatch input.batch with hbatch
  have hfit : batch.length + (input.retained m).card ≤ m.capacity := hfits.room
  unfold currentRunTensors
  rw [wp_bind]
  refine wp_mono (wp_release (R := R) input.finished m hm) (fun _ m₁ h₁ => ?_) fun _ _ h => h
  have hlive₁ : ∀ p, p ∈ m₁.livePairs ↔ p.1 ∉ input.finished ∧ p ∈ m.livePairs := by
    intro p
    rw [mem_livePairs, h₁.slots, mem_livePairs]
    split <;> simp_all
  have hroom : (m₁.livePairs ∪ (batch.filter (·.1 ∉ input.finished)).toFinset).card
      ≤ m₁.capacity := by
    have hsub : m₁.livePairs ∪ (batch.filter (·.1 ∉ input.finished)).toFinset ⊆
        batch.toFinset ∪ input.retained m := by
      intro p hp
      by_cases hmem : p ∈ batch
      · exact Finset.mem_union_left _ (List.mem_toFinset.mpr hmem)
      · rcases Finset.mem_union.mp hp with hp | hp
        · obtain ⟨hf, hp⟩ := (hlive₁ p).mp hp
          exact Finset.mem_union_right _ (Finset.mem_filter.mpr ⟨hp, hf, hmem⟩)
        · exact absurd (List.mem_of_mem_filter (List.mem_toFinset.mp hp)) hmem
    calc _ ≤ (batch.toFinset ∪ input.retained m).card := Finset.card_le_card hsub
      _ ≤ batch.toFinset.card + (input.retained m).card := Finset.card_union_le _ _
      _ ≤ batch.length + (input.retained m).card :=
        Nat.add_le_add_right (List.toFinset_card_le batch) _
      _ ≤ m₁.capacity := h₁.capacity ▸ hfit
  unfold prepareCurrentRunMambaCache
  rw [wp_bind]
  refine wp_mono (wp_assignAll (R := R) input.finished batch 0 m₁ h₁.ok hfits.distinct
    (by rw [h₁.capacity]; omega) hroom) (fun indices m₂ h₂ => ?_)
    fun _ _ h => h
  have hidx : ∀ i, i ∈ indices ↔ ∃ p, input.RunsAt i p := by
    intro i
    rw [h₂.indices]
    constructor
    · rintro ⟨k, p, rfl, hk, hp⟩
      exact ⟨p, by rw [Nat.zero_add]; exact ⟨hk, hp⟩⟩
    · rintro ⟨p, hk, hp⟩
      exact ⟨i, p, (Nat.zero_add i).symm, hk, hp⟩
  have hslot₂ : ∀ k p, input.RunsAt k p → m₂.slotOf p = some k := by
    rintro k p ⟨hk, hp⟩
    rw [h₂.slot k p hk hp, Nat.zero_add]
  have hcount : (m₂.retainedPairs indices).card + batch.length ≤ m₂.capacity := by
    have hsub : m₂.retainedPairs indices ⊆ input.retained m := by
      intro p hp
      obtain ⟨hp, hnot⟩ := Finset.mem_filter.mp hp
      have hnotrun : p.1 ∉ input.finished → p ∉ batch := by
        intro hf hmem
        obtain ⟨k, hk⟩ := List.mem_iff_getElem?.mp hmem
        exact hnot k ((hidx k).mpr ⟨p, hk, hf⟩) (hslot₂ k p ⟨hk, hf⟩)
      rcases (h₂.live p).mp hp with hp | ⟨hp, hf⟩
      · obtain ⟨hf, hp⟩ := (hlive₁ p).mp hp
        exact Finset.mem_filter.mpr ⟨hp, hf, hnotrun hf⟩
      · exact absurd hp (hnotrun hf)
    have hle := Finset.card_le_card hsub
    rw [h₂.capacity, h₁.capacity]
    omega
  rw [wp_bind]
  refine wp_mono (wp_cleanUp (R := R) h₂.ok (fun i hi => ?_) hcount) (fun _ m₃ h₃ => ?_)
    fun _ _ h => h
  · obtain ⟨p, hk, -⟩ := (hidx i).mp hi
    exact (List.getElem?_eq_some_iff.mp hk).1
  rw [wp_pure]
  have hslot₃ : ∀ k p, input.RunsAt k p → m₃.slotOf p = some k := fun k p hk =>
    h₃.running p k ((hidx k).mpr ⟨p, hk⟩) (hslot₂ k p hk)
  have hstate := h₃.rearranged.stateOf
  have hreq : ∀ r, r ∉ input.finished →
      (m₁.indicesMapping.get? r ≠ none ↔ ∃ s, (r, s) ∈ m.livePairs) := by
    intro r hr
    constructor
    · intro h
      obtain ⟨s, hs⟩ := h₁.ok.inhabited r h
      exact ⟨s, ((hlive₁ (r, s)).mp (mem_livePairs.mpr hs)).2⟩
    · rintro ⟨s, hs⟩ hnone
      refine mem_livePairs.mp ((hlive₁ (r, s)).mpr ⟨hr, hs⟩) ?_
      show (m₁.indicesMapping.get? r).bind _ = none
      rw [hnone]
      rfl
  refine ⟨rfl, h₃.rearranged.ok,
    h₃.rearranged.capacity.trans (h₂.capacity.trans h₁.capacity), h₃.rearranged.ok.inj, hslot₃,
    fun p k hp hk => ?_, fun p => ?_, fun p hp hf => ?_, fun k p hk hnew hfirst => ?_,
    fun k p hk hnew hold => ?_⟩
  · have hmem := (h₃.retained p k hp hk).resolve_right List.not_mem_nil
    obtain ⟨q, hq⟩ := (hidx k).mp hmem
    obtain rfl := h₃.rearranged.ok.inj p q k hp (hslot₃ k q hq)
    exact hq
  · rw [h₃.rearranged.livePairs_eq, h₂.live, hlive₁]
    tauto
  · rw [hstate, h₂.kept p ((hlive₁ p).mpr ⟨hf, hp⟩), h₁.states p hf, hlast p hp]
  · rw [hstate]
    refine h₂.zeroed k p hk.1 hk.2 ?_ hfirst
    by_contra hne
    obtain ⟨s, hs⟩ := (hreq p.1 hk.2).mp hne
    exact hnew s hs
  · obtain ⟨s, hs, hmem, heq⟩ := h₂.copied k p hk.1 hk.2 (fun h => hnew ((hlive₁ p).mp h).2)
      (hold.imp_left (hreq p.1 hk.2).mpr)
    refine ⟨s, hs, hmem.imp_left fun h => ((hlive₁ _).mp h).2, ?_⟩
    rw [hstate, hstate, heq]

/-- After the model run every pair has the state of the history. -/
theorem Arranged.stateOf_afterModel (h : Arranged input last m m') {p : ρ × ℕ}
    (hp : p ∈ (m'.afterModel (flattenBatch input.batch).length input.output).livePairs) :
    (m'.afterModel (flattenBatch input.batch).length input.output).stateOf p
      = some (input.lastStates last p) := by
  have hp' : p ∈ m'.livePairs := hp
  obtain ⟨hf, hold⟩ := (h.live p).mp hp'
  obtain ⟨i, hi⟩ := Option.ne_none_iff_exists'.mp (mem_livePairs.mp hp')
  have hstate : (m'.afterModel (flattenBatch input.batch).length input.output).stateOf p
      = some (if i < (flattenBatch input.batch).length then input.output i else m'.mambaCache i) := by
    show (m'.slotOf p).map _ = _
    rw [hi]
    rfl
  rw [hstate]
  unfold StepInput.lastStates
  by_cases hmem : p ∈ flattenBatch input.batch
  · -- a running pair is in the slot of its position, which the model writes
    have hlt := List.idxOf_lt_length_iff.mpr hmem
    have hruns : input.RunsAt ((flattenBatch input.batch).idxOf p) p :=
      ⟨by rw [List.getElem?_eq_getElem hlt, List.getElem_idxOf hlt], hf⟩
    obtain rfl := Option.some.inj (hi.symm.trans (h.running _ p hruns))
    rw [if_pos hlt, if_pos ⟨hmem, hf⟩]
  · -- a retained pair is behind the first slots
    have hge : ¬ i < (flattenBatch input.batch).length := fun hlt =>
      hmem (List.mem_of_getElem? (h.front p i hi hlt).1)
    have hkept := h.kept p (hold.resolve_right hmem) hf
    unfold MambaCacheManager.stateOf at hkept
    rw [hi] at hkept
    rw [if_neg hge, if_neg fun hc => hmem hc.1]
    exact hkept

end step

/-! ## Runs -/

section runs

variable [Zero S] {last : ρ × ℕ → S}

omit [DecidableEq ρ] in
theorem slotsOk_init [DecidableEq ρ] : SlotsOk (.init capacity : MambaCacheManager ρ S) where
  inj _ _ _ h := absurd h (by simp [slotOf, MambaCacheManager.init])
  lt _ _ h := absurd h (by simp [slotOf, MambaCacheManager.init])
  inhabited r h := absurd rfl h

/-- In a run the slots are in order and hold the history. -/
theorem Run.invariant (h : Run capacity m last) :
    SlotsOk m ∧ m.capacity = capacity ∧ ∀ p ∈ m.livePairs, m.stateOf p = some (last p) := by
  induction h with
  | init last => exact ⟨slotsOk_init, rfl, fun p hp => absurd hp (Finset.notMem_empty p)⟩
  | step _ hfits hret ih =>
    obtain ⟨hm, hcap, hlast⟩ := ih
    obtain ⟨rfl, hok, hcap', harr⟩ :=
      of_wp_ok (wp_currentRunTensors (R := fun _ _ => False) hm hlast hfits) hret
    refine ⟨⟨hok.inj, hok.lt, hok.inhabited⟩, hcap'.trans hcap, fun p hp => ?_⟩
    exact harr.stateOf_afterModel hp

/-- In every run a batch that fits is arranged. -/
theorem Run.exists_arranged (h : Run capacity m last) {input : StepInput ρ S}
    (hfits : Fits m input) :
    ∃ m', currentRunTensors input.batch input.finished m
      = .ok (flattenBatch input.batch).length m' ∧ Arranged input last m m' := by
  obtain ⟨hm, -, hlast⟩ := h.invariant
  have hwp := wp_currentRunTensors (R := fun _ _ => False) hm hlast hfits
  cases hrun : currentRunTensors input.batch input.finished m with
  | ok batchSize m' =>
    obtain ⟨rfl, -, -, harr⟩ := of_wp_ok hwp hrun
    exact ⟨m', rfl, harr⟩
  | error e m' => exact (of_wp_error hwp hrun).elim

/-- In every run the pairs that own a slot have the state that they last had, and every batch that
fits is arranged without an exception. -/
theorem Run.arranged (h : Run capacity m last) :
    (∀ p ∈ m.livePairs, m.stateOf p = some (last p)) ∧
      ∀ input : StepInput ρ S, Fits m input →
        ∃ m', currentRunTensors input.batch input.finished m
            = .ok (flattenBatch input.batch).length m' ∧ Arranged input last m m' :=
  ⟨h.invariant.2.2, fun _ hfits => h.exists_arranged hfits⟩

end runs

/-! ## Concrete runs -/

/-- The manager after a step. -/
def stepState (input : StepInput ℕ ℕ) (m : MambaCacheManager ℕ ℕ) : MambaCacheManager ℕ ℕ :=
  (Exec.stateOf (currentRunTensors input.batch input.finished m)).afterModel
    (flattenBatch input.batch).length input.output

theorem Run.stepState {m : MambaCacheManager ℕ ℕ} {last : ℕ × ℕ → ℕ} (h : Run capacity m last)
    (input : StepInput ℕ ℕ) (hfits : Fits m input) :
    Run capacity (stepState input m) (input.lastStates last) := by
  obtain ⟨m', hret, -⟩ := h.exists_arranged hfits
  have hstate : MambaCacheManager.stepState input m
      = m'.afterModel (flattenBatch input.batch).length input.output := by
    unfold MambaCacheManager.stepState
    rw [hret]
    rfl
  rw [hstate]
  exact h.step hfits hret

/-- A prefill of sequence 1 of request 1. -/
def prefillOne : StepInput ℕ ℕ := ⟨⟨[(1, [1])], by decide⟩, [], fun _ => 7⟩

/-- Request 1 has forked a second sequence. -/
def decodeSiblings : StepInput ℕ ℕ := ⟨⟨[(1, [1, 2])], by decide⟩, [], fun i => 8 + i⟩

/-- Request 2 runs in front of the first sequence of request 1. -/
def decodeBehind : StepInput ℕ ℕ := ⟨⟨[(2, [5]), (1, [1])], by decide⟩, [], fun _ => 9⟩

/-- Request 2 comes in, in front of two sequences of request 1 that have run before: three slots
hold them all. -/
theorem arranged_decodeBehind :
    ∃ m', currentRunTensors decodeBehind.batch decodeBehind.finished
        (stepState decodeSiblings (stepState prefillOne (.init 3))) = .ok 2 m' ∧
      Arranged decodeBehind (decodeSiblings.lastStates (prefillOne.lastStates fun _ => 0))
        (stepState decodeSiblings (stepState prefillOne (.init 3))) m' := by
  have h₁ : Run 3 (stepState prefillOne (.init 3)) (prefillOne.lastStates fun _ => 0) :=
    Run.stepState (.init fun _ => 0) prefillOne (by decide +kernel)
  have h₂ := h₁.stepState decodeSiblings (by decide +kernel)
  exact h₂.arranged.2 decodeBehind (by decide +kernel)

/-- The pairs that keep their slot and whose request is not in the batch. -/
def StepInput.retainedRequests (input : StepInput ρ S) (m : MambaCacheManager ρ S) :
    Finset (ρ × ℕ) :=
  m.livePairs.filter fun p => p.1 ∉ input.finished ∧ p.1 ∉ input.batch.keys

/-- The pairs of a batch whose request is not finished. -/
def StepInput.runningBatch (input : StepInput ρ S) : List (ρ × ℕ) :=
  (flattenBatch input.batch).filter (·.1 ∉ input.finished)

/-- Request 1 is reported as finished while it is still in front of the batch. -/
def finishedInFront : StepInput ℕ ℕ := ⟨⟨[(1, [1]), (2, [1])], by decide⟩, [1], fun _ => 9⟩

/-- It is not enough to count the requests outside the batch: the second sequence of request 1 keeps
its slot though only the first one runs, and request 2 finds no free slot. Nor is it enough to count
the running pairs: the position of a pair counts the finished pairs in front of it. -/
theorem noFreeSpot_of_sibling :
    (∃ (m : MambaCacheManager ℕ ℕ) (last : ℕ × ℕ → ℕ), Run 2 m last ∧
      (flattenBatch decodeBehind.batch).Nodup ∧
      decodeBehind.runningBatch.length + (decodeBehind.retainedRequests m).card ≤ m.capacity ∧
      exnOf (currentRunTensors decodeBehind.batch decodeBehind.finished m) = some .noFreeSpot) ∧
    (∃ (m : MambaCacheManager ℕ ℕ) (last : ℕ × ℕ → ℕ), Run 1 m last ∧
      (flattenBatch finishedInFront.batch).Nodup ∧
      finishedInFront.runningBatch.length + (finishedInFront.retainedRequests m).card
        ≤ m.capacity ∧
      exnOf (currentRunTensors finishedInFront.batch finishedInFront.finished m)
        = some .indexError) := by
  have h₁ : Run 2 (stepState prefillOne (.init 2)) (prefillOne.lastStates fun _ => 0) :=
    Run.stepState (.init fun _ => 0) prefillOne (by decide +kernel)
  have h₂ := h₁.stepState decodeSiblings (by decide +kernel)
  exact ⟨⟨_, _, h₂, by decide +kernel, by decide +kernel, by decide +kernel⟩,
    ⟨_, _, .init fun _ => 0, by decide +kernel, by decide +kernel, by decide +kernel⟩⟩

end Ikun.MambaCacheManager
