import Mathlib.Algebra.Group.Defs
import Mathlib.Logic.Function.Basic
import Mathlib.Tactic.Common
import Ikun.Lib.Dict
import Ikun.Lib.Exec

/-!
# The slots of the recurrent state

`MambaCacheManager` keeps the recurrent state of every sequence in a slot of two tensors. Before each
model run it arranges the slots so that the `i`-th sequence of the batch is in slot `i`.

The content of a slot, in all layers of both tensors, is a value of a type `S` with a zero. A request
id is a value of a type `ρ`.
-/

namespace Ikun

open Exec

/-- What the manager raises. -/
inductive MambaExn
  /-- An index outside the tensors. -/
  | indexError
  /-- "Couldn't find a free spot in the mamba cache! This should never happen". -/
  | noFreeSpot
  deriving DecidableEq, Repr

/-- The fields of a `MambaCacheManager`; `capacity` is the batch dimension of the tensors. -/
structure MambaCacheManager (ρ S : Type) where
  capacity : ℕ
  mambaCache : ℕ → S
  indicesMapping : Dict ρ (Dict ℕ ℕ)

namespace MambaCacheManager

variable {ρ S : Type} [DecidableEq ρ]

/-- A method of the manager. -/
abbrev Method (ρ S α : Type) := EStateM MambaExn (MambaCacheManager ρ S) α

/-- `__init__`. -/
def init [Zero S] (maxBatchSize : ℕ) : MambaCacheManager ρ S := ⟨maxBatchSize, fun _ => 0, .empty⟩

/-- `_get_all_occupied_indices`. -/
def allOccupiedIndices (m : MambaCacheManager ρ S) : List ℕ :=
  m.indicesMapping.values.flatMap Dict.values

/-- Access to a slot of the tensors. -/
def checkIndex (i : ℕ) : Method ρ S Unit := do
  raiseIf ((← get).capacity ≤ i) .indexError

/-- `cache_t[:, index].zero_()`. -/
def zeroMambaCache [Zero S] (index : ℕ) : Method ρ S Unit := do
  checkIndex index
  modify fun m => { m with mambaCache := Function.update m.mambaCache index 0 }

/-- `_swap_mamba_cache`. -/
def swapMambaCache (fromIndex toIndex : ℕ) : Method ρ S Unit := do
  checkIndex fromIndex
  checkIndex toIndex
  modify fun m => { m with
    mambaCache := Function.update (Function.update m.mambaCache toIndex (m.mambaCache fromIndex))
      fromIndex (m.mambaCache toIndex) }

/-- `_copy_mamba_cache`. -/
def copyMambaCache (fromIndex toIndex : ℕ) : Method ρ S Unit := do
  checkIndex fromIndex
  checkIndex toIndex
  modify fun m => { m with
    mambaCache := Function.update m.mambaCache toIndex (m.mambaCache fromIndex) }

/-- `_first_free_index_in_mamba_cache`. -/
def firstFreeIndex (indicesRange : List ℕ) : Method ρ S ℕ := do
  match indicesRange.find? (· ∉ (← get).allOccupiedIndices) with
  | some i => pure i
  | none => throw .noFreeSpot

/-- Replaces the values of a dictionary. -/
def mapValues {κ ν : Type} (f : ν → ν) (d : Dict κ ν) : Dict κ ν where
  items := d.items.map fun e => (e.1, f e.2)
  nodup := by
    rw [List.map_map]
    exact d.nodup

/-- The first entry with value `fromIndex` gets the value `toIndex`. -/
def updateFirst {κ : Type} [DecidableEq κ] (fromIndex toIndex : ℕ) (d : Dict κ ℕ) : Dict κ ℕ :=
  match d.items.find? (·.2 = fromIndex) with
  | some e => d.set e.1 toIndex
  | none => d

/-- `_update_mapping_index`: the first entry that has `fromIndex` gets `toIndex`. -/
def updateMappingIndex (fromIndex toIndex : ℕ) : Method ρ S Unit :=
  modify fun m => { m with
    indicesMapping :=
      match m.indicesMapping.items.find? (fromIndex ∈ ·.2.values) with
      | some e => m.indicesMapping.set e.1 (updateFirst fromIndex toIndex e.2)
      | none => m.indicesMapping }

/-- `_swap_mapping_index`. -/
def swapMappingIndex (fromIndex toIndex : ℕ) : Method ρ S Unit :=
  modify fun m => { m with
    indicesMapping := mapValues (mapValues fun index =>
      if fromIndex = index then toIndex
      else if toIndex = index then fromIndex
      else index) m.indicesMapping }

/-- `_move_cache_index_and_mappings`. -/
def moveCacheIndexAndMappings (fromIndex toIndex : ℕ) : Method ρ S Unit := do
  copyMambaCache fromIndex toIndex
  updateMappingIndex fromIndex toIndex

/-- `_swap_pair_indices_and_mappings`. -/
def swapPairIndicesAndMappings (fromIndex toIndex : ℕ) : Method ρ S Unit := do
  swapMambaCache fromIndex toIndex
  swapMappingIndex fromIndex toIndex

/-- `_move_out_if_already_occupied`, with the indices that are occupied now. -/
def moveOutIfAlreadyOccupied (index : ℕ) : Method ρ S Unit := do
  let m ← get
  if index ∈ m.allOccupiedIndices then
    let firstFree ← firstFreeIndex (List.range m.capacity)
    moveCacheIndexAndMappings index firstFree

/-- `_assign_seq_id_to_mamba_cache_in_specific_dest`. -/
def assignSeqId [Zero S] (curRid : ρ) (seqId destinationIndex : ℕ) : Method ρ S Unit := do
  match (← get).indicesMapping.get? curRid with
  | none =>
    moveOutIfAlreadyOccupied destinationIndex
    zeroMambaCache destinationIndex
    modify fun m => { m with
      indicesMapping := m.indicesMapping.set curRid (Dict.empty.set seqId destinationIndex) }
  | some seqIds2indices =>
    match seqIds2indices.get? seqId with
    | none =>
      moveOutIfAlreadyOccupied destinationIndex
      -- the dictionary of the siblings, after one of them may have been moved
      let siblings := ((← get).indicesMapping.get? curRid).getD Dict.empty
      match siblings.values with
      | [] => throw .indexError
      | indexExists :: _ =>
        copyMambaCache indexExists destinationIndex
        modify fun m => { m with
          indicesMapping := m.indicesMapping.set curRid (siblings.set seqId destinationIndex) }
    | some cacheIndexAlreadyExists =>
      if cacheIndexAlreadyExists ≠ destinationIndex then
        swapPairIndicesAndMappings cacheIndexAlreadyExists destinationIndex

/-- The loop of `_prepare_current_run_mamba_cache`, from position `destIndex` on: the indices of the
sequences that run. -/
def assignAll [Zero S] (finished : List ρ) : ℕ → List (ρ × ℕ) → Method ρ S (List ℕ)
  | _, [] => pure []
  | destIndex, (requestId, seqId) :: rest => do
    if requestId ∈ finished then
      assignAll finished (destIndex + 1) rest
    else
      assignSeqId requestId seqId destIndex
      let runningIndices ← assignAll finished (destIndex + 1) rest
      pure (destIndex :: runningIndices)

/-- `_clean_up_first_bs_blocks`. -/
def cleanUpFirstBsBlocks (batchSize : ℕ) (indicesForCurrentRun : List ℕ) : Method ρ S PUnit := do
  let capacity := (← get).capacity
  if capacity ≤ batchSize then
    pure ()
  else
    forM (List.range batchSize) fun destinationIndex => do
      let allOccupied := (← get).allOccupiedIndices
      if destinationIndex ∈ allOccupied ∧ destinationIndex ∉ indicesForCurrentRun then
        let firstAvailIndex ←
          firstFreeIndex (List.range' batchSize (capacity - batchSize))
        swapPairIndicesAndMappings destinationIndex firstAvailIndex

/-- The pairs of a batch, in order. -/
def flattenBatch (requestIdsToSeqIds : Dict ρ (List ℕ)) : List (ρ × ℕ) :=
  requestIdsToSeqIds.items.flatMap fun e => e.2.map fun seqId => (e.1, seqId)

/-- `_prepare_current_run_mamba_cache`: the model gets the first slots, as many as it returns. -/
def prepareCurrentRunMambaCache [Zero S] (requestIdsToSeqIds : Dict ρ (List ℕ))
    (finishedRequestsIds : List ρ) : Method ρ S ℕ := do
  let batch := flattenBatch requestIdsToSeqIds
  let runningIndices ← assignAll finishedRequestsIds 0 batch
  cleanUpFirstBsBlocks batch.length runningIndices
  pure batch.length

/-- `_release_finished_requests`. -/
def releaseFinishedRequests [Zero S] (finishedRequestsIds : List ρ) : Method ρ S PUnit :=
  forM finishedRequestsIds fun reqId => do
    match (← get).indicesMapping.get? reqId with
    | none => pure ()
    | some seqMapping =>
      modify fun m => { m with indicesMapping := m.indicesMapping.erase reqId }
      forM seqMapping.values zeroMambaCache

/-- `current_run_tensors` and `copy_inputs_before_cuda_graphs`. -/
def currentRunTensors [Zero S] (requestIdsToSeqIds : Dict ρ (List ℕ))
    (finishedRequestsIds : List ρ) : Method ρ S ℕ := do
  releaseFinishedRequests finishedRequestsIds
  prepareCurrentRunMambaCache requestIdsToSeqIds finishedRequestsIds

end MambaCacheManager

end Ikun
