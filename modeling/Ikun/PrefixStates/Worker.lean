import Mathlib.Algebra.Ring.Nat
import Ikun.Sampling.PrefillRuns
import Ikun.Scheduler.Engine

/-!
# The captured states on the worker

The model runner collects the actions on captured states of a batch, and counts the tokens of its
prompts. The model keeps the captured states by their keys: in front of the layers it drops the
states that the scheduler has evicted and starts from the state that is to be restored, and behind
them it saves the states at the capture points.

What the layers compute is a parameter: the recurrent state behind a number of tokens of the query,
for the state in front of it.
-/

namespace Ikun.PrefixStates

open Except GdnPrefix Scheduling

variable {ρ δ S : Type}

/-! ## The input of the model -/

/-- The fields of a `ModelInputForGPUBuilder` for the actions on captured states. -/
structure GdnActions (δ : Type) where
  restoreKey : Option (GdnPrefixKey δ) := none
  capturePoints : Option (List (ℕ × GdnPrefixKey δ)) := none
  evictKeys : Option (List (GdnPrefixKey δ)) := none
  segmentOffsets : Option (List ℕ) := none

/-- Some of the fields are not `None`. -/
def GdnActions.given (a : GdnActions δ) : Bool :=
  a.restoreKey.isSome || a.capturePoints.isSome || a.evictKeys.isSome || a.segmentOffsets.isSome

/-- The fields of the metadata of a group. -/
def gdnActions (md : SequenceGroupMetadata ρ δ) : GdnActions δ where
  restoreKey := md.gdnRestoreKey
  capturePoints := md.gdnCapturePoints
  evictKeys := md.gdnEvictKeys
  segmentOffsets := md.gdnSegmentOffsets

/-- The beginning of `add_seq_group`. -/
def GdnActions.addSeqGroup (a : GdnActions δ) (md : SequenceGroupMetadata ρ δ) :
    Except Exn (GdnActions δ) :=
  if (gdnActions md).given then do
    raiseIf (¬ md.isPrompt) (.runtimeError "GDN prefix-cache actions require prefill")
    raiseIf a.given (.runtimeError "only one GDN prefix-cache action group is supported")
    return gdnActions md
  else return a

/-- The lengths of a prompt after `_compute_lens` and `_compute_for_prefix_cache_hit`. -/
def queryLens (blockSize : ℕ) (md : SequenceGroupMetadata ρ δ) : Sampling.QueryLens :=
  Sampling.computeForPrefixCacheHit blockSize md.computedBlockNums.length
    (Sampling.computeLens md.tokenIds.length md.numComputedTokens md.tokenChunkSize)

/-- What the model is told about a batch. -/
structure ModelInput (δ : Type) where
  numSeqs : ℕ
  numPrefillTokens : ℕ
  actions : GdnActions δ

/-- The groups of a batch are added one after another. -/
def buildModelInput (blockSize : ℕ) (metadata : List (SequenceGroupMetadata ρ δ)) :
    Except Exn (ModelInput δ) := do
  let actions ← metadata.foldlM GdnActions.addSeqGroup {}
  return {
    numSeqs := metadata.length
    numPrefillTokens :=
      ((metadata.filter (·.isPrompt)).map fun md => (queryLens blockSize md).queryLen).sum
    actions := actions }

namespace ModelInput

variable (i : ModelInput δ)

/-- `_is_single_seq_prefill`. -/
def isSingleSeqPrefill : Bool := 0 < i.numPrefillTokens ∧ i.numSeqs = 1

/-- `query_len`. -/
def queryLen : ℕ := if i.isSingleSeqPrefill then i.numPrefillTokens else 0

/-- `has_gdn_actions`. -/
def hasGdnActions : Bool :=
  i.actions.restoreKey.isSome || ¬ (i.actions.capturePoints.getD []).isEmpty ||
    ¬ (i.actions.evictKeys.getD []).isEmpty || ¬ (i.actions.segmentOffsets.getD []).isEmpty

end ModelInput

/-! ## The store -/

/-- How the messages write a digest: `digest.hex()` and `repr(digest)`. -/
structure DigestText (δ : Type) where
  hex : δ → String
  repr : δ → String

/-- The states by their keys, `_gdn_prefix_cache`. -/
abbrev Store (δ S : Type) := Dict (GdnPrefixKey δ) S

variable (text : DigestText δ)

/-- `_validate_gdn_prefix_key`. -/
def validateGdnPrefixKey (key : GdnPrefixKey δ) : Except Exn (GdnPrefixKey δ) := do
  raiseIf (key.1 = 0) (.runtimeError s!"invalid GDN prefix key: ({key.1}, {text.repr key.2})")
  return key

/-- A round of the loop over the capture points. -/
def addCapturePoint (queryLen : ℕ) (captureKeys : Dict ℕ (GdnPrefixKey δ))
    (point : ℕ × GdnPrefixKey δ) : Except Exn (Dict ℕ (GdnPrefixKey δ)) := do
  raiseIf (point.1 = 0 ∨ queryLen < point.1 ∨ captureKeys.contains point.1)
    (.runtimeError s!"invalid GDN capture offset: {point.1} for query_len={queryLen}")
  let key ← validateGdnPrefixKey text point.2
  return captureKeys.set point.1 key

/-- `capture_keys`. -/
def captureKeys (queryLen : ℕ) (points : List (ℕ × GdnPrefixKey δ)) :
    Except Exn (Dict ℕ (GdnPrefixKey δ)) := do
  let keys ← points.foldlM (addCapturePoint text queryLen) .empty
  raiseIf (2 < keys.length) (.runtimeError "at most two GDN capture points are supported")
  return keys

/-- A round of the loop over the segment offsets. -/
def checkSegmentOffset (queryLen offset : ℕ) : Except Exn Unit :=
  raiseIf (offset = 0 ∨ queryLen ≤ offset)
    (.runtimeError s!"invalid GDN segment offset: {offset} for query_len={queryLen}")

/-- The checks of the segment offsets. -/
def checkSegmentOffsets (queryLen : ℕ) (offsets : List ℕ) : Except Exn Unit := do
  offsets.forM (checkSegmentOffset queryLen)
  raiseIf (128 < offsets.dedup.length)
    (.runtimeError "at most 128 GDN segment offsets are supported")

variable [DecidableEq δ]

/-- A round of the loop over the evicted keys. -/
def evictState (store : Store δ S) (key : GdnPrefixKey δ) : Except Exn (Store δ S) := do
  let key ← validateGdnPrefixKey text key
  return store.erase key

/-- The state in front of the query: the one of the slot, or a captured one. -/
def restoreState (slot : S) (store : Store δ S) : Option (GdnPrefixKey δ) → Except Exn S
  | none => return slot
  | some key => do
    let key ← validateGdnPrefixKey text key
    match store.get? key with
    | some saved => return saved
    | none => .error (.runtimeError ("scheduler requested a missing GDN prefix state: " ++
        s!"blocks={key.1} digest={text.hex key.2}"))

/-- The states at the capture points are saved. -/
def saveStates (states : ℕ → S) (captureKeys : Dict ℕ (GdnPrefixKey δ)) (store : Store δ S) :
    Store δ S :=
  captureKeys.items.foldl (fun store point => store.set point.2 (states point.1)) store

/-- The part of `forward` for the captured states: the state of the slot and the store behind the
layers. -/
def forward (layers : S → ℕ → S) (slot : S) (i : ModelInput δ) (store : Store δ S) :
    Except Exn (S × Store δ S) := do
  raiseIf (i.hasGdnActions ∧ ¬ i.isSingleSeqPrefill)
    (.runtimeError "GDN prefix-cache actions require a single-sequence prefill")
  let kept ← (i.actions.evictKeys.getD []).foldlM (evictState text) store
  let start ← restoreState text slot kept i.actions.restoreKey
  let keys ← captureKeys text i.queryLen (i.actions.capturePoints.getD [])
  checkSegmentOffsets i.queryLen (i.actions.segmentOffsets.getD [])
  return (layers start i.queryLen, saveStates (layers start) keys kept)

/-- `execute_model`, which does not run the model when no group is scheduled. -/
def executeModel (blockSize : ℕ) (layers : S → ℕ → S) (slot : S)
    (metadata : List (SequenceGroupMetadata ρ δ)) (store : Store δ S) :
    Except Exn (S × Store δ S) :=
  if metadata.isEmpty then return (slot, store)
  else do
    let input ← buildModelInput blockSize metadata
    forward text layers slot input store

end Ikun.PrefixStates
