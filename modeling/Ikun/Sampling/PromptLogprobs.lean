import Ikun.Lib.Dict
import Ikun.Lib.Except
import Ikun.Basic

/-!
# Prompt logprobs

For every token of a prompt the engine can return the logprob that the model gave to it. The logits
for it are those of the token in front of it. A step of the engine processes a batch of sequence
groups, some of them with a chunk of their prompt:

- `prepareSeqGroups` selects the rows of the model output whose logits are needed,
- `getLogprobs` reads the logprobs off the selected rows,
- `processPromptLogprob` appends them to what the earlier chunks gave.

A row of logits is an element of a type `ρ`; `LogprobRows` says what is read off it.
-/

namespace Ikun.Sampling

open Except

/-! ## Selecting rows -/

/-- The part of the `SamplingParams` for prompt logprobs. -/
structure SamplingParams where
  promptLogprobs : Option ℕ
  promptLogprobPositions : Option (List ℕ)

/-- The positions pass `_verify_args`. -/
def SamplingParams.Accepted (p : SamplingParams) : Prop :=
  ∀ positions, p.promptLogprobPositions = some positions →
    p.promptLogprobs ≠ none ∧ positions ≠ [] ∧ (∀ position ∈ positions, 0 < position) ∧
      positions.Pairwise (· < ·)

/-- A `SequenceGroupMetadata` with the query length that the model runner computed. -/
structure SequenceGroupMetadata where
  seqIds : List ℕ
  params : SamplingParams
  promptTokenIds : List ℕ
  numComputedTokens : ℕ
  isPrompt : Bool
  doSample : Bool
  queryLen : ℕ

/-- A `SequenceGroupToSample`. -/
structure SequenceGroupToSample extends SequenceGroupMetadata where
  promptLogprobIndices : List ℕ
  promptLogprobOutputIndices : List ℕ
  sampleIndices : List ℕ

namespace SequenceGroupMetadata

variable (m : SequenceGroupMetadata)

/-- `max(0, len(prompt_token_ids) - num_computed_tokens - 1)`. -/
def availableNextTokens : ℕ := m.promptTokenIds.length - m.numComputedTokens - 1

/-- `prompt_logprob_len` in `_prepare_seq_groups`. -/
def promptLogprobLen : ℕ :=
  if m.isPrompt then
    if m.doSample then m.queryLen - 1 else m.queryLen
  else 0

/-- `sample_len` in `_prepare_seq_groups`. -/
def sampleLen : ℕ :=
  if m.doSample then
    if m.isPrompt then 1 else m.seqIds.length * m.queryLen
  else 0

/-- `_get_prompt_logprob_output_indices`. -/
def promptLogprobOutputIndices : Except Exn (List ℕ) :=
  if m.params.promptLogprobs = none ∨ m.promptLogprobLen = 0 then return []
  else
    let computedLen := m.numComputedTokens
    let materializedLen := min m.promptLogprobLen m.availableNextTokens
    match m.params.promptLogprobPositions with
    | none => return List.range materializedLen
    | some positions => do
      let outputIndices := (positions.filter fun position =>
        computedLen < position ∧ position ≤ computedLen + materializedLen).map
          fun position => position - computedLen - 1
      raiseIf (¬ outputIndices.Pairwise (· < ·)) .assertionError
      raiseIf (¬ ∀ index ∈ outputIndices, index < materializedLen) .assertionError
      return outputIndices

/-- A round of `_prepare_seq_groups`: the group and the rows of the model output that it selects. -/
def prepare (modelOutputIdx logitIdx : ℕ) : Except Exn (SequenceGroupToSample × List ℕ) := do
  raiseIf (m.isPrompt ∧ m.seqIds.length ≠ 1) .assertionError
  let outputIndices ← m.promptLogprobOutputIndices
  let sampleStart := modelOutputIdx + m.promptLogprobLen
  let group : SequenceGroupToSample := { m with
    promptLogprobIndices := List.range' logitIdx outputIndices.length
    promptLogprobOutputIndices := outputIndices
    sampleIndices := List.range' (logitIdx + outputIndices.length) m.sampleLen }
  raiseIf (¬ outputIndices.Pairwise (· < ·)) .assertionError
  raiseIf (m.isPrompt ∧ ¬ ∀ index ∈ outputIndices, index < m.queryLen) .assertionError
  return (group, outputIndices.map (modelOutputIdx + ·) ++ List.range' sampleStart m.sampleLen)

end SequenceGroupMetadata

/-- `_prepare_seq_groups`. -/
def prepareSeqGroups : ℕ → ℕ → List SequenceGroupMetadata →
    Except Exn (List SequenceGroupToSample × List ℕ)
  | _, _, [] => return ([], [])
  | modelOutputIdx, logitIdx, m :: ms => do
    let head ← m.prepare modelOutputIdx logitIdx
    let tail ← prepareSeqGroups (modelOutputIdx + m.promptLogprobLen + m.sampleLen)
      (logitIdx + head.2.length) ms
    return (head.1 :: tail.1, head.2 ++ tail.2)

/-! ## Reading logprobs -/

/-- What is read off a row of logits: the logprob and the rank of a token, and the tokens with their
logprobs from the most probable one on. -/
structure LogprobRows (ρ V : Type) where
  logprobAndRank : ρ → ℕ → V × ℕ
  ranking : ρ → List (ℕ × V)

/-- The tokens that a group sampled and the sequences that it sampled them for. -/
abbrev SampleResult := List ℕ × List ℕ

namespace SequenceGroupToSample

variable {ρ V : Type} (rows : LogprobRows ρ V) (g : SequenceGroupToSample)

/-- `seq_group.do_sample`. -/
def samples : Bool := g.sampleIndices ≠ []

/-- `_get_next_prompt_tokens`. -/
def nextPromptTokens : Except Exn (List ℕ) := do
  raiseIf (¬ g.isPrompt) .assertionError
  raiseIf (g.seqIds.length ≠ 1) .assertionError
  g.promptLogprobOutputIndices.mapM fun outputIndex =>
    match g.promptTokenIds[g.numComputedTokens + outputIndex + 1]? with
    | some token => .ok token
    | none => .error .assertionError

/-- The group asks for prompt logprobs. -/
def AsksForPrompt : Prop := g.isPrompt ∧ g.params.promptLogprobs ≠ none

instance : Decidable g.AsksForPrompt := inferInstanceAs (Decidable (_ ∧ _))

/-- The rows of the pruned logits and the prompt tokens that a group asks for. -/
def promptQueries : Except Exn (List ℕ × List ℕ) :=
  if g.AsksForPrompt then do return (g.promptLogprobIndices, ← g.nextPromptTokens)
  else return ([], [])

/-- The rows and the tokens that a group has sampled. -/
def sampleQueries (result : SampleResult) : List ℕ × List ℕ :=
  match g.sampleIndices with
  | [] => ([], [])
  | queryIdx :: _ => (result.2.map (queryIdx + ·), result.1)

/-- The rows of the pruned logits and the tokens that a group asks for. -/
def queries (result : SampleResult) : Except Exn (List ℕ × List ℕ) := do
  let promptQueries ← g.promptQueries
  let sampleQueries := g.sampleQueries result
  return (promptQueries.1 ++ sampleQueries.1, promptQueries.2 ++ sampleQueries.2)

/-- The entry of a prompt token: its logprob and rank, and those of the most probable tokens. -/
def promptLogprobsDict (numLogprobs token : ℕ) (item : V × ℕ) (top : List (ℕ × V)) :
    Dict ℕ (V × ℕ) :=
  ((top.take numLogprobs).zipIdx 1).foldl (fun dict entry =>
    dict.set entry.1.1 (entry.1.2, entry.2)) (Dict.empty.set token item)

/-- The loop of `_get_prompt_logprob_if_needed` over tokens, output indices and selected items. -/
def fillPromptLogprobs (logits : List ρ) (numLogprobs : ℕ) :
    List (ℕ × ℕ × V × ℕ) → ℕ → List (Option (Dict ℕ (V × ℕ))) →
      Except Exn (List (Option (Dict ℕ (V × ℕ))))
  | [], _, promptLogprobs => return promptLogprobs
  | (token, outputIndex, item) :: rest, topLogprobIdx, promptLogprobs =>
    match if numLogprobs = 0 then some [] else logits[topLogprobIdx]?.map rows.ranking with
    | none => .error .indexError
    | some top =>
      if promptLogprobs.length ≤ outputIndex then .error .indexError
      else
        let dict := promptLogprobsDict numLogprobs token item top
        fillPromptLogprobs logits numLogprobs rest (topLogprobIdx + 1)
          (promptLogprobs.set outputIndex (some dict))

/-- `_get_prompt_logprob_if_needed`: the logprobs and by how much the two indices advance. -/
def promptLogprobIfNeeded (logits : List ρ) (selected : List (V × ℕ)) (topLogprobIdx : ℕ) :
    Except Exn (Option (List (Option (Dict ℕ (V × ℕ)))) × ℕ) :=
  match g.params.promptLogprobs with
  | some numLogprobs =>
    if g.isPrompt then do
      let requestedLen := if g.samples then g.queryLen - g.seqIds.length else g.queryLen
      let fullLen := min requestedLen g.availableNextTokens
      let tokens ← g.nextPromptTokens
      raiseIf (tokens.length ≠ g.promptLogprobIndices.length ∨
        g.promptLogprobIndices.length ≠ g.promptLogprobOutputIndices.length) .assertionError
      raiseIf (selected.length < tokens.length) .indexError
      let entries := tokens.zip (g.promptLogprobOutputIndices.zip selected)
      let promptLogprobs ← fillPromptLogprobs rows logits numLogprobs entries topLogprobIdx
        (List.replicate fullLen none)
      return (some promptLogprobs, tokens.length)
    else return (none, 0)
  | none => return (none, 0)

end SequenceGroupToSample

section batch

variable {ρ V : Type} (rows : LogprobRows ρ V)

/-- The second loop of `get_logprobs`, for the selected items that are left. -/
def promptLogprobsPerSeqGroup (logits : List ρ) :
    List (SequenceGroupToSample × SampleResult) → List (V × ℕ) → ℕ →
      Except Exn (List (Option (List (Option (Dict ℕ (V × ℕ))))))
  | [], _, _ => return []
  | (g, result) :: groups, selected, topLogprobIdx => do
    let head ← g.promptLogprobIfNeeded rows logits selected topLogprobIdx
    raiseIf (g.samples ∧ result.1 = []) .assertionError
    let numSampled := if g.samples then result.1.length else 0
    let numSeqs := if g.samples then g.seqIds.length else 0
    let rest ← promptLogprobsPerSeqGroup logits groups (selected.drop (head.2 + numSampled))
      (topLogprobIdx + head.2 + numSeqs)
    return head.1 :: rest

/-- `x[i]`. -/
def item {α : Type} (xs : List α) (i : ℕ) : Except Exn α :=
  match xs[i]? with
  | some x => .ok x
  | none => .error .indexError

/-- The logprob and the rank for a queried row and token. -/
def selectedItem (logits : List ρ) (query : ℕ × ℕ) : Except Exn (V × ℕ) := do
  return rows.logprobAndRank (← item logits query.1) query.2

/-- `get_logprobs`, for the prompt logprobs. -/
def getLogprobs (logits : List ρ) (groups : List (SequenceGroupToSample × SampleResult)) :
    Except Exn (List (Option (List (Option (Dict ℕ (V × ℕ)))))) := do
  let queries ← groups.mapM fun group => group.1.queries group.2
  raiseIf (¬ ∀ query ∈ queries, query.1.length = query.2.length) .assertionError
  let selected ← (queries.flatMap fun query => query.1.zip query.2).mapM (selectedItem rows logits)
  promptLogprobsPerSeqGroup rows logits groups selected 0

/-- A group of a batch: the rows of the model output for its tokens and what it samples. -/
structure BatchGroup (ρ : Type) where
  metadata : SequenceGroupMetadata
  output : List ρ
  result : SampleResult

/-- A step of the engine: the prompt logprobs of the groups of a batch. -/
def stepPromptLogprobs (batch : List (BatchGroup ρ)) :
    Except Exn (List (Option (List (Option (Dict ℕ (V × ℕ)))))) := do
  let prepared ← prepareSeqGroups 0 0 (batch.map (·.metadata))
  let logits ← prepared.2.mapM (item (batch.flatMap (·.output)))
  getLogprobs rows logits (prepared.1.zip (batch.map (·.result)))

end batch

end Ikun.Sampling
