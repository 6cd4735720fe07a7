import Mathlib.Data.Rat.Defs
import Mathlib.Algebra.Order.Ring.Rat
import Mathlib.Algebra.Ring.Nat
import Ikun.Sampling.Batch

/-!
# Sampling parameters by row

`from_sampling_metadata` lays out the sampling parameters of a batch as parallel lists with an entry for
every row of the pruned logits. It makes two passes over the sequence groups: the first one writes the
numbers, the second one, when a group uses penalties, the tokens that the penalties count.

The first pass is right for every batch. The second pass asks the parameters that the first pass
ended with, those of the last group, whether a group has rows for its prompt. `rowsOwned_iff` says for
which batches every row still has its own tokens.
-/

namespace Ikun.Sampling

open Except

/-! ## The batch -/

/-- The values of `SamplingParams` that change the distribution of a row. -/
structure SamplingValues where
  temperature : ℚ
  presencePenalty : ℚ
  frequencyPenalty : ℚ
  repetitionPenalty : ℚ
  topP : ℚ
  topK : ℤ
  minP : ℚ

/-- `prompt_token_ids_array` and `output_token_ids_array` of a `SequenceData`. -/
structure SequenceTokens where
  prompt : List ℕ
  output : List ℕ

/-- A `SequenceGroupMetadata` with all that a row of its logits needs. Its sequence ids are the keys of
`seq_data`. -/
structure Request where
  metadata : SequenceGroupMetadata
  values : SamplingValues
  seqData : ℕ → SequenceTokens

/-- A `SequenceGroupToSample` with the parameters and the sequences of its request. -/
structure SampledGroup extends SequenceGroupToSample where
  values : SamplingValues
  seqData : ℕ → SequenceTokens

/-- The prepared group refers to the parameters and the data of the request. -/
def Request.attach (g : SequenceGroupToSample) (b : Request) : SampledGroup :=
  { g with values := b.values, seqData := b.seqData }

/-- `_prepare_seq_groups`: the groups and `selected_token_indices`. -/
def prepareRequests (batch : List Request) : Except Exn (List SampledGroup × List ℕ) := do
  let prepared ← prepareSeqGroups 0 0 (batch.map (·.metadata))
  return (List.zipWith Request.attach prepared.1 batch, prepared.2)

/-! ## The lists -/

/-- `_SAMPLING_EPS`. -/
def samplingEps : ℚ := 1 / 100000

/-- An entry of each of the lists of numbers. -/
structure RowParameters where
  temperature : ℚ
  topP : ℚ
  topK : ℤ
  minP : ℚ
  presencePenalty : ℚ
  frequencyPenalty : ℚ
  repetitionPenalty : ℚ

/-- The lists that `from_sampling_metadata` fills, and its flags. -/
structure SamplingTensors where
  temperatures : List ℚ := []
  topPs : List ℚ := []
  topKs : List ℤ := []
  minPs : List ℚ := []
  presencePenalties : List ℚ := []
  frequencyPenalties : List ℚ := []
  repetitionPenalties : List ℚ := []
  promptTokens : List (List ℕ) := []
  outputTokens : List (List ℕ) := []
  doPenalties : Bool := false
  doTopPTopK : Bool := false
  doMinP : Bool := false

namespace SamplingValues

variable (vocabSize : ℕ) (v : SamplingValues)

/-- A zero temperature is greedy sampling and becomes 1. -/
def rowTemperature : ℚ := if v.temperature < samplingEps then 1 else v.temperature

/-- `top_k` is at most the size of the vocabulary, and -1 stands for it. -/
def rowTopK : ℤ :=
  let topK := min v.topK vocabSize
  if topK = -1 then vocabSize else topK

def UsesPenalties : Prop :=
  samplingEps ≤ |v.presencePenalty| ∨ samplingEps ≤ |v.frequencyPenalty| ∨
    samplingEps ≤ |v.repetitionPenalty - 1|

instance : Decidable v.UsesPenalties := inferInstanceAs (Decidable (_ ∨ _))

/-- The parameters of a row that a token is sampled from. -/
def sampleRow : RowParameters where
  temperature := v.rowTemperature
  topP := v.topP
  topK := v.rowTopK vocabSize
  minP := v.minP
  presencePenalty := v.presencePenalty
  frequencyPenalty := v.frequencyPenalty
  repetitionPenalty := v.repetitionPenalty

/-- The parameters of a row that is only there for a prompt logprob. -/
def promptRow : RowParameters :=
  { v.sampleRow vocabSize with presencePenalty := 0, frequencyPenalty := 0, repetitionPenalty := 1 }

end SamplingValues

namespace SamplingTensors

/-- `temperatures += [temperature] * n`, and so on for the other lists of numbers. -/
def extend (t : SamplingTensors) (n : ℕ) (row : RowParameters) : SamplingTensors :=
  { t with
    temperatures := t.temperatures ++ List.replicate n row.temperature
    topPs := t.topPs ++ List.replicate n row.topP
    topKs := t.topKs ++ List.replicate n row.topK
    minPs := t.minPs ++ List.replicate n row.minP
    presencePenalties := t.presencePenalties ++ List.replicate n row.presencePenalty
    frequencyPenalties := t.frequencyPenalties ++ List.replicate n row.frequencyPenalty
    repetitionPenalties := t.repetitionPenalties ++ List.replicate n row.repetitionPenalty }

/-- The flags after a group with these values. -/
def flag (vocabSize : ℕ) (t : SamplingTensors) (v : SamplingValues) : SamplingTensors :=
  { t with
    doTopPTopK := t.doTopPTopK || v.topP < 1 - samplingEps || v.rowTopK vocabSize ≠ vocabSize
    doMinP := t.doMinP || samplingEps < v.minP
    doPenalties := t.doPenalties || v.UsesPenalties }

/-- A round of the first pass. -/
def addParameters (vocabSize : ℕ) (t : SamplingTensors) (g : SampledGroup) :
    Except Exn SamplingTensors := do
  let t := t.flag vocabSize g.values
  let t := if g.AsksForPrompt then
      t.extend g.promptLogprobIndices.length (g.values.promptRow vocabSize)
    else t
  if g.samples then
    raiseIf (g.sampleIndices.length < g.seqIds.length) .assertionError
    return t.extend g.sampleIndices.length (g.values.sampleRow vocabSize)
  else return t

/-- A round of the second pass. `params` is what the variable `sampling_params` still holds. -/
def addTokens (params : SamplingParams) (t : SamplingTensors) (g : SampledGroup) :
    SamplingTensors :=
  let t := if g.isPrompt ∧ params.promptLogprobs ≠ none then
      { t with
        promptTokens := t.promptTokens ++ List.replicate g.promptLogprobIndices.length []
        outputTokens := t.outputTokens ++ List.replicate g.promptLogprobIndices.length [] }
    else t
  if g.samples then
    { t with
      promptTokens := t.promptTokens ++ g.seqIds.map fun seqId => (g.seqData seqId).prompt
      outputTokens := t.outputTokens ++ g.seqIds.map fun seqId => (g.seqData seqId).output }
  else t

end SamplingTensors

/-- `from_sampling_metadata`. -/
def fromSamplingMetadata (vocabSize : ℕ) (groups : List SampledGroup) :
    Except Exn SamplingTensors := do
  let t ← groups.foldlM (SamplingTensors.addParameters vocabSize) {}
  match groups.getLast? with
  | some last => return if t.doPenalties then groups.foldl (.addTokens last.params) t else t
  | none => return t

/-! ## The rows and their owners -/

/-- A row of the pruned logits: its row of the model output, and the parameters and the tokens of the
group and the sequence that own it. -/
structure OwnedRow where
  outputIndex : ℕ
  parameters : RowParameters
  tokens : SequenceTokens

namespace Request

variable (vocabSize : ℕ) (b : Request)

/-- The group is one that the scheduler issues: a prompt has one sequence, and a sequence that is
decoded has one token. -/
structure WellFormed : Prop where
  accepted : b.metadata.params.Accepted
  prompt_single : b.metadata.isPrompt = true → b.metadata.seqIds.length = 1
  decode : b.metadata.isPrompt = false → b.metadata.seqIds ≠ [] ∧ b.metadata.queryLen = 1
  query_pos : 0 < b.metadata.queryLen

/-- The offsets in the chunk whose logits give a requested prompt logprob. -/
def promptOffsets : List ℕ :=
  if b.metadata.params.promptLogprobs = none then []
  else (List.range b.metadata.chunkLen).filter fun i =>
    b.metadata.params.Requested (b.metadata.numComputedTokens + i + 1)

/-- The sequences that a token is sampled for. -/
def sampledSeqIds : List ℕ := if b.metadata.doSample then b.metadata.seqIds else []

/-- The rows of a group whose rows of the model output start at `outputStart`. -/
def rows (outputStart : ℕ) : List OwnedRow :=
  (b.promptOffsets.map fun i =>
    ⟨outputStart + i, b.values.promptRow vocabSize, ⟨[], []⟩⟩) ++
  b.sampledSeqIds.mapIdx fun i seqId =>
    ⟨outputStart + b.metadata.promptLogprobLen + i, b.values.sampleRow vocabSize, b.seqData seqId⟩

/-- The rows of a batch. -/
def batchRows : ℕ → List Request → List OwnedRow
  | _, [] => []
  | outputStart, b :: batch => b.rows vocabSize outputStart ++
      batchRows (outputStart + b.metadata.promptLogprobLen + b.metadata.sampleLen) batch

end Request

/-- Every row of the pruned logits is sampled with the parameters of its owner. -/
structure RowsOwned (batch : List Request) (groups : List SampledGroup)
    (selected : List ℕ) (t : SamplingTensors) (rows : List OwnedRow) : Prop where
  selected_eq : selected = rows.map (·.outputIndex)
  partition : groups.flatMap (fun g => g.promptLogprobIndices ++ g.sampleIndices)
    = List.range rows.length
  shares : List.Forall₂ (fun g b => g.promptLogprobIndices.length = b.promptOffsets.length ∧
    g.sampleIndices.length = b.sampledSeqIds.length) groups batch
  temperatures : t.temperatures = rows.map (·.parameters.temperature)
  topPs : t.topPs = rows.map (·.parameters.topP)
  topKs : t.topKs = rows.map (·.parameters.topK)
  minPs : t.minPs = rows.map (·.parameters.minP)
  presencePenalties : t.presencePenalties = rows.map (·.parameters.presencePenalty)
  frequencyPenalties : t.frequencyPenalties = rows.map (·.parameters.frequencyPenalty)
  repetitionPenalties : t.repetitionPenalties = rows.map (·.parameters.repetitionPenalty)
  tokens : (∃ b ∈ batch, b.values.UsesPenalties) →
    t.promptTokens = rows.map (·.tokens.prompt) ∧ t.outputTokens = rows.map (·.tokens.output)

/-! ## Preparing a batch -/

namespace Request

variable {vocabSize : ℕ} {b : Request}

theorem outputIndices_promptOffsets (haccepted : b.metadata.params.Accepted) :
    b.metadata.OutputIndices b.promptOffsets := by
  obtain ⟨indices, h⟩ := SequenceGroupMetadata.exists_outputIndices haccepted
  have hsorted : b.promptOffsets.Pairwise (· < ·) := by
    unfold promptOffsets
    split
    · exact List.Pairwise.nil
    · exact List.pairwise_lt_range.filter _
  have hmem (i : ℕ) : i ∈ indices ↔ i ∈ b.promptOffsets := by
    rw [h.mem_iff, promptOffsets]
    split
    · next hnone => simp [hnone]
    · next hsome => simp [hsome]
  have heq : indices = b.promptOffsets :=
    List.Perm.eq_of_pairwise (fun i j _ _ hij hji => absurd (hij.trans hji) (lt_irrefl i))
      h.sorted hsorted ((List.perm_ext_iff_of_nodup (h.sorted.imp ne_of_lt)
        (hsorted.imp ne_of_lt)).mpr hmem)
  exact heq ▸ h

theorem WellFormed.sampleLen_eq (h : b.WellFormed) :
    b.metadata.sampleLen = b.sampledSeqIds.length := by
  unfold SequenceGroupMetadata.sampleLen sampledSeqIds
  split
  · split
    · next hprompt => exact (h.prompt_single hprompt).symm
    · next hdecode => rw [(h.decode (Bool.eq_false_iff.mpr hdecode)).2, Nat.mul_one]
  · rfl

variable (b) in
/-- The prepared group when `logitIdx` rows are in front of it. -/
def sampled (logitIdx : ℕ) : SampledGroup :=
  attach (b.metadata.toSample logitIdx b.promptOffsets) b

/-- The prepared groups. -/
def sampledGroups : ℕ → List Request → List SampledGroup
  | _, [] => []
  | logitIdx, b :: batch => b.sampled logitIdx ::
      sampledGroups (logitIdx + (b.promptOffsets.length + b.metadata.sampleLen)) batch

theorem map_outputIndex_rows (h : b.WellFormed) (outputStart : ℕ) :
    (b.rows vocabSize outputStart).map (·.outputIndex) =
      b.promptOffsets.map (outputStart + ·) ++
        List.range' (outputStart + b.metadata.promptLogprobLen) b.metadata.sampleLen := by
  rw [rows, List.map_append, List.map_map, h.sampleLen_eq]
  congr 1
  exact List.ext_getElem (by simp) fun i _ _ => by simp

theorem prepareSeqGroups_eq (vocabSize : ℕ) {batch : List Request} (hwf : ∀ b ∈ batch, b.WellFormed)
    (outputStart logitIdx : ℕ) :
    ∃ groups, prepareSeqGroups outputStart logitIdx (batch.map (·.metadata)) =
        .ok (groups, (batchRows vocabSize outputStart batch).map (·.outputIndex)) ∧
      List.zipWith attach groups batch = sampledGroups logitIdx batch := by
  induction batch generalizing outputStart logitIdx with
  | nil => exact ⟨[], rfl, rfl⟩
  | cons b batch ih =>
    have hb := hwf b List.mem_cons_self
    have hindices := outputIndices_promptOffsets hb.accepted
    obtain ⟨groups, hok, hzip⟩ := ih (fun b' hb' => hwf b' (List.mem_cons_of_mem b hb'))
      (outputStart + b.metadata.promptLogprobLen + b.metadata.sampleLen)
      (logitIdx + (b.promptOffsets.length + b.metadata.sampleLen))
    have hlength : (b.promptOffsets.map (outputStart + ·) ++ List.range'
        (outputStart + b.metadata.promptLogprobLen) b.metadata.sampleLen).length
        = b.promptOffsets.length + b.metadata.sampleLen := by
      rw [List.length_append, List.length_map, List.length_range']
    rw [← hlength] at hok
    refine ⟨b.metadata.toSample logitIdx b.promptOffsets :: groups, ?_, ?_⟩
    · rw [List.map_cons, prepareSeqGroups, b.metadata.prepare_eq hb.prompt_single hindices,
        batchRows, List.map_append, map_outputIndex_rows hb]
      exact bind_eq_ok.mpr ⟨_, rfl, bind_eq_ok.mpr ⟨_, hok, rfl⟩⟩
    · rw [List.zipWith_cons_cons, hzip]
      rfl

end Request

/-! ## The first pass -/

namespace SamplingTensors

/-- The numbers of the rows are appended. -/
def extendRows (t : SamplingTensors) (rows : List RowParameters) : SamplingTensors :=
  { t with
    temperatures := t.temperatures ++ rows.map (·.temperature)
    topPs := t.topPs ++ rows.map (·.topP)
    topKs := t.topKs ++ rows.map (·.topK)
    minPs := t.minPs ++ rows.map (·.minP)
    presencePenalties := t.presencePenalties ++ rows.map (·.presencePenalty)
    frequencyPenalties := t.frequencyPenalties ++ rows.map (·.frequencyPenalty)
    repetitionPenalties := t.repetitionPenalties ++ rows.map (·.repetitionPenalty) }

/-- The tokens of the rows are appended. -/
def extendTokens (t : SamplingTensors) (tokens : List SequenceTokens) : SamplingTensors :=
  { t with
    promptTokens := t.promptTokens ++ tokens.map (·.prompt)
    outputTokens := t.outputTokens ++ tokens.map (·.output) }

@[simp] theorem extendRows_nil (t : SamplingTensors) : t.extendRows [] = t := by
  simp [extendRows]

@[simp] theorem extendTokens_nil (t : SamplingTensors) : t.extendTokens [] = t := by
  simp [extendTokens]

theorem extendRows_append (t : SamplingTensors) (xs ys : List RowParameters) :
    (t.extendRows xs).extendRows ys = t.extendRows (xs ++ ys) := by
  simp [extendRows]

theorem extendTokens_append (t : SamplingTensors) (xs ys : List SequenceTokens) :
    (t.extendTokens xs).extendTokens ys = t.extendTokens (xs ++ ys) := by
  simp [extendTokens]

theorem extend_eq (t : SamplingTensors) (n : ℕ) (row : RowParameters) :
    t.extend n row = t.extendRows (List.replicate n row) := by
  simp [extend, extendRows]

end SamplingTensors

namespace Request

variable {vocabSize : ℕ} {b : Request}

theorem map_parameters_rows (outputStart : ℕ) :
    (b.rows vocabSize outputStart).map (·.parameters) =
      List.replicate b.promptOffsets.length (b.values.promptRow vocabSize) ++
        List.replicate b.sampledSeqIds.length (b.values.sampleRow vocabSize) := by
  rw [rows, List.map_append]
  congr 1
  · simp [List.map_map, Function.comp_def]
  · exact List.ext_getElem (by simp) fun i _ _ => by simp

theorem map_tokens_rows (outputStart : ℕ) :
    (b.rows vocabSize outputStart).map (·.tokens) =
      List.replicate b.promptOffsets.length ⟨[], []⟩ ++ b.sampledSeqIds.map b.seqData := by
  rw [rows, List.map_append]
  congr 1
  · simp [List.map_map, Function.comp_def]
  · exact List.ext_getElem (by simp) fun i _ _ => by simp

theorem length_promptLogprobIndices (b : Request) (logitIdx : ℕ) :
    (b.sampled logitIdx).promptLogprobIndices.length = b.promptOffsets.length :=
  List.length_range'

theorem WellFormed.length_sampleIndices (h : b.WellFormed) (logitIdx : ℕ) :
    (b.sampled logitIdx).sampleIndices.length = b.sampledSeqIds.length :=
  List.length_range'.trans h.sampleLen_eq

theorem WellFormed.seqIds_ne_nil (h : b.WellFormed) : b.metadata.seqIds ≠ [] := by
  cases hprompt : b.metadata.isPrompt with
  | true =>
    exact List.ne_nil_of_length_pos (h.prompt_single hprompt ▸ Nat.one_pos)
  | false => exact (h.decode hprompt).1

/-- A token is sampled for a group when its sequences have rows for it. -/
theorem WellFormed.samples_eq (h : b.WellFormed) (logitIdx : ℕ) :
    (b.sampled logitIdx).samples = b.metadata.doSample := by
  have hlength := h.length_sampleIndices logitIdx
  unfold SequenceGroupToSample.samples
  cases hsample : b.metadata.doSample with
  | true =>
    rw [sampledSeqIds, if_pos hsample] at hlength
    refine decide_eq_true (List.ne_nil_of_length_pos ?_)
    rw [hlength]
    exact List.length_pos_iff.mpr h.seqIds_ne_nil
  | false =>
    rw [sampledSeqIds, if_neg (by simp [hsample])] at hlength
    exact decide_eq_false (not_not.mpr (List.length_eq_zero_iff.mp hlength))

theorem WellFormed.addParameters_eq (h : b.WellFormed) (t : SamplingTensors)
    (outputStart logitIdx : ℕ) :
    t.addParameters vocabSize (b.sampled logitIdx) = .ok ((t.flag vocabSize b.values).extendRows
      ((b.rows vocabSize outputStart).map (·.parameters))) := by
  have hprompt : (if (b.sampled logitIdx).AsksForPrompt then
        (t.flag vocabSize b.values).extend (b.sampled logitIdx).promptLogprobIndices.length
          (b.values.promptRow vocabSize)
      else t.flag vocabSize b.values) = (t.flag vocabSize b.values).extendRows
        (List.replicate b.promptOffsets.length (b.values.promptRow vocabSize)) := by
    split
    · rw [SamplingTensors.extend_eq, length_promptLogprobIndices]
    · next hnot =>
      rw [(outputIndices_promptOffsets h.accepted).eq_nil hnot]
      exact (SamplingTensors.extendRows_nil _).symm
  unfold SamplingTensors.addParameters
  rw [map_parameters_rows, ← SamplingTensors.extendRows_append, ← hprompt, h.samples_eq]
  cases hsample : b.metadata.doSample with
  | true =>
    have hlength := h.length_sampleIndices logitIdx
    have hseqIds : b.sampledSeqIds = b.metadata.seqIds := if_pos hsample
    refine (raiseIf_bind ?_).trans ?_
    · rw [hlength, hseqIds]
      exact Nat.lt_irrefl _
    · rw [hlength, SamplingTensors.extend_eq]
      rfl
  | false =>
    have hseqIds : b.sampledSeqIds = [] := if_neg (by simp [hsample])
    rw [hseqIds, List.length_nil, List.replicate_zero, SamplingTensors.extendRows_nil]
    rfl

/-- The flags do not depend on the rows that are there. -/
theorem foldl_flag_extendRows (values : List SamplingValues) (t : SamplingTensors)
    (rows : List RowParameters) :
    values.foldl (SamplingTensors.flag vocabSize) (t.extendRows rows) =
      (values.foldl (SamplingTensors.flag vocabSize) t).extendRows rows := by
  induction values generalizing t with
  | nil => rfl
  | cons v values ih => exact ih (t.flag vocabSize v)

/-- Raising the flags leaves the lists alone. -/
theorem exists_foldl_flag (vocabSize : ℕ) (values : List SamplingValues) (t : SamplingTensors) :
    ∃ a b c, values.foldl (SamplingTensors.flag vocabSize) t =
        { t with doTopPTopK := a, doMinP := b, doPenalties := c } ∧
      (c = true ↔ t.doPenalties = true ∨ ∃ v ∈ values, v.UsesPenalties) := by
  induction values generalizing t with
  | nil => exact ⟨_, _, _, rfl, by simp⟩
  | cons v values ih =>
    obtain ⟨a, b, c, heq, hc⟩ := ih (t.flag vocabSize v)
    refine ⟨a, b, c, heq, hc.trans ?_⟩
    simp [SamplingTensors.flag, or_assoc]

theorem foldlM_addParameters {batch : List Request} (hwf : ∀ b ∈ batch, b.WellFormed)
    (t : SamplingTensors) (outputStart logitIdx : ℕ) :
    (sampledGroups logitIdx batch).foldlM (SamplingTensors.addParameters vocabSize) t =
      .ok (((batch.map (·.values)).foldl (SamplingTensors.flag vocabSize) t).extendRows
        ((batchRows vocabSize outputStart batch).map (·.parameters))) := by
  induction batch generalizing t outputStart logitIdx with
  | nil => exact congrArg _ (SamplingTensors.extendRows_nil t).symm
  | cons b batch ih =>
    have hb := hwf b List.mem_cons_self
    rw [sampledGroups, List.foldlM_cons, hb.addParameters_eq t outputStart]
    refine (ih (fun b' hb' => hwf b' (List.mem_cons_of_mem b hb')) _
      (outputStart + b.metadata.promptLogprobLen + b.metadata.sampleLen) _).trans ?_
    rw [foldl_flag_extendRows, SamplingTensors.extendRows_append, batchRows, List.map_append]
    rfl

/-! ## The second pass -/

variable (params : SamplingParams)

/-- The tokens that the second pass writes for a group when it asks `params`. -/
def secondPassTokens (b : Request) : List SequenceTokens :=
  List.replicate (if b.metadata.isPrompt ∧ params.promptLogprobs ≠ none
    then b.promptOffsets.length else 0) ⟨[], []⟩ ++ b.sampledSeqIds.map b.seqData

theorem WellFormed.addTokens_eq (h : b.WellFormed) (t : SamplingTensors) (logitIdx : ℕ) :
    t.addTokens params (b.sampled logitIdx) = t.extendTokens (b.secondPassTokens params) := by
  have hprompt : (if (b.sampled logitIdx).isPrompt ∧ params.promptLogprobs ≠ none then
        { t with
          promptTokens := t.promptTokens ++
            List.replicate (b.sampled logitIdx).promptLogprobIndices.length []
          outputTokens := t.outputTokens ++
            List.replicate (b.sampled logitIdx).promptLogprobIndices.length [] }
      else t) = t.extendTokens (List.replicate (if b.metadata.isPrompt ∧ params.promptLogprobs ≠ none
        then b.promptOffsets.length else 0) ⟨[], []⟩) := by
    rw [length_promptLogprobIndices]
    change (if b.metadata.isPrompt ∧ params.promptLogprobs ≠ none then _ else t) = _
    by_cases hasks : b.metadata.isPrompt ∧ params.promptLogprobs ≠ none
    · rw [if_pos hasks, if_pos hasks]
      simp [SamplingTensors.extendTokens]
    · rw [if_neg hasks, if_neg hasks]
      exact (SamplingTensors.extendTokens_nil t).symm
  unfold SamplingTensors.addTokens secondPassTokens
  rw [hprompt, h.samples_eq, ← SamplingTensors.extendTokens_append]
  cases hsample : b.metadata.doSample with
  | true =>
    have hseqIds : b.sampledSeqIds = b.metadata.seqIds := if_pos hsample
    rw [hseqIds, if_pos rfl]
    simp only [SamplingTensors.extendTokens, List.map_map]
    rfl
  | false =>
    have hseqIds : b.sampledSeqIds = [] := if_neg (by simp [hsample])
    rw [hseqIds, List.map_nil, SamplingTensors.extendTokens_nil, if_neg (by decide)]

theorem foldl_addTokens {batch : List Request} (hwf : ∀ b ∈ batch, b.WellFormed)
    (t : SamplingTensors) (logitIdx : ℕ) :
    (sampledGroups logitIdx batch).foldl (.addTokens params) t =
      t.extendTokens (batch.flatMap (secondPassTokens params)) := by
  induction batch generalizing t logitIdx with
  | nil => exact (SamplingTensors.extendTokens_nil t).symm
  | cons b batch ih =>
    rw [sampledGroups, List.foldl_cons, (hwf b List.mem_cons_self).addTokens_eq,
      ih (fun b' hb' => hwf b' (List.mem_cons_of_mem b hb')), SamplingTensors.extendTokens_append,
      List.flatMap_cons]

/-- Only a prompt has rows for prompt logprobs. -/
theorem isPrompt_of_promptOffsets (haccepted : b.metadata.params.Accepted)
    (h : b.promptOffsets ≠ []) : b.metadata.isPrompt = true := by
  obtain ⟨i, hi⟩ := List.exists_mem_of_ne_nil _ h
  exact (outputIndices_promptOffsets haccepted).isPrompt hi

variable {params}

theorem secondPassTokens_eq (haccepted : b.metadata.params.Accepted)
    (h : params.promptLogprobs ≠ none ∨ b.promptOffsets = []) (outputStart : ℕ) :
    b.secondPassTokens params = (b.rows vocabSize outputStart).map (·.tokens) := by
  rw [map_tokens_rows, secondPassTokens]
  congr 2
  by_cases hnil : b.promptOffsets = []
  · rw [hnil, List.length_nil, ite_self]
  · exact if_pos ⟨isPrompt_of_promptOffsets haccepted hnil, h.resolve_right hnil⟩

theorem flatMap_secondPassTokens_eq {batch : List Request} (hwf : ∀ b ∈ batch, b.WellFormed)
    (h : params.promptLogprobs ≠ none ∨ ∀ b ∈ batch, b.promptOffsets = []) (outputStart : ℕ) :
    batch.flatMap (secondPassTokens params) =
      (batchRows vocabSize outputStart batch).map (·.tokens) := by
  induction batch generalizing outputStart with
  | nil => rfl
  | cons b batch ih =>
    have hb : params.promptLogprobs ≠ none ∨ b.promptOffsets = [] :=
      h.imp_right fun hall => hall b List.mem_cons_self
    have hrest : params.promptLogprobs ≠ none ∨ ∀ b ∈ batch, b.promptOffsets = [] :=
      h.imp_right fun hall b' hb' => hall b' (List.mem_cons_of_mem b hb')
    rw [List.flatMap_cons, batchRows, List.map_append,
      secondPassTokens_eq (hwf b List.mem_cons_self).accepted hb,
      ih (fun b' hb' => hwf b' (List.mem_cons_of_mem b hb')) hrest]

/-- When the parameters that the second pass asks have no prompt logprobs, the rows for prompt logprobs
are missing in the lists of tokens. -/
theorem length_flatMap_secondPassTokens (hnone : params.promptLogprobs = none)
    (batch : List Request) (outputStart : ℕ) :
    (batch.flatMap (secondPassTokens params)).length +
        (batch.map (·.promptOffsets.length)).sum =
      (batchRows vocabSize outputStart batch).length := by
  induction batch generalizing outputStart with
  | nil => rfl
  | cons b batch ih =>
    have htokens : (b.secondPassTokens params).length = b.sampledSeqIds.length := by
      simp [secondPassTokens, hnone]
    have hrows : (b.rows vocabSize outputStart).length =
        b.promptOffsets.length + b.sampledSeqIds.length := by
      simp [rows]
    rw [List.flatMap_cons, List.length_append, List.map_cons, List.sum_cons, batchRows,
      List.length_append, htokens, hrows, ← ih (outputStart + b.metadata.promptLogprobLen +
        b.metadata.sampleLen)]
    ac_rfl

/-! ## The index lists -/

theorem flatMap_indices (vocabSize : ℕ) {batch : List Request} (hwf : ∀ b ∈ batch, b.WellFormed)
    (outputStart logitIdx : ℕ) :
    (sampledGroups logitIdx batch).flatMap (fun g => g.promptLogprobIndices ++ g.sampleIndices) =
      List.range' logitIdx (batchRows vocabSize outputStart batch).length := by
  induction batch generalizing outputStart logitIdx with
  | nil => rfl
  | cons b batch ih =>
    have hb := hwf b List.mem_cons_self
    have hgroup : (b.sampled logitIdx).promptLogprobIndices ++ (b.sampled logitIdx).sampleIndices =
        List.range' logitIdx (b.promptOffsets.length + b.metadata.sampleLen) :=
      List.range'_append_1
    have hrows : (b.rows vocabSize outputStart).length =
        b.promptOffsets.length + b.metadata.sampleLen := by
      simp [rows, hb.sampleLen_eq]
    rw [sampledGroups, List.flatMap_cons, hgroup, batchRows, List.length_append, hrows,
      ih (fun b' hb' => hwf b' (List.mem_cons_of_mem b hb'))
        (outputStart + b.metadata.promptLogprobLen + b.metadata.sampleLen), List.range'_append_1]

theorem shares {batch : List Request} (hwf : ∀ b ∈ batch, b.WellFormed) (logitIdx : ℕ) :
    List.Forall₂ (fun (g : SampledGroup) b =>
      g.promptLogprobIndices.length = b.promptOffsets.length ∧
        g.sampleIndices.length = b.sampledSeqIds.length) (sampledGroups logitIdx batch) batch := by
  induction batch generalizing logitIdx with
  | nil => exact .nil
  | cons b batch ih =>
    exact .cons ⟨length_promptLogprobIndices b logitIdx,
      (hwf b List.mem_cons_self).length_sampleIndices logitIdx⟩
      (ih (fun b' hb' => hwf b' (List.mem_cons_of_mem b hb')) _)

theorem getLast?_sampledGroups (batch : List Request) (logitIdx : ℕ) :
    (sampledGroups logitIdx batch).getLast?.map (·.params) =
      batch.getLast?.map (·.metadata.params) := by
  induction batch generalizing logitIdx with
  | nil => rfl
  | cons b batch ih =>
    cases batch with
    | nil => rfl
    | cons b' batch =>
      rw [sampledGroups, List.getLast?_cons_cons,
        ← ih (logitIdx + (b.promptOffsets.length + b.metadata.sampleLen))]
      rfl

end Request

/-! ## Every row has the parameters of its owner -/

/-- The second pass asks the right question: no group uses penalties, no group has a row for a prompt
logprob, or the last group asks for prompt logprobs as well. -/
def TokensAligned (batch : List Request) : Prop :=
  (∃ b ∈ batch, b.values.UsesPenalties) → (∃ b ∈ batch, b.promptOffsets ≠ []) →
    ∃ last ∈ batch.getLast?, last.metadata.params.promptLogprobs ≠ none

/-- What the two passes over a batch write. -/
theorem exists_fromSamplingMetadata (vocabSize : ℕ) {batch : List Request} {last : Request}
    (hwf : ∀ b ∈ batch, b.WellFormed) (hlast : batch.getLast? = some last) :
    ∃ flags : SamplingTensors, (flags.doPenalties = true ↔ ∃ b ∈ batch, b.values.UsesPenalties) ∧
      (∃ a b c, flags = { doTopPTopK := a, doMinP := b, doPenalties := c }) ∧
      fromSamplingMetadata vocabSize (Request.sampledGroups 0 batch) =
        .ok ((flags.extendRows ((Request.batchRows vocabSize 0 batch).map (·.parameters))).extendTokens
          (if flags.doPenalties then
            batch.flatMap (Request.secondPassTokens last.metadata.params) else [])) := by
  obtain ⟨a, b, c, hflags, hc⟩ :=
    Request.exists_foldl_flag vocabSize (batch.map (·.values)) {}
  refine ⟨_, ?_, ⟨a, b, c, rfl⟩, ?_⟩
  · simpa using hc
  unfold fromSamplingMetadata
  rw [Request.foldlM_addParameters hwf {} 0 0, hflags]
  have hgroup := Request.getLast?_sampledGroups batch 0
  rw [hlast] at hgroup
  obtain ⟨g, hg, hparams⟩ := Option.map_eq_some_iff.mp hgroup
  rw [hg]
  refine congrArg Except.ok ?_
  cases c with
  | false => exact (SamplingTensors.extendTokens_nil _).symm
  | true =>
    have hparams : last.metadata.params = g.params := hparams.symm
    rw [hparams]
    exact Request.foldl_addTokens g.params hwf _ 0

/-- The tokens of the rows are the right ones exactly when the second pass asked the right question. -/
theorem map_secondPassTokens_iff (vocabSize : ℕ) (params : SamplingParams) {batch : List Request}
    (hwf : ∀ b ∈ batch, b.WellFormed) :
    ((batch.flatMap (Request.secondPassTokens params)).map (·.prompt) =
        (Request.batchRows vocabSize 0 batch).map (·.tokens.prompt) ∧
      (batch.flatMap (Request.secondPassTokens params)).map (·.output) =
        (Request.batchRows vocabSize 0 batch).map (·.tokens.output)) ↔
      ((∃ b ∈ batch, b.promptOffsets ≠ []) → params.promptLogprobs ≠ none) := by
  constructor
  · rintro ⟨hprompt, -⟩ ⟨b, hb, hoffsets⟩ hnone
    have hlength := congrArg List.length hprompt
    rw [List.length_map, List.length_map,
      ← Request.length_flatMap_secondPassTokens hnone batch 0] at hlength
    have hzero : (batch.map (·.promptOffsets.length)).sum = 0 :=
      (Nat.left_eq_add.mp hlength)
    exact hoffsets (List.length_eq_zero_iff.mp
      (List.sum_eq_zero_iff_forall_eq_nat.mp hzero _ (List.mem_map_of_mem hb)))
  · intro h
    have hasks : params.promptLogprobs ≠ none ∨ ∀ b ∈ batch, b.promptOffsets = [] := by
      by_cases hall : ∀ b ∈ batch, b.promptOffsets = []
      · exact .inr hall
      · push Not at hall
        exact .inl (h hall)
    rw [Request.flatMap_secondPassTokens_eq hwf hasks 0, List.map_map, List.map_map]
    exact ⟨rfl, rfl⟩

/-- The rows of a batch are sampled with the parameters and the tokens of their owners exactly when
the second pass asks the right question. -/
theorem rowsOwned_iff (vocabSize : ℕ) (batch : List Request) (hwf : ∀ b ∈ batch, b.WellFormed) :
    ∃ groups selected t, prepareRequests batch = .ok (groups, selected) ∧
      fromSamplingMetadata vocabSize groups = .ok t ∧
      (RowsOwned batch groups selected t (Request.batchRows vocabSize 0 batch) ↔
        TokensAligned batch) := by
  obtain ⟨prepared, hprepared, hzip⟩ :=
    Request.prepareSeqGroups_eq vocabSize hwf 0 0
  have hgroups : prepareRequests batch = .ok (Request.sampledGroups 0 batch,
      (Request.batchRows vocabSize 0 batch).map (·.outputIndex)) :=
    bind_eq_ok.mpr ⟨_, hprepared, by rw [hzip]; rfl⟩
  cases hlast : batch.getLast? with
  | none =>
    obtain rfl := List.getLast?_eq_none_iff.mp hlast
    refine ⟨_, _, {}, hgroups, rfl, iff_of_true ?_ ?_⟩
    · exact ⟨rfl, rfl, .nil, rfl, rfl, rfl, rfl, rfl, rfl, rfl, fun _ => ⟨rfl, rfl⟩⟩
    · rintro ⟨b, hb, -⟩
      exact absurd hb List.not_mem_nil
  | some last =>
    obtain ⟨flags, hpenalties, ⟨a, b, c, rfl⟩, ht⟩ :=
      exists_fromSamplingMetadata vocabSize hwf hlast
    refine ⟨_, _, _, hgroups, ht, ?_⟩
    have htokens := map_secondPassTokens_iff vocabSize last.metadata.params hwf
    have hwritten (huses : ∃ b ∈ batch, b.values.UsesPenalties) :
        (if c then batch.flatMap (Request.secondPassTokens last.metadata.params) else []) =
          batch.flatMap (Request.secondPassTokens last.metadata.params) :=
      if_pos (hpenalties.mpr huses)
    constructor
    · intro h huses hoffsets
      refine ⟨last, hlast, htokens.mp ?_ hoffsets⟩
      have h := h.tokens huses
      simp only [hwritten huses, SamplingTensors.extendTokens, SamplingTensors.extendRows,
        List.nil_append] at h
      exact h
    · intro h
      refine ⟨rfl, ?_, Request.shares hwf 0, ?_, ?_, ?_, ?_, ?_, ?_, ?_, fun huses => ?_⟩
      · rw [Request.flatMap_indices vocabSize hwf 0 0, List.range_eq_range']
      iterate 7 exact List.map_map
      simp only [hwritten huses, SamplingTensors.extendTokens, SamplingTensors.extendRows,
        List.nil_append]
      refine htokens.mpr fun hoffsets => ?_
      obtain ⟨last', hlast', hasks⟩ := h huses hoffsets
      obtain rfl := Option.some.inj (hlast.symm.trans hlast')
      exact hasks

/-- A prompt of three tokens with logprobs for two of them. -/
def promptWithLogprobs : Request where
  metadata :=
    { seqIds := [0], params := ⟨some 1, none⟩, promptTokenIds := [5, 6, 7], numComputedTokens := 0,
      isPrompt := true, doSample := true, queryLen := 3 }
  values := ⟨1, 0, 0, 1, 1, -1, 0⟩
  seqData _ := ⟨[5, 6, 7], []⟩

/-- A sequence that is decoded with a presence penalty. -/
def decodeWithPenalty : Request where
  metadata :=
    { seqIds := [1], params := ⟨none, none⟩, promptTokenIds := [8], numComputedTokens := 1,
      isPrompt := false, doSample := true, queryLen := 1 }
  values := ⟨1, 1 / 2, 0, 1, 1, -1, 0⟩
  seqData _ := ⟨[8], [9]⟩

theorem promptWithLogprobs_wellFormed : promptWithLogprobs.WellFormed where
  accepted := fun positions h => absurd h (by simp [promptWithLogprobs])
  prompt_single := fun _ => rfl
  decode := fun h => absurd h (by decide)
  query_pos := by decide

theorem decodeWithPenalty_wellFormed : decodeWithPenalty.WellFormed where
  accepted := fun positions h => absurd h (by simp [decodeWithPenalty])
  prompt_single := fun h => absurd h (by decide)
  decode := fun _ => ⟨List.cons_ne_nil _ _, rfl⟩
  query_pos := by decide

theorem rowsOwned_iff_promptLast :
    ∃ groups selected t,
      prepareRequests [decodeWithPenalty, promptWithLogprobs] = .ok (groups, selected) ∧
      fromSamplingMetadata 10 groups = .ok t ∧
      RowsOwned [decodeWithPenalty, promptWithLogprobs] groups selected t
        (Request.batchRows 10 0 [decodeWithPenalty, promptWithLogprobs]) := by
  obtain ⟨groups, selected, t, hgroups, ht, hiff⟩ :=
    rowsOwned_iff 10 [decodeWithPenalty, promptWithLogprobs] (by
      intro b hb
      cases hb with
      | head => exact decodeWithPenalty_wellFormed
      | tail _ hb =>
        rw [List.mem_singleton.mp hb]
        exact promptWithLogprobs_wellFormed)
  refine ⟨groups, selected, t, hgroups, ht, hiff.mpr fun _ _ => ?_⟩
  exact ⟨promptWithLogprobs, rfl, Option.some_ne_none 1⟩

/-- With the prompt in front, four rows are sampled with the tokens of two: the penalty of the second
request counts the tokens of no sequence, and rows of the first one count tokens that are not theirs. -/
theorem not_rowsOwned_of_decodeLast :
    ∃ groups selected t,
      prepareRequests [promptWithLogprobs, decodeWithPenalty] = .ok (groups, selected) ∧
      fromSamplingMetadata 10 groups = .ok t ∧ selected.length = 4 ∧
      t.promptTokens = [[5, 6, 7], [8]] ∧
      ¬ RowsOwned [promptWithLogprobs, decodeWithPenalty] groups selected t
        (Request.batchRows 10 0 [promptWithLogprobs, decodeWithPenalty]) := by
  refine ⟨_, _, _, rfl, rfl, rfl, by decide +kernel, fun h => ?_⟩
  have huses : decodeWithPenalty.values.UsesPenalties := by decide +kernel
  have htokens := (h.tokens ⟨decodeWithPenalty, by simp, huses⟩).1
  exact absurd htokens (by decide +kernel)

end Ikun.Sampling
