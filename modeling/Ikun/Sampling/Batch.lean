import Ikun.Sampling.PromptLogprobs

/-!
# Prompt logprobs of a batch

The rows of the model output, the selected rows, the selected logprobs and the positions of the
prompt are four index spaces. `stepPromptLogprobs_eq` says that for a batch in which every group fits
its output, they agree: what a step returns for a group is determined by the group alone, the entry
at offset `i` of its chunk is the one of its own row `i` and of the token behind the `i`-th token
that is not counted as computed.
-/

namespace Ikun.Sampling

open Except

variable {ρ V : Type}

/-! ## What a step is expected to return -/

/-- The position is requested. -/
def SamplingParams.Requested (p : SamplingParams) (position : ℕ) : Prop :=
  match p.promptLogprobPositions with
  | none => True
  | some positions => position ∈ positions

instance (p : SamplingParams) (position : ℕ) : Decidable (p.Requested position) := by
  unfold SamplingParams.Requested
  split <;> infer_instance

/-- The number of entries for a chunk. -/
def SequenceGroupMetadata.chunkLen (m : SequenceGroupMetadata) : ℕ :=
  min m.promptLogprobLen m.availableNextTokens

namespace BatchGroup

variable (rows : LogprobRows ρ V) (b : BatchGroup ρ)

/-- The group fits its output and its samples. -/
structure WellFormed : Prop where
  accepted : b.metadata.params.Accepted
  seqIds_ne : b.metadata.seqIds ≠ []
  prompt_single : b.metadata.isPrompt = true → b.metadata.seqIds.length = 1
  decode : b.metadata.isPrompt = false → b.metadata.doSample = true ∧ b.metadata.queryLen = 1
  query_pos : 0 < b.metadata.queryLen
  output_length : b.output.length = b.metadata.promptLogprobLen + b.metadata.sampleLen
  sampled : b.metadata.doSample = true → b.result.1 ≠ [] ∧
    b.result.1.length = b.result.2.length ∧ ∀ parent ∈ b.result.2, parent < b.metadata.sampleLen

/-- The entry of the token behind the `i`-th token. -/
def entryAt (numLogprobs i : ℕ) : Option (Dict ℕ (V × ℕ)) := do
  let row ← b.output[i]?
  let token ← b.metadata.promptTokenIds[b.metadata.numComputedTokens + i + 1]?
  return SequenceGroupToSample.promptLogprobsDict numLogprobs token
    (rows.logprobAndRank row token) (rows.ranking row)

/-- The entries of a chunk. -/
def expectedPromptLogprobs : Option (List (Option (Dict ℕ (V × ℕ)))) :=
  match b.metadata.params.promptLogprobs with
  | some numLogprobs =>
    if b.metadata.isPrompt then
      some ((List.range b.metadata.chunkLen).map fun i =>
        if b.metadata.params.Requested (b.metadata.numComputedTokens + i + 1) then
          b.entryAt rows numLogprobs i
        else none)
    else none
  | none => none

end BatchGroup

/-! ## One group -/

namespace SequenceGroupMetadata

variable {m : SequenceGroupMetadata}

/-- The output indices are the requested offsets of the chunk. -/
structure OutputIndices (m : SequenceGroupMetadata) (indices : List ℕ) : Prop where
  eq_ok : m.promptLogprobOutputIndices = .ok indices
  sorted : indices.Pairwise (· < ·)
  mem_iff : ∀ i, i ∈ indices ↔ m.params.promptLogprobs ≠ none ∧ i < m.chunkLen ∧
    m.params.Requested (m.numComputedTokens + i + 1)

theorem exists_outputIndices (haccepted : m.params.Accepted) :
    ∃ indices, m.OutputIndices indices := by
  by_cases hnone : m.params.promptLogprobs = none ∨ m.promptLogprobLen = 0
  · refine ⟨[], if_pos hnone, List.Pairwise.nil, fun i => ?_⟩
    have hempty : ¬ (m.params.promptLogprobs ≠ none ∧ i < m.chunkLen ∧
        m.params.Requested (m.numComputedTokens + i + 1)) := by
      rintro ⟨hsome, hlt, -⟩
      have hzero := hnone.resolve_left hsome
      unfold chunkLen at hlt
      omega
    exact iff_of_false List.not_mem_nil hempty
  obtain ⟨hsome, hlen⟩ := not_or.mp hnone
  cases hpositions : m.params.promptLogprobPositions with
  | none =>
    refine ⟨List.range m.chunkLen, ?_, List.pairwise_lt_range, fun i => ?_⟩
    · unfold promptLogprobOutputIndices
      rw [if_neg hnone]
      simp only [hpositions]
      rfl
    · unfold SamplingParams.Requested
      simp only [hpositions, List.mem_range, and_true]
      exact ⟨fun h => ⟨hsome, h⟩, fun h => h.2⟩
  | some positions =>
    obtain ⟨-, -, -, hsorted⟩ := haccepted positions hpositions
    let indices := (positions.filter fun position => m.numComputedTokens < position ∧
      position ≤ m.numComputedTokens + m.chunkLen).map
        fun position => position - m.numComputedTokens - 1
    have hmem : ∀ i, i ∈ indices ↔ i < m.chunkLen ∧ m.numComputedTokens + i + 1 ∈ positions := by
      intro i
      simp only [indices, List.mem_map, List.mem_filter, decide_eq_true_eq]
      constructor
      · rintro ⟨position, ⟨hposition, hlow, hhigh⟩, rfl⟩
        have heq : m.numComputedTokens + (position - m.numComputedTokens - 1) + 1 = position := by
          omega
        exact ⟨by omega, by rwa [heq]⟩
      · rintro ⟨hlt, hposition⟩
        exact ⟨_, ⟨hposition, by omega, by omega⟩, by omega⟩
    have hpairwise : indices.Pairwise (· < ·) := by
      rw [List.pairwise_map]
      refine (hsorted.filter _).imp_of_mem fun {p q} hp hq hlt => ?_
      have hp' := of_decide_eq_true (List.mem_filter.mp hp).2
      omega
    refine ⟨indices, ?_, hpairwise, fun i => ?_⟩
    · unfold promptLogprobOutputIndices
      rw [if_neg hnone]
      simp only [hpositions]
      refine (raiseIf_bind (not_not.mpr hpairwise)).trans ?_
      exact raiseIf_bind (not_not.mpr fun index hindex => ((hmem index).mp hindex).1)
    · rw [hmem]
      unfold SamplingParams.Requested
      simp only [hpositions]
      exact ⟨fun h => ⟨hsome, h⟩, fun h => h.2⟩

/-- The prepared group for the output indices and the first index of its rows in the logits. -/
def toSample (m : SequenceGroupMetadata) (logitIdx : ℕ) (indices : List ℕ) :
    SequenceGroupToSample :=
  { m with
    promptLogprobIndices := List.range' logitIdx indices.length
    promptLogprobOutputIndices := indices
    sampleIndices := List.range' (logitIdx + indices.length) m.sampleLen }

theorem OutputIndices.lt {indices : List ℕ} (h : m.OutputIndices indices) {i : ℕ}
    (hi : i ∈ indices) : i < m.promptLogprobLen ∧ m.numComputedTokens + i + 1
      < m.promptTokenIds.length := by
  have hlt := ((h.mem_iff i).mp hi).2.1
  unfold chunkLen availableNextTokens at hlt
  omega

/-- Indices are only there for prompts. -/
theorem OutputIndices.isPrompt {indices : List ℕ} (h : m.OutputIndices indices) {i : ℕ}
    (hi : i ∈ indices) : m.isPrompt = true := by
  have hlt := (h.lt hi).1
  unfold promptLogprobLen at hlt
  split at hlt
  · next hprompt => exact hprompt
  · exact absurd hlt (Nat.not_lt_zero i)

/-- Without prompt logprobs there are no indices. -/
theorem OutputIndices.eq_nil {indices : List ℕ} (h : m.OutputIndices indices)
    (hnot : ¬ (m.isPrompt = true ∧ m.params.promptLogprobs ≠ none)) : indices = [] := by
  refine List.eq_nil_iff_forall_not_mem.mpr fun i hi => hnot ⟨h.isPrompt hi, ?_⟩
  exact ((h.mem_iff i).mp hi).1

theorem prepare_eq (hsingle : m.isPrompt = true → m.seqIds.length = 1) {indices : List ℕ}
    (h : m.OutputIndices indices) (modelOutputIdx logitIdx : ℕ) :
    m.prepare modelOutputIdx logitIdx = .ok (m.toSample logitIdx indices,
      indices.map (modelOutputIdx + ·)
        ++ List.range' (modelOutputIdx + m.promptLogprobLen) m.sampleLen) := by
  have hquery : ∀ index ∈ indices, index < m.queryLen := by
    intro index hindex
    have hlt := (h.lt hindex).1
    unfold promptLogprobLen at hlt
    rw [if_pos (h.isPrompt hindex)] at hlt
    split at hlt <;> omega
  unfold prepare
  rw [raiseIf_bind fun hbad => hbad.2 (hsingle hbad.1), h.eq_ok]
  refine (raiseIf_bind (not_not.mpr h.sorted)).trans ?_
  exact raiseIf_bind fun hbad => hbad.2 hquery

end SequenceGroupMetadata

/-! ## The rows of a group -/

namespace SequenceGroupMetadata

variable (m : SequenceGroupMetadata)

/-- The token behind the `i`-th token. -/
def tokenAt (i : ℕ) : ℕ := (m.promptTokenIds[m.numComputedTokens + i + 1]?).getD 0

end SequenceGroupMetadata

namespace BatchGroup

variable {rows : LogprobRows ρ V} {b : BatchGroup ρ} {indices : List ℕ} {logitIdx : ℕ}

/-- The rows of the output as a function of the offset. -/
theorem WellFormed.exists_row (h : b.WellFormed) :
    ∃ row : ℕ → ρ, ∀ i < b.output.length, b.output[i]? = some (row i) := by
  have hpos : 0 < b.output.length := by
    rw [h.output_length]
    unfold SequenceGroupMetadata.promptLogprobLen SequenceGroupMetadata.sampleLen
    have hquery := h.query_pos
    have hseqs := List.length_pos_of_ne_nil h.seqIds_ne
    cases hprompt : b.metadata.isPrompt with
    | false =>
      obtain ⟨hsample, hone⟩ := h.decode hprompt
      simp only [hsample, hone, Bool.false_eq_true, if_true, if_false]
      omega
    | true =>
      cases hsample : b.metadata.doSample with
      | false => simpa using hquery
      | true =>
        simp only [if_true]
        omega
  refine ⟨fun i => (b.output[i]?).getD (b.output[0]), fun i hi => ?_⟩
  show b.output[i]? = some ((b.output[i]?).getD (b.output[0]))
  rw [List.getElem?_eq_getElem hi]
  rfl

/-- A group samples when it has rows to sample from. -/
theorem WellFormed.samples_eq (h : b.WellFormed) :
    (b.metadata.toSample logitIdx indices).samples = b.metadata.doSample := by
  unfold SequenceGroupToSample.samples SequenceGroupMetadata.toSample
  cases hsample : b.metadata.doSample with
  | false =>
    have hzero : b.metadata.sampleLen = 0 := by simp [SequenceGroupMetadata.sampleLen, hsample]
    simp [hzero]
  | true =>
    have hseqs := List.length_pos_of_ne_nil h.seqIds_ne
    have hpos : b.metadata.sampleLen ≠ 0 := by
      unfold SequenceGroupMetadata.sampleLen
      rw [if_pos hsample]
      split
      · exact Nat.one_ne_zero
      · have hquery := h.query_pos
        exact Nat.ne_of_gt (Nat.mul_pos hseqs hquery)
    simp [hpos]

/-- The tokens of the output indices. -/
theorem WellFormed.nextPromptTokens_eq (h : b.WellFormed)
    (hindices : b.metadata.OutputIndices indices) (hprompt : b.metadata.isPrompt = true) :
    (b.metadata.toSample logitIdx indices).nextPromptTokens
      = .ok (indices.map b.metadata.tokenAt) := by
  unfold SequenceGroupToSample.nextPromptTokens
  refine (raiseIf_bind (not_not.mpr hprompt)).trans ?_
  refine (raiseIf_bind (not_not.mpr (h.prompt_single hprompt))).trans ?_
  refine mapM_eq_ok fun i hi => ?_
  have hlt := (hindices.lt hi).2
  show (match b.metadata.promptTokenIds[b.metadata.numComputedTokens + i + 1]? with
    | some token => Except.ok token
    | none => Except.error Exn.assertionError) = _
  unfold SequenceGroupMetadata.tokenAt
  rw [List.getElem?_eq_getElem hlt]
  rfl

/-- The rows and tokens that a group samples. -/
theorem sampleQueries_eq (b : BatchGroup ρ) (logitIdx : ℕ) (indices : List ℕ) :
    (b.metadata.toSample logitIdx indices).sampleQueries b.result
      = if b.metadata.sampleLen = 0 then ([], [])
        else (b.result.2.map (logitIdx + indices.length + ·), b.result.1) := by
  unfold SequenceGroupToSample.sampleQueries SequenceGroupMetadata.toSample
  cases b.metadata.sampleLen <;> rfl

/-- The rows and tokens of the prompt. -/
theorem WellFormed.promptQueries_eq (h : b.WellFormed)
    (hindices : b.metadata.OutputIndices indices) :
    (b.metadata.toSample logitIdx indices).promptQueries
      = .ok (List.range' logitIdx indices.length, indices.map b.metadata.tokenAt) := by
  unfold SequenceGroupToSample.promptQueries
  split
  · next hasks => exact bind_eq_ok.mpr ⟨_, h.nextPromptTokens_eq hindices hasks.1, rfl⟩
  · next hnot =>
    rw [hindices.eq_nil hnot]
    rfl

/-- A group has as many rows to sample from as sequences. -/
theorem WellFormed.sampleLen_eq (h : b.WellFormed) :
    b.metadata.sampleLen = if b.metadata.doSample then b.metadata.seqIds.length else 0 := by
  unfold SequenceGroupMetadata.sampleLen
  cases hprompt : b.metadata.isPrompt with
  | false =>
    rw [(h.decode hprompt).2, Nat.mul_one]
    rfl
  | true =>
    rw [h.prompt_single hprompt]
    rfl

/-- The rows that a group selects from its own output. -/
def selectedRows (b : BatchGroup ρ) (row : ℕ → ρ) (indices : List ℕ) : List ρ :=
  indices.map row ++ (List.range' b.metadata.promptLogprobLen b.metadata.sampleLen).map row

theorem length_selectedRows (row : ℕ → ρ) :
    (b.selectedRows row indices).length = indices.length + b.metadata.sampleLen := by
  unfold selectedRows
  rw [List.length_append, List.length_map, List.length_map, List.length_range']

end BatchGroup

/-! ## Rows by their indices -/

theorem item_eq {α : Type} {xs : List α} {i : ℕ} {x : α} (h : xs[i]? = some x) :
    item xs i = .ok x := by
  unfold item
  rw [h]

/-- The rows of an output in the middle of the model output. -/
theorem mapM_item_eq {α : Type} (front output back : List α) {row : ℕ → α} {indices : List ℕ}
    (hrow : ∀ i ∈ indices, output[i]? = some (row i)) :
    (indices.map (front.length + ·)).mapM (item (front ++ (output ++ back)))
      = .ok (indices.map row) := by
  rw [List.mapM_map]
  refine mapM_eq_ok fun i hi => item_eq ?_
  have hlt : i < output.length := (List.getElem?_eq_some_iff.mp (hrow i hi)).1
  show (front ++ (output ++ back))[front.length + i]? = some (row i)
  rw [List.getElem?_append_right (Nat.le_add_right _ _), Nat.add_sub_cancel_left,
    List.getElem?_append_left hlt, hrow i hi]

/-- The selected items of the rows that follow `front` in the logits. -/
theorem mapM_selectedItem_eq (rows : LogprobRows ρ V) (row : ℕ → ρ) (token : ℕ → ℕ)
    (indices : List ℕ) (front back : List ρ) :
    ((List.range' front.length indices.length).zip (indices.map token)).mapM
        (selectedItem rows (front ++ (indices.map row ++ back)))
      = .ok (indices.map fun i => rows.logprobAndRank (row i) (token i)) := by
  induction indices generalizing front with
  | nil => rfl
  | cons i indices ih =>
    have hhead : selectedItem rows (front ++ (row i :: (indices.map row ++ back)))
        (front.length, token i) = .ok (rows.logprobAndRank (row i) (token i)) := by
      unfold selectedItem
      rw [item_eq (x := row i) (by simp)]
      rfl
    have htail := ih (front ++ [row i])
    rw [List.length_append, List.length_singleton, List.append_assoc, List.singleton_append] at htail
    rw [List.length_cons, List.range'_succ, List.map_cons, List.map_cons, List.zip_cons_cons,
      List.mapM_cons, List.cons_append, hhead, htail]
    rfl

/-! ## Filling the entries -/

/-- The entry for a row and a token. -/
def entry (rows : LogprobRows ρ V) (numLogprobs : ℕ) (row : ρ) (token : ℕ) : Dict ℕ (V × ℕ) :=
  SequenceGroupToSample.promptLogprobsDict numLogprobs token (rows.logprobAndRank row token)
    (rows.ranking row)

/-- The most probable tokens of the row, unless none are asked for. -/
theorem promptLogprobsDict_eq (rows : LogprobRows ρ V) (numLogprobs : ℕ) (row : ρ) (token : ℕ)
    (logits : List ρ) {i : ℕ} (h : logits[i]? = some row) :
    ∃ top, (if numLogprobs = 0 then some [] else logits[i]?.map rows.ranking) = some top ∧
      SequenceGroupToSample.promptLogprobsDict numLogprobs token (rows.logprobAndRank row token) top
        = entry rows numLogprobs row token := by
  by_cases hzero : numLogprobs = 0
  · refine ⟨[], if_pos hzero, ?_⟩
    subst hzero
    unfold entry SequenceGroupToSample.promptLogprobsDict
    rw [List.take_zero, List.take_zero]
  · exact ⟨rows.ranking row, by rw [if_neg hzero, h]; rfl, rfl⟩

/-- The loop sets the entries of the output indices. -/
theorem fillPromptLogprobs_eq (rows : LogprobRows ρ V) (numLogprobs : ℕ) (row : ℕ → ρ)
    (token : ℕ → ℕ) (indices : List ℕ) (front back : List ρ)
    (filled : List (Option (Dict ℕ (V × ℕ)))) (hlt : ∀ i ∈ indices, i < filled.length) :
    ∃ result, SequenceGroupToSample.fillPromptLogprobs rows
        (front ++ (indices.map row ++ back)) numLogprobs
        (indices.map fun i => (token i, i, rows.logprobAndRank (row i) (token i)))
        front.length filled = .ok result ∧
      result.length = filled.length ∧
      ∀ i, i < filled.length → result[i]? = if i ∈ indices then
        some (some (entry rows numLogprobs (row i) (token i))) else filled[i]? := by
  induction indices generalizing front filled with
  | nil => exact ⟨filled, rfl, rfl, fun i _ => (if_neg List.not_mem_nil).symm⟩
  | cons j indices ih =>
    have hj := hlt j List.mem_cons_self
    obtain ⟨top, htop, hdict⟩ := promptLogprobsDict_eq rows numLogprobs (row j) (token j)
      (front ++ (row j :: (indices.map row ++ back))) (i := front.length) (by simp)
    obtain ⟨result, hresult, hlength, hget⟩ := ih (front ++ [row j])
      (filled.set j (some (entry rows numLogprobs (row j) (token j)))) (by
        intro i hi
        rw [List.length_set]
        exact hlt i (List.mem_cons_of_mem j hi))
    rw [List.length_append, List.length_singleton, List.append_assoc, List.singleton_append]
      at hresult
    rw [List.length_set] at hlength hget
    refine ⟨result, ?_, hlength, fun i hi => ?_⟩
    · rw [List.map_cons, List.map_cons, List.cons_append,
        SequenceGroupToSample.fillPromptLogprobs, htop]
      simp only [if_neg (Nat.not_le.mpr hj), hdict]
      exact hresult
    · rw [hget i hi]
      by_cases hmem : i ∈ indices
      · rw [if_pos hmem, if_pos (List.mem_cons_of_mem j hmem)]
      · rw [if_neg hmem]
        rcases eq_or_ne i j with rfl | hne
        · rw [if_pos List.mem_cons_self, List.getElem?_set_self hj]
        · have hnot : i ∉ j :: indices := fun h => (List.mem_cons.mp h).elim hne hmem
          rw [if_neg hnot, List.getElem?_set_ne (Ne.symm hne)]

/-- Pairing with a longer list of values. -/
theorem zip_map_append {α β : Type} (f : ℕ → α) (g : ℕ → β) (indices : List ℕ) (rest : List β) :
    (indices.map f).zip (indices.zip (indices.map g ++ rest))
      = indices.map fun i => (f i, i, g i) := by
  induction indices with
  | nil => rfl
  | cons i indices ih => simp [ih]

/-- The entry of an output index. -/
theorem BatchGroup.WellFormed.entryAt_eq {b : BatchGroup ρ} (h : b.WellFormed)
    {rows : LogprobRows ρ V} {row : ℕ → ρ}
    (hrow : ∀ i < b.output.length, b.output[i]? = some (row i)) {indices : List ℕ}
    (hindices : b.metadata.OutputIndices indices) {numLogprobs i : ℕ} (hi : i ∈ indices) :
    b.entryAt rows numLogprobs i
      = some (entry rows numLogprobs (row i) (b.metadata.tokenAt i)) := by
  obtain ⟨hlen, htoken⟩ := hindices.lt hi
  have hlt : i < b.output.length := by
    rw [h.output_length]
    omega
  unfold BatchGroup.entryAt SequenceGroupMetadata.tokenAt
  rw [hrow i hlt, List.getElem?_eq_getElem htoken]
  rfl

/-- The prompt logprobs of a group whose rows follow `front` in the logits. -/
theorem BatchGroup.WellFormed.promptLogprobIfNeeded_eq {b : BatchGroup ρ} (h : b.WellFormed)
    (rows : LogprobRows ρ V) {row : ℕ → ρ} (hrow : ∀ i < b.output.length, b.output[i]? = some (row i))
    {indices : List ℕ} (hindices : b.metadata.OutputIndices indices) (front back : List ρ)
    (rest : List (V × ℕ)) :
    (b.metadata.toSample front.length indices).promptLogprobIfNeeded rows
        (front ++ (indices.map row ++ back))
        (indices.map (fun i => rows.logprobAndRank (row i) (b.metadata.tokenAt i)) ++ rest)
        front.length
      = .ok (b.expectedPromptLogprobs rows, indices.length) := by
  let g := b.metadata.toSample front.length indices
  unfold SequenceGroupToSample.promptLogprobIfNeeded BatchGroup.expectedPromptLogprobs
  show (match b.metadata.params.promptLogprobs with
    | some numLogprobs => if b.metadata.isPrompt then _ else _
    | none => _) = _
  cases hparams : b.metadata.params.promptLogprobs with
  | none =>
    rw [hindices.eq_nil fun hasks => hasks.2 hparams]
    rfl
  | some numLogprobs =>
    cases hprompt : b.metadata.isPrompt with
    | false =>
      rw [hindices.eq_nil fun hasks => Bool.false_ne_true (hprompt.symm.trans hasks.1)]
      rfl
    | true =>
      simp only [if_true]
      have hrequested : (if g.samples then g.queryLen - g.seqIds.length else g.queryLen)
          = b.metadata.promptLogprobLen := by
        rw [h.samples_eq]
        unfold SequenceGroupMetadata.promptLogprobLen
        rw [if_pos hprompt, ← h.prompt_single hprompt]
        rfl
      have hfilled : ∀ i ∈ indices, i < (List.replicate b.metadata.chunkLen
          (none : Option (Dict ℕ (V × ℕ)))).length := by
        intro i hi
        rw [List.length_replicate]
        exact ((hindices.mem_iff i).mp hi).2.1
      obtain ⟨result, hresult, hlength, hget⟩ := fillPromptLogprobs_eq rows numLogprobs row
        b.metadata.tokenAt indices front back _ hfilled
      rw [List.length_replicate] at hlength hget
      have hentries : result = (List.range b.metadata.chunkLen).map fun i =>
          if b.metadata.params.Requested (b.metadata.numComputedTokens + i + 1) then
            b.entryAt rows numLogprobs i
          else none := by
        refine List.ext_getElem? fun i => ?_
        rcases Nat.lt_or_ge i b.metadata.chunkLen with hi | hi
        · rw [hget i hi, List.getElem?_map, List.getElem?_range hi, Option.map_some]
          have hmem : i ∈ indices ↔ b.metadata.params.Requested
              (b.metadata.numComputedTokens + i + 1) := by
            rw [hindices.mem_iff]
            have hsome : b.metadata.params.promptLogprobs ≠ none := by
              rw [hparams]
              exact Option.some_ne_none numLogprobs
            exact ⟨fun hin => hin.2.2, fun hreq => ⟨hsome, hi, hreq⟩⟩
          split
          · next hin =>
            rw [if_pos (hmem.mp hin), h.entryAt_eq hrow hindices hin]
          · next hout =>
            rw [if_neg (mt hmem.mpr hout), List.getElem?_replicate, if_pos hi]
        · rw [List.getElem?_eq_none (hlength.symm ▸ hi), List.getElem?_eq_none]
          rw [List.length_map, List.length_range]
          exact hi
      refine bind_eq_ok.mpr ⟨_, h.nextPromptTokens_eq hindices hprompt, ?_⟩
      refine (raiseIf_bind ?_).trans ?_
      · simp [SequenceGroupMetadata.toSample]
      refine (raiseIf_bind ?_).trans ?_
      · simp
      refine bind_eq_ok.mpr ⟨result, ?_, ?_⟩
      · rw [hrequested]
        show SequenceGroupToSample.fillPromptLogprobs rows _ numLogprobs
          ((indices.map b.metadata.tokenAt).zip (indices.zip _)) _
          (List.replicate b.metadata.chunkLen none) = .ok result
        rw [zip_map_append]
        exact hresult
      · rw [hentries, List.length_map]
        rfl

/-- What a group samples is read off its own rows. -/
theorem BatchGroup.WellFormed.exists_sampled {b : BatchGroup ρ} (h : b.WellFormed)
    (rows : LogprobRows ρ V) (row : ℕ → ρ) (indices : List ℕ) (front back : List ρ) :
    let queries := (b.metadata.toSample front.length indices).sampleQueries b.result
    queries.1.length = queries.2.length ∧
      ∃ items, (queries.1.zip queries.2).mapM
          (selectedItem rows (front ++ (b.selectedRows row indices ++ back))) = .ok items ∧
        items.length = if b.metadata.doSample then b.result.1.length else 0 := by
  dsimp only
  rw [b.sampleQueries_eq]
  cases hsample : b.metadata.doSample with
  | false =>
    have hzero : b.metadata.sampleLen = 0 := by rw [h.sampleLen_eq, hsample]; rfl
    rw [if_pos hzero]
    exact ⟨rfl, [], rfl, rfl⟩
  | true =>
    obtain ⟨hne, hlength, hparent⟩ := h.sampled hsample
    have hpos : b.metadata.sampleLen ≠ 0 := by
      rw [h.sampleLen_eq, hsample]
      exact Nat.ne_of_gt (List.length_pos_of_ne_nil h.seqIds_ne)
    rw [if_neg hpos]
    refine ⟨by rw [List.length_map, hlength], ?_⟩
    obtain ⟨items, hitems, hcount⟩ := exists_mapM_eq_ok
      (f := selectedItem rows (front ++ (b.selectedRows row indices ++ back)))
      (l := (b.result.2.map (front.length + indices.length + ·)).zip b.result.1) (by
        rintro ⟨query, token⟩ hquery
        obtain ⟨parent, hmem, rfl⟩ := List.mem_map.mp (List.of_mem_zip hquery).1
        have hlt : front.length + indices.length + parent
            < (front ++ (b.selectedRows row indices ++ back)).length := by
          have hlt := hparent parent hmem
          rw [List.length_append, List.length_append, b.length_selectedRows]
          omega
        have hitem := item_eq (List.getElem?_eq_getElem hlt)
        exact ⟨_, bind_eq_ok.mpr ⟨_, hitem, rfl⟩⟩)
    refine ⟨items, hitems, ?_⟩
    rw [hcount, List.length_zip, List.length_map, ← hlength, Nat.min_self]
    rfl

/-! ## A whole batch -/

/-- The prepared groups of a batch, the rows that they select and these rows. -/
inductive Prepared : ℕ → ℕ → List (BatchGroup ρ) → List SequenceGroupToSample → List ℕ →
    List ρ → Prop
  | nil {modelOutputIdx logitIdx : ℕ} : Prepared modelOutputIdx logitIdx [] [] [] []
  | cons {modelOutputIdx logitIdx : ℕ} {b : BatchGroup ρ} {batch : List (BatchGroup ρ)}
      {indices selected : List ℕ} {groups : List SequenceGroupToSample} {row : ℕ → ρ}
      {logits : List ρ} (hindices : b.metadata.OutputIndices indices)
      (hrow : ∀ i < b.output.length, b.output[i]? = some (row i))
      (htail : Prepared (modelOutputIdx + b.output.length)
        (logitIdx + (indices.length + b.metadata.sampleLen)) batch groups selected logits) :
      Prepared modelOutputIdx logitIdx (b :: batch) (b.metadata.toSample logitIdx indices :: groups)
        (indices.map (modelOutputIdx + ·)
          ++ List.range' (modelOutputIdx + b.metadata.promptLogprobLen) b.metadata.sampleLen
          ++ selected) (b.selectedRows row indices ++ logits)

/-- A batch of groups that fit their outputs is prepared. -/
theorem exists_prepared {batch : List (BatchGroup ρ)} (hwf : ∀ b ∈ batch, b.WellFormed)
    (modelOutputIdx logitIdx : ℕ) :
    ∃ groups selected logits, prepareSeqGroups modelOutputIdx logitIdx (batch.map (·.metadata))
        = .ok (groups, selected) ∧
      Prepared modelOutputIdx logitIdx batch groups selected logits := by
  induction batch generalizing modelOutputIdx logitIdx with
  | nil => exact ⟨[], [], [], rfl, .nil⟩
  | cons b batch ih =>
    have hb := hwf b List.mem_cons_self
    obtain ⟨indices, hindices⟩ := SequenceGroupMetadata.exists_outputIndices hb.accepted
    obtain ⟨row, hrow⟩ := hb.exists_row
    obtain ⟨groups, selected, logits, hok, hprepared⟩ := ih
      (fun b' hb' => hwf b' (List.mem_cons_of_mem b hb')) (modelOutputIdx + b.output.length)
      (logitIdx + (indices.length + b.metadata.sampleLen))
    refine ⟨_, _, _, ?_, .cons hindices hrow hprepared⟩
    have htail : prepareSeqGroups
        (modelOutputIdx + b.metadata.promptLogprobLen + b.metadata.sampleLen)
        (logitIdx + (indices.map (modelOutputIdx + ·) ++ List.range'
          (modelOutputIdx + b.metadata.promptLogprobLen) b.metadata.sampleLen).length)
        (batch.map (·.metadata)) = .ok (groups, selected) := by
      rw [List.length_append, List.length_map, List.length_range', Nat.add_assoc modelOutputIdx,
        ← hb.output_length]
      exact hok
    rw [List.map_cons, prepareSeqGroups, b.metadata.prepare_eq hb.prompt_single hindices]
    exact bind_eq_ok.mpr ⟨_, rfl, bind_eq_ok.mpr ⟨_, htail, rfl⟩⟩

/-- The selected rows of the model output are the logits. -/
theorem Prepared.logits_eq {modelOutputIdx logitIdx : ℕ} {batch : List (BatchGroup ρ)}
    {groups : List SequenceGroupToSample} {selected : List ℕ} {logits : List ρ}
    (h : Prepared modelOutputIdx logitIdx batch groups selected logits)
    (hwf : ∀ b ∈ batch, b.WellFormed) (front : List ρ) (hfront : front.length = modelOutputIdx) :
    selected.mapM (item (front ++ batch.flatMap (·.output))) = .ok logits := by
  induction h generalizing front with
  | nil => rfl
  | @cons modelOutputIdx logitIdx b batch indices selected groups row logits hindices hrow _ ih =>
    subst hfront
    have hb := hwf b List.mem_cons_self
    have hlength := hb.output_length
    have htail := ih (fun b' hb' => hwf b' (List.mem_cons_of_mem b hb')) (front ++ b.output)
      List.length_append
    rw [List.append_assoc] at htail
    have hpromptRow : ∀ i ∈ indices, b.output[i]? = some (row i) := by
      intro i hi
      have hlt := (hindices.lt hi).1
      exact hrow i (by omega)
    have hsampleRow : ∀ i ∈ List.range' b.metadata.promptLogprobLen b.metadata.sampleLen,
        b.output[i]? = some (row i) := by
      intro i hi
      obtain ⟨-, hlt⟩ := List.mem_range'_1.mp hi
      exact hrow i (by omega)
    have hprompt := mapM_item_eq front b.output (batch.flatMap (·.output)) hpromptRow
    have hsample := mapM_item_eq front b.output (batch.flatMap (·.output)) hsampleRow
    rw [List.map_add_range'] at hsample
    rw [List.flatMap_cons, List.mapM_append, List.mapM_append, hprompt, hsample, htail]
    rfl

/-- The loops of `get_logprobs` over a prepared batch whose rows follow `front` in the logits. -/
theorem Prepared.promptLogprobs_eq (rows : LogprobRows ρ V) {modelOutputIdx logitIdx : ℕ}
    {batch : List (BatchGroup ρ)} {groups : List SequenceGroupToSample} {selected : List ℕ}
    {logits : List ρ} (h : Prepared modelOutputIdx logitIdx batch groups selected logits)
    (hwf : ∀ b ∈ batch, b.WellFormed) (front : List ρ) (hfront : front.length = logitIdx) :
    ∃ queries items,
      (groups.zip (batch.map (·.result))).mapM (fun group => group.1.queries group.2)
        = .ok queries ∧
      (∀ query ∈ queries, query.1.length = query.2.length) ∧
      (queries.flatMap fun query => query.1.zip query.2).mapM
          (selectedItem rows (front ++ logits)) = .ok items ∧
      promptLogprobsPerSeqGroup rows (front ++ logits) (groups.zip (batch.map (·.result))) items
          front.length = .ok (batch.map (·.expectedPromptLogprobs rows)) := by
  induction h generalizing front with
  | nil => exact ⟨[], [], rfl, fun _ hq => absurd hq List.not_mem_nil, rfl, rfl⟩
  | @cons modelOutputIdx logitIdx b batch indices selected groups row logits hindices hrow _ ih =>
    subst hfront
    have hb := hwf b List.mem_cons_self
    obtain ⟨queries, items, hqueries, heven, hitems, hloop⟩ := ih
      (fun b' hb' => hwf b' (List.mem_cons_of_mem b hb')) (front ++ b.selectedRows row indices)
      (by rw [List.length_append, b.length_selectedRows])
    rw [List.append_assoc] at hitems hloop
    obtain ⟨hsampledEven, sampled, hsampled, hcount⟩ := hb.exists_sampled rows row indices front
      logits
    let g := b.metadata.toSample front.length indices
    let sampleQueries := g.sampleQueries b.result
    have hquery : g.queries b.result = .ok
        (List.range' front.length indices.length ++ sampleQueries.1,
          indices.map b.metadata.tokenAt ++ sampleQueries.2) :=
      bind_eq_ok.mpr ⟨_, hb.promptQueries_eq hindices, rfl⟩
    have hpromptEven : (List.range' front.length indices.length).length
        = (indices.map b.metadata.tokenAt).length := by
      rw [List.length_range', List.length_map]
    have hprompt := mapM_selectedItem_eq rows row b.metadata.tokenAt indices front
      ((List.range' b.metadata.promptLogprobLen b.metadata.sampleLen).map row ++ logits)
    rw [← List.append_assoc (indices.map row)] at hprompt
    refine ⟨(List.range' front.length indices.length ++ sampleQueries.1,
      indices.map b.metadata.tokenAt ++ sampleQueries.2) :: queries,
      indices.map (fun i => rows.logprobAndRank (row i) (b.metadata.tokenAt i))
        ++ (sampled ++ items), ?_, ?_, ?_, ?_⟩
    · rw [List.map_cons, List.zip_cons_cons, List.mapM_cons]
      exact bind_eq_ok.mpr ⟨_, hquery, bind_eq_ok.mpr ⟨_, hqueries, rfl⟩⟩
    · intro query hmem
      rcases List.mem_cons.mp hmem with rfl | hmem
      · rw [List.length_append, List.length_append, hpromptEven, hsampledEven]
      · exact heven query hmem
    · rw [List.flatMap_cons, List.zip_append hpromptEven, List.mapM_append, List.mapM_append]
      refine bind_eq_ok.mpr ⟨_, bind_eq_ok.mpr ⟨_, hprompt, bind_eq_ok.mpr ⟨_, hsampled, rfl⟩⟩,
        bind_eq_ok.mpr ⟨_, hitems, ?_⟩⟩
      rw [List.append_assoc]
      rfl
    · have hhead := hb.promptLogprobIfNeeded_eq rows hrow hindices front
        ((List.range' b.metadata.promptLogprobLen b.metadata.sampleLen).map row ++ logits)
        (sampled ++ items)
      rw [← List.append_assoc (indices.map row)] at hhead
      have hsamples : g.samples = b.metadata.doSample := hb.samples_eq
      have hnonempty : ¬ (g.samples = true ∧ b.result.1 = []) := by
        rintro ⟨htrue, hnil⟩
        exact (hb.sampled (hsamples.symm.trans htrue)).1 hnil
      have hdrop : (indices.map (fun i => rows.logprobAndRank (row i) (b.metadata.tokenAt i))
          ++ (sampled ++ items)).drop (indices.length + if g.samples then b.result.1.length else 0)
            = items := by
        rw [hsamples, ← hcount, ← List.append_assoc]
        exact List.drop_left' (by rw [List.length_append, List.length_map])
      have htop : front.length + indices.length + (if g.samples then g.seqIds.length else 0)
          = (front ++ b.selectedRows row indices).length := by
        rw [hsamples, List.length_append, b.length_selectedRows, hb.sampleLen_eq, Nat.add_assoc]
        rfl
      rw [List.map_cons, List.zip_cons_cons, promptLogprobsPerSeqGroup]
      refine bind_eq_ok.mpr ⟨_, hhead, ?_⟩
      refine (raiseIf_bind hnonempty).trans ?_
      dsimp only
      refine bind_eq_ok.mpr ⟨_, ?_, rfl⟩
      rw [hdrop, htop]
      exact hloop

/-- A step returns for every group of a batch what is expected of the group alone. -/
theorem stepPromptLogprobs_eq (rows : LogprobRows ρ V) {batch : List (BatchGroup ρ)}
    (hwf : ∀ b ∈ batch, b.WellFormed) :
    stepPromptLogprobs rows batch = .ok (batch.map (·.expectedPromptLogprobs rows)) := by
  obtain ⟨groups, selected, logits, hprepare, hprepared⟩ := exists_prepared hwf 0 0
  have hlogits := hprepared.logits_eq hwf [] rfl
  obtain ⟨queries, items, hqueries, heven, hitems, hloop⟩ :=
    hprepared.promptLogprobs_eq rows hwf [] rfl
  rw [List.nil_append] at hlogits hitems hloop
  refine bind_eq_ok.mpr ⟨_, hprepare, bind_eq_ok.mpr ⟨_, hlogits, ?_⟩⟩
  refine bind_eq_ok.mpr ⟨_, hqueries, ?_⟩
  refine (raiseIf_bind (not_not.mpr heven)).trans ?_
  exact bind_eq_ok.mpr ⟨_, hitems, hloop⟩

end Ikun.Sampling
