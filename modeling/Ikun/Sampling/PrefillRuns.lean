import Ikun.Sampling.Batch

/-!
# Prompt logprobs of a prefilled prompt

A prompt is prefilled in chunks. Its first chunk may start from a restored prefix: then the model
runner trims the query to the tokens behind the prefix, while the sequence has no computed tokens
yet. The sampler counts the positions of a chunk from the computed tokens, so it shifts the entries
of such a chunk by the length of the prefix and returns too few of them.

`prefill_correct_iff` says that the prompt logprobs are those of the positions of the prompt, for
every cutting into chunks and every batch, exactly when no prefix is restored.
-/

namespace Ikun.Sampling

open Except

variable {ρ V : Type}

/-! ## The model runner -/

/-- The lengths of a sequence in a step: the tokens in front of its query, those up to the end of
its query and those of its query. -/
structure QueryLens where
  contextLen : ℕ
  seqLen : ℕ
  queryLen : ℕ

/-- `_compute_lens`, for a prefill. -/
def computeLens (numTokens numComputedTokens tokenChunkSize : ℕ) : QueryLens :=
  let seqLen := min numTokens (numComputedTokens + tokenChunkSize)
  { contextLen := numComputedTokens
    seqLen := seqLen
    queryLen := seqLen - numComputedTokens }

/-- `_compute_for_prefix_cache_hit`. -/
def computeForPrefixCacheHit (blockSize numComputedBlocks : ℕ) (d : QueryLens) : QueryLens :=
  if numComputedBlocks = 0 then d
  else
    let prefixCacheLen := numComputedBlocks * blockSize
    if prefixCacheLen ≤ d.contextLen then d
    else if d.contextLen < prefixCacheLen ∧ prefixCacheLen < d.seqLen then
      { d with contextLen := prefixCacheLen, queryLen := d.seqLen - prefixCacheLen }
    else { d with contextLen := d.seqLen - 1, queryLen := 1 }

/-! ## Prefilling a prompt -/

/-- A prompt with the logits of its positions. -/
structure Prompt (ρ : Type) where
  seqId : ℕ
  params : SamplingParams
  promptTokenIds : List ℕ
  row : ℕ → ρ

/-- A step that prefills a chunk of the prompt: the computed blocks that the scheduler sends, the
groups around that of the prompt and what is sampled for it. -/
structure PrefillStep (ρ : Type) where
  tokenChunkSize : ℕ
  numComputedBlocks : ℕ
  before : List (BatchGroup ρ)
  after : List (BatchGroup ρ)
  result : SampleResult

namespace Prompt

variable (rows : LogprobRows ρ V) (p : Prompt ρ) (blockSize : ℕ)

/-- The group of the prompt in a step. -/
def group (numComputedTokens : ℕ) (step : PrefillStep ρ) : BatchGroup ρ :=
  let lens := computeForPrefixCacheHit blockSize step.numComputedBlocks
    (computeLens p.promptTokenIds.length numComputedTokens step.tokenChunkSize)
  { metadata := {
      seqIds := [p.seqId]
      params := p.params
      promptTokenIds := p.promptTokenIds
      numComputedTokens := numComputedTokens
      isPrompt := true
      doSample := ¬ step.tokenChunkSize + numComputedTokens < p.promptTokenIds.length
      queryLen := lens.queryLen }
    output := (List.range' lens.contextLen lens.queryLen).map p.row
    result := step.result }

/-- `single_step_process_prompt_logprob`. -/
def processPromptLogprob {β : Type} (accumulated output : Option (List (Option β))) :
    Option (List (Option β)) :=
  match output with
  | none => accumulated
  | some promptLogprobs =>
    match accumulated with
    | none | some [] => some (none :: promptLogprobs)
    | some (first :: rest) => some (first :: rest ++ promptLogprobs)

/-- The prompt logprobs after some steps. -/
def prefill : ℕ → Option (List (Option (Dict ℕ (V × ℕ)))) → List (PrefillStep ρ) →
    Except Exn (Option (List (Option (Dict ℕ (V × ℕ)))))
  | _, accumulated, [] => return accumulated
  | numComputedTokens, accumulated, step :: steps => do
    let outputs ← stepPromptLogprobs rows
      (step.before ++ p.group blockSize numComputedTokens step :: step.after)
    let output ← item outputs step.before.length
    prefill (numComputedTokens + step.tokenChunkSize) (processPromptLogprob accumulated output)
      steps

/-! ## Runs -/

/-- A step after some computed tokens, with a query behind a prefix. -/
structure StepFits (numComputedTokens : ℕ) (step : PrefillStep ρ) : Prop where
  chunk_pos : 0 < step.tokenChunkSize
  chunk_le : numComputedTokens + step.tokenChunkSize ≤ p.promptTokenIds.length
  before_wf : ∀ b ∈ step.before, b.WellFormed
  after_wf : ∀ b ∈ step.after, b.WellFormed
  sampled : numComputedTokens + step.tokenChunkSize = p.promptTokenIds.length →
    step.result.1 ≠ [] ∧ step.result.1.length = step.result.2.length ∧
      ∀ parent ∈ step.result.2, parent = 0

/-- The steps after the first one: the scheduler sends no more computed blocks than the sequence
has computed. -/
def Continues : ℕ → List (PrefillStep ρ) → Prop
  | numComputedTokens, [] => numComputedTokens = p.promptTokenIds.length
  | numComputedTokens, step :: steps =>
    p.StepFits numComputedTokens step ∧
      step.numComputedBlocks * blockSize ≤ numComputedTokens ∧
      Continues (numComputedTokens + step.tokenChunkSize) steps

/-- The steps of a prefill without preemption that starts from some restored blocks. -/
def Prefills (restoredBlocks : ℕ) : List (PrefillStep ρ) → Prop
  | [] => False
  | step :: steps =>
    p.StepFits 0 step ∧ step.numComputedBlocks = restoredBlocks ∧
      restoredBlocks * blockSize < step.tokenChunkSize ∧
      p.Continues blockSize step.tokenChunkSize steps

/-- The entry of a position: of its token, from the logits of the position in front of it. -/
def positionEntry (numLogprobs position : ℕ) : Option (Dict ℕ (V × ℕ)) :=
  if p.params.Requested position then
    (p.promptTokenIds[position]?).map (entry rows numLogprobs (p.row (position - 1)))
  else none

/-- The entries are those of the positions of the prompt, as far as their logits are computed. -/
structure OwnPositions (restoredBlocks numLogprobs : ℕ)
    (promptLogprobs : List (Option (Dict ℕ (V × ℕ)))) : Prop where
  length_eq : promptLogprobs.length = p.promptTokenIds.length
  getElem_eq : ∀ position < p.promptTokenIds.length, promptLogprobs[position]? = some
    (if restoredBlocks * blockSize < position then p.positionEntry rows numLogprobs position
      else none)

/-! ## One step -/

variable {rows p blockSize}

/-- The query of a step starts behind the computed tokens and the restored prefix. -/
theorem query_eq {numTokens computed chunk numBlocks : ℕ} (hle : computed + chunk ≤ numTokens)
    (hpre : numBlocks * blockSize < computed + chunk) :
    computeForPrefixCacheHit blockSize numBlocks (computeLens numTokens computed chunk)
      = { contextLen := max computed (numBlocks * blockSize)
          seqLen := computed + chunk
          queryLen := computed + chunk - max computed (numBlocks * blockSize) } := by
  have hseq : min numTokens (computed + chunk) = computed + chunk := Nat.min_eq_right hle
  unfold computeForPrefixCacheHit computeLens
  simp only [hseq]
  rcases Nat.le_total (numBlocks * blockSize) computed with hshort | hlong
  · rw [Nat.max_eq_left hshort, if_pos hshort, ite_self]
  · rw [Nat.max_eq_right hlong]
    split
    · next hzero =>
      subst hzero
      rw [Nat.zero_mul] at hlong ⊢
      obtain rfl := Nat.le_zero.mp hlong
      rfl
    · split
      · next hle' =>
        obtain rfl : numBlocks * blockSize = computed := Nat.le_antisymm hle' hlong
        rfl
      · next hgt => rw [if_pos ⟨Nat.lt_of_not_le hgt, hpre⟩]

section step

variable {computed : ℕ} {step : PrefillStep ρ}

/-- The group of the prompt. -/
theorem group_eq (hfits : p.StepFits computed step)
    (hpre : step.numComputedBlocks * blockSize < computed + step.tokenChunkSize) :
    p.group blockSize computed step =
      { metadata := {
          seqIds := [p.seqId]
          params := p.params
          promptTokenIds := p.promptTokenIds
          numComputedTokens := computed
          isPrompt := true
          doSample := decide (computed + step.tokenChunkSize = p.promptTokenIds.length)
          queryLen := computed + step.tokenChunkSize
            - max computed (step.numComputedBlocks * blockSize) }
        output := (List.range' (max computed (step.numComputedBlocks * blockSize))
          (computed + step.tokenChunkSize
            - max computed (step.numComputedBlocks * blockSize))).map p.row
        result := step.result } := by
  have hle := hfits.chunk_le
  have hsample : decide (¬ step.tokenChunkSize + computed < p.promptTokenIds.length)
      = decide (computed + step.tokenChunkSize = p.promptTokenIds.length) := by
    refine decide_eq_decide.mpr ?_
    omega
  unfold group
  rw [query_eq hle hpre, hsample]

/-- The number of entries of a chunk. -/
theorem group_chunkLen (hfits : p.StepFits computed step)
    (hpre : step.numComputedBlocks * blockSize < computed + step.tokenChunkSize) :
    (p.group blockSize computed step).metadata.chunkLen
      = min (computed + step.tokenChunkSize) (p.promptTokenIds.length - 1)
          - max computed (step.numComputedBlocks * blockSize) := by
  have hle := hfits.chunk_le
  have hpos := hfits.chunk_pos
  rw [group_eq hfits hpre]
  unfold SequenceGroupMetadata.chunkLen SequenceGroupMetadata.promptLogprobLen
    SequenceGroupMetadata.availableNextTokens
  simp only [if_true, decide_eq_true_eq]
  split <;> omega

theorem group_wellFormed (haccepted : p.params.Accepted) (hfits : p.StepFits computed step)
    (hpre : step.numComputedBlocks * blockSize < computed + step.tokenChunkSize) :
    (p.group blockSize computed step).WellFormed := by
  have hpos := hfits.chunk_pos
  rw [group_eq hfits hpre]
  refine ⟨haccepted, List.cons_ne_nil _ _, fun _ => rfl, (fun h => nomatch h), ?_, ?_, ?_⟩
  · dsimp only
    omega
  · unfold SequenceGroupMetadata.promptLogprobLen SequenceGroupMetadata.sampleLen
    simp only [List.length_map, List.length_range', if_true]
    split <;> omega
  · intro hsample
    obtain ⟨hne, hlength, hparent⟩ := hfits.sampled (of_decide_eq_true hsample)
    refine ⟨hne, hlength, fun parent hmem => ?_⟩
    rw [hparent parent hmem]
    unfold SequenceGroupMetadata.sampleLen
    rw [if_pos hsample]
    exact Nat.one_pos

/-- The entries of a chunk. -/
theorem group_expected (rows : LogprobRows ρ V) (hfits : p.StepFits computed step)
    (hpre : step.numComputedBlocks * blockSize < computed + step.tokenChunkSize)
    {numLogprobs : ℕ} (hparams : p.params.promptLogprobs = some numLogprobs) :
    ∃ promptLogprobs, (p.group blockSize computed step).expectedPromptLogprobs rows
        = some promptLogprobs ∧
      promptLogprobs.length = min (computed + step.tokenChunkSize) (p.promptTokenIds.length - 1)
        - max computed (step.numComputedBlocks * blockSize) ∧
      (step.numComputedBlocks * blockSize ≤ computed → promptLogprobs
        = (List.range promptLogprobs.length).map fun i =>
            p.positionEntry rows numLogprobs (computed + i + 1)) := by
  have hlen := group_chunkLen hfits hpre
  let b := p.group blockSize computed step
  have hexpected : b.expectedPromptLogprobs rows = some ((List.range b.metadata.chunkLen).map
      fun i => if p.params.Requested (computed + i + 1) then b.entryAt rows numLogprobs i
        else none) := by
    have hsame : b.metadata.params.promptLogprobs = some numLogprobs := hparams
    unfold BatchGroup.expectedPromptLogprobs
    rw [hsame]
    rfl
  refine ⟨_, hexpected, ?_, fun hnormal => ?_⟩
  · rw [List.length_map, List.length_range, hlen]
  · rw [List.length_map, List.length_range]
    refine List.map_congr_left fun i hi => ?_
    have hi' : i < computed + step.tokenChunkSize - computed := by
      have hlt := List.mem_range.mp hi
      rw [hlen] at hlt
      omega
    have hrow : b.output[i]? = some (p.row (computed + i)) := by
      show (p.group blockSize computed step).output[i]? = _
      rw [group_eq hfits hpre]
      simp only [Nat.max_eq_left hnormal]
      rw [List.getElem?_map, List.getElem?_range' hi', Nat.one_mul]
      rfl
    unfold positionEntry BatchGroup.entryAt
    rw [hrow, Option.map_eq_bind]
    rfl

/-- A step returns the entries of its chunk, whatever the other groups of the batch are. -/
theorem step_returns (rows : LogprobRows ρ V) (haccepted : p.params.Accepted) (hfits : p.StepFits computed step)
    (hpre : step.numComputedBlocks * blockSize < computed + step.tokenChunkSize) :
    ∃ outputs, stepPromptLogprobs rows
        (step.before ++ p.group blockSize computed step :: step.after) = .ok outputs ∧
      item outputs step.before.length
        = .ok ((p.group blockSize computed step).expectedPromptLogprobs rows) := by
  have hwf : ∀ b ∈ step.before ++ p.group blockSize computed step :: step.after,
      b.WellFormed := by
    intro b hb
    rcases List.mem_append.mp hb with hb | hb
    · exact hfits.before_wf b hb
    · rcases List.mem_cons.mp hb with rfl | hb
      · exact group_wellFormed haccepted hfits hpre
      · exact hfits.after_wf b hb
  refine ⟨_, stepPromptLogprobs_eq rows hwf, item_eq ?_⟩
  rw [List.getElem?_map, List.getElem?_append_right (Nat.le_refl _), Nat.sub_self]
  rfl

end step

/-! ## A whole prefill -/

/-- The entries of a chunk and those behind it. -/
theorem entries_append {β : Type} (f : ℕ → β) (computed chunk last : ℕ) :
    (List.range (min (computed + chunk) last - computed)).map (fun i => f (computed + i + 1))
        ++ (List.range (last - (computed + chunk))).map (fun i => f (computed + chunk + i + 1))
      = (List.range (last - computed)).map fun i => f (computed + i + 1) := by
  have hsplit : last - computed = (min (computed + chunk) last - computed)
      + (last - (computed + chunk)) := by omega
  rw [hsplit, List.range_add, List.map_append, List.map_map]
  refine congrArg _ (List.map_congr_left fun i hi => ?_)
  have hlt := List.mem_range.mp hi
  have hchunk : min (computed + chunk) last - computed = chunk := by omega
  rw [Function.comp_apply, hchunk, ← Nat.add_assoc computed]

/-- The later steps append the entries of the positions behind the computed tokens. -/
theorem Continues.prefill_eq (haccepted : p.params.Accepted) {numLogprobs : ℕ}
    (hparams : p.params.promptLogprobs = some numLogprobs) {steps : List (PrefillStep ρ)}
    {computed : ℕ} (h : p.Continues blockSize computed steps)
    (first : Option (Dict ℕ (V × ℕ))) (rest : List (Option (Dict ℕ (V × ℕ)))) :
    p.prefill rows blockSize computed (some (first :: rest)) steps
      = .ok (some (first :: rest ++ (List.range (p.promptTokenIds.length - 1 - computed)).map
          fun i => p.positionEntry rows numLogprobs (computed + i + 1))) := by
  induction steps generalizing computed rest with
  | nil =>
    have hend : computed = p.promptTokenIds.length := h
    have hzero : p.promptTokenIds.length - 1 - computed = 0 := by omega
    rw [hzero, List.range_zero, List.map_nil, List.append_nil]
    rfl
  | cons step steps ih =>
    obtain ⟨hfits, hblocks, hcontinues⟩ := h
    have hpos := hfits.chunk_pos
    have hle := hfits.chunk_le
    have hpre : step.numComputedBlocks * blockSize < computed + step.tokenChunkSize := by omega
    obtain ⟨outputs, houtputs, hitem⟩ := step_returns rows haccepted hfits hpre
    obtain ⟨promptLogprobs, hexpected, hlength, hentries⟩ := group_expected rows hfits
      hpre hparams
    have hcount : promptLogprobs.length
        = min (computed + step.tokenChunkSize) (p.promptTokenIds.length - 1) - computed := by
      rw [hlength, Nat.max_eq_left hblocks]
    rw [hexpected] at hitem
    have hnext := ih hcontinues (rest ++ promptLogprobs)
    rw [prefill]
    refine bind_eq_ok.mpr ⟨_, houtputs, bind_eq_ok.mpr ⟨_, hitem, ?_⟩⟩
    refine hnext.trans ?_
    have happ := entries_append (p.positionEntry rows numLogprobs) computed step.tokenChunkSize
      (p.promptTokenIds.length - 1)
    rw [← hcount, ← hentries hblocks] at happ
    rw [← happ, ← List.append_assoc]
    rfl

/-- A prefill from some restored blocks: the entries of the first chunk, then those of the positions
behind it. -/
theorem Prefills.prefill_eq (rows : LogprobRows ρ V) (haccepted : p.params.Accepted) {numLogprobs : ℕ}
    (hparams : p.params.promptLogprobs = some numLogprobs) {restoredBlocks : ℕ}
    {step : PrefillStep ρ} {steps : List (PrefillStep ρ)}
    (h : p.Prefills blockSize restoredBlocks (step :: steps)) :
    ∃ promptLogprobs : List (Option (Dict ℕ (V × ℕ))),
      p.prefill rows blockSize 0 none (step :: steps)
        = .ok (some (none :: promptLogprobs
          ++ (List.range (p.promptTokenIds.length - 1 - step.tokenChunkSize)).map
            fun i => p.positionEntry rows numLogprobs (step.tokenChunkSize + i + 1))) ∧
      promptLogprobs.length = min step.tokenChunkSize (p.promptTokenIds.length - 1)
        - restoredBlocks * blockSize ∧
      (restoredBlocks * blockSize = 0 → promptLogprobs = (List.range promptLogprobs.length).map
        fun i => p.positionEntry rows numLogprobs (i + 1)) := by
  obtain ⟨hfits, rfl, hrestored, hcontinues⟩ := h
  have hpre : step.numComputedBlocks * blockSize < 0 + step.tokenChunkSize := by
    rwa [Nat.zero_add]
  obtain ⟨outputs, houtputs, hitem⟩ := step_returns rows haccepted hfits hpre
  obtain ⟨promptLogprobs, hexpected, hlength, hentries⟩ := group_expected rows hfits
    hpre hparams
  rw [Nat.zero_add, Nat.max_eq_right (Nat.zero_le _)] at hlength
  rw [hexpected] at hitem
  refine ⟨promptLogprobs, ?_, hlength, fun hzero => ?_⟩
  · rw [prefill]
    refine bind_eq_ok.mpr ⟨_, houtputs, bind_eq_ok.mpr ⟨_, hitem, ?_⟩⟩
    rw [Nat.zero_add]
    exact hcontinues.prefill_eq haccepted hparams none promptLogprobs
  · have heq := hentries (Nat.le_of_eq hzero)
    simpa only [Nat.zero_add] using heq

/-- There is at most one list with the entries of the positions. -/
theorem OwnPositions.unique {restoredBlocks numLogprobs : ℕ}
    {xs ys : List (Option (Dict ℕ (V × ℕ)))}
    (hxs : p.OwnPositions rows blockSize restoredBlocks numLogprobs xs)
    (hys : p.OwnPositions rows blockSize restoredBlocks numLogprobs ys) : xs = ys := by
  refine List.ext_getElem? fun position => ?_
  rcases Nat.lt_or_ge position p.promptTokenIds.length with hlt | hge
  · rw [hxs.getElem_eq position hlt, hys.getElem_eq position hlt]
  · rw [List.getElem?_eq_none (hxs.length_eq ▸ hge), List.getElem?_eq_none (hys.length_eq ▸ hge)]

/-- Without a restored prefix the entries are those of the positions. -/
theorem Prefills.own_of_cold (rows : LogprobRows ρ V) (haccepted : p.params.Accepted)
    {numLogprobs : ℕ} (hparams : p.params.promptLogprobs = some numLogprobs)
    {steps : List (PrefillStep ρ)} (h : p.Prefills blockSize 0 steps) :
    ∃ promptLogprobs, p.prefill rows blockSize 0 none steps = .ok (some promptLogprobs) ∧
      p.OwnPositions rows blockSize 0 numLogprobs promptLogprobs := by
  cases steps with
  | nil => exact absurd h id
  | cons step steps =>
    have hle : step.tokenChunkSize ≤ p.promptTokenIds.length := by
      have hfit := h.1.chunk_le
      rwa [Nat.zero_add] at hfit
    have hpos := h.1.chunk_pos
    obtain ⟨chunkEntries, hprefill, hlength, hentries⟩ := h.prefill_eq rows haccepted hparams
    rw [Nat.zero_mul] at hlength hentries
    rw [Nat.sub_zero] at hlength
    have hall := entries_append (p.positionEntry rows numLogprobs) 0 step.tokenChunkSize
      (p.promptTokenIds.length - 1)
    simp only [Nat.zero_add, Nat.sub_zero] at hall
    rw [← hlength, ← hentries rfl] at hall
    refine ⟨_, hprefill, ?_, ?_⟩
    · rw [List.cons_append, hall, List.length_cons, List.length_map, List.length_range]
      omega
    · intro position hposition
      rw [List.cons_append, hall, Nat.zero_mul]
      cases position with
      | zero => rfl
      | succ position =>
        rw [if_pos (Nat.succ_pos position), List.getElem?_cons_succ, List.getElem?_map,
          List.getElem?_range (by omega)]
        rfl

/-- With a restored prefix there are too few entries. -/
theorem Prefills.zero_of_own (rows : LogprobRows ρ V) (haccepted : p.params.Accepted)
    {numLogprobs : ℕ} (hparams : p.params.promptLogprobs = some numLogprobs) (hbs : 0 < blockSize)
    {restoredBlocks : ℕ} {steps : List (PrefillStep ρ)}
    (h : p.Prefills blockSize restoredBlocks steps)
    {promptLogprobs : List (Option (Dict ℕ (V × ℕ)))}
    (hok : p.prefill rows blockSize 0 none steps = .ok (some promptLogprobs))
    (hlen : promptLogprobs.length = p.promptTokenIds.length) : restoredBlocks = 0 := by
  cases steps with
  | nil => exact absurd h id
  | cons step steps =>
    have hle : step.tokenChunkSize ≤ p.promptTokenIds.length := by
      have hfit := h.1.chunk_le
      rwa [Nat.zero_add] at hfit
    have hpos := h.1.chunk_pos
    have hrestored := h.2.2.1
    obtain ⟨chunkEntries, hprefill, hlength, -⟩ := h.prefill_eq rows haccepted hparams
    obtain rfl := Option.some.inj (Except.ok.inj (hprefill.symm.trans hok))
    rw [List.length_append, List.length_cons, List.length_map, List.length_range, hlength] at hlen
    have hzero : restoredBlocks * blockSize = 0 := by omega
    exact (Nat.mul_eq_zero.mp hzero).resolve_right (Nat.ne_of_gt hbs)

/-- Every cutting of the prompt and every batch give the entries of the positions exactly when no
prefix is restored. -/
theorem prefill_correct_iff (rows : LogprobRows ρ V) (haccepted : p.params.Accepted)
    {numLogprobs : ℕ} (hparams : p.params.promptLogprobs = some numLogprobs) (hbs : 0 < blockSize)
    {restoredBlocks : ℕ} {steps : List (PrefillStep ρ)}
    (h : p.Prefills blockSize restoredBlocks steps) :
    (∃ promptLogprobs, p.OwnPositions rows blockSize restoredBlocks numLogprobs promptLogprobs ∧
      ∀ steps', p.Prefills blockSize restoredBlocks steps' →
        p.prefill rows blockSize 0 none steps' = .ok (some promptLogprobs))
      ↔ restoredBlocks = 0 := by
  constructor
  · intro ⟨promptLogprobs, hown, hall⟩
    exact h.zero_of_own rows haccepted hparams hbs (hall steps h) hown.length_eq
  · intro hzero
    subst hzero
    obtain ⟨promptLogprobs, -, hown⟩ := h.own_of_cold rows haccepted hparams
    refine ⟨promptLogprobs, hown, fun steps' h' => ?_⟩
    obtain ⟨other, hok, hother⟩ := h'.own_of_cold rows haccepted hparams
    rw [hok, hother.unique hown]

/-! A prompt of six tokens, its rows numbered by their positions. -/

/-- A row tells its own number. -/
def numberedRows : LogprobRows ℕ ℕ :=
  { logprobAndRank := fun row token => (row, token)
    ranking := fun row => [(0, row)] }

/-- All entries are requested. -/
def sixTokens : Prompt ℕ :=
  { seqId := 0
    params := { promptLogprobs := some 1, promptLogprobPositions := none }
    promptTokenIds := [10, 11, 12, 13, 14, 15]
    row := id }

/-- A step with the group of the prompt alone, which samples a token. -/
def soloStep (tokenChunkSize numComputedBlocks : ℕ) : PrefillStep ℕ :=
  { tokenChunkSize := tokenChunkSize
    numComputedBlocks := numComputedBlocks
    before := []
    after := []
    result := ([7], [0]) }

theorem sixTokens_accepted : sixTokens.params.Accepted := fun _ hpositions => nomatch hpositions

theorem sixTokens_stepFits {computed chunk : ℕ} (numComputedBlocks : ℕ) (hpos : 0 < chunk)
    (hle : computed + chunk ≤ 6) :
    sixTokens.StepFits computed (soloStep chunk numComputedBlocks) where
  chunk_pos := hpos
  chunk_le := hle
  before_wf := fun _ hb => nomatch hb
  after_wf := fun _ hb => nomatch hb
  sampled := fun _ => ⟨List.cons_ne_nil _ _, rfl, fun _ hmem => List.mem_singleton.mp hmem⟩

theorem sixTokens_prefills : sixTokens.Prefills 2 0 [soloStep 3 0, soloStep 3 1] :=
  ⟨sixTokens_stepFits 0 (by decide) (by decide), rfl, by decide,
    sixTokens_stepFits 1 (by decide) (by decide), by decide, rfl⟩

theorem prefill_correct_twoChunks :
    ∃ promptLogprobs, sixTokens.OwnPositions numberedRows 2 0 1 promptLogprobs ∧
      ∀ steps', sixTokens.Prefills 2 0 steps' →
        sixTokens.prefill numberedRows 2 0 none steps' = .ok (some promptLogprobs) :=
  (prefill_correct_iff numberedRows sixTokens_accepted rfl (by decide) sixTokens_prefills).mpr rfl

/-- With a restored block of two tokens two entries are missing, and that of position 1 has the row
of position 2. -/
theorem restoredBlock_shifts :
    sixTokens.Prefills 2 1 [soloStep 6 1] ∧
      (∃ promptLogprobs,
        sixTokens.prefill numberedRows 2 0 none [soloStep 6 1] = .ok (some promptLogprobs) ∧
        promptLogprobs.length = 4 ∧
        promptLogprobs[1]? = some (some (entry numberedRows 1 2 11))) ∧
      ¬ ∃ promptLogprobs,
        sixTokens.prefill numberedRows 2 0 none [soloStep 6 1] = .ok (some promptLogprobs) ∧
        sixTokens.OwnPositions numberedRows 2 1 1 promptLogprobs := by
  refine ⟨⟨sixTokens_stepFits 1 (by decide) (by decide), rfl, by decide, rfl⟩,
    ⟨_, rfl, rfl, rfl⟩, ?_⟩
  intro ⟨promptLogprobs, hok, hown⟩
  cases hok
  exact absurd hown.length_eq (by decide)

end Prompt

end Ikun.Sampling
