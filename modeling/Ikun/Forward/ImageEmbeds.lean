import Mathlib.Algebra.Ring.Nat
import Mathlib.Data.List.Basic
import Mathlib.Data.List.Count
import Mathlib.Data.Nat.Basic
import Ikun.Basic

/-!
# Image embeddings of a prefill step

`Qwen3_5ForCausalLM.forward` overwrites the embeddings of the image placeholders among the tokens of
a step by rows of the visual embedding. In every step it is given the visual embedding of the whole
prompt, and it takes the last rows, as many as the step has placeholders.

The comment in the source presumes that the placeholders of a step are the last ones of the prompt.
`receivesOwnRows_iff` says that this is what it takes: a step with placeholders that other
placeholders follow gets rows of later placeholders.
-/

namespace Ikun

/-- The parts of the model that embed tokens. -/
structure ImageModel (α : Type*) where
  imageTokenId : ℕ
  embedTokens : ℕ → α

namespace ImageModel

variable {α : Type*} (m : ImageModel α)

/-! ## The forward pass -/

/-- `inputs_embeds[image_mask, :] = image_embeds`. -/
def scatter : List ℕ → List α → List α
  | [], _ => []
  | t :: inputIds, imageEmbeds =>
    if t = m.imageTokenId then
      match imageEmbeds with
      | row :: imageEmbeds => row :: scatter inputIds imageEmbeds
      | [] => m.embedTokens t :: scatter inputIds []
    else m.embedTokens t :: scatter inputIds imageEmbeds

/-- `image_mask.sum()`. -/
def numPlaceholders (inputIds : List ℕ) : ℕ := inputIds.count m.imageTokenId

/-- The input embeddings in `forward`, for the visual embedding of the prompt. -/
def inputsEmbeds (inputIds : List ℕ) (imageEmbeds : List α) : Except Exn (List α) :=
  let numPlaceholders := m.numPlaceholders inputIds
  if numPlaceholders = 0 then .ok (inputIds.map m.embedTokens)
  else if numPlaceholders > imageEmbeds.length then
    .error (.valueError (s!"image token count ({numPlaceholders}) exceeds " ++
      s!"vision embeddings ({imageEmbeds.length})"))
  else .ok (m.scatter inputIds (imageEmbeds.drop (imageEmbeds.length - numPlaceholders)))

/-- The contexts and ends of consecutive chunks. -/
def steps : ℕ → List ℕ → List (ℕ × ℕ)
  | _, [] => []
  | context, chunk :: chunks => (context, context + chunk) :: steps (context + chunk) chunks

/-- The tokens of the physical query of a step. -/
def query (prompt : List ℕ) (step : ℕ × ℕ) : List ℕ := (prompt.drop step.1).take (step.2 - step.1)

/-! ## Placeholders and rows -/

theorem length_scatter (inputIds : List ℕ) (imageEmbeds : List α) :
    (m.scatter inputIds imageEmbeds).length = inputIds.length := by
  induction inputIds generalizing imageEmbeds with
  | nil => rfl
  | cons t inputIds ih =>
    unfold scatter
    split
    · cases imageEmbeds with
      | nil => simp [ih]
      | cons row imageEmbeds => simp [ih]
    · simp [ih]

/-- Placeholders receive the rows one after another. -/
theorem getElem?_scatter_placeholder {inputIds : List ℕ} {imageEmbeds : List α} {i : ℕ}
    (henough : m.numPlaceholders inputIds ≤ imageEmbeds.length)
    (hi : inputIds[i]? = some m.imageTokenId) :
    (m.scatter inputIds imageEmbeds)[i]? = imageEmbeds[m.numPlaceholders (inputIds.take i)]? := by
  induction inputIds generalizing imageEmbeds i with
  | nil => exact absurd hi (by simp)
  | cons t inputIds ih =>
    unfold numPlaceholders at henough ih ⊢
    unfold scatter
    split
    · next ht =>
      subst ht
      rw [List.count_cons_self] at henough
      cases imageEmbeds with
      | nil => exact absurd henough (Nat.not_succ_le_zero _)
      | cons row imageEmbeds =>
        cases i with
        | zero => rfl
        | succ i =>
          rw [List.take_succ_cons, List.count_cons_self, List.getElem?_cons_succ,
            List.getElem?_cons_succ]
          exact ih (Nat.le_of_succ_le_succ henough) hi
    · next ht =>
      rw [List.count_cons_of_ne ht] at henough
      cases i with
      | zero => exact absurd (Option.some.inj hi) ht
      | succ i =>
        rw [List.take_succ_cons, List.count_cons_of_ne ht, List.getElem?_cons_succ]
        exact ih henough hi

/-- Other tokens keep their own embedding. -/
theorem getElem?_scatter_text {inputIds : List ℕ} {imageEmbeds : List α} {i t : ℕ}
    (hi : inputIds[i]? = some t) (ht : t ≠ m.imageTokenId) :
    (m.scatter inputIds imageEmbeds)[i]? = some (m.embedTokens t) := by
  induction inputIds generalizing imageEmbeds i with
  | nil => exact absurd hi (by simp)
  | cons u inputIds ih =>
    unfold scatter
    split
    · next hu =>
      cases i with
      | zero => exact absurd ((Option.some.inj hi).symm.trans hu) ht
      | succ i =>
        cases imageEmbeds with
        | nil => exact ih hi
        | cons row imageEmbeds => exact ih hi
    · cases i with
      | zero =>
        obtain rfl := Option.some.inj hi
        rfl
      | succ i => exact ih hi

/-! ## Rows of their own -/

/-- In a step, the `k`-th placeholder of the prompt receives row `k` of the visual embedding, and
the other tokens their own embedding. -/
structure ReceivesOwnRows (prompt : List ℕ) (imageEmbeds : List α) (step : ℕ × ℕ)
    (embeds : List α) : Prop where
  length_eq : embeds.length = step.2 - step.1
  placeholder : ∀ i, step.1 + i < step.2 → prompt[step.1 + i]? = some m.imageTokenId →
    embeds[i]? = imageEmbeds[m.numPlaceholders (prompt.take (step.1 + i))]?
  text : ∀ i t, step.1 + i < step.2 → prompt[step.1 + i]? = some t → t ≠ m.imageTokenId →
    embeds[i]? = some (m.embedTokens t)

/-- A step without placeholders, or with the last placeholders of the prompt. -/
def HasLastPlaceholders (prompt : List ℕ) (step : ℕ × ℕ) : Prop :=
  m.numPlaceholders (query prompt step) = 0 ∨ m.numPlaceholders (prompt.drop step.2) = 0

instance (prompt : List ℕ) (step : ℕ × ℕ) : Decidable (m.HasLastPlaceholders prompt step) :=
  inferInstanceAs (Decidable (_ ∨ _))

section query

variable {prompt : List ℕ} {step : ℕ × ℕ}

theorem getElem?_query {i : ℕ} (hi : step.1 + i < step.2) :
    (query prompt step)[i]? = prompt[step.1 + i]? := by
  unfold query
  rw [List.getElem?_take_of_lt (by omega), List.getElem?_drop]

theorem take_query {i : ℕ} (hi : step.1 + i < step.2) :
    prompt.take (step.1 + i) = prompt.take step.1 ++ (query prompt step).take i := by
  unfold query
  rw [List.take_take, Nat.min_eq_left (by omega), List.take_add]

/-- The placeholders in front of a step, in it and behind it are all placeholders. -/
theorem numPlaceholders_split (prompt : List ℕ) (hle : step.1 ≤ step.2) :
    m.numPlaceholders (prompt.take step.1) + m.numPlaceholders (query prompt step)
      + m.numPlaceholders (prompt.drop step.2) = m.numPlaceholders prompt := by
  have hend : step.2 = step.1 + (step.2 - step.1) := (Nat.add_sub_cancel' hle).symm
  have hbehind : prompt.drop step.2 = (prompt.drop step.1).drop (step.2 - step.1) := by
    rw [List.drop_drop, ← hend]
  unfold numPlaceholders query
  rw [hbehind, Nat.add_assoc, ← List.count_append, List.take_append_drop, ← List.count_append,
    List.take_append_drop]

theorem query_length {prompt : List ℕ} (hfit : step.2 ≤ prompt.length) :
    (query prompt step).length = step.2 - step.1 := by
  unfold query
  rw [List.length_take, List.length_drop]
  exact Nat.min_eq_left (Nat.sub_le_sub_right hfit _)

/-- The placeholders in front of a token of a step. -/
theorem numPlaceholders_take {i : ℕ} (hi : step.1 + i < step.2) :
    m.numPlaceholders (prompt.take (step.1 + i))
      = m.numPlaceholders (prompt.take step.1) + m.numPlaceholders ((query prompt step).take i) := by
  unfold numPlaceholders
  rw [take_query hi, List.count_append]

end query

section step

variable {prompt : List ℕ} {step : ℕ × ℕ} {imageEmbeds : List α}

/-- Without placeholders, every token keeps its own embedding. -/
theorem receivesOwnRows_of_text (hfit : step.2 ≤ prompt.length)
    (hnone : m.numPlaceholders (query prompt step) = 0) :
    m.ReceivesOwnRows prompt imageEmbeds step ((query prompt step).map m.embedTokens) where
  length_eq := by rw [List.length_map, query_length hfit]
  placeholder i hi himage := by
    rw [← getElem?_query hi] at himage
    exact absurd (List.mem_of_getElem? himage) (List.count_eq_zero.mp hnone)
  text i t hi htext _ := by rw [List.getElem?_map, getElem?_query hi, htext, Option.map_some]

/-- The rows from `first` on are right when as many placeholders are in front of the step. -/
theorem receivesOwnRows_scatter (hfit : step.2 ≤ prompt.length)
    (henough : m.numPlaceholders (prompt.take step.1) + m.numPlaceholders (query prompt step)
      ≤ imageEmbeds.length) :
    m.ReceivesOwnRows prompt imageEmbeds step (m.scatter (query prompt step)
      (imageEmbeds.drop (m.numPlaceholders (prompt.take step.1)))) where
  length_eq := by rw [length_scatter, query_length hfit]
  placeholder i hi himage := by
    have hrows : m.numPlaceholders (query prompt step)
        ≤ (imageEmbeds.drop (m.numPlaceholders (prompt.take step.1))).length := by
      rw [List.length_drop]
      exact Nat.le_sub_of_add_le' henough
    rw [← getElem?_query hi] at himage
    rw [m.getElem?_scatter_placeholder hrows himage, List.getElem?_drop, m.numPlaceholders_take hi]
  text i t hi htext ht := by
    rw [← getElem?_query hi] at htext
    exact m.getElem?_scatter_text htext ht

/-- A step with placeholders uses the last rows. -/
theorem inputsEmbeds_eq (hle : step.1 ≤ step.2)
    (hrows : imageEmbeds.length = m.numPlaceholders prompt)
    (hsome : m.numPlaceholders (query prompt step) ≠ 0) :
    m.inputsEmbeds (query prompt step) imageEmbeds
      = .ok (m.scatter (query prompt step)
        (imageEmbeds.drop (m.numPlaceholders (prompt.take step.1)
          + m.numPlaceholders (prompt.drop step.2)))) := by
  have hsplit := m.numPlaceholders_split prompt hle
  have hfirst : imageEmbeds.length - m.numPlaceholders (query prompt step)
      = m.numPlaceholders (prompt.take step.1) + m.numPlaceholders (prompt.drop step.2) := by omega
  unfold inputsEmbeds
  rw [if_neg hsome, if_neg (by omega), hfirst]

/-- The first placeholder of a step. -/
theorem exists_first_placeholder (hfit : step.2 ≤ prompt.length)
    (hsome : m.numPlaceholders (query prompt step) ≠ 0) :
    ∃ i, step.1 + i < step.2 ∧ (query prompt step)[i]? = some m.imageTokenId ∧
      m.numPlaceholders ((query prompt step).take i) = 0 := by
  have hmem : m.imageTokenId ∈ query prompt step :=
    List.count_pos_iff.mp (Nat.pos_of_ne_zero hsome)
  obtain ⟨front, rest, heq, hfront⟩ := List.eq_append_cons_of_mem hmem
  refine ⟨front.length, ?_, ?_, ?_⟩
  · have hlength := query_length hfit
    rw [heq, List.length_append, List.length_cons] at hlength
    omega
  · rw [heq, List.getElem?_append_right (Nat.le_refl _), Nat.sub_self]
    rfl
  · rw [heq, List.take_left]
    exact List.count_eq_zero.mpr hfront

/-- A step is right for all visual embeddings exactly when its placeholders are the last ones. -/
theorem step_receivesOwnRows_iff [Nontrivial α] (hle : step.1 ≤ step.2)
    (hfit : step.2 ≤ prompt.length) :
    (∀ imageEmbeds : List α, imageEmbeds.length = m.numPlaceholders prompt →
      ∃ embeds, m.inputsEmbeds (query prompt step) imageEmbeds = .ok embeds ∧
        m.ReceivesOwnRows prompt imageEmbeds step embeds)
      ↔ m.HasLastPlaceholders prompt step := by
  have hsplit := m.numPlaceholders_split prompt hle
  constructor
  · intro h
    refine Decidable.byContradiction fun hnot => ?_
    obtain ⟨hsome, hbehind⟩ := not_or.mp hnot
    obtain ⟨i, hi, himage, hfirst⟩ := m.exists_first_placeholder hfit hsome
    -- the row of the first placeholder differs from all other rows
    obtain ⟨own, other, hne⟩ := exists_pair_ne α
    let row : ℕ → α := fun k => if k = m.numPlaceholders (prompt.take step.1) then own else other
    let imageEmbeds := (List.range (m.numPlaceholders prompt)).map row
    have hlength : imageEmbeds.length = m.numPlaceholders prompt := by simp [imageEmbeds]
    obtain ⟨embeds, hembeds, hown⟩ := h imageEmbeds hlength
    rw [m.inputsEmbeds_eq hle hlength hsome] at hembeds
    obtain rfl := Except.ok.inj hembeds
    have hrow := hown.placeholder i hi ((getElem?_query hi).symm.trans himage)
    rw [m.getElem?_scatter_placeholder (by rw [List.length_drop]; omega) himage, hfirst,
      List.getElem?_drop, m.numPlaceholders_take hi, hfirst] at hrow
    have hgot : imageEmbeds[m.numPlaceholders (prompt.take step.1)
        + m.numPlaceholders (prompt.drop step.2)]? = some other := by
      rw [List.getElem?_map, List.getElem?_range (by omega), Option.map_some]
      exact congrArg some (if_neg (by omega))
    have hwanted : imageEmbeds[m.numPlaceholders (prompt.take step.1)]? = some own := by
      rw [List.getElem?_map, List.getElem?_range (by omega), Option.map_some]
      exact congrArg some (if_pos rfl)
    rw [Nat.add_zero, Nat.add_zero, hgot, hwanted] at hrow
    exact hne (Option.some.inj hrow).symm
  · intro h imageEmbeds hlength
    by_cases hnone : m.numPlaceholders (query prompt step) = 0
    · exact ⟨_, if_pos hnone, m.receivesOwnRows_of_text hfit hnone⟩
    · have hbehind := h.resolve_left hnone
      refine ⟨_, m.inputsEmbeds_eq hle hlength hnone, ?_⟩
      rw [hbehind, Nat.add_zero]
      exact m.receivesOwnRows_scatter hfit (by omega)

end step

/-! ## Whole prompts -/

theorem steps_le {skipped : ℕ} {chunks : List ℕ} {step : ℕ × ℕ}
    (h : step ∈ steps skipped chunks) : step.1 ≤ step.2 ∧ step.2 ≤ skipped + chunks.sum := by
  induction chunks generalizing skipped with
  | nil => exact absurd h List.not_mem_nil
  | cons chunk chunks ih =>
    rw [List.sum_cons]
    rcases List.mem_cons.mp h with rfl | h
    · exact ⟨Nat.le_add_right _ _, by omega⟩
    · obtain ⟨hle, hfit⟩ := ih h
      exact ⟨hle, by omega⟩

/-- A prefill gives every placeholder its own row, for all visual embeddings, exactly when no
placeholder is behind a step with placeholders. -/
theorem receivesOwnRows_iff [Nontrivial α] (prompt : List ℕ) (skipped : ℕ) (chunks : List ℕ)
    (hfit : skipped + chunks.sum ≤ prompt.length) :
    (∀ imageEmbeds : List α, imageEmbeds.length = m.numPlaceholders prompt →
      ∀ step ∈ steps skipped chunks,
        ∃ embeds, m.inputsEmbeds (query prompt step) imageEmbeds = .ok embeds ∧
          m.ReceivesOwnRows prompt imageEmbeds step embeds)
      ↔ ∀ step ∈ steps skipped chunks, m.HasLastPlaceholders prompt step := by
  constructor
  · intro h step hstep
    obtain ⟨hle, hend⟩ := steps_le hstep
    have hiff := m.step_receivesOwnRows_iff (α := α) hle (Nat.le_trans hend hfit)
    refine hiff.mp fun imageEmbeds hlength => ?_
    exact h imageEmbeds hlength step hstep
  · intro h imageEmbeds hlength step hstep
    obtain ⟨hle, hend⟩ := steps_le hstep
    have hiff := m.step_receivesOwnRows_iff (α := α) hle (Nat.le_trans hend hfit)
    exact hiff.mpr (h step hstep) imageEmbeds hlength

/-- Token ids as embeddings, the id 9 as the placeholder. -/
def tokenModel : ImageModel ℕ where
  imageTokenId := 9
  embedTokens := id

/-- Two images prefilled in one step after a skipped prefix with a part of the first image. -/
theorem receivesOwnRows_suffix :
    2 + [4, 2].sum ≤ [1, 9, 9, 2, 9, 3, 4, 5].length ∧
      ∀ imageEmbeds : List ℕ, imageEmbeds.length = 3 →
        ∀ step ∈ steps 2 [4, 2],
          ∃ embeds, tokenModel.inputsEmbeds (query [1, 9, 9, 2, 9, 3, 4, 5] step) imageEmbeds
              = .ok embeds ∧
            tokenModel.ReceivesOwnRows [1, 9, 9, 2, 9, 3, 4, 5] imageEmbeds step embeds :=
  ⟨by decide, (tokenModel.receivesOwnRows_iff [1, 9, 9, 2, 9, 3, 4, 5] 2 [4, 2] (by decide)).mpr
    (by decide)⟩

/-- Two images in two steps: the first image gets the rows of the second one. -/
theorem firstImage_gets_lastRows :
    steps 0 [4, 4] = [(0, 4), (4, 8)] ∧
      tokenModel.inputsEmbeds (query [1, 9, 9, 2, 3, 9, 9, 4] (0, 4)) [10, 11, 20, 21]
        = .ok [1, 20, 21, 2] ∧
      ¬ ∃ embeds, tokenModel.inputsEmbeds (query [1, 9, 9, 2, 3, 9, 9, 4] (0, 4)) [10, 11, 20, 21]
          = .ok embeds ∧
        tokenModel.ReceivesOwnRows [1, 9, 9, 2, 3, 9, 9, 4] [10, 11, 20, 21] (0, 4) embeds := by
  refine ⟨rfl, rfl, ?_⟩
  rintro ⟨embeds, hembeds, hown⟩
  obtain rfl : embeds = [1, 20, 21, 2] := (Except.ok.inj hembeds).symm
  have hrow := hown.placeholder 1 (by decide) rfl
  exact absurd hrow (by decide)

end ImageModel

end Ikun
