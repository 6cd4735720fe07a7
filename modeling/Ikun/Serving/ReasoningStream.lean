import Mathlib.Tactic.IntervalCases
import Ikun.Serving.Reasoning

/-!
# The streamed split and the split of the whole text

The tags are produced by their own token ids only: no other tokens spell a tag (`WellFormed`). Then
finding a tag in a text is finding its token, and what the parser returns is told in terms of
tokens.

`Consistent` says that all groupings of the tokens into deltas give the same reasoning and the same
content, and that these are those of the whole text, up to the whitespace that is stripped there.
`consistent_iff` lists the token sequences for which this holds. The streaming method leaves the
start tag in the reasoning when the tag shares a delta with other text, and leaves or drops further
tags depending on the grouping.
-/

namespace Ikun.Serving.ReasoningVocab

open PyStr

variable {v : ReasoningVocab}

/-! ## Tokens -/

/-- A tag token. -/
def IsTag (v : ReasoningVocab) (t : ℕ) : Prop := t = v.thinkStartTokenId ∨ t = v.thinkEndTokenId

instance (t : ℕ) : Decidable (v.IsTag t) := inferInstanceAs (Decidable (_ ∨ _))

/-- Tokens without a tag. -/
def TagFree (v : ReasoningVocab) (tokens : List ℕ) : Prop := ∀ t ∈ tokens, ¬ v.IsTag t

instance (tokens : List ℕ) : Decidable (v.TagFree tokens) :=
  inferInstanceAs (Decidable (∀ t ∈ tokens, ¬ v.IsTag t))

/-- Tokens other than the tags never spell a tag. -/
def WellFormed (v : ReasoningVocab) (tokens : List ℕ) : Prop :=
  ∀ d, d <:+: tokens → v.TagFree d →
    ¬ thinkStartToken <:+: v.detokenize d ∧ ¬ thinkEndToken <:+: v.detokenize d

instance (tokens : List ℕ) : Decidable (v.WellFormed tokens) :=
  decidable_of_iff (∀ t ∈ tokens.tails, ∀ d ∈ t.inits, v.TagFree d →
    ¬ thinkStartToken <:+: v.detokenize d ∧ ¬ thinkEndToken <:+: v.detokenize d) <| by
    constructor
    · intro h d hd
      obtain ⟨t, hpre, hsuf⟩ := List.infix_iff_prefix_suffix.mp hd
      exact h t ((List.mem_tails _ _).mpr hsuf) d ((List.mem_inits _ _).mpr hpre)
    · intro h t ht d hd
      refine h d (List.infix_iff_prefix_suffix.mpr ⟨t, ?_, ?_⟩)
      · exact (List.mem_inits _ _).mp hd
      · exact (List.mem_tails _ _).mp ht

theorem ids_ne (v : ReasoningVocab) : v.thinkStartTokenId ≠ v.thinkEndTokenId := by
  intro h
  have htext := v.text_start
  rw [h, v.text_end] at htext
  exact absurd htext (by decide)

@[simp] theorem detokenize_nil : v.detokenize [] = [] := rfl

@[simp] theorem detokenize_append (a b : List ℕ) :
    v.detokenize (a ++ b) = v.detokenize a ++ v.detokenize b := List.flatMap_append

@[simp] theorem detokenize_cons (t : ℕ) (a : List ℕ) :
    v.detokenize (t :: a) = v.text t ++ v.detokenize a := List.flatMap_cons

theorem WellFormed.of_infix {d w : List ℕ} (h : v.WellFormed w) (hd : d <:+: w) :
    v.WellFormed d := fun d' hd' => h d' (hd'.trans hd)

theorem wellFormed_nil : v.WellFormed [] := fun d hd _ => by
  obtain rfl := List.infix_nil.mp hd
  exact ⟨of_decide_eq_true rfl, of_decide_eq_true rfl⟩

theorem TagFree.append {a b : List ℕ} (ha : v.TagFree a) (hb : v.TagFree b) :
    v.TagFree (a ++ b) := fun t ht => (List.mem_append.mp ht).elim (ha t) (hb t)

theorem tagFree_nil : v.TagFree [] := fun _ h => absurd h List.not_mem_nil

theorem tagFree_singleton {t : ℕ} (h : ¬ v.IsTag t) : v.TagFree [t] := fun _ ht =>
  List.mem_singleton.mp ht ▸ h

theorem TagFree.left {a b : List ℕ} (h : v.TagFree (a ++ b)) : v.TagFree a := fun t ht =>
  h t (List.mem_append_left b ht)

theorem TagFree.right {a b : List ℕ} (h : v.TagFree (a ++ b)) : v.TagFree b := fun t ht =>
  h t (List.mem_append_right a ht)

theorem TagFree.start_not_mem {a : List ℕ} (h : v.TagFree a) : v.thinkStartTokenId ∉ a :=
  fun hmem => h _ hmem (.inl rfl)

theorem TagFree.end_not_mem {a : List ℕ} (h : v.TagFree a) : v.thinkEndTokenId ∉ a :=
  fun hmem => h _ hmem (.inr rfl)

/-- No start tag stands around an end tag. -/
theorem start_not_mem_end {a b : List ℕ} (ha : v.TagFree a) (hb : v.thinkStartTokenId ∉ b) :
    v.thinkStartTokenId ∉ a ++ v.thinkEndTokenId :: b := by
  intro hmem
  cases List.mem_append.mp hmem with
  | inl hfront => exact ha.start_not_mem hfront
  | inr hrest => exact (List.mem_cons.mp hrest).elim v.ids_ne hb

/-! ## Finding a tag -/

/-- The tag `tag` with the other tag `other`: the text of `tag` does not overlap with that of
`other`. -/
structure TagPair (v : ReasoningVocab) (tag other : ℕ) (body : List Char) : Prop where
  text_eq : v.text tag = '<' :: body
  not_mem : '<' ∉ body
  other_eq : ∃ otherBody, v.text other = '<' :: otherBody
  apart : ∀ rest, ∀ i < (v.text other).length,
    ¬ '<' :: body <+: (v.text other ++ rest).drop i
  isTag : ∀ t, v.IsTag t → t = tag ∨ t = other
  spelled : ∀ w, v.WellFormed w → v.TagFree w → ¬ '<' :: body <:+: v.detokenize w

theorem startPair (v : ReasoningVocab) :
    TagPair v v.thinkStartTokenId v.thinkEndTokenId ['t', 'h', 'i', 'n', 'k', '>'] where
  text_eq := v.text_start
  not_mem := by decide
  other_eq := ⟨_, v.text_end⟩
  apart rest i hi := by
    rw [v.text_end] at hi ⊢
    have hi' : i < 8 := hi
    interval_cases i <;> simp [thinkEndToken]
  isTag _ h := h
  spelled w hw hfree := (hw w (List.infix_refl w) hfree).1

theorem endPair (v : ReasoningVocab) :
    TagPair v v.thinkEndTokenId v.thinkStartTokenId ['/', 't', 'h', 'i', 'n', 'k', '>'] where
  text_eq := v.text_end
  not_mem := by decide
  other_eq := ⟨_, v.text_start⟩
  apart rest i hi := by
    rw [v.text_start] at hi ⊢
    have hi' : i < 7 := hi
    interval_cases i <;> simp [thinkStartToken]
  isTag _ h := h.symm
  spelled w hw hfree := (hw w (List.infix_refl w) hfree).2

section finding

variable {tag other : ℕ} {body : List Char}

/-- Another tag in front of the rest. -/
theorem TagPair.find?_other (h : TagPair v tag other body) {r : List ℕ} (hr : v.WellFormed r)
    (hfree : v.TagFree r) (rest : List Char) :
    find? ('<' :: body) (v.detokenize r ++ (v.text other ++ rest))
      = (find? ('<' :: body) rest).map (· + (v.detokenize (r ++ [other])).length) := by
  obtain ⟨otherBody, hother⟩ := h.other_eq
  have hhead := find?_append_of_head h.not_mem (h.spelled r hr hfree) (otherBody ++ rest)
  have hskip := find?_append (h.apart rest)
  rw [hother, List.cons_append] at hskip ⊢
  rw [hhead, hskip, Option.map_map]
  congr 1
  funext i
  simp [hother]
  omega

/-- A tag that is not among the tokens is not found in their text. -/
theorem TagPair.find?_of_not_mem (h : TagPair v tag other body) (d : List ℕ) (hd : tag ∉ d) :
    ∀ r, v.WellFormed (r ++ d) → v.TagFree r →
      find? ('<' :: body) (v.detokenize r ++ v.detokenize d) = none := by
  induction d with
  | nil =>
    intro r hw hr
    rw [List.append_nil] at hw
    rw [detokenize_nil, List.append_nil, find?_eq_none_iff (List.cons_ne_nil _ _)]
    exact h.spelled r hw hr
  | cons t d ih =>
    intro r hw hr
    have hd' : tag ∉ d := fun hmem => hd (List.mem_cons_of_mem t hmem)
    by_cases ht : v.IsTag t
    · obtain rfl : t = other := (h.isTag t ht).resolve_left fun he => hd (he ▸ List.mem_cons_self)
      have hnone := ih hd' [] (hw.of_infix ⟨r ++ [t], [], by simp⟩) tagFree_nil
      rw [detokenize_nil, List.nil_append] at hnone
      rw [detokenize_cons, h.find?_other (hw.of_infix (List.infix_append' [] r _)) hr, hnone]
      rfl
    · have hnext := ih hd' (r ++ [t]) (by simpa using hw) (hr.append (tagFree_singleton ht))
      simpa using hnext

/-- The first token of a tag is where its text is found. -/
theorem TagPair.find?_of_mem (h : TagPair v tag other body) (before after : List ℕ)
    (hb : tag ∉ before) :
    ∀ r, v.WellFormed (r ++ before) → v.TagFree r →
      find? ('<' :: body) (v.detokenize r ++ v.detokenize (before ++ tag :: after))
        = some (v.detokenize (r ++ before)).length := by
  induction before with
  | nil =>
    intro r hw hr
    rw [List.append_nil] at hw
    have hself := find?_append_self h.not_mem (h.spelled r hw hr) (v.detokenize after)
    rw [List.nil_append, detokenize_cons, h.text_eq, List.append_nil, ← hself, List.append_assoc]
  | cons t before ih =>
    intro r hw hr
    have hb' : tag ∉ before := fun hmem => hb (List.mem_cons_of_mem t hmem)
    by_cases ht : v.IsTag t
    · obtain rfl : t = other := (h.isTag t ht).resolve_left fun he => hb (he ▸ List.mem_cons_self)
      have hnext := ih hb' [] (hw.of_infix ⟨r ++ [t], [], by simp⟩) tagFree_nil
      rw [detokenize_nil, List.nil_append, List.nil_append] at hnext
      have hr' := hw.of_infix (List.infix_append' [] r _)
      rw [List.cons_append, detokenize_cons, h.find?_other hr' hr, hnext, Option.map_some]
      simp only [detokenize_append, detokenize_cons, detokenize_nil, List.length_append,
        List.length_nil]
      congr 1
      omega
    · have hnext := ih hb' (r ++ [t]) (by simpa using hw) (hr.append (tagFree_singleton ht))
      simpa using hnext

variable {a : List ℕ}

/-- Where a tag is found. -/
theorem TagPair.find_eq (h : TagPair v tag other body) (hw : v.WellFormed a) (ha : tag ∉ a)
    (b : List ℕ) :
    find (v.detokenize (a ++ tag :: b)) (v.text tag) = (v.detokenize a).length := by
  have hfind := h.find?_of_mem a b ha [] hw tagFree_nil
  rw [detokenize_nil, List.nil_append, List.nil_append] at hfind
  rw [find, h.text_eq, hfind]

/-- A tag is contained in a text by its token. -/
theorem TagPair.contains_iff (h : TagPair v tag other body) {w : List ℕ} (hw : v.WellFormed w) :
    contains (v.detokenize w) (v.text tag) = true ↔ tag ∈ w := by
  rw [contains, h.text_eq]
  constructor
  · intro hsome
    refine Decidable.byContradiction fun hmem => ?_
    have hnone := h.find?_of_not_mem w hmem [] hw tagFree_nil
    rw [detokenize_nil, List.nil_append] at hnone
    rw [hnone] at hsome
    exact absurd hsome Bool.false_ne_true
  · intro hmem
    obtain ⟨a, b, rfl, ha⟩ := List.eq_append_cons_of_mem hmem
    have hsome := h.find?_of_mem a b ha [] (hw.of_infix (List.infix_append' [] a _)) tagFree_nil
    rw [detokenize_nil, List.nil_append] at hsome
    rw [hsome, Option.isSome_some]

/-- A text is cut at its first tag. -/
theorem TagPair.partition_eq (h : TagPair v tag other body) (hw : v.WellFormed a) (ha : tag ∉ a)
    (b : List ℕ) :
    partition (v.detokenize (a ++ tag :: b)) (v.text tag)
      = (v.detokenize a, v.text tag, v.detokenize b) := by
  have hfind := h.find?_of_mem a b ha [] hw tagFree_nil
  rw [detokenize_nil, List.nil_append, List.nil_append] at hfind
  rw [partition, h.text_eq, hfind, detokenize_append, detokenize_cons, h.text_eq]
  simp

end finding

/-! ## The text of some tokens -/

section texts

variable {a b : List ℕ}

/-- Where the start tag is found. -/
theorem find_start (hw : v.WellFormed a) (ha : v.thinkStartTokenId ∉ a) (b : List ℕ) :
    find (v.detokenize (a ++ v.thinkStartTokenId :: b)) thinkStartToken
      = (v.detokenize a).length := v.text_start ▸ v.startPair.find_eq hw ha b

/-- Where the end tag is found. -/
theorem find_end (hw : v.WellFormed a) (ha : v.thinkEndTokenId ∉ a) (b : List ℕ) :
    find (v.detokenize (a ++ v.thinkEndTokenId :: b)) thinkEndToken
      = (v.detokenize a).length := v.text_end ▸ v.endPair.find_eq hw ha b

/-- The text in front of the end tag. -/
theorem sliceTo_end (hw : v.WellFormed a) (ha : v.thinkEndTokenId ∉ a) (b : List ℕ) :
    sliceTo (v.detokenize (a ++ v.thinkEndTokenId :: b))
      (find (v.detokenize (a ++ v.thinkEndTokenId :: b)) thinkEndToken) = v.detokenize a := by
  rw [find_end hw ha, detokenize_append, sliceTo_append]

/-- The text behind the end tag. -/
theorem sliceFrom_end (hw : v.WellFormed a) (ha : v.thinkEndTokenId ∉ a) (b : List ℕ) :
    sliceFrom (v.detokenize (a ++ v.thinkEndTokenId :: b))
      (find (v.detokenize (a ++ v.thinkEndTokenId :: b)) thinkEndToken + thinkEndToken.length)
        = v.detokenize b := by
  rw [find_end hw ha, detokenize_append, detokenize_cons, v.text_end, sliceFrom_append]

theorem contains_start {w : List ℕ} (hw : v.WellFormed w) :
    contains (v.detokenize w) thinkStartToken = true ↔ v.thinkStartTokenId ∈ w :=
  v.text_start ▸ v.startPair.contains_iff hw

theorem contains_end {w : List ℕ} (hw : v.WellFormed w) :
    contains (v.detokenize w) thinkEndToken = true ↔ v.thinkEndTokenId ∈ w :=
  v.text_end ▸ v.endPair.contains_iff hw

theorem partition_start (hw : v.WellFormed a) (ha : v.thinkStartTokenId ∉ a) (b : List ℕ) :
    partition (v.detokenize (a ++ v.thinkStartTokenId :: b)) thinkStartToken
      = (v.detokenize a, thinkStartToken, v.detokenize b) :=
  v.text_start ▸ v.startPair.partition_eq hw ha b

theorem partition_end (hw : v.WellFormed a) (ha : v.thinkEndTokenId ∉ a) (b : List ℕ) :
    partition (v.detokenize (a ++ v.thinkEndTokenId :: b)) thinkEndToken
      = (v.detokenize a, thinkEndToken, v.detokenize b) :=
  v.text_end ▸ v.endPair.partition_eq hw ha b

end texts

/-- An empty string counts as no string. -/
@[simp] theorem getD_orNone (s : List Char) : (orNone s).getD [] = s := by
  unfold orNone
  split
  · next h => rw [h]; rfl
  · rfl

@[simp] theorem reasoningText_some (m : ReasoningDelta) :
    reasoningText (some m) = m.reasoningContent.getD [] := rfl

@[simp] theorem contentText_some (m : ReasoningDelta) :
    contentText (some m) = m.content.getD [] := rfl

@[simp] theorem reasoningText_none : reasoningText none = [] := rfl

@[simp] theorem contentText_none : contentText none = [] := rfl

/-! ## Streams -/

section streams

variable {previous : List ℕ} {deltas : List (List ℕ)}

theorem not_single_tag {d : List ℕ} (h : v.TagFree d) :
    ¬ (d.length = 1 ∧
      (d.head? = some v.thinkStartTokenId ∨ d.head? = some v.thinkEndTokenId)) := by
  rintro ⟨-, hhead⟩
  cases d with
  | nil => simp at hhead
  | cons t d =>
    refine h t List.mem_cons_self ?_
    simpa [IsTag] using hhead

/-- Behind an end tag, everything is content. -/
theorem streamAll_behind (hprev : v.thinkEndTokenId ∈ previous)
    (hfree : v.TagFree deltas.flatten) :
    v.streamAll previous deltas = ([], v.detokenize deltas.flatten) := by
  induction deltas generalizing previous with
  | nil => rfl
  | cons d deltas ih =>
    rw [List.flatten_cons] at hfree
    have hmessage : v.extractReasoningContentStreaming (v.detokenize d) previous d
        = some { content := some (v.detokenize d) } := by
      unfold extractReasoningContentStreaming
      rw [if_neg (not_single_tag hfree.left), if_neg hfree.left.end_not_mem,
        if_neg hfree.left.start_not_mem, if_pos hprev, if_pos hprev, ite_self]
    rw [streamAll, hmessage, ih (List.mem_append_left d hprev) hfree.right]
    simp

/-- Without tags, everything is reasoning. -/
theorem streamAll_tagFree (hprev : v.TagFree previous) (hfree : v.TagFree deltas.flatten) :
    v.streamAll previous deltas = (v.detokenize deltas.flatten, []) := by
  induction deltas generalizing previous with
  | nil => rfl
  | cons d deltas ih =>
    rw [List.flatten_cons] at hfree
    have hmessage : v.extractReasoningContentStreaming (v.detokenize d) previous d
        = some { reasoningContent := some (v.detokenize d) } := by
      unfold extractReasoningContentStreaming
      rw [if_neg (not_single_tag hfree.left), if_neg hprev.start_not_mem,
        if_neg hfree.left.start_not_mem, if_neg hprev.end_not_mem, if_neg hfree.left.end_not_mem]
    rw [streamAll, hmessage, ih (hprev.append hfree.left) hfree.right]
    simp

/-- The first of some parts lies in front of a token or contains it. -/
theorem append_eq_append_cons {d r a b : List ℕ} {t : ℕ} (h : d ++ r = a ++ t :: b) :
    (∃ a', a = d ++ a' ∧ r = a' ++ t :: b) ∨ ∃ b', d = a ++ t :: b' ∧ b = b' ++ r := by
  rcases List.append_eq_append_iff.mp h with ⟨a', ha, hr⟩ | ⟨c, hd, hc⟩
  · exact .inl ⟨a', ha, hr⟩
  · cases c with
    | nil => exact .inl ⟨[], by simpa using hd.symm, hc.symm⟩
    | cons u c =>
      obtain ⟨rfl, hb⟩ := List.cons.inj hc
      exact .inr ⟨c, hd, hb⟩

/-- The delta with the only end tag. -/
theorem streaming_end {a b : List ℕ} (hprev : v.TagFree previous) (ha : v.TagFree a)
    (hb : v.TagFree b) (hw : v.WellFormed a) :
    let message := v.extractReasoningContentStreaming
      (v.detokenize (a ++ v.thinkEndTokenId :: b)) previous (a ++ v.thinkEndTokenId :: b)
    reasoningText message = v.detokenize a ∧ contentText message = v.detokenize b := by
  have hstart := start_not_mem_end ha hb.start_not_mem
  have hmessage : ¬ ((a ++ v.thinkEndTokenId :: b).length = 1) →
      v.extractReasoningContentStreaming (v.detokenize (a ++ v.thinkEndTokenId :: b)) previous
        (a ++ v.thinkEndTokenId :: b)
      = some {
        reasoningContent := orNone (v.detokenize a)
        content := orNone (v.detokenize b) } := by
    intro hlength
    unfold extractReasoningContentStreaming
    rw [if_neg fun h => hlength h.1, if_neg hprev.start_not_mem, if_neg hstart,
      if_neg hprev.end_not_mem, if_pos (List.mem_append_right a List.mem_cons_self)]
    simp only [sliceTo_end hw ha.end_not_mem b, sliceFrom_end hw ha.end_not_mem b]
  dsimp only
  cases a with
  | nil =>
    cases b with
    | nil =>
      -- the tag alone gives no message
      have hnone : v.extractReasoningContentStreaming (v.detokenize ([] ++ [v.thinkEndTokenId]))
          previous ([] ++ [v.thinkEndTokenId]) = none := if_pos ⟨rfl, .inr rfl⟩
      rw [hnone]
      exact ⟨rfl, rfl⟩
    | cons t b =>
      rw [hmessage (by simp), reasoningText_some, contentText_some, getD_orNone, getD_orNone]
      exact ⟨rfl, rfl⟩
  | cons t a =>
    rw [hmessage (by simp), reasoningText_some, contentText_some, getD_orNone, getD_orNone]
    exact ⟨rfl, rfl⟩

/-- Up to the only end tag everything is reasoning, behind it everything is content. -/
theorem streamAll_end {a b : List ℕ} (hprev : v.TagFree previous) (ha : v.TagFree a)
    (hb : v.TagFree b) (hw : v.WellFormed a)
    (hdeltas : deltas.flatten = a ++ v.thinkEndTokenId :: b) :
    v.streamAll previous deltas = (v.detokenize a, v.detokenize b) := by
  induction deltas generalizing previous a with
  | nil => exact absurd hdeltas.symm (by simp)
  | cons d deltas ih =>
    rw [List.flatten_cons] at hdeltas
    rcases append_eq_append_cons hdeltas with ⟨a', rfl, hrest⟩ | ⟨b', rfl, rfl⟩
    · -- the delta lies in front of the tag
      have hd := ha.left
      have hmessage : v.extractReasoningContentStreaming (v.detokenize d) previous d
          = some { reasoningContent := some (v.detokenize d) } := by
        unfold extractReasoningContentStreaming
        rw [if_neg (not_single_tag hd), if_neg hprev.start_not_mem, if_neg hd.start_not_mem,
          if_neg hprev.end_not_mem, if_neg hd.end_not_mem]
      have ha' : v.WellFormed a' := hw.of_infix ⟨d, [], by simp⟩
      rw [streamAll, hmessage, ih (hprev.append hd) ha.right ha' hrest]
      simp
    · -- the delta contains the tag
      obtain ⟨hreasoning, hcontent⟩ := streaming_end hprev ha hb.left hw
      have hmem : v.thinkEndTokenId ∈ previous ++ (a ++ v.thinkEndTokenId :: b') := by simp
      have hbehind := streamAll_behind hmem hb.right
      rw [streamAll, hreasoning, hcontent, hbehind]
      simp

/-- The delta that starts with the end tag, behind a start tag. -/
theorem streaming_end_of_start {b : List ℕ} (hprev : v.thinkStartTokenId ∈ previous) :
    let message := v.extractReasoningContentStreaming
      (v.detokenize (v.thinkEndTokenId :: b)) previous (v.thinkEndTokenId :: b)
    reasoningText message = [] ∧ contentText message = v.detokenize b := by
  dsimp only
  cases b with
  | nil =>
    have hnone : v.extractReasoningContentStreaming (v.detokenize [v.thinkEndTokenId])
        previous [v.thinkEndTokenId] = none := if_pos ⟨rfl, .inr rfl⟩
    rw [hnone]
    exact ⟨rfl, rfl⟩
  | cons t b =>
    have hto := sliceTo_end v.wellFormed_nil List.not_mem_nil (t :: b)
    have hfrom := sliceFrom_end v.wellFormed_nil List.not_mem_nil (t :: b)
    rw [List.nil_append] at hto hfrom
    unfold extractReasoningContentStreaming
    rw [if_neg (by simp), if_pos hprev, if_pos List.mem_cons_self, reasoningText_some,
      contentText_some, hto, hfrom]
    exact ⟨rfl, getD_orNone _⟩

/-- The delta that starts with both tags. -/
theorem streaming_start_end {b : List ℕ} (hprev : v.thinkStartTokenId ∉ previous)
    (hw : v.WellFormed [v.thinkStartTokenId]) :
    let delta := v.thinkStartTokenId :: v.thinkEndTokenId :: b
    let message := v.extractReasoningContentStreaming (v.detokenize delta) previous delta
    reasoningText message = [] ∧ contentText message = v.detokenize b := by
  have hend : v.thinkEndTokenId ∉ [v.thinkStartTokenId] := fun h =>
    v.ids_ne (List.mem_singleton.mp h).symm
  intro delta message
  have hstart : find (v.detokenize delta) thinkStartToken = (v.detokenize []).length :=
    find_start v.wellFormed_nil List.not_mem_nil (v.thinkEndTokenId :: b)
  have hfind : find (v.detokenize delta) thinkEndToken
      = (v.detokenize [v.thinkStartTokenId]).length := find_end hw hend b
  have hfrom : sliceFrom (v.detokenize delta) (find (v.detokenize delta) thinkEndToken
      + thinkEndToken.length) = v.detokenize b := sliceFrom_end hw hend b
  have hslice : slice (v.detokenize delta) (find (v.detokenize delta) thinkStartToken
      + thinkStartToken.length) (find (v.detokenize delta) thinkEndToken) = [] := by
    rw [hstart, hfind, ← Int.natCast_add]
    exact slice_of_le _ (by simp [v.text_start])
  have hmessage : message
      = some { reasoningContent := some [], content := orNone (v.detokenize b) } := by
    show v.extractReasoningContentStreaming (v.detokenize delta) previous delta = _
    unfold extractReasoningContentStreaming
    rw [if_neg (by simp [delta]), if_neg hprev, if_pos List.mem_cons_self,
      if_pos (List.mem_cons_of_mem _ List.mem_cons_self)]
    simp only [hslice, hfrom]
  rw [hmessage, reasoningText_some, contentText_some, getD_orNone]
  exact ⟨rfl, rfl⟩

/-- The first delta starts with the first token. -/
theorem exists_first_delta {t : ℕ} {w : List ℕ} (hne : ∀ d ∈ deltas, d ≠ [])
    (hdeltas : deltas.flatten = t :: w) :
    ∃ d rest, deltas = (t :: d) :: rest ∧ d ++ rest.flatten = w := by
  cases deltas with
  | nil => exact absurd hdeltas (by simp)
  | cons d deltas =>
    cases d with
    | nil => exact absurd rfl (hne [] List.mem_cons_self)
    | cons u d =>
      obtain ⟨rfl, hrest⟩ := List.cons.inj hdeltas
      exact ⟨d, deltas, rfl, hrest⟩

/-- The start tag alone gives nothing. -/
theorem streamAll_start (hne : ∀ d ∈ deltas, d ≠ [])
    (hdeltas : deltas.flatten = [v.thinkStartTokenId]) : v.streamAll [] deltas = ([], []) := by
  obtain ⟨d, deltas, rfl, hrest⟩ := exists_first_delta hne hdeltas
  obtain ⟨rfl, hflat⟩ := List.append_eq_nil_iff.mp hrest
  have hnone : v.extractReasoningContentStreaming (v.detokenize [v.thinkStartTokenId]) []
      [v.thinkStartTokenId] = none := if_pos ⟨rfl, .inl rfl⟩
  cases deltas with
  | nil =>
    rw [streamAll, hnone]
    rfl
  | cons d deltas =>
    have hd : d = [] := List.flatten_eq_nil_iff.mp hflat d List.mem_cons_self
    exact absurd hd (hne d (by simp))

/-- Both tags in front of everything else: everything else is content. -/
theorem streamAll_start_end {b : List ℕ} (hw : v.WellFormed [v.thinkStartTokenId])
    (hb : v.TagFree b) (hne : ∀ d ∈ deltas, d ≠ [])
    (hdeltas : deltas.flatten = v.thinkStartTokenId :: v.thinkEndTokenId :: b) :
    v.streamAll [] deltas = ([], v.detokenize b) := by
  obtain ⟨d, deltas, rfl, hrest⟩ := exists_first_delta hne hdeltas
  cases d with
  | nil =>
    -- the start tag alone gives no message
    obtain ⟨d, deltas, rfl, rfl⟩ := exists_first_delta
      (fun d hd => hne d (List.mem_cons_of_mem _ hd)) hrest
    have hnone : v.extractReasoningContentStreaming (v.detokenize [v.thinkStartTokenId]) []
        [v.thinkStartTokenId] = none := if_pos ⟨rfl, .inl rfl⟩
    have hprev : v.thinkStartTokenId ∈ [] ++ [v.thinkStartTokenId] := List.mem_singleton.mpr rfl
    obtain ⟨hreasoning, hcontent⟩ := streaming_end_of_start (b := d) hprev
    have hmem : v.thinkEndTokenId ∈ [] ++ [v.thinkStartTokenId] ++ v.thinkEndTokenId :: d :=
      List.mem_append_right _ List.mem_cons_self
    rw [streamAll, streamAll, hnone, hreasoning, hcontent, streamAll_behind hmem hb.right]
    simp
  | cons u d =>
    obtain ⟨rfl, rfl⟩ := List.cons.inj hrest
    obtain ⟨hreasoning, hcontent⟩ := streaming_start_end (b := d) List.not_mem_nil hw
    have hmem : v.thinkEndTokenId ∈ [] ++ v.thinkStartTokenId :: v.thinkEndTokenId :: d := by simp
    rw [streamAll, hreasoning, hcontent, streamAll_behind hmem hb.right]
    simp

end streams

/-! ## The whole text -/

section whole

variable {a b : List ℕ} {enableThinking : Bool}

/-- The reasoning and the content of a whole text. -/
def wholeText (v : ReasoningVocab) (tokens : List ℕ) (enableThinking : Bool) :
    List Char × List Char :=
  let split := extractReasoningContent (v.detokenize tokens) enableThinking
  (split.1.getD [], split.2.getD [])

theorem wholeText_tagFree (hw : v.WellFormed a) (ha : v.TagFree a) :
    v.wholeText a enableThinking
      = if enableThinking then (strip (v.detokenize a), []) else ([], v.detokenize a) := by
  have hstart := mt (contains_start hw).mp ha.start_not_mem
  have hend := mt (contains_end hw).mp ha.end_not_mem
  unfold wholeText extractReasoningContent
  rw [if_neg fun h => hstart h.1, if_neg hend, if_neg hstart]
  cases enableThinking with
  | false => rfl
  | true =>
    rw [if_pos rfl, if_pos rfl]
    simp only [getD_orNone, Option.getD_none]

/-- A text without its leading newline. -/
def dropNewline (s : List Char) : List Char := if ['\n'].isPrefixOf s then s.drop 1 else s

theorem weight_dropNewline (s : List Char) : weight (dropNewline s) = weight s := by
  unfold dropNewline
  split
  · next hnewline =>
    obtain ⟨rest, rfl⟩ := List.isPrefixOf_iff_prefix.mp hnewline
    have hblank : weight ['\n'] = 0 := by decide
    rw [weight_append, hblank, Nat.zero_add]
    rfl
  · rfl

/-- Without a start tag the text is cut at the first end tag. -/
theorem wholeText_end (enableThinking : Bool)
    (hw : v.WellFormed (a ++ v.thinkEndTokenId :: b)) (ha : v.TagFree a)
    (hb : v.thinkStartTokenId ∉ b) :
    v.wholeText (a ++ v.thinkEndTokenId :: b) enableThinking
      = (dropNewline (v.detokenize a), strip (v.detokenize b)) := by
  have hstart := mt (contains_start hw).mp (start_not_mem_end ha hb)
  have hend := (contains_end hw).mpr (List.mem_append_right a List.mem_cons_self)
  have hcut := partition_end (hw.of_infix (List.infix_append' [] a _)) ha.end_not_mem b
  unfold wholeText extractReasoningContent
  rw [if_neg fun h => hstart h.1, if_pos hend, hcut]
  simp only [getD_orNone]
  rfl

/-- The text of a start tag alone. -/
theorem wholeText_start (hw : v.WellFormed [v.thinkStartTokenId]) :
    v.wholeText [v.thinkStartTokenId] enableThinking = ([], []) := by
  have hstart := (contains_start hw).mpr List.mem_cons_self
  have hend := mt (contains_end hw).mp fun h => v.ids_ne (List.mem_singleton.mp h).symm
  have hcut := partition_start v.wellFormed_nil List.not_mem_nil []
  rw [List.nil_append] at hcut
  unfold wholeText extractReasoningContent
  rw [if_neg fun h => hend h.2, if_neg hend, if_pos hstart, hcut]
  rfl

/-- With both tags in front, the rest is content, further tags included. -/
theorem wholeText_start_end
    (hw : v.WellFormed (v.thinkStartTokenId :: v.thinkEndTokenId :: b)) :
    v.wholeText (v.thinkStartTokenId :: v.thinkEndTokenId :: b) enableThinking
      = ([], v.detokenize b) := by
  have hstart := (contains_start hw).mpr List.mem_cons_self
  have hend := (contains_end hw).mpr (List.mem_cons_of_mem _ List.mem_cons_self)
  have hfirst := partition_start v.wellFormed_nil List.not_mem_nil (v.thinkEndTokenId :: b)
  have hsecond := partition_end v.wellFormed_nil List.not_mem_nil b
  rw [List.nil_append] at hfirst hsecond
  unfold wholeText extractReasoningContent
  have htag : thinkStartToken ≠ [] := List.cons_ne_nil _ _
  rw [if_pos ⟨hstart, hend⟩, hfirst]
  simp only [if_pos htag, hsecond, getD_orNone]
  rfl

end whole

/-! ## Counting the characters -/

section counting

/-- The characters of both parts that are not whitespace. -/
def total (p : List Char × List Char) : ℕ := weight p.1 + weight p.2

/-- The tokens that are no tags. -/
def untagged (v : ReasoningVocab) (tokens : List ℕ) : List ℕ := tokens.filter fun t => ¬ v.IsTag t

theorem weight_detokenize_append (a b : List ℕ) :
    weight (v.detokenize (a ++ b)) = weight (v.detokenize a) + weight (v.detokenize b) := by
  rw [detokenize_append, weight_append]

/-- A tag counts. -/
theorem weight_tag {t : ℕ} (ht : v.IsTag t) : 0 < weight (v.text t) := by
  rcases ht with rfl | rfl
  · rw [v.text_start]
    decide
  · rw [v.text_end]
    decide

theorem weight_untagged_le (w : List ℕ) :
    weight (v.detokenize (v.untagged w)) ≤ weight (v.detokenize w) := by
  induction w with
  | nil => exact Nat.le_refl _
  | cons t w ih =>
    unfold untagged at ih ⊢
    rw [List.filter_cons]
    split <;> simp only [detokenize_cons, weight_append] <;> omega

/-- The text of tokens with a tag has more characters than the text without the tag. -/
theorem weight_untagged_lt {w : List ℕ} (h : ¬ v.TagFree w) :
    weight (v.detokenize (v.untagged w)) < weight (v.detokenize w) := by
  obtain ⟨t, ht, htag⟩ : ∃ t ∈ w, v.IsTag t := by
    simpa [TagFree] using h
  obtain ⟨a, b, rfl⟩ := List.append_of_mem ht
  have ha := weight_untagged_le (v := v) a
  have hb := weight_untagged_le (v := v) b
  have hpos := weight_tag htag
  have hskip : v.untagged (a ++ t :: b) = v.untagged a ++ v.untagged b := by
    simp [untagged, htag]
  rw [hskip, weight_detokenize_append, weight_detokenize_append, detokenize_cons, weight_append]
  omega

theorem total_streamAll_cons (previous delta : List ℕ) (deltas : List (List ℕ)) :
    total (v.streamAll previous (delta :: deltas))
      = weight (reasoningText
          (v.extractReasoningContentStreaming (v.detokenize delta) previous delta))
        + weight (contentText
          (v.extractReasoningContentStreaming (v.detokenize delta) previous delta))
        + total (v.streamAll (previous ++ delta) deltas) := by
  simp only [total, streamAll, weight_append]
  omega

/-- Token by token, the tags are dropped and everything else is kept. -/
theorem total_singletons (w previous : List ℕ) :
    total (v.streamAll previous (w.map ([·]))) = weight (v.detokenize (v.untagged w)) := by
  induction w generalizing previous with
  | nil => rfl
  | cons t w ih =>
    rw [List.map_cons, total_streamAll_cons, ih]
    unfold untagged
    rw [List.filter_cons]
    by_cases ht : v.IsTag t
    · have hnone : v.extractReasoningContentStreaming (v.detokenize [t]) previous [t] = none := by
        refine if_pos ⟨rfl, ?_⟩
        simpa [IsTag] using ht
      rw [hnone]
      simp [ht, weight]
    · have hfree := tagFree_singleton ht
      have hkept : weight (reasoningText
            (v.extractReasoningContentStreaming (v.detokenize [t]) previous [t]))
          + weight (contentText
            (v.extractReasoningContentStreaming (v.detokenize [t]) previous [t]))
          = weight (v.text t) := by
        unfold extractReasoningContentStreaming
        rw [if_neg (not_single_tag hfree), if_neg hfree.end_not_mem, if_neg hfree.start_not_mem,
          if_neg hfree.end_not_mem]
        split <;> split <;> simp [weight]
      rw [hkept]
      simp [ht, weight_append]

theorem total_streamAll_append (previous : List ℕ) (gs hs : List (List ℕ)) :
    total (v.streamAll previous (gs ++ hs))
      = total (v.streamAll previous gs) + total (v.streamAll (previous ++ gs.flatten) hs) := by
  induction gs generalizing previous with
  | nil => simp [streamAll, total, weight]
  | cons d gs ih =>
    rw [List.cons_append, total_streamAll_cons, total_streamAll_cons, ih, List.flatten_cons,
      List.append_assoc]
    omega

/-- Two tokens in one delta keep the first start tag in the text, unless the end tag follows it. -/
theorem total_pair {x y : ℕ} {previous : List ℕ} (hprev : v.thinkStartTokenId ∉ previous)
    (hpair : x = v.thinkStartTokenId ∧ y ≠ v.thinkEndTokenId ∨ y = v.thinkStartTokenId) :
    weight (v.detokenize (v.untagged [x, y]))
      < total (v.streamAll previous [[x, y]]) := by
  have hmem : v.thinkStartTokenId ∈ [x, y] := by
    rcases hpair with ⟨rfl, -⟩ | rfl <;> simp
  have hlength : ¬ ([x, y].length = 1) := fun h => absurd h (by simp)
  rw [total_streamAll_cons]
  by_cases hend : v.thinkEndTokenId ∈ [x, y]
  · -- the end tag in front of the start tag: the start tag becomes content
    obtain ⟨rfl, rfl⟩ : x = v.thinkEndTokenId ∧ y = v.thinkStartTokenId := by
      have hne := v.ids_ne
      rcases hpair with ⟨rfl, hy⟩ | rfl
      · simp [hne.symm, Ne.symm hy] at hend
      · simpa [hne.symm, eq_comm] using hend
    have hfrom := sliceFrom_end v.wellFormed_nil List.not_mem_nil [v.thinkStartTokenId]
    rw [List.nil_append] at hfrom
    have hcontent : weight (contentText (v.extractReasoningContentStreaming
        (v.detokenize [v.thinkEndTokenId, v.thinkStartTokenId]) previous
        [v.thinkEndTokenId, v.thinkStartTokenId])) = weight (v.text v.thinkStartTokenId) := by
      unfold extractReasoningContentStreaming
      rw [if_neg fun h => hlength h.1, if_neg hprev, if_pos hmem, if_pos hend, contentText_some]
      simp only [hfrom, getD_orNone]
      rw [detokenize_cons, detokenize_nil, List.append_nil]
    have hpos := weight_tag (v := v) (t := v.thinkStartTokenId) (.inl rfl)
    have huntagged : v.untagged [v.thinkEndTokenId, v.thinkStartTokenId] = [] := by
      simp [untagged, IsTag]
    have hzero : weight (v.detokenize []) = 0 := rfl
    rw [hcontent, huntagged, hzero]
    omega
  · -- everything becomes reasoning
    have htagged : ¬ v.TagFree [x, y] := fun h => h.start_not_mem hmem
    have hlt := weight_untagged_lt htagged
    have hreasoning : v.extractReasoningContentStreaming (v.detokenize [x, y]) previous [x, y]
        = some { reasoningContent := some (v.detokenize [x, y]) } := by
      unfold extractReasoningContentStreaming
      rw [if_neg fun h => hlength h.1, if_neg hprev, if_pos hmem, if_neg hend]
    rw [hreasoning, reasoningText_some, Option.getD_some]
    omega

/-- Token by token, but for two tokens together. -/
def pairGrouping (p : List ℕ) (x y : ℕ) (q : List ℕ) : List (List ℕ) :=
  p.map ([·]) ++ ([[x, y]] ++ q.map ([·]))

theorem flatten_singletons (w : List ℕ) : (w.map ([·])).flatten = w := by
  induction w with
  | nil => rfl
  | cons t w ih => rw [List.map_cons, List.flatten_cons, ih, List.singleton_append]

theorem total_pairGrouping {x y : ℕ} {p q : List ℕ} (hp : v.thinkStartTokenId ∉ p)
    (hpair : x = v.thinkStartTokenId ∧ y ≠ v.thinkEndTokenId ∨ y = v.thinkStartTokenId) :
    weight (v.detokenize (v.untagged (p ++ x :: y :: q)))
      < total (v.streamAll [] (pairGrouping p x y q)) := by
  have hp' : v.thinkStartTokenId ∉ [] ++ (p.map ([·])).flatten := by
    rwa [flatten_singletons, List.nil_append]
  have hsplit : v.untagged (p ++ x :: y :: q)
      = v.untagged p ++ (v.untagged [x, y] ++ v.untagged q) := by
    simp only [untagged, ← List.filter_append]
    rfl
  have hlt := total_pair hp' hpair
  rw [hsplit, weight_detokenize_append, weight_detokenize_append, pairGrouping,
    total_streamAll_append, total_streamAll_append, total_singletons, total_singletons]
  omega

end counting

/-! ## Consistency -/

/-- What `extract_reasoning_content` strips from the reasoning: nothing if there are both tags, a
leading newline if there is only the end tag, and the whitespace at the ends if the reasoning is not
closed. -/
def stripReasoning (modelOutput : List Char) (enableThinking : Bool) (reasoning : List Char) :
    List Char :=
  if contains modelOutput thinkStartToken ∧ contains modelOutput thinkEndToken then reasoning
  else if contains modelOutput thinkEndToken then dropNewline reasoning
  else if contains modelOutput thinkStartToken ∨ enableThinking then strip reasoning
  else reasoning

/-- What `extract_reasoning_content` strips from the content: the whitespace at the ends if there is
only the end tag. -/
def stripContent (modelOutput content : List Char) : List Char :=
  if contains modelOutput thinkEndToken ∧ ¬ contains modelOutput thinkStartToken then strip content
  else content

@[simp] theorem weight_stripReasoning (modelOutput : List Char) (enableThinking : Bool)
    (reasoning : List Char) :
    weight (stripReasoning modelOutput enableThinking reasoning) = weight reasoning := by
  unfold stripReasoning
  split
  · rfl
  · split
    · exact weight_dropNewline reasoning
    · split
      · exact weight_strip reasoning
      · rfl

@[simp] theorem weight_stripContent (modelOutput content : List Char) :
    weight (stripContent modelOutput content) = weight content := by
  unfold stripContent
  split
  · exact weight_strip content
  · rfl

/-- Nothing can be stripped from no text. -/
theorem stripReasoning_nil (modelOutput : List Char) (enableThinking : Bool) :
    stripReasoning modelOutput enableThinking [] = [] := by
  have hdrop : dropNewline [] = [] := rfl
  have hstrip : strip [] = [] := rfl
  unfold stripReasoning
  rw [hdrop, hstrip, ite_self, ite_self, ite_self]

theorem stripContent_nil (modelOutput : List Char) : stripContent modelOutput [] = [] := by
  unfold stripContent
  split <;> rfl

/-- The deltas are a grouping of the tokens into consecutive non-empty parts. -/
structure IsGrouping (tokens : List ℕ) (deltas : List (List ℕ)) : Prop where
  flatten_eq : deltas.flatten = tokens
  nonempty : ∀ d ∈ deltas, d ≠ []

/-- All groupings give the same reasoning and content, which are those of the whole text up to the
whitespace that is stripped there. -/
structure Consistent (v : ReasoningVocab) (tokens : List ℕ) (enableThinking : Bool) : Prop where
  independent : ∀ gs hs, IsGrouping tokens gs → IsGrouping tokens hs →
    v.streamAll [] gs = v.streamAll [] hs
  whole : ∀ gs, IsGrouping tokens gs →
    stripReasoning (v.detokenize tokens) enableThinking (v.streamAll [] gs).1
        = (v.wholeText tokens enableThinking).1 ∧
      stripContent (v.detokenize tokens) (v.streamAll [] gs).2
        = (v.wholeText tokens enableThinking).2

/-- No tags, where the whole text must be reasoning too or empty; or one end tag and no start tag; or a start
tag alone; or both tags in front and no others. -/
def TagsInOrder (v : ReasoningVocab) (tokens : List ℕ) (enableThinking : Bool) : Prop :=
  (v.TagFree tokens ∧ (enableThinking = true ∨ v.detokenize tokens = [])) ∨
  (∃ a b, v.TagFree a ∧ v.TagFree b ∧ tokens = a ++ v.thinkEndTokenId :: b) ∨
  tokens = [v.thinkStartTokenId] ∨
  ∃ b, v.TagFree b ∧ tokens = v.thinkStartTokenId :: v.thinkEndTokenId :: b

theorem isGrouping_singletons (w : List ℕ) : IsGrouping w (w.map ([·])) where
  flatten_eq := flatten_singletons w
  nonempty d hd := by
    obtain ⟨t, -, rfl⟩ := List.mem_map.mp hd
    exact List.cons_ne_nil t []

theorem isGrouping_pairGrouping (p : List ℕ) (x y : ℕ) (q : List ℕ) :
    IsGrouping (p ++ x :: y :: q) (pairGrouping p x y q) where
  flatten_eq := by
    simp [pairGrouping, flatten_singletons]
  nonempty d hd := by
    rcases List.mem_append.mp hd with hd | hd
    · exact (isGrouping_singletons p).nonempty d hd
    · rcases List.mem_append.mp hd with hd | hd
      · exact List.mem_singleton.mp hd ▸ List.cons_ne_nil x [y]
      · exact (isGrouping_singletons q).nonempty d hd

/-- All groupings give the same two texts, which are those of the whole when they are stripped. -/
theorem Consistent.of_eq {w : List ℕ} {enableThinking : Bool} {p : List Char × List Char}
    (h : ∀ gs, IsGrouping w gs → v.streamAll [] gs = p)
    (hwhole : stripReasoning (v.detokenize w) enableThinking p.1
        = (v.wholeText w enableThinking).1 ∧
      stripContent (v.detokenize w) p.2 = (v.wholeText w enableThinking).2) :
    v.Consistent w enableThinking where
  independent gs hs hgs hhs := (h gs hgs).trans (h hs hhs).symm
  whole gs hgs := by rwa [h gs hgs]

theorem Consistent.total_eq {w : List ℕ} {enableThinking : Bool}
    (h : v.Consistent w enableThinking) {gs : List (List ℕ)} (hgs : IsGrouping w gs) :
    total (v.streamAll [] gs) = total (v.wholeText w enableThinking) := by
  obtain ⟨hreasoning, hcontent⟩ := h.whole gs hgs
  unfold total
  rw [← hreasoning, ← hcontent, weight_stripReasoning, weight_stripContent]

/-- A consistent split keeps exactly the characters of the tokens that are no tags. -/
theorem Consistent.total_whole {w : List ℕ} {enableThinking : Bool}
    (h : v.Consistent w enableThinking) :
    total (v.wholeText w enableThinking) = weight (v.detokenize (v.untagged w)) := by
  rw [← h.total_eq (isGrouping_singletons w), total_singletons]

/-- The first start tag stays in the text of some grouping. -/
theorem not_consistent_of_pair {x y : ℕ} {p q : List ℕ} {enableThinking : Bool}
    (hp : v.thinkStartTokenId ∉ p)
    (hpair : x = v.thinkStartTokenId ∧ y ≠ v.thinkEndTokenId ∨ y = v.thinkStartTokenId) :
    ¬ v.Consistent (p ++ x :: y :: q) enableThinking := by
  intro h
  have hlt := total_pairGrouping (q := q) hp hpair
  rw [h.total_eq (isGrouping_pairGrouping p x y q), h.total_whole] at hlt
  exact Nat.lt_irrefl _ hlt

/-- With a start tag. -/
theorem Consistent.tags_of_start {w : List ℕ} {enableThinking : Bool} (hw : v.WellFormed w)
    (h : v.Consistent w enableThinking) (hmem : v.thinkStartTokenId ∈ w) :
    w = [v.thinkStartTokenId] ∨
      ∃ b, v.TagFree b ∧ w = v.thinkStartTokenId :: v.thinkEndTokenId :: b := by
  obtain ⟨p, q, rfl, hp⟩ := List.eq_append_cons_of_mem hmem
  rcases List.eq_nil_or_concat p with rfl | ⟨p', x, rfl⟩
  · cases q with
    | nil => exact .inl rfl
    | cons y q =>
      rw [List.nil_append] at hw h ⊢
      obtain rfl : y = v.thinkEndTokenId := Decidable.byContradiction fun hy =>
        not_consistent_of_pair List.not_mem_nil (.inl ⟨rfl, hy⟩) h
      refine .inr ⟨q, Decidable.byContradiction fun hq => ?_, rfl⟩
      have hlt := weight_untagged_lt hq
      have htotal := h.total_whole
      have huntagged : v.untagged (v.thinkStartTokenId :: v.thinkEndTokenId :: q)
          = v.untagged q := by
        simp [untagged, IsTag]
      rw [wholeText_start_end hw, huntagged, total] at htotal
      exact absurd htotal (by simp only [weight, List.countP_nil] at hlt ⊢; omega)
  · have hp' : v.thinkStartTokenId ∉ p' := fun hmem => hp (by simp [hmem])
    rw [List.concat_eq_append, List.append_assoc, List.singleton_append] at h
    exact absurd h (not_consistent_of_pair hp' (.inr rfl))

/-- With an end tag and no start tag. -/
theorem Consistent.tags_of_end {w : List ℕ} {enableThinking : Bool} (hw : v.WellFormed w)
    (h : v.Consistent w enableThinking) (hstart : v.thinkStartTokenId ∉ w)
    (hmem : v.thinkEndTokenId ∈ w) :
    ∃ a b, v.TagFree a ∧ v.TagFree b ∧ w = a ++ v.thinkEndTokenId :: b := by
  obtain ⟨a, b, rfl, ha⟩ := List.eq_append_cons_of_mem hmem
  have hfree : v.TagFree a := fun t ht htag => htag.elim
    (fun he => hstart (he ▸ List.mem_append_left _ ht)) (fun he => ha (he ▸ ht))
  have hb : v.thinkStartTokenId ∉ b := fun hmem => hstart (by simp [hmem])
  refine ⟨a, b, hfree, Decidable.byContradiction fun hq => ?_, rfl⟩
  have htotal := h.total_whole
  have huntagged : v.untagged (a ++ v.thinkEndTokenId :: b) = v.untagged a ++ v.untagged b := by
    simp [untagged, IsTag]
  have hle := weight_untagged_le (v := v) a
  have hlt := weight_untagged_lt hq
  rw [huntagged, weight_detokenize_append, total, wholeText_end enableThinking hw hfree hb] at htotal
  simp only [weight_dropNewline, weight_strip] at htotal
  omega

/-- The split is consistent exactly for the token sequences with their tags in order. -/
theorem consistent_iff {tokens : List ℕ} (hw : v.WellFormed tokens) (enableThinking : Bool) :
    v.Consistent tokens enableThinking ↔ v.TagsInOrder tokens enableThinking := by
  constructor
  · intro h
    by_cases hstart : v.thinkStartTokenId ∈ tokens
    · exact .inr (.inr (h.tags_of_start hw hstart))
    by_cases hend : v.thinkEndTokenId ∈ tokens
    · exact .inr (.inl (h.tags_of_end hw hstart hend))
    have hfree : v.TagFree tokens := fun t ht htag => htag.elim
      (fun he => hstart (he ▸ ht)) (fun he => hend (he ▸ ht))
    refine .inl ⟨hfree, ?_⟩
    cases enableThinking with
    | true => exact .inl rfl
    | false =>
      -- the stream calls the text reasoning, the other method calls it content
      obtain ⟨-, hcontent⟩ := h.whole _ (isGrouping_singletons tokens)
      rw [streamAll_tagFree tagFree_nil (by rwa [flatten_singletons]), stripContent_nil,
        wholeText_tagFree hw hfree] at hcontent
      exact .inr hcontent.symm
  · rintro (⟨hfree, hthink⟩ | ⟨a, b, ha, hb, rfl⟩ | rfl | ⟨b, hb, rfl⟩)
    · refine .of_eq (p := (v.detokenize tokens, [])) (fun gs hgs => ?_) ?_
      · obtain ⟨rfl, -⟩ := hgs
        exact streamAll_tagFree tagFree_nil hfree
      · rw [wholeText_tagFree hw hfree, stripContent_nil]
        cases enableThinking with
        | true =>
          have hstart := mt (contains_start hw).mp hfree.start_not_mem
          have hend := mt (contains_end hw).mp hfree.end_not_mem
          unfold stripReasoning
          rw [if_neg fun h => hstart h.1, if_neg hend, if_pos (.inr rfl)]
          exact ⟨rfl, rfl⟩
        | false =>
          have hempty := hthink.resolve_left Bool.false_ne_true
          rw [hempty, stripReasoning_nil]
          exact ⟨rfl, rfl⟩
    · refine .of_eq (p := (v.detokenize a, v.detokenize b)) (fun gs hgs => ?_) ?_
      · have ha' := hw.of_infix (List.infix_append' [] a _)
        exact streamAll_end tagFree_nil ha hb ha' hgs.flatten_eq
      · have hstart := mt (contains_start hw).mp (start_not_mem_end ha hb.start_not_mem)
        have hend := (contains_end hw).mpr (List.mem_append_right a List.mem_cons_self)
        rw [wholeText_end enableThinking hw ha hb.start_not_mem]
        unfold stripReasoning stripContent
        rw [if_neg fun h => hstart h.1, if_pos hend, if_pos ⟨hend, hstart⟩]
        exact ⟨rfl, rfl⟩
    · refine .of_eq (p := ([], [])) (fun gs hgs => ?_) ?_
      · exact streamAll_start hgs.nonempty hgs.flatten_eq
      · rw [wholeText_start hw, stripReasoning_nil, stripContent_nil]
        exact ⟨rfl, rfl⟩
    · have hstart : v.WellFormed [v.thinkStartTokenId] := hw.of_infix ⟨[], _, rfl⟩
      refine .of_eq (p := ([], v.detokenize b)) (fun gs hgs => ?_) ?_
      · exact streamAll_start_end hstart hb hgs.nonempty hgs.flatten_eq
      · have hcontains := (contains_start hw).mpr List.mem_cons_self
        rw [wholeText_start_end hw, stripReasoning_nil]
        unfold stripContent
        rw [if_neg fun h => h.2 hcontains]
        exact ⟨rfl, rfl⟩

/-- A vocabulary of the two tags and two letters. -/
def smallVocab : ReasoningVocab where
  text t := if t = 0 then thinkStartToken else if t = 1 then thinkEndToken
    else if t = 2 then ['a'] else ['b']
  thinkStartTokenId := 0
  thinkEndTokenId := 1
  text_start := rfl
  text_end := rfl

/-- The usual output of a thinking model: reasoning, the end tag, content. -/
theorem consistent_endTag :
    smallVocab.WellFormed [2, 1, 3] ∧ smallVocab.Consistent [2, 1, 3] true :=
  ⟨by decide, (consistent_iff (by decide) true).mpr
    (.inr (.inl ⟨[2], [3], by decide, by decide, rfl⟩))⟩

/-- A start tag that shares a delta with the reasoning stays in the reasoning. -/
theorem sharedDelta_keeps_tag :
    smallVocab.WellFormed [0, 2, 1, 3] ∧ IsGrouping [0, 2, 1, 3] [[0, 2], [1, 3]] ∧
      smallVocab.streamAll [] [[0, 2], [1, 3]] = (thinkStartToken ++ ['a'], ['b']) ∧
      smallVocab.wholeText [0, 2, 1, 3] true = (['a'], ['b']) ∧
      ¬ smallVocab.Consistent [0, 2, 1, 3] true := by
  have hgrouping : IsGrouping [0, 2, 1, 3] [[0, 2], [1, 3]] := ⟨rfl, by decide⟩
  refine ⟨by decide, hgrouping, by decide, by decide, fun h => ?_⟩
  exact absurd (h.whole _ hgrouping).1 (by decide)

end Ikun.Serving.ReasoningVocab
