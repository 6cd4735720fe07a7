import Ikun.Serving.ToolCalls

/-!
# Well-formed tool calls

Messages of a text and well-formed blocks, rendered from their parts, and what the regular expressions of
the parser find in them: each block, the function in a block, and the parameters of a function.

Each tag starts with `<` and has it nowhere else, and the third characters tell the tags apart. So a
tag occurs in a text behind another tag only where it occurs behind it, which takes a rendered message
apart piece by piece.
-/

namespace Ikun.Serving

open PyStr PyRegex

variable {s rest : List Char} {tag other : Tag}

/-! ## Occurrences of tags -/

theorem Tag.exists_body (tag : Tag) : ∃ body, tag.text = '<' :: body ∧ '<' ∉ body := by
  cases tag <;> exact ⟨_, rfl, by decide⟩

theorem Tag.eq_of_take {tag other : Tag} (h : tag.text.take 3 = other.text.take 3) : tag = other := by
  cases tag <;> cases other <;> first | rfl | exact absurd h (by decide)

theorem Tag.three_le_length (tag : Tag) : 3 ≤ tag.text.length := by
  cases tag <;> decide

/-- Only a tag itself stands at its front. -/
theorem Tag.eq_of_prefix_text (h : tag.text <+: other.text ++ rest) : tag = other := by
  refine Tag.eq_of_take ?_
  obtain ⟨tail, htail⟩ := h
  have htake := congrArg (List.take 3) htail
  rwa [List.take_append_of_le_length tag.three_le_length,
    List.take_append_of_le_length other.three_le_length] at htake

/-- A tag does not start in a text without `<`. -/
theorem Tag.infix_append (hs : '<' ∉ s) : tag.text <:+: s ++ rest ↔ tag.text <:+: rest := by
  induction s with
  | nil => exact Iff.rfl
  | cons c s ih =>
    rw [List.mem_cons, not_or] at hs
    obtain ⟨hc, hs⟩ := hs
    rw [List.cons_append, List.infix_cons_iff, ih hs]
    refine or_iff_right fun hpre => ?_
    obtain ⟨body, hbody, -⟩ := tag.exists_body
    rw [hbody, List.cons_prefix_cons] at hpre
    exact hc hpre.1

/-- A tag does not start in another one. -/
theorem Tag.infix_tag (hne : tag ≠ other) :
    tag.text <:+: other.text ++ rest ↔ tag.text <:+: rest := by
  obtain ⟨body, hbody, hbody'⟩ := other.exists_body
  have hnot : ¬ tag.text <+: '<' :: (body ++ rest) := by
    rw [← List.cons_append, ← hbody]
    exact fun hpre => hne (Tag.eq_of_prefix_text hpre)
  rw [hbody, List.cons_append, List.infix_cons_iff, Tag.infix_append hbody']
  exact or_iff_right hnot

/-- The text is empty or starts with a tag. -/
def TagFirst (rest : List Char) : Prop := rest = [] ∨ ∃ t, rest = '<' :: t

theorem tagFirst_text (tag : Tag) (rest : List Char) : TagFirst (tag.text ++ rest) := by
  obtain ⟨body, hbody, -⟩ := tag.exists_body
  exact .inr ⟨body ++ rest, by rw [hbody, List.cons_append]⟩

/-- A tag that a text does not have does not start in it when a tag follows. -/
theorem Tag.not_prefix_drop (hs : ¬ tag.text <:+: s) (hrest : TagFirst rest) {i : ℕ}
    (hi : i < s.length) : ¬ tag.text <+: (s ++ rest).drop i := by
  obtain ⟨body, hbody, hbody'⟩ := tag.exists_body
  obtain rfl | ⟨t, rfl⟩ := hrest
  · rw [List.append_nil]
    exact fun hpre => hs (hpre.isInfix.trans (List.drop_suffix i s).isInfix)
  · rw [hbody] at hs ⊢
    exact PyStr.not_prefix_drop hbody' hs hi

theorem Tag.infix_append_tagFirst (hs : ¬ tag.text <:+: s) (hrest : TagFirst rest) :
    tag.text <:+: s ++ rest ↔ tag.text <:+: rest := by
  obtain ⟨body, hbody, hbody'⟩ := tag.exists_body
  obtain rfl | ⟨t, rfl⟩ := hrest
  · rw [List.append_nil]
    exact iff_of_false hs fun hnil => by
      rw [List.infix_nil.mp hnil] at hbody
      cases hbody
  · have hne : tag.text ≠ [] := by
      rw [hbody]
      exact List.cons_ne_nil _ _
    rw [← not_iff_not, ← find?_eq_none_iff hne, ← find?_eq_none_iff hne, hbody]
    rw [hbody] at hs
    rw [find?_append_of_head hbody' hs, Option.map_eq_none_iff]

/-! ## Matches -/

theorem match_eq_none {α : Type} {x : Option α} {word : List Char} (h : ¬ word <+: s) :
    (if word.isPrefixOf s then x else none) = none :=
  if_neg fun hpre => h (List.isPrefixOf_iff_prefix.mp hpre)

theorem literal_text (tag : Tag) (rest : List Char) :
    literal tag.text (tag.text ++ rest) = some tag.text.length :=
  if_pos (List.isPrefixOf_iff_prefix.mpr (List.prefix_append _ _))

/-- A group up to the tag behind it. -/
theorem lazyGroup_tag (hs : ¬ tag.text <:+: s) (rest : List Char) :
    lazyGroup (literal tag.text) (s ++ (tag.text ++ rest)) = some (s, rest) := by
  rw [lazyGroup_append (fun i hi => match_eq_none
    (Tag.not_prefix_drop hs (tagFirst_text tag rest) hi)) (literal_text tag rest), List.drop_left]

theorem after_text (pattern : Pattern) (rest : List Char) :
    after tag.text pattern (tag.text ++ rest) = pattern rest := by
  unfold after
  rw [if_pos (List.isPrefixOf_iff_prefix.mpr (List.prefix_append _ _)), List.drop_left]

/-- No match starts in a text without the tag that it starts with. -/
theorem findall_skip {pattern : Pattern} (hs : ¬ tag.text <:+: s) (hrest : TagFirst rest) :
    findall (after tag.text pattern) (s ++ rest) = findall (after tag.text pattern) rest :=
  findall_append fun _ hi => match_eq_none (Tag.not_prefix_drop hs hrest hi)

theorem findall_tag_nil {pattern : Pattern} : findall (after tag.text pattern) [] = [] := by
  refine findall_nil (match_eq_none fun hpre => ?_)
  obtain ⟨body, hbody, -⟩ := tag.exists_body
  rw [List.prefix_nil.mp hpre] at hbody
  cases hbody

theorem tag_ne_nil (tag : Tag) : tag.text ≠ [] := by
  cases tag <;> decide

theorem shrinks_toolCallRegex : Shrinks toolCallRegex :=
  shrinks_after (tag_ne_nil _) (shortens_orElse (shortens_lazyGroup _) (shortens_lazyGroup _))

theorem shrinks_toolCallFunctionRegex : Shrinks toolCallFunctionRegex :=
  shrinks_after (tag_ne_nil _) (shortens_orElse (shortens_lazyGroup _) shortens_greedyRest)

theorem shrinks_toolCallParameterRegex : Shrinks toolCallParameterRegex :=
  shrinks_after (tag_ne_nil _) (shortens_lazyGroup _)

/-! ## Rendered messages -/

/-- A parameter with a name without angle brackets and a value without tags. -/
structure ParamText where
  name : List Char
  value : List Char
  name_ok : '<' ∉ name ∧ '>' ∉ name
  value_ok : ∀ tag : Tag, ¬ tag.text <:+: value

namespace ParamText

variable (param : ParamText)

def body : List Char := param.name ++ '>' :: param.value

/-- `<parameter=P>value</parameter>`. -/
def render : List Char := Tag.parameterPrefix.text ++ (param.body ++ Tag.parameterEnd.text)

end ParamText

/-- A call of a function with a name without angle brackets. -/
structure CallText where
  name : List Char
  params : List ParamText
  name_ok : '<' ∉ name ∧ '>' ∉ name

namespace CallText

variable (call : CallText)

/-- The parameters one behind the other. -/
def parameters : List Char := call.params.flatMap ParamText.render

def body : List Char := call.name ++ '>' :: call.parameters

/-- `<function=NAME>...</function>`. -/
def inner : List Char := Tag.toolCallPrefix.text ++ (call.body ++ Tag.functionEnd.text)

/-- `<tool_call>...</tool_call>`. -/
def render : List Char := Tag.toolCallStart.text ++ (call.inner ++ Tag.toolCallEnd.text)

end CallText

/-- A text and the blocks behind it. -/
structure Message where
  text : List Char
  calls : List CallText
  text_ok : ¬ Tag.toolCallStart.text <:+: text

/-- The output of the model. -/
def Message.render (message : Message) : List Char :=
  message.text ++ message.calls.flatMap CallText.render

/-! ## What the patterns find -/

theorem notMem_name_close {name : List Char} (h : '<' ∉ name) : '<' ∉ name ++ ['>'] := by
  rw [List.mem_append, not_or]
  exact ⟨h, by decide⟩

namespace ParamText

variable {param : ParamText}

/-- A parameter has no tag in its body. -/
theorem not_infix_body (tag : Tag) : ¬ tag.text <:+: param.body := by
  unfold body
  rw [List.append_cons, Tag.infix_append (notMem_name_close param.name_ok.1)]
  exact param.value_ok tag

theorem infix_render (hpre : tag ≠ .parameterPrefix) (hend : tag ≠ .parameterEnd) :
    tag.text <:+: param.render ++ rest ↔ tag.text <:+: rest := by
  unfold render
  rw [List.append_assoc, List.append_assoc, Tag.infix_tag hpre,
    Tag.infix_append_tagFirst (not_infix_body tag) (tagFirst_text _ _), Tag.infix_tag hend]

/-- The body of a parameter ends at its closing tag. -/
theorem toolCallParameterRegex_render (rest : List Char) :
    toolCallParameterRegex (param.render ++ rest) = some (param.body, rest) := by
  unfold render toolCallParameterRegex
  rw [List.append_assoc, after_text, List.append_assoc]
  refine (lazyGroup_append (n := Tag.parameterEnd.text.length) (fun i hi => ?_) ?_).trans ?_
  · have hnot : ∀ tag : Tag, ¬ tag.text <+:
        (param.body ++ (Tag.parameterEnd.text ++ rest)).drop i := fun tag =>
      Tag.not_prefix_drop (not_infix_body tag) (tagFirst_text _ _) hi
    have hend : endOfText ((param.body ++ (Tag.parameterEnd.text ++ rest)).drop i) = none := by
      have hlength : 3 ≤ ((param.body ++ (Tag.parameterEnd.text ++ rest)).drop i).length := by
        have hthree := Tag.parameterEnd.three_le_length
        rw [List.length_drop, List.length_append, List.length_append]
        omega
      refine if_neg fun h => ?_
      obtain h | h := h <;> rw [h] at hlength <;> exact absurd hlength (by decide)
    unfold either literal lookahead
    rw [match_eq_none (hnot _), match_eq_none (hnot _), match_eq_none (hnot _), hend]
    rfl
  · unfold either
    rw [literal_text]
    rfl
  · rw [List.drop_left]

end ParamText

namespace CallText

variable {call : CallText}

theorem infix_parameters (hpre : tag ≠ .parameterPrefix) (hend : tag ≠ .parameterEnd)
    (params : List ParamText) :
    tag.text <:+: params.flatMap ParamText.render ++ rest ↔ tag.text <:+: rest := by
  induction params with
  | nil => exact Iff.rfl
  | cons param params ih =>
    rw [List.flatMap_cons, List.append_assoc, ParamText.infix_render hpre hend, ih]

theorem infix_body (hpre : tag ≠ .parameterPrefix) (hend : tag ≠ .parameterEnd) :
    tag.text <:+: call.body ++ rest ↔ tag.text <:+: rest := by
  unfold body parameters
  rw [List.append_cons, List.append_assoc, Tag.infix_append (notMem_name_close call.name_ok.1),
    infix_parameters hpre hend]

theorem not_infix_nil (tag : Tag) : ¬ tag.text <:+: [] := fun h =>
  tag_ne_nil tag (List.infix_nil.mp h)

theorem not_infix_body (hpre : tag ≠ .parameterPrefix) (hend : tag ≠ .parameterEnd) :
    ¬ tag.text <:+: call.body := by
  rw [← List.append_nil call.body, infix_body hpre hend]
  exact not_infix_nil tag

theorem not_infix_inner : ¬ Tag.toolCallEnd.text <:+: call.inner := by
  unfold inner
  rw [Tag.infix_tag (by decide), infix_body (by decide) (by decide),
    ← List.append_nil Tag.functionEnd.text, Tag.infix_tag (by decide)]
  exact not_infix_nil _

theorem findall_parameters (params : List ParamText) :
    findall toolCallParameterRegex (params.flatMap ParamText.render) = params.map ParamText.body := by
  induction params with
  | nil => exact findall_tag_nil
  | cons param params ih =>
    rw [List.flatMap_cons, findall_match shrinks_toolCallParameterRegex
      (ParamText.toolCallParameterRegex_render _), ih, List.map_cons]

/-- A block has one function. -/
theorem findall_inner : findall toolCallFunctionRegex call.inner = [call.body] := by
  have hmatch : toolCallFunctionRegex call.inner = some (call.body, []) := by
    have hlazy : lazyGroup (literal Tag.functionEnd.text)
        (call.body ++ (Tag.functionEnd.text ++ [])) = some (call.body, []) :=
      lazyGroup_tag (not_infix_body (by decide) (by decide)) []
    rw [List.append_nil] at hlazy
    unfold toolCallFunctionRegex inner orElse
    rw [after_text, hlazy]
    rfl
  rw [findall_match shrinks_toolCallFunctionRegex hmatch]
  exact congrArg _ findall_tag_nil

theorem toolCallRegex_render (rest : List Char) :
    toolCallRegex (call.render ++ rest) = some (call.inner, rest) := by
  unfold toolCallRegex render orElse
  rw [List.append_assoc, after_text, List.append_assoc, lazyGroup_tag not_infix_inner]
  rfl

theorem findall_calls (calls : List CallText) :
    findall toolCallRegex (calls.flatMap render) = calls.map inner := by
  induction calls with
  | nil => exact findall_tag_nil
  | cons call calls ih =>
    rw [List.flatMap_cons, findall_match shrinks_toolCallRegex (toolCallRegex_render _), ih,
      List.map_cons]

end CallText

namespace Message

variable {message : Message}

theorem tagFirst_calls (calls : List CallText) : TagFirst (calls.flatMap CallText.render) := by
  cases calls with
  | nil => exact .inl rfl
  | cons call calls =>
    rw [List.flatMap_cons]
    unfold CallText.render
    rw [List.append_assoc]
    exact tagFirst_text _ _

/-- The blocks of a message, behind its text. -/
theorem findall_render : findall toolCallRegex message.render = message.calls.map CallText.inner :=
  (findall_skip message.text_ok (tagFirst_calls message.calls)).trans
    (CallText.findall_calls message.calls)

/-- The parser finds one function call for each block. -/
theorem getFunctionCalls_render (hcalls : message.calls ≠ []) :
    getFunctionCalls message.render = message.calls.map CallText.body := by
  have hne : message.calls.map CallText.inner ≠ [] := fun h => hcalls (List.map_eq_nil_iff.mp h)
  unfold getFunctionCalls
  dsimp only
  rw [findall_render, if_neg hne, List.flatMap_map, List.map_eq_flatMap]
  exact List.flatMap_congr fun call _ => CallText.findall_inner

end Message

end Ikun.Serving
