import Ikun.Lib.PyStr

/-!
# The Qwen3 reasoning parser

`Qwen3ReasoningParser` splits the output of the model into reasoning and content, either the whole
text at once or, for a stream, delta by delta. The streaming method decides by the token ids, the
other one by the strings of the tags.

A text is a list of characters, a token id is a number with a text of its own.
-/

namespace Ikun.Serving

open PyStr

/-- `self.think_start_token`. -/
def thinkStartToken : List Char := ['<', 't', 'h', 'i', 'n', 'k', '>']

/-- `self.think_end_token`. -/
def thinkEndToken : List Char := ['<', '/', 't', 'h', 'i', 'n', 'k', '>']

/-- The texts of the token ids. Each tag has a token id of its own. -/
structure ReasoningVocab where
  text : ℕ → List Char
  thinkStartTokenId : ℕ
  thinkEndTokenId : ℕ
  text_start : text thinkStartTokenId = thinkStartToken
  text_end : text thinkEndTokenId = thinkEndToken

/-- The fields of a `DeltaMessage` that the reasoning parser fills. -/
structure ReasoningDelta where
  reasoningContent : Option (List Char) := none
  content : Option (List Char) := none
  deriving DecidableEq

/-- The reasoning that a message carries. -/
def reasoningText (message : Option ReasoningDelta) : List Char :=
  (message.bind (·.reasoningContent)).getD []

/-- The content that a message carries. -/
def contentText (message : Option ReasoningDelta) : List Char :=
  (message.bind (·.content)).getD []

/-- `s if s else None`. -/
def orNone (s : List Char) : Option (List Char) := if s = [] then none else some s

namespace ReasoningVocab

variable (v : ReasoningVocab)

/-- `extract_reasoning_content_streaming`. It reads the delta and the ids of the previous tokens. -/
def extractReasoningContentStreaming (deltaText : List Char)
    (previousTokenIds deltaTokenIds : List ℕ) : Option ReasoningDelta :=
  if deltaTokenIds.length = 1 ∧
      (deltaTokenIds.head? = some v.thinkStartTokenId ∨
        deltaTokenIds.head? = some v.thinkEndTokenId) then none
  else if v.thinkStartTokenId ∈ previousTokenIds then
    if v.thinkEndTokenId ∈ deltaTokenIds then
      let endIndex := find deltaText thinkEndToken
      let content := sliceFrom deltaText (endIndex + thinkEndToken.length)
      some { reasoningContent := some (sliceTo deltaText endIndex), content := orNone content }
    else if v.thinkEndTokenId ∈ previousTokenIds then
      some { content := some deltaText }
    else
      some { reasoningContent := some deltaText }
  else if v.thinkStartTokenId ∈ deltaTokenIds then
    if v.thinkEndTokenId ∈ deltaTokenIds then
      let startIndex := find deltaText thinkStartToken
      let endIndex := find deltaText thinkEndToken
      let content := sliceFrom deltaText (endIndex + thinkEndToken.length)
      some {
        reasoningContent := some (slice deltaText (startIndex + thinkStartToken.length) endIndex)
        content := orNone content }
    else
      some { reasoningContent := some deltaText }
  else if v.thinkEndTokenId ∈ previousTokenIds then
    some { content := some deltaText }
  else if v.thinkEndTokenId ∈ deltaTokenIds then
    let endIndex := find deltaText thinkEndToken
    let content := sliceFrom deltaText (endIndex + thinkEndToken.length)
    some { reasoningContent := orNone (sliceTo deltaText endIndex), content := orNone content }
  else
    some { reasoningContent := some deltaText }

/-- `extract_reasoning_content`. The request only matters by its `enable_thinking`. -/
def extractReasoningContent (modelOutput : List Char) (enableThinking : Bool) :
    Option (List Char) × Option (List Char) :=
  if contains modelOutput thinkStartToken ∧ contains modelOutput thinkEndToken then
    let parts := partition modelOutput thinkStartToken
    let modelOutput := if parts.2.1 ≠ [] then parts.2.2 else parts.1
    let split := partition modelOutput thinkEndToken
    (some split.1, orNone split.2.2)
  else if contains modelOutput thinkEndToken then
    let split := partition modelOutput thinkEndToken
    let reasoningContent := if ['\n'].isPrefixOf split.1 then split.1.drop 1 else split.1
    (orNone reasoningContent, orNone (strip split.2.2))
  else if contains modelOutput thinkStartToken then
    (orNone (strip (partition modelOutput thinkStartToken).2.2), none)
  else if enableThinking then
    (orNone (strip modelOutput), none)
  else
    (none, some modelOutput)

/-- The text of some tokens. -/
def detokenize (tokens : List ℕ) : List Char := tokens.flatMap v.text

/-- The concatenated reasoning and the concatenated content of the deltas of a stream. -/
def streamAll : List ℕ → List (List ℕ) → List Char × List Char
  | _, [] => ([], [])
  | previousTokenIds, delta :: deltas =>
    let message := v.extractReasoningContentStreaming (v.detokenize delta) previousTokenIds delta
    let rest := streamAll (previousTokenIds ++ delta) deltas
    (reasoningText message ++ rest.1, contentText message ++ rest.2)

end ReasoningVocab

end Ikun.Serving
