import Ikun.Lib.Dict
import Ikun.Lib.PyJson
import Ikun.Lib.PyRegex

/-!
# Tool calls of the Qwen3 coder format

`Qwen3CoderToolParser.extract_tool_calls` finds the blocks of a message, converts the value of each
parameter by the type in the tool schema and writes the arguments of each call as JSON. An exception in
any block drops the calls of the whole message.

The parsers that the conversion calls are those of the Python standard library; they are a parameter with
the facts that their documentation states. The texts compared in lower case are ASCII words, so that only
ASCII letters matter there.
-/

namespace Ikun.Serving

open PyStr PyRegex PyJson Except

/-! ## Tags -/

/-- The tags of the format. -/
inductive Tag
  | toolCallStart
  | toolCallEnd
  | toolCallPrefix
  | functionEnd
  | parameterPrefix
  | parameterEnd
  deriving DecidableEq

/-- `self.tool_call_start_token` and so on. -/
def Tag.text : Tag → List Char
  | toolCallStart => ['<', 't', 'o', 'o', 'l', '_', 'c', 'a', 'l', 'l', '>']
  | toolCallEnd => ['<', '/', 't', 'o', 'o', 'l', '_', 'c', 'a', 'l', 'l', '>']
  | toolCallPrefix => ['<', 'f', 'u', 'n', 'c', 't', 'i', 'o', 'n', '=']
  | functionEnd => ['<', '/', 'f', 'u', 'n', 'c', 't', 'i', 'o', 'n', '>']
  | parameterPrefix => ['<', 'p', 'a', 'r', 'a', 'm', 'e', 't', 'e', 'r', '=']
  | parameterEnd => ['<', '/', 'p', 'a', 'r', 'a', 'm', 'e', 't', 'e', 'r', '>']

/-- `self.tool_call_regex`. -/
def toolCallRegex : Pattern :=
  after Tag.toolCallStart.text
    (orElse (lazyGroup (literal Tag.toolCallEnd.text)) (lazyGroup endOfText))

/-- `self.tool_call_function_regex`. -/
def toolCallFunctionRegex : Pattern :=
  after Tag.toolCallPrefix.text (orElse (lazyGroup (literal Tag.functionEnd.text)) greedyRest)

/-- `self.tool_call_parameter_regex`. -/
def toolCallParameterRegex : Pattern :=
  after Tag.parameterPrefix.text (lazyGroup
    (either (literal Tag.parameterEnd.text) (either (lookahead Tag.parameterPrefix.text)
      (either (lookahead Tag.functionEnd.text) endOfText))))

/-! ## The tools of a request -/

/-- The schema of the parameters by name. A schema has a `type` when it is a dictionary with one. -/
abbrev ParamConfig := Dict (List Char) (Option (List Char))

/-- `config.function.parameters`. -/
inductive ToolParameters
  | notDict
  | withProperties (properties : ParamConfig)
  | withoutProperties (items : ParamConfig)

/-- A `ChatCompletionToolsParam`. -/
structure ToolsParam where
  type : List Char
  name : List Char
  parameters : ToolParameters

/-- `_get_arguments_config`. -/
def getArgumentsConfig (funcName : List Char) (tools : Option (List ToolsParam)) : ParamConfig :=
  match (tools.getD []).find? fun config => config.type = "function".toList ∧ config.name = funcName with
  | none => .empty
  | some config =>
    match config.parameters with
    | .withProperties properties => properties
    | .withoutProperties items => items
    | .notDict => .empty

/-! ## Values -/

/-- The Python functions that the conversion calls. A function without an exception of its own in the
result raises `ValueError` only. -/
structure PyLib where
  /-- `int(s)`. -/
  int : List Char → Option ℤ
  /-- `float(s)`. -/
  float : List Char → Option PyFloat
  /-- `json.loads(s)`. -/
  jsonLoads : List Char → Except PyErr PyValue
  /-- `ast.literal_eval(s)`. -/
  literalEval : List Char → Except PyErr PyValue
  /-- `sys.get_int_max_str_digits()`, where zero is no limit. -/
  intMaxStrDigits : ℕ
  /-- The nesting that `json.dumps` writes without a `RecursionError`. -/
  maxDepth : ℕ
  limit_eq : intMaxStrDigits = 0 ∨ 640 ≤ intMaxStrDigits
  maxDepth_pos : 1 ≤ maxDepth
  /-- The limit holds for the conversion from a string as well. -/
  fits_int : ∀ s n, int s = some n → FitsDigits intMaxStrDigits n
  /-- A finite `float` is at most the largest one in absolute value. -/
  abs_float_lt : ∀ s value repr, float s = some (.finite value repr) → |value| < 2 ^ 1024

/-- What `_convert_param_value` does with a type. -/
inductive ParamKind
  | string
  | integer
  | number
  | boolean
  | container
  | other
  deriving DecidableEq

/-- `s.lower()`, for a comparison with ASCII words. -/
def lower (s : List Char) : List Char := s.map Char.toLower

/-- The tests on `param_type` in `_convert_param_value`. -/
def paramKind (paramType : List Char) : ParamKind :=
  let startsWithAny (words : List String) : Bool := words.any fun word => word.toList.isPrefixOf paramType
  let isAny (words : List String) : Bool := words.any fun word => word.toList = paramType
  if isAny ["string", "str", "text", "varchar", "char", "enum"] then .string
  else if startsWithAny ["int", "uint", "long", "short", "unsigned"] then .integer
  else if startsWithAny ["num", "float"] then .number
  else if isAny ["boolean", "bool", "binary"] then .boolean
  else if isAny ["object", "array", "arr"] || startsWithAny ["dict", "list"] then .container
  else .other

/-- The declared kind of a parameter, if it is declared. -/
def declaredKind (paramName : List Char) (paramConfig : ParamConfig) : Option ParamKind :=
  (paramConfig.get? paramName).map fun schema =>
    paramKind (match schema with
      | some type => lower (strip type)
      | none => "string".toList)

/-- `int(v) if v - int(v) == 0 else v`, where a `ValueError` gives the text. -/
def convertNumber (paramValue : List Char) : PyFloat → Except PyErr PyValue
  | .nan => return .str paramValue
  | .infinity _ => throw .overflowError
  | .finite value repr =>
    let truncated := value.num.tdiv value.den
    if value - truncated = 0 then return .int truncated else return .float (.finite value repr)

/-- `ast.literal_eval` with the text where it raises. -/
def literalOrText (py : PyLib) (paramValue : List Char) : Except PyErr PyValue :=
  match py.literalEval paramValue with
  | .ok value => return value
  | .error e =>
    if e ∈ [PyErr.valueError, .syntaxError, .typeError] then return .str paramValue else throw e

/-- `_convert_param_value`. -/
def convertParamValue (py : PyLib) (paramValue paramName : List Char) (paramConfig : ParamConfig) :
    Except PyErr PyValue :=
  if lower paramValue = "null".toList then return .null
  else
    match declaredKind paramName paramConfig with
    | none => return .str paramValue
    | some .string => return .str paramValue
    | some .integer => return ((py.int paramValue).map PyValue.int).getD (.str paramValue)
    | some .number =>
      match py.float paramValue with
      | none => return .str paramValue
      | some v => convertNumber paramValue v
    | some .boolean => return .bool (lower paramValue = "true".toList)
    | some .container =>
      match py.jsonLoads paramValue with
      | .ok value => return value
      | .error e =>
        if e ∈ [PyErr.valueError, .typeError] then literalOrText py paramValue else throw e
    | some .other => literalOrText py paramValue

/-! ## Calls -/

/-- A `FunctionCall`. -/
structure FunctionCall where
  name : List Char
  arguments : List Char
  deriving DecidableEq

/-- An `ExtractedToolCallInformation`. -/
structure ExtractedToolCallInformation where
  toolsCalled : Bool
  toolCalls : List FunctionCall
  content : Option (List Char)
  deriving DecidableEq

/-- `s.index(">")`. -/
def indexOfClose (s : List Char) : Except PyErr ℕ :=
  match find? ['>'] s with
  | some i => return i
  | none => throw .valueError

/-- A parameter's value without a newline at each end. -/
def trimNewlines (paramValue : List Char) : List Char :=
  let paramValue := if paramValue.head? = some '\n' then paramValue.tail else paramValue
  if paramValue.getLast? = some '\n' then paramValue.dropLast else paramValue

/-- A round of the loop in `_parse_xml_function_call`. -/
def addParameter (py : PyLib) (paramConfig : ParamConfig) (paramDict : Dict (List Char) PyValue)
    (matchText : List Char) : Except PyErr (Dict (List Char) PyValue) := do
  let idx ← indexOfClose matchText
  let paramName := matchText.take idx
  let paramValue := trimNewlines (matchText.drop (idx + 1))
  return paramDict.set paramName (← convertParamValue py paramValue paramName paramConfig)

/-- `_parse_xml_function_call`. -/
def parseXmlFunctionCall (py : PyLib) (functionCallStr : List Char)
    (tools : Option (List ToolsParam)) : Except PyErr FunctionCall := do
  let endIndex ← indexOfClose functionCallStr
  let functionName := functionCallStr.take endIndex
  let paramConfig := getArgumentsConfig functionName tools
  let parameters := functionCallStr.drop (endIndex + 1)
  let paramDict ← (findall toolCallParameterRegex parameters).foldlM (addParameter py paramConfig) .empty
  let arguments ← dumps py.intMaxStrDigits py.maxDepth (.dict (.ofList paramDict.items))
  return ⟨functionName, arguments⟩

/-- `_get_function_calls`. -/
def getFunctionCalls (modelOutput : List Char) : List (List Char) :=
  let rawToolCalls := findall toolCallRegex modelOutput
  let rawToolCalls := if rawToolCalls = [] then [modelOutput] else rawToolCalls
  rawToolCalls.flatMap (findall toolCallFunctionRegex)

/-- `extract_tool_calls`: its result and `prev_tool_call_arr`. -/
def extractToolCalls (py : PyLib) (prevToolCallArr : List FunctionCall) (modelOutput : List Char)
    (tools : Option (List ToolsParam)) : ExtractedToolCallInformation × List FunctionCall :=
  if ¬ contains modelOutput Tag.toolCallPrefix.text then (⟨false, [], some modelOutput⟩, prevToolCallArr)
  else
    let functionCalls := getFunctionCalls modelOutput
    if functionCalls = [] then (⟨false, [], some modelOutput⟩, prevToolCallArr)
    else
      match functionCalls.mapM fun fc => parseXmlFunctionCall py fc tools with
      | .error _ => (⟨false, [], some modelOutput⟩, prevToolCallArr)
      | .ok toolCalls =>
        let contentIndex := find modelOutput Tag.toolCallStart.text
        let contentIndex :=
          if 0 ≤ contentIndex then contentIndex else find modelOutput Tag.toolCallPrefix.text
        let content := sliceTo modelOutput contentIndex
        (⟨toolCalls ≠ [], toolCalls, if content = [] then none else some content⟩, toolCalls)

end Ikun.Serving
