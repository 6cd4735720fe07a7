import Mathlib.Algebra.Order.Field.Rat
import Mathlib.Algebra.Order.Ring.Abs
import Ikun.Serving.ToolCallTexts

/-!
# Extraction of well-formed tool calls

`extractToolCalls_iff` says when the parser returns all calls of a well-formed message with arguments that
are JSON: when there is a call, no exception leaves the conversion of a value, and the values have a JSON
text. A value of type `number` that reads as an infinity raises, a value of another type may read as a
Python value that JSON does not have, and each of them drops all calls of the message or writes `NaN` or
`Infinity` into the arguments.
-/

namespace Ikun.Serving

open PyStr PyRegex PyJson Rfc8259 Except

variable {py : PyLib} {value : List Char}

/-! ## Values that convert -/

/-- `ast.literal_eval` returns or raises an exception that the conversion catches. -/
def LiteralReads (py : PyLib) (value : List Char) : Prop :=
  ∀ e, py.literalEval value = .error e → e ∈ [PyErr.valueError, .syntaxError, .typeError]

/-- `json.dumps` writes the value of a parameter as JSON. -/
def Writable (py : PyLib) (x : PyValue) : Prop :=
  x.depth < py.maxDepth ∧ x.Representable py.intMaxStrDigits

def LiteralWritable (py : PyLib) (value : List Char) : Prop :=
  ∀ x, py.literalEval value = .ok x → Writable py x

/-- No exception leaves the conversion of a value of this kind. -/
def KindReads (py : PyLib) (value : List Char) : Option ParamKind → Prop
  | some .number => ∀ negative, py.float value ≠ some (.infinity negative)
  | some .container =>
    match py.jsonLoads value with
    | .ok _ => True
    | .error e => e ∈ [PyErr.valueError, .typeError] ∧ LiteralReads py value
  | some .other => LiteralReads py value
  | _ => True

/-- A value of this kind reads as one with a JSON text. -/
def KindWritable (py : PyLib) (value : List Char) : Option ParamKind → Prop
  | some .container =>
    match py.jsonLoads value with
    | .ok x => Writable py x
    | .error _ => LiteralWritable py value
  | some .other => LiteralWritable py value
  | _ => True

def IsNull (value : List Char) : Prop := lower value = "null".toList

/-- The text of a parameter's value without the newlines around it. -/
def ParamText.text (param : ParamText) : List Char := trimNewlines param.value

/-- No exception leaves the conversion of the parameter. -/
def ParamText.Reads (param : ParamText) (py : PyLib) (paramConfig : ParamConfig) : Prop :=
  IsNull param.text ∨ KindReads py param.text (declaredKind param.name paramConfig)

/-- The parameter reads as a value with a JSON text. -/
def ParamText.Writable (param : ParamText) (py : PyLib) (paramConfig : ParamConfig) : Prop :=
  IsNull param.text ∨ KindWritable py param.text (declaredKind param.name paramConfig)

/-- The last parameter with a name. -/
def CallText.last? (call : CallText) (name : List Char) : Option ParamText :=
  call.params.reverse.find? fun param => param.name = name

/-- All parameters read, and the last one of each name has a JSON text. -/
structure CallText.Converts (call : CallText) (py : PyLib) (paramConfig : ParamConfig) : Prop where
  reads : ∀ param ∈ call.params, param.Reads py paramConfig
  writable : ∀ name param, call.last? name = some param → param.Writable py paramConfig

/-! ## The conversion -/

theorem writable_scalar {x : PyValue} (hdepth : x.depth = 0)
    (h : x.Representable py.intMaxStrDigits) : Writable py x :=
  ⟨hdepth.trans_lt py.maxDepth_pos, h⟩

theorem writable_str (s : List Char) : Writable py (.str s) := writable_scalar rfl trivial

theorem two_pow_le_ten_pow {m n : ℕ} (h : m ≤ 3 * n) : 2 ^ m ≤ 10 ^ n := by
  calc 2 ^ m ≤ 2 ^ (3 * n) := Nat.pow_le_pow_right Nat.two_pos h
    _ = 8 ^ n := Nat.pow_mul 2 3 n
    _ ≤ 10 ^ n := Nat.pow_le_pow_left (by decide) n

/-- The integer part of a finite float has few digits. -/
theorem fits_truncated {x : ℚ} (hx : |x| < 2 ^ 1024) :
    FitsDigits py.intMaxStrDigits (x.num.tdiv x.den) := by
  have hnum : x.num.natAbs < x.den * 2 ^ 1024 := by
    have hden : (0 : ℚ) < x.den := Nat.cast_pos.mpr x.den_pos
    have habs : ((x.num.natAbs : ℕ) : ℚ) = |x| * x.den := by
      rw [Nat.cast_natAbs, Int.cast_abs, ← Rat.mul_den_eq_num, abs_mul, abs_of_pos hden]
    have hlt : ((x.num.natAbs : ℕ) : ℚ) < 2 ^ 1024 * x.den :=
      habs.trans_lt (mul_lt_mul_of_pos_right hx hden)
    rw [mul_comm] at hlt
    exact_mod_cast hlt
  have htruncated : (x.num.tdiv x.den).natAbs < 10 ^ 640 := by
    rw [Int.natAbs_tdiv, Int.natAbs_natCast]
    exact (Nat.div_lt_of_lt_mul hnum).trans_le (two_pow_le_ten_pow (by decide))
  exact py.limit_eq.imp_right ((Nat.digits_length_le_iff (by decide) _).mpr htruncated).trans

theorem catch_eq_ok {caught : List PyErr} {e : PyErr} {x y : PyValue} :
    (if e ∈ caught then pure x else throw e : Except PyErr PyValue) = .ok y ↔ e ∈ caught ∧ x = y := by
  split
  · next h => exact ⟨fun heq => ⟨h, Except.ok.inj heq⟩, fun heq => congrArg Except.ok heq.2⟩
  · next h => exact iff_of_false nofun fun heq => h heq.1

theorem literalOrText_eq_ok {x : PyValue} : literalOrText py value = .ok x ↔
    py.literalEval value = .ok x ∨ ∃ e ∈ [PyErr.valueError, .syntaxError, .typeError],
      py.literalEval value = .error e ∧ .str value = x := by
  unfold literalOrText
  cases py.literalEval value with
  | ok y => simp [pure, Except.pure]
  | error e =>
    refine catch_eq_ok.trans ⟨fun h => .inr ⟨e, h.1, rfl, h.2⟩, fun h => ?_⟩
    obtain h | ⟨e', he', heq, hx⟩ := h
    · cases h
    · obtain rfl := Except.error.inj heq
      exact ⟨he', hx⟩

theorem literalOrText_ok : (∃ x, literalOrText py value = .ok x) ↔ LiteralReads py value := by
  simp only [literalOrText_eq_ok]
  constructor
  · rintro ⟨x, hx | ⟨e, he, heq, -⟩⟩ e' he'
    · rw [hx] at he'
      cases he'
    · obtain rfl := Except.error.inj (heq.symm.trans he')
      exact he
  · intro h
    cases hliteral : py.literalEval value with
    | ok x => exact ⟨x, .inl rfl⟩
    | error e => exact ⟨_, .inr ⟨e, h e hliteral, rfl, rfl⟩⟩

theorem literalOrText_writable {x : PyValue} (h : literalOrText py value = .ok x) :
    Writable py x ↔ LiteralWritable py value := by
  obtain h | ⟨e, -, heq, rfl⟩ := literalOrText_eq_ok.mp h
  · refine ⟨fun hx y hy => ?_, fun hall => hall x h⟩
    obtain rfl := Except.ok.inj (h.symm.trans hy)
    exact hx
  · refine iff_of_true (writable_str value) fun y hy => ?_
    rw [heq] at hy
    cases hy

theorem convertNumber_ok {v : PyFloat} :
    (∃ x, convertNumber value v = .ok x) ↔ ∀ negative, v ≠ .infinity negative := by
  cases v with
  | nan => exact iff_of_true ⟨_, rfl⟩ nofun
  | infinity negative => exact iff_of_false (fun ⟨x, hx⟩ => nomatch hx) fun h => h negative rfl
  | finite x repr =>
    refine iff_of_true ?_ nofun
    unfold convertNumber
    dsimp only
    split <;> exact ⟨_, rfl⟩

theorem convertNumber_writable {v : PyFloat} {x : PyValue}
    (hv : ∀ y repr, v = .finite y repr → |y| < 2 ^ 1024) (h : convertNumber value v = .ok x) :
    Writable py x := by
  cases v with
  | nan =>
    obtain rfl := Except.ok.inj h
    exact writable_str value
  | infinity negative => cases h
  | finite y repr =>
    unfold convertNumber at h
    dsimp only at h
    split at h
    · obtain rfl := Except.ok.inj h
      exact writable_scalar rfl (fits_truncated (hv y repr rfl))
    · obtain rfl := Except.ok.inj h
      exact writable_scalar rfl trivial

/-- The conversion returns a value exactly when no exception leaves it. -/
theorem convertParamValue_ok {name : List Char} {paramConfig : ParamConfig} :
    (∃ x, convertParamValue py value name paramConfig = .ok x) ↔
      IsNull value ∨ KindReads py value (declaredKind name paramConfig) := by
  unfold convertParamValue
  cases Decidable.em (lower value = "null".toList) with
  | inl hnull =>
    rw [if_pos hnull]
    exact iff_of_true ⟨_, rfl⟩ (.inl hnull)
  | inr hnull =>
    rw [if_neg hnull, or_iff_right (show ¬ IsNull value from hnull)]
    cases declaredKind name paramConfig with
    | none => exact iff_of_true ⟨_, rfl⟩ trivial
    | some kind =>
      cases kind with
      | string => exact iff_of_true ⟨_, rfl⟩ trivial
      | integer => exact iff_of_true ⟨_, rfl⟩ trivial
      | boolean => exact iff_of_true ⟨_, rfl⟩ trivial
      | other => exact literalOrText_ok
      | number =>
        dsimp only [KindReads]
        cases py.float value with
        | none => exact iff_of_true ⟨_, rfl⟩ nofun
        | some v =>
          refine convertNumber_ok.trans (forall_congr' fun negative => ?_)
          exact not_congr ⟨congrArg some, Option.some.inj⟩
      | container =>
        dsimp only [KindReads]
        cases py.jsonLoads value with
        | ok x => exact iff_of_true ⟨x, rfl⟩ trivial
        | error e =>
          dsimp only
          cases Decidable.em (e ∈ [PyErr.valueError, .typeError]) with
          | inl he =>
            rw [if_pos he]
            exact literalOrText_ok.trans (and_iff_right he).symm
          | inr he =>
            rw [if_neg he]
            exact iff_of_false (fun ⟨x, hx⟩ => nomatch hx) fun h => he h.1

/-- The value that the conversion returns has a JSON text when what the text reads as has one. -/
theorem convertParamValue_writable {name : List Char} {paramConfig : ParamConfig} {x : PyValue}
    (h : convertParamValue py value name paramConfig = .ok x) :
    Writable py x ↔ IsNull value ∨ KindWritable py value (declaredKind name paramConfig) := by
  unfold convertParamValue at h
  cases Decidable.em (lower value = "null".toList) with
  | inl hnull =>
    rw [if_pos hnull] at h
    obtain rfl := Except.ok.inj h
    exact iff_of_true (writable_scalar rfl trivial) (.inl hnull)
  | inr hnull =>
    rw [if_neg hnull] at h
    rw [or_iff_right (show ¬ IsNull value from hnull)]
    cases hkind : declaredKind name paramConfig with
    | none =>
      rw [hkind] at h
      obtain rfl := Except.ok.inj h
      exact iff_of_true (writable_str value) trivial
    | some kind =>
      rw [hkind] at h
      cases kind with
      | string =>
        obtain rfl := Except.ok.inj h
        exact iff_of_true (writable_str value) trivial
      | integer =>
        refine iff_of_true ?_ trivial
        obtain rfl := Except.ok.inj h
        cases hint : py.int value with
        | none => exact writable_str value
        | some n => exact writable_scalar rfl (py.fits_int value n hint)
      | boolean =>
        obtain rfl := Except.ok.inj h
        exact iff_of_true (writable_scalar rfl trivial) trivial
      | other => exact literalOrText_writable h
      | number =>
        refine iff_of_true ?_ trivial
        dsimp only at h
        cases hfloat : py.float value with
        | none =>
          rw [hfloat] at h
          obtain rfl := Except.ok.inj h
          exact writable_str value
        | some v =>
          rw [hfloat] at h
          exact convertNumber_writable (fun y repr hy => py.abs_float_lt value y repr (hy ▸ hfloat)) h
      | container =>
        dsimp only [KindWritable] at h ⊢
        cases hjson : py.jsonLoads value with
        | ok y =>
          rw [hjson] at h
          obtain rfl := Except.ok.inj h
          exact Iff.rfl
        | error e =>
          rw [hjson] at h
          dsimp only at h
          split at h
          · exact literalOrText_writable h
          · cases h

/-! ## A call -/

theorem indexOfClose_append {name : List Char} (h : '>' ∉ name) (rest : List Char) :
    indexOfClose (name ++ '>' :: rest) = .ok name.length := by
  have hfind : find? ['>'] (name ++ ['>'] ++ rest) = some name.length :=
    find?_append_self List.not_mem_nil (fun hin =>
      h (hin.subset List.mem_cons_self)) rest
  rw [List.append_assoc] at hfind
  unfold indexOfClose
  rw [List.singleton_append] at hfind
  rw [hfind]
  rfl

/-- A round of the loop stores the converted value. -/
theorem addParameter_body (param : ParamText) (paramConfig : ParamConfig)
    (paramDict : Dict (List Char) PyValue) :
    addParameter py paramConfig paramDict param.body = (do
      return paramDict.set param.name
        (← convertParamValue py param.text param.name paramConfig)) := by
  have hvalue : (param.name ++ '>' :: param.value).drop (param.name.length + 1) = param.value := by
    rw [← List.drop_drop, List.drop_left]
    rfl
  unfold addParameter ParamText.body
  rw [indexOfClose_append param.name_ok.2]
  dsimp only [bind, Except.bind]
  rw [List.take_left, hvalue]
  rfl

/-- When all parameters convert, the dictionary has the last value of each name. -/
theorem foldlM_addParameter {paramConfig : ParamConfig} {params : List ParamText}
    (h : ∀ param ∈ params, param.Reads py paramConfig) (paramDict : Dict (List Char) PyValue) :
    ∃ result, (params.map ParamText.body).foldlM (addParameter py paramConfig) paramDict = .ok result ∧
      ∀ name, match params.reverse.find? fun param => param.name = name with
        | some param => ∃ x, convertParamValue py param.text param.name paramConfig = .ok x ∧
            result.get? name = some x
        | none => result.get? name = paramDict.get? name := by
  induction params generalizing paramDict with
  | nil => exact ⟨paramDict, rfl, fun _ => rfl⟩
  | cons param params ih =>
    obtain ⟨x, hx⟩ := convertParamValue_ok.mpr (h param List.mem_cons_self)
    obtain ⟨result, hresult, hget⟩ :=
      ih (fun param hparam => h param (List.mem_cons_of_mem _ hparam)) (paramDict.set param.name x)
    refine ⟨result, ?_, fun name => ?_⟩
    · rw [List.map_cons, List.foldlM_cons, addParameter_body, hx]
      exact hresult
    · have hname := hget name
      rw [List.reverse_cons, List.find?_append]
      cases hlast : params.reverse.find? fun param => param.name = name with
      | some last =>
        rw [hlast] at hname
        exact hname
      | none =>
        rw [hlast] at hname
        dsimp only at hname
        rw [Option.none_or, List.find?_singleton]
        cases Decidable.em (param.name = name) with
        | inl heq =>
          subst heq
          rw [decide_eq_true rfl, if_pos rfl]
          exact ⟨x, hx, hname.trans (Dict.get?_set_self _ _ _)⟩
        | inr hne =>
          rw [decide_eq_false hne, if_neg Bool.false_ne_true]
          exact hname.trans (Dict.get?_set_ne _ (Ne.symm hne) _)

/-- An exception in the conversion of a parameter leaves the loop. -/
theorem reads_of_foldlM {paramConfig : ParamConfig} {params : List ParamText}
    {paramDict result : Dict (List Char) PyValue}
    (h : (params.map ParamText.body).foldlM (addParameter py paramConfig) paramDict = .ok result) :
    ∀ param ∈ params, param.Reads py paramConfig := by
  induction params generalizing paramDict with
  | nil => exact fun _ h => nomatch h
  | cons param params ih =>
    rw [List.map_cons, List.foldlM_cons, addParameter_body] at h
    obtain ⟨paramDict', hparam, hrest⟩ := bind_eq_ok.mp h
    obtain ⟨x, hx, -⟩ := bind_eq_ok.mp hparam
    exact List.forall_mem_cons.mpr ⟨convertParamValue_ok.mp ⟨x, hx⟩, ih hrest⟩

/-- The call as the parser returns it. -/
structure CallMatches (call : CallText) (functionCall : FunctionCall) : Prop where
  name_eq : functionCall.name = call.name
  arguments_isJson : ∃ members, IsJson functionCall.arguments (.object members) ∧
    (members.map Prod.fst).Nodup ∧
    ∀ name, name ∈ members.map Prod.fst ↔ name ∈ call.params.map ParamText.name

theorem mem_names_iff {call : CallText} {name : List Char} :
    name ∈ call.params.map ParamText.name ↔ ∃ param, call.last? name = some param := by
  rw [← Option.isSome_iff_exists]
  unfold CallText.last?
  rw [List.find?_isSome, List.mem_map]
  simp only [List.mem_reverse, decide_eq_true_eq]

/-- The equation of `_parse_xml_function_call` at a block. -/
theorem parseXmlFunctionCall_body (call : CallText) (tools : Option (List ToolsParam)) :
    parseXmlFunctionCall py call.body tools = (do
      let paramDict ← (call.params.map ParamText.body).foldlM
        (addParameter py (getArgumentsConfig call.name tools)) .empty
      let arguments ← dumps py.intMaxStrDigits py.maxDepth (.dict (.ofList paramDict.items))
      return ⟨call.name, arguments⟩) := by
  have hparameters : (call.name ++ '>' :: call.parameters).drop (call.name.length + 1) =
      call.parameters := by
    rw [← List.drop_drop, List.drop_left]
    rfl
  unfold parseXmlFunctionCall CallText.body
  rw [indexOfClose_append call.name_ok.2]
  dsimp only [bind, Except.bind]
  rw [List.take_left, hparameters]
  unfold CallText.parameters
  rw [CallText.findall_parameters]

/-- The dictionary of a call whose parameters read has the last value of each name. -/
theorem exists_paramDict {call : CallText} {paramConfig : ParamConfig}
    (h : ∀ param ∈ call.params, param.Reads py paramConfig) :
    ∃ result, (call.params.map ParamText.body).foldlM (addParameter py paramConfig) .empty =
        .ok result ∧
      (∀ name param, call.last? name = some param → ∃ x,
        convertParamValue py param.text param.name paramConfig = .ok x ∧ result.get? name = some x) ∧
      ∀ name, call.last? name = none → result.get? name = none := by
  obtain ⟨result, hresult, hget⟩ := foldlM_addParameter h .empty
  refine ⟨result, hresult, fun name param hlast => ?_, fun name hlast => ?_⟩
  · have hname := hget name
    unfold CallText.last? at hlast
    rw [hlast] at hname
    exact hname
  · have hname := hget name
    unfold CallText.last? at hlast
    rw [hlast] at hname
    exact hname

/-- The parser returns a call with JSON arguments exactly when its parameters convert. -/
theorem parseXmlFunctionCall_iff (py : PyLib) (call : CallText) (tools : Option (List ToolsParam)) :
    (∃ functionCall, parseXmlFunctionCall py call.body tools = .ok functionCall ∧
        CallMatches call functionCall) ↔
      call.Converts py (getArgumentsConfig call.name tools) := by
  rw [parseXmlFunctionCall_body]
  constructor
  · rintro ⟨functionCall, hcall, hmatches⟩
    obtain ⟨paramDict, hdict, hcall⟩ := bind_eq_ok.mp hcall
    obtain ⟨arguments, harguments, hcall⟩ := bind_eq_ok.mp hcall
    obtain rfl := Except.ok.inj hcall
    have hreads := reads_of_foldlM hdict
    refine ⟨hreads, fun name param hlast => ?_⟩
    obtain ⟨result, hresult, hget, -⟩ := exists_paramDict hreads
    obtain rfl := Except.ok.inj (hdict.symm.trans hresult)
    obtain ⟨x, hx, hitem⟩ := hget name param hlast
    obtain ⟨members, hjson, -, -⟩ := hmatches.arguments_isJson
    exact (convertParamValue_writable hx).mp
      (representable_of_dumps py.maxDepth_pos harguments hjson _ (Dict.mem_items.mpr hitem))
  · intro hconverts
    obtain ⟨result, hresult, hget, hnone⟩ := exists_paramDict hconverts.reads
    have hlast : ∀ name x, result.get? name = some x → ∃ param, call.last? name = some param := by
      intro name x hx
      refine Option.ne_none_iff_exists'.mp fun hlast => ?_
      rw [hnone name hlast] at hx
      cases hx
    have hkeys : ∀ name, (∃ x, result.get? name = some x) ↔ ∃ param, call.last? name = some param :=
      fun name => ⟨fun ⟨x, hx⟩ => hlast name x hx, fun ⟨param, hparam⟩ =>
        let ⟨x, _, hx⟩ := hget name param hparam
        ⟨x, hx⟩⟩
    have hitems : ∀ item ∈ result.items, Writable py item.2 := by
      intro item hitem
      obtain ⟨param, hparam⟩ := hlast item.1 item.2 (Dict.mem_items.mp hitem)
      obtain ⟨x, hx, hget⟩ := hget item.1 param hparam
      obtain rfl : x = item.2 := Option.some.inj (hget.symm.trans (Dict.mem_items.mp hitem))
      exact (convertParamValue_writable hx).mpr (hconverts.writable item.1 param hparam)
    obtain ⟨text, members, htext, hjson, hnames⟩ := dumps_ofList py.maxDepth_pos hitems
    refine ⟨⟨call.name, text⟩, bind_eq_ok.mpr ⟨result, hresult, bind_eq_ok.mpr ⟨text, htext, rfl⟩⟩,
      rfl, members, hjson, ?_, fun name => ?_⟩
    · rw [hnames]
      exact result.nodup_keys
    · rw [hnames, mem_names_iff, ← hkeys]
      exact Dict.mem_keys

/-! ## A message -/

/-- All calls of the message are extracted, in order. -/
structure Extracts (message : Message) (info : ExtractedToolCallInformation) : Prop where
  toolsCalled : info.toolsCalled = true
  toolCalls : List.Forall₂ CallMatches message.calls info.toolCalls

theorem contains_render {message : Message} (hcalls : message.calls ≠ []) :
    contains message.render Tag.toolCallPrefix.text = true := by
  obtain ⟨call, calls, heq⟩ := List.exists_cons_of_ne_nil hcalls
  have hin : Tag.toolCallPrefix.text <:+: message.render := by
    refine ⟨message.text ++ Tag.toolCallStart.text,
      call.body ++ Tag.functionEnd.text ++ (Tag.toolCallEnd.text ++ calls.flatMap CallText.render), ?_⟩
    unfold Message.render
    rw [heq, List.flatMap_cons]
    unfold CallText.render CallText.inner
    simp only [List.append_assoc]
  unfold contains
  rw [Option.isSome_iff_ne_none]
  exact fun hnone => (find?_eq_none_iff (tag_ne_nil _)).mp hnone hin

/-- The result says that tools are called when there are tool calls. -/
theorem toolCalls_ne_nil {prevToolCallArr : List FunctionCall} {modelOutput : List Char}
    {tools : Option (List ToolsParam)}
    (h : (extractToolCalls py prevToolCallArr modelOutput tools).1.toolsCalled = true) :
    (extractToolCalls py prevToolCallArr modelOutput tools).1.toolCalls ≠ [] := by
  unfold extractToolCalls at h ⊢
  split at h
  · cases h
  · next hcontains =>
    rw [if_neg hcontains]
    dsimp only at h ⊢
    split at h
    · cases h
    · next hcalls =>
      rw [if_neg hcalls]
      split at h
      · cases h
      · exact of_decide_eq_true h

/-- The result of a message with blocks: an exception in one of them drops all. -/
theorem extractToolCalls_render (py : PyLib) (prevToolCallArr : List FunctionCall) {message : Message}
    (tools : Option (List ToolsParam)) (hcalls : message.calls ≠ []) :
    match message.calls.mapM fun call => parseXmlFunctionCall py call.body tools with
    | .error _ => (extractToolCalls py prevToolCallArr message.render tools).1.toolsCalled = false
    | .ok toolCalls =>
      (extractToolCalls py prevToolCallArr message.render tools).1.toolsCalled =
          decide (toolCalls ≠ []) ∧
        (extractToolCalls py prevToolCallArr message.render tools).1.toolCalls = toolCalls := by
  have hne : message.calls.map CallText.body ≠ [] := fun h => hcalls (List.map_eq_nil_iff.mp h)
  have hmapM : (message.calls.map CallText.body).mapM (fun fc => parseXmlFunctionCall py fc tools) =
      message.calls.mapM fun call => parseXmlFunctionCall py call.body tools := List.mapM_map
  unfold extractToolCalls
  rw [if_neg (not_not.mpr (contains_render hcalls))]
  dsimp only
  rw [Message.getFunctionCalls_render hcalls, if_neg hne, hmapM]
  cases message.calls.mapM fun call => parseXmlFunctionCall py call.body tools with
  | error e => rfl
  | ok toolCalls => exact ⟨rfl, rfl⟩

/-- The calls of a well-formed message are extracted exactly when there is one and the parameters of all
of them convert. -/
theorem extractToolCalls_iff (py : PyLib) (prevToolCallArr : List FunctionCall) (message : Message)
    (tools : Option (List ToolsParam)) :
    Extracts message (extractToolCalls py prevToolCallArr message.render tools).1 ↔
      message.calls ≠ [] ∧
        ∀ call ∈ message.calls, call.Converts py (getArgumentsConfig call.name tools) := by
  rw [← forall₂_congr fun call _ => parseXmlFunctionCall_iff py call tools,
    ← exists_mapM_forall₂]
  constructor
  · rintro ⟨htoolsCalled, htoolCalls⟩
    have hcalls : message.calls ≠ [] := by
      intro hnil
      rw [hnil, List.forall₂_nil_left_iff] at htoolCalls
      exact toolCalls_ne_nil htoolsCalled htoolCalls
    refine ⟨hcalls, ?_⟩
    have hresult := extractToolCalls_render py prevToolCallArr tools hcalls
    cases hmapM : message.calls.mapM fun call => parseXmlFunctionCall py call.body tools with
    | error e =>
      rw [hmapM] at hresult
      rw [hresult] at htoolsCalled
      cases htoolsCalled
    | ok toolCalls =>
      rw [hmapM] at hresult
      rw [hresult.2] at htoolCalls
      exact ⟨toolCalls, rfl, htoolCalls⟩
  · rintro ⟨hcalls, toolCalls, hmapM, hmatches⟩
    have hresult := extractToolCalls_render py prevToolCallArr tools hcalls
    rw [hmapM] at hresult
    obtain ⟨htoolsCalled, htoolCalls⟩ := hresult
    refine ⟨htoolsCalled.trans (decide_eq_true fun hnil => ?_), htoolCalls ▸ hmatches⟩
    rw [hnil, List.forall₂_nil_right_iff] at hmatches
    exact hcalls hmatches

/-- `repr(2.0)`. -/
def twoPointZero : NumberText := ⟨['2', '.', '0'], by decide⟩

/-- What the Python functions return for the values of the messages below. -/
def sampleLib : PyLib where
  int s := if s = "2".toList then some 2 else none
  float s :=
    if s = "2".toList then some (.finite 2 twoPointZero)
    else if s = "1e999".toList then some (.infinity false) else none
  jsonLoads s :=
    if s = "[NaN]".toList then .ok (.list (.cons (.float .nan) .nil)) else .error .valueError
  literalEval _ := .error .syntaxError
  intMaxStrDigits := 4300
  maxDepth := 900
  limit_eq := .inr (by decide)
  maxDepth_pos := by decide
  fits_int := by
    intro s n h
    split at h
    · obtain rfl := Option.some.inj h
      exact .inr (by decide)
    · cases h
  abs_float_lt := by
    intro s value repr h
    split at h
    · obtain ⟨rfl, -⟩ := PyFloat.finite.inj (Option.some.inj h)
      calc |(2 : ℚ)| = 2 ^ 1 := by norm_num
        _ < 2 ^ 1024 := pow_lt_pow_right₀ one_lt_two (by decide)
    · split at h
      · cases h
      · cases h

/-- A tool `f` with a parameter `x` of this type. -/
def sampleTool (type : String) : ToolsParam :=
  ⟨"function".toList, ['f'], .withProperties (Dict.empty.set ['x'] (some type.toList))⟩

/-- A call of `f` with this value of `x`. -/
def sampleCall (value : List Char) (h : ∀ tag : Tag, ¬ tag.text <:+: value) : CallText :=
  ⟨['f'], [⟨['x'], value, by decide, h⟩], by decide⟩

/-- A message with the value `2`. -/
def twoMessage : Message :=
  ⟨[], [sampleCall ['2'] (by intro tag; cases tag <;> decide)], CallText.not_infix_nil _⟩

/-- A message with the values `2` and `1e999`. -/
def overflowMessage : Message where
  text := []
  calls := [sampleCall ['2'] (by intro tag; cases tag <;> decide),
    sampleCall ['1', 'e', '9', '9', '9'] (by intro tag; cases tag <;> decide)]
  text_ok := CallText.not_infix_nil _

/-- A message with the value `[NaN]`. -/
def nanMessage : Message :=
  ⟨[], [sampleCall ['[', 'N', 'a', 'N', ']'] (by intro tag; cases tag <;> decide)],
    CallText.not_infix_nil _⟩

/-- An integer parameter with the value `2`. -/
theorem extractToolCalls_iff_two : Extracts twoMessage
    (extractToolCalls sampleLib [] twoMessage.render (some [sampleTool "integer"])).1 := by
  refine (extractToolCalls_iff sampleLib [] twoMessage _).mpr ⟨List.cons_ne_nil _ _, ?_⟩
  have hkind : declaredKind ['x'] (getArgumentsConfig ['f'] (some [sampleTool "integer"])) =
      some .integer := by decide +kernel
  intro call hcall
  obtain rfl := List.mem_singleton.mp hcall
  refine ⟨fun param hparam => .inr ?_, fun name param hlast => .inr ?_⟩
  · obtain rfl := List.mem_singleton.mp hparam
    exact hkind ▸ trivial
  · obtain rfl := List.mem_singleton.mp (List.mem_reverse.mp (List.mem_of_find?_eq_some hlast))
    exact hkind ▸ trivial

/-- A number that overflows drops all calls of its message, and an array with `NaN` is written as it is. -/
theorem not_extracts_of_overflow :
    (extractToolCalls sampleLib [] overflowMessage.render (some [sampleTool "number"])).1 =
        ⟨false, [], some overflowMessage.render⟩ ∧
      ((extractToolCalls sampleLib [] nanMessage.render (some [sampleTool "array"])).1.toolCalls =
          [⟨['f'], ['{', '"', 'x', '"', ':', ' ', '[', 'N', 'a', 'N', ']', '}']⟩] ∧
        ∀ json, ¬ IsJson ['{', '"', 'x', '"', ':', ' ', '[', 'N', 'a', 'N', ']', '}'] json) ∧
      ¬ ∀ (py : PyLib) (message : Message) (tools : Option (List ToolsParam)), message.calls ≠ [] →
        Extracts message (extractToolCalls py [] message.render tools).1 := by
  have hoverflow : (extractToolCalls sampleLib [] overflowMessage.render
      (some [sampleTool "number"])).1 = ⟨false, [], some overflowMessage.render⟩ := by
    decide +kernel
  refine ⟨hoverflow, ⟨by decide +kernel, fun json => ?_⟩, fun hall => ?_⟩
  · have hdumps : dumpsValue 4300 (.dict (.ofList [(['x'], .list (.cons (.float .nan) .nil))])) =
        .ok ['{', '"', 'x', '"', ':', ' ', '[', 'N', 'a', 'N', ']', '}'] := rfl
    have hnan : ¬ (PyValue.dict (.ofList [(['x'], .list (.cons (.float .nan) .nil))])).Representable
        4300 := fun h => h.2.1.1
    exact (dumpsValue_rejects _ hnan hdumps).not_isJson json
  · have htoolsCalled := (hall sampleLib overflowMessage (some [sampleTool "number"])
      (List.cons_ne_nil _ _)).toolsCalled
    rw [hoverflow] at htoolsCalled
    cases htoolsCalled

end Ikun.Serving
