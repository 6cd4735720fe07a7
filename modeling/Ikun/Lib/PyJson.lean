import Mathlib.Data.List.TakeWhile
import Mathlib.Data.Nat.Digits.Lemmas
import Mathlib.Data.Rat.Defs
import Ikun.Lib.Except
import Ikun.Lib.Json

/-!
# `json.dumps`

The values that Python parsers return and the text that `json.dumps` writes for them without ASCII
escapes. It raises for values that are not of its types, for integers with more digits than
`int.__repr__` writes and for deep values, but it writes `NaN` and `Infinity` for floats that JSON does
not have.

`dumpsValue_reads` and `dumpsValue_rejects` say which values have a JSON text: the `Representable` ones.
A text is a list of characters, so that strings with lone surrogates are left out.
-/

namespace PyJson

open Rfc8259 Except

/-! ## Values -/

/-- The exceptions of the parsers and the writer. `json.JSONDecodeError` is a `ValueError`. -/
inductive PyErr
  | valueError
  | typeError
  | syntaxError
  | overflowError
  | recursionError
  | memoryError
  deriving DecidableEq

/-- A `float`. A finite one has its value and its `repr`, which is a JSON number. -/
inductive PyFloat
  | finite (value : ℚ) (repr : NumberText)
  | infinity (negative : Bool)
  | nan

/-- A key of a dictionary; `other` is one of a type that `json.dumps` does not take. -/
inductive PyKey
  | str (s : List Char)
  | int (n : ℤ)
  | float (x : PyFloat)
  | bool (b : Bool)
  | null
  | other

mutual

/-- A value; `list` is also a tuple, and `other` is a set, a `bytes`, a `complex` or the like. -/
inductive PyValue
  | null
  | bool (b : Bool)
  | int (n : ℤ)
  | float (x : PyFloat)
  | str (s : List Char)
  | list (items : PyItems)
  | dict (members : PyMembers)
  | other

/-- The items of a list. -/
inductive PyItems
  | nil
  | cons (value : PyValue) (rest : PyItems)

/-- The items of a dictionary. -/
inductive PyMembers
  | nil
  | cons (key : PyKey) (value : PyValue) (rest : PyMembers)

end

/-! ## The writer -/

/-- A hexadecimal digit. -/
def hexDigit (n : ℕ) : Char := Char.ofNat (if n < 10 then '0'.toNat + n else 'a'.toNat + (n - 10))

/-- The escape of a character. -/
def escapeChar (c : Char) : List Char :=
  if c = '"' then ['\\', '"']
  else if c = '\\' then ['\\', '\\']
  else if c = '\n' then ['\\', 'n']
  else if c = '\r' then ['\\', 'r']
  else if c = '\t' then ['\\', 't']
  else if c.toNat = 0x0C then ['\\', 'f']
  else if c.toNat = 0x08 then ['\\', 'b']
  else if c.toNat < 0x20 then ['\\', 'u', '0', '0', hexDigit (c.toNat / 16), hexDigit (c.toNat % 16)]
  else [c]

/-- `encode_basestring`. -/
def encodeBasestring (s : List Char) : List Char := '"' :: (s.flatMap escapeChar ++ ['"'])

/-- The decimal digits of a number. -/
def decimal (n : ℕ) : List Char :=
  if n = 0 then ['0'] else (Nat.digits 10 n).reverse.map Nat.digitChar

/-- `int.__repr__`, without its limit. -/
def intText (n : ℤ) : List Char := if n < 0 then '-' :: decimal n.natAbs else decimal n.natAbs

/-- `int.__repr__` writes the number: there is no limit or its digits are within it. -/
def FitsDigits (limit : ℕ) (n : ℤ) : Prop := limit = 0 ∨ (Nat.digits 10 n.natAbs).length ≤ limit

instance (limit : ℕ) (n : ℤ) : Decidable (FitsDigits limit n) :=
  inferInstanceAs (Decidable (_ ∨ _))

/-- `int.__repr__`. -/
def intRepr (limit : ℕ) (n : ℤ) : Except PyErr (List Char) := do
  raiseIf (¬ FitsDigits limit n) .valueError
  return intText n

/-- `floatstr`. -/
def floatstr : PyFloat → List Char
  | .finite _ repr => repr.text
  | .infinity false => ['I', 'n', 'f', 'i', 'n', 'i', 't', 'y']
  | .infinity true => ['-', 'I', 'n', 'f', 'i', 'n', 'i', 't', 'y']
  | .nan => ['N', 'a', 'N']

def boolText : Bool → List Char
  | true => ['t', 'r', 'u', 'e']
  | false => ['f', 'a', 'l', 's', 'e']

/-- The string that a key is written as. -/
def keyText (limit : ℕ) : PyKey → Except PyErr (List Char)
  | .str s => return s
  | .int n => intRepr limit n
  | .float x => return floatstr x
  | .bool b => return boolText b
  | .null => return ['n', 'u', 'l', 'l']
  | .other => throw .typeError

mutual

/-- The text of a value. -/
def dumpsValue (limit : ℕ) : PyValue → Except PyErr (List Char)
  | .null => return ['n', 'u', 'l', 'l']
  | .bool b => return boolText b
  | .int n => intRepr limit n
  | .float x => return floatstr x
  | .str s => return encodeBasestring s
  | .list .nil => return ['[', ']']
  | .list (.cons value rest) => do
    let first ← dumpsValue limit value
    let others ← dumpsItems limit rest
    return '[' :: (first ++ others)
  | .dict .nil => return ['{', '}']
  | .dict (.cons key value rest) => do
    let name ← keyText limit key
    let first ← dumpsValue limit value
    let others ← dumpsMembers limit rest
    return '{' :: (encodeBasestring name ++ ':' :: ' ' :: first ++ others)
  | .other => throw .typeError

/-- The items behind the first one, up to the end of the list. -/
def dumpsItems (limit : ℕ) : PyItems → Except PyErr (List Char)
  | .nil => return [']']
  | .cons value rest => do
    let first ← dumpsValue limit value
    let others ← dumpsItems limit rest
    return ',' :: ' ' :: first ++ others

/-- The items behind the first one, up to the end of the dictionary. -/
def dumpsMembers (limit : ℕ) : PyMembers → Except PyErr (List Char)
  | .nil => return ['}']
  | .cons key value rest => do
    let name ← keyText limit key
    let first ← dumpsValue limit value
    let others ← dumpsMembers limit rest
    return ',' :: ' ' :: (encodeBasestring name ++ ':' :: ' ' :: first) ++ others

end

mutual

/-- The nesting of a value. -/
def PyValue.depth : PyValue → ℕ
  | .list items => items.depth + 1
  | .dict members => members.depth + 1
  | _ => 0

def PyItems.depth : PyItems → ℕ
  | .nil => 0
  | .cons value rest => max value.depth rest.depth

def PyMembers.depth : PyMembers → ℕ
  | .nil => 0
  | .cons _ value rest => max value.depth rest.depth

end

/-- `json.dumps(value, ensure_ascii=False)`. -/
def dumps (limit maxDepth : ℕ) (value : PyValue) : Except PyErr (List Char) := do
  raiseIf (maxDepth < value.depth) .recursionError
  dumpsValue limit value

/-! ## Representable values -/

/-- The key has a type that the writer takes and is within the limit of digits. -/
def PyKey.Representable (limit : ℕ) : PyKey → Prop
  | .int n => FitsDigits limit n
  | .other => False
  | _ => True

mutual

/-- The value has a JSON text. -/
def PyValue.Representable (limit : ℕ) : PyValue → Prop
  | .int n => FitsDigits limit n
  | .float (.finite _ _) => True
  | .float _ => False
  | .list items => items.Representable limit
  | .dict members => members.Representable limit
  | .other => False
  | _ => True

def PyItems.Representable (limit : ℕ) : PyItems → Prop
  | .nil => True
  | .cons value rest => value.Representable limit ∧ rest.Representable limit

def PyMembers.Representable (limit : ℕ) : PyMembers → Prop
  | .nil => True
  | .cons key value rest =>
    key.Representable limit ∧ value.Representable limit ∧ rest.Representable limit

end

/-! ## Strings -/

/-- The escape of a character reads as the character. -/
theorem parseChars_escapeChar (c : Char) (rest : List Char) : parseChars (escapeChar c ++ rest) =
    (parseChars rest).map fun (units, s) => (c.toNat :: units, s) := by
  unfold escapeChar
  split_ifs with hquote hbackslash hn hr ht hf hb hcontrol
  · subst hquote
    exact parseChars_escaped rfl rest
  · subst hbackslash
    exact parseChars_escaped rfl rest
  · subst hn
    exact parseChars_escaped rfl rest
  · subst hr
    exact parseChars_escaped rfl rest
  · subst ht
    exact parseChars_escaped rfl rest
  · rw [hf]
    exact parseChars_escaped rfl rest
  · rw [hb]
    exact parseChars_escaped rfl rest
  · have hhigh : ∀ n < 0x20, hexDigit? (hexDigit (n / 16)) = some (n / 16) := by decide
    have hlow : ∀ n < 0x20, hexDigit? (hexDigit (n % 16)) = some (n % 16) := by decide
    have hzero : hexDigit? '0' = some 0 := by decide
    refine (parseChars_unicode hzero hzero (hhigh _ hcontrol) (hlow _ hcontrol) rest).trans ?_
    simp only [Nat.zero_mul, Nat.zero_add, Nat.div_add_mod']
  · exact parseChars_unescaped hquote hbackslash hcontrol rest

theorem parseChars_flatMap (s rest : List Char) :
    parseChars (s.flatMap escapeChar ++ '"' :: rest) = some (s.map Char.toNat, rest) := by
  induction s with
  | nil => exact parseChars_quote rest
  | cons c s ih =>
    rw [List.flatMap_cons, List.append_assoc, parseChars_escapeChar, ih]
    rfl

/-- The text of a string reads as the string. -/
theorem readsString_encodeBasestring (s : List Char) : ReadsString (encodeBasestring s) s := by
  refine ⟨⟨_, rfl⟩, fun rest => ?_⟩
  have hchars : parseChars (s.flatMap escapeChar ++ ['"'] ++ rest) =
      some (s.map Char.toNat, rest) := by
    rw [List.append_assoc]
    exact parseChars_flatMap s rest
  unfold encodeBasestring parseString
  rw [List.cons_append, List.head?_cons, if_pos rfl, List.tail_cons, hchars]
  exact congrArg (fun s => some (s, rest)) (decode_map s)

/-! ## Numbers -/

theorem isDigit_digitChar : ∀ n < 10, isDigit (Nat.digitChar n) = true := by decide

theorem isDigit_of_mem_decimal {n : ℕ} {c : Char} (hc : c ∈ decimal n) : isDigit c = true := by
  unfold decimal at hc
  split at hc
  · obtain rfl := List.mem_singleton.mp hc
    rfl
  · obtain ⟨d, hd, rfl⟩ := List.mem_map.mp hc
    exact isDigit_digitChar d (Nat.digits_lt_base (by decide) (List.mem_reverse.mp hd))

/-- A number other than zero has a first digit other than zero. -/
theorem head_decimal {n : ℕ} (hn : n ≠ 0) : ∃ c s, decimal n = c :: s ∧ c ≠ '0' := by
  have hne : Nat.digits 10 n ≠ [] := Nat.digits_ne_nil_iff_ne_zero.mpr hn
  have hlast := Nat.getLast_digit_ne_zero 10 hn
  have hlt : (Nat.digits 10 n).getLast hne < 10 :=
    Nat.digits_lt_base (by decide) (List.getLast_mem hne)
  have hall : ∀ d < 10, d ≠ 0 → Nat.digitChar d ≠ '0' := by decide
  refine ⟨Nat.digitChar ((Nat.digits 10 n).getLast hne),
    ((Nat.digits 10 n).dropLast.reverse.map Nat.digitChar), ?_, hall _ hlt hlast⟩
  unfold decimal
  rw [if_neg hn, ← List.map_cons, ← List.reverse_concat', List.dropLast_append_getLast]

theorem parseInt_decimal (n : ℕ) : parseInt (decimal n) = some (decimal n, []) := by
  cases Decidable.em (n = 0) with
  | inl hzero =>
    subst hzero
    rfl
  | inr hn =>
    obtain ⟨c, s, hdecimal, hc⟩ := head_decimal hn
    have htake : (decimal n).takeWhile isDigit = decimal n :=
      List.takeWhile_eq_self_iff.mpr fun c hc => isDigit_of_mem_decimal hc
    have hdrop : (decimal n).dropWhile isDigit = [] :=
      List.dropWhile_eq_nil_iff.mpr fun c hc => isDigit_of_mem_decimal hc
    unfold parseInt parseDigits
    rw [if_neg, htake, hdrop, hdecimal]
    rw [hdecimal]
    exact fun h => hc (Option.some.inj h)

theorem parseMinus_decimal (n : ℕ) : parseMinus (decimal n) = ([], decimal n) := by
  refine if_neg fun h => ?_
  have hdigit := isDigit_of_mem_decimal (List.mem_of_mem_head? h)
  cases hdigit

/-- The number that `int.__repr__` writes. -/
def intNumber (n : ℤ) : NumberText where
  text := intText n
  parse_eq := by
    unfold intText
    split
    · have hminus : parseMinus ('-' :: decimal n.natAbs) = (['-'], decimal n.natAbs) := rfl
      unfold parseNumber
      rw [hminus]
      dsimp only
      rw [parseInt_decimal]
      exact congrArg (fun t => some (t, [])) (by simp)
    · unfold parseNumber
      rw [parseMinus_decimal]
      dsimp only
      rw [parseInt_decimal]
      exact congrArg (fun t => some (t, [])) (by simp)

/-! ## What the writer writes -/

variable {limit : ℕ}

theorem intRepr_of_fits {n : ℤ} (h : FitsDigits limit n) : intRepr limit n = .ok (intNumber n).text :=
  raiseIf_bind (not_not.mpr h)

theorem fits_of_intRepr {n : ℤ} {text : List Char} (h : intRepr limit n = .ok text) :
    FitsDigits limit n := by
  obtain ⟨u, hu, -⟩ := bind_eq_ok.mp h
  exact not_not.mp (raiseIf_eq_ok.mp hu)

theorem exists_keyText {key : PyKey} (h : key.Representable limit) :
    ∃ name, keyText limit key = .ok name := by
  cases key with
  | int n => exact ⟨_, intRepr_of_fits h⟩
  | other => exact h.elim
  | str s => exact ⟨_, rfl⟩
  | float x => exact ⟨_, rfl⟩
  | bool b => exact ⟨_, rfl⟩
  | null => exact ⟨_, rfl⟩

theorem representable_of_keyText {key : PyKey} {name : List Char}
    (h : keyText limit key = .ok name) : key.Representable limit := by
  cases key with
  | int n => exact fits_of_intRepr h
  | other => cases h
  | str s => trivial
  | float x => trivial
  | bool b => trivial
  | null => trivial

/-- The names of the items of a dictionary. -/
def PyMembers.names (limit : ℕ) : PyMembers → List (Except PyErr (List Char))
  | .nil => []
  | .cons key _ rest => keyText limit key :: rest.names limit

mutual

/-- A representable value has a JSON text. -/
theorem dumpsValue_reads (value : PyValue) (h : value.Representable limit) :
    ∃ text json, dumpsValue limit value = .ok text ∧ Reads parseValue text json := by
  match value with
  | .null => exact ⟨_, _, rfl, reads_null⟩
  | .bool true => exact ⟨_, _, rfl, reads_true⟩
  | .bool false => exact ⟨_, _, rfl, reads_false⟩
  | .int n => exact ⟨_, _, intRepr_of_fits h, reads_number _⟩
  | .float (.finite _ repr) => exact ⟨_, _, rfl, reads_number repr⟩
  | .float (.infinity _) => exact h.elim
  | .float .nan => exact h.elim
  | .str s => exact ⟨_, _, rfl, reads_string (readsString_encodeBasestring s)⟩
  | .list .nil => exact ⟨_, _, rfl, reads_array Sequence.bodyReads_close⟩
  | .list (.cons first rest) =>
    obtain ⟨text, json, htext, hreads⟩ := dumpsValue_reads first h.1
    obtain ⟨tail, items, htail, hitems⟩ := dumpsItems_reads rest h.2
    refine ⟨_, _, ?_, reads_array (Sequence.bodyReads_item hreads hitems)⟩
    rw [dumpsValue, htext, htail]
    rfl
  | .dict .nil => exact ⟨_, _, rfl, reads_object Sequence.bodyReads_close⟩
  | .dict (.cons key first rest) =>
    obtain ⟨name, hname⟩ := exists_keyText h.1
    obtain ⟨text, json, htext, hreads⟩ := dumpsValue_reads first h.2.1
    obtain ⟨tail, members, htail, hmembers, -⟩ := dumpsMembers_reads rest h.2.2
    refine ⟨_, _, ?_, reads_object (Sequence.bodyReads_item
      (reads_member (readsString_encodeBasestring name) hreads) hmembers)⟩
    rw [dumpsValue, hname, htext, htail]
    rfl
  | .other => exact h.elim

theorem dumpsItems_reads (items : PyItems) (h : items.Representable limit) :
    ∃ tail json, dumpsItems limit items = .ok tail ∧ arrays.TailReads tail json := by
  match items with
  | .nil => exact ⟨_, _, rfl, Sequence.tailReads_close⟩
  | .cons first rest =>
    obtain ⟨text, json, htext, hreads⟩ := dumpsValue_reads first h.1
    obtain ⟨tail, items, htail, hitems⟩ := dumpsItems_reads rest h.2
    refine ⟨_, _, ?_, Sequence.tailReads_comma hreads hitems⟩
    rw [dumpsItems, htext, htail]
    rfl

theorem dumpsMembers_reads (members : PyMembers) (h : members.Representable limit) :
    ∃ tail json, dumpsMembers limit members = .ok tail ∧ objects.TailReads tail json ∧
      json.map (fun member => .ok member.1) = members.names limit := by
  match members with
  | .nil => exact ⟨_, _, rfl, Sequence.tailReads_close, rfl⟩
  | .cons key first rest =>
    obtain ⟨name, hname⟩ := exists_keyText h.1
    obtain ⟨text, json, htext, hreads⟩ := dumpsValue_reads first h.2.1
    obtain ⟨tail, members, htail, hmembers, hnames⟩ := dumpsMembers_reads rest h.2.2
    refine ⟨_, _, ?_, Sequence.tailReads_comma
      (reads_member (readsString_encodeBasestring name) hreads) hmembers, ?_⟩
    · rw [dumpsMembers, hname, htext, htail]
      rfl
    · rw [List.map_cons, hnames, PyMembers.names, hname]

end

theorem follows_dumpsItems {items : PyItems} {tail : List Char}
    (h : dumpsItems limit items = .ok tail) : arrays.Follows tail := by
  cases items with
  | nil =>
    obtain rfl := Except.ok.inj h
    exact ⟨']', [], rfl, .inr rfl⟩
  | cons first rest =>
    obtain ⟨text, -, h⟩ := bind_eq_ok.mp h
    obtain ⟨others, -, h⟩ := bind_eq_ok.mp h
    obtain rfl := Except.ok.inj h
    exact Sequence.follows_comma _

theorem follows_dumpsMembers {members : PyMembers} {tail : List Char}
    (h : dumpsMembers limit members = .ok tail) : objects.Follows tail := by
  cases members with
  | nil =>
    obtain rfl := Except.ok.inj h
    exact ⟨'}', [], rfl, .inr rfl⟩
  | cons key first rest =>
    obtain ⟨name, -, h⟩ := bind_eq_ok.mp h
    obtain ⟨text, -, h⟩ := bind_eq_ok.mp h
    obtain ⟨others, -, h⟩ := bind_eq_ok.mp h
    obtain rfl := Except.ok.inj h
    exact Sequence.follows_comma _

theorem not_representable_cons {first : PyValue} {rest : PyItems}
    (h : ¬ (PyItems.cons first rest).Representable limit) :
    ¬ first.Representable limit ∨ first.Representable limit ∧ ¬ rest.Representable limit := by
  cases Classical.em (first.Representable limit) with
  | inl hfirst => exact .inr ⟨hfirst, fun hrest => h ⟨hfirst, hrest⟩⟩
  | inr hfirst => exact .inl hfirst

theorem not_representable_member {key : PyKey} {first : PyValue} {rest : PyMembers}
    (hkey : key.Representable limit) (h : ¬ (PyMembers.cons key first rest).Representable limit) :
    ¬ first.Representable limit ∨ first.Representable limit ∧ ¬ rest.Representable limit := by
  cases Classical.em (first.Representable limit) with
  | inl hfirst => exact .inr ⟨hfirst, fun hrest => h ⟨hkey, hfirst, hrest⟩⟩
  | inr hfirst => exact .inl hfirst

mutual

/-- The text of another value, when there is one, is not JSON. -/
theorem dumpsValue_rejects (value : PyValue) (h : ¬ value.Representable limit) {text : List Char}
    (htext : dumpsValue limit value = .ok text) : Rejects parseValue text := by
  match value with
  | .null => exact absurd trivial h
  | .bool _ => exact absurd trivial h
  | .str _ => exact absurd trivial h
  | .int n => exact absurd (fits_of_intRepr htext) h
  | .float (.finite _ _) => exact absurd trivial h
  | .float (.infinity false) =>
    obtain rfl := Except.ok.inj htext
    exact rejects_infinity
  | .float (.infinity true) =>
    obtain rfl := Except.ok.inj htext
    exact rejects_minusInfinity
  | .float .nan =>
    obtain rfl := Except.ok.inj htext
    exact rejects_nan
  | .list .nil => exact absurd trivial h
  | .list (.cons first rest) =>
    obtain ⟨text, hfirst, htext⟩ := bind_eq_ok.mp htext
    obtain ⟨tail, hrest, htext⟩ := bind_eq_ok.mp htext
    obtain rfl := Except.ok.inj htext
    refine rejects_array ?_
    obtain hnot | ⟨hrep, hnot⟩ := not_representable_cons h
    · exact Sequence.bodyRejects_item (dumpsValue_rejects first hnot hfirst)
        (follows_dumpsItems hrest)
    · obtain ⟨text', json, htext', hreads⟩ := dumpsValue_reads first hrep
      obtain rfl := Except.ok.inj (hfirst.symm.trans htext')
      exact Sequence.bodyRejects_tail hreads (dumpsItems_rejects rest hnot hrest)
  | .dict .nil => exact absurd trivial h
  | .dict (.cons key first rest) =>
    obtain ⟨name, hname, htext⟩ := bind_eq_ok.mp htext
    obtain ⟨text, hfirst, htext⟩ := bind_eq_ok.mp htext
    obtain ⟨tail, hrest, htext⟩ := bind_eq_ok.mp htext
    obtain rfl := Except.ok.inj htext
    have hstring := readsString_encodeBasestring name
    refine rejects_object ?_
    obtain hnot | ⟨hrep, hnot⟩ := not_representable_member (representable_of_keyText hname) h
    · exact Sequence.bodyRejects_item (rejects_member hstring (dumpsValue_rejects first hnot hfirst))
        (follows_dumpsMembers hrest)
    · obtain ⟨text', json, htext', hreads⟩ := dumpsValue_reads first hrep
      obtain rfl := Except.ok.inj (hfirst.symm.trans htext')
      exact Sequence.bodyRejects_tail (reads_member hstring hreads)
        (dumpsMembers_rejects rest hnot hrest)
  | .other => cases htext

theorem dumpsItems_rejects (items : PyItems) (h : ¬ items.Representable limit) {tail : List Char}
    (htail : dumpsItems limit items = .ok tail) : arrays.TailRejects tail := by
  match items with
  | .nil => exact absurd trivial h
  | .cons first rest =>
    obtain ⟨text, hfirst, htail⟩ := bind_eq_ok.mp htail
    obtain ⟨tail, hrest, htail⟩ := bind_eq_ok.mp htail
    obtain rfl := Except.ok.inj htail
    obtain hnot | ⟨hrep, hnot⟩ := not_representable_cons h
    · exact Sequence.tailRejects_item (dumpsValue_rejects first hnot hfirst)
        (follows_dumpsItems hrest)
    · obtain ⟨text', json, htext', hreads⟩ := dumpsValue_reads first hrep
      obtain rfl := Except.ok.inj (hfirst.symm.trans htext')
      exact Sequence.tailRejects_tail hreads (dumpsItems_rejects rest hnot hrest)

theorem dumpsMembers_rejects (members : PyMembers) (h : ¬ members.Representable limit)
    {tail : List Char} (htail : dumpsMembers limit members = .ok tail) :
    objects.TailRejects tail := by
  match members with
  | .nil => exact absurd trivial h
  | .cons key first rest =>
    obtain ⟨name, hname, htail⟩ := bind_eq_ok.mp htail
    obtain ⟨text, hfirst, htail⟩ := bind_eq_ok.mp htail
    obtain ⟨tail, hrest, htail⟩ := bind_eq_ok.mp htail
    obtain rfl := Except.ok.inj htail
    have hstring := readsString_encodeBasestring name
    obtain hnot | ⟨hrep, hnot⟩ := not_representable_member (representable_of_keyText hname) h
    · exact Sequence.tailRejects_item (rejects_member hstring (dumpsValue_rejects first hnot hfirst))
        (follows_dumpsMembers hrest)
    · obtain ⟨text', json, htext', hreads⟩ := dumpsValue_reads first hrep
      obtain rfl := Except.ok.inj (hfirst.symm.trans htext')
      exact Sequence.tailRejects_tail (reads_member hstring hreads)
        (dumpsMembers_rejects rest hnot hrest)

end

/-! ## Dictionaries of strings -/

/-- A dictionary with these items. -/
def PyMembers.ofList : List (List Char × PyValue) → PyMembers
  | [] => .nil
  | (name, value) :: rest => .cons (.str name) value (ofList rest)

theorem representable_ofList {items : List (List Char × PyValue)} :
    (PyMembers.ofList items).Representable limit ↔ ∀ item ∈ items, item.2.Representable limit := by
  induction items with
  | nil => exact iff_of_true trivial fun _ h => nomatch h
  | cons item items ih =>
    rw [PyMembers.ofList, PyMembers.Representable, ih, List.forall_mem_cons]
    exact and_iff_right trivial

theorem names_ofList (items : List (List Char × PyValue)) :
    (PyMembers.ofList items).names limit = items.map fun item => .ok item.1 := by
  induction items with
  | nil => rfl
  | cons item items ih =>
    rw [PyMembers.ofList, PyMembers.names, ih]
    rfl

theorem depth_ofList_le {items : List (List Char × PyValue)} {n : ℕ} :
    (PyMembers.ofList items).depth ≤ n ↔ ∀ item ∈ items, item.2.depth ≤ n := by
  induction items with
  | nil => exact iff_of_true (Nat.zero_le n) fun _ h => nomatch h
  | cons item items ih =>
    rw [PyMembers.ofList, PyMembers.depth, Nat.max_le, ih, List.forall_mem_cons]

/-- The object that a representable dictionary is written as has its names. -/
theorem dumpsValue_dict_reads {members : PyMembers} (h : members.Representable limit) :
    ∃ text json, dumpsValue limit (.dict members) = .ok text ∧
      Reads parseValue text (.object json) ∧
      json.map (fun member => .ok member.1) = members.names limit := by
  cases members with
  | nil => exact ⟨_, _, rfl, reads_object Sequence.bodyReads_close, rfl⟩
  | cons key first rest =>
    obtain ⟨name, hname⟩ := exists_keyText h.1
    obtain ⟨text, json, htext, hreads⟩ := dumpsValue_reads first h.2.1
    obtain ⟨tail, members, htail, hmembers, hnames⟩ := dumpsMembers_reads rest h.2.2
    refine ⟨_, _, ?_, reads_object (Sequence.bodyReads_item
      (reads_member (readsString_encodeBasestring name) hreads) hmembers), ?_⟩
    · rw [dumpsValue, hname, htext, htail]
      rfl
    · rw [List.map_cons, hnames, PyMembers.names, hname]

theorem depth_dict_ofList_le {items : List (List Char × PyValue)} {maxDepth : ℕ}
    (hmax : 1 ≤ maxDepth) : (PyValue.dict (.ofList items)).depth ≤ maxDepth ↔
      ∀ item ∈ items, item.2.depth < maxDepth := by
  obtain ⟨n, rfl⟩ := Nat.exists_eq_add_of_le' hmax
  rw [PyValue.depth, Nat.add_le_add_iff_right, depth_ofList_le]
  exact forall₂_congr fun item _ => Nat.lt_succ_iff.symm

/-- `json.dumps` of a dictionary of strings with representable values that are not too deep: an object with
its keys as names. -/
theorem dumps_ofList {maxDepth : ℕ} (hmax : 1 ≤ maxDepth) {items : List (List Char × PyValue)}
    (hitems : ∀ item ∈ items, item.2.depth < maxDepth ∧ item.2.Representable limit) :
    ∃ text members, dumps limit maxDepth (.dict (.ofList items)) = .ok text ∧
      IsJson text (.object members) ∧ members.map Prod.fst = items.map Prod.fst := by
  rw [forall₂_and, ← depth_dict_ofList_le hmax, ← representable_ofList] at hitems
  obtain ⟨hdepth, hrepresentable⟩ := hitems
  obtain ⟨text, members, htext, hreads, hnames⟩ := dumpsValue_dict_reads hrepresentable
  refine ⟨text, members, (raiseIf_bind (Nat.not_lt.mpr hdepth)).trans htext, hreads.isJson, ?_⟩
  rw [names_ofList] at hnames
  have hok : (members.map Prod.fst).map (Except.ok : List Char → Except PyErr (List Char)) =
      (items.map Prod.fst).map Except.ok := by
    rw [List.map_map, List.map_map]
    exact hnames
  exact List.map_injective_iff.mpr (fun _ _ => Except.ok.inj) hok

/-- What `json.dumps` writes for another dictionary of strings is not JSON. -/
theorem representable_of_dumps {maxDepth : ℕ} (hmax : 1 ≤ maxDepth)
    {items : List (List Char × PyValue)} {text : List Char} {json : Json}
    (htext : dumps limit maxDepth (.dict (.ofList items)) = .ok text) (hjson : IsJson text json) :
    ∀ item ∈ items, item.2.depth < maxDepth ∧ item.2.Representable limit := by
  rw [forall₂_and, ← depth_dict_ofList_le hmax, ← representable_ofList]
  obtain ⟨u, hdepth, hvalue⟩ := bind_eq_ok.mp htext
  refine ⟨Nat.not_lt.mp (raiseIf_eq_ok.mp hdepth), Classical.byContradiction fun hnot => ?_⟩
  exact (dumpsValue_rejects (.dict (.ofList items)) hnot hvalue).not_isJson _ hjson

end PyJson
