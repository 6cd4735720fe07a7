import Mathlib.Data.List.Infix
import Mathlib.Data.Nat.Digits.Defs
import Mathlib.Tactic.Common

/-!
# JSON texts

The grammar of RFC 8259 as a parser: each function reads one rule of the grammar from the front of a text
and returns what is left. `IsJson` is the set of JSON texts with what they denote; the fuel of the parser
does not bound them (`parseValue_mono`).

`Reads` and `Rejects` say how a text behaves in front of a delimiter. A writer is checked against the
grammar with their rules for arrays and objects.
-/

namespace Rfc8259

/-! ## Grammar -/

/-- A JSON value. A number is its text. -/
inductive Json
  | null
  | bool (b : Bool)
  | number (text : List Char)
  | string (s : List Char)
  | array (items : List Json)
  | object (members : List (List Char × Json))

/-- `ws`. -/
def skipWs (s : List Char) : List Char :=
  s.dropWhile fun c => c = ' ' ∨ c = '\t' ∨ c = '\n' ∨ c = '\r'

/-- `DIGIT`. -/
def isDigit (c : Char) : Bool := '0' ≤ c ∧ c ≤ '9'

/-- `1*DIGIT`. -/
def parseDigits (s : List Char) : Option (List Char × List Char) :=
  match s.takeWhile isDigit with
  | [] => none
  | digits => some (digits, s.dropWhile isDigit)

/-- `int`. -/
def parseInt (s : List Char) : Option (List Char × List Char) :=
  if s.head? = some '0' then some (['0'], s.tail) else parseDigits s

/-- `[ frac ]`. -/
def parseFrac (s : List Char) : Option (List Char × List Char) :=
  if s.head? = some '.' then (parseDigits s.tail).map fun (digits, s) => ('.' :: digits, s)
  else some ([], s)

/-- `[ minus / plus ]` in front of the digits of an exponent. -/
def parseSign : List Char → List Char × List Char
  | c :: s => if c = '+' ∨ c = '-' then ([c], s) else ([], c :: s)
  | [] => ([], [])

/-- `[ exp ]`. -/
def parseExp : List Char → Option (List Char × List Char)
  | c :: s =>
    if c = 'e' ∨ c = 'E' then
      (parseDigits (parseSign s).2).map fun (digits, rest) => (c :: (parseSign s).1 ++ digits, rest)
    else some ([], c :: s)
  | [] => some ([], [])

/-- `[ minus ]`. -/
def parseMinus (s : List Char) : List Char × List Char :=
  if s.head? = some '-' then (['-'], s.tail) else ([], s)

/-- `number`. -/
def parseNumber (s : List Char) : Option (List Char × List Char) := do
  let (minus, s) := parseMinus s
  let (int, s) ← parseInt s
  let (frac, s) ← parseFrac s
  let (exp, s) ← parseExp s
  return (minus ++ int ++ frac ++ exp, s)

/-- `HEXDIG`. -/
def hexDigit? (c : Char) : Option ℕ :=
  if '0' ≤ c ∧ c ≤ '9' then some (c.toNat - '0'.toNat)
  else if 'a' ≤ c ∧ c ≤ 'f' then some (c.toNat - 'a'.toNat + 10)
  else if 'A' ≤ c ∧ c ≤ 'F' then some (c.toNat - 'A'.toNat + 10)
  else none

/-- The character that an escape of two characters stands for. -/
def escaped? : Char → Option ℕ
  | '"' => some 0x22
  | '\\' => some 0x5C
  | '/' => some 0x2F
  | 'b' => some 0x08
  | 'f' => some 0x0C
  | 'n' => some 0x0A
  | 'r' => some 0x0D
  | 't' => some 0x09
  | _ => none

/-- `*char quotation-mark`: the code points and the surrogates of the string. -/
def parseChars : List Char → Option (List ℕ × List Char)
  | [] => none
  | c :: s =>
    if c = '"' then some ([], s)
    else if c = '\\' then
      match s with
      | 'u' :: h₃ :: h₂ :: h₁ :: h₀ :: s => do
        let unit := (← hexDigit? h₃) * 0x1000 + (← hexDigit? h₂) * 0x100 + (← hexDigit? h₁) * 0x10 +
          (← hexDigit? h₀)
        let (units, s) ← parseChars s
        return (unit :: units, s)
      | e :: s => do
        let unit ← escaped? e
        let (units, s) ← parseChars s
        return (unit :: units, s)
      | [] => none
    else if c.toNat < 0x20 then none
    else do
      let (units, s) ← parseChars s
      return (c.toNat :: units, s)

/-- The string of code points, in which a pair of surrogates is one character. -/
def decode : List ℕ → List Char
  | high :: low :: units =>
    if 0xD800 ≤ high ∧ high < 0xDC00 ∧ 0xDC00 ≤ low ∧ low < 0xE000 then
      Char.ofNat (0x10000 + (high - 0xD800) * 0x400 + (low - 0xDC00)) :: decode units
    else (if 0xD800 ≤ high ∧ high < 0xE000 then '\uFFFD' else Char.ofNat high) :: decode (low :: units)
  | [unit] => [if 0xD800 ≤ unit ∧ unit < 0xE000 then '\uFFFD' else Char.ofNat unit]
  | [] => []

/-- `string`. -/
def parseString (s : List Char) : Option (List Char × List Char) :=
  if s.head? = some '"' then (parseChars s.tail).map fun (units, s) => (decode units, s) else none

/-- A literal name. -/
def parseLiteral (name : List Char) (value : Json) (s : List Char) : Option (Json × List Char) :=
  if name.isPrefixOf s then some (value, s.drop name.length) else none

/-- A `value` that is not an array or an object. -/
def parseScalar (s : List Char) : Option (Json × List Char) :=
  parseLiteral ['n', 'u', 'l', 'l'] .null s <|>
  parseLiteral ['t', 'r', 'u', 'e'] (.bool true) s <|>
  parseLiteral ['f', 'a', 'l', 's', 'e'] (.bool false) s <|>
  (parseString s).map (fun (text, s) => (.string text, s)) <|>
  (parseNumber s).map (fun (text, s) => (.number text, s))

mutual

/-- `value`. -/
def parseValue : ℕ → List Char → Option (Json × List Char)
  | fuel + 1, c :: s =>
    if c = '[' then
      if (skipWs s).head? = some ']' then some (.array [], (skipWs s).tail)
      else do
        let (first, s) ← parseValue fuel (skipWs s)
        let (items, s) ← parseItems fuel (skipWs s)
        return (.array (first :: items), s)
    else if c = '{' then
      if (skipWs s).head? = some '}' then some (.object [], (skipWs s).tail)
      else do
        let (first, s) ← parseMember fuel (skipWs s)
        let (members, s) ← parseMembers fuel (skipWs s)
        return (.object (first :: members), s)
    else parseScalar (c :: s)
  | _, _ => none

/-- `*( value-separator value ) end-array`. -/
def parseItems : ℕ → List Char → Option (List Json × List Char)
  | fuel + 1, c :: s =>
    if c = ']' then some ([], s)
    else if c = ',' then do
      let (item, s) ← parseValue fuel (skipWs s)
      let (items, s) ← parseItems fuel (skipWs s)
      return (item :: items, s)
    else none
  | _, _ => none

/-- `member`. -/
def parseMember : ℕ → List Char → Option ((List Char × Json) × List Char)
  | 0, _ => none
  | fuel + 1, s => do
    let (name, s) ← parseString s
    if (skipWs s).head? = some ':' then
      let (value, s) ← parseValue fuel (skipWs (skipWs s).tail)
      return ((name, value), s)
    else none

/-- `*( value-separator member ) end-object`. -/
def parseMembers : ℕ → List Char → Option (List (List Char × Json) × List Char)
  | fuel + 1, c :: s =>
    if c = '}' then some ([], s)
    else if c = ',' then do
      let (member, s) ← parseMember fuel (skipWs s)
      let (members, s) ← parseMembers fuel (skipWs s)
      return (member :: members, s)
    else none
  | _, _ => none

end

/-- `JSON-text`: the text denotes the value. -/
def IsJson (text : List Char) (value : Json) : Prop :=
  ∃ fuel rest, parseValue fuel (skipWs text) = some (value, rest) ∧ skipWs rest = []

/-! ## Fuel -/

theorem bind_mono {α β : Type} {x x' : Option α} {f f' : α → Option β} {r : β}
    (hx : ∀ a, x = some a → x' = some a) (hf : ∀ a, f a = some r → f' a = some r)
    (h : x >>= f = some r) : x' >>= f' = some r := by
  obtain ⟨a, ha, hr⟩ := Option.bind_eq_some_iff.mp h
  exact Option.bind_eq_some_iff.mpr ⟨a, hx a ha, hf a hr⟩

/-- More fuel gives the same result. -/
theorem parse_mono (fuel : ℕ) :
    (∀ s r, parseValue fuel s = some r → parseValue (fuel + 1) s = some r) ∧
    (∀ s r, parseItems fuel s = some r → parseItems (fuel + 1) s = some r) ∧
    (∀ s r, parseMember fuel s = some r → parseMember (fuel + 1) s = some r) ∧
    (∀ s r, parseMembers fuel s = some r → parseMembers (fuel + 1) s = some r) := by
  induction fuel with
  | zero => exact ⟨nofun, nofun, nofun, nofun⟩
  | succ fuel ih =>
    obtain ⟨ihValue, ihItems, ihMember, ihMembers⟩ := ih
    refine ⟨fun s r h => ?_, fun s r h => ?_, fun s r h => ?_, fun s r h => ?_⟩
    · cases s with
      | nil => cases h
      | cons c s =>
        rw [parseValue] at h ⊢
        split_ifs at h ⊢
        · exact h
        · exact bind_mono (ihValue _) (fun _ => bind_mono (ihItems _) fun _ h => h) h
        · exact h
        · exact bind_mono (ihMember _) (fun _ => bind_mono (ihMembers _) fun _ h => h) h
        · exact h
    · cases s with
      | nil => cases h
      | cons c s =>
        rw [parseItems] at h ⊢
        split_ifs at h ⊢
        · exact h
        · exact bind_mono (ihValue _) (fun _ => bind_mono (ihItems _) fun _ h => h) h
    · rw [parseMember] at h ⊢
      refine bind_mono (fun _ h => h) (fun _ h => ?_) h
      dsimp only at h ⊢
      split_ifs at h ⊢
      exact bind_mono (ihValue _) (fun _ h => h) h
    · cases s with
      | nil => cases h
      | cons c s =>
        rw [parseMembers] at h ⊢
        split_ifs at h ⊢
        · exact h
        · exact bind_mono (ihMember _) (fun _ => bind_mono (ihMembers _) fun _ h => h) h

theorem parseValue_mono {fuel fuel' : ℕ} (hle : fuel ≤ fuel') {s : List Char}
    {r : Json × List Char} (h : parseValue fuel s = some r) : parseValue fuel' s = some r := by
  induction hle with
  | refl => exact h
  | step _ ih => exact (parse_mono _).1 s r ih

/-! ## Numbers -/

/-- What can stand behind a value in a text without whitespace before delimiters. -/
def Delimited (rest : List Char) : Prop :=
  ∀ c ∈ rest.head?, c = ',' ∨ c = ']' ∨ c = '}'

variable {s rest t : List Char} {a : List Char}

theorem takeWhile_append_of_head {p : Char → Bool} (hrest : ∀ c ∈ rest.head?, p c = false) :
    (s ++ rest).takeWhile p = s.takeWhile p ∧ (s ++ rest).dropWhile p = s.dropWhile p ++ rest := by
  induction s with
  | nil =>
    cases rest with
    | nil => exact ⟨rfl, rfl⟩
    | cons c rest =>
      have hc := hrest c rfl
      exact ⟨List.takeWhile_cons_of_neg (by simp [hc]), List.dropWhile_cons_of_neg (by simp [hc])⟩
  | cons c s ih =>
    rw [List.cons_append, List.takeWhile_cons, List.dropWhile_cons, List.takeWhile_cons,
      List.dropWhile_cons, ih.1, ih.2]
    cases p c <;> exact ⟨rfl, rfl⟩

theorem Delimited.not_digit (h : Delimited rest) : ∀ c ∈ rest.head?, isDigit c = false := by
  intro c hc
  obtain rfl | rfl | rfl := h c hc <;> decide

/-- A rule that reads the same in front of a delimiter. -/
def Local (rule : List Char → Option (List Char × List Char)) : Prop :=
  ∀ ⦃s rest a t⦄, Delimited rest → rule s = some (a, t) → rule (s ++ rest) = some (a, t ++ rest)

theorem local_parseDigits : Local parseDigits := by
  intro s rest a t h ht
  obtain ⟨htake, hdrop⟩ := takeWhile_append_of_head (s := s) h.not_digit
  unfold parseDigits at ht ⊢
  rw [htake, hdrop]
  cases hdigits : s.takeWhile isDigit with
  | nil =>
    rw [hdigits] at ht
    cases ht
  | cons c digits =>
    rw [hdigits] at ht
    obtain ⟨rfl, rfl⟩ := Prod.mk.inj (Option.some.inj ht)
    rfl

theorem local_parseInt : Local parseInt := by
  intro s rest a t h ht
  cases s with
  | nil => cases ht
  | cons c s =>
    unfold parseInt at ht ⊢
    rw [List.head?_cons] at ht
    rw [List.cons_append, List.head?_cons]
    split at ht
    · obtain ⟨rfl, rfl⟩ := Prod.mk.inj (Option.some.inj ht)
      next hzero => rw [if_pos hzero, List.tail_cons, List.tail_cons]
    · next hzero =>
      rw [if_neg hzero]
      exact local_parseDigits h ht

theorem local_parseFrac : Local parseFrac := by
  intro s rest a t h ht
  unfold parseFrac at ht ⊢
  cases s with
  | nil =>
    obtain ⟨rfl, rfl⟩ := Prod.mk.inj (Option.some.inj ht)
    refine if_neg fun hdot => ?_
    obtain hc | hc | hc := h _ hdot <;> cases hc
  | cons c s =>
    rw [List.head?_cons] at ht
    rw [List.cons_append, List.head?_cons]
    split at ht
    · next hdot =>
      obtain ⟨⟨digits, s'⟩, hdigits, heq⟩ := Option.map_eq_some_iff.mp ht
      obtain ⟨rfl, rfl⟩ := Prod.mk.inj heq
      rw [List.tail_cons] at hdigits
      rw [if_pos hdot, List.tail_cons, local_parseDigits h hdigits]
      rfl
    · next hdot =>
      obtain ⟨rfl, rfl⟩ := Prod.mk.inj (Option.some.inj ht)
      exact if_neg hdot

theorem parseSign_append (hs : s ≠ []) :
    parseSign (s ++ rest) = ((parseSign s).1, (parseSign s).2 ++ rest) := by
  cases s with
  | nil => exact absurd rfl hs
  | cons c s =>
    rw [List.cons_append, parseSign, parseSign]
    split <;> rfl

theorem local_parseExp : Local parseExp := by
  intro s rest a t h ht
  cases s with
  | nil =>
    obtain ⟨rfl, rfl⟩ := Prod.mk.inj (Option.some.inj ht)
    cases rest with
    | nil => rfl
    | cons c rest =>
      refine if_neg fun he => ?_
      obtain rfl | rfl := he <;> obtain hc | hc | hc := h _ rfl <;> cases hc
  | cons c s =>
    rw [List.cons_append, parseExp]
    rw [parseExp] at ht
    split at ht
    · next he =>
      obtain ⟨⟨digits, s'⟩, hdigits, heq⟩ := Option.map_eq_some_iff.mp ht
      obtain ⟨rfl, rfl⟩ := Prod.mk.inj heq
      have hs : s ≠ [] := by
        rintro rfl
        cases hdigits
      rw [if_pos he, parseSign_append hs, local_parseDigits h hdigits]
      rfl
    · next he =>
      obtain ⟨rfl, rfl⟩ := Prod.mk.inj (Option.some.inj ht)
      exact if_neg he

theorem parseMinus_append (hs : s ≠ []) :
    parseMinus (s ++ rest) = ((parseMinus s).1, (parseMinus s).2 ++ rest) := by
  cases s with
  | nil => exact absurd rfl hs
  | cons c s =>
    unfold parseMinus
    rw [List.cons_append, List.head?_cons, List.head?_cons]
    split <;> rfl

/-- A number is read up to the delimiter. -/
theorem local_parseNumber : Local parseNumber := by
  intro s rest a t h ht
  have hs : s ≠ [] := by
    rintro rfl
    cases ht
  obtain ⟨⟨int, s₁⟩, hint, ht⟩ := Option.bind_eq_some_iff.mp ht
  obtain ⟨⟨frac, s₂⟩, hfrac, ht⟩ := Option.bind_eq_some_iff.mp ht
  obtain ⟨⟨exp, s₃⟩, hexp, ht⟩ := Option.bind_eq_some_iff.mp ht
  obtain ⟨rfl, rfl⟩ := Prod.mk.inj (Option.some.inj ht)
  unfold parseNumber
  rw [parseMinus_append hs]
  exact Option.bind_eq_some_iff.mpr ⟨_, local_parseInt h hint,
    Option.bind_eq_some_iff.mpr ⟨_, local_parseFrac h hfrac,
      Option.bind_eq_some_iff.mpr ⟨_, local_parseExp h hexp, rfl⟩⟩⟩

/-- The text of a number. -/
structure NumberText where
  text : List Char
  parse_eq : parseNumber text = some (text, [])

theorem isDigit_of_parseInt {c : Char} {r : List Char × List Char}
    (h : parseInt (c :: s) = some r) : isDigit c = true := by
  unfold parseInt at h
  split at h
  · next hzero =>
    obtain rfl := Option.some.inj hzero
    rfl
  · cases hc : isDigit c with
    | true => rfl
    | false =>
      unfold parseDigits at h
      rw [List.takeWhile_cons_of_neg (by simp [hc])] at h
      cases h

/-- A number starts with a minus or a digit. -/
theorem head_of_parseNumber {r : List Char × List Char} (h : parseNumber s = some r) :
    ∃ c t, s = c :: t ∧ (c = '-' ∨ isDigit c = true) := by
  cases s with
  | nil => cases h
  | cons c s =>
    refine ⟨c, s, rfl, ?_⟩
    cases Decidable.em (c = '-') with
    | inl hminus => exact .inl hminus
    | inr hminus =>
      have hfirst : parseMinus (c :: s) = ([], c :: s) :=
        if_neg fun heq => hminus (Option.some.inj heq)
      unfold parseNumber at h
      rw [hfirst] at h
      obtain ⟨⟨int, s'⟩, hint, -⟩ := Option.bind_eq_some_iff.mp h
      exact .inr (isDigit_of_parseInt hint)

/-! ## Strings -/

theorem parseChars_quote (s : List Char) : parseChars ('"' :: s) = some ([], s) := by
  rw [parseChars.eq_def]
  exact if_pos rfl

/-- A character that is not escaped. -/
theorem parseChars_unescaped {c : Char} (hquote : c ≠ '"') (hbackslash : c ≠ '\\')
    (hcontrol : ¬ c.toNat < 0x20) (s : List Char) :
    parseChars (c :: s) = (parseChars s).map fun (units, s) => (c.toNat :: units, s) := by
  rw [parseChars.eq_def]
  dsimp only
  rw [if_neg hquote, if_neg hbackslash, if_neg hcontrol]
  cases parseChars s <;> rfl

/-- An escape of two characters. -/
theorem parseChars_escaped {e : Char} {unit : ℕ} (he : escaped? e = some unit) (s : List Char) :
    parseChars ('\\' :: e :: s) = (parseChars s).map fun (units, s) => (unit :: units, s) := by
  rw [parseChars.eq_def]
  dsimp only
  rw [if_neg (by decide), if_pos rfl]
  split
  · next heq =>
    obtain ⟨rfl, -⟩ := List.cons.inj heq
    cases he
  · next heq =>
    obtain ⟨rfl, rfl⟩ := List.cons.inj heq
    rw [he]
    cases parseChars s <;> rfl
  · next heq => cases heq

/-- An escape of a code unit. -/
theorem parseChars_unicode {h₃ h₂ h₁ h₀ : Char} {n₃ n₂ n₁ n₀ : ℕ} (hn₃ : hexDigit? h₃ = some n₃)
    (hn₂ : hexDigit? h₂ = some n₂) (hn₁ : hexDigit? h₁ = some n₁) (hn₀ : hexDigit? h₀ = some n₀)
    (s : List Char) : parseChars ('\\' :: 'u' :: h₃ :: h₂ :: h₁ :: h₀ :: s) = (parseChars s).map
      fun (units, s) => ((n₃ * 0x1000 + n₂ * 0x100 + n₁ * 0x10 + n₀) :: units, s) := by
  rw [parseChars.eq_def]
  dsimp only
  rw [if_neg (by decide), if_pos rfl]
  change (hexDigit? h₃ >>= _) = _
  rw [hn₃, hn₂, hn₁, hn₀]
  cases parseChars s <;> rfl

theorem decode_cons (c : Char) (units : List ℕ) : decode (c.toNat :: units) = c :: decode units := by
  have hvalid : ¬ (0xD800 ≤ c.toNat ∧ c.toNat < 0xE000) := by
    have := c.valid
    unfold UInt32.isValidChar Nat.isValidChar at this
    unfold Char.toNat
    omega
  cases units with
  | nil => rw [decode, if_neg hvalid, Char.ofNat_toNat, decode]
  | cons unit units =>
    have hpair : ¬ (0xD800 ≤ c.toNat ∧ c.toNat < 0xDC00 ∧ 0xDC00 ≤ unit ∧ unit < 0xE000) :=
      fun h => hvalid ⟨h.1, h.2.1.trans (by decide)⟩
    rw [decode, if_neg hpair, if_neg hvalid, Char.ofNat_toNat]

theorem decode_map (s : List Char) : decode (s.map Char.toNat) = s := by
  induction s with
  | nil => rfl
  | cons c s ih => rw [List.map_cons, decode_cons, ih]

/-! ## Items in front of delimiters -/

/-- The text starts with a character that is neither whitespace nor the end of an array or object. -/
def Starts (text : List Char) : Prop :=
  ∃ c s, text = c :: s ∧ c ∉ [' ', '\t', '\n', '\r', ']', '}']

variable {α : Type} {item : ℕ → List Char → Option (α × List Char)} {text : List Char} {x : α}

/-- In front of a delimiter the rule reads the text, when it has enough fuel. -/
structure Reads (item : ℕ → List Char → Option (α × List Char)) (text : List Char) (x : α) :
    Prop where
  starts : Starts text
  reads : ∃ n, ∀ rest, Delimited rest → ∀ fuel, n ≤ fuel → item fuel (text ++ rest) = some (x, rest)

/-- In front of a delimiter the rule does not read a prefix of the text. -/
structure Rejects (item : ℕ → List Char → Option (α × List Char)) (text : List Char) : Prop where
  starts : Starts text
  rejects : ∀ rest, Delimited rest → ∀ fuel, item fuel (text ++ rest) = none

theorem Starts.skipWs_append (h : Starts text) (rest : List Char) :
    skipWs (text ++ rest) = text ++ rest := by
  obtain ⟨c, s, rfl, hc⟩ := h
  refine List.dropWhile_cons_of_neg ?_
  simp only [List.mem_cons, not_or] at hc
  simp [hc]

theorem Starts.skipWs_blank (h : Starts text) (rest : List Char) :
    skipWs (' ' :: (text ++ rest)) = text ++ rest :=
  (List.dropWhile_cons_of_pos rfl).trans (h.skipWs_append rest)

/-- With any fuel the rule reads the text or nothing. -/
theorem Reads.eq_none_or (h : Reads item text x) {rest : List Char} (hrest : Delimited rest)
    (hmono : ∀ fuel s r, item fuel s = some r → item (fuel + 1) s = some r) (fuel : ℕ) :
    item fuel (text ++ rest) = none ∨ item fuel (text ++ rest) = some (x, rest) := by
  cases hitem : item fuel (text ++ rest) with
  | none => exact .inl rfl
  | some r =>
    obtain ⟨n, hreads⟩ := h.reads
    have hlater : ∀ k, item (fuel + k) (text ++ rest) = some r := by
      intro k
      induction k with
      | zero => exact hitem
      | succ k ih => exact hmono _ _ _ ih
    exact .inr ((hlater n).symm.trans (hreads rest hrest _ (Nat.le_add_left _ _)))

/-- The rules of arrays and of objects: items between commas up to the closing character. -/
structure Sequence (α : Type) where
  close : Char
  item : ℕ → List Char → Option (α × List Char)
  items : ℕ → List Char → Option (List α × List Char)
  close_eq : close = ']' ∨ close = '}'
  item_mono : ∀ fuel s r, item fuel s = some r → item (fuel + 1) s = some r
  items_zero : ∀ s, items 0 s = none
  items_succ : ∀ fuel c s, items (fuel + 1) (c :: s) =
    if c = close then some ([], s)
    else if c = ',' then do
      let (first, s) ← item fuel (skipWs s)
      let (others, s) ← items fuel (skipWs s)
      return (first :: others, s)
    else none

def arrays : Sequence Json where
  close := ']'
  item := parseValue
  items := parseItems
  close_eq := .inl rfl
  item_mono fuel := (parse_mono fuel).1
  items_zero _ := rfl
  items_succ _ _ _ := rfl

def objects : Sequence (List Char × Json) where
  close := '}'
  item := parseMember
  items := parseMembers
  close_eq := .inr rfl
  item_mono fuel := (parse_mono fuel).2.2.1
  items_zero _ := rfl
  items_succ _ _ _ := rfl

namespace Sequence

variable (S : Sequence α) {tail : List Char} {xs : List α}

/-- The text starts with a comma or the closing character. -/
def Follows (tail : List Char) : Prop := ∃ c s, tail = c :: s ∧ (c = ',' ∨ c = S.close)

/-- The rest of a sequence reads as these items. -/
structure TailReads (tail : List Char) (xs : List α) : Prop where
  follows : S.Follows tail
  reads : ∃ n, ∀ rest fuel, n ≤ fuel → S.items fuel (tail ++ rest) = some (xs, rest)

/-- The rest of a sequence does not read. -/
structure TailRejects (tail : List Char) : Prop where
  follows : S.Follows tail
  rejects : ∀ rest fuel, S.items fuel (tail ++ rest) = none

variable {S}

theorem Follows.delimited (h : S.Follows tail) (rest : List Char) : Delimited (tail ++ rest) := by
  obtain ⟨c, s, rfl, hc⟩ := h
  intro d hd
  obtain rfl : c = d := Option.some.inj hd
  cases hc with
  | inl hcomma => exact .inl hcomma
  | inr hclose => exact .inr (hclose ▸ S.close_eq)

theorem Follows.skipWs_append (h : S.Follows tail) (rest : List Char) :
    skipWs (tail ++ rest) = tail ++ rest := by
  obtain ⟨c, s, rfl, hc⟩ := h
  refine List.dropWhile_cons_of_neg ?_
  obtain rfl | rfl := hc
  · decide
  · obtain hclose | hclose := S.close_eq <;> rw [hclose] <;> decide

theorem tailReads_close : S.TailReads [S.close] [] where
  follows := ⟨S.close, [], rfl, .inr rfl⟩
  reads := by
    refine ⟨1, fun rest fuel hfuel => ?_⟩
    obtain ⟨fuel, rfl⟩ := Nat.exists_eq_add_of_le' hfuel
    exact (S.items_succ fuel S.close rest).trans (if_pos rfl)

theorem close_ne_comma : ',' ≠ S.close := by
  obtain h | h := S.close_eq <;> rw [h] <;> decide

/-! ### An item and the items behind it -/

variable (S) in
/-- An item and the items behind it. -/
def itemsFrom (fuel : ℕ) (s : List Char) : Option (List α × List Char) := do
  let (first, s) ← S.item fuel s
  let (others, s) ← S.items fuel (skipWs s)
  return (first :: others, s)

theorem itemsFrom_of_item {fuel : ℕ} {s rest : List Char} (h : S.item fuel s = some (x, rest)) :
    S.itemsFrom fuel s = (S.items fuel (skipWs rest)).map fun (others, s) => (x :: others, s) := by
  unfold itemsFrom
  rw [h]
  dsimp only [Option.bind_eq_bind, Option.bind_some]
  cases S.items fuel (skipWs rest) <;> rfl

theorem itemsFrom_reads (hitem : Reads S.item text x) (htail : S.TailReads tail xs) :
    ∃ n, ∀ rest fuel, n ≤ fuel →
      S.itemsFrom fuel (text ++ (tail ++ rest)) = some (x :: xs, rest) := by
  obtain ⟨n, hreads⟩ := hitem.reads
  obtain ⟨m, hreads'⟩ := htail.reads
  refine ⟨max n m, fun rest fuel hfuel => ?_⟩
  have hn : n ≤ fuel := (Nat.le_max_left n m).trans hfuel
  have hm : m ≤ fuel := (Nat.le_max_right n m).trans hfuel
  rw [itemsFrom_of_item (hreads _ (htail.follows.delimited rest) _ hn),
    htail.follows.skipWs_append, hreads' rest _ hm]
  rfl

/-- An item that does not read. -/
theorem itemsFrom_rejects_item (hitem : Rejects S.item text) (hfollows : S.Follows tail)
    (fuel : ℕ) (rest : List Char) : S.itemsFrom fuel (text ++ (tail ++ rest)) = none := by
  unfold itemsFrom
  rw [hitem.rejects _ (hfollows.delimited rest)]
  rfl

/-- Items behind the first one that do not read. -/
theorem itemsFrom_rejects_tail (hitem : Reads S.item text x) (htail : S.TailRejects tail)
    (fuel : ℕ) (rest : List Char) : S.itemsFrom fuel (text ++ (tail ++ rest)) = none := by
  cases hitem.eq_none_or (htail.follows.delimited rest) S.item_mono fuel with
  | inl hnone =>
    unfold itemsFrom
    rw [hnone]
    rfl
  | inr hsome =>
    rw [itemsFrom_of_item hsome, htail.follows.skipWs_append, htail.rejects]
    rfl

/-! ### Behind a comma -/

/-- The equation of a sequence at a comma and a blank. -/
theorem items_comma (hitem : Starts text) (fuel : ℕ) (rest : List Char) :
    S.items (fuel + 1) (',' :: ' ' :: text ++ tail ++ rest) =
      S.itemsFrom fuel (text ++ (tail ++ rest)) := by
  have hsplit : ',' :: ' ' :: text ++ tail ++ rest = ',' :: (' ' :: (text ++ (tail ++ rest))) := by
    rw [List.append_assoc]
    rfl
  rw [hsplit, S.items_succ, if_neg close_ne_comma, if_pos rfl, hitem.skipWs_blank]
  rfl

theorem follows_comma (tail : List Char) : S.Follows (',' :: tail) := ⟨',', tail, rfl, .inl rfl⟩

theorem tailReads_comma (hitem : Reads S.item text x) (htail : S.TailReads tail xs) :
    S.TailReads (',' :: ' ' :: text ++ tail) (x :: xs) where
  follows := follows_comma _
  reads := by
    obtain ⟨n, hreads⟩ := itemsFrom_reads hitem htail
    refine ⟨n + 1, fun rest fuel hfuel => ?_⟩
    obtain ⟨fuel, rfl⟩ := Nat.exists_eq_add_of_le' hfuel
    rw [← Nat.add_assoc, items_comma hitem.starts]
    exact hreads rest _ (Nat.le_add_left n fuel)

theorem tailRejects_item (hitem : Rejects S.item text) (hfollows : S.Follows tail) :
    S.TailRejects (',' :: ' ' :: text ++ tail) where
  follows := follows_comma _
  rejects := by
    intro rest fuel
    cases fuel with
    | zero => exact S.items_zero _
    | succ fuel =>
      rw [items_comma hitem.starts]
      exact itemsFrom_rejects_item hitem hfollows fuel rest

theorem tailRejects_tail (hitem : Reads S.item text x) (htail : S.TailRejects tail) :
    S.TailRejects (',' :: ' ' :: text ++ tail) where
  follows := follows_comma _
  rejects := by
    intro rest fuel
    cases fuel with
    | zero => exact S.items_zero _
    | succ fuel =>
      rw [items_comma hitem.starts]
      exact itemsFrom_rejects_tail hitem htail fuel rest

/-! ### Behind the opening character -/

variable (S) in
/-- What stands behind the opening character. -/
def body (fuel : ℕ) (s : List Char) : Option (List α × List Char) :=
  if (skipWs s).head? = some S.close then some ([], (skipWs s).tail) else S.itemsFrom fuel (skipWs s)

variable (S) in
/-- The text behind the opening character reads as these items. -/
def BodyReads (text : List Char) (xs : List α) : Prop :=
  ∃ n, ∀ rest fuel, n ≤ fuel → S.body fuel (text ++ rest) = some (xs, rest)

variable (S) in
/-- The text behind the opening character does not read. -/
def BodyRejects (text : List Char) : Prop := ∀ rest fuel, S.body fuel (text ++ rest) = none

theorem bodyReads_close : S.BodyReads [S.close] [] := by
  refine ⟨0, fun rest fuel _ => ?_⟩
  have hskip : skipWs (S.close :: rest) = S.close :: rest :=
    (tailReads_close (S := S)).follows.skipWs_append rest
  unfold body
  rw [List.singleton_append, hskip]
  exact if_pos rfl

/-- The equation of a body with an item. -/
theorem body_item (hitem : Starts text) (fuel : ℕ) (rest : List Char) :
    S.body fuel (text ++ tail ++ rest) = S.itemsFrom fuel (text ++ (tail ++ rest)) := by
  unfold body
  rw [List.append_assoc, hitem.skipWs_append]
  refine if_neg ?_
  obtain ⟨c, s, rfl, hc⟩ := hitem
  intro hclose
  obtain rfl : c = S.close := Option.some.inj hclose
  obtain h | h := S.close_eq
  · rw [h] at hc
    exact hc (by decide)
  · rw [h] at hc
    exact hc (by decide)

theorem bodyReads_item (hitem : Reads S.item text x) (htail : S.TailReads tail xs) :
    S.BodyReads (text ++ tail) (x :: xs) := by
  obtain ⟨n, hreads⟩ := itemsFrom_reads hitem htail
  exact ⟨n, fun rest fuel hfuel => (body_item hitem.starts fuel rest).trans (hreads rest fuel hfuel)⟩

theorem bodyRejects_item (hitem : Rejects S.item text) (hfollows : S.Follows tail) :
    S.BodyRejects (text ++ tail) := fun rest fuel =>
  (body_item hitem.starts fuel rest).trans (itemsFrom_rejects_item hitem hfollows fuel rest)

theorem bodyRejects_tail (hitem : Reads S.item text x) (htail : S.TailRejects tail) :
    S.BodyRejects (text ++ tail) := fun rest fuel =>
  (body_item hitem.starts fuel rest).trans (itemsFrom_rejects_tail hitem htail fuel rest)

end Sequence

/-! ## Values -/

theorem parseValue_array (fuel : ℕ) (s : List Char) : parseValue (fuel + 1) ('[' :: s) =
    (arrays.body fuel s).map fun (items, s) => (.array items, s) := by
  rw [parseValue, if_pos rfl]
  cases Decidable.em ((skipWs s).head? = some ']') with
  | inl h =>
    have hbody : arrays.body fuel s = some ([], (skipWs s).tail) := if_pos h
    rw [if_pos h, hbody]
    rfl
  | inr h =>
    have hbody : arrays.body fuel s = arrays.itemsFrom fuel (skipWs s) := if_neg h
    rw [if_neg h, hbody]
    dsimp only [Sequence.itemsFrom, arrays]
    cases parseValue fuel (skipWs s) with
    | none => rfl
    | some r =>
      dsimp only [Option.bind_eq_bind, Option.bind_some]
      cases parseItems fuel (skipWs r.2) <;> rfl

theorem parseValue_object (fuel : ℕ) (s : List Char) : parseValue (fuel + 1) ('{' :: s) =
    (objects.body fuel s).map fun (members, s) => (.object members, s) := by
  rw [parseValue, if_neg (by decide), if_pos rfl]
  cases Decidable.em ((skipWs s).head? = some '}') with
  | inl h =>
    have hbody : objects.body fuel s = some ([], (skipWs s).tail) := if_pos h
    rw [if_pos h, hbody]
    rfl
  | inr h =>
    have hbody : objects.body fuel s = objects.itemsFrom fuel (skipWs s) := if_neg h
    rw [if_neg h, hbody]
    dsimp only [Sequence.itemsFrom, objects]
    cases parseMember fuel (skipWs s) with
    | none => rfl
    | some r =>
      dsimp only [Option.bind_eq_bind, Option.bind_some]
      cases parseMembers fuel (skipWs r.2) <;> rfl

/-- A value whose text starts with this character is read by `read` behind it. -/
theorem reads_of_open {c : Char} {β : Type} {read : ℕ → List Char → Option (β × List Char)}
    {f : β → Json} {b : β} (hc : c ∉ [' ', '\t', '\n', '\r', ']', '}'])
    (hvalue : ∀ fuel s, parseValue (fuel + 1) (c :: s) = (read fuel s).map fun (b, s) => (f b, s))
    (hread : ∃ n, ∀ rest fuel, n ≤ fuel → read fuel (text ++ rest) = some (b, rest)) :
    Reads parseValue (c :: text) (f b) where
  starts := ⟨c, text, rfl, hc⟩
  reads := by
    obtain ⟨n, hreads⟩ := hread
    refine ⟨n + 1, fun rest _ fuel hfuel => ?_⟩
    obtain ⟨fuel, rfl⟩ := Nat.exists_eq_add_of_le' hfuel
    rw [← Nat.add_assoc, List.cons_append, hvalue, hreads rest _ (Nat.le_add_left n fuel)]
    rfl

theorem rejects_of_open {c : Char} {β : Type} {read : ℕ → List Char → Option (β × List Char)}
    {f : β → Json} (hc : c ∉ [' ', '\t', '\n', '\r', ']', '}'])
    (hvalue : ∀ fuel s, parseValue (fuel + 1) (c :: s) = (read fuel s).map fun (b, s) => (f b, s))
    (hread : ∀ rest fuel, read fuel (text ++ rest) = none) : Rejects parseValue (c :: text) where
  starts := ⟨c, text, rfl, hc⟩
  rejects := by
    intro rest _ fuel
    cases fuel with
    | zero => rfl
    | succ fuel =>
      rw [List.cons_append, hvalue, hread]
      rfl

theorem reads_array {items : List Json} (h : arrays.BodyReads text items) :
    Reads parseValue ('[' :: text) (.array items) :=
  reads_of_open (by decide) parseValue_array h

theorem rejects_array (h : arrays.BodyRejects text) : Rejects parseValue ('[' :: text) :=
  rejects_of_open (by decide) parseValue_array h

theorem reads_object {members : List (List Char × Json)} (h : objects.BodyReads text members) :
    Reads parseValue ('{' :: text) (.object members) :=
  reads_of_open (by decide) parseValue_object h

theorem rejects_object (h : objects.BodyRejects text) : Rejects parseValue ('{' :: text) :=
  rejects_of_open (by decide) parseValue_object h

/-- A text that starts like a scalar is read as one. -/
theorem parseValue_scalar {c : Char} (hc : c ≠ '[' ∧ c ≠ '{') (fuel : ℕ) (s : List Char) :
    parseValue (fuel + 1) (c :: s) = parseScalar (c :: s) := by
  rw [parseValue, if_neg hc.1, if_neg hc.2]

/-- The text starts like a scalar. -/
def StartsScalar (text : List Char) : Prop :=
  ∃ c s, text = c :: s ∧ c ∉ [' ', '\t', '\n', '\r', ']', '}', '[', '{']

theorem StartsScalar.starts (h : StartsScalar text) : Starts text := by
  obtain ⟨c, s, rfl, hc⟩ := h
  exact ⟨c, s, rfl, fun hmem => hc (by simp only [List.mem_cons] at hmem ⊢; tauto)⟩

theorem StartsScalar.parseValue_succ (h : StartsScalar text) (fuel : ℕ) (rest : List Char) :
    parseValue (fuel + 1) (text ++ rest) = parseScalar (text ++ rest) := by
  obtain ⟨c, s, rfl, hc⟩ := h
  exact parseValue_scalar ⟨fun h => hc (by rw [h]; decide), fun h => hc (by rw [h]; decide)⟩ fuel _

theorem reads_scalar {value : Json} (hstarts : StartsScalar text)
    (h : ∀ rest, Delimited rest → parseScalar (text ++ rest) = some (value, rest)) :
    Reads parseValue text value where
  starts := hstarts.starts
  reads := by
    refine ⟨1, fun rest hrest fuel hfuel => ?_⟩
    obtain ⟨fuel, rfl⟩ := Nat.exists_eq_add_of_le' hfuel
    exact (hstarts.parseValue_succ fuel rest).trans (h rest hrest)

theorem rejects_scalar (hstarts : StartsScalar text)
    (h : ∀ rest, parseScalar (text ++ rest) = none) : Rejects parseValue text where
  starts := hstarts.starts
  rejects := by
    intro rest _ fuel
    cases fuel with
    | zero => rfl
    | succ fuel => exact (hstarts.parseValue_succ fuel rest).trans (h rest)

theorem reads_null : Reads parseValue ['n', 'u', 'l', 'l'] .null :=
  reads_scalar ⟨_, _, rfl, by decide⟩ fun _ _ => rfl

theorem reads_true : Reads parseValue ['t', 'r', 'u', 'e'] (.bool true) :=
  reads_scalar ⟨_, _, rfl, by decide⟩ fun _ _ => rfl

theorem reads_false : Reads parseValue ['f', 'a', 'l', 's', 'e'] (.bool false) :=
  reads_scalar ⟨_, _, rfl, by decide⟩ fun _ _ => rfl

/-- A string of the grammar. -/
def ReadsString (text s : List Char) : Prop :=
  (∃ body, text = '"' :: body) ∧ ∀ rest, parseString (text ++ rest) = some (s, rest)

theorem reads_string {str : List Char} (h : ReadsString text str) :
    Reads parseValue text (.string str) := by
  obtain ⟨⟨body, rfl⟩, hparse⟩ := h
  refine reads_scalar ⟨'"', body, rfl, by decide⟩ fun rest _ => ?_
  unfold parseScalar
  rw [hparse]
  rfl

theorem parseLiteral_of_ne {c d : Char} {name : List Char} {value : Json} (h : c ≠ d) :
    parseLiteral (d :: name) value (c :: s) = none := by
  have hne : (d == c) = false := beq_eq_false_iff_ne.mpr (Ne.symm h)
  unfold parseLiteral
  rw [List.isPrefixOf, hne, Bool.false_and, if_neg Bool.false_ne_true]

/-- A number starts with none of `l`, checked for each character of `l`. -/
theorem not_mem_of_number {c : Char} {l : List Char} (hc : c = '-' ∨ isDigit c = true)
    (hall : (l.all fun d => !(d == '-' || isDigit d)) = true) : c ∉ l := by
  intro hmem
  have hnot : (c == '-' || isDigit c) = false := by
    have hneg := List.all_eq_true.mp hall c hmem
    rwa [Bool.not_eq_true'] at hneg
  rw [Bool.or_eq_false_iff, beq_eq_false_iff_ne] at hnot
  cases hc with
  | inl hminus => exact hnot.1 hminus
  | inr hdigit => exact absurd hdigit (ne_true_of_eq_false hnot.2)

/-- A scalar that starts with a minus or a digit is a number. -/
theorem parseScalar_number {c : Char} (hc : c = '-' ∨ isDigit c = true) :
    parseScalar (c :: s) = (parseNumber (c :: s)).map fun (text, s) => (.number text, s) := by
  have hne : ∀ d ∈ ['n', 't', 'f', '"'], c ≠ d := by
    rintro d hd rfl
    exact not_mem_of_number hc rfl hd
  have hstring : parseString (c :: s) = none :=
    if_neg fun hquote => hne '"' (by decide) (Option.some.inj hquote)
  unfold parseScalar
  rw [parseLiteral_of_ne (hne 'n' (by decide)), parseLiteral_of_ne (hne 't' (by decide)),
    parseLiteral_of_ne (hne 'f' (by decide)), hstring]
  rfl

theorem reads_number (number : NumberText) : Reads parseValue number.text (.number number.text) := by
  obtain ⟨c, t, htext, hc⟩ := head_of_parseNumber number.parse_eq
  refine reads_scalar ⟨c, t, htext, fun hmem => ?_⟩ fun rest hrest => ?_
  · exact not_mem_of_number hc rfl hmem
  · have hparse := local_parseNumber hrest number.parse_eq
    rw [htext] at hparse ⊢
    rw [List.cons_append] at hparse ⊢
    rw [parseScalar_number hc, hparse]
    rfl

/-- `NaN`, `Infinity` and `-Infinity` are no numbers of the grammar. -/
theorem rejects_nan : Rejects parseValue ['N', 'a', 'N'] :=
  rejects_scalar ⟨_, _, rfl, by decide⟩ fun _ => rfl

theorem rejects_infinity : Rejects parseValue ['I', 'n', 'f', 'i', 'n', 'i', 't', 'y'] :=
  rejects_scalar ⟨_, _, rfl, by decide⟩ fun _ => rfl

theorem rejects_minusInfinity : Rejects parseValue ['-', 'I', 'n', 'f', 'i', 'n', 'i', 't', 'y'] :=
  rejects_scalar ⟨_, _, rfl, by decide⟩ fun _ => rfl

/-! ## Members -/

theorem parseMember_colon {name key : List Char} (hkey : ReadsString key name) (hvalue : Starts text)
    (fuel : ℕ) (rest : List Char) :
    parseMember (fuel + 1) (key ++ ':' :: ' ' :: text ++ rest) =
      (parseValue fuel (text ++ rest)).map fun (value, s) => ((name, value), s) := by
  have hsplit : key ++ ':' :: ' ' :: text ++ rest = key ++ (':' :: ' ' :: (text ++ rest)) := by
    rw [List.append_assoc]
    rfl
  have hcolon : skipWs (':' :: ' ' :: (text ++ rest)) = ':' :: ' ' :: (text ++ rest) := rfl
  rw [parseMember, hsplit, hkey.2]
  dsimp only [Option.bind_eq_bind, Option.bind_some]
  rw [hcolon, List.head?_cons, if_pos rfl, List.tail_cons, hvalue.skipWs_blank]
  cases parseValue fuel (text ++ rest) <;> rfl

theorem reads_member {name key : List Char} {value : Json} (hkey : ReadsString key name)
    (hvalue : Reads parseValue text value) :
    Reads parseMember (key ++ ':' :: ' ' :: text) (name, value) where
  starts := by
    obtain ⟨⟨body, rfl⟩, -⟩ := hkey
    exact ⟨'"', _, rfl, by decide⟩
  reads := by
    obtain ⟨n, hreads⟩ := hvalue.reads
    refine ⟨n + 1, fun rest hrest fuel hfuel => ?_⟩
    obtain ⟨fuel, rfl⟩ := Nat.exists_eq_add_of_le' hfuel
    rw [← Nat.add_assoc, parseMember_colon hkey hvalue.starts,
      hreads rest hrest _ (Nat.le_add_left n fuel)]
    rfl

theorem rejects_member {name key : List Char} (hkey : ReadsString key name)
    (hvalue : Rejects parseValue text) : Rejects parseMember (key ++ ':' :: ' ' :: text) where
  starts := by
    obtain ⟨⟨body, rfl⟩, -⟩ := hkey
    exact ⟨'"', _, rfl, by decide⟩
  rejects := by
    intro rest hrest fuel
    cases fuel with
    | zero => rfl
    | succ fuel =>
      rw [parseMember_colon hkey hvalue.starts, hvalue.rejects rest hrest]
      rfl

/-- A text that reads is a JSON text. -/
theorem Reads.isJson {value : Json} (h : Reads parseValue text value) : IsJson text value := by
  obtain ⟨n, hreads⟩ := h.reads
  refine ⟨n, [], ?_, rfl⟩
  have hskip := h.starts.skipWs_append []
  rw [List.append_nil] at hskip
  rw [hskip]
  have hparse := hreads [] (fun _ hc => nomatch hc) n (Nat.le_refl n)
  rwa [List.append_nil] at hparse

theorem Rejects.not_isJson (h : Rejects parseValue text) (value : Json) : ¬ IsJson text value := by
  rintro ⟨fuel, rest, hparse, -⟩
  have hskip := h.starts.skipWs_append []
  rw [List.append_nil] at hskip
  have hnone := h.rejects [] (fun _ hc => nomatch hc) fuel
  rw [List.append_nil] at hnone
  rw [hskip, hnone] at hparse
  cases hparse

end Rfc8259
