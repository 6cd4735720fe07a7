import Ikun.Lib.PyStr

/-!
# `findall` of lazy groups

Patterns of the form `word(.*?)stop` with a literal word and an end of the group that is matched at one
place: a word, a lookahead or the end of the text. The dot matches every character.

`findall` goes over a text part by part: it skips what no match starts in (`findall_append`) and takes a
match at the front (`findall_match`).
-/

namespace PyRegex

variable {s body rest word : List Char}

/-! ## Patterns -/

/-- The number of characters that a part of a pattern matches at the front of a text. -/
abbrev Matcher := List Char → Option ℕ

/-- `word`. -/
def literal (word : List Char) : Matcher := fun s =>
  if word.isPrefixOf s then some word.length else none

/-- `(?=word)`. -/
def lookahead (word : List Char) : Matcher := fun s => if word.isPrefixOf s then some 0 else none

/-- `$`: the end of the text or a newline there. -/
def endOfText : Matcher := fun s => if s = [] ∨ s = ['\n'] then some 0 else none

/-- `(?:a|b)`. -/
def either (a b : Matcher) : Matcher := fun s => a s <|> b s

/-- A match: its group, and the text behind it. -/
abbrev Pattern := List Char → Option (List Char × List Char)

/-- `(.*?)stop`. -/
def lazyGroup (stop : Matcher) : Pattern
  | [] => (stop []).map fun _ => ([], [])
  | c :: s =>
    match stop (c :: s) with
    | some n => some ([], (c :: s).drop n)
    | none => (lazyGroup stop s).map fun (group, rest) => (c :: group, rest)

/-- `(.*)$`. -/
def greedyRest : Pattern := fun s => some (s, [])

/-- `word` in front of the rest of a pattern. -/
def after (word : List Char) (pattern : Pattern) : Pattern := fun s =>
  if word.isPrefixOf s then pattern (s.drop word.length) else none

/-- `a|b`. -/
def orElse (a b : Pattern) : Pattern := fun s => a s <|> b s

/-- The groups of the matches, with a bound on their number. -/
def findallFrom (pattern : Pattern) : ℕ → List Char → List (List Char)
  | 0, _ => []
  | fuel + 1, s =>
    match pattern s with
    | some (group, rest) => group :: findallFrom pattern fuel rest
    | none => if s = [] then [] else findallFrom pattern fuel s.tail

/-- `pattern.findall(s)`, for a pattern that has no empty match. -/
def findall (pattern : Pattern) (s : List Char) : List (List Char) :=
  findallFrom pattern (s.length + 1) s

/-! ## Groups -/

/-- The group goes up to the first place where it can end. -/
theorem lazyGroup_append {stop : Matcher} {n : ℕ}
    (hbody : ∀ i < body.length, stop ((body ++ rest).drop i) = none) (hstop : stop rest = some n) :
    lazyGroup stop (body ++ rest) = some (body, rest.drop n) := by
  induction body with
  | nil =>
    cases rest with
    | nil => rw [List.append_nil, lazyGroup, hstop, Option.map_some, List.drop_nil]
    | cons c rest => rw [List.nil_append, lazyGroup, hstop]
  | cons c body ih =>
    have hfirst : stop (c :: (body ++ rest)) = none := hbody 0 (Nat.succ_pos _)
    have hrest := ih fun i hi => hbody (i + 1) (Nat.succ_lt_succ hi)
    rw [List.cons_append, lazyGroup, hfirst]
    dsimp only
    rw [hrest, Option.map_some]

/-- What stands behind a match is not longer than the text. -/
def Shortens (pattern : Pattern) : Prop :=
  ∀ ⦃s group rest⦄, pattern s = some (group, rest) → rest.length ≤ s.length

theorem shortens_lazyGroup (stop : Matcher) : Shortens (lazyGroup stop) := by
  intro s group rest h
  induction s generalizing group rest with
  | nil =>
    obtain ⟨n, -, heq⟩ := Option.map_eq_some_iff.mp h
    rw [← (Prod.mk.inj heq).2]
  | cons c s ih =>
    rw [lazyGroup] at h
    split at h
    · rw [← (Prod.mk.inj (Option.some.inj h)).2]
      rw [List.length_drop]
      exact Nat.sub_le _ _
    · obtain ⟨⟨group', rest'⟩, hrest, heq⟩ := Option.map_eq_some_iff.mp h
      rw [← (Prod.mk.inj heq).2]
      exact (ih hrest).trans (Nat.le_succ _)

theorem shortens_greedyRest : Shortens greedyRest := by
  intro s group rest h
  obtain ⟨rfl, rfl⟩ := Prod.mk.inj (Option.some.inj h)
  exact Nat.zero_le _

theorem shortens_orElse {a b : Pattern} (ha : Shortens a) (hb : Shortens b) :
    Shortens (orElse a b) := by
  intro s group rest h
  unfold orElse at h
  cases hmatch : a s with
  | some r =>
    rw [hmatch] at h
    obtain rfl := Option.some.inj h
    exact ha hmatch
  | none =>
    rw [hmatch] at h
    exact hb h

/-! ## All matches -/

/-- No match is empty. -/
def Shrinks (pattern : Pattern) : Prop :=
  ∀ ⦃s group rest⦄, pattern s = some (group, rest) → rest.length < s.length

theorem shrinks_after {pattern : Pattern} (hword : word ≠ []) (h : Shortens pattern) :
    Shrinks (after word pattern) := by
  intro s group rest hmatch
  unfold after at hmatch
  split at hmatch
  · next hpre =>
    have hle := h hmatch
    have hlength := (List.isPrefixOf_iff_prefix.mp hpre).length_le
    have hpos := List.length_pos_iff.mpr hword
    rw [List.length_drop] at hle
    omega
  · cases hmatch

/-- The bound does not matter when it is large enough. -/
theorem findallFrom_congr {pattern : Pattern} (hshrinks : Shrinks pattern) {m n : ℕ}
    (hm : s.length < m) (hn : s.length < n) : findallFrom pattern m s = findallFrom pattern n s := by
  induction m generalizing s n with
  | zero => exact absurd hm (Nat.not_lt_zero _)
  | succ m ih =>
    obtain ⟨n, rfl⟩ := Nat.exists_eq_succ_of_ne_zero (Nat.ne_zero_of_lt hn)
    rw [findallFrom, findallFrom]
    cases hmatch : pattern s with
    | some r =>
      have hlt := hshrinks hmatch
      exact congrArg _ (ih (hlt.trans_le (Nat.le_of_lt_succ hm)) (hlt.trans_le (Nat.le_of_lt_succ hn)))
    | none =>
      cases s with
      | nil => rfl
      | cons c s =>
        dsimp only
        rw [if_neg (List.cons_ne_nil c s), if_neg (List.cons_ne_nil c s)]
        exact ih (Nat.lt_of_succ_lt_succ hm) (Nat.lt_of_succ_lt_succ hn)

/-- A match at the front. -/
theorem findall_match {pattern : Pattern} (hshrinks : Shrinks pattern) {group : List Char}
    (hmatch : pattern s = some (group, rest)) : findall pattern s = group :: findall pattern rest := by
  unfold findall
  rw [findallFrom, hmatch]
  exact congrArg _ (findallFrom_congr hshrinks (hshrinks hmatch) (Nat.lt_succ_self _))

/-- A text in which no match starts. -/
theorem findall_append {pattern : Pattern}
    (h : ∀ i < body.length, pattern ((body ++ rest).drop i) = none) :
    findall pattern (body ++ rest) = findall pattern rest := by
  induction body with
  | nil => rfl
  | cons c body ih =>
    have hfirst : pattern (c :: (body ++ rest)) = none := h 0 (Nat.succ_pos _)
    rw [← ih fun i hi => h (i + 1) (Nat.succ_lt_succ hi)]
    unfold findall
    rw [List.cons_append, findallFrom, hfirst]
    exact if_neg (List.cons_ne_nil _ _)

theorem findall_nil {pattern : Pattern} (h : pattern [] = none) : findall pattern [] = [] := by
  unfold findall
  rw [findallFrom, h]
  exact if_pos rfl

end PyRegex
