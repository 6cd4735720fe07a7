import Mathlib.Data.List.Infix
import Mathlib.Data.List.DropRight
import Mathlib.Tactic.Common

/-!
# Strings

The methods of a Python string that parsers use, on lists of characters. An index that a method does
not find is `-1`, and a slice counts a negative bound from the end.

A pattern that has its first character nowhere else cannot overlap another occurrence of that
character; for such a pattern `find` looks through a concatenation part by part
(`find_append_of_head`).
-/

namespace PyStr

variable {s t pat : List Char}

/-! ## Methods -/

/-- The first position at which `pat` occurs. -/
def find? (pat : List Char) : List Char → Option ℕ
  | [] => if pat = [] then some 0 else none
  | c :: s => if pat.isPrefixOf (c :: s) then some 0 else (find? pat s).map (· + 1)

/-- `s.find(pat)`. -/
def find (s pat : List Char) : ℤ :=
  match find? pat s with
  | some i => i
  | none => -1

/-- `pat in s`. -/
def contains (s pat : List Char) : Bool := (find? pat s).isSome

/-- A bound of a slice. -/
def bound (s : List Char) (i : ℤ) : ℕ := if i < 0 then (s.length + i).toNat else i.toNat

/-- `s[:i]`. -/
def sliceTo (s : List Char) (i : ℤ) : List Char := s.take (bound s i)

/-- `s[i:]`. -/
def sliceFrom (s : List Char) (i : ℤ) : List Char := s.drop (bound s i)

/-- `s[i:j]`. -/
def slice (s : List Char) (i j : ℤ) : List Char := (s.take (bound s j)).drop (bound s i)

/-- `s.partition(sep)`. -/
def partition (s sep : List Char) : List Char × List Char × List Char :=
  match find? sep s with
  | some i => (s.take i, sep, s.drop (i + sep.length))
  | none => (s, [], [])

/-- `s.replace(old, new)` for an `old` that is not empty; the first characters in the number `skip` belong
to an occurrence that is already replaced. -/
def replaceFrom (old new : List Char) : ℕ → List Char → List Char
  | _, [] => []
  | skip + 1, _ :: s => replaceFrom old new skip s
  | 0, c :: s =>
    if old.isPrefixOf (c :: s) then new ++ replaceFrom old new (old.length - 1) s
    else c :: replaceFrom old new 0 s

/-- `s.replace(old, new)`. -/
def replace (s old new : List Char) : List Char := replaceFrom old new 0 s

/-- `c.isspace()`. -/
def isSpace (c : Char) : Bool :=
  (9 ≤ c.toNat ∧ c.toNat ≤ 13) ∨ (28 ≤ c.toNat ∧ c.toNat ≤ 32) ∨ c.toNat = 0x85 ∨ c.toNat = 0xA0 ∨
    c.toNat = 0x1680 ∨ (0x2000 ≤ c.toNat ∧ c.toNat ≤ 0x200A) ∨ c.toNat = 0x2028 ∨ c.toNat = 0x2029 ∨
    c.toNat = 0x202F ∨ c.toNat = 0x205F ∨ c.toNat = 0x3000

/-- `s.strip()`. -/
def strip (s : List Char) : List Char := (s.dropWhile isSpace).rdropWhile isSpace

/-! ## Finding -/

theorem find?_eq_none_iff (hpat : pat ≠ []) : find? pat s = none ↔ ¬ pat <:+: s := by
  induction s with
  | nil => simp [find?, hpat]
  | cons c s ih =>
    rw [find?, List.infix_cons_iff]
    by_cases h : pat <+: c :: s
    · simp [List.isPrefixOf_iff_prefix.mpr h, h]
    · have h' : pat.isPrefixOf (c :: s) = false := by
        rw [← Bool.not_eq_true, List.isPrefixOf_iff_prefix]
        exact h
      simp [h', h, ih]

/-- An occurrence at the front is the first one. -/
theorem find?_of_prefix (h : pat <+: s) : find? pat s = some 0 := by
  cases s with
  | nil =>
    obtain rfl := List.prefix_nil.mp h
    rfl
  | cons c s => rw [find?, if_pos (List.isPrefixOf_iff_prefix.mpr h)]

/-- No occurrence starts in `s`, so it is sought in the rest. -/
theorem find?_append {rest : List Char}
    (h : ∀ i < s.length, ¬ pat <+: (s ++ rest).drop i) :
    find? pat (s ++ rest) = (find? pat rest).map (· + s.length) := by
  induction s with
  | nil => simp
  | cons c s ih =>
    have hfirst : pat.isPrefixOf (c :: (s ++ rest)) = false := by
      rw [← Bool.not_eq_true, List.isPrefixOf_iff_prefix]
      exact h 0 (Nat.succ_pos _)
    have hrest := ih fun i hi => h (i + 1) (Nat.succ_lt_succ hi)
    rw [List.cons_append, find?, hfirst, if_neg Bool.false_ne_true, hrest, Option.map_map]
    congr 1

/-- A pattern that has its first character nowhere else does not reach across an occurrence of that
character. -/
theorem not_prefix_drop {c : Char} {body rest : List Char} (hc : c ∉ body)
    (hs : ¬ c :: body <:+: s) {i : ℕ} (hi : i < s.length) :
    ¬ c :: body <+: (s ++ c :: rest).drop i := by
  intro h
  obtain ⟨tail, htail⟩ := h
  rw [List.drop_append_of_le_length hi.le] at htail
  have hlen : (s.drop i).length = s.length - i := List.length_drop
  by_cases hfit : (c :: body).length ≤ (s.drop i).length
  · -- the occurrence lies inside `s`
    refine hs ⟨s.take i, (s.drop i).drop (c :: body).length, ?_⟩
    have hpre : c :: body <+: s.drop i := by
      refine List.prefix_of_prefix_length_le ⟨tail, htail⟩ (List.prefix_append _ _) hfit
    obtain ⟨u, hu⟩ := hpre
    rw [← hu, List.drop_left, List.append_assoc, hu, List.take_append_drop]
  · -- the occurrence covers the character behind `s`
    have hget : (c :: body)[s.length - i]? = some c := by
      have h₁ : (c :: body ++ tail)[s.length - i]? = some c := by
        rw [htail, List.getElem?_append_right hlen.le, hlen, Nat.sub_self]
        rfl
      rwa [List.getElem?_append_left (by omega)] at h₁
    obtain ⟨k, hk⟩ : ∃ k, s.length - i = k + 1 := ⟨s.length - i - 1, by omega⟩
    rw [hk, List.getElem?_cons_succ] at hget
    exact hc (List.mem_of_getElem? hget)

/-- `find` looks through a concatenation part by part when the second part starts with the first
character of the pattern. -/
theorem find?_append_of_head {c : Char} {body : List Char} (hc : c ∉ body)
    (hs : ¬ c :: body <:+: s) (rest : List Char) :
    find? (c :: body) (s ++ c :: rest) = (find? (c :: body) (c :: rest)).map (· + s.length) :=
  find?_append fun _ hi => not_prefix_drop hc hs hi

/-- The first occurrence behind a part without occurrences. -/
theorem find?_append_self {c : Char} {body : List Char} (hc : c ∉ body)
    (hs : ¬ c :: body <:+: s) (rest : List Char) :
    find? (c :: body) (s ++ c :: body ++ rest) = some s.length := by
  have hself : find? (c :: body) (c :: (body ++ rest)) = some 0 :=
    find?_of_prefix (List.prefix_append (c :: body) rest)
  rw [List.append_assoc, List.cons_append, find?_append_of_head hc hs, hself, Option.map_some,
    Nat.zero_add]

/-! ## Slices -/

theorem bound_natCast (s : List Char) (n : ℕ) : bound s n = n := by
  unfold bound
  rw [if_neg (by omega), Int.toNat_natCast]

theorem sliceTo_append (s t : List Char) : sliceTo (s ++ t) s.length = s := by
  unfold sliceTo
  rw [bound_natCast, List.take_left]

theorem sliceFrom_append (s t rest : List Char) :
    sliceFrom (s ++ (t ++ rest)) (s.length + t.length) = rest := by
  unfold sliceFrom
  rw [← Int.natCast_add, bound_natCast, ← List.length_append, ← List.append_assoc, List.drop_left]

theorem slice_of_le (s : List Char) {i j : ℕ} (h : j ≤ i) : slice s i j = [] := by
  unfold slice
  rw [bound_natCast, bound_natCast, List.drop_eq_nil_iff, List.length_take]
  exact (Nat.min_le_left _ _).trans h

/-! ## Whitespace -/

/-- The number of characters that are not whitespace. -/
def weight (s : List Char) : ℕ := s.countP fun c => ¬ isSpace c

theorem weight_append (s t : List Char) : weight (s ++ t) = weight s + weight t :=
  List.countP_append

theorem weight_dropWhile (s : List Char) : weight (s.dropWhile isSpace) = weight s := by
  induction s with
  | nil => rfl
  | cons c s ih =>
    rw [List.dropWhile_cons]
    unfold weight at ih ⊢
    split
    · next h => rw [ih, List.countP_cons_of_neg (by simpa using h)]
    · rfl

/-- Stripping only removes whitespace. -/
theorem weight_strip (s : List Char) : weight (strip s) = weight s := by
  have hrev : ∀ t : List Char, weight t.reverse = weight t := fun t => List.countP_reverse
  unfold strip List.rdropWhile
  rw [hrev, weight_dropWhile, hrev, weight_dropWhile]

end PyStr
