import Ikun.Block.BlockTable

/-!
# Chunks of tokens

A table cuts the tokens it receives into chunks, one for each block, and fills its blocks from the
front. `Packed n ls` says of the sizes `ls` of a table's blocks that a block is only used when the
one before it is full, of size `n`.
-/

namespace Ikun

variable {α : Type} {n : ℕ}

/-! ## `chunk_list` -/

theorem chunkListRec_flatten (hn : 0 < n) :
    ∀ (fuel : ℕ) (xs : List α), xs.length ≤ fuel → (chunkListRec n fuel xs).flatten = xs
  | 0, xs, h => by
    obtain rfl : xs = [] := List.eq_nil_of_length_eq_zero (by omega)
    rfl
  | fuel + 1, xs, h => by
    unfold chunkListRec
    split
    · next hx => rw [hx]; rfl
    · next hx =>
      have hpos : 0 < xs.length := List.length_pos_iff.mpr hx
      rw [List.flatten_cons, chunkListRec_flatten hn fuel (xs.drop n)]
      · exact List.take_append_drop n xs
      · rw [List.length_drop]
        omega

/-- The chunks are the list. -/
theorem chunkList_flatten (hn : 0 < n) (xs : List α) : (chunkList n xs).flatten = xs :=
  chunkListRec_flatten hn xs.length xs (le_refl _)

theorem sum_length_chunkList (hn : 0 < n) (xs : List α) :
    ((chunkList n xs).map List.length).sum = xs.length := by
  rw [← List.length_flatten, chunkList_flatten hn]

theorem chunkListRec_full :
    ∀ (fuel : ℕ) (xs : List α), ∀ c ∈ (chunkListRec n fuel xs).dropLast, c.length = n
  | 0, xs => by simp [chunkListRec]
  | fuel + 1, xs => by
    intro c hc
    unfold chunkListRec at hc
    split at hc
    · exact absurd hc (by simp)
    · cases hrest : chunkListRec n fuel (xs.drop n) with
      | nil =>
        rw [hrest] at hc
        exact absurd hc (by simp)
      | cons d ds =>
        rw [hrest, List.dropLast_cons_of_ne_nil (by simp), List.mem_cons] at hc
        rcases hc with rfl | hc
        · -- the rest is not empty, so that the list is longer than `n`
          rw [List.length_take]
          have hlong : xs.drop n ≠ [] := by
            rintro hnil
            rw [hnil] at hrest
            cases fuel <;> simp [chunkListRec] at hrest
          have := List.length_pos_iff.mpr hlong
          rw [List.length_drop] at this
          omega
        · exact chunkListRec_full fuel (xs.drop n) c (hrest ▸ hc)

/-- All chunks but the last one are full. -/
theorem chunkList_full {xs : List α} {c : List α} (hc : c ∈ (chunkList n xs).dropLast) :
    c.length = n :=
  chunkListRec_full xs.length xs c hc

/-- The sizes of the chunks, those of full ones and those of others, add up. -/
theorem sum_length_filter (p : List α → Bool) (xss : List (List α)) :
    ((xss.filter p).map List.length).sum + ((xss.filter (! p ·)).map List.length).sum =
      (xss.map List.length).sum := by
  induction xss with
  | nil => rfl
  | cons xs xss ih =>
    cases hp : p xs
    all_goals
      simp only [List.filter_cons, hp, Bool.not_true, Bool.not_false, Bool.false_eq_true, if_true,
        if_false, List.map_cons, List.sum_cons]
      omega

/-! ## Blocks that are filled from the front -/

/-- Sizes of blocks of `n` elements that are filled from the front. -/
def Packed (n : ℕ) : List ℕ → Prop
  | [] => True
  | l :: ls => l ≤ n ∧ (l < n → ∀ x ∈ ls, x = 0) ∧ Packed n ls

namespace Packed

variable {ls : List ℕ}

/-- The blocks that `m` elements fill are full, and the next one has the elements that are left. -/
theorem full_before (hn : 0 < n) (h : Packed n ls) :
    ∀ {m i : ℕ}, m ≤ ls.sum → i < m / n → ls[i]? = some n := by
  induction ls with
  | nil =>
    intro m i hm hi
    obtain rfl : m = 0 := by simpa using hm
    simp at hi
  | cons l ls ih =>
    intro m i hm hi
    obtain ⟨hl, hzero, hls⟩ := h
    have hmn : n ≤ m := by
      by_contra hlt
      rw [Nat.div_eq_of_lt (by omega)] at hi
      omega
    rw [List.sum_cons] at hm
    have hfull : l = n := by
      by_contra hne
      have := List.sum_eq_zero (hzero (by omega))
      omega
    cases i with
    | zero => rw [hfull]; rfl
    | succ i =>
      rw [List.getElem?_cons_succ]
      refine ih hls (m := m - n) (by omega) ?_
      rw [Nat.div_eq_sub_div hn hmn] at hi
      omega

theorem partly_filled (hn : 0 < n) (h : Packed n ls) :
    ∀ {m : ℕ}, m ≤ ls.sum → ∀ l, ls[m / n]? = some l → m % n ≤ l := by
  induction ls with
  | nil => intro m _ l hl; exact absurd hl (by simp)
  | cons k ls ih =>
    intro m hm l hl
    obtain ⟨hk, hzero, hls⟩ := h
    rw [List.sum_cons] at hm
    by_cases hmn : m < n
    · rw [Nat.div_eq_of_lt hmn] at hl
      obtain rfl : k = l := by simpa using hl
      rw [Nat.mod_eq_of_lt hmn]
      by_contra hlt
      have := List.sum_eq_zero (hzero (by omega))
      omega
    · rw [Nat.div_eq_sub_div hn (by omega), List.getElem?_cons_succ] at hl
      have := ih hls (m := m - n) (by omega) l hl
      rw [Nat.mod_eq_sub_mod (by omega)]
      exact this

end Packed

end Ikun
