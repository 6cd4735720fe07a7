import Mathlib.Data.List.Basic
import Ikun.Basic
import Ikun.Lib.Except

/-!
# Tiles of a paged context

The attention of a prefix reads its context in tiles. A tile goes over tokens that are in blocks of the
cache and over tokens of the query in front of the segment; `_prefix_context_tile_spans` says which, and
`contextTile` collects them.

A tile is the slice of the logical context between its bounds (`contextTile_eq`), whatever is cached
and whatever is not, and the tiles partition the context in order (`flatMap_slices`).
-/

namespace Ikun.Attention

open Except

/-! ## Segments and spans -/

/-- A part of a query: its bounds, and the length of its context. -/
structure QuerySegment where
  start : ℕ
  stop : ℕ
  contextLen : ℕ
  deriving DecidableEq, Repr

/-- `_strict_prefix_query_segments`. -/
def strictPrefixQuerySegments (contextLen queryLen blockSize : ℕ) : List QuerySegment :=
  if queryLen = 0 then []
  else
    let totalLen := contextLen + queryLen
    let strictPrefixLen := (totalLen - 1) / blockSize * blockSize
    let split := strictPrefixLen - contextLen
    if 0 < split ∧ split < queryLen then
      [⟨0, split, contextLen⟩, ⟨split, queryLen, strictPrefixLen⟩]
    else [⟨0, queryLen, contextLen⟩]

/-- `range(0, total, tile_size)` with the end of every tile. -/
def tileRanges (total tileSize : ℕ) : List (ℕ × ℕ) :=
  (List.range ((total + tileSize - 1) / tileSize)).map fun k =>
    (k * tileSize, min (k * tileSize + tileSize) total)

/-- The tokens of a tile: those in blocks of the cache, and those of the query in front. -/
structure TileSpan where
  blockStart : ℕ
  blockEnd : ℕ
  prefixStart : ℕ
  prefixEnd : ℕ
  deriving DecidableEq, Repr

/-- The span of a tile. -/
def tileSpan (blockContextLen : ℕ) (tile : ℕ × ℕ) : TileSpan where
  blockStart := min tile.1 blockContextLen
  blockEnd := min tile.2 blockContextLen
  prefixStart := tile.1 - blockContextLen
  prefixEnd := tile.2 - blockContextLen

/-- `_prefix_context_tile_spans`. -/
def prefixContextTileSpans (blockContextLen prefixQueryLen tileSize : ℕ) :
    Except Exn (List TileSpan) := do
  raiseIf (tileSize = 0)
    (.valueError "context lengths must be non-negative and tile_size > 0")
  return (tileRanges (blockContextLen + prefixQueryLen) tileSize).map (tileSpan blockContextLen)

/-- The keys, or the values, of a tile: `k_context` and `v_context`. `read` are the tokens of a block,
`blockTable` the row of the sequence and `front` the tokens of the query in front. -/
def contextTile {β τ : Type} (read : β → List τ) (blockTable : List β) (blockSize : ℕ)
    (front : List τ) (span : TileSpan) : List τ :=
  let blockPart :=
    if span.blockStart < span.blockEnd then
      let firstBlock := span.blockStart / blockSize
      let lastBlock := (span.blockEnd + blockSize - 1) / blockSize
      let blocks := ((blockTable.take lastBlock).drop firstBlock).flatMap read
      let offset := span.blockStart - firstBlock * blockSize
      let length := span.blockEnd - span.blockStart
      (blocks.take (offset + length)).drop offset
    else []
  let prefixPart :=
    if span.prefixStart < span.prefixEnd then
      (front.take span.prefixEnd).drop span.prefixStart
    else []
  blockPart ++ prefixPart

/-! ## Slices -/

section slices

variable {τ β : Type} {total tileSize : ℕ}

/-- The elements of a list between two positions. -/
def slice (l : List τ) (bounds : ℕ × ℕ) : List τ := (l.take bounds.2).drop bounds.1

theorem length_slice (l : List τ) (bounds : ℕ × ℕ) :
    (slice l bounds).length = min bounds.2 l.length - bounds.1 := by
  unfold slice
  rw [List.length_drop, List.length_take]

/-- A slice of two lists. -/
theorem slice_append (xs ys : List τ) (start stop : ℕ) :
    slice (xs ++ ys) (start, stop)
      = slice xs (start, stop) ++ slice ys (start - xs.length, stop - xs.length) := by
  unfold slice
  dsimp only
  rw [List.take_append, List.drop_append, List.length_take]
  cases Nat.le_total stop xs.length with
  | inl hle =>
    rw [Nat.sub_eq_zero_of_le hle, List.take_zero, List.drop_nil, List.drop_nil]
  | inr hle => rw [Nat.min_eq_right hle]

/-- Consecutive slices. -/
theorem take_append_slice (l : List τ) {start stop : ℕ} (h : start ≤ stop) :
    l.take start ++ slice l (start, stop) = l.take stop := by
  unfold slice
  dsimp only
  have htake : (l.take stop).take start = l.take start := by
    rw [List.take_take, Nat.min_eq_left h]
  rw [← htake, List.take_append_drop]

theorem slice_drop (l : List τ) (start stop n : ℕ) :
    slice l (start + n, stop) = (slice l (start, stop)).drop n := by
  unfold slice
  rw [List.drop_drop]

theorem slice_take (l : List τ) {start stop n : ℕ} (h : start + n ≤ stop) :
    slice l (start, start + n) = (slice l (start, stop)).take n := by
  unfold slice
  rw [List.take_drop, List.take_take, Nat.min_eq_left h]

theorem slice_append_slice (l : List τ) {start middle stop : ℕ} (h : start ≤ middle)
    (h' : middle ≤ stop) :
    slice l (start, middle) ++ slice l (middle, stop) = slice l (start, stop) := by
  have hsplit := take_append_slice l h'
  have hstop : slice l (start, stop) = (l.take stop).drop start := rfl
  rw [hstop, ← hsplit, List.drop_append, List.length_take]
  refine congrArg₂ _ rfl ?_
  cases Nat.le_total middle l.length with
  | inl hin => rw [Nat.min_eq_left hin, Nat.sub_eq_zero_of_le h, List.drop_zero]
  | inr hout =>
    have hempty : slice l (middle, stop) = [] := by
      rw [List.eq_nil_iff_length_eq_zero, length_slice]
      exact Nat.sub_eq_zero_of_le (Nat.le_trans (Nat.min_le_right _ _) hout)
    rw [hempty, List.drop_nil]

theorem mem_tileRanges (htile : 0 < tileSize) {tile : ℕ × ℕ} (h : tile ∈ tileRanges total tileSize) :
    tile.1 < tile.2 ∧ tile.2 ≤ total := by
  obtain ⟨k, hk, rfl⟩ := List.mem_map.mp h
  have hlt : k * tileSize < total := by
    have hk' := (Nat.le_div_iff_mul_le htile).mp (Nat.succ_le_of_lt (List.mem_range.mp hk))
    rw [Nat.succ_mul] at hk'
    omega
  exact ⟨Nat.lt_min.mpr ⟨Nat.lt_add_of_pos_right htile, hlt⟩, Nat.min_le_right _ _⟩

/-- The tiles of a list, one after the other, are the list. -/
theorem flatMap_slices (htile : 0 < tileSize) (l : List τ) :
    (tileRanges l.length tileSize).flatMap (slice l) = l := by
  have hfront : ∀ n, ((List.range n).map fun k =>
      (k * tileSize, min (k * tileSize + tileSize) l.length)).flatMap (slice l)
        = l.take (n * tileSize) := by
    intro n
    induction n with
    | zero => rw [Nat.zero_mul, List.take_zero]; rfl
    | succ n ih =>
      rw [List.range_succ, List.map_append, List.flatMap_append, ih, List.map_singleton,
        List.flatMap_singleton, Nat.succ_mul]
      have htake : slice l (n * tileSize, min (n * tileSize + tileSize) l.length)
          = slice l (n * tileSize, n * tileSize + tileSize) := by
        unfold slice
        dsimp only
        rw [← List.take_eq_take_min]
      rw [htake, take_append_slice l (Nat.le_add_right _ _)]
  unfold tileRanges
  rw [hfront]
  refine List.take_of_length_le ?_
  have hceil := Nat.div_add_mod (l.length + tileSize - 1) tileSize
  have hmod := Nat.mod_lt (l.length + tileSize - 1) htile
  rw [Nat.mul_comm] at hceil
  omega

/-- Blocks of one size: a slice of blocks is a slice of tokens. -/
theorem flatMap_take (read : β → List τ) {blockSize : ℕ} (hread : ∀ b, (read b).length = blockSize)
    (blocks : List β) (n : ℕ) :
    (blocks.take n).flatMap read = (blocks.flatMap read).take (n * blockSize) := by
  induction blocks generalizing n with
  | nil => rw [List.take_nil, List.flatMap_nil, List.take_nil]
  | cons b blocks ih =>
    cases n with
    | zero => rw [Nat.zero_mul, List.take_zero, List.take_zero]; rfl
    | succ n =>
      have hle : (read b).length ≤ n * blockSize + blockSize := hread b ▸ Nat.le_add_left _ _
      rw [List.take_succ_cons, List.flatMap_cons, List.flatMap_cons, ih, Nat.succ_mul,
        List.take_append, List.take_of_length_le hle, hread, Nat.add_sub_cancel]

theorem flatMap_drop (read : β → List τ) {blockSize : ℕ} (hread : ∀ b, (read b).length = blockSize)
    (blocks : List β) (n : ℕ) :
    (blocks.drop n).flatMap read = (blocks.flatMap read).drop (n * blockSize) := by
  induction blocks generalizing n with
  | nil => rw [List.drop_nil, List.flatMap_nil, List.drop_nil]
  | cons b blocks ih =>
    cases n with
    | zero => rw [Nat.zero_mul, List.drop_zero, List.drop_zero]
    | succ n =>
      have hle : (read b).length ≤ n * blockSize + blockSize := hread b ▸ Nat.le_add_left _ _
      rw [List.drop_succ_cons, List.flatMap_cons, ih, Nat.succ_mul, List.drop_append,
        List.drop_of_length_le hle, hread, Nat.add_sub_cancel, List.nil_append]

end slices

/-! ## Tiles -/

section tiles

variable {τ β : Type} {read : β → List τ} {blockSize : ℕ}

/-- The tokens of a tile that are in blocks. -/
theorem blockPart_eq (hbs : 0 < blockSize) (hread : ∀ b, (read b).length = blockSize)
    (blockTable : List β) {start stop : ℕ} (h : start ≤ stop) :
    ((((blockTable.take ((stop + blockSize - 1) / blockSize)).drop (start / blockSize)).flatMap
        read).take (start - start / blockSize * blockSize + (stop - start))).drop
          (start - start / blockSize * blockSize)
      = slice (blockTable.flatMap read) (start, stop) := by
  have hfloor := Nat.div_mul_le_self start blockSize
  have hceil : stop ≤ (stop + blockSize - 1) / blockSize * blockSize := by
    have hdiv := Nat.div_add_mod (stop + blockSize - 1) blockSize
    have hmod := Nat.mod_lt (stop + blockSize - 1) hbs
    rw [Nat.mul_comm] at hdiv
    omega
  rw [flatMap_drop read hread, flatMap_take read hread, List.take_drop, List.drop_drop,
    List.take_take]
  unfold slice
  dsimp only
  generalize start / blockSize * blockSize = floor at *
  generalize (stop + blockSize - 1) / blockSize * blockSize = ceil at *
  rw [Nat.min_eq_left (by omega)]
  congr 2 <;> omega

/-- A tile is the slice of the logical context: the cached tokens in the order of the block table, and
the tokens of the query in front behind them. -/
theorem contextTile_eq (hbs : 0 < blockSize) (hread : ∀ b, (read b).length = blockSize)
    (blockTable : List β) (front : List τ) {contextLen : ℕ}
    (hcontext : contextLen ≤ (blockTable.flatMap read).length) (tile : ℕ × ℕ) :
    contextTile read blockTable blockSize front (tileSpan contextLen tile)
      = slice ((blockTable.flatMap read).take contextLen ++ front) tile := by
  have hcached : ((blockTable.flatMap read).take contextLen).length = contextLen := by
    rw [List.length_take, Nat.min_eq_left hcontext]
  have hparts := slice_append ((blockTable.flatMap read).take contextLen) front tile.1 tile.2
  rw [hcached] at hparts
  rw [show tile = (tile.1, tile.2) from rfl, hparts]
  unfold contextTile tileSpan
  dsimp only
  congr 1
  · split
    · rw [blockPart_eq hbs hread _ (by omega)]
      unfold slice
      dsimp only
      rw [List.take_take]
      congr 1
      omega
    · next hempty =>
      symm
      rw [List.eq_nil_iff_length_eq_zero, length_slice, hcached]
      dsimp only
      omega
  · split
    · rfl
    · next hempty =>
      symm
      rw [List.eq_nil_iff_length_eq_zero, length_slice]
      dsimp only
      omega

end tiles

end Ikun.Attention
