import Ikun.Attention.Exact
import Ikun.Attention.Split4

/-!
# What the kernels write

One statement for each kernel of the fused paged prefill: it returns, so its indices are in range, and
the cells it writes are given in terms of the cells it reads, whatever they held before. In exact
arithmetic the normalization of a split is the update of a row by a tile (`normalizeSplit_spec`).
-/

namespace Ikun.Attention.Split4

open Device OnlineSoftmax

/-! ## Products -/

section kernels

variable {α : Type} {ops : KernelOps α}

/-- A strided-batched product whose result is laid out without gaps. -/
theorem sgemmStridedBatched_spec (ops : KernelOps α) {transposed : Bool} {m n k batchCount : ℕ} {a b c : Batched α}
    (hleading : c.leading = m) (hstride : c.stride = n * m)
    (hbound : c.offset + batchCount * n * m ≤ c.data.length) {x y : ℕ → ℕ → ℕ → α}
    (hx : ∀ batch < batchCount, ∀ row < m, ∀ l < k, a.data[a.offset + batch * a.stride
      + if transposed then row * a.leading + l else l * a.leading + row]? = some (x batch row l))
    (hy : ∀ batch < batchCount, ∀ column < n, ∀ l < k,
      b.data[b.offset + batch * b.stride + (column * b.leading + l)]? = some (y batch column l)) :
    ∃ buf, sgemmStridedBatched ops transposed m n k a b c batchCount = some buf ∧
      buf.length = c.data.length ∧
      (∀ batch < batchCount, ∀ column < n, ∀ row < m,
        buf[c.offset + ((batch * n + column) * m + row)]?
          = some (ops.dot ((List.range k).map (x batch row)) ((List.range k).map (y batch column)))) ∧
      ∀ i, i < c.offset ∨ c.offset + batchCount * n * m ≤ i → buf[i]? = c.data[i]? := by
  have haddr : ∀ batch column row, c.offset + batch * c.stride + column * c.leading + row
      = c.offset + ((batch * n + column) * m + row) := by
    intro batch column row
    rw [hleading, hstride]
    ring
  have hcells : ((List.range batchCount).flatMap fun batch => (List.range n).flatMap fun column =>
      (List.range m).map fun row => (batch, column, row)).map
        (fun cell => c.offset + cell.1 * c.stride + cell.2.1 * c.leading + cell.2.2)
      = (List.range (batchCount * n * m)).map (c.offset + ·) := by
    rw [← range_flatMap_range (batchCount * n) m, ← range_flatMap_range batchCount n,
      List.flatMap_assoc, List.map_flatMap, List.map_flatMap]
    refine List.flatMap_congr fun batch _ => ?_
    rw [List.map_flatMap, List.flatMap_map, List.map_flatMap]
    refine List.flatMap_congr fun column _ => ?_
    rw [List.map_map, List.map_map]
    exact List.map_congr_left fun row _ => haddr batch column row
  have hmem : ∀ batch column row, (batch, column, row) ∈ ((List.range batchCount).flatMap fun batch =>
      (List.range n).flatMap fun column => (List.range m).map fun row => (batch, column, row))
      ↔ batch < batchCount ∧ column < n ∧ row < m := by
    intro batch column row
    simp only [List.mem_flatMap, List.mem_map, List.mem_range, Prod.mk.injEq]
    constructor
    · rintro ⟨_, hb, _, hc, _, hr, rfl, rfl, rfl⟩
      exact ⟨hb, hc, hr⟩
    · rintro ⟨hb, hc, hr⟩
      exact ⟨batch, hb, column, hc, row, hr, rfl, rfl, rfl⟩
  obtain ⟨buf, hok, hwritten⟩ := forEach_spec
    ((List.range batchCount).flatMap fun batch => (List.range n).flatMap fun column =>
      (List.range m).map fun row => (batch, column, row))
    (fun cell => c.offset + cell.1 * c.stride + cell.2.1 * c.leading + cell.2.2)
    (fun cell _ => do
      let entries ← (List.range k).mapM fun l =>
        load a.data (a.offset + cell.1 * a.stride
          + if transposed then cell.2.2 * a.leading + l else l * a.leading + cell.2.2)
      let entries' ← (List.range k).mapM fun l =>
        load b.data (b.offset + cell.1 * b.stride + (cell.2.1 * b.leading + l))
      return ops.dot entries entries')
    (fun cell =>
      ops.dot ((List.range k).map (x cell.1 cell.2.2)) ((List.range k).map (y cell.1 cell.2.1)))
    c.data
    (by
      rw [hcells]
      exact List.nodup_range.map fun i j h => Nat.add_left_cancel h)
    (fun cell hin => by
      obtain ⟨hb, hc, hr⟩ := (hmem cell.1 cell.2.1 cell.2.2).mp hin
      rw [haddr]
      exact Nat.lt_of_lt_of_le (Nat.add_lt_add_left (cell_lt (cell_lt hb hc) hr) _) hbound)
    (fun cell hin _ _ _ => by
      obtain ⟨hb, hc, hr⟩ := (hmem cell.1 cell.2.1 cell.2.2).mp hin
      refine (bind_eq (mapM_eq fun l hl => hx cell.1 hb cell.2.2 hr l (List.mem_range.mp hl)) _).trans
        ?_
      exact bind_eq (mapM_eq fun l hl => hy cell.1 hb cell.2.1 hc l (List.mem_range.mp hl)) _)
  refine ⟨buf, hok, hwritten.length, fun batch hb column hc row hr => ?_, fun i hi => ?_⟩
  · rw [← haddr]
    exact hwritten.written (batch, column, row) ((hmem batch column row).mpr ⟨hb, hc, hr⟩)
  · refine hwritten.kept i fun t ht heq => ?_
    have hcell := List.mem_map_of_mem (f := fun cell : ℕ × ℕ × ℕ =>
      c.offset + cell.1 * c.stride + cell.2.1 * c.leading + cell.2.2) ht
    rw [hcells] at hcell
    obtain ⟨j, hj, hj'⟩ := List.mem_map.mp hcell
    have hj := List.mem_range.mp hj
    omega

/-- The products of all splits; the results lie one behind the other. -/
theorem splitProducts_spec (ops : KernelOps α) (transposed : Bool) (m n k batchCount splits : ℕ)
    (start : List α) (a b : ℕ → Batched α) (hbound : splits * (batchCount * n * m) ≤ start.length) (hn : 0 < n)
    {x y : ℕ → ℕ → ℕ → ℕ → α}
    (hx : ∀ s < splits, ∀ batch < batchCount, ∀ row < m, ∀ l < k,
      (a s).data[(a s).offset + batch * (a s).stride
        + if transposed then row * (a s).leading + l else l * (a s).leading + row]?
        = some (x s batch row l))
    (hy : ∀ s < splits, ∀ batch < batchCount, ∀ column < n, ∀ l < k,
      (b s).data[(b s).offset + batch * (b s).stride + (column * (b s).leading + l)]?
        = some (y s batch column l)) :
    ∃ buf, (List.range splits).foldlM (fun buf s => sgemmStridedBatched ops transposed m n k (a s)
        (b s) ⟨buf, s * (batchCount * n * m), m, n * m⟩ batchCount) start = some buf ∧
      buf.length = start.length ∧
      ∀ s < splits, ∀ r < batchCount * n, ∀ i < m, buf[(s * (batchCount * n) + r) * m + i]?
        = some (ops.dot ((List.range k).map (x s (r / n) i)) ((List.range k).map (y s (r / n) (r % n)))) := by
  refine foldlM_range (P := fun splits (buf : List α) => buf.length = start.length ∧
    ∀ s < splits, ∀ r < batchCount * n, ∀ i < m, buf[(s * (batchCount * n) + r) * m + i]?
      = some (ops.dot ((List.range k).map (x s (r / n) i)) ((List.range k).map (y s (r / n) (r % n)))))
    start ⟨rfl, fun s hs => absurd hs (Nat.not_lt_zero s)⟩ fun s hs buf hbuf => ?_
  obtain ⟨hlength, hcells⟩ := hbuf
  have hend : s * (batchCount * n * m) + batchCount * n * m ≤ splits * (batchCount * n * m) := by
    rw [← Nat.succ_mul]
    exact Nat.mul_le_mul_right _ hs
  obtain ⟨buf', hok, hlength', hwritten, hkept⟩ := sgemmStridedBatched_spec ops
    (c := ⟨buf, s * (batchCount * n * m), m, n * m⟩) rfl rfl (hlength ▸ hend.trans hbound) (hx s hs)
    (hy s hs)
  have haddr : ∀ s r i : ℕ, (s * (batchCount * n) + r) * m + i
      = s * (batchCount * n * m) + (r * m + i) := by
    intro s r i
    ring
  refine ⟨buf', hok, hlength'.trans hlength, fun s' hs' r hr i hi => ?_⟩
  have hin := cell_lt hr hi
  cases Nat.lt_succ_iff_lt_or_eq.mp hs' with
  | inl hlt =>
    rw [hkept _ (Or.inl (haddr s' r i ▸ Nat.lt_of_lt_of_le (cell_lt hlt hin) (Nat.le_refl _)))]
    exact hcells s' hlt r hr i hi
  | inr heq =>
    subst heq
    have hcell := hwritten (r / n) (Nat.div_lt_of_lt_mul (Nat.mul_comm batchCount n ▸ hr)) (r % n)
      (Nat.mod_lt r hn) i hi
    rw [Nat.div_add_mod' r n] at hcell
    rw [haddr]
    exact hcell

/-! ## Cells -/

theorem launched_perm {elements : ℕ} (h : 0 < elements) :
    (launched elements).Perm (List.range elements) := by
  have hblocks : 0 < launchBlocks elements := by
    unfold launchBlocks kThreads
    omega
  exact gridStride_perm elements (Nat.mul_pos hblocks (Nat.succ_pos 255))

/-- A kernel that `launchBlocks` launches writes every cell up to its total. -/
theorem forEach_launched (elements : ℕ) (f : ℕ → List α → Option α) (v : ℕ → α) (buf : List α)
    (h : 0 < elements) (hbound : elements ≤ buf.length)
    (hf : ReadsOwn (List.range elements) id f v buf) :
    ∃ buf', forEach (launched elements) id f buf = some buf' ∧
      Written (List.range elements) id v buf buf' := by
  have hblocks : 0 < launchBlocks elements := by
    unfold launchBlocks kThreads
    omega
  exact forEach_gridStride v buf (Nat.mul_pos hblocks (Nat.succ_pos 255)) hbound hf

/-- The queries, scaled and sorted by heads. -/
theorem convertQueryKernel_spec (ops : KernelOps α) (query converted : List α) {queryLen : ℕ}
    (scale : α)
    (hpos : 0 < queryLen) {x : ℕ → ℕ → ℕ → α}
    (hquery : ∀ q < queryLen, ∀ head < kNumQueryHeads, ∀ d < kHeadDim,
      query[(q * kNumQueryHeads + head) * kHeadDim + d]? = some (x q head d))
    (hlength : converted.length = kNumQueryHeads * queryLen * kHeadDim) :
    ∃ buf, convertQueryKernel ops query queryLen scale converted = some buf ∧
      ∀ q < queryLen, ∀ head < kNumQueryHeads, ∀ d < kHeadDim,
        buf[(head * queryLen + q) * kHeadDim + d]? = some (ops.mul (x q head d) scale) := by
  have hdim : 0 < kHeadDim := Nat.succ_pos 255
  have hpositive : 0 < queryLen * kNumQueryHeads * kHeadDim :=
    Nat.mul_pos (Nat.mul_pos hpos (Nat.succ_pos 3)) hdim
  obtain ⟨buf, hok, hwritten⟩ := forEach_launched
    (queryLen * kNumQueryHeads * kHeadDim) (fun index _ => do
      return ops.mul (← load query ((index / kHeadDim % queryLen * kNumQueryHeads
        + index / (kHeadDim * queryLen)) * kHeadDim + index % kHeadDim)) scale)
    (fun index => ops.mul (x (index / kHeadDim % queryLen) (index / (kHeadDim * queryLen))
      (index % kHeadDim)) scale) converted hpositive
    (by rw [hlength, Nat.mul_comm queryLen])
    (fun index hindex _ _ _ => by
      have hlt := List.mem_range.mp hindex
      have hhead : index / (kHeadDim * queryLen) < kNumQueryHeads := by
        refine Nat.div_lt_of_lt_mul (Nat.lt_of_lt_of_eq hlt ?_)
        ring
      exact bind_eq (hquery _ (Nat.mod_lt _ hpos) _ hhead _ (Nat.mod_lt _ hdim)) _)
  refine ⟨buf, hok, fun q hq head hhead d hd => ?_⟩
  have hcell := hwritten.written ((head * queryLen + q) * kHeadDim + d) (List.mem_range.mpr (by
    rw [Nat.mul_comm queryLen]
    exact cell_lt (cell_lt hhead hq) hd))
  rwa [cell_div hd, cell_mod hq, cell_mod hd, ← Nat.div_div_eq_div_mul, cell_div hd,
    cell_div hq] at hcell

/-- The keys and the values of the tokens of a request, by position and component. -/
structure Request.Reads (request : Request α) (key value : ℕ → ℕ → α) : Prop where
  context : ∀ t < request.contextLen, ∀ d < kHeadDim, ∃ block : ℕ,
    request.blockTable[t / kBlockSize]? = some (block : ℤ) ∧
    request.keyCache[((block * (kHeadDim / kKeyPack) + d / kKeyPack) * kBlockSize + t % kBlockSize)
      * kKeyPack + d % kKeyPack]? = some (key t d) ∧
    request.valueCache[(block * kHeadDim + d) * kBlockSize + t % kBlockSize]? = some (value t d)
  new : ∀ i < request.queryLen, ∀ d < kHeadDim,
    request.keyNew[i * kHeadDim + d]? = some (key (request.contextLen + i) d) ∧
    request.valueNew[i * kHeadDim + d]? = some (value (request.contextLen + i) d)

theorem loadAt_natCast (buf : List α) (i : ℕ) : loadAt buf (i : ℤ) = buf[i]? := by
  unfold loadAt
  rw [if_pos (Int.natCast_nonneg i), Int.toNat_natCast]
  rfl

variable {request : Request α} {key value : ℕ → ℕ → α} {groupStart groupTokens activeSplits : ℕ}

/-- An entry of the tiles: that of a token of the group, or zero behind it. -/
theorem gatherElement_spec (hreads : request.Reads key value)
    (hgroup : groupStart + groupTokens ≤ request.contextLen + request.queryLen) (index : ℕ) :
    gatherElement ops request groupStart groupTokens index
      = some (if index / kHeadDim < groupTokens then
          (key (groupStart + index / kHeadDim) (index % kHeadDim),
            value (groupStart + index / kHeadDim) (index % kHeadDim))
        else (ops.zero, ops.zero)) := by
  have hdim : index % kHeadDim < kHeadDim := Nat.mod_lt _ (Nat.succ_pos 255)
  have helement : index - index / (kTileTokens * kHeadDim) * (kTileTokens * kHeadDim)
      = index / kHeadDim % kTileTokens * kHeadDim + index % kHeadDim := by
    unfold kTileTokens kHeadDim
    omega
  have hsplit : index / (kTileTokens * kHeadDim) * kTileTokens + index / kHeadDim % kTileTokens
      = index / kHeadDim := by
    unfold kTileTokens kHeadDim
    omega
  have htoken : index / kHeadDim % kTileTokens < kTileTokens := Nat.mod_lt _ (Nat.succ_pos 511)
  unfold gatherElement
  dsimp only
  rw [helement, cell_div hdim, Nat.add_sub_cancel_left, Nat.add_assoc, hsplit]
  cases Nat.lt_or_ge (index / kHeadDim) groupTokens with
  | inr hbehind =>
    rw [if_pos (by omega), if_neg (Nat.not_lt.mpr hbehind)]
    rfl
  | inl hin =>
    rw [if_neg (by omega), if_pos hin]
    split
    · next hcontext =>
      obtain ⟨block, hblock, hkey, hvalue⟩ := hreads.context _ hcontext _ hdim
      refine (bind_eq hblock _).trans ?_
      have hkeyIndex : (((block : ℤ) * kNumKvHeads * (kHeadDim / kKeyPack : ℕ)
          + (index % kHeadDim / kKeyPack : ℕ)) * kBlockSize
            + ((groupStart + index / kHeadDim) % kBlockSize : ℕ)) * kKeyPack
              + (index % kHeadDim % kKeyPack : ℕ)
          = (((block * (kHeadDim / kKeyPack) + index % kHeadDim / kKeyPack) * kBlockSize
            + (groupStart + index / kHeadDim) % kBlockSize) * kKeyPack
              + index % kHeadDim % kKeyPack : ℕ) := by
        push_cast [kNumKvHeads]
        ring
      have hvalueIndex : ((block : ℤ) * kNumKvHeads * kHeadDim + (index % kHeadDim : ℕ)) * kBlockSize
            + ((groupStart + index / kHeadDim) % kBlockSize : ℕ)
          = ((block * kHeadDim + index % kHeadDim) * kBlockSize
            + (groupStart + index / kHeadDim) % kBlockSize : ℕ) := by
        push_cast [kNumKvHeads]
        ring
      rw [hkeyIndex, hvalueIndex, loadAt_natCast, loadAt_natCast]
      exact (bind_eq hkey _).trans (bind_eq hvalue _)
    · next hcontext =>
      rw [if_pos (by omega)]
      have hle := Nat.not_lt.mp hcontext
      obtain ⟨hkey, hvalue⟩ := hreads.new (groupStart + index / kHeadDim - request.contextLen)
        (by omega) _ hdim
      rw [Nat.add_sub_cancel' hle] at hkey hvalue
      exact (bind_eq hkey _).trans (bind_eq hvalue _)

/-- The tiles of a group. -/
theorem gatherKvGroupKernel_spec (ops : KernelOps α) (tiles : List α × List α)
    (hreads : request.Reads key value)
    (hgroup : groupStart + groupTokens ≤ request.contextLen + request.queryLen)
    (hkeys : activeSplits * (kTileTokens * kHeadDim) ≤ tiles.1.length)
    (hvalues : activeSplits * (kTileTokens * kHeadDim) ≤ tiles.2.length) :
    ∃ tiles', gatherKvGroupKernel ops request groupStart groupTokens activeSplits tiles
        = some tiles' ∧ tiles'.1.length = tiles.1.length ∧ tiles'.2.length = tiles.2.length ∧
      ∀ j < activeSplits * kTileTokens, ∀ d < kHeadDim,
        tiles'.1[j * kHeadDim + d]?
          = some (if j < groupTokens then key (groupStart + j) d else ops.zero) ∧
        tiles'.2[j * kHeadDim + d]?
          = some (if j < groupTokens then value (groupStart + j) d else ops.zero) := by
  have hthreads : 0 < 512 * kThreads := Nat.succ_pos _
  obtain ⟨keys, hkeysOk, hkeysWritten⟩ := forEach_gridStride (fun index =>
      if index / kHeadDim < groupTokens then key (groupStart + index / kHeadDim) (index % kHeadDim)
      else ops.zero) tiles.1 hthreads hkeys (fun _ _ _ _ _ => rfl)
  obtain ⟨values, hvaluesOk, hvaluesWritten⟩ := forEach_gridStride (fun index =>
      if index / kHeadDim < groupTokens then value (groupStart + index / kHeadDim) (index % kHeadDim)
      else ops.zero) tiles.2 hthreads hvalues (fun _ _ _ _ _ => rfl)
  refine ⟨(keys, values), foldlM_store_pair (fun index _ => ?_) hkeysOk hvaluesOk,
    hkeysWritten.length, hvaluesWritten.length, fun j hj d hd => ?_⟩
  · rw [gatherElement_spec hreads hgroup index]
    split
    · rfl
    · rfl
  · have hcell : j * kHeadDim + d ∈ List.range (activeSplits * (kTileTokens * kHeadDim)) := by
      rw [← Nat.mul_assoc]
      exact List.mem_range.mpr (cell_lt hj hd)
    have hkey := hkeysWritten.written _ hcell
    have hvalue := hvaluesWritten.written _ hcell
    rw [cell_div hd, cell_mod hd] at hkey hvalue
    exact ⟨hkey, hvalue⟩

/-- The scores of a group, masked. -/
theorem maskGroupScoresKernel_spec (ops : KernelOps α)
    (queryLen contextLen groupStart groupTokens : ℕ) (causal : Bool) {rows : ℕ} {scores : List α}
    (hsplits : 0 < activeSplits) (hrows : 0 < rows)
    (hbound : activeSplits * (rows * kTileTokens) ≤ scores.length) :
    ∃ scores', maskGroupScoresKernel ops queryLen contextLen groupStart groupTokens activeSplits rows
        causal scores = some scores' ∧ scores'.length = scores.length ∧
      ∀ split < activeSplits, ∀ row < rows, ∀ c < kTileTokens,
        scores'[(split * rows + row) * kTileTokens + c]?
          = if groupTokens ≤ split * kTileTokens + c ∨
              (causal ∧ contextLen + row % queryLen < groupStart + (split * kTileTokens + c)) then
            some ops.negInf
          else scores[(split * rows + row) * kTileTokens + c]? := by
  have hperm := launched_perm (Nat.mul_pos hsplits (Nat.mul_pos hrows (Nat.succ_pos 511)))
  obtain ⟨scores', hok, hwritten⟩ := forEach_spec
    ((launched (activeSplits * (rows * kTileTokens))).filter
      (isMasked queryLen contextLen groupStart groupTokens rows causal)) id
    (fun _ _ => some ops.negInf) (fun _ => ops.negInf) scores
    (by
      rw [List.map_id]
      exact (hperm.nodup_iff.mpr List.nodup_range).filter _)
    (fun i hi => Nat.lt_of_lt_of_le
      (List.mem_range.mp (hperm.mem_iff.mp (List.mem_of_mem_filter hi))) hbound)
    (fun _ _ _ _ _ => rfl)
  refine ⟨scores', (foldlM_store_if _ _ _).trans hok, hwritten.length, fun split hs row hr c hc => ?_⟩
  have haddr : (split * rows + row) * kTileTokens + c
      = split * (rows * kTileTokens) + (row * kTileTokens + c) := by ring
  have hin : row * kTileTokens + c < rows * kTileTokens := cell_lt hr hc
  have hlt : (split * rows + row) * kTileTokens + c < activeSplits * (rows * kTileTokens) :=
    haddr ▸ cell_lt hs hin
  have hmasked : isMasked queryLen contextLen groupStart groupTokens rows causal
        ((split * rows + row) * kTileTokens + c) = true
      ↔ groupTokens ≤ split * kTileTokens + c ∨
        (causal ∧ contextLen + row % queryLen < groupStart + (split * kTileTokens + c)) := by
    unfold isMasked
    dsimp only
    rw [haddr, cell_div hin, Nat.add_sub_cancel_left, cell_div hc, cell_mod hc, Bool.or_eq_true,
      Bool.and_eq_true, decide_eq_true_eq, decide_eq_true_eq, Nat.add_assoc]
    refine or_congr ?_ Iff.rfl
    constructor
    · intro h
      omega
    · intro h
      omega
  split
  · next h =>
    exact hwritten.written _ (List.mem_filter.mpr ⟨hperm.mem_iff.mpr (List.mem_range.mpr hlt),
      hmasked.mpr h⟩)
  · next h =>
    refine hwritten.kept _ fun i hi heq => h (hmasked.mp ?_)
    rw [← heq]
    exact (List.mem_filter.mp hi).2

end kernels

/-! ## The normalization -/

/-- The values that the threads of a block have accumulated, combined. -/
theorem reduce_columns {α : Type} (op : α → α → α) [Std.Commutative op] [Std.Associative op]
    (start : α) {f : ℕ → α} {xs : List α} (hxs : (List.range kTileTokens).map f = xs) : ∃ buf r,
    blockReduce op kThreads (kThreads / 2) ((List.range kThreads).map fun t =>
        ((strided kTileTokens kThreads t).map f).foldl op start) = some buf ∧
      load buf 0 = some r ∧ ∀ u, op u start = u → op u r = xs.foldl op u := by
  have hlength : ((List.range kThreads).map fun t =>
      ((strided kTileTokens kThreads t).map f).foldl op start).length = 2 * 2 ^ 7 := by
    rw [List.length_map, List.length_range]
    rfl
  obtain ⟨buf, r, hok, hload, hfold⟩ := blockReduce_spec op 7
    (by decide : 2 ^ 7 ≤ kThreads) hlength.ge
  refine ⟨buf, r, hok, hload, fun u hu => ?_⟩
  have hparts : (List.range kThreads).map (fun t =>
      ((strided kTileTokens kThreads t).map f).foldl op start)
      = ((List.range kThreads).map fun t => (strided kTileTokens kThreads t).map f).map
          fun part => part.foldl op start := (List.map_map ..).symm
  have hcolumns : ((List.range kThreads).map fun t => (strided kTileTokens kThreads t).map f).flatten
      = (gridStride kTileTokens kThreads).map f := List.map_flatMap.symm
  have hthreads : 0 < kThreads := Nat.succ_pos 255
  have hperm := (gridStride_perm kTileTokens hthreads).map f
  rw [hfold, ← hlength, List.take_length, hparts, foldl_foldl hu, hcolumns, hperm.foldl_op_eq, hxs]

section normalize

variable {K : Type} [Field K] [LinearOrder K] [IsStrictOrderedRing K] {headDim : ℕ}

/-- The kernels in exact arithmetic; `log` is any function. -/
def kernelOps (e : Exponential K) (log : ExtNum K → ExtNum K) : KernelOps (ExtNum K) where
  toTensorOps := exactOps e
  one := .fin 1
  fmaxf := .fmax
  log := log
  isFinitePositive
    | .fin x => decide (0 < x)
    | _ => false

variable {e : Exponential K} {log : ExtNum K → ExtNum K}

/-- The row that has seen one more tile. -/
def seeTile (e : Exponential K) (row : RunningRow (ExtNum K) headDim)
    (tile : List (Option K × (Fin headDim → K))) : RunningRow (ExtNum K) headDim :=
  updateRow (exactOps e) (tileValues tile) (tileScores tile) row

variable (log) in
omit [IsStrictOrderedRing K] in
/-- A split of a row is a tile that the row sees. -/
theorem normalizeSplit_spec {row rows split : ℕ} {state : RowState (ExtNum K)}
    {tile : List (Option K × (Fin headDim → K))} {before : RunningRow (ExtNum K) headDim} {μ : K}
    (hlength : tile.length = kTileTokens)
    (hscores : ∀ c < kTileTokens, state.scores[(split * rows + row) * kTileTokens + c]?
      = (tileScores tile)[c]?)
    (hmax : state.stateMax = before.runningMax) (hsum : state.stateSum = before.runningSum)
    (hscore : ∃ s, before.runningMax = .ofScore s)
    (hμ : (seeTile e before tile).runningMax = .fin μ)
    (hcorrection : split * rows + row < state.corrections.length) :
    ∃ state', normalizeSplit (kernelOps e log) row rows state split = some state' ∧
      state'.stateMax = .fin μ ∧ state'.stateSum = (seeTile e before tile).runningSum ∧
      state'.corrections = state.corrections.set (split * rows + row)
        (.exp e (.sub before.runningMax (.fin μ))) ∧
      Written (List.range kTileTokens) ((split * rows + row) * kTileTokens + ·)
        (fun c => .exp e (.sub ((tileScores tile).getD c .negInf) (.fin μ))) state.scores
        state'.scores := by
  have hlen : (tileScores tile).length = kTileTokens := (List.length_map _).trans hlength
  have hload : ∀ c < kTileTokens, state.scores[(split * rows + row) * kTileTokens + c]?
      = some ((tileScores tile).getD c .negInf) := by
    intro c hc
    rw [hscores c hc, List.getD_eq_getElem?_getD, List.getElem?_eq_getElem (hlen ▸ hc),
      Option.getD_some]
  have hall : (List.range kTileTokens).map (fun c => (tileScores tile).getD c .negInf)
      = tileScores tile := range_map_getD hlen _
  have hcolumn : ∀ t c, c ∈ strided kTileTokens kThreads t → c < kTileTokens := fun t c hc =>
    ((mem_strided (Nat.succ_pos 255)).mp hc).1
  -- the maximum
  have hlocal : (List.range kThreads).mapM (fun t =>
      (strided kTileTokens kThreads t).foldlM (fun localMax column => do
        return ExtNum.fmax localMax
          (← load state.scores ((split * rows + row) * kTileTokens + column))) ExtNum.negInf)
      = some ((List.range kThreads).map fun t => ((strided kTileTokens kThreads t).map fun c =>
          (tileScores tile).getD c .negInf).foldl .fmax .negInf) := by
    refine mapM_eq fun t _ => ?_
    rw [List.foldl_map]
    exact foldlM_eq _ fun c hc m => bind_eq (hload c (hcolumn t c hc)) _
  obtain ⟨reduced, r, hreduced, hr, hfold⟩ := reduce_columns ExtNum.fmax ExtNum.negInf hall
  have hnext : ExtNum.fmax state.stateMax r = .fin μ := by
    obtain ⟨s, hs⟩ := hscore
    have hne : tile.map (·.1) ≠ [] := by
      rw [ne_eq, List.map_eq_nil_iff]
      intro hnil
      rw [hnil] at hlength
      exact absurd hlength (Nat.succ_ne_zero 511).symm
    have htile : tileScores tile = (tile.map (·.1)).map .ofScore := by
      rw [List.map_map]
      rfl
    rw [hmax, hs, hfold _ (by cases s <;> rfl), htile, ExtNum.foldl_fmax hne, ← htile, ← hs, ← hμ]
    rfl
  -- the weights
  obtain ⟨scores, hloop, hwritten⟩ := blockLoop_spec (List.range kThreads)
    (strided kTileTokens kThreads) ((split * rows + row) * kTileTokens + ·)
    (fun column scores => do
      let score ← load scores ((split * rows + row) * kTileTokens + column)
      return if score = ExtNum.negInf ∧ ExtNum.fin μ = ExtNum.negInf then ExtNum.fin 0
        else ExtNum.exp e (ExtNum.sub score (ExtNum.fin μ)))
    (fun c => .exp e (.sub ((tileScores tile).getD c .negInf) (.fin μ)))
    ExtNum.add (ExtNum.fin 0) state.scores
    (((gridStride_perm kTileTokens (Nat.succ_pos 255)).nodup_iff.mpr List.nodup_range).map
      fun i j h => Nat.add_left_cancel h)
    (fun c hc => by
      obtain ⟨t, -, hc⟩ := List.mem_flatMap.mp hc
      exact (List.getElem?_eq_some_iff.mp (hload c (hcolumn t c hc))).1)
    (fun c hc buf hown _ => by
      obtain ⟨t, -, hc⟩ := List.mem_flatMap.mp hc
      refine (bind_eq (hown.trans (hload c (hcolumn t c hc))) _).trans ?_
      exact congrArg some (if_neg fun h => by cases h.2))
  have hweights : (List.range kTileTokens).map (fun c =>
      ExtNum.exp e (.sub ((tileScores tile).getD c .negInf) (.fin μ)))
      = (tileScores tile).map fun score => .exp e (.sub score (.fin μ)) := by
    conv_rhs => rw [← hall, List.map_map]
    rfl
  obtain ⟨reduced', r', hreduced', hr', hfold'⟩ :=
    reduce_columns ExtNum.add (ExtNum.fin 0) hweights
  refine ⟨⟨scores, state.corrections.set (split * rows + row)
      (.exp e (.sub before.runningMax (.fin μ))), .fin μ,
      .add (.mul state.stateSum (.exp e (.sub state.stateMax (.fin μ)))) r'⟩,
    ?_, rfl, ?_, rfl, hwritten.perm (gridStride_perm kTileTokens (Nat.succ_pos 255))⟩
  · unfold normalizeSplit
    refine (bind_eq hlocal _).trans ?_
    refine (bind_eq hreduced _).trans ?_
    refine (bind_eq hr _).trans ?_
    have hnext' : (kernelOps e log).fmaxf state.stateMax r = .fin μ := hnext
    dsimp only
    rw [hnext', if_neg fun h => by cases h.2]
    refine (bind_eq (if_pos hcorrection) _).trans ?_
    refine (bind_eq hloop _).trans ?_
    refine (bind_eq hreduced' _).trans ?_
    refine (bind_eq hr' _).trans ?_
    rw [hmax]
    rfl
  · dsimp only
    have hadd : ∀ (u : ExtNum K) (xs : List (ExtNum K)), xs.foldl .add u = .add u (.sum xs) := by
      intro u xs
      conv_lhs => rw [← ExtNum.add_zero' u]
      exact List.foldl_assoc
    rw [hfold' _ (ExtNum.add_zero' _), hadd, hmax, hsum, ← hμ]
    rfl

end normalize

end Ikun.Attention.Split4
