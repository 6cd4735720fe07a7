import Mathlib.Data.List.GetD
import Mathlib.Tactic.Ring
import Ikun.Lib.Copy
import Ikun.CpuKv.BlockMajor

/-!
# What the transfers of a chunk do to its blocks

Every operation of a swap moves the blocks of a chunk from one place to another: from the GPU cache to
the GPU staging buffer, from there to the CPU staging buffer and into the CPU pool, and back. All are
`Transfer`s, which move each vector of their rows once, in an order that does not matter.
-/

namespace Ikun.BlockMajor

open DeviceStream Independence

variable {κ : Type} {n row slot : ℕ} {m : Memory κ} {blocks : List ℕ}

/-! ## Addresses -/

/-- The address of a vector of row `row` in a block-major buffer. -/
def rowIndex (row layer plane vector : ℕ) : ℕ :=
  ((row * kAttentionLayers + layer) * kKvPlanes + plane) * kVectorsPerPlaneBlock + vector

/-- Its address in the tensor of its layer, for a cache of `n` blocks. -/
def layerIndex (n block plane vector : ℕ) : ℕ :=
  (plane * n + block) * kVectorsPerPlaneBlock + vector

/-- A block: for each layer, for K and V, its vectors. -/
abbrev Block (κ : Type) : Type :=
  Fin kAttentionLayers → Fin kKvPlanes → Fin kVectorsPerPlaneBlock → κ

def gpuBlock (n : ℕ) (m : Memory κ) (block : ℕ) : Block κ := fun layer plane vector =>
  m.cells (.gpu layer (layerIndex n block plane vector))

def cpuBlock (m : Memory κ) (block : ℕ) : Block κ := fun layer plane vector =>
  m.cells (.cpu (rowIndex block layer plane vector))

/-- Row `row` of a buffer, which may be a staging buffer or the blocks that a transfer finds. -/
def rowBlock (buffer : ℕ → Cell) (m : Memory κ) (row : ℕ) : Block κ := fun layer plane vector =>
  m.cells (buffer (rowIndex row layer plane vector))

theorem rowIndex_eq (row layer plane vector : ℕ) :
    rowIndex row layer plane vector =
      row * kVectorsPerBlockMajorRow + rowIndex 0 layer plane vector := by
  unfold rowIndex kVectorsPerBlockMajorRow
  ring

theorem rowIndex_zero_lt (layer : Fin kAttentionLayers) (plane : Fin kKvPlanes)
    (vector : Fin kVectorsPerPlaneBlock) :
    rowIndex 0 layer plane vector < kVectorsPerBlockMajorRow := by
  unfold rowIndex kVectorsPerBlockMajorRow
  rw [Nat.zero_mul, Nat.zero_add]
  exact Device.cell_lt (Device.cell_lt layer.isLt plane.isLt) vector.isLt

theorem rowIndex_lt {count : ℕ} (h : row < count) (layer : Fin kAttentionLayers)
    (plane : Fin kKvPlanes) (vector : Fin kVectorsPerPlaneBlock) :
    rowIndex row layer plane vector < count * kVectorsPerBlockMajorRow := by
  rw [rowIndex_eq]
  exact Device.cell_lt h (rowIndex_zero_lt layer plane vector)

/-- Every address of a block-major buffer is that of a vector of a row. -/
theorem exists_rowIndex {count linear : ℕ} (h : linear < count * kVectorsPerBlockMajorRow) :
    ∃ row < count, ∃ (layer : Fin kAttentionLayers) (plane : Fin kKvPlanes)
      (vector : Fin kVectorsPerPlaneBlock), linear = rowIndex row layer plane vector := by
  have hV : 0 < kVectorsPerPlaneBlock := by decide
  have hP : 0 < kKvPlanes := by decide
  have hL : 0 < kAttentionLayers := by decide
  have hrow : linear / kVectorsPerPlaneBlock / kKvPlanes / kAttentionLayers < count := by
    rw [Nat.div_div_eq_div_mul, Nat.div_div_eq_div_mul]
    refine Nat.div_lt_of_lt_mul (h.trans_eq ?_)
    unfold kVectorsPerBlockMajorRow
    ring
  refine ⟨_, hrow, ⟨_, Nat.mod_lt (linear / kVectorsPerPlaneBlock / kKvPlanes) hL⟩,
    ⟨_, Nat.mod_lt (linear / kVectorsPerPlaneBlock) hP⟩, ⟨_, Nat.mod_lt linear hV⟩, ?_⟩
  unfold rowIndex
  dsimp only
  rw [Nat.div_add_mod', Nat.div_add_mod', Nat.div_add_mod']

theorem rowIndex_inj {row' layer layer' plane plane' vector vector' : ℕ}
    (hl : layer < kAttentionLayers) (hp : plane < kKvPlanes) (hv : vector < kVectorsPerPlaneBlock)
    (hl' : layer' < kAttentionLayers) (hp' : plane' < kKvPlanes)
    (hv' : vector' < kVectorsPerPlaneBlock)
    (h : rowIndex row layer plane vector = rowIndex row' layer' plane' vector') :
    row = row' ∧ layer = layer' ∧ plane = plane' ∧ vector = vector' := by
  obtain ⟨hrest, hvector⟩ := Device.cell_inj hv hv' h
  obtain ⟨hrest, hplane⟩ := Device.cell_inj hp hp' hrest
  obtain ⟨hrow, hlayer⟩ := Device.cell_inj hl hl' hrest
  exact ⟨hrow, hlayer, hplane, hvector⟩

theorem layerIndex_inj {block block' plane plane' vector vector' : ℕ} (hb : block < n)
    (hb' : block' < n) (hv : vector < kVectorsPerPlaneBlock) (hv' : vector' < kVectorsPerPlaneBlock)
    (h : layerIndex n block plane vector = layerIndex n block' plane' vector') :
    block = block' ∧ plane = plane' ∧ vector = vector' := by
  obtain ⟨hrest, hvector⟩ := Device.cell_inj hv hv' h
  obtain ⟨hplane, hblock⟩ := Device.cell_inj hb hb' hrest
  exact ⟨hblock, hplane, hvector⟩

/-! ## Operations that move -/

section moves

variable {ι : Type} {l : List ι} {src dst : ι → Cell}

/-- No cell is written twice, and none is both read and written. -/
structure Apart (l : List ι) (src dst : ι → Cell) : Prop where
  nodup : (l.map dst).Nodup
  ne : ∀ i ∈ l, ∀ j ∈ l, src i ≠ dst j

theorem Apart.pairwise (h : Apart l src dst) :
    (l.map fun i => Piece.move (src i) (dst i)).Pairwise Independent := by
  rw [List.pairwise_map]
  refine (List.pairwise_map.mp h.nodup).imp_of_mem fun {i j} hi hj hne => ?_
  exact ⟨hne, fun heq => h.ne j hj i hi heq.symm, h.ne i hi j hj⟩

theorem runAll_moves_aux (cells : Cell → κ) (hcells : ∀ i ∈ l, m.cells (src i) = cells (src i))
    (hne : ∀ i ∈ l, ∀ j ∈ l, src i ≠ dst j) :
    runAll (l.map fun i => Piece.move (src i) (dst i)) m =
      { m with cells := copyAll (l.map fun i => (src i, dst i)) cells m.cells } := by
  induction l generalizing m with
  | nil => rfl
  | cons i l ih =>
    have hi := hcells i List.mem_cons_self
    have hrest : ∀ j ∈ l, ((Piece.move (src i) (dst i)).exec m).cells (src j) = cells (src j) := by
      intro j hj
      have hout : src j ≠ dst i := hne j (List.mem_cons_of_mem _ hj) i List.mem_cons_self
      exact (Function.update_of_ne hout _ _).trans (hcells j (List.mem_cons_of_mem _ hj))
    have hrun := ih hrest fun j hj k hk =>
      hne j (List.mem_cons_of_mem _ hj) k (List.mem_cons_of_mem _ hk)
    refine Eq.trans hrun ?_
    show Memory.mk (copyAll _ cells (Function.update m.cells (dst i) (m.cells (src i)))) _ = _
    rw [hi]
    rfl

/-- An operation whose moves do not meet is a simultaneous copy. -/
theorem Apart.runAll (h : Apart l src dst) (m : Memory κ) :
    runAll (l.map fun i => Piece.move (src i) (dst i)) m =
      { m with cells := copyAll (l.map fun i => (src i, dst i)) m.cells m.cells } :=
  runAll_moves_aux m.cells (fun _ _ => rfl) h.ne

theorem Apart.cells_dst (h : Apart l src dst) {i : ι} (hi : i ∈ l) :
    (DeviceStream.runAll (l.map fun i => Piece.move (src i) (dst i)) m).cells (dst i) =
      m.cells (src i) := by
  rw [h.runAll]
  refine copyAll_of_mem ?_ (List.mem_map_of_mem hi)
  rw [List.map_map]
  exact h.nodup

theorem Apart.cells_of_ne (h : Apart l src dst) {c : Cell} (hc : ∀ i ∈ l, c ≠ dst i) :
    (DeviceStream.runAll (l.map fun i => Piece.move (src i) (dst i)) m).cells c = m.cells c := by
  rw [h.runAll]
  refine copyAll_of_notMem fun hmem => ?_
  rw [List.map_map, List.mem_map] at hmem
  obtain ⟨i, hi, rfl⟩ := hmem
  exact hc i hi rfl

theorem Apart.errorFlag (h : Apart l src dst) :
    (DeviceStream.runAll (l.map fun i => Piece.move (src i) (dst i)) m).errorFlag = m.errorFlag := by
  rw [h.runAll]

end moves

/-! ## Transfers of whole rows -/

/-- The operation moves each vector of `count` rows once, in some order, from `src` to `dst`. -/
structure Transfer (op : List Piece) (count : ℕ) (src dst : ℕ → Cell) : Prop where
  order : ∃ l : List ℕ, l.Perm (List.range (count * kVectorsPerBlockMajorRow)) ∧
    op = l.map fun linear => .move (src linear) (dst linear)
  inj : ∀ i < count * kVectorsPerBlockMajorRow, ∀ j < count * kVectorsPerBlockMajorRow,
    dst i = dst j → i = j
  ne : ∀ i < count * kVectorsPerBlockMajorRow, ∀ j < count * kVectorsPerBlockMajorRow,
    src i ≠ dst j

namespace Transfer

variable {op : List Piece} {count : ℕ} {src dst : ℕ → Cell}

theorem apart (h : Transfer op count src dst) :
    ∃ l : List ℕ, (∀ i, i ∈ l ↔ i < count * kVectorsPerBlockMajorRow) ∧ Apart l src dst ∧
      op = l.map fun linear => .move (src linear) (dst linear) := by
  obtain ⟨⟨l, hperm, rfl⟩, hinj, hne⟩ := h
  have hmem : ∀ i, i ∈ l ↔ i < count * kVectorsPerBlockMajorRow := fun i =>
    hperm.mem_iff.trans List.mem_range
  have hnodup : l.Nodup := hperm.nodup_iff.mpr List.nodup_range
  refine ⟨l, hmem, ⟨?_, fun i hi j hj => hne i ((hmem i).mp hi) j ((hmem j).mp hj)⟩, rfl⟩
  exact hnodup.map_on fun i hi j hj => hinj i ((hmem i).mp hi) j ((hmem j).mp hj)

theorem pairwise (h : Transfer op count src dst) : op.Pairwise Independent := by
  obtain ⟨l, -, hapart, rfl⟩ := h.apart
  exact hapart.pairwise

theorem mem (h : Transfer op count src dst) {p : Piece} (hp : p ∈ op) :
    ∃ i, p = .move (src i) (dst i) := by
  obtain ⟨l, -, -, rfl⟩ := h.apart
  obtain ⟨i, -, rfl⟩ := List.mem_map.mp hp
  exact ⟨i, rfl⟩

theorem cells_dst (h : Transfer op count src dst) {i : ℕ}
    (hi : i < count * kVectorsPerBlockMajorRow) :
    (runAll op m).cells (dst i) = m.cells (src i) := by
  obtain ⟨l, hmem, hapart, rfl⟩ := h.apart
  exact hapart.cells_dst ((hmem i).mpr hi)

theorem cells_of_ne (h : Transfer op count src dst) {c : Cell}
    (hc : ∀ i < count * kVectorsPerBlockMajorRow, c ≠ dst i) :
    (runAll op m).cells c = m.cells c := by
  obtain ⟨l, hmem, hapart, rfl⟩ := h.apart
  exact hapart.cells_of_ne fun i hi => hc i ((hmem i).mp hi)

theorem errorFlag (h : Transfer op count src dst) : (runAll op m).errorFlag = m.errorFlag := by
  obtain ⟨l, -, hapart, rfl⟩ := h.apart
  exact hapart.errorFlag

end Transfer

/-- The ids as the tensors hold them. -/
def ids (blocks : List ℕ) : List ℤ := blocks.map fun (b : ℕ) => (b : ℤ)

theorem getD_ids (blocks : List ℕ) (row : ℕ) : (ids blocks).getD row 0 = (blocks.getD row 0 : ℕ) := by
  unfold ids
  rw [List.getD_eq_getElem?_getD, List.getD_eq_getElem?_getD, List.getElem?_map]
  cases blocks[row]? <;> rfl

/-- The vector of the GPU cache that a kernel finds for `linear`. -/
def kernelCell (n : ℕ) (blocks : List ℕ) (linear : ℕ) : Cell :=
  .gpu (linear / kVectorsPerPlaneBlock / kKvPlanes % kAttentionLayers)
    (layerIndex n (blocks.getD (linear / kVectorsPerPlaneBlock / kKvPlanes / kAttentionLayers) 0)
      (linear / kVectorsPerPlaneBlock % kKvPlanes) (linear % kVectorsPerPlaneBlock))

theorem kernelCell_rowIndex (layer : Fin kAttentionLayers) (plane : Fin kKvPlanes)
    (vector : Fin kVectorsPerPlaneBlock) :
    kernelCell n blocks (rowIndex row layer plane vector) =
      .gpu layer (layerIndex n (blocks.getD row 0) plane vector) := by
  unfold kernelCell rowIndex
  rw [Device.cell_div vector.isLt, Device.cell_mod vector.isLt, Device.cell_div plane.isLt,
    Device.cell_mod plane.isLt, Device.cell_div layer.isLt, Device.cell_mod layer.isLt]

theorem toInt32_eq {x : ℕ} (h : x < 2 ^ 31) : toInt32 x = x := by
  unfold toInt32
  rw [Int.bmod_eq_of_le]
  · omega
  · omega

theorem toUnsigned_eq {x : ℕ} (h : x < 2 ^ 31) : toUnsigned x = x := by
  unfold toUnsigned
  exact Int.emod_eq_of_lt (Int.natCast_nonneg x) (by omega)

theorem getD_lt (hblocks : ∀ b ∈ blocks, b < n) (hrow : row < blocks.length) :
    blocks.getD row 0 < n := by
  rw [List.getD_eq_getElem blocks 0 hrow]
  exact hblocks _ (List.getElem_mem hrow)

/-- No block is out of range, so that the kernels set no flag. -/
theorem kernelPiece_eq (hn : n < 2 ^ 31) (hblocks : ∀ b ∈ blocks, b < n) (piece : Cell → ℕ → Piece)
    {linear : ℕ} (hlinear : linear < blocks.length * kVectorsPerBlockMajorRow) :
    kernelPiece (toInt32 n) (ids blocks) piece linear =
      piece (kernelCell n blocks linear) linear := by
  obtain ⟨row, hrow, layer, plane, vector, rfl⟩ := exists_rowIndex hlinear
  have hlt := getD_lt hblocks hrow
  rw [kernelCell_rowIndex]
  unfold kernelPiece rowIndex
  dsimp only
  rw [Device.cell_div vector.isLt, Device.cell_mod vector.isLt, Device.cell_div plane.isLt,
    Device.cell_mod plane.isLt, Device.cell_div layer.isLt, Device.cell_mod layer.isLt, getD_ids,
    toInt32_eq hn, toUnsigned_eq hn, toUnsigned_eq (hlt.trans hn), if_neg]
  · rfl
  · exact fun hle => absurd hlt (Nat.not_lt.mpr (Int.ofNat_le.mp hle))

theorem launchBlocks_pos {count : ℕ} (h : 0 < count) : 0 < launchBlocks count * kThreads := by
  refine Nat.mul_pos (Nat.lt_min.mpr ⟨Nat.div_pos ?_ (by decide), by decide⟩) (by decide)
  have hR : 0 < count * kVectorsPerBlockMajorRow := Nat.mul_pos h (by decide)
  omega

/-- A kernel visits every vector once. -/
theorem kernel_order (hn : n < 2 ^ 31) (hblocks : ∀ b ∈ blocks, b < n) (hpos : 0 < blocks.length)
    (piece : Cell → ℕ → Piece) :
    ∃ l : List ℕ, l.Perm (List.range (blocks.length * kVectorsPerBlockMajorRow)) ∧
      kernel (toInt32 n) (ids blocks) blocks.length piece =
        l.map fun linear => piece (kernelCell n blocks linear) linear := by
  have hperm := Device.gridStride_perm (blocks.length * kVectorsPerBlockMajorRow)
    (launchBlocks_pos hpos)
  refine ⟨_, hperm, List.map_congr_left fun linear hmem => ?_⟩
  exact kernelPiece_eq hn hblocks piece (List.mem_range.mp (hperm.mem_iff.mp hmem))

theorem kernelCell_inj (hblocks : ∀ b ∈ blocks, b < n) (hnodup : blocks.Nodup) {i j : ℕ}
    (hi : i < blocks.length * kVectorsPerBlockMajorRow)
    (hj : j < blocks.length * kVectorsPerBlockMajorRow)
    (h : kernelCell n blocks i = kernelCell n blocks j) : i = j := by
  obtain ⟨row, hrow, layer, plane, vector, rfl⟩ := exists_rowIndex hi
  obtain ⟨row', hrow', layer', plane', vector', rfl⟩ := exists_rowIndex hj
  rw [kernelCell_rowIndex, kernelCell_rowIndex] at h
  obtain ⟨hlayer, hindex⟩ := Cell.gpu.inj h
  obtain ⟨hblock, hplane, hvector⟩ := layerIndex_inj (getD_lt hblocks hrow)
    (getD_lt hblocks hrow') vector.isLt vector'.isLt hindex
  rw [List.getD_eq_getElem blocks 0 hrow, List.getD_eq_getElem blocks 0 hrow'] at hblock
  rw [hnodup.getElem_inj_iff.mp hblock, hlayer, hplane, hvector]

/-- The vector of the CPU pool that the host finds for `linear`. -/
def cpuCell (blocks : List ℕ) (linear : ℕ) : Cell :=
  .cpu (blocks.getD (linear / kVectorsPerBlockMajorRow) 0 * kVectorsPerBlockMajorRow +
    linear % kVectorsPerBlockMajorRow)

theorem cpuCell_rowIndex (layer : Fin kAttentionLayers) (plane : Fin kKvPlanes)
    (vector : Fin kVectorsPerPlaneBlock) :
    cpuCell blocks (rowIndex row layer plane vector) =
      .cpu (rowIndex (blocks.getD row 0) layer plane vector) := by
  have hlt := rowIndex_zero_lt layer plane vector
  unfold cpuCell
  rw [rowIndex_eq row, rowIndex_eq (blocks.getD row 0), Device.cell_div hlt, Device.cell_mod hlt]

theorem cpuRows_order (piece : Cell → ℕ → Piece) :
    ∃ l : List ℕ, l.Perm (List.range (blocks.length * kVectorsPerBlockMajorRow)) ∧
      cpuRows (ids blocks) blocks.length piece =
        l.map fun linear => piece (cpuCell blocks linear) linear := by
  refine ⟨_, List.Perm.refl _, ?_⟩
  rw [← Device.range_flatMap_range, List.map_flatMap]
  refine List.flatMap_congr fun row _ => ?_
  rw [List.map_map]
  refine List.map_congr_left fun v hv => ?_
  have hlt := List.mem_range.mp hv
  show _ = piece (cpuCell blocks (row * kVectorsPerBlockMajorRow + v)) _
  unfold cpuCell
  rw [Device.cell_div hlt, Device.cell_mod hlt, getD_ids]
  rfl

theorem cpuCell_inj (hnodup : blocks.Nodup) {i j : ℕ}
    (hi : i < blocks.length * kVectorsPerBlockMajorRow)
    (hj : j < blocks.length * kVectorsPerBlockMajorRow) (h : cpuCell blocks i = cpuCell blocks j) :
    i = j := by
  obtain ⟨row, hrow, layer, plane, vector, rfl⟩ := exists_rowIndex hi
  obtain ⟨row', hrow', layer', plane', vector', rfl⟩ := exists_rowIndex hj
  rw [cpuCell_rowIndex, cpuCell_rowIndex] at h
  obtain ⟨hblock, hlayer, hplane, hvector⟩ := rowIndex_inj layer.isLt plane.isLt vector.isLt
    layer'.isLt plane'.isLt vector'.isLt (Cell.cpu.inj h)
  rw [List.getD_eq_getElem blocks 0 hrow, List.getD_eq_getElem blocks 0 hrow'] at hblock
  rw [hnodup.getElem_inj_iff.mp hblock, hlayer, hplane, hvector]

/-! ## The operations of a chunk -/

section operations

variable {op : List Piece} {count : ℕ} {src dst : ℕ → Cell}

/-- The operations of a chunk on one staging slot. -/
def packOp (n slot : ℕ) (blocks : List ℕ) : List Piece :=
  kernel (toInt32 n) (ids blocks) blocks.length fun cell linear => .move cell (.gpuStaging slot linear)

def scatterOp (n slot : ℕ) (blocks : List ℕ) : List Piece :=
  kernel (toInt32 n) (ids blocks) blocks.length fun cell linear => .move (.gpuStaging slot linear) cell

def gatherOp (slot : ℕ) (blocks : List ℕ) : List Piece :=
  cpuRows (ids blocks) blocks.length fun cell index => .move cell (.cpuStaging slot index)

def cpuScatterOp (slot : ℕ) (blocks : List ℕ) : List Piece :=
  cpuRows (ids blocks) blocks.length fun cell index => .move (.cpuStaging slot index) cell

def copyOp (source destination : ℕ → ℕ → Cell) (slot count : ℕ) : List Piece :=
  (List.range (count * kVectorsPerBlockMajorRow)).map fun index =>
    .move (source slot index) (destination slot index)

theorem pack_transfer (slot : ℕ) (hn : n < 2 ^ 31) (hblocks : ∀ b ∈ blocks, b < n)
    (hpos : 0 < blocks.length) :
    Transfer (packOp n slot blocks) blocks.length (kernelCell n blocks) (.gpuStaging slot) where
  order := kernel_order hn hblocks hpos _
  inj _ _ _ _ heq := (Cell.gpuStaging.inj heq).2
  ne _ _ _ _ heq := Cell.noConfusion heq

theorem scatter_transfer (slot : ℕ) (hn : n < 2 ^ 31) (hblocks : ∀ b ∈ blocks, b < n)
    (hpos : 0 < blocks.length) (hnodup : blocks.Nodup) :
    Transfer (scatterOp n slot blocks) blocks.length (.gpuStaging slot) (kernelCell n blocks) where
  order := kernel_order hn hblocks hpos _
  inj _ hi _ hj heq := kernelCell_inj hblocks hnodup hi hj heq
  ne _ _ _ _ heq := Cell.noConfusion heq

theorem gather_transfer (slot : ℕ) (blocks : List ℕ) :
    Transfer (gatherOp slot blocks) blocks.length (cpuCell blocks) (.cpuStaging slot) where
  order := cpuRows_order _
  inj _ _ _ _ heq := (Cell.cpuStaging.inj heq).2
  ne _ _ _ _ heq := Cell.noConfusion heq

theorem cpuScatter_transfer (slot : ℕ) (hnodup : blocks.Nodup) :
    Transfer (cpuScatterOp slot blocks) blocks.length (.cpuStaging slot) (cpuCell blocks) where
  order := cpuRows_order _
  inj _ hi _ hj heq := cpuCell_inj hnodup hi hj heq
  ne _ _ _ _ heq := Cell.noConfusion heq

theorem copyOut_transfer :
    Transfer (copyOp .gpuStaging .cpuStaging slot count) count (.gpuStaging slot)
      (.cpuStaging slot) where
  order := ⟨_, List.Perm.refl _, rfl⟩
  inj _ _ _ _ heq := (Cell.cpuStaging.inj heq).2
  ne _ _ _ _ heq := Cell.noConfusion heq

theorem copyIn_transfer :
    Transfer (copyOp .cpuStaging .gpuStaging slot count) count (.cpuStaging slot)
      (.gpuStaging slot) where
  order := ⟨_, List.Perm.refl _, rfl⟩
  inj _ _ _ _ heq := (Cell.gpuStaging.inj heq).2
  ne _ _ _ _ heq := Cell.noConfusion heq

theorem Transfer.rowBlock_eq (h : Transfer op count src dst) (hrow : row < count) :
    rowBlock dst (runAll op m) row = rowBlock src m row := by
  funext layer plane vector
  exact h.cells_dst (rowIndex_lt hrow layer plane vector)

theorem rowBlock_kernelCell (m : Memory κ) (row : ℕ) :
    rowBlock (kernelCell n blocks) m row = gpuBlock n m (blocks.getD row 0) := by
  funext layer plane vector
  exact congrArg m.cells (kernelCell_rowIndex layer plane vector)

theorem rowBlock_cpuCell (m : Memory κ) (row : ℕ) :
    rowBlock (cpuCell blocks) m row = cpuBlock m (blocks.getD row 0) := by
  funext layer plane vector
  exact congrArg m.cells (cpuCell_rowIndex layer plane vector)

/-- What the kernel leaves alone in the GPU cache. -/
theorem Transfer.gpuBlock_of_notMem (h : Transfer op blocks.length src (kernelCell n blocks))
    (hblocks : ∀ b ∈ blocks, b < n) {block : ℕ} (hblock : block < n) (hnot : block ∉ blocks) :
    gpuBlock n (runAll op m) block = gpuBlock n m block := by
  funext layer plane vector
  refine h.cells_of_ne fun i hi heq => ?_
  obtain ⟨row, hrow, layer', plane', vector', rfl⟩ := exists_rowIndex hi
  rw [kernelCell_rowIndex] at heq
  have hindex := (Cell.gpu.inj heq).2
  obtain ⟨rfl, -⟩ := layerIndex_inj hblock (getD_lt hblocks hrow) vector.isLt vector'.isLt hindex
  rw [List.getD_eq_getElem blocks 0 hrow] at hnot
  exact hnot (List.getElem_mem hrow)

/-- What the host leaves alone in the CPU pool. -/
theorem Transfer.cpuBlock_of_notMem (h : Transfer op blocks.length src (cpuCell blocks)) {block : ℕ}
    (hnot : block ∉ blocks) : cpuBlock (runAll op m) block = cpuBlock m block := by
  funext layer plane vector
  refine h.cells_of_ne fun i hi heq => ?_
  obtain ⟨row, hrow, layer', plane', vector', rfl⟩ := exists_rowIndex hi
  rw [cpuCell_rowIndex] at heq
  obtain ⟨rfl, -⟩ := rowIndex_inj layer.isLt plane.isLt vector.isLt layer'.isLt plane'.isLt
    vector'.isLt (Cell.cpu.inj heq)
  rw [List.getD_eq_getElem blocks 0 hrow] at hnot
  exact hnot (List.getElem_mem hrow)

end operations

end Ikun.BlockMajor
