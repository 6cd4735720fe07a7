import Ikun.CpuKv.BlockMajorProgram
import Ikun.CpuKv.Worker

/-!
# The double-buffered swap is a plain copy

Executed without a stream, the program of a swap brings one chunk after the other to its destination
blocks, by way of the staging buffers. It passes the check of `DeviceStream`, so all its executions
end like that: `swap_delivers`. For the workers of the CPU KV cache, a swap is what they take it for
(`swapOut_refines`, `swapIn_refines`).
-/

namespace Ikun.BlockMajor

open DeviceStream Independence Except

variable {κ : Type} {m m₀ : Memory κ} {cache : BlockMajorCpuKVCache} {sources destinations : ℕ}

/-! ## Chunk by chunk -/

section sequential

variable {n index slot slot' : ℕ} {chunk next moved : List (ℕ × ℕ)} {chunks : List (List (ℕ × ℕ))}

/-- A chunk whose rows have arrived is copied. -/
theorem eq_copyAll {old new src : ℕ → Block κ} {b : ℕ} (hnodup : (chunk.map Prod.snd).Nodup)
    (hrows : ∀ row < chunk.length,
      new ((chunk.map Prod.snd).getD row 0) = src ((chunk.map Prod.fst).getD row 0))
    (hold : b ∉ chunk.map Prod.snd → new b = old b) : new b = copyAll chunk src old b := by
  by_cases hb : b ∈ chunk.map Prod.snd
  · obtain ⟨p, hp, rfl⟩ := List.mem_map.mp hb
    obtain ⟨row, hrow, rfl⟩ := List.getElem_of_mem hp
    have hrow' := hrows row hrow
    rw [List.getD_eq_getElem _ 0 ((List.length_map Prod.snd).symm ▸ hrow),
      List.getD_eq_getElem _ 0 ((List.length_map Prod.fst).symm ▸ hrow), List.getElem_map,
      List.getElem_map] at hrow'
    rw [hrow']
    exact (copyAll_of_mem hnodup hp).symm
  · rw [copyAll_of_notMem hb]
    exact hold hb

theorem copyAll_append {src old : ℕ → Block κ} :
    copyAll (moved ++ chunk) src old = copyAll chunk src (copyAll moved src old) :=
  List.foldl_append

/-- The pairs `moved` have arrived in the CPU pool. -/
structure ArrivedOut (n : ℕ) (m₀ : Memory κ) (moved : List (ℕ × ℕ)) (m : Memory κ) : Prop where
  flag : m.errorFlag = 0
  gpu : ∀ layer i, m.cells (.gpu layer i) = m₀.cells (.gpu layer i)
  cpu : ∀ b, cpuBlock m b = copyAll moved (gpuBlock n m₀) (cpuBlock m₀) b

/-- The sources of the chunk are in the CPU staging buffer. -/
def Staged (n : ℕ) (m₀ : Memory κ) (slot : ℕ) (chunk : List (ℕ × ℕ)) (m : Memory κ) : Prop :=
  ∀ row < chunk.length,
    rowBlock (.cpuStaging slot) m row = gpuBlock n m₀ ((chunk.map Prod.fst).getD row 0)

/-- The stream packs a chunk and copies it to the CPU. -/
def stage (n slot : ℕ) (chunk : List (ℕ × ℕ)) (m : Memory κ) : Memory κ :=
  runAll (copyOp .gpuStaging .cpuStaging slot chunk.length)
    (runAll (packOp n slot (chunk.map Prod.fst)) m)

theorem pack_chunk (h : Fits cache cache.numGpuBlocks destinations chunk) :
    Transfer (packOp cache.numGpuBlocks slot (chunk.map Prod.fst)) chunk.length
      (kernelCell cache.numGpuBlocks (chunk.map Prod.fst)) (.gpuStaging slot) := by
  have hlen : (chunk.map Prod.fst).length = chunk.length := List.length_map _
  have hpack := pack_transfer slot (numGpuBlocks_lt cache)
    h.source_lt (hlen ▸ h.pos)
  rwa [hlen] at hpack

theorem stage_cells (h : Fits cache cache.numGpuBlocks destinations chunk) {c : Cell}
    (hgpu : ∀ i, c ≠ .gpuStaging slot i) (hcpu : ∀ i, c ≠ .cpuStaging slot i) :
    (stage cache.numGpuBlocks slot chunk m).cells c = m.cells c :=
  (copyOut_transfer.cells_of_ne fun i _ => hcpu i).trans
    ((pack_chunk h).cells_of_ne fun i _ => hgpu i)

theorem ArrivedOut.stage (h : ArrivedOut cache.numGpuBlocks m₀ moved m) (slot : ℕ)
    (hchunk : Fits cache cache.numGpuBlocks destinations chunk) :
    ArrivedOut cache.numGpuBlocks m₀ moved (stage cache.numGpuBlocks slot chunk m) where
  flag := (copyOut_transfer.errorFlag.trans (pack_chunk hchunk).errorFlag).trans h.flag
  gpu layer i := (stage_cells hchunk (fun _ heq => Cell.noConfusion heq)
    fun _ heq => Cell.noConfusion heq).trans (h.gpu layer i)
  cpu b := by
    rw [← h.cpu b]
    funext layer plane vector
    exact stage_cells hchunk (fun _ heq => Cell.noConfusion heq) fun _ heq => Cell.noConfusion heq

/-- The chunk is staged, since the GPU blocks are still as they were. -/
theorem ArrivedOut.staged (h : ArrivedOut cache.numGpuBlocks m₀ moved m) (slot : ℕ)
    (hchunk : Fits cache cache.numGpuBlocks destinations chunk) :
    Staged cache.numGpuBlocks m₀ slot chunk (BlockMajor.stage cache.numGpuBlocks slot chunk m) := by
  intro row hrow
  unfold BlockMajor.stage
  rw [copyOut_transfer.rowBlock_eq hrow, (pack_chunk hchunk).rowBlock_eq hrow, rowBlock_kernelCell]
  funext layer plane vector
  exact h.gpu layer _

theorem Staged.stage (h : Staged cache.numGpuBlocks m₀ slot chunk m) (hslot : slot ≠ slot')
    (hnext : Fits cache cache.numGpuBlocks destinations next) :
    Staged cache.numGpuBlocks m₀ slot chunk (stage cache.numGpuBlocks slot' next m) := by
  intro row hrow
  rw [← h row hrow]
  funext layer plane vector
  exact stage_cells hnext (fun _ heq => Cell.noConfusion heq)
    fun _ heq => hslot (Cell.cpuStaging.inj heq).1

theorem cpuScatter_chunk (hnodup : (chunk.map Prod.snd).Nodup) :
    Transfer (cpuScatterOp slot (chunk.map Prod.snd)) chunk.length (.cpuStaging slot)
      (cpuCell (chunk.map Prod.snd)) := by
  have hscatter := cpuScatter_transfer slot hnodup
  rwa [List.length_map] at hscatter

/-- The host scatters a staged chunk. -/
theorem ArrivedOut.scatter (h : ArrivedOut n m₀ moved m) (hstaged : Staged n m₀ slot chunk m)
    (hnodup : (chunk.map Prod.snd).Nodup) :
    ArrivedOut n m₀ (moved ++ chunk) (runAll (cpuScatterOp slot (chunk.map Prod.snd)) m) where
  flag := (cpuScatter_chunk hnodup).errorFlag.trans h.flag
  gpu layer i := ((cpuScatter_chunk hnodup).cells_of_ne fun _ _ heq => Cell.noConfusion heq).trans
    (h.gpu layer i)
  cpu b := by
    rw [copyAll_append]
    refine eq_copyAll hnodup (fun row hrow => ?_) fun hnot => ?_
    · rw [← rowBlock_cpuCell, (cpuScatter_chunk hnodup).rowBlock_eq hrow]
      exact hstaged row hrow
    · rw [(cpuScatter_transfer _ hnodup).cpuBlock_of_notMem hnot]
      exact h.cpu b

theorem Staged.scatter (h : Staged n m₀ slot chunk m) (slot' : ℕ) {blocks : List ℕ}
    (hnodup : blocks.Nodup) : Staged n m₀ slot chunk (runAll (cpuScatterOp slot' blocks) m) := by
  intro row hrow
  rw [← h row hrow]
  funext layer plane vector
  exact (cpuScatter_transfer _ hnodup).cells_of_ne fun _ _ heq => Cell.noConfusion heq

theorem sequential_swapOutLoop (index : ℕ) (h : ArrivedOut cache.numGpuBlocks m₀ moved m)
    (hstaged : Staged cache.numGpuBlocks m₀ slot chunk m)
    (hchunk : Fits cache cache.numGpuBlocks cache.numCpuBlocks chunk)
    (hchunks : ∀ chunk ∈ chunks, Fits cache cache.numGpuBlocks cache.numCpuBlocks chunk)
    (hslot : slot ≠ index % stagingBufferCount) :
    ∃ m', sequential
        (cache.swapOutLoop index (some (pendingOf slot chunk)) (chunks.map (chunkOf Prod.fst)) ++
          [checkError]) m = .ok m' ∧
      ArrivedOut cache.numGpuBlocks m₀ (moved ++ chunk ++ chunks.flatten) m' := by
  induction chunks generalizing index slot chunk moved m with
  | nil =>
    have hscatter := h.scatter hstaged hchunk.destination_nodup
    refine ⟨runAll (cpuScatterOp slot (chunk.map Prod.snd)) m, ?_, ?_⟩
    · rw [List.map_nil, BlockMajorCpuKVCache.swapOutLoop, drainPending_eq hchunk]
      exact if_pos (decide_eq_true hscatter.flag)
    · rw [List.flatten_nil, List.append_nil]
      exact hscatter
  | cons next chunks ih =>
    have hnext := hchunks next List.mem_cons_self
    have hnodup := hchunk.destination_nodup
    have hstage := (h.stage (index % stagingBufferCount) hnext).scatter
      (hstaged.stage hslot hnext) hnodup
    have hnextStaged := (h.staged (index % stagingBufferCount) hnext).scatter slot hnodup
    obtain ⟨m', hrun, harrived⟩ := ih (index + 1) hstage hnextStaged hnext
      (fun chunk hmem => hchunks chunk (List.mem_cons_of_mem _ hmem)) (slot_ne index)
    refine ⟨m', ?_, ?_⟩
    · rw [List.map_cons, swapOutLoop_cons hnext, drainPending_eq hchunk]
      exact hrun
    · rw [List.flatten_cons, ← List.append_assoc]
      exact harrived

/-- The pairs `moved` have arrived in the GPU cache. -/
structure ArrivedIn (n : ℕ) (m₀ : Memory κ) (moved : List (ℕ × ℕ)) (m : Memory κ) : Prop where
  flag : m.errorFlag = 0
  cpu : ∀ i, m.cells (.cpu i) = m₀.cells (.cpu i)
  gpu : ∀ b < n, gpuBlock n m b = copyAll moved (cpuBlock m₀) (gpuBlock n m₀) b

/-- The host gathers a chunk, and the stream copies and scatters it. -/
def bring (n slot : ℕ) (chunk : List (ℕ × ℕ)) (m : Memory κ) : Memory κ :=
  runAll (scatterOp n slot (chunk.map Prod.snd))
    (runAll (copyOp .cpuStaging .gpuStaging slot chunk.length)
      (runAll (gatherOp slot (chunk.map Prod.fst)) m))

theorem gather_chunk (slot : ℕ) (chunk : List (ℕ × ℕ)) :
    Transfer (gatherOp slot (chunk.map Prod.fst)) chunk.length (cpuCell (chunk.map Prod.fst))
      (.cpuStaging slot) := by
  have hgather := gather_transfer slot (chunk.map Prod.fst)
  rwa [List.length_map] at hgather

theorem scatter_chunk (h : Fits cache sources cache.numGpuBlocks chunk) (slot : ℕ) :
    Transfer (scatterOp cache.numGpuBlocks slot (chunk.map Prod.snd)) (chunk.map Prod.snd).length
      (.gpuStaging slot) (kernelCell cache.numGpuBlocks (chunk.map Prod.snd)) := by
  have hlen : (chunk.map Prod.snd).length = chunk.length := List.length_map _
  exact scatter_transfer slot (numGpuBlocks_lt cache) h.destination_lt (hlen ▸ h.pos) h.destination_nodup

/-- What a round writes. -/
theorem bring_rows (hchunk : Fits cache sources cache.numGpuBlocks chunk) {row : ℕ}
    (hrow : row < chunk.length) :
    gpuBlock cache.numGpuBlocks (bring cache.numGpuBlocks slot chunk m)
        ((chunk.map Prod.snd).getD row 0) =
      cpuBlock m ((chunk.map Prod.fst).getD row 0) := by
  have hrow' : row < (chunk.map Prod.snd).length := by rwa [List.length_map]
  unfold bring
  rw [← rowBlock_kernelCell, (scatter_chunk hchunk slot).rowBlock_eq hrow',
    copyIn_transfer.rowBlock_eq hrow, (gather_chunk slot chunk).rowBlock_eq hrow, rowBlock_cpuCell]

/-- What a round leaves alone. -/
theorem bring_cells (hchunk : Fits cache sources cache.numGpuBlocks chunk) {c : Cell}
    (hscatter : ∀ i, c ≠ kernelCell cache.numGpuBlocks (chunk.map Prod.snd) i)
    (hgpu : ∀ i, c ≠ .gpuStaging slot i) (hcpu : ∀ i, c ≠ .cpuStaging slot i) :
    (bring cache.numGpuBlocks slot chunk m).cells c = m.cells c :=
  ((scatter_chunk hchunk slot).cells_of_ne fun i _ => hscatter i).trans
    ((copyIn_transfer.cells_of_ne fun i _ => hgpu i).trans
      ((gather_chunk slot chunk).cells_of_ne fun i _ => hcpu i))

theorem bring_gpuBlock (hchunk : Fits cache sources cache.numGpuBlocks chunk) {b : ℕ}
    (hb : b < cache.numGpuBlocks) (hnot : b ∉ chunk.map Prod.snd) :
    gpuBlock cache.numGpuBlocks (bring cache.numGpuBlocks slot chunk m) b =
      gpuBlock cache.numGpuBlocks m b := by
  unfold bring
  rw [(scatter_chunk hchunk slot).gpuBlock_of_notMem hchunk.destination_lt hb hnot]
  funext layer plane vector
  exact (copyIn_transfer.cells_of_ne fun _ _ heq => Cell.noConfusion heq).trans
    ((gather_chunk slot chunk).cells_of_ne fun _ _ heq => Cell.noConfusion heq)

theorem ArrivedIn.bring (h : ArrivedIn cache.numGpuBlocks m₀ moved m)
    (hchunk : Fits cache sources cache.numGpuBlocks chunk) (slot : ℕ) :
    ArrivedIn cache.numGpuBlocks m₀ (moved ++ chunk) (bring cache.numGpuBlocks slot chunk m) where
  flag := (scatter_chunk hchunk slot).errorFlag.trans
    (copyIn_transfer.errorFlag.trans ((gather_chunk slot chunk).errorFlag.trans h.flag))
  cpu i := (bring_cells hchunk (fun _ heq => Cell.noConfusion heq) (fun _ heq => Cell.noConfusion heq)
    fun _ heq => Cell.noConfusion heq).trans (h.cpu i)
  gpu b hb := by
    have hcpu : cpuBlock m = cpuBlock m₀ := by
      funext b layer plane vector
      exact h.cpu _
    rw [copyAll_append]
    refine eq_copyAll hchunk.destination_nodup (fun row hrow => ?_) fun hnot => ?_
    · rw [bring_rows hchunk hrow, hcpu]
    · rw [bring_gpuBlock hchunk hb hnot]
      exact h.gpu b hb

/-- Waiting for an event does not change the memory. -/
theorem sequential_waited {rest : List (Instr κ)} :
    sequential
      ((if stagingBufferCount ≤ index then [.synchronize (index % stagingBufferCount)] else []) ++
        rest) m = sequential rest m := by
  split <;> rfl

theorem sequential_swapInLoop (index : ℕ) (h : ArrivedIn cache.numGpuBlocks m₀ moved m)
    (hchunks : ∀ chunk ∈ chunks, Fits cache cache.numCpuBlocks cache.numGpuBlocks chunk) :
    ∃ m', sequential (cache.swapInLoop index (chunks.map (chunkOf Prod.snd)) ++ [checkError]) m =
        .ok m' ∧ ArrivedIn cache.numGpuBlocks m₀ (moved ++ chunks.flatten) m' := by
  induction chunks generalizing index moved m with
  | nil =>
    refine ⟨m, if_pos (decide_eq_true h.flag), ?_⟩
    rw [List.flatten_nil, List.append_nil]
    exact h
  | cons chunk chunks ih =>
    have hchunk := hchunks chunk List.mem_cons_self
    obtain ⟨m', hrun, harrived⟩ := ih (index + 1) (h.bring hchunk (index % stagingBufferCount))
      fun chunk hmem => hchunks chunk (List.mem_cons_of_mem _ hmem)
    refine ⟨m', ?_, ?_⟩
    · rw [List.map_cons, swapInLoop_cons hchunk, List.append_assoc, sequential_waited]
      exact hrun
    · rw [List.flatten_cons, ← List.append_assoc]
      exact harrived

end sequential

/-! ## The swaps -/

section swaps

variable {mapping : List (ℤ × ℤ)} {pairs : List (ℕ × ℕ)}

/-- The chunks of an accepted mapping. -/
def chunkList (cache : BlockMajorCpuKVCache) (pairs : List (ℕ × ℕ)) : List (List (ℕ × ℕ)) :=
  (List.range ((pairs.length + cache.stagingBlocks - 1) / cache.stagingBlocks)).map
    (chunkPairs cache.stagingBlocks pairs)

theorem Valid.sublist {part : List (ℕ × ℕ)} (h : Valid pairs sources destinations)
    (hsub : part.Sublist pairs) : Valid part sources destinations where
  source_lt b hb := h.source_lt b ((hsub.map Prod.fst).subset hb)
  destination_lt b hb := h.destination_lt b ((hsub.map Prod.snd).subset hb)
  source_nodup := h.source_nodup.sublist (hsub.map Prod.fst)
  destination_nodup := h.destination_nodup.sublist (hsub.map Prod.snd)

theorem fits_of_mem_chunkList (h : Valid pairs sources destinations) {chunk : List (ℕ × ℕ)}
    (hchunk : chunk ∈ chunkList cache pairs) : Fits cache sources destinations chunk := by
  obtain ⟨i, hi, rfl⟩ := List.mem_map.mp hchunk
  have hsize := cache.stagingBlocks_pos
  have hlt : i * cache.stagingBlocks < pairs.length := by
    have hle := (Nat.le_div_iff_mul_le hsize).mp (Nat.succ_le_of_lt (List.mem_range.mp hi))
    rw [Nat.succ_mul] at hle
    omega
  have hlen : (chunkPairs cache.stagingBlocks pairs i).length =
      min (i * cache.stagingBlocks + cache.stagingBlocks) pairs.length - i * cache.stagingBlocks := by
    unfold chunkPairs
    rw [List.length_drop, List.length_take, Nat.min_assoc, Nat.min_self]
  refine ⟨h.sublist ((List.drop_sublist _ _).trans (List.take_sublist _ _)), ?_, ?_⟩
  · omega
  · omega

theorem flatten_chunkList (cache : BlockMajorCpuKVCache) (pairs : List (ℕ × ℕ)) :
    (chunkList cache pairs).flatten = pairs :=
  chunkPairs_flatten cache.stagingBlocks_pos pairs

theorem length_ids (pairs : List (ℕ × ℕ)) (f : ℕ × ℕ → ℕ) (h : pairs ≠ []) :
    ¬ (ids (pairs.map f)).length = 0 := by
  rw [length_ids_map]
  exact fun hlen => h (List.length_eq_zero_iff.mp hlen)

/-- The program of `swap_out`. -/
theorem swapOut_eq {result : List ℤ × List ℤ}
    (h : validateBlockMapping mapping cache.numGpuBlocks cache.numCpuBlocks = .ok result)
    (hne : blockPairs mapping ≠ []) :
    cache.swapOut mapping = .ok ((BlockMajorCpuKVCache.start : List (Instr κ)) ++
      cache.swapOutLoop 0 none ((chunkList cache (blockPairs mapping)).map (chunkOf Prod.fst)) ++
      [checkError]) := by
  obtain ⟨hvalid, rfl⟩ := validateBlockMapping_ok h
  have hids : toGpuIds (ids ((blockPairs mapping).map Prod.fst)) =
      ids ((blockPairs mapping).map Prod.fst) :=
    toGpuIds_ids fun b hb => (hvalid.source_lt b hb).trans (numGpuBlocks_lt cache)
  unfold BlockMajorCpuKVCache.swapOut
  rw [h]
  refine (if_neg (length_ids _ _ hne)).trans ?_
  rw [hids, chunks_eq]
  rfl

/-- The program of `swap_in`. -/
theorem swapIn_eq {result : List ℤ × List ℤ}
    (h : validateBlockMapping mapping cache.numCpuBlocks cache.numGpuBlocks = .ok result)
    (hne : blockPairs mapping ≠ []) :
    cache.swapIn mapping = .ok ((BlockMajorCpuKVCache.start : List (Instr κ)) ++
      cache.swapInLoop 0 ((chunkList cache (blockPairs mapping)).map (chunkOf Prod.snd)) ++
      [checkError]) := by
  obtain ⟨hvalid, rfl⟩ := validateBlockMapping_ok h
  have hids : toGpuIds (ids ((blockPairs mapping).map Prod.snd)) =
      ids ((blockPairs mapping).map Prod.snd) :=
    toGpuIds_ids fun b hb => (hvalid.destination_lt b hb).trans (numGpuBlocks_lt cache)
  unfold BlockMajorCpuKVCache.swapIn
  rw [h]
  refine (if_neg (length_ids _ _ hne)).trans ?_
  rw [hids, chunks_eq]
  rfl

theorem swap_nil {result : List ℤ × List ℤ} (hpairs : blockPairs mapping = [])
    (hlimits : validateBlockMapping mapping sources destinations = .ok result) :
    result.1.length = 0 := by
  obtain ⟨-, rfl⟩ := validateBlockMapping_ok hlimits
  rw [hpairs]
  rfl

/-- A program that does nothing. -/
theorem delivers_nil (m : Memory κ) : Delivers ([] : List (Instr κ)) m m :=
  Ordered.delivers rfl rfl

/-- The memory when the loop begins. -/
def cleared (m : Memory κ) : Memory κ := { m with errorFlag := 0 }

/-- The loop of `swap_out`: the first chunk has no pending one before it. -/
theorem swapOutLoop_delivers {chunks : List (List (ℕ × ℕ))}
    (hchunks : ∀ c ∈ chunks, Fits cache cache.numGpuBlocks cache.numCpuBlocks c) :
    ∃ m', Delivers (BlockMajorCpuKVCache.start ++
        cache.swapOutLoop 0 none (chunks.map (chunkOf Prod.fst)) ++ [checkError]) m m' ∧
      ArrivedOut cache.numGpuBlocks m chunks.flatten m' := by
  have hstart : ArrivedOut cache.numGpuBlocks m [] (cleared m) :=
    ⟨rfl, fun _ _ => rfl, fun _ => rfl⟩
  cases chunks with
  | nil =>
    exact ⟨cleared m, Ordered.delivers ⟨List.pairwise_singleton _ _, rfl⟩ rfl, hstart⟩
  | cons chunk chunks =>
    have hchunk := hchunks chunk List.mem_cons_self
    have hrest : ∀ c ∈ chunks, Fits cache cache.numGpuBlocks cache.numCpuBlocks c :=
      fun c hc => hchunks c (List.mem_cons_of_mem _ hc)
    obtain ⟨m', hrun, harrived⟩ := sequential_swapOutLoop 1 (hstart.stage 0 hchunk)
      (hstart.staged 0 hchunk) hchunk hrest (by decide)
    refine ⟨m', ?_, harrived⟩
    rw [List.map_cons, swapOutLoop_cons hchunk]
    refine Ordered.delivers ⟨List.pairwise_singleton _ _, (pack_chunk hchunk).pairwise,
      copyOut_transfer.pairwise, ?_⟩ hrun
    exact ordered_swapOutLoop hchunk hrest (by decide) [_, _, _]

/-- The loop of `swap_in`: no buffer is in use when it begins. -/
theorem swapInLoop_delivers {chunks : List (List (ℕ × ℕ))}
    (hchunks : ∀ c ∈ chunks, Fits cache cache.numCpuBlocks cache.numGpuBlocks c) :
    ∃ m', Delivers (BlockMajorCpuKVCache.start ++
        cache.swapInLoop 0 (chunks.map (chunkOf Prod.snd)) ++ [checkError]) m m' ∧
      ArrivedIn cache.numGpuBlocks m chunks.flatten m' := by
  have hstart : ArrivedIn cache.numGpuBlocks m [] (cleared m) :=
    ⟨rfl, fun _ => rfl, fun _ _ => rfl⟩
  have hfree : BufferFree 0 [.operation [.setFlag 0]] := by
    constructor
    · intro slot _ source p hp item hitem q hq
      obtain ⟨i, rfl⟩ := (gather_transfer _ _).mem hp
      obtain rfl := List.mem_singleton.mp hitem
      obtain rfl := List.mem_singleton.mp hq
      trivial
    · intro hpos
      exact absurd hpos (Nat.lt_irrefl 0)
  obtain ⟨m', hrun, harrived⟩ := sequential_swapInLoop 0 hstart hchunks
  exact ⟨m', Ordered.delivers ⟨List.pairwise_singleton _ _, ordered_swapInLoop hfree hchunks⟩ hrun,
    harrived⟩

/-- Every pair is copied, and what is no destination is left as it was. -/
structure IsCopy (pairs : List (ℕ × ℕ)) (limit : ℕ) (source old new : ℕ → Block κ) : Prop where
  copied : ∀ p ∈ pairs, new p.2 = source p.1
  kept : ∀ b < limit, b ∉ pairs.map Prod.snd → new b = old b

theorem isCopy_of_eq {limit : ℕ} {source old new : ℕ → Block κ}
    (hvalid : Valid pairs sources limit) (h : ∀ b < limit, new b = copyAll pairs source old b) :
    IsCopy pairs limit source old new where
  copied p hp := by
    have hdestination := List.mem_map_of_mem (f := Prod.snd) hp
    rw [h p.2 (hvalid.destination_lt _ hdestination)]
    exact copyAll_of_mem hvalid.destination_nodup hp
  kept b hb hnot := by
    rw [h b hb]
    exact copyAll_of_notMem hnot

theorem swapOut_delivers {result : List ℤ × List ℤ} (m : Memory κ)
    (h : validateBlockMapping mapping cache.numGpuBlocks cache.numCpuBlocks = .ok result) :
    ∃ program m', cache.swapOut mapping = .ok program ∧ Delivers program m m' ∧
      (∀ b, cpuBlock m' b =
        copyAll (blockPairs mapping) (gpuBlock cache.numGpuBlocks m) (cpuBlock m) b) ∧
      ∀ b, gpuBlock cache.numGpuBlocks m' b = gpuBlock cache.numGpuBlocks m b := by
  cases hpairs : blockPairs mapping with
  | nil =>
    refine ⟨[], m, ?_, delivers_nil m, fun _ => rfl, fun _ => rfl⟩
    unfold BlockMajorCpuKVCache.swapOut
    rw [h]
    exact if_pos (swap_nil hpairs h)
  | cons pair pairs =>
    obtain ⟨m', hdelivers, harrived⟩ := swapOutLoop_delivers (m := m) fun chunk hchunk =>
      fits_of_mem_chunkList (validateBlockMapping_ok h).1 hchunk
    rw [flatten_chunkList, hpairs] at harrived
    refine ⟨_, m', swapOut_eq h (hpairs ▸ List.cons_ne_nil _ _), hdelivers, harrived.cpu, ?_⟩
    intro b
    funext layer plane vector
    exact harrived.gpu layer _

theorem swapIn_delivers {result : List ℤ × List ℤ} (m : Memory κ)
    (h : validateBlockMapping mapping cache.numCpuBlocks cache.numGpuBlocks = .ok result) :
    ∃ program m', cache.swapIn mapping = .ok program ∧ Delivers program m m' ∧
      (∀ b < cache.numGpuBlocks, gpuBlock cache.numGpuBlocks m' b =
        copyAll (blockPairs mapping) (cpuBlock m) (gpuBlock cache.numGpuBlocks m) b) ∧
      ∀ b, cpuBlock m' b = cpuBlock m b := by
  cases hpairs : blockPairs mapping with
  | nil =>
    refine ⟨[], m, ?_, delivers_nil m, fun _ _ => rfl, fun _ => rfl⟩
    unfold BlockMajorCpuKVCache.swapIn
    rw [h]
    exact if_pos (swap_nil hpairs h)
  | cons pair pairs =>
    obtain ⟨m', hdelivers, harrived⟩ := swapInLoop_delivers (m := m) fun chunk hchunk =>
      fits_of_mem_chunkList (validateBlockMapping_ok h).1 hchunk
    rw [flatten_chunkList, hpairs] at harrived
    refine ⟨_, m', swapIn_eq h (hpairs ▸ List.cons_ne_nil _ _), hdelivers, harrived.gpu, ?_⟩
    intro b
    funext layer plane vector
    exact harrived.cpu _

/-- The blocks that there are, as the workers of the CPU KV cache see them. -/
def contents (cache : BlockMajorCpuKVCache) (m : Memory κ) :
    CpuKvContentCache.Memory (Option (Block κ)) where
  gpu b := if b < cache.numGpuBlocks then some (gpuBlock cache.numGpuBlocks m b) else none
  cpu b := if b < cache.numCpuBlocks then some (cpuBlock m b) else none

/-- A copy of blocks that there are. -/
theorem copyAll_some {limit : ℕ} {source old new : ℕ → Block κ}
    (hvalid : Valid pairs sources limit) (h : ∀ b < limit, new b = copyAll pairs source old b) (b : ℕ) :
    (if b < limit then some (new b) else none) =
      copyAll pairs (fun b => if b < sources then some (source b) else none)
        (fun b => if b < limit then some (old b) else none) b := by
  by_cases hmem : b ∈ pairs.map Prod.snd
  · obtain ⟨p, hp, rfl⟩ := List.mem_map.mp hmem
    have hlt := hvalid.destination_lt _ hmem
    rw [copyAll_of_mem hvalid.destination_nodup hp, if_pos hlt,
      if_pos (hvalid.source_lt _ (List.mem_map_of_mem hp)), h _ hlt,
      copyAll_of_mem hvalid.destination_nodup hp]
  · rw [copyAll_of_notMem hmem]
    split
    · next hlt => rw [h b hlt, copyAll_of_notMem hmem]
    · rfl

/-- For the workers, `swap_out` is the copy of the pairs. -/
theorem swapOut_refines {result : List ℤ × List ℤ} (m : Memory κ)
    (h : validateBlockMapping mapping cache.numGpuBlocks cache.numCpuBlocks = .ok result) :
    ∃ program m', cache.swapOut mapping = .ok program ∧ Delivers program m m' ∧
      contents cache m' = CpuKvContentCache.swapOut (blockPairs mapping) (contents cache m) := by
  obtain ⟨program, m', hprogram, hdelivers, hcpu, hgpu⟩ := swapOut_delivers m h
  refine ⟨program, m', hprogram, hdelivers, ?_⟩
  unfold contents CpuKvContentCache.swapOut
  congr
  · funext b
    rw [hgpu b]
  · funext b
    exact copyAll_some (validateBlockMapping_ok h).1 (fun b _ => hcpu b) b

theorem swapIn_refines {result : List ℤ × List ℤ} (m : Memory κ)
    (h : validateBlockMapping mapping cache.numCpuBlocks cache.numGpuBlocks = .ok result) :
    ∃ program m', cache.swapIn mapping = .ok program ∧ Delivers program m m' ∧
      contents cache m' = CpuKvContentCache.swapIn (blockPairs mapping) (contents cache m) := by
  obtain ⟨program, m', hprogram, hdelivers, hgpu, hcpu⟩ := swapIn_delivers m h
  refine ⟨program, m', hprogram, hdelivers, ?_⟩
  unfold contents CpuKvContentCache.swapIn
  congr
  · funext b
    exact copyAll_some (validateBlockMapping_ok h).1 hgpu b
  · funext b
    rw [hcpu b]

/-- In every execution of an accepted swap, no piece of the host meets one that is in flight, and the
execution ends: with the destination blocks holding what the source blocks held before the call, and
all other blocks as they were. -/
theorem swap_delivers (cache : BlockMajorCpuKVCache) (mapping : List (ℤ × ℤ)) (m : Memory κ) :
    (∀ result, validateBlockMapping mapping cache.numGpuBlocks cache.numCpuBlocks = .ok result →
      ∃ program m', cache.swapOut mapping = .ok program ∧ Delivers program m m' ∧
        IsCopy (blockPairs mapping) cache.numCpuBlocks (gpuBlock cache.numGpuBlocks m) (cpuBlock m)
          (cpuBlock m') ∧
        ∀ b < cache.numGpuBlocks,
          gpuBlock cache.numGpuBlocks m' b = gpuBlock cache.numGpuBlocks m b) ∧
    ∀ result, validateBlockMapping mapping cache.numCpuBlocks cache.numGpuBlocks = .ok result →
      ∃ program m', cache.swapIn mapping = .ok program ∧ Delivers program m m' ∧
        IsCopy (blockPairs mapping) cache.numGpuBlocks (cpuBlock m) (gpuBlock cache.numGpuBlocks m)
          (gpuBlock cache.numGpuBlocks m') ∧
        ∀ b < cache.numCpuBlocks, cpuBlock m' b = cpuBlock m b := by
  constructor
  · intro result h
    obtain ⟨program, m', hprogram, hdelivers, hcpu, hgpu⟩ := swapOut_delivers m h
    exact ⟨program, m', hprogram, hdelivers,
      isCopy_of_eq (validateBlockMapping_ok h).1 fun b _ => hcpu b, fun b _ => hgpu b⟩
  · intro result h
    obtain ⟨program, m', hprogram, hdelivers, hgpu, hcpu⟩ := swapIn_delivers m h
    exact ⟨program, m', hprogram, hdelivers, isCopy_of_eq (validateBlockMapping_ok h).1 hgpu,
      fun b _ => hcpu b⟩

/-- A cache of three blocks on either side, with staging buffers of one block. -/
def threeBlocks : BlockMajorCpuKVCache := ⟨3, 3, 1, by decide, Nat.one_pos, by decide⟩

/-- Three chunks each way, so that the first staging buffer is used twice: blocks 0, 2 and 1 move to 1,
0 and 2. -/
theorem swap_delivers_threeBlocks :
    (∃ program m', threeBlocks.swapOut [(0, 1), (2, 0), (1, 2)] = .ok program ∧
      Delivers program (⟨id, 0⟩ : Memory Cell) m' ∧ cpuBlock m' 1 = gpuBlock 3 ⟨id, 0⟩ 0) ∧
    ∃ program m', threeBlocks.swapIn [(0, 1), (2, 0), (1, 2)] = .ok program ∧
      Delivers program (⟨id, 0⟩ : Memory Cell) m' ∧ gpuBlock 3 m' 2 = cpuBlock ⟨id, 0⟩ 1 := by
  have hswaps := swap_delivers threeBlocks [(0, 1), (2, 0), (1, 2)] (⟨id, 0⟩ : Memory Cell)
  obtain ⟨program, m', hprogram, hdelivers, hcopy, -⟩ := hswaps.1 _ rfl
  obtain ⟨program', m'', hprogram', hdelivers', hcopy', -⟩ := hswaps.2 _ rfl
  exact ⟨⟨program, m', hprogram, hdelivers, hcopy.copied (0, 1) (by decide)⟩,
    ⟨program', m'', hprogram', hdelivers', hcopy'.copied (1, 2) (by decide)⟩⟩

end swaps

end Ikun.BlockMajor
