import Ikun.CpuKv.BlockMajorRows

/-!
# The programs of the swaps

`validate_block_mapping` accepts mappings of distinct blocks in range. For such a mapping, cut into
chunks, no call of the extension raises, and the program that `swap_out` or `swap_in` hands to the host
and the stream passes the check of `DeviceStream` (`ordered_swapOutLoop`, `ordered_swapInLoop`):
whatever the host does to a staging buffer, an event has completed every copy that touches it.
-/

namespace Ikun.BlockMajor

open DeviceStream Independence Except

variable {κ : Type} {cache : BlockMajorCpuKVCache} {sources destinations : ℕ}

/-! ## The mapping -/

/-- A mapping as pairs of block ids. -/
def blockPairs (mapping : List (ℤ × ℤ)) : List (ℕ × ℕ) :=
  mapping.map fun p => (p.1.toNat, p.2.toNat)

/-- What `validate_block_mapping` accepts. -/
structure Valid (pairs : List (ℕ × ℕ)) (sources destinations : ℕ) : Prop where
  source_lt : ∀ b ∈ pairs.map Prod.fst, b < sources
  destination_lt : ∀ b ∈ pairs.map Prod.snd, b < destinations
  source_nodup : (pairs.map Prod.fst).Nodup
  destination_nodup : (pairs.map Prod.snd).Nodup

section mapping

variable {sourceLimit destinationLimit row : ℕ} {seenSources seenDestinations : List ℤ}
  {mapping : List (ℤ × ℤ)}

/-- Every row is in range and new, to the rows before it and to what has been seen. -/
theorem validateRows_ok
    (h : validateRows sourceLimit destinationLimit row seenSources seenDestinations mapping = .ok ()) :
    (∃ pairs : List (ℕ × ℕ), mapping = pairs.map (fun p => ((p.1 : ℤ), (p.2 : ℤ))) ∧
      Valid pairs sourceLimit destinationLimit) ∧
      ∀ p ∈ mapping, p.1 ∉ seenSources ∧ p.2 ∉ seenDestinations := by
  induction mapping generalizing row seenSources seenDestinations with
  | nil =>
    refine ⟨⟨[], rfl, ?_⟩, fun p hp => absurd hp List.not_mem_nil⟩
    exact ⟨fun b hb => absurd hb List.not_mem_nil, fun b hb => absurd hb List.not_mem_nil,
      List.nodup_nil, List.nodup_nil⟩
  | cons first mapping ih =>
    obtain ⟨source, destination⟩ := first
    obtain ⟨_, hsource, h⟩ := bind_eq_ok.mp h
    obtain ⟨_, hdestination, h⟩ := bind_eq_ok.mp h
    obtain ⟨_, hnewSource, h⟩ := bind_eq_ok.mp h
    obtain ⟨_, hnewDestination, h⟩ := bind_eq_ok.mp h
    have hsource := not_not.mp (raiseIf_eq_ok.mp hsource)
    have hdestination := not_not.mp (raiseIf_eq_ok.mp hdestination)
    obtain ⟨⟨pairs, rfl, hvalid⟩, hnew⟩ := ih h
    obtain ⟨s, rfl⟩ := Int.eq_ofNat_of_zero_le hsource.1
    obtain ⟨d, rfl⟩ := Int.eq_ofNat_of_zero_le hdestination.1
    have hout : ∀ p ∈ pairs, p.1 ≠ s ∧ p.2 ≠ d := by
      intro p hp
      obtain ⟨hs, hd⟩ := hnew _ (List.mem_map_of_mem hp)
      constructor
      · intro heq
        exact hs (heq ▸ List.mem_cons_self)
      · intro heq
        exact hd (heq ▸ List.mem_cons_self)
    refine ⟨⟨(s, d) :: pairs, rfl, ?_⟩, ?_⟩
    · constructor
      · exact List.forall_mem_cons.mpr ⟨Int.ofNat_lt.mp hsource.2, hvalid.source_lt⟩
      · exact List.forall_mem_cons.mpr ⟨Int.ofNat_lt.mp hdestination.2, hvalid.destination_lt⟩
      · refine List.nodup_cons.mpr ⟨fun hmem => ?_, hvalid.source_nodup⟩
        obtain ⟨p, hp, heq⟩ := List.mem_map.mp hmem
        exact (hout p hp).1 heq
      · refine List.nodup_cons.mpr ⟨fun hmem => ?_, hvalid.destination_nodup⟩
        obtain ⟨p, hp, heq⟩ := List.mem_map.mp hmem
        exact (hout p hp).2 heq
    · intro p hp
      cases List.mem_cons.mp hp with
      | inl heq =>
        subst heq
        exact ⟨raiseIf_eq_ok.mp hnewSource, raiseIf_eq_ok.mp hnewDestination⟩
      | inr hp =>
        obtain ⟨hs, hd⟩ := hnew p hp
        exact ⟨fun hmem => hs (List.mem_cons_of_mem _ hmem),
          fun hmem => hd (List.mem_cons_of_mem _ hmem)⟩

/-- The two columns of a mapping that is accepted. -/
theorem validateBlockMapping_ok {result : List ℤ × List ℤ}
    (h : validateBlockMapping mapping sourceLimit destinationLimit = .ok result) :
    Valid (blockPairs mapping) sourceLimit destinationLimit ∧
      result = (ids ((blockPairs mapping).map Prod.fst), ids ((blockPairs mapping).map Prod.snd)) := by
  obtain ⟨_, -, h⟩ := bind_eq_ok.mp h
  obtain ⟨_, hrows, h⟩ := bind_eq_ok.mp h
  obtain ⟨⟨pairs, rfl, hvalid⟩, -⟩ := validateRows_ok hrows
  have hpairs : blockPairs (pairs.map fun p => ((p.1 : ℤ), (p.2 : ℤ))) = pairs := by
    unfold blockPairs
    rw [List.map_map]
    exact List.map_id pairs
  rw [hpairs]
  refine ⟨hvalid, (Except.ok.inj h).symm.trans ?_⟩
  unfold ids
  rw [List.map_map, List.map_map, List.map_map, List.map_map]
  rfl

end mapping

/-! ## The chunks -/

/-- The pairs of chunk `i`. -/
def chunkPairs (size : ℕ) (pairs : List (ℕ × ℕ)) (i : ℕ) : List (ℕ × ℕ) :=
  (pairs.take (min (i * size + size) pairs.length)).drop (i * size)

/-- A chunk, where `gpu` is the side of its pairs that is on the GPU. -/
def chunkOf (gpu : ℕ × ℕ → ℕ) (pairs : List (ℕ × ℕ)) : Chunk where
  source := ids (pairs.map Prod.fst)
  destination := ids (pairs.map Prod.snd)
  gpuIds := ids (pairs.map gpu)
  count := pairs.length

theorem toGpuIds_ids {blocks : List ℕ} (h : ∀ b ∈ blocks, b < 2 ^ 31) :
    toGpuIds (ids blocks) = ids blocks := by
  unfold toGpuIds ids
  rw [List.map_map]
  refine List.map_congr_left fun b hb => ?_
  rw [Function.comp_apply]
  exact toInt32_eq (h b hb)

theorem chunks_eq (size : ℕ) (pairs : List (ℕ × ℕ)) (gpu : ℕ × ℕ → ℕ) :
    chunks size (ids (pairs.map Prod.fst)) (ids (pairs.map Prod.snd)) (ids (pairs.map gpu)) =
      ((List.range ((pairs.length + size - 1) / size)).map (chunkPairs size pairs)).map
        (chunkOf gpu) := by
  unfold chunks chunkPairs chunkOf ids
  simp only [List.map_map, List.length_map]
  refine List.map_congr_left fun i _ => ?_
  simp only [Function.comp_apply, List.map_drop, List.map_take, List.length_drop, List.length_take,
    Nat.min_assoc, Nat.min_self]

/-- The chunks of a mapping, one after the other. -/
theorem chunkPairs_flatten {size : ℕ} (hsize : 0 < size) (pairs : List (ℕ × ℕ)) :
    ((List.range ((pairs.length + size - 1) / size)).map (chunkPairs size pairs)).flatten = pairs := by
  have hchunk : ∀ i, chunkPairs size pairs i = (pairs.drop (i * size)).take size := by
    intro i
    unfold chunkPairs
    rw [List.drop_take, ← Nat.sub_min_sub_right, Nat.add_sub_cancel_left, ← List.length_drop,
      ← List.take_eq_take_min]
  have hfront : ∀ k, ((List.range k).map (chunkPairs size pairs)).flatten = pairs.take (k * size) := by
    intro k
    induction k with
    | zero => rw [Nat.zero_mul]; rfl
    | succ k ih =>
      rw [List.range_succ, List.map_append, List.flatten_append, ih, Nat.succ_mul, List.take_add]
      congr 1
      exact (List.append_nil _).trans (hchunk k)
  rw [hfront]
  refine List.take_of_length_le ?_
  have hlt := Nat.lt_div_mul_add (a := pairs.length + size - 1) hsize
  omega

/-! ## The instructions of a chunk -/

theorem numGpuBlocks_lt (cache : BlockMajorCpuKVCache) : cache.numGpuBlocks < 2 ^ 31 := by
  have haddressable := cache.addressable
  have hbytes : bytesPerBlock = 163840 := rfl
  rw [hbytes] at haddressable
  omega

/-- A chunk that a staging buffer has room for. -/
structure Fits (cache : BlockMajorCpuKVCache) (sources destinations : ℕ) (chunk : List (ℕ × ℕ)) : Prop
    extends Valid chunk sources destinations where
  pos : 0 < chunk.length
  le : chunk.length ≤ cache.stagingBlocks

section checks

variable {chunk : List (ℕ × ℕ)} {f : ℕ × ℕ → ℕ}

theorem length_ids_map (f : ℕ × ℕ → ℕ) (chunk : List (ℕ × ℕ)) :
    (ids (chunk.map f)).length = chunk.length :=
  (List.length_map _).trans (List.length_map _)

theorem checkGpuTransferArgs_eq (h : Fits cache sources destinations chunk) :
    cache.checkGpuTransferArgs (ids (chunk.map f)) chunk.length = none := by
  unfold BlockMajorCpuKVCache.checkGpuTransferArgs
  rw [length_ids_map, if_neg (not_not.mpr ⟨h.pos, Nat.le_refl _⟩), if_neg (not_not.mpr h.le)]

theorem checkCpuTransferArgs_eq (h : Fits cache sources destinations chunk)
    (hblocks : ∀ b ∈ chunk.map f, b < cache.numCpuBlocks) :
    cache.checkCpuTransferArgs (ids (chunk.map f)) chunk.length = none := by
  have hfind : ((ids (chunk.map f)).take chunk.length).findIdx?
      (fun (id : ℤ) => !(0 ≤ id ∧ id < cache.numCpuBlocks)) = none := by
    rw [List.findIdx?_eq_none_iff]
    intro id hid
    obtain ⟨b, hb, rfl⟩ := List.mem_map.mp (List.mem_of_mem_take hid)
    have hrange : 0 ≤ (b : ℤ) ∧ (b : ℤ) < cache.numCpuBlocks :=
      ⟨Int.natCast_nonneg b, Int.ofNat_lt.mpr (hblocks b hb)⟩
    rw [decide_eq_true hrange]
    rfl
  unfold BlockMajorCpuKVCache.checkCpuTransferArgs
  rw [length_ids_map, if_neg (not_not.mpr h.le), if_neg (not_not.mpr ⟨h.pos, Nat.le_refl _⟩), hfind]

theorem pack_eq (h : Fits cache sources destinations chunk) (slot : ℕ) :
    cache.pack (ids (chunk.map f)) slot chunk.length =
      [(.launch (packOp cache.numGpuBlocks slot (chunk.map f)) : Instr κ)] := by
  unfold BlockMajorCpuKVCache.pack packOp
  rw [checkGpuTransferArgs_eq h, List.length_map]
  rfl

theorem scatter_eq (h : Fits cache sources destinations chunk) (slot : ℕ) :
    cache.scatter slot (ids (chunk.map f)) chunk.length =
      [(.launch (scatterOp cache.numGpuBlocks slot (chunk.map f)) : Instr κ)] := by
  unfold BlockMajorCpuKVCache.scatter scatterOp
  rw [checkGpuTransferArgs_eq h, List.length_map]
  rfl

theorem cpuGather_eq (h : Fits cache sources destinations chunk) (slot : ℕ)
    (hblocks : ∀ b ∈ chunk.map f, b < cache.numCpuBlocks) :
    cache.cpuGather (ids (chunk.map f)) slot chunk.length =
      [(.run (gatherOp slot (chunk.map f)) : Instr κ)] := by
  unfold BlockMajorCpuKVCache.cpuGather gatherOp
  rw [checkCpuTransferArgs_eq h hblocks, List.length_map]
  rfl

theorem cpuScatter_eq (h : Fits cache sources destinations chunk) (slot : ℕ)
    (hblocks : ∀ b ∈ chunk.map f, b < cache.numCpuBlocks) :
    cache.cpuScatter slot (ids (chunk.map f)) chunk.length =
      [(.run (cpuScatterOp slot (chunk.map f)) : Instr κ)] := by
  unfold BlockMajorCpuKVCache.cpuScatter cpuScatterOp
  rw [checkCpuTransferArgs_eq h hblocks, List.length_map]
  rfl

end checks

section loops

variable {index slot : ℕ} {chunk : List (ℕ × ℕ)} {rest : List Chunk}

/-- A chunk whose copy to the CPU is under way. -/
def pendingOf (slot : ℕ) (chunk : List (ℕ × ℕ)) : BlockMajorCpuKVCache.Pending :=
  ⟨slot, ids (chunk.map Prod.snd), chunk.length⟩

theorem drainPending_eq (h : Fits cache sources cache.numCpuBlocks chunk) :
    cache.drainPending (some (pendingOf slot chunk)) =
      [.synchronize slot, (.run (cpuScatterOp slot (chunk.map Prod.snd)) : Instr κ)] := by
  show .synchronize slot :: cache.cpuScatter slot (ids (chunk.map Prod.snd)) chunk.length = _
  rw [cpuScatter_eq h slot h.destination_lt]

theorem swapOutLoop_cons (h : Fits cache cache.numGpuBlocks cache.numCpuBlocks chunk)
    (pending : Option BlockMajorCpuKVCache.Pending) :
    cache.swapOutLoop index pending (chunkOf Prod.fst chunk :: rest) =
      (.launch (packOp cache.numGpuBlocks (index % stagingBufferCount) (chunk.map Prod.fst)) :
        Instr κ) ::
      .launch (copyOp .gpuStaging .cpuStaging (index % stagingBufferCount) chunk.length) ::
      .record (index % stagingBufferCount) ::
      (cache.drainPending pending ++
        cache.swapOutLoop (index + 1) (some (pendingOf (index % stagingBufferCount) chunk)) rest) := by
  rw [BlockMajorCpuKVCache.swapOutLoop]
  show cache.pack (ids (chunk.map Prod.fst)) _ chunk.length ++ _ ++ _ ++ _ = _
  rw [pack_eq h]
  rfl

theorem swapInLoop_cons (h : Fits cache cache.numCpuBlocks cache.numGpuBlocks chunk) :
    cache.swapInLoop index (chunkOf Prod.snd chunk :: rest) =
      (if stagingBufferCount ≤ index then [.synchronize (index % stagingBufferCount)] else []) ++
      (.run (gatherOp (index % stagingBufferCount) (chunk.map Prod.fst)) : Instr κ) ::
      .launch (copyOp .cpuStaging .gpuStaging (index % stagingBufferCount) chunk.length) ::
      .launch (scatterOp cache.numGpuBlocks (index % stagingBufferCount) (chunk.map Prod.snd)) ::
      .record (index % stagingBufferCount) ::
      cache.swapInLoop (index + 1) rest := by
  rw [BlockMajorCpuKVCache.swapInLoop]
  show _ ++ cache.cpuGather (ids (chunk.map Prod.fst)) _ chunk.length ++ _ ++
    cache.scatter _ (ids (chunk.map Prod.snd)) chunk.length ++ _ ++ _ = _
  rw [cpuGather_eq h _ h.source_lt, scatter_eq h]
  simp only [List.append_assoc]
  rfl

end loops

/-! ## Nothing in flight is touched -/

section Ordered

variable {index slot slot' count count' : ℕ} {chunk : List (ℕ × ℕ)} {chunks : List (List (ℕ × ℕ))}
  {op op' : List Piece} {src dst src' dst' : ℕ → Cell}

theorem slot_ne (index : ℕ) : index % stagingBufferCount ≠ (index + 1) % stagingBufferCount := by
  unfold stagingBufferCount
  omega

/-- Transfers between different buffers are independent. -/
theorem Transfer.independent (h : Transfer op count src dst) (h' : Transfer op' count' src' dst')
    (hcells : ∀ i j, dst i ≠ dst' j ∧ dst i ≠ src' j ∧ src i ≠ dst' j) :
    ∀ p ∈ op, ∀ q ∈ op', Independent p q := by
  intro p hp q hq
  obtain ⟨i, rfl⟩ := h.mem hp
  obtain ⟨j, rfl⟩ := h'.mem hq
  exact hcells i j

/-- No piece of `op` conflicts with what is on the stream. -/
def ClearOf (op : List Piece) (stream : List (Item Piece ℕ)) : Prop :=
  ∀ p ∈ op, ∀ item ∈ stream, ∀ q ∈ item.pieces, Independent p q

theorem clearOf_append {stream stream' : List (Item Piece ℕ)} (h : ClearOf op stream)
    (h' : ClearOf op stream') : ClearOf op (stream ++ stream') := by
  intro p hp item hitem
  cases List.mem_append.mp hitem with
  | inl hitem => exact h p hp item hitem
  | inr hitem => exact h' p hp item hitem

theorem clearOf_pair (slot : ℕ) {first second : List Piece}
    (hfirst : ∀ p ∈ op, ∀ q ∈ first, Independent p q)
    (hsecond : ∀ p ∈ op, ∀ q ∈ second, Independent p q) :
    ClearOf op [.operation first, .operation second, .event slot] := by
  intro p hp
  refine List.forall_mem_cons.mpr ⟨hfirst p hp, List.forall_mem_cons.mpr ⟨hsecond p hp, ?_⟩⟩
  exact List.forall_mem_cons.mpr ⟨fun q hq => absurd hq List.not_mem_nil,
    fun item hitem => absurd hitem List.not_mem_nil⟩

theorem event_notMem_pair {first second : List Piece} (h : slot ≠ slot') :
    (.event slot : Item Piece ℕ) ∉ [.operation first, .operation second, .event slot'] := by
  intro hmem
  simp only [List.mem_cons, List.not_mem_nil, or_false] at hmem
  rcases hmem with heq | heq | heq
  · exact absurd heq (by simp)
  · exact absurd heq (by simp)
  · exact h (Item.event.inj heq)

/-- The host scatters one CPU buffer while the stream packs and copies into the other. -/
theorem cpuScatter_clear {n : ℕ} {blocks : List ℕ} (hn : n < 2 ^ 31) (hblocks : ∀ b ∈ blocks, b < n)
    (hpos : 0 < blocks.length) {destination : List ℕ} (hnodup : destination.Nodup)
    (hne : slot ≠ slot') :
    ClearOf (cpuScatterOp slot destination)
      [.operation (packOp n slot' blocks), .operation (copyOp .gpuStaging .cpuStaging slot' count),
        .event slot'] := by
  refine clearOf_pair slot' ?_ ?_
  · refine (cpuScatter_transfer _ hnodup).independent (pack_transfer _ hn hblocks hpos) fun i j => ?_
    exact ⟨fun heq => Cell.noConfusion heq, fun heq => Cell.noConfusion heq,
      fun heq => Cell.noConfusion heq⟩
  · refine (cpuScatter_transfer _ hnodup).independent copyOut_transfer fun i j => ?_
    exact ⟨fun heq => Cell.noConfusion heq, fun heq => Cell.noConfusion heq,
      fun heq => hne (Cell.cpuStaging.inj heq).1⟩

theorem ordered_swapOutLoop (hchunk : Fits cache cache.numGpuBlocks cache.numCpuBlocks chunk)
    (hchunks : ∀ chunk ∈ chunks, Fits cache cache.numGpuBlocks cache.numCpuBlocks chunk)
    (hslot : slot ≠ index % stagingBufferCount) (front : List (Item Piece ℕ)) :
    Ordered (front ++ [.event slot])
      ((cache.swapOutLoop index (some (pendingOf slot chunk)) (chunks.map (chunkOf Prod.fst)) :
        List (Instr κ)) ++ [checkError]) := by
  have hscatter := cpuScatter_transfer slot hchunk.destination_nodup
  induction chunks generalizing index slot chunk front with
  | nil =>
    rw [List.map_nil, BlockMajorCpuKVCache.swapOutLoop, drainPending_eq hchunk]
    show Ordered (after slot (front ++ [.event slot])) _
    rw [after_append List.not_mem_nil]
    exact ⟨hscatter.pairwise, fun p _ item hitem => absurd hitem List.not_mem_nil, rfl⟩
  | cons next chunks ih =>
    have hnext := hchunks next List.mem_cons_self
    have hrest : ∀ chunk ∈ chunks, Fits cache cache.numGpuBlocks cache.numCpuBlocks chunk :=
      fun chunk hmem => hchunks chunk (List.mem_cons_of_mem _ hmem)
    have hpos : 0 < (next.map Prod.fst).length := by
      rw [List.length_map]
      exact hnext.pos
    rw [List.map_cons, swapOutLoop_cons hnext, drainPending_eq hchunk]
    refine ⟨(pack_transfer _ (numGpuBlocks_lt cache) hnext.source_lt hpos).pairwise,
      copyOut_transfer.pairwise, ?_⟩
    show Ordered (after slot (((front ++ [.event slot] ++ [_]) ++ [_]) ++ [_])) _
    rw [List.append_assoc, List.append_assoc, List.append_assoc]
    show Ordered (after slot (front ++ .event slot :: [_, _, _])) _
    rw [after_append (event_notMem_pair hslot)]
    refine ⟨hscatter.pairwise, cpuScatter_clear (numGpuBlocks_lt cache) hnext.source_lt hpos
      hchunk.destination_nodup hslot, ?_⟩
    exact ih hnext hrest (slot_ne index) [_, _] (cpuScatter_transfer _ hnext.destination_nodup)

/-- The host gathers into one CPU buffer while the stream copies from the other and scatters. -/
theorem gather_clear {n : ℕ} {blocks : List ℕ} (hn : n < 2 ^ 31) (hblocks : ∀ b ∈ blocks, b < n)
    (hpos : 0 < blocks.length) (hnodup : blocks.Nodup) (hne : slot ≠ slot') (source : List ℕ) :
    ClearOf (gatherOp slot source)
      [.operation (copyOp .cpuStaging .gpuStaging slot' count), .operation (scatterOp n slot' blocks),
        .event slot'] := by
  refine clearOf_pair slot' ?_ ?_
  · refine (gather_transfer _ _).independent copyIn_transfer fun i j => ?_
    exact ⟨fun heq => Cell.noConfusion heq, fun heq => hne (Cell.cpuStaging.inj heq).1,
      fun heq => Cell.noConfusion heq⟩
  · refine (gather_transfer _ _).independent (scatter_transfer _ hn hblocks hpos hnodup) fun i j => ?_
    exact ⟨fun heq => Cell.noConfusion heq, fun heq => Cell.noConfusion heq,
      fun heq => Cell.noConfusion heq⟩

/-- What may be in flight when chunk `index` of `swap_in` is gathered. -/
def waited (index : ℕ) (launched : List (Item Piece ℕ)) : List (Item Piece ℕ) :=
  if stagingBufferCount ≤ index then after (index % stagingBufferCount) launched else launched

/-- The check goes on from there. -/
theorem ordered_waited {launched : List (Item Piece ℕ)} {rest : List (Instr κ)}
    (h : Ordered (waited index launched) rest) :
    Ordered launched
      ((if stagingBufferCount ≤ index then [.synchronize (index % stagingBufferCount)] else []) ++
        rest) := by
  unfold waited at h
  split at h
  · next hle =>
    rw [if_pos hle]
    exact h
  · next hlt =>
    rw [if_neg hlt]
    exact h

/-- The invariant of the loop of `swap_in`: the buffer of the next chunk is free as soon as the host has
waited for its event, and the chunk before it was the last to be launched. -/
structure BufferFree (index : ℕ) (launched : List (Item Piece ℕ)) : Prop where
  clear : ∀ slot, index = 0 ∨ slot = index % stagingBufferCount → ∀ source,
    ClearOf (gatherOp slot source) (waited index launched)
  last : 0 < index → ∃ front, waited index launched =
    front ++ [.event ((index + 1) % stagingBufferCount)]

/-- What one round of the loop keeps. -/
theorem BufferFree.next {launched : List (Item Piece ℕ)} (h : BufferFree index launched)
    (hchunk : Fits cache cache.numCpuBlocks cache.numGpuBlocks chunk) :
    BufferFree (index + 1) (waited index launched ++
      [.operation (copyOp .cpuStaging .gpuStaging (index % stagingBufferCount) chunk.length),
        .operation (scatterOp cache.numGpuBlocks (index % stagingBufferCount) (chunk.map Prod.snd)),
        .event (index % stagingBufferCount)]) := by
  have hpos : 0 < (chunk.map Prod.snd).length := by
    rw [List.length_map]
    exact hchunk.pos
  have hslot : (index + 1 + 1) % stagingBufferCount = index % stagingBufferCount :=
    Nat.add_mod_right index 2
  have hround : ∀ source, ClearOf (gatherOp ((index + 1) % stagingBufferCount) source)
      [.operation (copyOp .cpuStaging .gpuStaging (index % stagingBufferCount) chunk.length),
        .operation (scatterOp cache.numGpuBlocks (index % stagingBufferCount) (chunk.map Prod.snd)),
        .event (index % stagingBufferCount)] :=
    gather_clear (numGpuBlocks_lt cache) hchunk.destination_lt hpos hchunk.destination_nodup
      (slot_ne index).symm
  cases index with
  | zero =>
    have hfirst : ∀ launched, waited (0 + 1) launched = launched := fun _ => rfl
    constructor
    · intro slot hor source
      obtain rfl := hor.resolve_left (Nat.succ_ne_zero 0)
      rw [hfirst]
      exact clearOf_append (h.clear _ (.inl rfl) source) (hround source)
    · intro _
      rw [hfirst, hslot]
      exact ⟨_ ++ [_, _], (List.append_assoc _ [_, _] [_]).symm⟩
  | succ index =>
    obtain ⟨front, hfront⟩ := h.last (Nat.succ_pos index)
    have hwaited : ∀ first second : List Piece,
        waited (index + 1 + 1) (waited (index + 1) launched ++
          [.operation first, .operation second, .event ((index + 1) % stagingBufferCount)]) =
          [.operation first, .operation second, .event ((index + 1) % stagingBufferCount)] := by
      intro first second
      have hle : stagingBufferCount ≤ index + 1 + 1 := Nat.le_add_left 2 index
      rw [hfront, List.append_assoc, waited, if_pos hle]
      exact after_append (event_notMem_pair (slot_ne (index + 1)).symm)
    constructor
    · intro slot hor source
      obtain rfl := hor.resolve_left (Nat.succ_ne_zero _)
      rw [hwaited]
      exact hround source
    · intro _
      rw [hwaited, hslot]
      exact ⟨[_, _], rfl⟩

theorem ordered_swapInLoop {launched : List (Item Piece ℕ)} (h : BufferFree index launched)
    (hchunks : ∀ chunk ∈ chunks, Fits cache cache.numCpuBlocks cache.numGpuBlocks chunk) :
    Ordered launched
      ((cache.swapInLoop index (chunks.map (chunkOf Prod.snd)) : List (Instr κ)) ++ [checkError]) := by
  induction chunks generalizing index launched with
  | nil => exact rfl
  | cons chunk chunks ih =>
    have hchunk := hchunks chunk List.mem_cons_self
    have hpos : 0 < (chunk.map Prod.snd).length := by
      rw [List.length_map]
      exact hchunk.pos
    have hrest := ih (h.next hchunk) fun chunk hmem => hchunks chunk (List.mem_cons_of_mem _ hmem)
    rw [List.map_cons, swapInLoop_cons hchunk, List.append_assoc]
    refine ordered_waited ⟨(gather_transfer _ _).pairwise, h.clear _ (.inr rfl) _, copyIn_transfer.pairwise,
      (scatter_transfer _ (numGpuBlocks_lt cache) hchunk.destination_lt hpos
        hchunk.destination_nodup).pairwise, ?_⟩
    show Ordered (((waited index launched ++ [_]) ++ [_]) ++ [_]) _
    rw [List.append_assoc, List.append_assoc]
    exact hrest

end Ordered

end Ikun.BlockMajor
