import Ikun.Attention.Split4Exact

/-!
# The fused paged prefill and the plain segment

The tensors of a request, laid out as contiguous buffers, and the result of the whole program on them:
`fusedPagedPrefillForward_eq` says that it returns the rows of the plain segment.
-/

namespace Ikun.Attention.Split4

open Device OnlineSoftmax

/-! ## Tensors -/

section tensors

variable {α : Type} {n m numBlocks : ℕ}

/-- The entries of some matrices, row by row. -/
def flatten (rows : List (Fin n → Fin m → α)) : List α :=
  rows.flatMap fun row => List.ofFn fun i : Fin (n * m) => row i.divNat i.modNat

theorem length_flatMap_ofFn {β : Type} {k : ℕ} (l : List β) (f : β → Fin k → α) :
    (l.flatMap fun b => List.ofFn (f b)).length = l.length * k := by
  rw [List.length_flatMap, List.map_congr_left fun b _ => List.length_ofFn, List.map_const',
    List.sum_replicate, smul_eq_mul]

theorem getElem?_flatten (rows : List (Fin n → Fin m → α)) (q : ℕ) (head : Fin n) (d : Fin m) :
    (flatten rows)[(q * n + head) * m + d]? = rows[q]?.map fun row => row head d := by
  have hlt : head * m + d < n * m := cell_lt head.isLt d.isLt
  have haddr : (q * n + head) * m + d = q * (n * m) + (head * m + d) := by ring
  have hdiv : (⟨head * m + d, hlt⟩ : Fin (n * m)).divNat = head := Fin.ext (cell_div d.isLt)
  have hmod : (⟨head * m + d, hlt⟩ : Fin (n * m)).modNat = d := Fin.ext (cell_mod d.isLt)
  unfold flatten
  rw [haddr, getElem?_flatMap (fun _ => List.length_ofFn) hlt]
  cases rows[q]? with
  | none => rfl
  | some row =>
    rw [Option.bind_some, List.getElem?_ofFn, dif_pos hlt, hdiv, hmod]
    rfl

/-- The tensor of some queries, keys or values. -/
def tokensTensor (rows : List (Fin n → Fin m → α)) : Tensor α where
  sizes := [rows.length, n, m]
  data := flatten rows
  length_data := by
    unfold flatten
    rw [length_flatMap_ofFn, List.prod_cons, List.prod_cons, List.prod_singleton]

/-- A cache of keys, `[block, head, dim / x, offset, dim % x]`. -/
def keyCacheTensor (cache : Fin numBlocks → Fin kNumKvHeads → Fin (kHeadDim / kKeyPack) →
    Fin kBlockSize → Fin kKeyPack → α) : Tensor α where
  sizes := [numBlocks, kNumKvHeads, kHeadDim / kKeyPack, kBlockSize, kKeyPack]
  data := (List.finRange numBlocks).flatMap fun block =>
    List.ofFn fun i : Fin (kNumKvHeads * (kHeadDim / kKeyPack) * kBlockSize * kKeyPack) =>
      cache block i.divNat.divNat.divNat i.divNat.divNat.modNat i.divNat.modNat i.modNat
  length_data := by
    rw [length_flatMap_ofFn, List.length_finRange]
    rfl

/-- A cache of values, `[block, head, dim, offset]`. -/
def valueCacheTensor (cache : Fin numBlocks → Fin kNumKvHeads → Fin kHeadDim → Fin kBlockSize → α) :
    Tensor α where
  sizes := [numBlocks, kNumKvHeads, kHeadDim, kBlockSize]
  data := (List.finRange numBlocks).flatMap fun block =>
    List.ofFn fun i : Fin (kNumKvHeads * kHeadDim * kBlockSize) =>
      cache block i.divNat.divNat i.divNat.modNat i.modNat
  length_data := by
    rw [length_flatMap_ofFn, List.length_finRange]
    rfl

/-- A block table. -/
def tableTensor (blockTable : List (Fin numBlocks)) : Tensor ℤ where
  sizes := [blockTable.length]
  data := blockTable.map fun block => (block.val : ℤ)
  length_data := by
    rw [List.length_map, List.prod_singleton]

theorem getElem?_finRange (block : Fin n) : (List.finRange n)[block.val]? = some block := by
  rw [List.getElem?_eq_getElem (by rw [List.length_finRange]; exact block.isLt),
    List.getElem_finRange]
  rfl

theorem pack_lt (d : Fin kHeadDim) : d / kKeyPack < kHeadDim / kKeyPack ∧ d % kKeyPack < kKeyPack :=
  ⟨Nat.div_lt_of_lt_mul (Nat.lt_of_lt_of_eq d.isLt rfl), Nat.mod_lt _ (Nat.succ_pos 7)⟩

theorem getElem?_keyCacheTensor (cache : Fin numBlocks → Fin kNumKvHeads →
    Fin (kHeadDim / kKeyPack) → Fin kBlockSize → Fin kKeyPack → α) (block : Fin numBlocks)
    (d : Fin kHeadDim) (offset : Fin kBlockSize) :
    (keyCacheTensor cache).data[((block * (kHeadDim / kKeyPack) + d / kKeyPack) * kBlockSize + offset)
        * kKeyPack + d % kKeyPack]?
      = some (cache block ⟨0, Nat.one_pos⟩ ⟨d / kKeyPack, (pack_lt d).1⟩ offset
          ⟨d % kKeyPack, (pack_lt d).2⟩) := by
  have hone : kNumKvHeads = 1 := rfl
  obtain ⟨hdim, hpack⟩ := pack_lt d
  have hrow : (d / kKeyPack * kBlockSize + offset) * kKeyPack + d % kKeyPack
      < kNumKvHeads * (kHeadDim / kKeyPack) * kBlockSize * kKeyPack :=
    cell_lt (cell_lt (Nat.lt_of_lt_of_eq hdim (Nat.one_mul _).symm) offset.isLt) hpack
  have haddr : ((block * (kHeadDim / kKeyPack) + d / kKeyPack) * kBlockSize + offset) * kKeyPack
      + d % kKeyPack
      = block * (kNumKvHeads * (kHeadDim / kKeyPack) * kBlockSize * kKeyPack)
        + ((d / kKeyPack * kBlockSize + offset) * kKeyPack + d % kKeyPack) := by
    rw [hone]
    ring
  unfold keyCacheTensor
  dsimp only
  rw [haddr, getElem?_flatMap (fun _ => List.length_ofFn) hrow, getElem?_finRange, Option.bind_some,
    List.getElem?_ofFn, dif_pos hrow]
  have hdivNat : ((d / kKeyPack * kBlockSize + offset) * kKeyPack + d % kKeyPack) / kKeyPack
      = d / kKeyPack * kBlockSize + offset := cell_div hpack
  refine congrArg some ?_
  congr 1
  · exact Subsingleton.elim (α := Fin 1) _ _
  · refine Fin.ext ?_
    calc ((d / kKeyPack * kBlockSize + offset) * kKeyPack + d % kKeyPack) / kKeyPack / kBlockSize
          % (kHeadDim / kKeyPack)
        = d / kKeyPack % (kHeadDim / kKeyPack) := by rw [hdivNat, cell_div offset.isLt]
      _ = d / kKeyPack := Nat.mod_eq_of_lt hdim
  · exact Fin.ext ((congrArg (· % kBlockSize) hdivNat).trans (cell_mod offset.isLt))
  · exact Fin.ext (cell_mod hpack)

theorem getElem?_valueCacheTensor (cache : Fin numBlocks → Fin kNumKvHeads → Fin kHeadDim →
    Fin kBlockSize → α) (block : Fin numBlocks) (d : Fin kHeadDim) (offset : Fin kBlockSize) :
    (valueCacheTensor cache).data[(block * kHeadDim + d) * kBlockSize + offset]?
      = some (cache block ⟨0, Nat.one_pos⟩ d offset) := by
  have hone : kNumKvHeads = 1 := rfl
  have hrow : d * kBlockSize + offset < kNumKvHeads * kHeadDim * kBlockSize :=
    cell_lt (Nat.lt_of_lt_of_eq d.isLt (Nat.one_mul _).symm) offset.isLt
  have haddr : (block * kHeadDim + d) * kBlockSize + offset
      = block * (kNumKvHeads * kHeadDim * kBlockSize) + (d * kBlockSize + offset) := by
    rw [hone]
    ring
  unfold valueCacheTensor
  dsimp only
  rw [haddr, getElem?_flatMap (fun _ => List.length_ofFn) hrow, getElem?_finRange, Option.bind_some,
    List.getElem?_ofFn, dif_pos hrow]
  refine congrArg some ?_
  congr 1
  · exact Subsingleton.elim (α := Fin 1) _ _
  · refine Fin.ext ?_
    calc (d * kBlockSize + offset) / kBlockSize % kHeadDim
        = d % kHeadDim := by rw [cell_div offset.isLt]
      _ = d := Nat.mod_eq_of_lt d.isLt
  · exact Fin.ext (cell_mod offset.isLt)

end tensors

/-! ## The end of the program -/

section finish

variable {K : Type} [Field K] [LinearOrder K] {e : Exponential K} {log : ExtNum K → ExtNum K}

variable (e log) in
/-- The division, in the order of the queries. -/
theorem finish_spec (queryLen : ℕ) {row : ℕ → RunningRow (ExtNum K) kHeadDim}
    {buffers : Buffers (ExtNum K)}
    (h : HasRows (kNumQueryHeads * queryLen) row buffers) :
    ∃ output lse, finish (kernelOps e log) queryLen buffers = some (output, lse) ∧
      output.length = queryLen * (kNumQueryHeads * kHeadDim) ∧
      ∀ q < queryLen, ∀ head < kNumQueryHeads, ∀ d : Fin kHeadDim,
        output[(q * kNumQueryHeads + head) * kHeadDim + d]?
          = some ((exactOps e).div ((row (head * queryLen + q)).runningOutput d)
              (row (head * queryLen + q)).runningSum) := by
  have hdim : 0 < kHeadDim := Nat.succ_pos 255
  have hheads : 0 < kNumQueryHeads := Nat.succ_pos 3
  have hdivided : (List.range (kNumQueryHeads * queryLen * kHeadDim)).mapM (fun index => do
      return (kernelOps e log).div (← load buffers.runningOutput index)
        (← load buffers.runningSum (index / kHeadDim)))
      = some ((List.range (kNumQueryHeads * queryLen * kHeadDim)).map fun index =>
          (exactOps e).div ((row (index / kHeadDim)).runningOutput
            ⟨index % kHeadDim, Nat.mod_lt index hdim⟩) (row (index / kHeadDim)).runningSum) := by
    refine mapM_eq fun index hindex => ?_
    have hr : index / kHeadDim < kNumQueryHeads * queryLen := Nat.div_lt_of_lt_mul
      (Nat.mul_comm (kNumQueryHeads * queryLen) kHeadDim ▸ List.mem_range.mp hindex)
    have hcell := h.runningOutput _ hr ⟨index % kHeadDim, Nat.mod_lt index hdim⟩
    dsimp only at hcell
    rw [Nat.div_add_mod' index kHeadDim] at hcell
    exact (bind_eq hcell _).trans (bind_eq (h.runningSum _ hr) _)
  have hoplace : ∀ i < kNumQueryHeads * queryLen,
      i % kNumQueryHeads * queryLen + i / kNumQueryHeads < kNumQueryHeads * queryLen := fun i hi =>
    cell_lt (Nat.mod_lt i hheads) (Nat.div_lt_of_lt_mul hi)
  obtain ⟨output, houtput, hcells⟩ : ∃ output,
      (List.range (kNumQueryHeads * queryLen * kHeadDim)).mapM (fun index =>
      load ((List.range (kNumQueryHeads * queryLen * kHeadDim)).map fun index =>
          (exactOps e).div ((row (index / kHeadDim)).runningOutput
            ⟨index % kHeadDim, Nat.mod_lt index hdim⟩) (row (index / kHeadDim)).runningSum)
        ((index / kHeadDim % kNumQueryHeads * queryLen + index / kHeadDim / kNumQueryHeads) * kHeadDim
          + index % kHeadDim)) = some output ∧
      output = (List.range (kNumQueryHeads * queryLen * kHeadDim)).map fun index =>
          (exactOps e).div ((row (index / kHeadDim % kNumQueryHeads * queryLen
              + index / kHeadDim / kNumQueryHeads)).runningOutput
            ⟨index % kHeadDim, Nat.mod_lt index hdim⟩)
            (row (index / kHeadDim % kNumQueryHeads * queryLen
              + index / kHeadDim / kNumQueryHeads)).runningSum := by
    refine ⟨_, mapM_eq fun index hindex => ?_, rfl⟩
    have hr : index / kHeadDim < kNumQueryHeads * queryLen := Nat.div_lt_of_lt_mul
      (Nat.mul_comm (kNumQueryHeads * queryLen) kHeadDim ▸ List.mem_range.mp hindex)
    have hmod := Nat.mod_lt index hdim
    unfold load
    rw [List.getElem?_map, List.getElem?_range (cell_lt (hoplace _ hr) hmod), Option.map_some]
    simp only [cell_div hmod, cell_mod hmod]
  have hlse : ∃ lse, (List.range (kNumQueryHeads * queryLen)).mapM (fun index => do
      return (kernelOps e log).add
        (← load buffers.runningMax (index % kNumQueryHeads * queryLen + index / kNumQueryHeads))
        ((kernelOps e log).log (← load buffers.runningSum
          (index % kNumQueryHeads * queryLen + index / kNumQueryHeads)))) = some lse := by
    refine ⟨_, mapM_eq (g := fun index => (kernelOps e log).add
      (row (index % kNumQueryHeads * queryLen + index / kNumQueryHeads)).runningMax
      ((kernelOps e log).log
        (row (index % kNumQueryHeads * queryLen + index / kNumQueryHeads)).runningSum))
      fun index hindex => ?_⟩
    have hr := hoplace index (List.mem_range.mp hindex)
    exact (bind_eq (h.runningMax _ hr) _).trans (bind_eq (h.runningSum _ hr) _)
  obtain ⟨lse, hlse⟩ := hlse
  refine ⟨output, lse, ?_, ?_, fun q hq head hhead d => ?_⟩
  · exact (bind_eq hdivided _).trans ((bind_eq houtput _).trans ((bind_eq hlse _).trans rfl))
  · rw [hcells, List.length_map, List.length_range]
    ring
  · have hlt : (q * kNumQueryHeads + head) * kHeadDim + d < kNumQueryHeads * queryLen * kHeadDim := by
      rw [Nat.mul_comm kNumQueryHeads]
      exact cell_lt (cell_lt hq hhead) d.isLt
    rw [hcells, List.getElem?_map, List.getElem?_range hlt, Option.map_some]
    simp only [cell_div d.isLt, cell_mod d.isLt, cell_div hhead, cell_mod hhead]

end finish

/-! ## The arguments -/

/-- The arguments of a segment with a context of whole blocks and nothing in front of it. -/
structure Arguments (α : Type) (numBlocks : ℕ) where
  query : List (Query α)
  key : List (KVToken α kNumKvHeads kHeadDim)
  value : List (KVToken α kNumKvHeads kHeadDim)
  keyCache : Fin numBlocks → Fin kNumKvHeads → Fin (kHeadDim / kKeyPack) → Fin kBlockSize →
    Fin kKeyPack → α
  valueCache : Fin numBlocks → Fin kNumKvHeads → Fin kHeadDim → Fin kBlockSize → α
  blockTable : List (Fin numBlocks)
  contextLen : ℕ

namespace Arguments

variable {α : Type} {numBlocks : ℕ}

/-- The keys of a block, a part of `key_cache[ids].permute(0, 3, 1, 2, 4).view(-1, heads, dim)`. -/
def readKeys (args : Arguments α numBlocks) (block : Fin numBlocks) :
    List (KVToken α kNumKvHeads kHeadDim) :=
  List.ofFn fun offset kvHead d => args.keyCache block kvHead ⟨d / kKeyPack, (pack_lt d).1⟩ offset
    ⟨d % kKeyPack, (pack_lt d).2⟩

/-- The values of a block. -/
def readValues (args : Arguments α numBlocks) (block : Fin numBlocks) :
    List (KVToken α kNumKvHeads kHeadDim) :=
  List.ofFn fun offset kvHead d => args.valueCache block kvHead d offset

/-- The call of the fused kernel. -/
def fused [DecidableEq α] (args : Arguments α numBlocks) (ops : KernelOps α)
    (uninitialised : ℕ → ℕ → α) (scale : α) : Except Fault (List α × List α) :=
  fusedPagedPrefillForward ops uninitialised (tokensTensor args.query) (tokensTensor args.key)
    (tokensTensor args.value) (keyCacheTensor args.keyCache) (valueCacheTensor args.valueCache)
    (tableTensor args.blockTable) args.contextLen scale

/-- The plain segment. -/
def plain (args : Arguments α numBlocks) (ops : TensorOps α) (scale : α) (seqIndex tileSize : ℕ) :
    Except Exn (List (Query α)) :=
  forwardPrefixSegmentPytorch ops scale args.query args.readKeys args.readValues args.key args.value
    [] [] args.blockTable seqIndex args.contextLen kBlockSize tileSize

/-- What the checks of the kernel ask of the lengths. -/
structure Accepted (args : Arguments α numBlocks) : Prop where
  key : args.key.length = args.query.length
  value : args.value.length = args.query.length
  query_pos : 1 ≤ args.query.length
  query_le : args.query.length ≤ kMaxQueryTokens
  aligned : args.contextLen % kBlockSize = 0
  total : args.contextLen + args.query.length ≤ kMaxSequenceTokens
  blockTable : (args.contextLen + kBlockSize - 1) / kBlockSize ≤ args.blockTable.length

variable {K : Type} {args : Arguments K numBlocks}

/-- The arguments in exact arithmetic. -/
def num (args : Arguments K numBlocks) : Arguments (ExtNum K) numBlocks where
  query := args.query.map numQuery
  key := args.key.map numToken
  value := args.value.map numToken
  keyCache block kvHead d offset r := .fin (args.keyCache block kvHead d offset r)
  valueCache block kvHead d offset := .fin (args.valueCache block kvHead d offset)
  blockTable := args.blockTable
  contextLen := args.contextLen

/-- The cached tokens, in the order of the block table. -/
def context (args : Arguments K numBlocks) : List (Token K) :=
  ((args.blockTable.flatMap args.readKeys).zip (args.blockTable.flatMap args.readValues)).take
    args.contextLen

/-- The tokens of the query. -/
def tokens (args : Arguments K numBlocks) : List (Token K) := args.key.zip args.value

theorem Accepted.room (h : args.Accepted) :
    args.contextLen ≤ args.blockTable.length * kBlockSize := by
  have hblocks := h.blockTable
  have haligned := h.aligned
  unfold kBlockSize at *
  omega

theorem length_context (h : args.contextLen ≤ args.blockTable.length * kBlockSize) :
    args.context.length = args.contextLen := by
  have hkeys : (args.blockTable.flatMap args.readKeys).length
      = args.blockTable.length * kBlockSize := length_flatMap_ofFn _ _
  have hvalues : (args.blockTable.flatMap args.readValues).length
      = args.blockTable.length * kBlockSize := length_flatMap_ofFn _ _
  unfold context
  rw [List.length_take, List.length_zip, hkeys, hvalues, Nat.min_self, Nat.min_eq_left h]

/-- A cached token is in its block. -/
theorem getElem?_context {t : ℕ} (ht : t < args.contextLen) {block : Fin numBlocks}
    (hblock : args.blockTable[t / kBlockSize]? = some block) :
    args.context[t]? = some
      (fun kvHead (d : Fin kHeadDim) => args.keyCache block kvHead ⟨d / kKeyPack, (pack_lt d).1⟩
          ⟨t % kBlockSize, Nat.mod_lt t (Nat.succ_pos 15)⟩ ⟨d % kKeyPack, (pack_lt d).2⟩,
        fun kvHead d => args.valueCache block kvHead d
          ⟨t % kBlockSize, Nat.mod_lt t (Nat.succ_pos 15)⟩) := by
  have hmod : t % kBlockSize < kBlockSize := Nat.mod_lt t (Nat.succ_pos 15)
  have hread : ∀ f : Fin numBlocks → Fin kBlockSize → KVToken K kNumKvHeads kHeadDim,
      (args.blockTable.flatMap fun b => List.ofFn (f b))[t]?
        = some (f block ⟨t % kBlockSize, hmod⟩) := by
    intro f
    have hcell : (args.blockTable.flatMap fun b => List.ofFn (f b))[t / kBlockSize * kBlockSize
        + t % kBlockSize]? = _ := getElem?_flatMap (fun _ => List.length_ofFn) hmod
    rw [Nat.div_add_mod' t kBlockSize, hblock, Option.bind_some, List.getElem?_ofFn, dif_pos hmod]
      at hcell
    exact hcell
  unfold context
  rw [List.getElem?_take, if_pos ht]
  exact List.getElem?_zip_eq_some.mpr ⟨hread _, hread _⟩

/-- The buffers of the request. -/
def request (args : Arguments K numBlocks) : Request (ExtNum K) where
  keyNew := (tokensTensor args.num.key).data
  valueNew := (tokensTensor args.num.value).data
  keyCache := (keyCacheTensor args.num.keyCache).data
  valueCache := (valueCacheTensor args.num.valueCache).data
  blockTable := (tableTensor args.blockTable).data
  contextLen := args.contextLen
  queryLen := args.query.length

/-- The buffers hold the tokens of the context, then those of the query. -/
theorem reads_request [Field K] (h : args.Accepted) (scale : K) : args.request.Reads
    (fun t d => .fin ((groupOf scale args.query args.context args.tokens).key t d))
    (fun t d => .fin ((groupOf scale args.query args.context args.tokens).value t d)) where
  context t ht d hd := by
    have hlt : t / kBlockSize < args.blockTable.length :=
      Nat.div_lt_of_lt_mul (Nat.mul_comm _ kBlockSize ▸ Nat.lt_of_lt_of_le ht h.room)
    have hblock := List.getElem?_eq_getElem hlt
    have htoken := getElem?_context ht hblock
    have hlen := length_context h.room
    have hall : (args.context ++ args.tokens)[t]? = _ :=
      (List.getElem?_append_left (hlen.symm ▸ ht)).trans htoken
    refine ⟨args.blockTable[t / kBlockSize], ?_, ?_, ?_⟩
    · unfold request tableTensor
      dsimp only
      rw [List.getElem?_map, hblock]
      rfl
    · have hcell := getElem?_keyCacheTensor args.num.keyCache args.blockTable[t / kBlockSize]
        ⟨d, hd⟩ ⟨t % kBlockSize, Nat.mod_lt t (Nat.succ_pos 15)⟩
      unfold groupOf
      dsimp only
      rw [hall, Option.elim_some]
      have hentry := entryAt_fin (fun kvHead (d : Fin kHeadDim) =>
        args.keyCache args.blockTable[t / kBlockSize] kvHead ⟨d / kKeyPack, (pack_lt d).1⟩
          ⟨t % kBlockSize, Nat.mod_lt t (Nat.succ_pos 15)⟩ ⟨d % kKeyPack, (pack_lt d).2⟩)
        ⟨0, Nat.one_pos⟩ ⟨d, hd⟩
      exact hcell.trans (congrArg some (congrArg ExtNum.fin hentry.symm))
    · have hcell := getElem?_valueCacheTensor args.num.valueCache args.blockTable[t / kBlockSize]
        ⟨d, hd⟩ ⟨t % kBlockSize, Nat.mod_lt t (Nat.succ_pos 15)⟩
      unfold groupOf
      dsimp only
      rw [hall, Option.elim_some]
      have hentry := entryAt_fin (fun kvHead d =>
        args.valueCache args.blockTable[t / kBlockSize] kvHead d
          ⟨t % kBlockSize, Nat.mod_lt t (Nat.succ_pos 15)⟩) ⟨0, Nat.one_pos⟩ ⟨d, hd⟩
      exact hcell.trans (congrArg some (congrArg ExtNum.fin hentry.symm))
  new i hi d hd := by
    have hlen := length_context h.room
    have hkey : i < args.key.length := h.key.symm ▸ hi
    have hvalue : i < args.value.length := h.value.symm ▸ hi
    have hall : (args.context ++ args.tokens)[args.contextLen + i]?
        = some (args.key[i], args.value[i]) := by
      rw [List.getElem?_append_right (hlen.symm ▸ Nat.le_add_right _ _), hlen,
        Nat.add_sub_cancel_left]
      exact List.getElem?_zip_eq_some.mpr
        ⟨List.getElem?_eq_getElem hkey, List.getElem?_eq_getElem hvalue⟩
    have hflat : ∀ rows : List (KVToken K kNumKvHeads kHeadDim), ∀ hi : i < rows.length,
        (tokensTensor (rows.map numToken)).data[i * kHeadDim + d]?
          = some (ExtNum.fin (entryAt rows[i] 0 d)) := by
      intro rows hi
      have hcell := getElem?_flatten (rows.map numToken) i ⟨0, Nat.one_pos⟩ ⟨d, hd⟩
      have haddr : (i * kNumKvHeads + 0) * kHeadDim + d = i * kHeadDim + d := by
        have hone : kNumKvHeads = 1 := rfl
        rw [hone]
        ring
      dsimp only at hcell
      rw [haddr, List.getElem?_map, List.getElem?_eq_getElem hi] at hcell
      refine hcell.trans (congrArg some ?_)
      exact congrArg ExtNum.fin (entryAt_fin _ ⟨0, Nat.one_pos⟩ ⟨d, hd⟩).symm
    have hposition : args.request.contextLen = args.contextLen := rfl
    unfold groupOf
    dsimp only
    rw [hposition, hall, Option.elim_some, Option.elim_some]
    exact ⟨hflat args.key hkey, hflat args.value hvalue⟩

end Arguments

/-! ## Both sides -/

section sides

variable {K : Type} [Field K] [LinearOrder K] {numBlocks : ℕ} {args : Arguments K numBlocks}

theorem torchCheck_ok {c : Prop} [Decidable c] (h : c) (message : String) :
    torchCheck c message = .ok () := Except.raiseIf_eq_ok.mpr (not_not.mpr h)

/-- The arguments pass the checks. -/
theorem checkArguments_ok (h : args.Accepted) (e : Exponential K) (log : ExtNum K → ExtNum K)
    {scale : K} (hscale : 0 < scale) :
    checkArguments (kernelOps e log) (tokensTensor args.num.query) (tokensTensor args.num.key)
      (tokensTensor args.num.value) (keyCacheTensor args.num.keyCache)
      (valueCacheTensor args.num.valueCache) (tableTensor args.num.blockTable) args.contextLen
      (.fin scale) = .ok () := by
  have hquery : args.num.query.length = args.query.length := List.length_map _
  have hkey : args.num.key.length = args.query.length := (List.length_map _).trans h.key
  have hvalue : args.num.value.length = args.query.length := (List.length_map _).trans h.value
  have htotal := h.total
  have hlengths : (0 : ℤ) ≤ args.contextLen ∧ (args.contextLen : ℤ) ≤ kMaxSequenceTokens := by
    omega
  have haligned : (args.contextLen : ℤ) % kBlockSize = 0 := by
    exact_mod_cast h.aligned
  have htable : (args.contextLen + kBlockSize - 1) / kBlockSize
      ≤ (tableTensor args.num.blockTable).data.length :=
    h.blockTable.trans_eq (List.length_map _).symm
  have hinRange : ∀ block ∈ (tableTensor args.num.blockTable).data.take
      ((args.contextLen + kBlockSize - 1) / kBlockSize),
      0 ≤ block ∧ block < ((keyCacheTensor args.num.keyCache).sizes.headD 0 : ℕ) := by
    intro block hblock
    obtain ⟨b, -, rfl⟩ := List.mem_map.mp (List.mem_of_mem_take hblock)
    exact ⟨Int.natCast_nonneg b.val, Int.ofNat_lt.mpr b.isLt⟩
  have hpositive : (kernelOps e log).isFinitePositive (.fin scale) = true := decide_eq_true hscale
  have hmany : args.query.length ≤ 2147483647 / kNumQueryHeads :=
    h.query_le.trans (by decide)
  have hsizes : (tokensTensor args.num.query).sizes.headD 0 = args.query.length := hquery
  unfold checkArguments
  refine Except.bind_eq_ok.mpr ⟨(), torchCheck_ok rfl _, ?_⟩
  refine Except.bind_eq_ok.mpr ⟨(), torchCheck_ok ⟨rfl, rfl⟩ _, ?_⟩
  refine Except.bind_eq_ok.mpr ⟨(), torchCheck_ok ⟨rfl, rfl⟩ _, ?_⟩
  refine Except.bind_eq_ok.mpr ⟨(), torchCheck_ok ?_ _, ?_⟩
  · exact congrArg (· :: [kNumKvHeads, kHeadDim]) (hvalue.trans hkey.symm)
  refine Except.bind_eq_ok.mpr ⟨(), torchCheck_ok ?_ _, ?_⟩
  · exact congrArg some (hkey.trans hquery.symm)
  refine Except.bind_eq_ok.mpr ⟨(), torchCheck_ok ⟨rfl, rfl⟩ _, ?_⟩
  refine Except.bind_eq_ok.mpr ⟨(), torchCheck_ok ⟨rfl, rfl⟩ _, ?_⟩
  refine Except.bind_eq_ok.mpr ⟨(), torchCheck_ok rfl _, ?_⟩
  refine Except.bind_eq_ok.mpr ⟨(), torchCheck_ok hlengths _, ?_⟩
  refine Except.bind_eq_ok.mpr ⟨(), torchCheck_ok haligned _, ?_⟩
  dsimp only
  rw [hsizes, Int.toNat_natCast]
  refine Except.bind_eq_ok.mpr ⟨(), torchCheck_ok ⟨h.query_pos, h.query_le⟩ _, ?_⟩
  refine Except.bind_eq_ok.mpr ⟨(), torchCheck_ok h.total _, ?_⟩
  refine Except.bind_eq_ok.mpr ⟨(), torchCheck_ok htable _, ?_⟩
  have hlast : (do
      torchCheck ((kernelOps e log).isFinitePositive (.fin scale) = true)
        "scale must be finite and positive"
      torchCheck (args.query.length ≤ 2147483647 / kNumQueryHeads)
        "query length overflows row count") = .ok () :=
    Except.bind_eq_ok.mpr ⟨(), torchCheck_ok hpositive _, torchCheck_ok hmany _⟩
  split
  · exact Except.bind_eq_ok.mpr ⟨(), torchCheck_ok hinRange _, hlast⟩
  · exact hlast

/-- The rows of the plain segment. -/
theorem plain_rows [IsStrictOrderedRing K] (h : args.Accepted) (e : Exponential K) (scale : K)
    (seqIndex : ℕ) {tileSize : ℕ} (htile : 0 < tileSize) :
    ∃ rows, args.num.plain (exactOps e) (.fin scale) seqIndex tileSize = .ok rows ∧
      rows.length = args.query.length ∧
      ∀ q query, args.query[q]? = some query → rows[q]?
        = some (numQuery (softmaxAttention e scale query (args.context ++ args.tokens.take (q + 1)))) := by
  have hkeys : ∀ b, (args.num.readKeys b).length = kBlockSize := fun _ => List.length_ofFn
  have hvalues : ∀ b, (args.num.readValues b).length = kBlockSize := fun _ => List.length_ofFn
  have hkeysNum : args.num.blockTable.flatMap args.num.readKeys
      = (args.blockTable.flatMap args.readKeys).map numToken := by
    rw [List.map_flatMap]
    refine List.flatMap_congr fun block _ => ?_
    unfold Arguments.readKeys
    rw [List.map_ofFn]
    rfl
  have hvaluesNum : args.num.blockTable.flatMap args.num.readValues
      = (args.blockTable.flatMap args.readValues).map numToken := by
    rw [List.map_flatMap]
    refine List.flatMap_congr fun block _ => ?_
    unfold Arguments.readValues
    rw [List.map_ofFn]
    rfl
  have hblocks : (args.blockTable.flatMap args.readKeys).length
      = (args.blockTable.flatMap args.readValues).length := by
    rw [show (args.blockTable.flatMap args.readKeys).length = args.blockTable.length * kBlockSize from
      length_flatMap_ofFn _ _]
    exact (length_flatMap_ofFn _ _).symm
  obtain ⟨hcontextKeys, hcontextValues⟩ := PrefixBatch.num_zip hblocks
  obtain ⟨htokenKeys, htokenValues⟩ := PrefixBatch.num_zip (h.key.trans h.value.symm)
  have hroom : args.num.contextLen ≤ args.num.blockTable.length * kBlockSize := h.room
  have htokens : args.tokens.length = args.query.length := by
    unfold Arguments.tokens
    rw [List.length_zip, h.key, h.value, Nat.min_self]
  refine ⟨_, PrefixBatch.forwardPrefixSegmentPytorch_eq (Nat.succ_pos 15) htile hkeys hvalues hroom seqIndex, ?_,
    fun q query hquery => ?_⟩
  · unfold finishRows
    rw [List.length_map, List.length_range]
    exact List.length_map _
  · have hrow := finishRows_exact e scale args.context htile htokens
      hquery
    have hnumKeys : numKeys args.context
        = (args.num.blockTable.flatMap args.num.readKeys).take args.num.contextLen := by
      unfold numKeys at hcontextKeys ⊢
      unfold Arguments.context
      rw [List.map_take, hcontextKeys, hkeysNum]
      rfl
    have hnumValues : numValues args.context
        = (args.num.blockTable.flatMap args.num.readValues).take args.num.contextLen := by
      unfold numValues at hcontextValues ⊢
      unfold Arguments.context
      rw [List.map_take, hcontextValues, hvaluesNum]
      rfl
    have hquerys : args.num.query.length = args.query.length := List.length_map _
    have htokenK : numKeys args.tokens = args.num.key := htokenKeys
    have htokenV : numValues args.tokens = args.num.value := htokenValues
    rw [hnumKeys, hnumValues, htokenK, htokenV] at hrow
    rw [List.append_nil, List.append_nil, hquerys]
    exact hrow

/-- The queries as the kernels convert them. -/
theorem converted_request (h : args.Accepted) (e : Exponential K) (log : ExtNum K → ExtNum K)
    (scale : K) (uninitialised : ℕ → ExtNum K) :
    ∃ converted, convertQueryKernel (kernelOps e log) (tokensTensor args.num.query).data
        args.query.length (.fin scale)
        (torchEmpty uninitialised (kNumQueryHeads * args.query.length * kHeadDim)) = some converted ∧
      (groupOf scale args.query args.context args.tokens).Of args.request converted := by
  have hlen := Arguments.length_context h.room
  obtain ⟨converted, hok, hcells⟩ := convertQueryKernel_spec (kernelOps e log)
    (tokensTensor args.num.query).data
    (torchEmpty uninitialised (kNumQueryHeads * args.query.length * kHeadDim)) (.fin scale)
    h.query_pos
    (x := fun q head d => .fin ((args.query[q]?).elim 0 fun query => entryAt query head d))
    (fun q hq head hhead d hd => by
      have hhead' : head < kNumKvHeads * kNumQueryHeads := Nat.lt_of_lt_of_eq hhead rfl
      have hcell := getElem?_flatten (args.query.map numQuery) q ⟨head, hhead'⟩ ⟨d, hd⟩
      have hentry := entryAt_fin args.query[q] ⟨head, hhead'⟩ ⟨d, hd⟩
      dsimp only at hcell hentry
      rw [List.getElem?_map, List.getElem?_eq_getElem hq] at hcell
      rw [List.getElem?_eq_getElem hq, Option.elim_some, hentry]
      exact hcell)
    (by rw [torchEmpty, List.length_map, List.length_range])
  exact ⟨converted, hok, hlen.symm, rfl, h.query_pos, Arguments.reads_request h scale, hcells⟩

/-- The rows of the fused kernel. -/
theorem fused_rows [IsStrictOrderedRing K] (h : args.Accepted) (e : Exponential K)
    (log : ExtNum K → ExtNum K) {scale : K} (hscale : 0 < scale)
    (uninitialised : ℕ → ℕ → ExtNum K) :
    ∃ output lse, args.num.fused (kernelOps e log) uninitialised (.fin scale) = .ok (output, lse) ∧
      output.length = args.query.length * (kNumQueryHeads * kHeadDim) ∧
      ∀ q query, args.query[q]? = some query → ∀ (head : Fin (kNumKvHeads * kNumQueryHeads))
        (d : Fin kHeadDim), output[(q * kNumQueryHeads + head) * kHeadDim + d]?
          = some (.fin (softmaxAttention e scale query
              (args.context ++ args.tokens.take (q + 1)) head d)) := by
  have hquery : args.num.query.length = args.query.length := List.length_map _
  have htokens : args.tokens.length = args.query.length := by
    unfold Arguments.tokens
    rw [List.length_zip, h.key, h.value, Nat.min_self]
  obtain ⟨converted, hconverted, hof⟩ := converted_request h e log scale (uninitialised 0)
  have hempty : ∀ (f : ℕ → ExtNum K) (n : ℕ), n ≤ (torchEmpty f n).length := fun f n => by
    rw [torchEmpty, List.length_map, List.length_range]
  have hlen := Arguments.length_context h.room
  -- the buffers at the start of the loops
  obtain ⟨start, hstart⟩ : ∃ start : Buffers (ExtNum K), start =
      { keyTiles := torchEmpty (uninitialised 1) (kSplitCount * (kTileTokens * kHeadDim))
        valueTiles := torchEmpty (uninitialised 2) (kSplitCount * (kTileTokens * kHeadDim))
        scores := torchEmpty (uninitialised 3)
          (kSplitCount * (kNumQueryHeads * args.query.length * kTileTokens))
        splitOutput := torchEmpty (uninitialised 4)
          (kSplitCount * (kNumQueryHeads * args.query.length * kHeadDim))
        runningMax := List.replicate (kNumQueryHeads * args.query.length) .negInf
        runningSum := List.replicate (kNumQueryHeads * args.query.length) (.fin 0)
        runningOutput := List.replicate (kNumQueryHeads * args.query.length * kHeadDim) (.fin 0)
        corrections := torchEmpty (uninitialised 5)
          (kSplitCount * (kNumQueryHeads * args.query.length)) } := ⟨_, rfl⟩
  have hsized : Sized (groupOf scale args.query args.context args.tokens).rows start := by
    rw [hstart]
    constructor
    · dsimp only
      exact hempty _ _
    · dsimp only
      exact hempty _ _
    · dsimp only
      exact hempty _ _
    · dsimp only
      exact hempty _ _
    · dsimp only
      exact hempty _ _
  have hrows : HasRows (groupOf scale args.query args.context args.tokens).rows
      (fun _ => .init (exactOps e)) start := by
    rw [hstart]
    refine ⟨fun r hr => ?_, fun r hr => ?_, fun r hr d => ?_, ?_⟩
    · exact List.getElem?_replicate_of_lt hr
    · exact List.getElem?_replicate_of_lt hr
    · have hlt : r * kHeadDim + d < kNumQueryHeads * args.query.length * kHeadDim :=
        cell_lt hr d.isLt
      exact List.getElem?_replicate_of_lt hlt
    · exact (List.length_replicate ..).ge
  obtain ⟨buffers, hloop, hbuffers⟩ := foldlM_groups e log hof hsized hrows
  obtain ⟨output, lse, hfinish, hlength, hcells⟩ := finish_spec e log
    args.query.length hbuffers
  refine ⟨output, lse, ?_, hlength, fun q query hq head d => ?_⟩
  · unfold Arguments.fused fusedPagedPrefillForward
    have hsizes : (tokensTensor args.num.query).sizes.headD 0 = args.query.length := hquery
    refine Except.bind_eq_ok.mpr ⟨(), checkArguments_ok h e log hscale, ?_⟩
    dsimp only
    rw [hsizes, Int.toNat_natCast]
    refine Except.bind_eq_ok.mpr ⟨converted, onDevice_eq hconverted, ?_⟩
    have hcontextLen : (groupOf scale args.query args.context args.tokens).contextLen
        = args.num.contextLen := hlen
    have hqueryLen : (groupOf scale args.query args.context args.tokens).queryLen
        = args.query.length := rfl
    rw [hstart, hcontextLen, hqueryLen] at hloop
    refine Except.bind_eq_ok.mpr ⟨buffers, hloop, ?_⟩
    exact onDevice_eq hfinish
  · have hlt : q < args.query.length := (List.getElem?_eq_some_iff.mp hq).1
    rw [hcells q hlt head (Nat.lt_of_lt_of_eq head.isLt rfl) d]
    exact congrArg some (seenAll_softmax rfl htokens hq head d)

end sides

/-- For every request that passes the checks, the fused kernel returns the rows of the plain segment
with nothing in front of it, whatever its scratch tensors hold at the start. It returns, so none of the
indices that it computes is out of range. -/
theorem fusedPagedPrefillForward_eq {K : Type} [Field K] [LinearOrder K] [IsStrictOrderedRing K]
    (e : Exponential K) (log : ExtNum K → ExtNum K) {numBlocks : ℕ} (args : Arguments K numBlocks)
    (h : args.Accepted) (scale : K) (hscale : 0 < scale) (seqIndex tileSize : ℕ)
    (htile : 1 ≤ tileSize) :
    ∃ rows, args.num.plain (exactOps e) (.fin scale) seqIndex tileSize = .ok rows ∧
      ∀ uninitialised : ℕ → ℕ → ExtNum K, ∃ lse,
        args.num.fused (kernelOps e log) uninitialised (.fin scale) = .ok (flatten rows, lse) := by
  obtain ⟨rows, hplain, hrowsLength, hrows⟩ := plain_rows h e scale seqIndex htile
  refine ⟨rows, hplain, fun uninitialised => ?_⟩
  obtain ⟨output, lse, hfused, hlength, hcells⟩ := fused_rows h e log hscale uninitialised
  have hflatten : (flatten rows).length = args.query.length * (kNumQueryHeads * kHeadDim) := by
    unfold flatten
    rw [length_flatMap_ofFn, hrowsLength]
    rfl
  suffices heq : output = flatten rows by
    rw [← heq]
    exact ⟨lse, hfused⟩
  refine List.ext_getElem? fun i => ?_
  cases Nat.lt_or_ge i (args.query.length * (kNumQueryHeads * kHeadDim)) with
  | inr hout =>
    rw [List.getElem?_eq_none (hlength.trans_le hout),
      List.getElem?_eq_none (hflatten.trans_le hout)]
  | inl hin =>
    have hdim : i % kHeadDim < kHeadDim := Nat.mod_lt i (Nat.succ_pos 255)
    have hhead : i / kHeadDim % kNumQueryHeads < kNumKvHeads * kNumQueryHeads :=
      Nat.mod_lt _ (Nat.succ_pos 3)
    have hq : i / kHeadDim / kNumQueryHeads < args.query.length := by
      rw [Nat.div_div_eq_div_mul]
      refine Nat.div_lt_of_lt_mul (Nat.lt_of_lt_of_eq hin ?_)
      ring
    have haddr : (i / kHeadDim / kNumQueryHeads * kNumQueryHeads + i / kHeadDim % kNumQueryHeads)
        * kHeadDim + i % kHeadDim = i := by
      rw [Nat.div_add_mod', Nat.div_add_mod']
    have hquery := List.getElem?_eq_getElem hq
    have hcell := hcells _ _ hquery ⟨i / kHeadDim % kNumQueryHeads, hhead⟩ ⟨i % kHeadDim, hdim⟩
    have hrow := getElem?_flatten rows (i / kHeadDim / kNumQueryHeads)
      ⟨i / kHeadDim % kNumQueryHeads, hhead⟩ ⟨i % kHeadDim, hdim⟩
    have haddr' : (i / kHeadDim / kNumQueryHeads * (kNumKvHeads * kNumQueryHeads)
        + i / kHeadDim % kNumQueryHeads) * kHeadDim + i % kHeadDim = i := haddr
    dsimp only at hcell hrow
    rw [haddr] at hcell
    rw [haddr', hrows _ _ hquery] at hrow
    rw [hcell, hrow]
    rfl

/-- One block of cached tokens and one new one. -/
noncomputable def oneBlock : Arguments ℝ 1 where
  query := [fun head _ => head]
  key := [fun _ _ => 1]
  value := [fun _ d => d]
  keyCache _ _ _ offset _ := offset
  valueCache _ _ d offset := d + offset
  blockTable := [0]
  contextLen := 16

/-- The fused kernel on a block of cached tokens, with scratch tensors that hold no numbers. -/
theorem fusedPagedPrefillForward_eq_oneBlock : ∃ rows lse,
    oneBlock.num.plain (exactOps PrefixBatch.realExp) (.fin 1) 0 512 = .ok rows ∧
      oneBlock.num.fused (kernelOps PrefixBatch.realExp id) (fun _ _ => .nan) (.fin 1)
        = .ok (flatten rows, lse) := by
  have haccepted : oneBlock.Accepted :=
    ⟨rfl, rfl, Nat.le_refl 1, by decide, rfl, by decide, by decide⟩
  obtain ⟨rows, hplain, hfused⟩ := fusedPagedPrefillForward_eq PrefixBatch.realExp id oneBlock haccepted 1
    one_pos 0 512 (by decide)
  obtain ⟨lse, hlse⟩ := hfused fun _ _ => .nan
  exact ⟨rows, lse, hplain, hlse⟩

end Ikun.Attention.Split4
