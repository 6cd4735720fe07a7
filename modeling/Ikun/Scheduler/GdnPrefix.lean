import Mathlib.Data.List.Sort
import Mathlib.Data.List.Dedup
import Ikun.Basic
import Ikun.Lib.Dict
import Ikun.Lib.Except

/-!
# GDN prefix states

The recurrent state of a linear-attention layer can only be restored where it was captured. The
scheduler keeps an index of the captured prefixes and decides for every prefill step from which
captured prefix it starts, where it ends, which states it captures and into which segments the layer
divides it.

A prefix is named by the number of its blocks and by a digest of the last one. The type `δ` of the
digests is a parameter.
-/

namespace Ikun.GdnPrefix

open Except

variable {δ : Type}

/-- `GdnPrefixKey`. -/
abbrev GdnPrefixKey (δ : Type) := ℕ × δ

/-- `_VALID_RESTORE_MODES`. -/
inductive RestoreMode
  | direct
  | hybrid64
  | chunk64
  | aligned
  deriving DecidableEq

/-- `GDN_KERNEL_CHUNK_TOKENS`. -/
def gdnKernelChunkTokens : ℕ := 64

/-- `GDN_DIRECT_MIN_REPLAY_TOKENS`. -/
def gdnDirectMinReplayTokens : ℕ := 2

/-- The value of `BI100_GDN_RESTORE_MODE`. -/
def RestoreMode.value : RestoreMode → String
  | .direct => "direct"
  | .hybrid64 => "hybrid64"
  | .chunk64 => "chunk64"
  | .aligned => "aligned"

/-- `gdn_restore_alignment`. -/
def gdnRestoreAlignment (restoreMode : RestoreMode) (blockSize schedulerChunkTokens : ℕ) :
    Except Exn ℕ := do
  raiseIf (blockSize = 0) (.valueError "block_size must be positive")
  if restoreMode = .direct then return blockSize
  else
    let alignment :=
      if restoreMode = .aligned then schedulerChunkTokens else gdnKernelChunkTokens
    raiseIf (alignment = 0 ∨ alignment % blockSize ≠ 0)
      (.valueError (s!"{restoreMode.value} GDN restore requires a positive alignment " ++
        s!"divisible by block_size={blockSize}; got {alignment}"))
    return alignment

/-! ## Keys -/

/-- `make_prefix_key`. -/
def makePrefixKey (blockCount : ℕ) (digest : δ) : Except Exn (GdnPrefixKey δ) :=
  if blockCount = 0 then
    .error (.valueError "GDN prefix key requires at least one complete block")
  else .ok (blockCount, digest)

/-- `make_prefix_key(block_count, block_hashes[block_count - 1])`. -/
def keyAt (blockHashes : List δ) (blockCount : ℕ) : Except Exn (GdnPrefixKey δ) :=
  match blockHashes[blockCount - 1]? with
  | some digest => makePrefixKey blockCount digest
  | none => .error .indexError

/-- `keys_from_block_hashes`. -/
def keysFromBlockHashes (blockHashes : List δ) : List (GdnPrefixKey δ) :=
  blockHashes.mapIdx fun i digest => (i + 1, digest)

/-- `strict_prefix_block_count`. -/
def strictPrefixBlockCount (tokenCount blockSize : ℕ) : Except Exn ℕ :=
  if blockSize = 0 then .error (.valueError "block_size must be positive")
  else if tokenCount ≤ 1 then .ok 0
  else .ok ((tokenCount - 1) / blockSize)

/-- `final_capture_key`. -/
def finalCaptureKey (blockHashes : List δ) (promptTokens blockSize : ℕ) (restoreMode : RestoreMode)
    (replayAlignment : ℕ) : Except Exn (Option (GdnPrefixKey δ)) :=
  match restoreMode with
  | .direct | .hybrid64 => do
    let blockCount := min blockHashes.length (← strictPrefixBlockCount promptTokens blockSize)
    let blockCount :=
      if 0 < blockCount ∧ promptTokens - blockCount * blockSize < gdnDirectMinReplayTokens then
        blockCount - 1
      else blockCount
    if blockCount = 0 then return none
    else return some (← keyAt blockHashes blockCount)
  | .chunk64 | .aligned =>
    if replayAlignment = 0 ∨ replayAlignment % blockSize ≠ 0 ∨ promptTokens ≤ 1 then return none
    else
      let boundaryTokens := (promptTokens - 1) / replayAlignment * replayAlignment
      let blockCount := min blockHashes.length (boundaryTokens / blockSize)
      if blockCount = 0 then return none
      else do return some (← keyAt blockHashes blockCount)

/-- `restore_key_is_eligible`. -/
def restoreKeyIsEligible [DecidableEq δ] (key : GdnPrefixKey δ) (promptTokens blockSize : ℕ)
    (restoreMode : RestoreMode) (replayAlignment : ℕ) (directFinalKey : Option (GdnPrefixKey δ)) :
    Except Exn Bool := do
  let _ ← makePrefixKey key.1 key.2
  raiseIf (blockSize = 0) (.valueError "block_size must be positive")
  let boundaryTokens := key.1 * blockSize
  let remainingTokens := promptTokens - boundaryTokens
  if remainingTokens = 0 then return false
  else
    match restoreMode with
    | .direct => return gdnDirectMinReplayTokens ≤ remainingTokens
    | .hybrid64 =>
      return gdnDirectMinReplayTokens ≤ remainingTokens ∧ 0 < replayAlignment ∧
        (boundaryTokens % replayAlignment = 0 ∨ some key = directFinalKey)
    | .chunk64 | .aligned =>
      return 0 < replayAlignment ∧ boundaryTokens % replayAlignment = 0

/-! ## Steps -/

/-- One round of `cap_prefill_end_at_capture_boundary`. -/
def capAt (logicalStartTokens blockSize cappedEnd : ℕ) (key : GdnPrefixKey δ) : Except Exn ℕ := do
  let _ ← makePrefixKey key.1 key.2
  let boundaryTokens := key.1 * blockSize
  return if logicalStartTokens < boundaryTokens ∧ boundaryTokens < cappedEnd then boundaryTokens
    else cappedEnd

/-- `cap_prefill_end_at_capture_boundary`. -/
def capPrefillEndAtCaptureBoundary (logicalStartTokens logicalEndTokens : ℕ)
    (targets : List (GdnPrefixKey δ)) (blockSize : ℕ) : Except Exn ℕ := do
  raiseIf (logicalEndTokens < logicalStartTokens)
    (.valueError "logical end must not precede logical start")
  raiseIf (blockSize = 0) (.valueError "block_size must be positive")
  targets.foldlM (capAt logicalStartTokens blockSize) logicalEndTokens

/-- A step reaches the boundary of a target. -/
def Reaches (physicalContextTokens logicalEndTokens blockSize : ℕ) (key : GdnPrefixKey δ) : Prop :=
  physicalContextTokens < key.1 * blockSize ∧ key.1 * blockSize ≤ logicalEndTokens

instance (start stop blockSize : ℕ) (key : GdnPrefixKey δ) :
    Decidable (Reaches start stop blockSize key) := inferInstanceAs (Decidable (_ ∧ _))

/-- `capture_points_for_step`. -/
def capturePointsForStep (targets : List (GdnPrefixKey δ)) (physicalContextTokens logicalEndTokens
    blockSize : ℕ) : Except Exn (List (ℕ × GdnPrefixKey δ)) :=
  if logicalEndTokens ≤ physicalContextTokens then return []
  else do
    let keys ← targets.mapM fun key => makePrefixKey key.1 key.2
    let reached := keys.filter fun key =>
      Reaches physicalContextTokens logicalEndTokens blockSize key
    let selected : Dict ℕ (GdnPrefixKey δ) := reached.foldl
      (fun selected key => selected.set (key.1 * blockSize - physicalContextTokens) key) .empty
    let points := selected.items.insertionSort (·.1 ≤ ·.1)
    raiseIf (2 < points.length)
      (.valueError "at most two GDN capture points are allowed per step")
    return points

/-- `range(start, stop, step)`. -/
def pyRange (start stop step : ℕ) : List ℕ :=
  (List.range ((stop - start + step - 1) / step)).map fun k => start + k * step

/-- `canonical_direct_segment_offsets`. -/
def canonicalDirectSegmentOffsets (blockHashes : List δ) (physicalContextTokens logicalEndTokens
    blockSize schedulerChunkTokens : ℕ) : Except Exn (List ℕ) := do
  raiseIf (blockSize = 0 ∨ schedulerChunkTokens = 0)
    (.valueError "block and scheduler chunk sizes must be positive")
  raiseIf (schedulerChunkTokens % blockSize ≠ 0)
    (.valueError "scheduler chunk size must be divisible by block size")
  if logicalEndTokens ≤ physicalContextTokens then return []
  else
    let stepEnds := pyRange schedulerChunkTokens logicalEndTokens schedulerChunkTokens
    let keys ← (stepEnds ++ [logicalEndTokens]).mapM fun stepEnd =>
      finalCaptureKey blockHashes stepEnd blockSize .direct blockSize
    let boundaries := keys.filterMap (·.map (·.1 * blockSize)) ++ stepEnds
    let inside := (boundaries.dedup.insertionSort (· ≤ ·)).filter fun boundary =>
      physicalContextTokens < boundary ∧ boundary < logicalEndTokens
    return inside.map (· - physicalContextTokens)

/-! ## What the functions return -/

theorem makePrefixKey_ok {blockCount : ℕ} {digest : δ} {key : GdnPrefixKey δ}
    (h : makePrefixKey blockCount digest = .ok key) : key = (blockCount, digest) ∧ 0 < blockCount := by
  unfold makePrefixKey at h
  split at h
  · cases h
  · next hpos => exact ⟨(Except.ok.inj h).symm, Nat.pos_of_ne_zero hpos⟩

/-- The blocks in front of the last token, one less if only one token would be left to replay. -/
def directBlockCount (tokens blockSize : ℕ) : ℕ :=
  let blockCount := (tokens - 1) / blockSize
  if 0 < blockCount ∧ tokens - blockCount * blockSize < gdnDirectMinReplayTokens then blockCount - 1
  else blockCount

theorem strictPrefixBlockCount_eq {tokens blockSize : ℕ} (hbs : 0 < blockSize) :
    strictPrefixBlockCount tokens blockSize = .ok ((tokens - 1) / blockSize) := by
  unfold strictPrefixBlockCount
  rw [if_neg (Nat.ne_of_gt hbs)]
  split
  · next h => rw [Nat.sub_eq_zero_of_le h, Nat.zero_div]
  · rfl

theorem keyAt_eq {blockHashes : List δ} {blockCount : ℕ} (hpos : 0 < blockCount)
    (hlt : blockCount - 1 < blockHashes.length) :
    keyAt blockHashes blockCount = .ok (blockCount, blockHashes[blockCount - 1]) := by
  unfold keyAt makePrefixKey
  rw [List.getElem?_eq_getElem hlt]
  exact if_neg (Nat.ne_of_gt hpos)

theorem directBlockCount_le {blockHashes : List δ} {tokens blockSize : ℕ}
    (henough : (tokens - 1) / blockSize ≤ blockHashes.length) :
    directBlockCount tokens blockSize ≤ blockHashes.length := by
  unfold directBlockCount
  dsimp only
  split
  · exact Nat.le_trans (Nat.sub_le _ _) henough
  · exact henough

/-- The key of the state that the direct mode captures for an end. -/
def directKey (blockHashes : List δ) (tokens blockSize : ℕ) : Option (GdnPrefixKey δ) :=
  let blockCount := directBlockCount tokens blockSize
  if blockCount = 0 then none else blockHashes[blockCount - 1]?.map (blockCount, ·)

theorem finalCaptureKey_direct {blockHashes : List δ} {tokens blockSize alignment : ℕ}
    (hbs : 0 < blockSize) (henough : (tokens - 1) / blockSize ≤ blockHashes.length) :
    finalCaptureKey blockHashes tokens blockSize .direct alignment
      = .ok (directKey blockHashes tokens blockSize) := by
  have hle := directBlockCount_le henough
  have heq : finalCaptureKey blockHashes tokens blockSize .direct alignment
      = if directBlockCount tokens blockSize = 0 then .ok none
        else do return some (← keyAt blockHashes (directBlockCount tokens blockSize)) := by
    unfold finalCaptureKey directBlockCount
    rw [strictPrefixBlockCount_eq hbs]
    simp only [bind, Except.bind, Nat.min_eq_right henough]
    rfl
  rw [heq]
  unfold directKey
  dsimp only
  split
  · rfl
  · next hne =>
    have hlt : directBlockCount tokens blockSize - 1 < blockHashes.length := by omega
    rw [keyAt_eq (Nat.pos_of_ne_zero hne) hlt, List.getElem?_eq_getElem hlt]
    rfl

/-- A captured state has the number of its blocks in its key. -/
theorem directKey_map {blockHashes : List δ} {tokens blockSize : ℕ}
    (henough : (tokens - 1) / blockSize ≤ blockHashes.length) {boundary : ℕ} :
    (directKey blockHashes tokens blockSize).map (·.1 * blockSize) = some boundary ↔
      directBlockCount tokens blockSize ≠ 0 ∧
        boundary = directBlockCount tokens blockSize * blockSize := by
  have hle := directBlockCount_le henough
  unfold directKey
  dsimp only
  split
  · next hzero =>
    constructor
    · intro h
      cases h
    · intro h
      exact absurd hzero h.1
  · next hne =>
    have hlt : directBlockCount tokens blockSize - 1 < blockHashes.length := by omega
    rw [List.getElem?_eq_getElem hlt, Option.map_some, Option.map_some, Option.some.injEq]
    exact ⟨fun h => ⟨hne, h.symm⟩, fun h => h.2.symm⟩

/-- `range` with its own step as its start: the multiples of the step. -/
theorem mem_pyRange {stop step x : ℕ} (hstep : 0 < step) :
    x ∈ pyRange step stop step ↔ 0 < x ∧ x < stop ∧ step ∣ x := by
  unfold pyRange
  rw [List.mem_map]
  constructor
  · rintro ⟨k, hk, rfl⟩
    have hk' := (Nat.lt_div_iff_mul_lt hstep).mp (List.mem_range.mp hk)
    have hcomm := Nat.mul_comm k step
    refine ⟨by omega, by omega, ?_⟩
    exact Nat.dvd_add (Nat.dvd_refl step) (Nat.dvd_mul_left step k)
  · rintro ⟨hpos, hlt, k, rfl⟩
    obtain ⟨k, rfl⟩ := Nat.exists_eq_add_one_of_ne_zero
      (Nat.ne_of_gt (Nat.pos_of_mul_pos_left hpos))
    have hmul : step * (k + 1) = step * k + step := Nat.mul_succ step k
    have hcomm := Nat.mul_comm k step
    refine ⟨k, List.mem_range.mpr ((Nat.lt_div_iff_mul_lt hstep).mpr ?_), ?_⟩
    · omega
    · rw [hmul, Nat.mul_comm step k, Nat.add_comm]

/-- A step ends at its old end or at the boundary of a target inside it. -/
theorem capPrefillEndAtCaptureBoundary_ok {targets : List (GdnPrefixKey δ)}
    {start stop blockSize capped : ℕ}
    (h : capPrefillEndAtCaptureBoundary start stop targets blockSize = .ok capped)
    (hlt : start < stop) :
    start < capped ∧ capped ≤ stop ∧ (capped = stop ∨ blockSize ∣ capped) := by
  obtain ⟨-, -, h⟩ := bind_eq_ok.mp h
  obtain ⟨-, -, h⟩ := bind_eq_ok.mp h
  refine foldlM_ok (I := fun cappedEnd => start < cappedEnd ∧ cappedEnd ≤ stop ∧
    (cappedEnd = stop ∨ blockSize ∣ cappedEnd)) ?_ ⟨hlt, Nat.le_refl _, .inl rfl⟩ h
  intro cappedEnd key next _ hinv hnext
  obtain ⟨-, -, hnext⟩ := bind_eq_ok.mp hnext
  obtain rfl := Except.ok.inj hnext
  split
  · next hinside => exact ⟨hinside.1, by omega, .inr (Nat.dvd_mul_left _ _)⟩
  · exact hinv

end Ikun.GdnPrefix
