import Mathlib.Order.MinMax
import Ikun.Basic
import Ikun.Lib.Dict
import Ikun.Lib.Except

/-!
# Captured graphs of decode steps

`ModelExecutor` runs a decode step with a graph that was captured for a padded batch size. The sizes that
the warmup captures, the size that a step is padded to and the sizes that the executor accepts come
from different formulas: `_decode_graph_buckets`, `_decode_bucket` and `can_execute`.

`decodeGraphs_iff` says how far they agree. A step of up to eight rows is padded to 8, and the graph under
that key is the one for a batch of 1, which the warmup captures last; a larger step has its graph when
the capacity is at least the padded size. The other backend has a `can_execute` that does not take the
arguments which the executor passes.
-/

namespace Ikun.Forward

open Except

/-! ## Buckets -/

/-- `_decode_bucket`. -/
def decodeBucket (batchSize : ℕ) : ℕ :=
  if batchSize ≤ 0 then 1
  else if batchSize ≤ 8 then 8
  else (batchSize + 15) / 16 * 16

/-- The multiples of 16 up to `n`, as `range(16, n + 1, 16)`. -/
def multiplesOf16 (n : ℕ) : List ℕ := List.range' 16 (n / 16) 16

/-- `ceil(max_batch / dp_size)`. -/
def perReplica (maxBatch dpSize : ℕ) : ℕ := (maxBatch + dpSize - 1) / dpSize

/-- `_decode_graph_buckets`. -/
def decodeGraphBuckets (maxBatch dpSize : ℕ) : List ℕ :=
  let maxGraphBatch := min (decodeBucket (perReplica maxBatch dpSize)) maxBatch
  [1, 2, 4, 8].filter (· ≤ maxGraphBatch) ++ multiplesOf16 maxGraphBatch

/-! ## The CUDA graph runner -/

/-- `_DecodeGraphEntry`. Its static inputs have `batch_size` rows. -/
structure DecodeGraphEntry where
  batchSize : ℕ
  deriving DecidableEq

/-- `DecodeCudaGraphRunner`. -/
structure DecodeCudaGraphRunner where
  maxBatch : ℕ
  dpSize : ℕ
  dpRank : ℕ
  graphs : Dict (ℕ × List ℕ) DecodeGraphEntry := .empty
  warmedUp : Bool := false

namespace DecodeCudaGraphRunner

variable (runner : DecodeCudaGraphRunner)

def buckets : List ℕ := decodeGraphBuckets runner.maxBatch runner.dpSize

/-- `graph_key`, for `input_ids` with this many rows. -/
def graphKey (inputRows : ℕ) (dpTokenCounts dpIsDecode : Option (List ℤ)) :
    Except Exn (Option (ℕ × List ℕ)) := do
  let maxGraphBatch := runner.buckets.getLast?.getD 0
  if runner.dpSize = 1 then
    let padded := decodeBucket inputRows
    return if maxGraphBatch < padded then none else some (padded, [padded])
  else
    match dpTokenCounts with
    | none => return none
    | some counts =>
      raiseIf (counts.length ≠ runner.dpSize)
        (.runtimeError "DP decode step requires valid dp_token_counts")
      if (dpIsDecode.getD []).any (· = 0) then return none
      else
        raiseIf (counts.any (· < 0)) (.runtimeError "dp_token_counts contains negative value")
        raiseIf ((inputRows : ℤ) < counts.getD runner.dpRank 0)
          (.runtimeError "dp_token_counts exceeds local input_ids size")
        let globalBatch := max (counts.max?.getD 0) inputRows
        let padded := decodeBucket globalBatch.toNat
        return if maxGraphBatch < padded then none
          else some (padded, List.replicate runner.dpSize padded)

/-- `can_execute`. -/
def canExecute (inputRows : ℕ) (dpTokenCounts dpIsDecode : Option (List ℤ)) : Except Exn Bool := do
  return (← runner.graphKey inputRows dpTokenCounts dpIsDecode).isSome

/-- A round of the warmup. -/
def capture (graphs : Dict (ℕ × List ℕ) DecodeGraphEntry) (batchSize : ℕ) :
    Except Exn (Dict (ℕ × List ℕ) DecodeGraphEntry) := do
  match ← runner.graphKey batchSize (some (List.replicate runner.dpSize (batchSize : ℤ)))
    (some (List.replicate runner.dpSize 1)) with
  | some key => return graphs.set key ⟨batchSize⟩
  | none => return graphs

/-- `warmup`. -/
def warmup : Except Exn DecodeCudaGraphRunner := do
  if runner.warmedUp then return runner
  else
    let graphs ← runner.buckets.reverse.foldlM runner.capture runner.graphs
    return { runner with graphs, warmedUp := true }

end DecodeCudaGraphRunner

/-! ## The ACL graph runner -/

/-- `DecodeAclGraphRunner`. Its `max_batch` is that of a replica. -/
structure DecodeAclGraphRunner where
  dpSize : ℕ
  dpRank : ℕ
  maxBatch : ℕ
  numDecodingTokens : ℕ
  /-- The captured sizes. -/
  graphs : List ℕ := []
  warmedUp : Bool := false

namespace DecodeAclGraphRunner

variable (runner : DecodeAclGraphRunner)

/-- `batch_sizes` in `warmup`. -/
def batchSizes : List ℕ :=
  ([1, 2, 4, 8] ++ multiplesOf16 runner.maxBatch).filter (· ≤ runner.maxBatch)

/-- `warmup`. -/
def warmup : DecodeAclGraphRunner :=
  if runner.warmedUp then runner
  else { runner with
    graphs := runner.batchSizes.reverse.map (· * runner.numDecodingTokens)
    warmedUp := true }

/-- `can_execute`. -/
def canExecute (inputRows : ℕ) (dpTokenCounts : Option (List ℤ)) : Except Exn Bool := do
  if ¬ runner.warmedUp then return false
  else
    raiseIf (1 < runner.dpSize ∧ (dpTokenCounts.map List.length) ≠ some runner.dpSize)
      (.runtimeError "ACL graph DP replay requires dp_token_counts")
    return inputRows ≤ runner.maxBatch * runner.numDecodingTokens

end DecodeAclGraphRunner

/-! ## The executor -/

/-- The graph runner of an executor. -/
inductive GraphRunner
  | cudagraphs (runner : DecodeCudaGraphRunner)
  | aclgraph (runner : DecodeAclGraphRunner)

namespace GraphRunner

/-- The keyword arguments that `can_execute` takes. -/
def keywords : GraphRunner → List String
  | cudagraphs _ => ["dp_token_counts", "dp_is_decode"]
  | aclgraph _ => ["dp_token_counts"]

/-- The call of `can_execute` in `execute`, which passes both keyword arguments; `dp_is_decode` is `None`
for a runner without a `graph_key`. -/
def callCanExecute (runner : GraphRunner) (inputRows : ℕ)
    (dpTokenCounts dpIsDecode : Option (List ℤ)) : Except Exn Bool := do
  raiseIf (¬ ∀ keyword ∈ ["dp_token_counts", "dp_is_decode"], keyword ∈ runner.keywords)
    (.typeError "can_execute() got an unexpected keyword argument 'dp_is_decode'")
  match runner with
  | cudagraphs runner => runner.canExecute inputRows dpTokenCounts dpIsDecode
  | aclgraph runner => runner.canExecute inputRows dpTokenCounts

def warmup : GraphRunner → Except Exn GraphRunner
  | cudagraphs runner => return .cudagraphs (← runner.warmup)
  | aclgraph runner => return .aclgraph runner.warmup

end GraphRunner

/-- `ModelExecutor`. -/
structure ModelExecutor where
  kvBound : Bool
  decodeGraphRunner : Option GraphRunner

namespace ModelExecutor

/-- An executor with the `cudagraphs` backend, whose caches are bound. -/
def cudagraphs (maxSeqsPerBatch dpSize dpRank : ℕ) : ModelExecutor :=
  ⟨true, some (.cudagraphs { maxBatch := maxSeqsPerBatch, dpSize, dpRank })⟩

/-- The runner of the `aclgraph` backend. -/
def aclRunner (maxSeqsPerBatch dpSize dpRank : ℕ) (numDecodingTokens : ℕ := 1)
    (aclGraphDecodeBatchSizeLimit : Option ℕ := none) : DecodeAclGraphRunner :=
  let numDecodingTokens := max 1 numDecodingTokens
  let graphSequenceCapacity := match aclGraphDecodeBatchSizeLimit with
    | none => maxSeqsPerBatch
    | some limit => min maxSeqsPerBatch (max 1 limit)
  let maxGraphTokens := graphSequenceCapacity * numDecodingTokens
  { dpSize, dpRank, maxBatch := perReplica maxGraphTokens dpSize, numDecodingTokens }

/-- An executor with the `aclgraph` backend, whose caches are bound. -/
def aclgraph (maxSeqsPerBatch dpSize dpRank : ℕ) (numDecodingTokens : ℕ := 1)
    (aclGraphDecodeBatchSizeLimit : Option ℕ := none) : ModelExecutor :=
  ⟨true, some (.aclgraph
    (aclRunner maxSeqsPerBatch dpSize dpRank numDecodingTokens aclGraphDecodeBatchSizeLimit))⟩

/-- `execute`, up to the call of the model: the executor that runs it. -/
def execute (executor : ModelExecutor) (inputRows : ℕ)
    (dpTokenCounts dpIsDecode : Option (List ℤ)) : Except Exn ModelExecutor := do
  raiseIf (¬ executor.kvBound) (.runtimeError "KV caches are not bound")
  match executor.decodeGraphRunner with
  | none => return executor
  | some runner =>
    let canRun ← runner.callCanExecute inputRows dpTokenCounts dpIsDecode
    raiseIf (¬ canRun) (.runtimeError "cannot execute batch")
    return { executor with decodeGraphRunner := some (← runner.warmup) }

end ModelExecutor

/-! ## The buckets of a replica -/

theorem mem_multiplesOf16 {n b : ℕ} : b ∈ multiplesOf16 n ↔ 16 ≤ b ∧ b ≤ n ∧ b % 16 = 0 := by
  unfold multiplesOf16
  rw [List.mem_range']
  constructor
  · rintro ⟨i, hi, rfl⟩
    omega
  · rintro ⟨h16, hn, hmod⟩
    exact ⟨b / 16 - 1, by omega, by omega⟩

theorem mem_decodeGraphBuckets {maxBatch dpSize b : ℕ} : b ∈ decodeGraphBuckets maxBatch dpSize ↔
    (b ∈ [1, 2, 4, 8] ∨ 16 ≤ b ∧ b % 16 = 0) ∧
      b ≤ min (decodeBucket (perReplica maxBatch dpSize)) maxBatch := by
  unfold decodeGraphBuckets
  rw [List.mem_append, List.mem_filter, mem_multiplesOf16, decide_eq_true_eq]
  tauto

theorem pairwise_decodeGraphBuckets (maxBatch dpSize : ℕ) :
    (decodeGraphBuckets maxBatch dpSize).Pairwise (· < ·) := by
  refine List.pairwise_append.mpr ⟨?_, List.pairwise_lt_range' 16, ?_⟩
  · exact (by decide : [1, 2, 4, 8].Pairwise (· < ·)).filter _
  · intro a ha b hb
    have hsmall : ∀ a ∈ [1, 2, 4, 8], a < 16 := by decide
    exact (hsmall a (List.mem_filter.mp ha).1).trans_le (mem_multiplesOf16.mp hb).1

/-- The largest element of a sorted list is its last one. -/
theorem le_getLast?_getD {l : List ℕ} (hl : l.Pairwise (· < ·)) {b : ℕ} (hb : b ∈ l) :
    b ≤ l.getLast?.getD 0 := by
  cases hlast : l.getLast? with
  | none => exact absurd (List.getLast?_eq_none_iff.mp hlast ▸ hb) List.not_mem_nil
  | some last =>
    obtain ⟨front, rfl⟩ := List.getLast?_eq_some_iff.mp hlast
    cases List.mem_append.mp hb with
    | inl hfront =>
      exact Nat.le_of_lt ((List.pairwise_append.mp hl).2.2 b hfront last List.mem_cons_self)
    | inr hb => exact Nat.le_of_eq (List.mem_singleton.mp hb)

/-- A captured size is at most the largest bucket when it is at most the capacity. -/
theorem le_lastBucket_iff {maxBatch dpSize b : ℕ} (hpos : 0 < b)
    (hb : b ∈ [1, 2, 4, 8] ∨ 16 ≤ b ∧ b % 16 = 0) :
    b ≤ (decodeGraphBuckets maxBatch dpSize).getLast?.getD 0 ↔
      b ≤ min (decodeBucket (perReplica maxBatch dpSize)) maxBatch := by
  constructor
  · intro h
    cases hlast : (decodeGraphBuckets maxBatch dpSize).getLast? with
    | none =>
      rw [hlast] at h
      exact absurd h (Nat.not_le.mpr hpos)
    | some last =>
      rw [hlast] at h
      exact h.trans (mem_decodeGraphBuckets.mp (List.mem_of_getLast? hlast)).2
  · intro h
    exact le_getLast?_getD (pairwise_decodeGraphBuckets maxBatch dpSize)
      (mem_decodeGraphBuckets.mpr ⟨hb, h⟩)

theorem decodeBucket_of_le {n : ℕ} (hpos : 0 < n) (h : n ≤ 8) : decodeBucket n = 8 := by
  rw [decodeBucket, if_neg (Nat.not_le.mpr hpos), if_pos h]

theorem decodeBucket_of_gt {n : ℕ} (h : 8 < n) : decodeBucket n = (n + 15) / 16 * 16 := by
  rw [decodeBucket, if_neg (by omega), if_neg (Nat.not_le.mpr h)]

/-- A step is padded to 8 rows or a multiple of 16. -/
theorem decodeBucket_mem {n : ℕ} (hpos : 0 < n) :
    decodeBucket n ∈ [1, 2, 4, 8] ∨ 16 ≤ decodeBucket n ∧ decodeBucket n % 16 = 0 := by
  cases Nat.lt_or_ge 8 n with
  | inl h =>
    rw [decodeBucket_of_gt h]
    exact .inr ⟨by omega, Nat.mul_mod_left _ _⟩
  | inr h =>
    rw [decodeBucket_of_le hpos h]
    exact .inl (by decide)

theorem decodeBucket_pos {n : ℕ} (hpos : 0 < n) : 0 < decodeBucket n := by
  cases decodeBucket_mem hpos with
  | inl h =>
    have hall : ∀ b ∈ [1, 2, 4, 8], 0 < b := by decide
    exact hall _ h
  | inr h => exact Nat.lt_of_lt_of_le (by decide) h.1

theorem decodeBucket_mono {n m : ℕ} (hpos : 0 < n) (h : n ≤ m) :
    decodeBucket n ≤ decodeBucket m := by
  cases Nat.lt_or_ge 8 n with
  | inl hn =>
    rw [decodeBucket_of_gt hn, decodeBucket_of_gt (hn.trans_le h)]
    exact Nat.mul_le_mul_right _ (Nat.div_le_div_right (Nat.add_le_add_right h _))
  | inr hn =>
    rw [decodeBucket_of_le hpos hn]
    cases Nat.lt_or_ge 8 m with
    | inl hm =>
      rw [decodeBucket_of_gt hm]
      omega
    | inr hm => rw [decodeBucket_of_le (hpos.trans_le h) hm]

theorem perReplica_of_zero {maxBatch dpSize : ℕ} (hdp : 0 < dpSize) (hzero : maxBatch = 0) :
    perReplica maxBatch dpSize = 0 := by
  rw [perReplica, hzero, Nat.zero_add]
  exact Nat.div_eq_of_lt (Nat.sub_lt hdp Nat.one_pos)

/-- A step within the capacity of a replica is padded to a captured size when that size is at most the
capacity of the group. -/
theorem decodeBucket_le_lastBucket_iff {maxBatch dpSize n : ℕ} (hpos : 0 < n)
    (hn : n ≤ perReplica maxBatch dpSize) :
    decodeBucket n ≤ (decodeGraphBuckets maxBatch dpSize).getLast?.getD 0 ↔
      decodeBucket n ≤ maxBatch := by
  rw [le_lastBucket_iff (decodeBucket_pos hpos) (decodeBucket_mem hpos), le_min_iff]
  exact and_iff_right (decodeBucket_mono hpos hn)

/-! ## Keys and captured graphs -/

namespace DecodeCudaGraphRunner

variable {runner : DecodeCudaGraphRunner}

variable (runner) in
/-- The key of a step whose largest local batch is `n`. -/
def keyOf (n : ℕ) : Option (ℕ × List ℕ) :=
  if runner.buckets.getLast?.getD 0 < decodeBucket n then none
  else some (decodeBucket n, List.replicate runner.dpSize (decodeBucket n))

theorem max?_map_cast {counts : List ℕ} {n : ℕ} (hmax : counts.max? = some n) :
    (counts.map (Nat.cast : ℕ → ℤ)).max? = some (n : ℤ) := by
  obtain ⟨hmem, hle⟩ := List.max?_eq_some_iff.mp hmax
  refine List.max?_eq_some_iff.mpr ⟨List.mem_map_of_mem hmem, fun b hb => ?_⟩
  obtain ⟨count, hcount, rfl⟩ := List.mem_map.mp hb
  exact Int.ofNat_le.mpr (hle count hcount)

/-- The ranks of a step agree on its key. -/
theorem graphKey_eq {counts : List ℕ} {n rows : ℕ} {flags : Option (List ℤ)}
    (hsize : counts.length = runner.dpSize) (hmax : counts.max? = some n)
    (hrows : counts[runner.dpRank]? = some rows) (hflags : ∀ flag ∈ flags.getD [], flag ≠ 0) :
    runner.graphKey rows (some (counts.map Nat.cast)) flags = .ok (runner.keyOf n) := by
  have hle : rows ≤ n := (List.max?_eq_some_iff.mp hmax).2 rows (List.mem_of_getElem? hrows)
  unfold graphKey keyOf
  cases Nat.decEq runner.dpSize 1 with
  | isTrue hone =>
    obtain ⟨count, rfl⟩ := List.length_eq_one_iff.mp (hsize.trans hone)
    obtain rfl : count = n := Option.some.inj hmax
    obtain rfl : count = rows :=
      (List.mem_singleton.mp (List.mem_of_getElem? hrows)).symm
    rw [hone]
    rfl
  | isFalse hmany =>
    have hdecode : (flags.getD []).any (fun flag => decide (flag = 0)) = false :=
      List.any_eq_false.mpr fun flag hflag => by simpa using hflags flag hflag
    have hnonneg : (counts.map (Nat.cast : ℕ → ℤ)).any (fun count => decide (count < 0)) = false :=
      List.any_eq_false.mpr fun count hcount => by
        obtain ⟨c, -, rfl⟩ := List.mem_map.mp hcount
        simp
    have hrank : (counts.map (Nat.cast : ℕ → ℤ)).getD runner.dpRank 0 = rows := by
      rw [List.getD_eq_getElem?_getD, List.getElem?_map, hrows]
      rfl
    have hglobal : max ((counts.map (Nat.cast : ℕ → ℤ)).max?.getD 0) (rows : ℤ) = n := by
      rw [max?_map_cast hmax, Option.getD_some]
      exact max_eq_left (Int.ofNat_le.mpr hle)
    rw [if_neg hmany]
    refine (raiseIf_bind (not_not.mpr ((List.length_map _).trans hsize))).trans ?_
    simp only [hdecode, hnonneg, hrank, hglobal, Bool.false_eq_true, if_false]
    rw [raiseIf_bind not_false, raiseIf_bind (Int.lt_irrefl _)]
    rfl

/-- The graphs that the warmup has captured after the sizes in the list, the last one first. -/
def captured (runner : DecodeCudaGraphRunner) : List ℕ → Dict (ℕ × List ℕ) DecodeGraphEntry
  | [] => .empty
  | batchSize :: rest => match runner.keyOf batchSize with
    | some key => (captured runner rest).set key ⟨batchSize⟩
    | none => captured runner rest

theorem capture_eq (hrank : runner.dpRank < runner.dpSize)
    (graphs : Dict (ℕ × List ℕ) DecodeGraphEntry) (batchSize : ℕ) :
    runner.capture graphs batchSize = .ok (match runner.keyOf batchSize with
      | some key => graphs.set key ⟨batchSize⟩
      | none => graphs) := by
  have hmax : (List.replicate runner.dpSize batchSize).max? = some batchSize :=
    List.max?_replicate_of_pos (Nat.zero_lt_of_lt hrank)
  have hflags : ∀ flag ∈ (some (List.replicate runner.dpSize (1 : ℤ))).getD [], flag ≠ 0 := by
    intro flag hflag
    rw [List.eq_of_mem_replicate hflag]
    decide
  have hkey := graphKey_eq List.length_replicate hmax (List.getElem?_replicate_of_lt hrank) hflags
  rw [List.map_replicate] at hkey
  unfold capture
  rw [hkey]
  cases runner.keyOf batchSize <;> rfl

theorem foldlM_capture (hrank : runner.dpRank < runner.dpSize) (sizes : List ℕ) :
    sizes.reverse.foldlM runner.capture .empty = .ok (runner.captured sizes) := by
  induction sizes with
  | nil => rfl
  | cons batchSize rest ih =>
    rw [List.reverse_cons, List.foldlM_append, ih]
    refine bind_eq_ok.mpr ⟨_, rfl, ?_⟩
    rw [List.foldlM_cons, capture_eq hrank]
    rfl

/-- Of the sizes with the same key, the smallest one is captured last. -/
theorem get?_captured (sizes : List ℕ) (key : ℕ × List ℕ) : (runner.captured sizes).get? key =
    (sizes.find? fun batchSize => runner.keyOf batchSize = some key).map (⟨·⟩) := by
  induction sizes with
  | nil => rfl
  | cons batchSize rest ih =>
    rw [captured, List.find?_cons]
    cases hkey : runner.keyOf batchSize with
    | none => simpa using ih
    | some key' =>
      rw [Dict.get?_set, ih]
      by_cases heq : key = key'
      · simp [heq]
      · simp [heq, Ne.symm heq]

theorem warmup_eq (hrank : runner.dpRank < runner.dpSize) (hnew : runner.warmedUp = false)
    (hgraphs : runner.graphs = .empty) : runner.warmup =
      .ok { runner with graphs := runner.captured runner.buckets, warmedUp := true } := by
  unfold warmup
  rw [hnew, if_neg Bool.false_ne_true, hgraphs, foldlM_capture hrank]
  rfl

theorem keyOf_eq_some {n : ℕ} {key : ℕ × List ℕ} : runner.keyOf n = some key ↔
    decodeBucket n ≤ runner.buckets.getLast?.getD 0 ∧
      (decodeBucket n, List.replicate runner.dpSize (decodeBucket n)) = key := by
  unfold keyOf
  split
  · next hlt => exact ⟨fun h => (nomatch h), fun h => absurd h.1 (Nat.not_le.mpr hlt)⟩
  · next hle => exact ⟨fun h => ⟨Nat.not_lt.mp hle, Option.some.inj h⟩, fun h => congrArg _ h.2⟩

/-- The key of a step of up to eight rows has the graph for a batch of 1. -/
theorem get?_captured_small {n : ℕ} {key : ℕ × List ℕ} (hpos : 0 < n) (hn : n ≤ 8)
    (hmax : 0 < runner.maxBatch) (hkey : runner.keyOf n = some key) :
    (runner.captured runner.buckets).get? key = some ⟨1⟩ := by
  obtain ⟨hle, rfl⟩ := keyOf_eq_some.mp hkey
  have hone : runner.keyOf 1 =
      some (decodeBucket n, List.replicate runner.dpSize (decodeBucket n)) := by
    rw [decodeBucket_of_le hpos hn] at hle ⊢
    exact keyOf_eq_some.mpr ⟨hle, rfl⟩
  have hcapacity : 1 ≤ min (decodeBucket (perReplica runner.maxBatch runner.dpSize))
      runner.maxBatch := by
    refine le_min ?_ hmax
    unfold decodeBucket
    split
    · exact Nat.le_refl 1
    · split
      · decide
      · omega
  obtain ⟨rest, hrest⟩ : ∃ rest, runner.buckets = 1 :: rest := by
    dsimp only [buckets, decodeGraphBuckets]
    rw [List.filter_cons_of_pos (by simpa using hcapacity)]
    exact ⟨_, rfl⟩
  rw [get?_captured, hrest, List.find?_cons_of_pos (by simpa using hone)]
  rfl

/-- The key of a larger step has the graph for its padded size. -/
theorem get?_captured_large {n : ℕ} {key : ℕ × List ℕ} (hn : 8 < n)
    (hkey : runner.keyOf n = some key) :
    (runner.captured runner.buckets).get? key = some ⟨key.1⟩ := by
  obtain ⟨hle, rfl⟩ := keyOf_eq_some.mp hkey
  have hbucket := decodeBucket_of_gt hn
  have hpad : decodeBucket (decodeBucket n) = decodeBucket n := by
    rw [decodeBucket_of_gt (by omega)]
    omega
  have hmem : decodeBucket n ∈ runner.buckets :=
    mem_decodeGraphBuckets.mpr ⟨decodeBucket_mem (by omega),
      (le_lastBucket_iff (decodeBucket_pos (by omega)) (decodeBucket_mem (by omega))).mp hle⟩
  have hown : runner.keyOf (decodeBucket n) =
      some (decodeBucket n, List.replicate runner.dpSize (decodeBucket n)) :=
    keyOf_eq_some.mpr ⟨by rw [hpad]; exact hle, by rw [hpad]⟩
  rw [get?_captured]
  cases hfind : runner.buckets.find? fun batchSize => runner.keyOf batchSize =
      some (decodeBucket n, List.replicate runner.dpSize (decodeBucket n)) with
  | none => exact absurd (by simpa using hown) (List.find?_eq_none.mp hfind _ hmem)
  | some batchSize =>
    have hfound : runner.keyOf batchSize = some (decodeBucket n, List.replicate runner.dpSize
        (decodeBucket n)) := by simpa using List.find?_some hfind
    obtain ⟨-, hsame⟩ := keyOf_eq_some.mp hfound
    have hbatch : decodeBucket batchSize = decodeBucket n := (Prod.mk.inj hsame).1
    cases (mem_decodeGraphBuckets.mp (List.mem_of_find?_eq_some hfind)).1 with
    | inl hsmall =>
      -- The small sizes are padded to 8.
      have height : ∀ b ∈ [1, 2, 4, 8], decodeBucket b = 8 := by decide
      have := height batchSize hsmall
      omega
    | inr hmultiple =>
      have hself : decodeBucket batchSize = batchSize := by
        rw [decodeBucket_of_gt (by omega)]
        omega
      rw [Option.map_some, ← hself, hbatch]

end DecodeCudaGraphRunner

/-! ## Steps within capacity -/

/-- A decode step of all ranks, whose local batches are within the capacity of a replica. -/
structure DecodeStep (maxSeqsPerBatch : ℕ) where
  /-- `dp_token_counts`: the rows of each rank. -/
  counts : List ℕ
  /-- `dp_is_decode`. -/
  flags : Option (List ℤ)
  nonempty : counts ≠ []
  within : ∀ rows ∈ counts, 1 ≤ rows ∧ rows ≤ perReplica maxSeqsPerBatch counts.length
  decode : ∀ flag ∈ flags.getD [], flag ≠ 0

namespace DecodeStep

variable {maxSeqsPerBatch : ℕ} (step : DecodeStep maxSeqsPerBatch)

def dpSize : ℕ := step.counts.length

/-- `dp_token_counts` as the metadata holds it. -/
def tokenCounts : Option (List ℤ) := some (step.counts.map Nat.cast)

/-- The largest local batch. -/
def largest : ℕ := step.counts.max?.getD 0

/-- The step with the `cudagraphs` backend: every rank runs it with the graph under one key, and that
graph has the padded size of the key. -/
def CudagraphsServe : Prop :=
  ∃ key : ℕ × List ℕ, ∀ dpRank rows, step.counts[dpRank]? = some rows → ∃ runner,
    (ModelExecutor.cudagraphs maxSeqsPerBatch step.dpSize dpRank).execute rows step.tokenCounts
        step.flags = .ok ⟨true, some (.cudagraphs runner)⟩ ∧
      runner.graphKey rows step.tokenCounts step.flags = .ok (some key) ∧
      runner.graphs.get? key = some ⟨key.1⟩

/-- Every rank runs the step with the `aclgraph` backend. -/
def AclgraphExecutes : Prop :=
  ∀ dpRank rows, step.counts[dpRank]? = some rows → ∃ executor,
    (ModelExecutor.aclgraph maxSeqsPerBatch step.dpSize dpRank).execute rows step.tokenCounts
      step.flags = .ok executor

/-- A rank whose runner accepts its batch after the warmup has a graph with enough rows. -/
def AclgraphCovers : Prop :=
  ∀ dpRank rows, step.counts[dpRank]? = some rows →
    let runner := (ModelExecutor.aclRunner maxSeqsPerBatch step.dpSize dpRank).warmup
    runner.canExecute rows step.tokenCounts = .ok true → ∃ size ∈ runner.graphs, rows ≤ size

/-- Both backends serve the step. -/
def Served : Prop :=
  step.CudagraphsServe ∧ step.AclgraphExecutes ∧ step.AclgraphCovers

variable {step}

theorem max?_eq : step.counts.max? = some step.largest := by
  unfold largest
  cases hmax : step.counts.max? with
  | none => exact absurd (List.max?_eq_none_iff.mp hmax) step.nonempty
  | some n => rfl

theorem largest_mem : step.largest ∈ step.counts := (List.max?_eq_some_iff.mp max?_eq).1

theorem le_largest {rows : ℕ} (hrows : rows ∈ step.counts) : rows ≤ step.largest :=
  (List.max?_eq_some_iff.mp max?_eq).2 rows hrows

theorem largest_pos : 0 < step.largest := (step.within _ largest_mem).1

theorem largest_le : step.largest ≤ perReplica maxSeqsPerBatch step.dpSize :=
  (step.within _ largest_mem).2

theorem maxSeqsPerBatch_pos (step : DecodeStep maxSeqsPerBatch) : 0 < maxSeqsPerBatch := by
  have hdp : 0 < step.dpSize := List.length_pos_iff.mpr step.nonempty
  have hcapacity : 0 < perReplica maxSeqsPerBatch step.dpSize := largest_pos.trans_le largest_le
  exact Nat.pos_of_ne_zero fun hzero =>
    Nat.lt_irrefl 0 (hcapacity.trans_eq (by rw [perReplica_of_zero hdp hzero]))

/-- The rank that has the largest batch. -/
theorem exists_largest : ∃ dpRank : ℕ, step.counts[dpRank]? = some step.largest :=
  List.mem_iff_getElem?.mp largest_mem

theorem rank_lt {dpRank rows : ℕ} (hrows : step.counts[dpRank]? = some rows) :
    dpRank < step.dpSize :=
  (List.getElem?_eq_some_iff.mp hrows).1

variable (step) in
/-- The runner of a rank before its first step. -/
def newRunner (dpRank : ℕ) : DecodeCudaGraphRunner :=
  { maxBatch := maxSeqsPerBatch, dpSize := step.dpSize, dpRank }

variable (step) in
/-- The runner of a rank after the warmup. -/
def warmRunner (dpRank : ℕ) : DecodeCudaGraphRunner :=
  { step.newRunner dpRank with
    graphs := (step.newRunner dpRank).captured (step.newRunner dpRank).buckets, warmedUp := true }

/-- Every rank computes the key of the largest local batch. -/
theorem graphKey_newRunner {dpRank rows : ℕ} (hrows : step.counts[dpRank]? = some rows) :
    (step.newRunner dpRank).graphKey rows step.tokenCounts step.flags =
      .ok ((step.newRunner dpRank).keyOf step.largest) :=
  DecodeCudaGraphRunner.graphKey_eq rfl max?_eq hrows step.decode

theorem graphKey_warmRunner {dpRank rows : ℕ} (hrows : step.counts[dpRank]? = some rows) :
    (step.warmRunner dpRank).graphKey rows step.tokenCounts step.flags =
      .ok ((step.newRunner dpRank).keyOf step.largest) := graphKey_newRunner hrows

theorem keyOf_newRunner {dpRank : ℕ} : (step.newRunner dpRank).keyOf step.largest =
    if decodeBucket step.largest ≤ maxSeqsPerBatch then
      some (decodeBucket step.largest, List.replicate step.dpSize (decodeBucket step.largest))
    else none := by
  have hiff := decodeBucket_le_lastBucket_iff step.largest_pos step.largest_le
  cases Nat.lt_or_ge maxSeqsPerBatch (decodeBucket step.largest) with
  | inl hlt =>
    rw [if_neg (Nat.not_le.mpr hlt)]
    exact if_pos (Nat.lt_of_not_le fun hle => Nat.not_le.mpr hlt (hiff.mp hle))
  | inr hle =>
    rw [if_pos hle]
    exact if_neg (Nat.not_lt.mpr (hiff.mpr hle))

/-- `execute` raises when the padded size is larger than the capacity of the group. -/
theorem execute_cudagraphs {dpRank rows : ℕ} (hrows : step.counts[dpRank]? = some rows) :
    (ModelExecutor.cudagraphs maxSeqsPerBatch step.dpSize dpRank).execute rows step.tokenCounts
        step.flags =
      if decodeBucket step.largest ≤ maxSeqsPerBatch then
        .ok ⟨true, some (.cudagraphs (step.warmRunner dpRank))⟩
      else .error (.runtimeError "cannot execute batch") := by
  have hwarm : (step.newRunner dpRank).warmup = .ok (step.warmRunner dpRank) :=
    DecodeCudaGraphRunner.warmup_eq (rank_lt hrows) rfl rfl
  have hcan : (step.newRunner dpRank).canExecute rows step.tokenCounts step.flags =
      .ok (decide (decodeBucket step.largest ≤ maxSeqsPerBatch)) := by
    unfold DecodeCudaGraphRunner.canExecute
    rw [graphKey_newRunner hrows, keyOf_newRunner]
    cases Nat.decLe (decodeBucket step.largest) maxSeqsPerBatch <;> rfl
  have hcall : (GraphRunner.cudagraphs (step.newRunner dpRank)).callCanExecute rows step.tokenCounts
      step.flags = .ok (decide (decodeBucket step.largest ≤ maxSeqsPerBatch)) := hcan
  unfold ModelExecutor.execute ModelExecutor.cudagraphs
  refine (raiseIf_bind (not_not.mpr rfl)).trans ?_
  refine (congrArg (· >>= _) hcall).trans ?_
  cases Nat.lt_or_ge maxSeqsPerBatch (decodeBucket step.largest) with
  | inl hgt =>
    rw [if_neg (Nat.not_le.mpr hgt), decide_eq_false (Nat.not_le.mpr hgt)]
    rfl
  | inr hle =>
    rw [if_pos hle, decide_eq_true hle]
    have hgraphs : (GraphRunner.cudagraphs (step.newRunner dpRank)).warmup =
        .ok (.cudagraphs (step.warmRunner dpRank)) := bind_eq_ok.mpr ⟨_, hwarm, rfl⟩
    exact bind_eq_ok.mpr ⟨_, rfl, bind_eq_ok.mpr ⟨_, rfl, bind_eq_ok.mpr ⟨_, hgraphs, rfl⟩⟩⟩

variable (step) in
/-- The key of the step when its padded size is within the capacity. -/
def key : ℕ × List ℕ :=
  (decodeBucket step.largest, List.replicate step.dpSize (decodeBucket step.largest))

/-- The graph under the key has the padded size only when it is larger than 8. -/
theorem get?_warmRunner {dpRank : ℕ} (hle : decodeBucket step.largest ≤ maxSeqsPerBatch) :
    (step.warmRunner dpRank).graphs.get? step.key = some ⟨step.key.1⟩ ↔ 8 < step.largest := by
  have hkey : (step.newRunner dpRank).keyOf step.largest = some step.key :=
    keyOf_newRunner.trans (if_pos hle)
  cases Nat.lt_or_ge 8 step.largest with
  | inl hlarge => exact iff_of_true (DecodeCudaGraphRunner.get?_captured_large hlarge hkey) hlarge
  | inr hsmall =>
    refine iff_of_false (fun heq => ?_) (Nat.not_lt.mpr hsmall)
    have hone := DecodeCudaGraphRunner.get?_captured_small step.largest_pos hsmall
      step.maxSeqsPerBatch_pos hkey
    have hsize : decodeBucket step.largest = 1 :=
      congrArg DecodeGraphEntry.batchSize (Option.some.inj (heq.symm.trans hone))
    rw [decodeBucket_of_le step.largest_pos hsmall] at hsize
    cases hsize

/-- The largest batch is padded to a size within the capacity, and not to 8. -/
theorem cudagraphsServe_iff :
    step.CudagraphsServe ↔ 8 < step.largest ∧ decodeBucket step.largest ≤ maxSeqsPerBatch := by
  constructor
  · rintro ⟨key, hserve⟩
    obtain ⟨dpRank, hrank⟩ := step.exists_largest
    obtain ⟨runner, hexecute, hkey, hget⟩ := hserve dpRank _ hrank
    rw [execute_cudagraphs hrank] at hexecute
    split at hexecute
    · next hle =>
      injection hexecute with hexecutor
      injection hexecutor with _ hsome
      injection hsome with hcudagraphs
      injection hcudagraphs with hrunner
      rw [← hrunner, graphKey_warmRunner hrank] at hkey
      have hown : step.key = key := Option.some.inj
        ((keyOf_newRunner.trans (if_pos hle)).symm.trans (Except.ok.inj hkey))
      rw [← hrunner, ← hown] at hget
      exact ⟨(get?_warmRunner hle).mp hget, hle⟩
    · cases hexecute
  · rintro ⟨hlarge, hle⟩
    refine ⟨step.key, fun dpRank rows hrows => ⟨step.warmRunner dpRank, ?_, ?_, ?_⟩⟩
    · rw [execute_cudagraphs hrows, if_pos hle]
    · rw [graphKey_warmRunner hrows]
      exact congrArg _ (keyOf_newRunner.trans (if_pos hle))
    · exact (get?_warmRunner hle).mpr hlarge

/-- The call of `can_execute` names a parameter that the runner does not have. -/
theorem execute_aclgraph {dpRank rows : ℕ} :
    (ModelExecutor.aclgraph maxSeqsPerBatch step.dpSize dpRank).execute rows step.tokenCounts
        step.flags =
      .error (.typeError "can_execute() got an unexpected keyword argument 'dp_is_decode'") := rfl

theorem not_aclgraphExecutes : ¬ step.AclgraphExecutes := by
  intro hexecutes
  obtain ⟨dpRank, hrank⟩ := step.exists_largest
  obtain ⟨executor, hexecute⟩ := hexecutes dpRank _ hrank
  rw [execute_aclgraph] at hexecute
  cases hexecute

/-- The sizes that the warmup captures, when there is one decoding token. -/
theorem mem_graphs_aclRunner {dpRank size : ℕ} :
    size ∈ (ModelExecutor.aclRunner maxSeqsPerBatch step.dpSize dpRank).warmup.graphs ↔
      (size ∈ [1, 2, 4, 8] ∨ 16 ≤ size ∧ size % 16 = 0) ∧
        size ≤ perReplica maxSeqsPerBatch step.dpSize := by
  have hgraphs : (ModelExecutor.aclRunner maxSeqsPerBatch step.dpSize dpRank).warmup.graphs =
      (([1, 2, 4, 8] ++ multiplesOf16 (perReplica (maxSeqsPerBatch * 1) step.dpSize)).filter
        (· ≤ perReplica (maxSeqsPerBatch * 1) step.dpSize)).reverse.map (· * 1) := rfl
  simp only [hgraphs, Nat.mul_one, List.map_id', List.mem_reverse, List.mem_filter,
    List.mem_append, mem_multiplesOf16, decide_eq_true_eq]
  tauto

/-- The runner accepts every batch within the capacity of a replica. -/
theorem canExecute_aclRunner {dpRank rows : ℕ} (hrows : step.counts[dpRank]? = some rows) :
    (ModelExecutor.aclRunner maxSeqsPerBatch step.dpSize dpRank).warmup.canExecute rows
      step.tokenCounts = .ok true := by
  have hle : rows ≤ (ModelExecutor.aclRunner maxSeqsPerBatch step.dpSize dpRank).warmup.maxBatch *
      (ModelExecutor.aclRunner maxSeqsPerBatch step.dpSize dpRank).warmup.numDecodingTokens := by
    refine (step.within rows (List.mem_of_getElem? hrows)).2.trans_eq ?_
    exact (Nat.mul_one _).symm.trans (congrArg (perReplica · step.dpSize * 1) (Nat.mul_one _).symm)
  unfold DecodeAclGraphRunner.canExecute
  refine (if_neg (not_not.mpr rfl)).trans ((raiseIf_bind ?_).trans ?_)
  · rintro ⟨-, hlength⟩
    exact hlength (congrArg some (List.length_map (Nat.cast : ℕ → ℤ)))
  · rw [decide_eq_true hle]
    rfl

/-- The largest batch is covered by a power of two up to 8 or by the multiples of 16 within the capacity
of a replica. -/
theorem aclgraphCovers_iff : step.AclgraphCovers ↔
    (∃ size ∈ [1, 2, 4, 8], step.largest ≤ size ∧
        size ≤ perReplica maxSeqsPerBatch step.dpSize) ∨
      step.largest ≤ perReplica maxSeqsPerBatch step.dpSize / 16 * 16 := by
  constructor
  · intro hcovers
    obtain ⟨dpRank, hrank⟩ := step.exists_largest
    obtain ⟨size, hsize, hle⟩ := hcovers dpRank _ hrank (canExecute_aclRunner hrank)
    obtain ⟨hsmall | ⟨-, hmod⟩, hcapacity⟩ := mem_graphs_aclRunner.mp hsize
    · exact .inl ⟨size, hsmall, hle, hcapacity⟩
    · refine .inr (hle.trans ?_)
      rw [← Nat.div_mul_cancel (Nat.dvd_of_mod_eq_zero hmod)]
      exact Nat.mul_le_mul_right 16 (Nat.div_le_div_right hcapacity)
  · intro h dpRank rows hrows runner _
    have hle : rows ≤ step.largest := le_largest (List.mem_of_getElem? hrows)
    cases h with
    | inl h =>
      obtain ⟨size, hsmall, hlargest, hcapacity⟩ := h
      exact ⟨size, mem_graphs_aclRunner.mpr ⟨.inl hsmall, hcapacity⟩, hle.trans hlargest⟩
    | inr h =>
      refine ⟨_, mem_graphs_aclRunner.mpr ⟨.inr ⟨?_, Nat.mul_mod_left _ 16⟩,
        Nat.div_mul_le_self _ 16⟩, hle.trans h⟩
      have hdiv : 0 < perReplica maxSeqsPerBatch step.dpSize / 16 :=
        Nat.pos_of_mul_pos_right (step.largest_pos.trans_le h)
      exact Nat.le_mul_of_pos_left 16 hdiv

end DecodeStep

/-- No step within capacity is served by both backends: `execute` raises at each one with `aclgraph`. The
`cudagraphs` backend serves the steps whose largest batch is above 8 and is padded to at most the
capacity. -/
theorem decodeGraphs_iff {maxSeqsPerBatch : ℕ} (step : DecodeStep maxSeqsPerBatch) :
    ¬ step.Served ∧
      (step.CudagraphsServe ↔ 8 < step.largest ∧ decodeBucket step.largest ≤ maxSeqsPerBatch) ∧
      ¬ step.AclgraphExecutes ∧
      (step.AclgraphCovers ↔
        (∃ size ∈ [1, 2, 4, 8], step.largest ≤ size ∧
            size ≤ perReplica maxSeqsPerBatch step.dpSize) ∨
          step.largest ≤ perReplica maxSeqsPerBatch step.dpSize / 16 * 16) :=
  ⟨fun hserved => step.not_aclgraphExecutes hserved.2.1, step.cudagraphsServe_iff,
    step.not_aclgraphExecutes, step.aclgraphCovers_iff⟩

/-- Two ranks with 20 and 9 rows and a capacity of 64: the step is padded to 32. -/
theorem decodeGraphs_iff_twoRanks : ∃ step : DecodeStep 64, step.counts = [20, 9] ∧
    step.CudagraphsServe ∧ ¬ step.Served := by
  let step : DecodeStep 64 := ⟨[20, 9], some [1, 1], by decide, by decide, by decide⟩
  obtain ⟨hserved, hcudagraphs, -, -⟩ := decodeGraphs_iff step
  exact ⟨step, rfl, hcudagraphs.mpr (by decide), hserved⟩

/-- A group of one rank with a capacity of 4 and a batch of 4, and one with a capacity of 8 and a batch
of 8. -/
theorem not_decodeGraphs_of_smallCapacity :
    (ModelExecutor.cudagraphs 4 1 0).execute 4 (some [4]) (some [1]) =
        .error (.runtimeError "cannot execute batch") ∧
      (∃ runner, (ModelExecutor.cudagraphs 8 1 0).execute 8 (some [8]) (some [1]) =
          .ok ⟨true, some (.cudagraphs runner)⟩ ∧
        runner.graphKey 8 (some [8]) (some [1]) = .ok (some (8, [8])) ∧
        runner.graphs.get? (8, [8]) = some ⟨1⟩) ∧
      (ModelExecutor.aclgraph 8 1 0).execute 8 (some [8]) (some [1]) = .error
        (.typeError "can_execute() got an unexpected keyword argument 'dp_is_decode'") ∧
      ¬ ∀ step : DecodeStep 8, step.Served := by
  refine ⟨rfl, ⟨_, rfl, rfl, rfl⟩, rfl, fun hall => ?_⟩
  let step : DecodeStep 8 := ⟨[8], some [1], by decide, by decide, by decide⟩
  obtain ⟨executor, hexecute⟩ := (hall step).2.1 0 8 rfl
  cases hexecute

end Ikun.Forward
