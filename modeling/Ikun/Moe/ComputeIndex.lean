import Mathlib.Algebra.Ring.Int.Defs
import Ikun.Basic
import Ikun.Lib.Device
import Ikun.Lib.Interleave

/-!
# `moe_compute_index`

The kernels that sort the (token, expert) pairs by expert: a histogram of the expert ids, an
exclusive prefix sum by one block of threads, and the placement of every pair. The threads of the
histogram and of the placement share counters that they add to atomically, in any order.

The buffers that the host allocates with `torch::empty` hold anything when the kernels start. What
is read or written outside of a buffer is a fault.
-/

namespace Ikun.Moe

open Device Interleave

/-- `kMoeIndexBlock`. -/
def kMoeIndexBlock : ℕ := 256

/-- A write at an index that may be negative. -/
def storeAt (buf : List ℤ) (i v : ℤ) : Option (List ℤ) :=
  if i < 0 then none else store buf i.toNat v

/-- `atomicAdd`: the old value, and the buffer with the sum. -/
def atomicAdd (buf : List ℤ) (i v : ℤ) : Option (ℤ × List ℤ) :=
  if i < 0 then none else do
    let old ← load buf i.toNat
    return (old, ← store buf i.toNat (toInt32 (old + v)))

/-! ## The histogram -/

/-- One thread of `moe_histogram_kernel`. It is done when its counter is incremented. -/
def moeHistogram (expertId : List ℤ) (numElements : ℕ) (numExperts : ℤ) (tid : ℕ) (_ : Bool)
    (expertSizes : List ℤ) : Option (Bool × List ℤ) :=
  if tid < numElements then do
    let eid ← load expertId tid
    if 0 ≤ eid ∧ eid < numExperts then do
      let (_, expertSizes) ← atomicAdd expertSizes eid 1
      return (true, expertSizes)
    else return (true, expertSizes)
  else return (true, expertSizes)

/-- `moe_histogram_kernel<<<grid, kMoeIndexBlock>>>`. -/
def moeHistogramKernel (grid : ℕ) (expertId : List ℤ) (numElements : ℕ) (numExperts : ℤ) :
    Threads Bool (List ℤ) where
  count := grid * kMoeIndexBlock
  start := false
  isDone := id
  step := moeHistogram expertId numElements numExperts

/-! ## The prefix sum -/

/-- `BlockScan::ExclusiveSum`, for the value of every thread. -/
def exclusiveSum (vals : List ℤ) : List ℤ :=
  (List.range vals.length).map fun thread => toInt32 (vals.take thread).sum

/-- `moe_prefix_sum_kernel<<<1, kMoeIndexBlock>>>`, without the total that the host does not ask for.
The number of experts is compared as an unsigned one. -/
def moePrefixSumKernel (expertSizes expertOffsets : List ℤ) (numExperts : ℤ) : Option (List ℤ) := do
  let isExpert := fun thread : ℕ => decide ((thread : ℤ) < numExperts % 2 ^ 32)
  let vals ← (List.range kMoeIndexBlock).mapM fun thread =>
    if isExpert thread then load expertSizes thread else some 0
  forEach ((List.range kMoeIndexBlock).filter isExpert) id
    (fun thread _ => load (exclusiveSum vals) thread) expertOffsets

/-! ## The placement -/

/-- Where a thread of `moe_place_indices_kernel` stands: before its atomic addition, before its first
write, before its second write, or at its end. -/
inductive PlaceState
  | start
  | placed (pos : ℤ)
  | indexed (pos : ℤ)
  | done
  deriving DecidableEq

/-- The buffers that the placement writes. -/
structure IndexBuffers where
  expertOffsets : List ℤ
  dstSrc : List ℤ
  srcDst : List ℤ

/-- One step of a thread of `moe_place_indices_kernel`. -/
def moePlaceIndices (expertId : List ℤ) (numElements : ℕ) (numExperts : ℤ) (flatIdx : ℕ) :
    PlaceState → IndexBuffers → Option (PlaceState × IndexBuffers)
  | .start, buffers =>
    if numElements ≤ flatIdx then some (.done, buffers)
    else do
      let eid ← load expertId flatIdx
      if eid < 0 ∨ numExperts ≤ eid then return (.done, buffers)
      else do
        let (pos, expertOffsets) ← atomicAdd buffers.expertOffsets eid 1
        return (.placed pos, { buffers with expertOffsets := expertOffsets })
  | .placed pos, buffers => do
    return (.indexed pos, { buffers with dstSrc := ← storeAt buffers.dstSrc pos (toInt32 flatIdx) })
  | .indexed pos, buffers => do
    return (.done, { buffers with srcDst := ← store buffers.srcDst flatIdx pos })
  | .done, buffers => some (.done, buffers)

/-- `moe_place_indices_kernel<<<grid, kMoeIndexBlock>>>`. -/
def moePlaceIndicesKernel (grid : ℕ) (expertId : List ℤ) (numElements : ℕ) (numExperts : ℤ) :
    Threads PlaceState IndexBuffers where
  count := grid * kMoeIndexBlock
  start := .start
  isDone := (· = .done)
  step := moePlaceIndices expertId numElements numExperts

/-! ## The host -/

/-- What `moe_compute_index` returns. -/
structure MoeIndex where
  srcDst : List ℤ
  dstSrc : List ℤ
  expertSizes : List ℤ

/-- The uninitialised buffers: `torch::empty`. -/
structure IndexBuffers.Allocated (buffers : IndexBuffers) (n numExperts : ℕ) : Prop where
  expertOffsets : buffers.expertOffsets.length = numExperts
  dstSrc : buffers.dstSrc.length = n
  srcDst : buffers.srcDst.length = n

/-- The number of blocks. -/
def indexGrid (n : ℕ) : ℕ := (n + kMoeIndexBlock - 1) / kMoeIndexBlock

/-- `expert_id.to(torch::kInt32)`. -/
def expertIdI32 (expertId : List ℤ) : List ℤ := expertId.map toInt32

/-- `moe_compute_index`, for buffers with any contents and in any interleaving of the atomic additions
of the kernels: its outcomes, of which `none` is a fault. -/
def MoeComputeIndex (expertId : List ℤ) (numExperts : ℕ) (buffers : IndexBuffers) :
    Option MoeIndex → Prop :=
  let n := expertId.length
  let ids := expertIdI32 expertId
  let e := toInt32 numExperts
  andThen ((moeHistogramKernel (indexGrid n) ids n e).Ends (List.replicate numExperts 0))
    fun expertSizes =>
  andThen (fun o => o = moePrefixSumKernel expertSizes buffers.expertOffsets e)
    fun expertOffsets =>
  andThen ((moePlaceIndicesKernel (indexGrid n) ids n e).Ends
      { buffers with expertOffsets := expertOffsets })
    fun placed o => o = some ⟨placed.srcDst, placed.dstSrc, expertSizes⟩

/-- The walk of the consumer over the sorted pairs, with a running start: what it visits, and for
which expert. -/
def expertWalk (sorted : List ℤ) : ℕ → ℕ → List ℕ → List (ℕ × ℤ)
  | _, _, [] => []
  | eid, start, count :: counts =>
    ((sorted.drop start).take count).map (fun i => (eid, i)) ++
      expertWalk sorted (eid + 1) (start + count) counts

end Ikun.Moe
