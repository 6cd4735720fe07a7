import Ikun.Lib.Device
import Ikun.Lib.Except
import Ikun.Lib.Stream

/-!
# The block-major CPU KV cache

`block_major_kv_cache.py`. The GPU keeps the KV cache layer by layer, the CPU pool block by block. A
swap goes through staging buffers, a chunk of blocks at a time: kernels pack (or scatter) a chunk on
the GPU side, the stream copies it between the staging buffers of both sides, and the host scatters
(or gathers) it on the CPU side. There are two staging buffers on each side, so that the host works on
one chunk while the stream moves another; an event for each buffer says when the stream is through.

The unit of the model is the vector of 16 bytes that the kernels move.
-/

namespace Ikun.BlockMajor

open DeviceStream Except

/-! ## Layout -/

def kAttentionLayers : ℕ := 10
def kKvPlanes : ℕ := 2
def kElementsPerPlaneBlock : ℕ := 4096
def kElementsPerVector : ℕ := 8
def kVectorsPerPlaneBlock : ℕ := kElementsPerPlaneBlock / kElementsPerVector
def kVectorsPerBlockMajorRow : ℕ := kAttentionLayers * kKvPlanes * kVectorsPerPlaneBlock
def kThreads : ℕ := 256
def kMaxGridBlocks : ℕ := 65535
def stagingBufferCount : ℕ := 2
def bytesPerBlock : ℕ := kAttentionLayers * kKvPlanes * kElementsPerPlaneBlock * 2

/-- What `__init__` has allocated. The GPU cache and its staging buffers are in the memory of one
device, whose addresses have 48 bits. -/
structure BlockMajorCpuKVCache where
  numGpuBlocks : ℕ
  numCpuBlocks : ℕ
  stagingBlocks : ℕ
  numCpuBlocks_pos : 0 < numCpuBlocks
  stagingBlocks_pos : 0 < stagingBlocks
  addressable : (numGpuBlocks + stagingBufferCount * stagingBlocks) * bytesPerBlock ≤ 2 ^ 48

/-- Where a vector is: in the tensor of a layer, in the CPU pool, or in a staging buffer. -/
inductive Cell
  | gpu (layer index : ℕ)
  | cpu (index : ℕ)
  | gpuStaging (slot index : ℕ)
  | cpuStaging (slot index : ℕ)
  deriving DecidableEq

structure Memory (κ : Type) where
  cells : Cell → κ
  errorFlag : ℕ

/-- What one thread does: it copies a vector, or it sets the error flag. -/
inductive Piece
  | move (source destination : Cell)
  | setFlag (value : ℕ)
  deriving DecidableEq

variable {κ : Type}

def Piece.exec : Piece → Memory κ → Memory κ
  | .move s d, m => { m with cells := Function.update m.cells d (m.cells s) }
  | .setFlag v, m => { m with errorFlag := v }

/-- Neither writes what the other reads or writes. -/
def Piece.Independent : Piece → Piece → Prop
  | .move s d, .move s' d' => d ≠ d' ∧ d ≠ s' ∧ s ≠ d'
  | .setFlag v, .setFlag v' => v = v'
  | _, _ => True

theorem Piece.Independent.symm {p q : Piece} (h : p.Independent q) : q.Independent p := by
  cases p with
  | move s d =>
    cases q with
    | move s' d' => exact ⟨h.1.symm, h.2.2.symm, h.2.1.symm⟩
    | setFlag v => trivial
  | setFlag v =>
    cases q with
    | move s d => trivial
    | setFlag v' => exact Eq.symm h

theorem Piece.exec_commute {p q : Piece} (m : Memory κ) (h : p.Independent q) :
    p.exec (q.exec m) = q.exec (p.exec m) := by
  cases p with
  | move s d =>
    cases q with
    | move s' d' =>
      obtain ⟨hdd, hds, hsd⟩ := h
      unfold Piece.exec
      dsimp only
      rw [Function.update_of_ne hsd, Function.update_of_ne hds.symm, Function.update_comm hdd]
    | setFlag v => rfl
  | setFlag v =>
    cases q with
    | move s d => rfl
    | setFlag v' =>
      obtain rfl : v = v' := h
      rfl

instance : Independence Piece where
  Independent := Piece.Independent
  symm := Piece.Independent.symm

instance : Work Piece (Memory κ) where
  exec := Piece.exec
  commute := fun m h => Piece.exec_commute m h

/-! ## The extension -/

/-- A conversion to `int`. -/
def toInt32 (x : ℤ) : ℤ := x.bmod (2 ^ 32)

/-- A cast of an `int` to `unsigned int`. -/
def toUnsigned (x : ℤ) : ℤ := x % 2 ^ 32

def launchBlocks (count : ℕ) : ℕ :=
  min ((count * kVectorsPerBlockMajorRow + kThreads - 1) / kThreads) kMaxGridBlocks

/-- The body of both kernels at `linear`: it finds the vector of the GPU cache that belongs there. -/
def kernelPiece (gpuBlocks : ℤ) (blocks : List ℤ) (piece : Cell → ℕ → Piece) (linear : ℕ) : Piece :=
  let featureVector := linear % kVectorsPerPlaneBlock
  let cursor := linear / kVectorsPerPlaneBlock
  let kvPlane := cursor % kKvPlanes
  let cursor := cursor / kKvPlanes
  let layer := cursor % kAttentionLayers
  let row := cursor / kAttentionLayers
  let block := blocks.getD row 0
  if toUnsigned gpuBlocks ≤ toUnsigned block then .setFlag 1
  else
    let index := (kvPlane * gpuBlocks + block) * kVectorsPerPlaneBlock + featureVector
    piece (.gpu layer index.toNat) linear

/-- A kernel over all vectors of `count` rows. -/
def kernel (gpuBlocks : ℤ) (blocks : List ℤ) (count : ℕ) (piece : Cell → ℕ → Piece) : List Piece :=
  (Device.gridStride (count * kVectorsPerBlockMajorRow) (launchBlocks count * kThreads)).map
    (kernelPiece gpuBlocks blocks piece)

/-- The loop of `cpu_gather_rows` and `cpu_scatter_rows`: a `memcpy` for each row. -/
def cpuRows (ids : List ℤ) (count : ℕ) (piece : Cell → ℕ → Piece) : List Piece :=
  (List.range count).flatMap fun row => (List.range kVectorsPerBlockMajorRow).map fun v =>
    piece (.cpu ((ids.getD row 0).toNat * kVectorsPerBlockMajorRow + v))
      (row * kVectorsPerBlockMajorRow + v)

abbrev Instr (κ : Type) := DeviceStream.Instr Piece (Memory κ) ℕ

/-- A call of the extension: it checks its arguments first. -/
def call (error : Option String) (instr : Instr κ) : List (Instr κ) :=
  match error with
  | some error => [.raise error]
  | none => [instr]

namespace BlockMajorCpuKVCache

variable (cache : BlockMajorCpuKVCache)

/-- The number of blocks as the kernels take it. -/
def gpuBlocks : ℤ := toInt32 cache.numGpuBlocks

def checkGpuTransferArgs (blockIds : List ℤ) (count : ℕ) : Option String :=
  if ¬ (0 < count ∧ count ≤ blockIds.length) then some "count must be in [1, block_ids.numel()]"
  else if ¬ count ≤ cache.stagingBlocks then
    some "staging must have shape [capacity>=count, 10, 2, 4096]"
  else none

def checkCpuTransferArgs (blockIds : List ℤ) (count : ℕ) : Option String :=
  if ¬ count ≤ cache.stagingBlocks then
    some "CPU staging must have shape [capacity>=count, 10, 2, 4096]"
  else if ¬ (0 < count ∧ count ≤ blockIds.length) then
    some "count must be in [1, block_ids.numel()]"
  else
    match (blockIds.take count).findIdx? fun (id : ℤ) => !(0 ≤ id ∧ id < cache.numCpuBlocks) with
    | some row => some s!"CPU block id out of range at row {row}: {blockIds.getD row 0}"
    | none => none

/-- `pack_block_major`. -/
def pack (sourceBlocks : List ℤ) (slot count : ℕ) : List (Instr κ) :=
  call (cache.checkGpuTransferArgs sourceBlocks count)
    (.launch (kernel cache.gpuBlocks sourceBlocks count fun cell linear =>
      .move cell (.gpuStaging slot linear)))

/-- `scatter_block_major`. -/
def scatter (slot : ℕ) (destinationBlocks : List ℤ) (count : ℕ) : List (Instr κ) :=
  call (cache.checkGpuTransferArgs destinationBlocks count)
    (.launch (kernel cache.gpuBlocks destinationBlocks count fun cell linear =>
      .move (.gpuStaging slot linear) cell))

def cpuGather (source : List ℤ) (slot count : ℕ) : List (Instr κ) :=
  call (cache.checkCpuTransferArgs source count)
    (.run (cpuRows source count fun cell index => .move cell (.cpuStaging slot index)))

def cpuScatter (slot : ℕ) (destination : List ℤ) (count : ℕ) : List (Instr κ) :=
  call (cache.checkCpuTransferArgs destination count)
    (.run (cpuRows destination count fun cell index => .move (.cpuStaging slot index) cell))

end BlockMajorCpuKVCache

/-- `staging[slot][:count].copy_(other[slot][:count], non_blocking=True)`. -/
def copyStaging (source destination : ℕ → ℕ → Cell) (slot count : ℕ) : Instr κ :=
  .launch ((List.range (count * kVectorsPerBlockMajorRow)).map fun index =>
    .move (source slot index) (destination slot index))

/-- `check_error`: the read of the flag waits for the stream. -/
def checkError : Instr κ :=
  .check (fun m => m.errorFlag = 0) "GPU block mapping contains an out-of-range id"

/-! ## The swaps -/

/-- The rows of `validate_block_mapping`, from row `row` on. -/
def validateRows (sourceLimit destinationLimit : ℤ) :
    ℕ → List ℤ → List ℤ → List (ℤ × ℤ) → Except String Unit
  | _, _, _, [] => .ok ()
  | row, sources, destinations, (source, destination) :: rest => do
    raiseIf (¬ (0 ≤ source ∧ source < sourceLimit))
      s!"source block out of range at row {row}: {source}"
    raiseIf (¬ (0 ≤ destination ∧ destination < destinationLimit))
      s!"destination block out of range at row {row}: {destination}"
    raiseIf (source ∈ sources) s!"duplicate source block: {source}"
    raiseIf (destination ∈ destinations) s!"duplicate destination block: {destination}"
    validateRows sourceLimit destinationLimit (row + 1) (source :: sources)
      (destination :: destinations) rest

def validateBlockMapping (mapping : List (ℤ × ℤ)) (sourceLimit destinationLimit : ℤ) :
    Except String (List ℤ × List ℤ) := do
  raiseIf (sourceLimit ≤ 0 ∨ destinationLimit ≤ 0) "block mapping limits must be positive"
  validateRows sourceLimit destinationLimit 0 [] [] mapping
  return (mapping.map Prod.fst, mapping.map Prod.snd)

/-- `_to_gpu_ids`: a conversion to `int32` in a copy that waits for the stream. -/
def toGpuIds (blockIds : List ℤ) : List ℤ := blockIds.map toInt32

/-- A slice of the mapping that fits into a staging buffer. -/
structure Chunk where
  source : List ℤ
  destination : List ℤ
  gpuIds : List ℤ
  count : ℕ

/-- `_chunks`. -/
def chunks (stagingBlocks : ℕ) (source destination gpuIds : List ℤ) : List Chunk :=
  (List.range ((source.length + stagingBlocks - 1) / stagingBlocks)).map fun i =>
    let start := i * stagingBlocks
    let stop := min (start + stagingBlocks) source.length
    let slice (ids : List ℤ) := (ids.take stop).drop start
    ⟨slice source, slice destination, slice gpuIds, stop - start⟩

namespace BlockMajorCpuKVCache

variable (cache : BlockMajorCpuKVCache)

/-- What both swaps do before the loop. -/
def start : List (Instr κ) := [.check (fun _ => true) "", .launch [.setFlag 0]]

/-- The chunk whose copy to the CPU is under way. -/
structure Pending where
  slot : ℕ
  destination : List ℤ
  count : ℕ

/-- Waits for the copy of the pending chunk and scatters it. -/
def drainPending : Option Pending → List (Instr κ)
  | none => []
  | some pending =>
    .synchronize pending.slot :: cache.cpuScatter pending.slot pending.destination pending.count

/-- The loop of `swap_out`, from chunk `index` on. -/
def swapOutLoop : ℕ → Option Pending → List Chunk → List (Instr κ)
  | _, pending, [] => cache.drainPending pending
  | index, pending, chunk :: rest =>
    let slot := index % stagingBufferCount
    cache.pack chunk.gpuIds slot chunk.count ++
      [copyStaging .gpuStaging .cpuStaging slot chunk.count, .record slot] ++
      cache.drainPending pending ++
      swapOutLoop (index + 1) (some ⟨slot, chunk.destination, chunk.count⟩) rest

def swapOut (mapping : List (ℤ × ℤ)) : Except String (List (Instr κ)) := do
  let (sourceGpu, destinationCpu) ←
    validateBlockMapping mapping cache.numGpuBlocks cache.numCpuBlocks
  if sourceGpu.length = 0 then
    return []
  let sourceGpuIds := toGpuIds sourceGpu
  return start ++
    cache.swapOutLoop 0 none (chunks cache.stagingBlocks sourceGpu destinationCpu sourceGpuIds) ++
    [checkError]

/-- The loop of `swap_in`, from chunk `index` on. -/
def swapInLoop : ℕ → List Chunk → List (Instr κ)
  | _, [] => []
  | index, chunk :: rest =>
    let slot := index % stagingBufferCount
    (if stagingBufferCount ≤ index then [.synchronize slot] else []) ++
      cache.cpuGather chunk.source slot chunk.count ++
      [copyStaging .cpuStaging .gpuStaging slot chunk.count] ++
      cache.scatter slot chunk.gpuIds chunk.count ++
      [.record slot] ++
      swapInLoop (index + 1) rest

def swapIn (mapping : List (ℤ × ℤ)) : Except String (List (Instr κ)) := do
  let (sourceCpu, destinationGpu) ←
    validateBlockMapping mapping cache.numCpuBlocks cache.numGpuBlocks
  if sourceCpu.length = 0 then
    return []
  let destinationGpuIds := toGpuIds destinationGpu
  return start ++
    cache.swapInLoop 0 (chunks cache.stagingBlocks sourceCpu destinationGpu destinationGpuIds) ++
    [checkError]

end BlockMajorCpuKVCache

end Ikun.BlockMajor
