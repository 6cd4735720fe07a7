import Ikun.Lib.Dict
import Ikun.Lib.Exec
import Ikun.Lib.Except
import Ikun.Basic
import Ikun.Block.Frame
import Ikun.Block.Runs
import Ikun.Block.Classes
import Ikun.Block.EvictorRuns
import Ikun.Block.MultiModal
import Ikun.Block.Steps
import Ikun.Block.Sharing
import Ikun.Lib.Copy
import Ikun.Lib.Heap
import Ikun.Lib.Triangular
import Ikun.Lib.PyStr
import Ikun.Lib.PyJson
import Ikun.Capacity.IluLayout
import Ikun.CpuKv.Worker
import Ikun.CpuKv.BlockMajorSwap
import Ikun.Mamba.Runs
import Ikun.Moe.DataParallel
import Ikun.Moe.IndexLimits
import Ikun.Moe.EpMixture
import Ikun.Sampling.Tensors
import Ikun.Forward.ImageEmbeds
import Ikun.Forward.DecodeGraphs
import Ikun.Lib.OnlineSoftmax
import Ikun.Attention.PackedQgkv
import Ikun.Attention.Exact
import Ikun.Attention.Warm
import Ikun.Attention.Split4Forward
import Ikun.Gdn.Batch
import Ikun.Gdn.Chunking
import Ikun.Sampling.PrefillRuns
import Ikun.Scheduler.Residue
import Ikun.Scheduler.Segments
import Ikun.Scheduler.CaptureRuns
import Ikun.Scheduler.ChunkEnds
import Ikun.PrefixStates.Agreement
import Ikun.Serving.ReasoningStream
import Ikun.Serving.ToolCallExtraction
import Ikun.Mamba.Slots
import Ikun.Moe.ExpertParallel
import Ikun.Moe.Tiers
