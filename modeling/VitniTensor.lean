import VitniTensor.Lib.Codec
import VitniTensor.Lib.Text
import VitniTensor.Lib.Outcome
import VitniTensor.Lib.LittleEndian
import VitniTensor.Lib.Exec
import VitniTensor.Lib.Checks
import VitniTensor.Lib.Emits
import VitniTensor.Lib.Fill
import VitniTensor.Lib.Rows
import VitniTensor.Lib.PairTree
import VitniTensor.Lib.Watched
import VitniTensor.Lib.Utf8
import VitniTensor.Error
import VitniTensor.F32
import VitniTensor.Binary32
import VitniTensor.Tensor.Basic
import VitniTensor.Cert.Builder
import VitniTensor.Cert.Injective
import VitniTensor.Cert.Sink
import VitniTensor.Cert.SinkWiring
import VitniTensor.Cert.History
import VitniTensor.Gguf.Types
import VitniTensor.Gguf.Parse
import VitniTensor.Gguf.Safety
import VitniTensor.Gguf.Writer
import VitniTensor.Gguf.RoundTrip
import VitniTensor.Gguf.Extension
import VitniTensor.Gguf.Loaded
import VitniTensor.Tokenizer.Pretokenize
import VitniTensor.Tokenizer.Cuts
import VitniTensor.Tokenizer.GgufBpe
import VitniTensor.Tokenizer.Lossless
import VitniTensor.Quant.Blocks
import VitniTensor.Quant.Reduce
import VitniTensor.Quant.Integer
import VitniTensor.Quant.Fused
import VitniTensor.Quant.Linear
import VitniTensor.Quant.Parallel
import VitniTensor.Quant.Canonical
import VitniTensor.Quant.Unpack
import VitniTensor.Quant.Codes
import VitniTensor.Quant.Decoded
import VitniTensor.Quant.Exact
import VitniTensor.Quant.ShortWeights
import VitniTensor.Quant.ElementOrder
import VitniTensor.Ops.Argmax
import VitniTensor.Ops.Binary
import VitniTensor.Ops.RmsNorm
import VitniTensor.Ops.FirstMaximum
import VitniTensor.Ops.Totality
import VitniTensor.Model.Config
import VitniTensor.Model.Dispatch
import VitniTensor.Model.Builds
import VitniTensor.Model.RunState
import VitniTensor.Model.ForwardQuantized
import VitniTensor.Model.Causal
import VitniTensor.Model.CacheRows
import VitniTensor.Model.CachedStep
import VitniTensor.Model.CacheFrame
import VitniTensor.Model.Sizes
import VitniTensor.Model.CausalTotal
import VitniTensor.Model.LinearChecks
import VitniTensor.Model.HeadChecks
import VitniTensor.Model.StepChecks
import VitniTensor.Model.Incremental
import VitniTensor.Model.Forward
import VitniTensor.Model.Products
import VitniTensor.Model.TiedRows
import VitniTensor.Model.Trace
import VitniTensor.Model.Told
import VitniTensor.Model.Custody
import VitniTensor.Model.Checkpoints
import VitniTensor.Model.Interventions
import VitniTensor.Model.ForwardOnly
import VitniTensor.Model.Llama2c
import VitniTensor.Model.Llama2cLayout
import VitniTensor.Model.MatmulLinear
import VitniTensor.Model.Rotation
import VitniTensor.Inference.Driver
import VitniTensor.Inference.Prefill
import VitniTensor.Inference.Run
import VitniTensor.Inference.Binding
import VitniTensor.Inference.Replay
import VitniTensor.Inference.Guards
import VitniTensor.Inference.Refused
import VitniTensor.Gpu.Metal
import VitniTensor.Gpu.Composition
import VitniTensor.Gpu.StepComposition
import VitniTensor.Gpu.MetalStep
import VitniTensor.Gpu.MetalTurns
import VitniTensor.Gpu.MetalAgrees
import VitniTensor.Gpu.MetalEncodes
import VitniTensor.Gpu.MetalReturns
import VitniTensor.Gpu.MetalAccepted
import VitniTensor.Gpu.Kernels
import VitniTensor.Gpu.MetalBounds
import VitniTensor.Gpu.Cuda
import VitniTensor.Gpu.CudaBounds
import VitniTensor.Gpu.CudaRuns
import VitniTensor.Gpu.CudaSizes
import VitniTensor.Gpu.EmbedRows
import VitniTensor.Gpu.StorageBounds
import VitniTensor.Gpu.CudaKernels
import VitniTensor.Gpu.Lanes
import VitniTensor.Gpu.Norms
import VitniTensor.Gpu.Gemm
import VitniTensor.Gpu.GemmAgrees
import VitniTensor.Gpu.Coop
import VitniTensor.Tokenizer.GreedyMerges
import VitniTensor.Gpu.FixedTree
import VitniTensor.Gguf.BlockSizes
import VitniTensor.Tokenizer.ScoreMerge
import VitniTensor.Tokenizer.Llama2c
import VitniTensor.Tokenizer.Llama2cMerges
import VitniTensor.Tokenizer.GgufSpm
import VitniTensor.Tokenizer.BosToken
import VitniTensor.Tokenizer.SpmLossless
import VitniTensor.Gguf.Accepted
import VitniTensor.Tokenizer.PackedArrays
import VitniTensor.Tokenizer.FromFile
import VitniTensor.Lib.MixedRadix
import VitniTensor.Tensor.RowMajor
import VitniTensor.Ops.SoftmaxLoops
import VitniTensor.Model.Net
import VitniTensor.Model.NetQuantized
import VitniTensor.Lib.Mirror
import VitniTensor.Model.Accel
import VitniTensor.Model.Gemma
import VitniTensor.Model.Recording
import VitniTensor.Model.NetDense
import VitniTensor.Model.NetRuns
import VitniTensor.Model.DenseTwin
import VitniTensor.Model.CostOrder
import VitniTensor.Model.CrossCheck
import VitniTensor.Inference.Greedy
import VitniTensor.Tokenizer.Llama2cDecode
import VitniTensor.Inference.Returns
import VitniTensor.Inference.VitniReceipt
import VitniTensor.Inference.RunChecks
import VitniTensor.Inference.LoadedRuns
import VitniTensor.Model.Reference
import VitniTensor.Quant.Half
import VitniTensor.Quant.Quantize
import VitniTensor.Inference.LlamaBlob
