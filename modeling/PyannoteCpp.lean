import PyannoteCpp.StreamingCentreGeometry
import PyannoteCpp.StreamingClusteringFallback
import PyannoteCpp.StreamingPermutation
import PyannoteCpp.StreamingReports
import PyannoteCpp.StreamingRetention
import PyannoteCpp.TimelineDilution
import PyannoteCpp.TimelineSeparation
import PyannoteCpp.TimedRuns
import PyannoteCpp.StreamingActivity
import PyannoteCpp.StreamingCentreLedger
import PyannoteCpp.AgglomerativeClustering
import PyannoteCpp.MergeTree
import PyannoteCpp.AgglomerativePartition
import PyannoteCpp.AgglomerativeDendrogram
import PyannoteCpp.ParentForest
import PyannoteCpp.SimpleAhc
import PyannoteCpp.SimpleAhcCut
import PyannoteCpp.SimpleAhcDistances
import PyannoteCpp.VariationalAscent
import PyannoteCpp.FlatTensor
import PyannoteCpp.VbxTransform
import PyannoteCpp.VbxTransformAgreement
import PyannoteCpp.SegmentationLstm
import PyannoteCpp.EmbeddingGraph
import PyannoteCpp.EmbeddingFreshMemory
import PyannoteCpp.EmbeddingIndependence
import PyannoteCpp.ByteStream
import PyannoteCpp.WavReader
import PyannoteCpp.WavFormat
import PyannoteCpp.WavTruncation
import PyannoteCpp.TimelineGrid
import PyannoteCpp.GgmlTensor
import PyannoteCpp.GgufContext
import PyannoteCpp.PrefixGrammar
import PyannoteCpp.RecordingTimeBase
import PyannoteCpp.GgufReader
import PyannoteCpp.GgufWriter
import PyannoteCpp.GgufGrammar
import PyannoteCpp.GgufTensorGrammar
import PyannoteCpp.GgufMemory
import PyannoteCpp.GgufFaults
import PyannoteCpp.GgufTable
import PyannoteCpp.GgufEncoding
import PyannoteCpp.GgufRoundTrip
import PyannoteCpp.GgufCalls
import PyannoteCpp.GgufBuilt
import PyannoteCpp.GgufAlignment
import PyannoteCpp.DynTallocr
import PyannoteCpp.TallocrBlocks
import PyannoteCpp.TallocrRuns
import PyannoteCpp.GraphAllocator
import PyannoteCpp.GraphAllocatorBlocks
import PyannoteCpp.GraphAllocatorSteps
import PyannoteCpp.GraphAllocatorCounts
import PyannoteCpp.GraphAllocatorSafety
import PyannoteCpp.StreamingClusteringStability
import PyannoteCpp.StreamingTermination
import PyannoteCpp.WavArithmetic
import PyannoteCpp.SimpleAhcCache
import PyannoteCpp.SimpleAhcLabels
import PyannoteCpp.BackendSched
import PyannoteCpp.BackendSchedInputs
import PyannoteCpp.BackendSchedSplits
import PyannoteCpp.GraphBuild
import PyannoteCpp.GraphBuildOrder
import PyannoteCpp.GraphAllocatorRequests
import PyannoteCpp.GraphAllocatorOutputs
import PyannoteCpp.GraphAllocatorReuse
import PyannoteCpp.ExactFloatReal
import PyannoteCpp.SimpleAhcFloat
import PyannoteCpp.ClusterVbx
import PyannoteCpp.ClusterVbxLabels
import PyannoteCpp.ClusterVbxRows
import PyannoteCpp.MachineInt
import PyannoteCpp.VbxModelLoading
import PyannoteCpp.VbxModelSoundness
import PyannoteCpp.CheckedVector
import PyannoteCpp.SimpleAhcFlat
import PyannoteCpp.BitReversal
import PyannoteCpp.RadixTwo
import PyannoteCpp.Fft
import PyannoteCpp.FftTransform
import PyannoteCpp.MelFilterbank
import PyannoteCpp.BinaryRounding
import PyannoteCpp.Fbank
import PyannoteCpp.FbankSafety
import PyannoteCpp.FbankFrames
import PyannoteCpp.ConvShape
import PyannoteCpp.RowMajor
import PyannoteCpp.SharedStores
import PyannoteCpp.Im2col
import PyannoteCpp.Conv2d
import PyannoteCpp.Conv1d
import PyannoteCpp.Im2colBack
import PyannoteCpp.Im2colAdjoint
import PyannoteCpp.ExtentNormal
import PyannoteCpp.TallocrFreeLists
import PyannoteCpp.TallocrNormal
import PyannoteCpp.ContextAlloc
import PyannoteCpp.ContextAllocFailure
import PyannoteCpp.ContextAllocPlacement
import PyannoteCpp.ContextAllocBuffers
import PyannoteCpp.GgufLayout
import PyannoteCpp.GgufStore
import PyannoteCpp.HashSet
import PyannoteCpp.HashSetRefinement
import PyannoteCpp.GraphCopy
import PyannoteCpp.GraphCopyResult
import PyannoteCpp.TensorPermute
import PyannoteCpp.ContextPool
import PyannoteCpp.TallocrArrays
import PyannoteCpp.TallocrIndices
import PyannoteCpp.Crews
import PyannoteCpp.GgmlBarrier
import PyannoteCpp.GraphCompute
import PyannoteCpp.GraphComputeAbort
import PyannoteCpp.GraphComputeResult
import PyannoteCpp.MulMat
import PyannoteCpp.MulMatResult
import PyannoteCpp.OfflineEvidence
import PyannoteCpp.StreamingEmbeddings
import PyannoteCpp.StreamingEvidence
import PyannoteCpp.WavWriter
import PyannoteCpp.WavWriterRuns
import PyannoteCpp.BinaryFormat
import PyannoteCpp.BinaryNumber
import PyannoteCpp.Fp16
import PyannoteCpp.Fp16RoundTrip
import PyannoteCpp.Threadpool
import PyannoteCpp.ThreadpoolCalls
import PyannoteCpp.ThreadpoolAwake
