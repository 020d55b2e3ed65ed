import RaftLib.Logic.Steps
import RaftLib.Logic.Program
import RaftLib.Logic.Ring
import RaftLib.Logic.Bytes
import RaftLib.Logic.Linked
import RaftLib.Logic.Lifetime
import RaftLib.Logic.KeySet
import RaftLib.Logic.Custody
import RaftLib.Logic.Traversal
import RaftLib.Logic.Rounding
import RaftLib.Logic.IntTypes
import RaftLib.Logic.ReadBack
import RaftLib.Logic.Confluence
import RaftLib.Logic.Kahn
import RaftLib.Logic.KahnForest
import RaftLib.Logic.KahnSolo
import RaftLib.Queue.Pointer
import RaftLib.Queue.PointerWords
import RaftLib.Queue.Buffer
import RaftLib.Queue.RingBuffer
import RaftLib.Queue.Fifo
import RaftLib.Queue.Session
import RaftLib.Queue.Contents
import RaftLib.Queue.Refine
import RaftLib.Queue.CopyFrom
import RaftLib.Queue.ResizeCopy
import RaftLib.Queue.Statistics
import RaftLib.Queue.Growth
import RaftLib.Queue.InlineClass
import RaftLib.Queue.Lifetimes
import RaftLib.Queue.ExtAlloc
import RaftLib.Queue.FifoGc
import RaftLib.Queue.Bulk
import RaftLib.Queue.Ownership
import RaftLib.Queue.FailingReads
import RaftLib.Queue.AutoRelease
import RaftLib.Queue.Reservation
import RaftLib.Threads.Spsc
import RaftLib.Threads.SpscSafe
import RaftLib.Threads.KernelRun
import RaftLib.Threads.Resize
import RaftLib.Threads.Handshake
import RaftLib.Threads.Exclusion
import RaftLib.Threads.Close
import RaftLib.Threads.SystemSignal
import RaftLib.Threads.PoolSchedule
import RaftLib.Threads.SimpleSchedule
import RaftLib.Threads.KernelNet
import RaftLib.Threads.KernelSteps
import RaftLib.Threads.Determinacy
import RaftLib.Threads.Composition
import RaftLib.Threads.AllPort
import RaftLib.Threads.Progress
import RaftLib.Threads.Returns
import RaftLib.Threads.Ends
import RaftLib.Graph.Kernel
import RaftLib.Graph.MapBase
import RaftLib.Graph.Kpair
import RaftLib.Graph.KpairChain
import RaftLib.Graph.Names
import RaftLib.Graph.Map
import RaftLib.Graph.Builder
import RaftLib.Graph.Matching
import RaftLib.Graph.Layers
import RaftLib.Graph.NestedSplit
import RaftLib.Graph.DupJoin
import RaftLib.Graph.DupExpr
import RaftLib.Graph.Ends
import RaftLib.Graph.GraphTools
import RaftLib.Graph.Allocate
import RaftLib.Graph.DynAlloc
import RaftLib.Graph.InPlacePorts
import RaftLib.Graph.Partition
import RaftLib.Graph.EnableDuplication
import RaftLib.Graph.BasicParallel
import RaftLib.Graph.KernelOwnership
import RaftLib.Kernels.FileReader
import RaftLib.Kernels.FileSignals
import RaftLib.Kernels.Search
import RaftLib.Kernels.Split
import RaftLib.Kernels.RoundRobin
import RaftLib.Kernels.Join
import RaftLib.Kernels.Parallel
import RaftLib.Kernels.PeekRange
import RaftLib.Kernels.Each
import RaftLib.Util.Filter
import RaftLib.Util.Range
import RaftLib.Util.RangeBounds
import RaftLib.Graph.MakeDot
