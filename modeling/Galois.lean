import Galois.Compaction
import Galois.Gstl
import Galois.DynamicBitset
import Galois.Gluon.Message
import Galois.Gluon.SyncExtract
import Galois.Gluon.SyncRecvApply
import Galois.Cusp.Inspection
import Galois.Cusp.InspectionData
import Galois.Cusp.NodeMapping
import Galois.Cusp.EdgeLoading
import Galois.Cusp.EdgeCut
import Galois.MergeFold
import Galois.Reduction
import Galois.Bag
import Galois.Bytes
import Galois.Graphs.FileGraph
import Galois.BinarySearch
import Galois.Graphs.GraphHelpers
import Galois.Graphs.LCCSRGraph
import Galois.Placement
import Galois.Graphs.Transpose
import Galois.Graphs.FileGraphWriter
import Galois.Graphs.BufferedGraph
import Galois.Lonestar.Boruvka
import Galois.ParentForest
import Galois.UnionFind
import Galois.Lonestar.BfsSssp
import Galois.Lonestar.Triangles
import Galois.Lonestar.Triangles.Count
import Galois.Lonestar.KCore
import Galois.Lonestar.KCore.Cascade
import Galois.Lonestar.SSSP.DeltaStep
import Galois.Lonestar.SSSP.Serial
import Galois.Lonestar.SSSP.Topo
import Galois.Lonestar.SSSP.Main
import Galois.ShortestPaths
import Galois.Lonestar.BFS.Async
import Galois.Lonestar.BFS.Sync
import Galois.Lonestar.BFS.Main
import Galois.Lonestar.BFS.DirectionOpt
import Galois.Lonestar.BFS.DirectionOptReturns
import Galois.Graphs.UnitRanges
import Galois.Graphs.MorphGraph
import Galois.Tools.GraphConvert
import Galois.FlatMap
import Galois.GDeque
import Galois.RacyPhase
import Galois.IndependentSets
import Galois.Lonestar.IndependentSet.Serial
import Galois.Lonestar.IndependentSet.Pull
import Galois.Lonestar.IndependentSet.Prio
import Galois.Lonestar.IndependentSet.EdgeTiled
import Galois.FloatRounding
import Galois.Lonestar.IndependentSet.InitPrio
import Galois.FixedSizeRing
import Galois.ParallelSTL.PartialSum
import Galois.ParallelSTL.Partition
import Galois.ParallelSTL.Sort
import Galois.WeakOrder
import Galois.PriorityQueue
import Galois.Runtime.Range
import Galois.Concat
import Galois.TwoLevelIteratorA
import Galois.TwoLevelIterator
import Galois.PriorityBag
import Galois.Worklists.Chunk
import Galois.Worklists.Obim
