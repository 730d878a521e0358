import Baseliner.ProbedConservation
import Baseliner.ProbedArrivalOrder
import Baseliner.ProbedTransmitStamp
import Baseliner.ProbedRecordFraming
import Baseliner.ProbedPeerTable
import Baseliner.ProbedSessionLookup
import Baseliner.ProbedChildren
import Baseliner.OrchestratorNpb
import Baseliner.OrchestratorFio
import Baseliner.PingRoundTrip
import Baseliner.PingInFlight
import Baseliner.PingAverages
import Baseliner.PingErrorAccounting
import Baseliner.PingQuiet
import Baseliner.RdiscTable
import Baseliner.TftpBuffers
import Baseliner.TftpNetascii
import Baseliner.TftpTransfer
import Baseliner.TftpBlockNumbers
import Baseliner.LexicalPaths
import Baseliner.TftpRequest
import Baseliner.TwoPassStore
import Baseliner.NinfodAddrs
import Baseliner.NinfodName
import Baseliner.NinfodCore
import Baseliner.Ping6SubjectName
import Baseliner.SharedWrites
import Baseliner.NpbStreams
import Baseliner.CountingScatter
import Baseliner.IsRank
import Baseliner.AdcFactors
import Baseliner.AdcViewSizes
import Baseliner.GeometricTuples
import Baseliner.DcPartition
import Baseliner.SiftSort
import Baseliner.KeyedSums
import Baseliner.PathTree
import Baseliner.DcTree
import Baseliner.RunMerge
import Baseliner.DcRuns
import Baseliner.DcMerge
import Baseliner.LayeredPool
import Baseliner.DcCube
import Baseliner.DcChecksums
import Baseliner.DcFastPaths
import Baseliner.DcOptimization
import Baseliner.ProbedFifoOrder
import Baseliner.ProbedTimeouts
import Baseliner.MembenchTimeit
import Baseliner.ProbedClassification
import Baseliner.RunningStatistics
import Baseliner.CounterPhase
import Baseliner.ProbedCadence
import Baseliner.OnesComplement
import Baseliner.PingChecksum
import Baseliner.PingIntervalUnits
import Baseliner.PingRateLimit
import Baseliner.BarrierPhases
import Baseliner.CgInsertion
import Baseliner.CgSparse
import Baseliner.CgPointers
import Baseliner.CgAssembly
import Baseliner.CgMatrix
import Baseliner.OctreePaths
import Baseliner.UaAdapt
import Baseliner.UaLeaves
import Baseliner.UaRefine
import Baseliner.UaRefinePass
import Baseliner.UaCoarsen
import Baseliner.UaCoarsenPass
import Baseliner.UaAdaptation
import Baseliner.NinfodEncode
import Baseliner.NinfodCompare
import Baseliner.TracepathProbes
import Baseliner.Clockdiff
import Baseliner.TftpReceive
import Baseliner.TftpShortDatagrams
import Baseliner.TftpDatagrams
import Baseliner.NinfodTruncate
import Baseliner.PingOptions
import Baseliner.PingReceivedOnly
import Baseliner.PingTruncated
import Baseliner.PingWire
import Baseliner.NpbRandlc
import Baseliner.InternetChecksums
import Baseliner.DcTreeRuns
import Baseliner.DcSelectionCodec
import Baseliner.AdcParameters
import Baseliner.DcOffsets
import Baseliner.IsFullVerify
import Baseliner.StableSelection
import Baseliner.MgCharges
import Baseliner.StockhamStages
import Baseliner.FtFft
import Baseliner.OctreeGrading
import Baseliner.RepeatedSweeps
import Baseliner.UaCheckRefine
import Baseliner.UaRefineLoop
import Baseliner.DcHeapSorts
import Baseliner.PingSquareRoot
import Baseliner.UaParallelOrders
import Baseliner.TimespecDifferences
import Baseliner.BtLineSolve
import Baseliner.HandshakePipeline
import Baseliner.LuPipeline
import Baseliner.PentadiagonalElimination
import Baseliner.SpLineSolve
import Baseliner.CgConjGrad
import Baseliner.MgCycle
import Baseliner.BoxTransforms
import Baseliner.FtHeat
import Baseliner.NpbGenerators
import Baseliner.RdiscPackets
