import Probing.Core.Run
import Probing.Memh.SlotTransaction
import Probing.Memh.SlotOwnership
import Probing.Memh.SlotSafety
import Probing.Memt.PinSafety
import Probing.Memt.RowFields
import Probing.Memt.RejectedPush
import Probing.Memh.WriterLockSafety
import Probing.Memc.CompactorSafety
import Probing.Memc.SegmentCrash
import Probing.Registry.Convergence
import Probing.Federation.Coverage
import Probing.Federation.Pushdown
import Probing.Sql.PruningExact
import Probing.Federation.Broadcast
import Probing.Federation.Transport
import Probing.Server.SupervisorSafety
import Probing.Storage.ReadYourWrites
import Probing.Skills.Degraded
import Probing.Proto.MergeExact
import Probing.Proto.TimeSeries
import Probing.Nccl.AttributionRun
import Probing.Nccl.StepWaits
import Probing.Stacktrace.LatestRun
import Probing.Collector.Lifecycle
import Probing.Collector.LifecycleSafety
import Probing.Collector.CpuAccounting
import Probing.Stacktrace.Sigusr2Safety
import Probing.Profiling.DeferredDrainReturns
import Probing.Tracing.SpanRuns
import Probing.Tracing.CoordinatesOwn
import Probing.Stacktrace.PublishedReads
import Probing.Profiling.TorchRuns
import Probing.Profiling.TrainingRuns
import Probing.Profiling.TorchSelfTime
import Probing.Memt.LayoutValid
import Probing.Memt.ReadBack
import Probing.Memt.StreamAgrees
import Probing.Sql.ReadOnly
import Probing.Sql.SingleRelation
import Probing.Sql.CatalogRewriteExact
import Probing.Memh.LayoutArithmetic
import Probing.Memh.TableMap
import Probing.Config.BothSides
import Probing.Memt.CachedAgrees
import Probing.Runtime.BridgeInvariant
import Probing.Registry.Agreement
import Probing.Storage.TopologyMerge
import Probing.Storage.RendezvousLaws
import Probing.Sql.MmapNames
import Probing.Stacktrace.MixedMerge
import Probing.Stacktrace.FrameWalk
import Probing.Stacktrace.FoldMerge
import Probing.Stacktrace.FlamegraphJson
import Probing.Memc.TableRoundTrip
import Probing.Memt.Cleanup
import Probing.Memc.Retention
import Probing.Core.GreedyPick
import Probing.Extern.SharedTables
import Probing.Core.Forest
import Probing.Crash.Handler
import Probing.Tracing.StepSync
import Probing.Profiling.TorchCaptures
import Probing.Nccl.RoleRuns
import Probing.Stacktrace.SampleRing
import Probing.Stacktrace.SampleMap
import Probing.Stacktrace.Sampler
import Probing.Core.RingTurns
import Probing.Memt.RingBatches
import Probing.Federation.AggregatePlan
import Probing.Federation.AggregatePushdown
