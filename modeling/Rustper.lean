import Rustper.Library.MachineInt
import Rustper.Library.TransitionSystem
import Rustper.Library.Potential
import Rustper.Library.Latch
import Rustper.Library.Slots
import Rustper.Library.Fallible
import Rustper.Library.Overrides
import Rustper.Library.GroupedMax
import Rustper.Library.JoinSet
import Rustper.Library.Duration
import Rustper.Library.Arena
import Rustper.Library.NextFit
import Rustper.Library.Utf8
import Rustper.Library.Lines
import Rustper.Library.Quoted
import Rustper.Library.JsonString
import Rustper.Library.JsonNumber
import Rustper.Library.Json
import Rustper.Library.JsonParser
import Rustper.Library.JsonNames
import Rustper.Library.JsonBytes
import Rustper.Library.Exposition
import Rustper.Library.RawExposition
import Rustper.Event
import Rustper.Fanout
import Rustper.FanoutInvariant
import Rustper.FanoutAgreement
import Rustper.FanoutHistory
import Rustper.FanoutProgress
import Rustper.Commit
import Rustper.ContiguousCommit
import Rustper.BatchOffsets
import Rustper.OffsetMap
import Rustper.Source
import Rustper.SourceInvariant
import Rustper.SourceConservation
import Rustper.CommitExactness
import Rustper.SourceHistory
import Rustper.SourceBudget
import Rustper.UncommittedWindow
import Rustper.SourceCounters
import Rustper.SourceProgress
import Rustper.CommitOrder
import Rustper.Config
import Rustper.Validation
import Rustper.Defaults
import Rustper.SourceClient
import Rustper.Sink
import Rustper.WriteRetry
import Rustper.RuntimeLimits
import Rustper.SinkMoves
import Rustper.SinkInvariant
import Rustper.SinkAccounting
import Rustper.SinkDrain
import Rustper.SinkOutcome
import Rustper.SinkProgress
import Rustper.CompleteDelivery
import Rustper.SinkHistory
import Rustper.SinkOrder
import Rustper.Coalescing
import Rustper.SequentialWrites
import Rustper.KafkaSink
import Rustper.KafkaCompletion
import Rustper.KafkaReports
import Rustper.BatchBuffer
import Rustper.ArenaCopies
import Rustper.Forwarding
import Rustper.JsonRow
import Rustper.JsonSplice
import Rustper.ClickhouseSink
import Rustper.JsonFraming
import Rustper.EventRows
import Rustper.Destinations
import Rustper.DestinationCounters
import Rustper.ColumnNames
import Rustper.StringRoundTrip
import Rustper.TableIdentifier
import Rustper.Metrics
import Rustper.RenderedMetrics
import Rustper.Router
import Rustper.RouterInvariant
import Rustper.RouterLinks
import Rustper.RouterProgress
import Rustper.PayloadBudget
import Rustper.Pipeline
import Rustper.AtLeastOnce
import Rustper.WriteOrder
import Rustper.Provenance
import Rustper.Topology
import Rustper.Deployment
import Rustper.SinkAttempts
import Rustper.Duplicates
import Rustper.Shutdown
import Rustper.TaskDrain
import Rustper.ExitStatus
import Rustper.ShutdownProgress
import Rustper.Process
import Rustper.ProcessProgress
import Rustper.ProcessCounters
import Rustper.Cluster
import Rustper.ClusterProgress
