import LogMind.Buffer.IndexBounds
import LogMind.Buffer.Invariant
import LogMind.Buffer.LogBuffer
import LogMind.Buffer.Monotone
import LogMind.Buffer.Ring
import LogMind.Buffer.Search
import LogMind.Buffer.Tokenize
import LogMind.Client.Decode
import LogMind.Client.LogModel
import LogMind.Client.Subscription
import LogMind.Core.Bytes
import LogMind.Core.Json
import LogMind.Core.LogEntry
import LogMind.Core.Strings
import LogMind.Core.Utf8
import LogMind.Daemon.DBusService
import LogMind.Daemon.Embeddings
import LogMind.Daemon.FileToBuffer
import LogMind.Daemon.Lifecycle
import LogMind.Daemon.Locks
import LogMind.Daemon.Output
import LogMind.Daemon.ProcessRaw
import LogMind.Daemon.Reports
import LogMind.Daemon.Resources
import LogMind.Daemon.SimilarLogs
import LogMind.Daemon.TimeQuery
import LogMind.Daemon.WatchTargets
import LogMind.Library.BoundedScan
import LogMind.Library.Checked
import LogMind.Library.Deferred
import LogMind.Library.Keyed
import LogMind.Library.KeyedQueue
import LogMind.Library.Lines
import LogMind.Library.LockOrder
import LogMind.Library.Loop
import LogMind.Library.Readings
import LogMind.Library.RefCount
import LogMind.Library.RowSignals
import LogMind.Library.SlidingWindow
import LogMind.Library.Throttle
import LogMind.Library.Tiling
import LogMind.Library.Transition
import LogMind.Pipeline.AlertDelivery
import LogMind.Pipeline.AlertHistory
import LogMind.Pipeline.AlertKey
import LogMind.Pipeline.AlertLimits
import LogMind.Pipeline.Alerts
import LogMind.Pipeline.Analyzers
import LogMind.Pipeline.Collectors
import LogMind.Pipeline.Conservation
import LogMind.Pipeline.Flush
import LogMind.Pipeline.Wakeups
import LogMind.Pipeline.Workers
import LogMind.Plugins.BurstWindow
import LogMind.Plugins.CollectorCache
import LogMind.Plugins.CollectorStreams
import LogMind.Plugins.Lifetime
import LogMind.Plugins.LoaderCalls
import LogMind.Plugins.PluginLoader
import LogMind.Plugins.PluginNames
import LogMind.Plugins.Reload
import LogMind.Plugins.StdoutAlert
import LogMind.Plugins.SyslogBounds
import LogMind.Plugins.SyslogCollector
import LogMind.Plugins.SyslogLayout
import LogMind.Plugins.SyslogLevel
import LogMind.Plugins.ThresholdAnalyzer
import LogMind.Vector.Capacity
import LogMind.Vector.Database
import LogMind.Vector.FailedWrites
import LogMind.Vector.FreshIndex
import LogMind.Vector.FreshSearch
import LogMind.Vector.HNSWDescent
import LogMind.Vector.HNSWExact
import LogMind.Vector.HNSWGraph
import LogMind.Vector.HNSWIndex
import LogMind.Vector.HNSWLayer
import LogMind.Vector.HNSWPool
import LogMind.Vector.HNSWPruning
import LogMind.Vector.HNSWSearch
import LogMind.Vector.HNSWTombstones
import LogMind.Vector.LoadedRows
import LogMind.Vector.NullIndex
import LogMind.Vector.Rebuild
import LogMind.Vector.StoreContents
import LogMind.Vector.StoreInvariant
import LogMind.Vector.StoreJournal
import LogMind.Vector.StoreLifecycle
import LogMind.Vector.StoreOrigins
import LogMind.Vector.StoreRefinement
import LogMind.Vector.StoreRestart
import LogMind.Vector.StoreSearch
import LogMind.Vector.StoredRows
import LogMind.Vector.VectorStore
import LogMind.Vector.VisitStamps
import LogMind.Watcher.Completeness
import LogMind.Watcher.Confinement
import LogMind.Watcher.Directory
import LogMind.Watcher.Events
import LogMind.Watcher.FileState
import LogMind.Watcher.Ledger
import LogMind.Watcher.Located
import LogMind.Watcher.Overflow
import LogMind.Watcher.Paths
import LogMind.Watcher.PollLoop
import LogMind.Watcher.PollRounds
import LogMind.Watcher.Polling
import LogMind.Watcher.Priming
import LogMind.Watcher.ReadSince
import LogMind.Watcher.Rotation
import LogMind.Watcher.Skipping
import LogMind.Watcher.Splitting
import LogMind.Watcher.Tail
import LogMind.Watcher.TreeSteps
import LogMind.Watcher.WatchedTree
import LogMind.Watcher.Writers
