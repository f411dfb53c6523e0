import Oxana.Aggregation
import Oxana.Alone
import Oxana.Answering
import Oxana.Anyone
import Oxana.AtMostOnce
import Oxana.Atomicity
import Oxana.BatchItems
import Oxana.BatchRouting
import Oxana.Batcher
import Oxana.Calls
import Oxana.Collector
import Oxana.CollectorCounts
import Oxana.Concurrency
import Oxana.ConnectionRetry
import Oxana.Cron
import Oxana.CronOnce
import Oxana.CronPolls
import Oxana.Custody
import Oxana.Dashboard
import Oxana.Delays
import Oxana.DeleteJob
import Oxana.DeletedJobs
import Oxana.Deletion
import Oxana.Discovery
import Oxana.Dispatching
import Oxana.Drain
import Oxana.Drained
import Oxana.Duration
import Oxana.EnqueueAlone
import Oxana.EnqueueChunk
import Oxana.EnqueueScript
import Oxana.EnqueueSpec
import Oxana.Envelope
import Oxana.ExactlyOnce
import Oxana.Executor
import Oxana.FailedAttempts
import Oxana.Float64
import Oxana.Footprint
import Oxana.Heartbeats
import Oxana.HeldClaims
import Oxana.Holding
import Oxana.Identity
import Oxana.Interleave.Account
import Oxana.Interleave.Amid
import Oxana.Interleave.Beside
import Oxana.Interleave.Channel
import Oxana.Interleave.Crash
import Oxana.Interleave.History
import Oxana.Interleave.Pair
import Oxana.Interleave.Pool
import Oxana.Interleave.Prog
import Oxana.Interleave.Relabel
import Oxana.Interleave.Solo
import Oxana.Interleave.Within
import Oxana.Itemized
import Oxana.JobEnds
import Oxana.JobFates
import Oxana.JobMoves
import Oxana.Json.Length
import Oxana.Json.Parse
import Oxana.Json.Scan
import Oxana.Json.Value
import Oxana.Keys
import Oxana.Labelled
import Oxana.Lifecycle
import Oxana.Listing
import Oxana.Lookahead
import Oxana.Loops
import Oxana.MetricFields
import Oxana.Metrics
import Oxana.MetricsExact
import Oxana.MetricsRuns
import Oxana.MetricsSums
import Oxana.Occurrences
import Oxana.Operations
import Oxana.Ownership
import Oxana.Pagination
import Oxana.Permits
import Oxana.Pipeline
import Oxana.Placement
import Oxana.Processes
import Oxana.ProducerCustody
import Oxana.ProducerSteps
import Oxana.Progress
import Oxana.Promotion
import Oxana.QueueConfig
import Oxana.QueueCounters
import Oxana.QueueGrouping
import Oxana.QueueKey
import Oxana.QueueLengths
import Oxana.QueueSettings
import Oxana.QueueStats
import Oxana.QueueTotals
import Oxana.Recovery
import Oxana.Redis.Commands
import Oxana.Redis.Contents
import Oxana.Redis.Counters
import Oxana.Redis.Glob
import Oxana.Redis.Ignores
import Oxana.Redis.Range
import Oxana.Redis.Script
import Oxana.Redis.Store
import Oxana.Redis.Utf8
import Oxana.Registry
import Oxana.Releases
import Oxana.Replacement
import Oxana.Request
import Oxana.Resumption
import Oxana.Retention
import Oxana.RetryLifecycle
import Oxana.Revival
import Oxana.ReviveDead
import Oxana.Runtime
import Oxana.SavedState
import Oxana.Scripts
import Oxana.Shutdown
import Oxana.SkipOnce
import Oxana.Snapshot
import Oxana.SnapshotCheck
import Oxana.Storage
import Oxana.Sweep
import Oxana.SweepCustody
import Oxana.Table
import Oxana.Text
import Oxana.ThrottleAccounting
import Oxana.ThrottleLimit
import Oxana.ThrottleWait
import Oxana.Throttler
import Oxana.Transitions
import Oxana.Whereabouts
import Oxana.WipeQueue
import Oxana.WorkerCustody
import Oxana.WorkerMetrics
import Oxana.WorkerSteps
