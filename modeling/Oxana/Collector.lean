import Oxana.MetricsSums

/-!
# The result collector

One task of a worker process receives the results of all executions. It keeps
two buffers, one for the metrics and one for the counters of queues, and flushes
each when its own timer ticks; a flush that fails leaves its buffer for the next
tick, as long as the failures in a row stay below the tolerance. When the
channel closes, everything is flushed once more and the task ends.

A flush either applies completely or fails without effect; which of the two is
the environment's choice, one `Attempt` at a time. What the server was made to
apply is kept beside the collector, flush by flush.
-/

namespace Oxana

open Redis

/-! ## The counters of queues -/

/-- `Stats`, of the whole process since it has started. -/
structure Stats where
  /-- jobs completed -/
  processed : ℕ := 0
  /-- jobs completed successfully -/
  succeeded : ℕ := 0
  /-- jobs that panicked -/
  panicked : ℕ := 0
  /-- jobs that failed or panicked -/
  failed : ℕ := 0

/-- The process's part of `update_stats`: one result is counted. -/
def Stats.record (s : Stats) (result : WorkerResult) : Stats :=
  let s := { s with processed := satAdd s.processed result.jobCount }
  match result.kind with
  | .success => { s with succeeded := satAdd s.succeeded result.jobCount }
  | .panicked =>
    { s with
      panicked := satAdd s.panicked result.jobCount
      failed := satAdd s.failed result.jobCount }
  | .failed => { s with failed := satAdd s.failed result.jobCount }

/-- `QueueResultStats`: 64-bit integers that are never negative. -/
structure QueueResultStats where
  /-- jobs completed -/
  processed : ℕ := 0
  /-- jobs completed successfully -/
  succeeded : ℕ := 0
  /-- jobs that panicked -/
  panicked : ℕ := 0
  /-- jobs that failed or panicked -/
  failed : ℕ := 0

/-- `i64::saturating_add`, of numbers that are not negative -/
def satAddI64 (a b : ℕ) : ℕ := min (a + b) i64Max

/-- `QueueResultStats::record`: one result is counted for its queue. -/
def QueueResultStats.record (s : QueueResultStats) (result : WorkerResult) : QueueResultStats :=
  let count := min result.jobCount i64Max
  let s := { s with processed := satAddI64 s.processed count }
  match result.kind with
  | .success => { s with succeeded := satAddI64 s.succeeded count }
  | .panicked =>
    { s with panicked := satAddI64 s.panicked count, failed := satAddI64 s.failed count }
  | .failed => { s with failed := satAddI64 s.failed count }

/-- The names of the counters of a queue, with their values. -/
def QueueResultStats.named (s : QueueResultStats) : List (String × ℕ) :=
  [("processed", s.processed), ("succeeded", s.succeeded), ("panicked", s.panicked),
    ("failed", s.failed)]

/-- The field of a queue's counter in the hash of counters. -/
def statsField (queue name : String) : String := queue ++ ":" ++ name

/-- `StorageInternal::flush_result_stats`: the commands of the pipeline, the
queues coming in the given order. -/
def flushResultStats (K : StorageKeys) (stats : List (String × QueueResultStats)) :
    List CounterCommand :=
  stats.flatMap fun e => e.2.named.filterMap fun v =>
    if 0 < v.2 then some (.hincr K.stats (statsField e.1 v.1) v.2) else none

/-- These are commands that flush the counters of queues. -/
def StatsFlushes (K : StorageKeys) (t : Table String QueueResultStats)
    (commands : List CounterCommand) : Prop :=
  ∃ stats : List (String × QueueResultStats), stats.Perm t.entries ∧
    commands = flushResultStats K stats

/-- The counters of queues after a list of results. -/
def recordStats (results : List WorkerResult) : Table String QueueResultStats :=
  Table.collect WorkerResult.queue {} QueueResultStats.record results

/-! ## The task -/

/-- Where the task of the collector is. -/
inductive CollectorPhase where
  /-- in its loop -/
  | running
  /-- the channel is closed, the metrics are flushed -/
  | flushingMetrics
  /-- then the counters of queues -/
  | flushingStats
  /-- then the lengths of queues are refreshed -/
  | refreshing
  /-- it has returned `Ok` -/
  | returned
  /-- it has returned an error -/
  | failed
  deriving DecidableEq

/-- A flush that the server has applied, with what it was made of. -/
structure AppliedFlush (ρ : Type) where
  /-- what the buffer had been filled with -/
  results : List ρ
  /-- what the server executed -/
  commands : List CounterCommand

/-- The task that collects the results of jobs, with its buffers, and a record of what it has
received and flushed so far. -/
structure Collector where
  /-- where it is -/
  phase : CollectorPhase := .running
  /-- the metrics to be flushed -/
  metrics : JobMetricsBuffer := {}
  /-- the counters of queues to be flushed -/
  pendingStats : Table String QueueResultStats := Table.empty
  /-- queues whose lengths are refreshed -/
  activeQueues : List String := []
  /-- of the whole process -/
  stats : Stats := {}
  /-- whether the process was told to stop -/
  cancelled : Bool := false
  /-- `consecutive_redis_failures`, which the whole process shares -/
  failures : UInt32
  /-- everything received, with the minute it was received in -/
  received : List (Int × WorkerResult) := []
  /-- what is in `metrics` -/
  unflushedMetrics : List (Int × WorkerResult) := []
  /-- what is in `pendingStats` -/
  unflushedStats : List WorkerResult := []
  /-- the flushes of metrics that were applied -/
  appliedMetrics : List (AppliedFlush (Int × WorkerResult)) := []
  /-- the flushes of counters that were applied -/
  appliedStats : List (AppliedFlush WorkerResult) := []

/-- The settings that the task reads. -/
structure CollectorSettings where
  /-- failures in a row that end the task -/
  redisFailureTolerance : UInt32
  /-- jobs after which the process stops -/
  exitWhenProcessed : Option ℕ

/-- How one attempt at a flush ends: with nothing to be done, with commands that the server has
executed, or with an error. -/
inductive Attempt where
  /-- there was nothing to flush -/
  | idle
  /-- the server executed the commands -/
  | applied (commands : List CounterCommand)
  /-- the attempt failed -/
  | failed

namespace Collector

variable (K : StorageKeys) (settings : CollectorSettings) (c : Collector)

/-- A result is received: `JobMetricsBuffer::record` and `update_stats`. -/
def receive (minute : Int) (result : WorkerResult) : Collector :=
  let stats := c.stats.record result
  { c with
    metrics := c.metrics.record minute result
    stats := stats
    pendingStats := c.pendingStats.modify result.queue {} (·.record result)
    activeQueues := c.activeQueues.insert result.queue
    cancelled := c.cancelled || settings.exitWhenProcessed.any fun n => n ≤ stats.processed
    received := c.received ++ [(minute, result)]
    unflushedMetrics := c.unflushedMetrics ++ [(minute, result)]
    unflushedStats := c.unflushedStats ++ [result] }

/-- A failure is counted: `record_redis_failure`, which may end the task. -/
def recordFailure : Collector := { c with failures := c.failures + 1 }

/-- Whether one more failure in a row is tolerated. -/
def tolerates : Bool := ! settings.redisFailureTolerance ≤ c.failures + 1

/-- `flush_metrics`, which may end in an error, and then keeps the buffer. -/
inductive FlushMetrics : Collector → Attempt → Collector → Bool → Prop
  /-- the buffer is empty -/
  | idle {c : Collector} (h : c.metrics.isEmpty) : FlushMetrics c .idle c true
  /-- the flush is applied, and the buffer cleared -/
  | applied {c : Collector} {commands : List CounterCommand} (h : ¬ c.metrics.isEmpty)
      (hcommands : Flushes K c.metrics commands) :
      FlushMetrics c (.applied commands)
        { c with
          failures := 0
          metrics := {}
          unflushedMetrics := []
          appliedMetrics := c.appliedMetrics ++ [⟨c.unflushedMetrics, commands⟩] } true
  /-- the flush fails, and the buffer is kept -/
  | failed {c : Collector} (h : ¬ c.metrics.isEmpty) :
      FlushMetrics c .failed c.recordFailure (c.tolerates settings)

/-- `flush_pending_stats`, which may end in an error. -/
inductive FlushPendingStats : Collector → Attempt → Collector → Bool → Prop
  /-- the buffer is empty -/
  | idle {c : Collector} (h : c.pendingStats.entries = []) : FlushPendingStats c .idle c true
  /-- the flush is applied, and the buffer cleared -/
  | applied {c : Collector} {commands : List CounterCommand} (h : c.pendingStats.entries ≠ [])
      (hcommands : StatsFlushes K c.pendingStats commands) :
      FlushPendingStats c (.applied commands)
        { c with
          failures := 0
          pendingStats := Table.empty
          unflushedStats := []
          appliedStats := c.appliedStats ++ [⟨c.unflushedStats, commands⟩] } true
  /-- the flush fails, and the buffer is kept -/
  | failed {c : Collector} (h : c.pendingStats.entries ≠ []) :
      FlushPendingStats c .failed c.recordFailure (c.tolerates settings)

/-- `refresh_active_queue_lengths`, which may end in an error. -/
inductive RefreshActiveQueueLengths : Collector → Collector → Bool → Prop
  /-- no queue is active -/
  | idle {c : Collector} (h : c.activeQueues = []) : RefreshActiveQueueLengths c c true
  /-- queues that turn out to be empty are dropped -/
  | done {c : Collector} (lengths : String → Int) (h : c.activeQueues ≠ []) :
      RefreshActiveQueueLengths c
        { c with
          failures := 0
          activeQueues := c.activeQueues.filter fun queue => 0 < lengths queue } true
  /-- the lengths cannot be read or written -/
  | failed {c : Collector} (h : c.activeQueues ≠ []) :
      RefreshActiveQueueLengths c c.recordFailure (c.tolerates settings)

end Collector

/-- What can happen to the collector at any time, from the results it receives to the flushes at its
exit. -/
inductive CollectorAct where
  /-- a result is received, in a minute -/
  | receive (minute : Int) (result : WorkerResult)
  /-- the timer of the metrics ticks -/
  | metricsTick (attempt : Attempt)
  /-- the timer of the counters ticks -/
  | statsTick (attempt : Attempt)
  /-- the timer of the lengths ticks -/
  | refreshTick
  /-- the channel is closed and empty -/
  | close
  /-- the flush of the metrics on exit -/
  | lastMetrics (attempt : Attempt)
  /-- the flush of the counters on exit -/
  | lastStats (attempt : Attempt)
  /-- the refresh of the lengths on exit -/
  | lastRefresh
  /-- another part of the process succeeds or fails with its own requests -/
  | others (failures : UInt32)

/-- The phase after an attempt, depending on how it has ended. -/
def CollectorPhase.after (next : CollectorPhase) (ok : Bool) : CollectorPhase :=
  if ok then next else .failed

/-- The steps of `run` and of `flush_before_exit`, which are taken in the order of the phases, one
wait at a time. -/
inductive CollectorStep (K : StorageKeys) (settings : CollectorSettings) :
    Collector → CollectorAct → Collector → Prop
  | receive {c : Collector} (h : c.phase = .running) (minute : Int) (result : WorkerResult) :
      CollectorStep K settings c (.receive minute result) (c.receive settings minute result)
  | metricsTick {c c' : Collector} {a : Attempt} {ok : Bool} (h : c.phase = .running)
      (ha : Collector.FlushMetrics K settings c a c' ok) :
      CollectorStep K settings c (.metricsTick a) { c' with phase := .after .running ok }
  | statsTick {c c' : Collector} {a : Attempt} {ok : Bool} (h : c.phase = .running)
      (ha : Collector.FlushPendingStats K settings c a c' ok) :
      CollectorStep K settings c (.statsTick a) { c' with phase := .after .running ok }
  | refreshTick {c c' : Collector} {ok : Bool} (h : c.phase = .running)
      (ha : Collector.RefreshActiveQueueLengths settings c c' ok) :
      CollectorStep K settings c .refreshTick { c' with phase := .after .running ok }
  | close {c : Collector} (h : c.phase = .running) :
      CollectorStep K settings c .close { c with phase := .flushingMetrics }
  | lastMetrics {c c' : Collector} {a : Attempt} {ok : Bool} (h : c.phase = .flushingMetrics)
      (ha : Collector.FlushMetrics K settings c a c' ok) :
      CollectorStep K settings c (.lastMetrics a) { c' with phase := .after .flushingStats ok }
  | lastStats {c c' : Collector} {a : Attempt} {ok : Bool} (h : c.phase = .flushingStats)
      (ha : Collector.FlushPendingStats K settings c a c' ok) :
      CollectorStep K settings c (.lastStats a) { c' with phase := .after .refreshing ok }
  | lastRefresh {c c' : Collector} {ok : Bool} (h : c.phase = .refreshing)
      (ha : Collector.RefreshActiveQueueLengths settings c c' ok) :
      CollectorStep K settings c .lastRefresh { c' with phase := .after .returned ok }
  | others {c : Collector} (failures : UInt32) :
      CollectorStep K settings c (.others failures) { c with failures }

/-- A run of the collector from its start, with the list of all that has happened in it. -/
inductive CollectorRun (K : StorageKeys) (settings : CollectorSettings) :
    List CollectorAct → Collector → Prop
  /-- the task starts, whatever failed before -/
  | start (failures : UInt32) : CollectorRun K settings [] { failures }
  /-- one more step -/
  | step {acts : List CollectorAct} {a : CollectorAct} {c c' : Collector}
      (h : CollectorRun K settings acts c) (hstep : CollectorStep K settings c a c') :
      CollectorRun K settings (acts ++ [a]) c'

end Oxana
