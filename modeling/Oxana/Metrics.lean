import Oxana.Json.Value
import Oxana.Keys
import Oxana.Redis.Counters
import Oxana.Table
import Oxana.Text

/-!
# Metrics

What a worker process counts, how it is stored, and how it is read back.

Results are recorded into a `JobMetricsBuffer`, one entry a minute and worker
(and one a minute and queue). A flush turns the buffer into commands on the
hashes of those minutes, one field for each worker and metric, and on the
histograms. `aggregateCounterHashes` is the way back: it decodes the fields of
the hashes of a window and adds them up in three ways at once — in total, by
minute, and by worker.

Everything that is iterated over here is a hash map, so every order is
possible: the buffer's entries and the hashes' fields come in the order of a
list that is any permutation (`Iteration`).
-/

namespace Oxana

open Redis

/-! ## Names of fields -/

/-- The counters that are kept for a worker in one minute. -/
inductive JobMetric where
  /-- jobs completed -/
  | processedJobs
  /-- jobs that failed or panicked -/
  | failedJobs
  /-- jobs that panicked -/
  | panickedJobs
  /-- executions that succeeded -/
  | successfulExecutions
  /-- executions that failed or panicked -/
  | failedExecutions
  /-- executions that panicked -/
  | panickedExecutions
  /-- total duration of the successful executions -/
  | executionMs
  deriving DecidableEq, Repr

namespace JobMetric

/-- `JOB_METRIC_KEYS`: all counters of a worker. -/
def all : List JobMetric :=
  [processedJobs, failedJobs, panickedJobs, successfulExecutions, failedExecutions,
    panickedExecutions, executionMs]

/-- The name of a counter of a worker, as it stands in a field. -/
def name : JobMetric → String
  | processedJobs => "p"
  | failedJobs => "f"
  | panickedJobs => "pn"
  | successfulExecutions => "xs"
  | failedExecutions => "xf"
  | panickedExecutions => "xpn"
  | executionMs => "ms"

/-- The counter of a name: `JOB_METRIC_KEYS.contains` -/
def ofName? (metric : String) : Option JobMetric := all.find? fun k => k.name = metric

/-- The list of all counters has every counter in it. -/
theorem mem_all (k : JobMetric) : k ∈ all := by cases k <;> decide

/-- The name of a counter is read back as that counter. -/
theorem ofName?_name (k : JobMetric) : ofName? k.name = some k := by cases k <;> decide

end JobMetric

/-- Whose metrics they are: the name of a worker, which must not be too long to be counted. -/
@[ext] structure MetricIdentity where
  /-- the worker's name -/
  worker : String
  /-- a string's length is a `usize` -/
  fits : worker.utf8ByteSize < 2 ^ 64
  deriving DecidableEq, Repr

/-- `str::split_once`: a text is cut at its first separator. -/
def splitOnce (c : Char) : List Char → Option (List Char × List Char)
  | [] => none
  | d :: ds => if d = c then some ([], ds) else (splitOnce c ds).map fun p => (d :: p.1, p.2)

/-- `str::rsplit_once`: a text is cut at its last separator. -/
def rsplitOnce (c : Char) (cs : List Char) : Option (List Char × List Char) :=
  (splitOnce c cs.reverse).map fun p => (p.2.reverse, p.1.reverse)

/-- `str::parse::<usize>`: an optional plus sign, digits, and a value in range. -/
def parseUsize (cs : List Char) : Option ℕ :=
  let digits := match cs with
    | '+' :: ds => ds
    | ds => ds
  (Json.Number.readNat digits).filter fun n => n < 2 ^ 64

namespace MetricIdentity

/-- `MetricIdentity::field_key`: the length of the name, a colon, and the name. -/
def fieldKey (i : MetricIdentity) : String :=
  toString i.worker.utf8ByteSize ++ ":" ++ i.worker

/-- `MetricIdentity::metric_field`: the key of the worker, and the name of a counter behind a bar.
-/
def metricField (i : MetricIdentity) (metric : String) : String := i.fieldKey ++ "|" ++ metric

end MetricIdentity

namespace Bytewise

/-- `MetricIdentity::from_field_key`: the worker at the beginning of a key, if its length is right.
-/
def fromFieldKey (key : String) : Except Text.Stop MetricIdentity := do
  let (workerLen, rest) ← Text.splitOnce ':' key
  let workerLen ← Text.orAbsent (parseUsize workerLen.toList)
  if rest.utf8ByteSize < workerLen || !Text.isCharBoundary rest workerLen then
    throw .absent
  let (worker, _) ← Text.splitAt rest workerLen
  -- a part is no longer than the length that was read
  if h : worker.utf8ByteSize < 2 ^ 64 then pure ⟨worker, h⟩ else throw .absent

/-- `split_metric_field`: the worker and the counter of a field, if it is one. -/
def splitMetricField (field : String) : Except Text.Stop (MetricIdentity × JobMetric) := do
  let (identityKey, metric) ← Text.rsplitOnce '|' field
  let metric ← Text.orAbsent (JobMetric.ofName? metric)
  let identity ← fromFieldKey identityKey
  pure (identity, metric)

end Bytewise

/-- `split_metric_field`, without its panics: there are none
(`Bytewise.splitMetricField_ne_panicked`). -/
def splitMetricField (field : String) : Option (MetricIdentity × JobMetric) :=
  (Bytewise.splitMetricField field).toOption

/-- A text is split at the first separator, behind a part that has none. -/
theorem splitOnce_append {c : Char} {a : List Char} (ha : c ∉ a) (b : List Char) :
    splitOnce c (a ++ c :: b) = some (a, b) := by
  induction a with
  | nil => simp [splitOnce]
  | cons d a ih =>
    rw [List.mem_cons, not_or] at ha
    have hd : ¬ d = c := fun h => ha.1 h.symm
    simp [splitOnce, hd, ih ha.2]

/-- A text is split at the last separator, before a part that has none. -/
theorem rsplitOnce_append {c : Char} {b : List Char} (hb : c ∉ b) (a : List Char) :
    rsplitOnce c (a ++ c :: b) = some (a, b) := by
  have hb' : c ∉ b.reverse := by simpa using hb
  simp [rsplitOnce, splitOnce_append hb']

/-- A number that fits into 64 bits is read back from its decimal digits. -/
theorem parseUsize_toString {n : ℕ} (h : n < 2 ^ 64) : parseUsize (toString n).toList = some n := by
  have htext : (toString n).toList = Json.Number.natText n := by simp [Json.Number.natText]
  have hplus : ∀ ds, Json.Number.natText n ≠ '+' :: ds := by
    intro ds hds
    have hmem : '+' ∈ Json.Number.natText n := by rw [hds]; exact List.mem_cons_self
    exact absurd (List.all_eq_true.mp (Json.Number.natText_all n) '+' hmem) (by decide)
  rw [htext, parseUsize, Json.Number.readNat_natText, Option.filter_some, if_pos (by simpa using h)]
  exact hplus

/-- The digits of a length hold no colon. -/
theorem colon_notMem_toString (n : ℕ) : ':' ∉ (toString n).toList := by
  have htext : (toString n).toList = Json.Number.natText n := by simp [Json.Number.natText]
  rw [htext]
  intro h
  exact absurd (List.all_eq_true.mp (Json.Number.natText_all n) ':' h) (by decide)

/-- The length in front of a name: what is before the colon reads as it. -/
def ReadsLength (text : String) (n : ℕ) : Prop :=
  ':' ∉ text.toList ∧ parseUsize text.toList = some n

theorem readsLength_toString {n : ℕ} (h : n < 2 ^ 64) : ReadsLength (toString n) n :=
  ⟨colon_notMem_toString n, parseUsize_toString h⟩

/-- A length that can be read fits into 64 bits. -/
theorem ReadsLength.lt {text : String} {n : ℕ} (h : ReadsLength text n) : n < 2 ^ 64 := by
  have hread := h.2
  simp only [parseUsize, Option.filter_eq_some_iff, decide_eq_true_eq] at hread
  exact hread.2

theorem colon_utf8Size : Char.utf8Size ':' = 1 := by decide

theorem bar_utf8Size : Char.utf8Size '|' = 1 := by decide

namespace Bytewise

/-- A key whose length is right is read back as the worker in it, whatever comes behind. -/
theorem fromFieldKey_append {i : MetricIdentity} {len : String}
    (h : ReadsLength len i.worker.utf8ByteSize) (rest : String) :
    fromFieldKey (len ++ (String.singleton ':' ++ (i.worker ++ rest))) = .ok i := by
  have hboundary : Text.isCharBoundary (i.worker ++ rest) i.worker.utf8ByteSize = true :=
    Text.isCharBoundary_iff.mpr ⟨_, _, rfl, rfl⟩
  have hle : ¬ (i.worker ++ rest).utf8ByteSize < i.worker.utf8ByteSize := by
    rw [String.utf8ByteSize_append]
    omega
  have hcut := Text.splitOnce_append colon_utf8Size h.1 (i.worker ++ rest)
  rw [fromFieldKey, hcut]
  simp only [bind, Except.bind, h.2, Text.orAbsent, hboundary, hle, Text.splitAt_append, i.fits,
    decide_false, Bool.not_true, Bool.or_self, Bool.false_eq_true, if_false, dif_pos, pure,
    Except.pure]

/-- A field whose length is right is read back as the worker and the counter in it. -/
theorem splitMetricField_append {i : MetricIdentity} {k : JobMetric} {len : String}
    (h : ReadsLength len i.worker.utf8ByteSize) (rest : String) :
    splitMetricField (len ++ (String.singleton ':' ++ (i.worker ++ rest)) ++
      (String.singleton '|' ++ k.name)) = .ok (i, k) := by
  have hbar : '|' ∉ k.name.toList := by cases k <;> decide
  have hcut := Text.rsplitOnce_append bar_utf8Size hbar
    (len ++ (String.singleton ':' ++ (i.worker ++ rest)))
  rw [splitMetricField, hcut]
  simp only [bind, Except.bind, JobMetric.ofName?_name, Text.orAbsent, fromFieldKey_append h, pure,
    Except.pure]

end Bytewise

theorem fieldKey_append (i : MetricIdentity) (rest : String) : i.fieldKey ++ rest =
    toString i.worker.utf8ByteSize ++ (String.singleton ':' ++ (i.worker ++ rest)) := by
  rw [MetricIdentity.fieldKey, String.append_assoc, String.append_assoc]
  rfl

/-- The key of a worker says where it ends: whatever comes behind it, the worker is read back. -/
theorem fromFieldKey_fieldKey (i : MetricIdentity) (rest : String) :
    Bytewise.fromFieldKey (i.fieldKey ++ rest) = .ok i := by
  rw [fieldKey_append]
  exact Bytewise.fromFieldKey_append (readsLength_toString i.fits) rest

/-- Two keys of workers that begin the same text are the same key, and what comes behind them is the
same. -/
theorem fieldKey_append_inj {i i' : MetricIdentity} {rest rest' : String}
    (h : i.fieldKey ++ rest = i'.fieldKey ++ rest') : i = i' ∧ rest = rest' := by
  have hread := fromFieldKey_fieldKey i rest
  rw [h, fromFieldKey_fieldKey] at hread
  obtain rfl := Except.ok.inj hread
  exact ⟨rfl, (String.append_right_inj _).mp h⟩

/-- A field is read back as the worker and the counter that it was written for. -/
theorem splitMetricField_metricField (i : MetricIdentity) (k : JobMetric) :
    splitMetricField (i.metricField k.name) = some (i, k) := by
  have hfield : i.metricField k.name = toString i.worker.utf8ByteSize ++
      (String.singleton ':' ++ (i.worker ++ "")) ++ (String.singleton '|' ++ k.name) := by
    rw [← fieldKey_append, String.append_empty, MetricIdentity.metricField, String.append_assoc]
    rfl
  rw [splitMetricField, hfield,
    Bytewise.splitMetricField_append (readsLength_toString i.fits)]
  rfl

/-! ## Recording -/

/-- The largest `u64`, as a natural number. -/
def u64Max : ℕ := 2 ^ 64 - 1

/-- The largest `i64`, as a natural number. -/
def i64Max : ℕ := 2 ^ 63 - 1

/-- `u64::saturating_add`: a sum, or the largest number. -/
def satAdd (a b : ℕ) : ℕ := min (a + b) u64Max

/-- How an execution has ended, for the counters. -/
inductive WorkerResultKind where
  /-- it returned -/
  | success
  /-- it panicked -/
  | panicked
  /-- it returned an error -/
  | failed
  deriving DecidableEq, Repr

/-- One execution of a worker, of one job or of a batch of jobs. -/
structure WorkerResult where
  /-- how it ended -/
  kind : WorkerResultKind
  /-- the worker's name -/
  workerName : String
  /-- the queue the jobs came from -/
  queue : String
  /-- how long it took -/
  executionMs : ℕ
  /-- of how many jobs it was -/
  jobCount : ℕ
  /-- a string's length is a `usize` -/
  fits : workerName.utf8ByteSize < 2 ^ 64
  deriving DecidableEq, Repr

/-- `MetricIdentity::from_worker_result`: the worker of a result. -/
def MetricIdentity.fromWorkerResult (result : WorkerResult) : MetricIdentity :=
  ⟨result.workerName, result.fits⟩

/-- `HISTOGRAM_BUCKET_COUNT`: the number of buckets of a histogram. -/
def histogramBucketCount : ℕ := 14

/-- `HISTOGRAM_BUCKET_INTERVALS_MS`: the upper ends of all buckets but the last. -/
def histogramBucketIntervalsMs : List ℕ :=
  [25, 50, 100, 250, 500, 1000, 2500, 5000, 10000, 30000, 60000, 120000, 300000, u64Max]

/-- `HISTOGRAM_BUCKET_LABELS`: what the buckets are called. -/
def histogramBucketLabels : List String :=
  ["25ms", "50ms", "100ms", "250ms", "500ms", "1s", "2.5s", "5s", "10s", "30s", "60s", "120s",
    "5min", "Slow"]

/-- `histogram_bucket_index`: the bucket into which a duration falls. -/
def histogramBucketIndex (durationMs : ℕ) : ℕ :=
  (histogramBucketIntervalsMs.findIdx? fun upper => durationMs < upper).getD
    (histogramBucketCount - 1)

/-- What a worker has done in one minute, not flushed yet. -/
structure PendingJobMetrics where
  /-- jobs completed -/
  processed : ℕ := 0
  /-- jobs that failed or panicked -/
  failed : ℕ := 0
  /-- jobs that panicked -/
  panicked : ℕ := 0
  /-- executions that succeeded -/
  successfulExecutions : ℕ := 0
  /-- executions that failed or panicked -/
  failedExecutions : ℕ := 0
  /-- executions that panicked -/
  panickedExecutions : ℕ := 0
  /-- total duration of the successful executions -/
  executionMs : ℕ := 0
  /-- successful executions, by duration -/
  histogram : ℕ → ℕ := fun _ => 0

/-- What has been done on one queue in one minute, not flushed yet. -/
structure QueueCounterTotals where
  /-- jobs completed -/
  processed : ℕ := 0
  /-- jobs completed successfully -/
  succeeded : ℕ := 0
  /-- jobs that failed or panicked -/
  failed : ℕ := 0

/-- The worker's part of `JobMetricsBuffer::record`. -/
def PendingJobMetrics.record (m : PendingJobMetrics) (result : WorkerResult) : PendingJobMetrics :=
  let m := { m with processed := satAdd m.processed result.jobCount }
  match result.kind with
  | .success =>
    { m with
      successfulExecutions := satAdd m.successfulExecutions 1
      executionMs := satAdd m.executionMs result.executionMs
      histogram := Function.update m.histogram (histogramBucketIndex result.executionMs)
        (satAdd (m.histogram (histogramBucketIndex result.executionMs)) 1) }
  | .panicked =>
    { m with
      failed := satAdd m.failed result.jobCount
      panicked := satAdd m.panicked result.jobCount
      failedExecutions := satAdd m.failedExecutions 1
      panickedExecutions := satAdd m.panickedExecutions 1 }
  | .failed =>
    { m with
      failed := satAdd m.failed result.jobCount
      failedExecutions := satAdd m.failedExecutions 1 }

/-- The queue's part of `JobMetricsBuffer::record`. -/
def QueueCounterTotals.record (m : QueueCounterTotals) (result : WorkerResult) :
    QueueCounterTotals :=
  let m := { m with processed := satAdd m.processed result.jobCount }
  match result.kind with
  | .success => { m with succeeded := satAdd m.succeeded result.jobCount }
  | .panicked => { m with failed := satAdd m.failed result.jobCount }
  | .failed => { m with failed := satAdd m.failed result.jobCount }

/-- What has been recorded since the last flush. -/
structure JobMetricsBuffer where
  /-- by minute and worker -/
  entries : Table (Int × MetricIdentity) PendingJobMetrics := Table.empty
  /-- by minute and queue -/
  queueEntries : Table (Int × String) QueueCounterTotals := Table.empty

namespace JobMetricsBuffer

/-- `JobMetricsBuffer::is_empty`: whether nothing is to be flushed. -/
def isEmpty (b : JobMetricsBuffer) : Bool :=
  b.entries.entries.isEmpty && b.queueEntries.entries.isEmpty

/-- `JobMetricsBuffer::record`, in a given minute -/
def record (b : JobMetricsBuffer) (minute : Int) (result : WorkerResult) : JobMetricsBuffer where
  entries := b.entries.modify (minute, MetricIdentity.fromWorkerResult result) {} (·.record result)
  queueEntries := b.queueEntries.modify (minute, result.queue) {} (·.record result)

/-- The buffer after recording a list of results, each in its minute. -/
def recordAll (results : List (Int × WorkerResult)) : JobMetricsBuffer :=
  results.foldl (fun b r => b.record r.1 r.2) {}

end JobMetricsBuffer

/-- The value of one counter of a record. -/
def PendingJobMetrics.get (m : PendingJobMetrics) : JobMetric → ℕ
  | .processedJobs => m.processed
  | .failedJobs => m.failed
  | .panickedJobs => m.panicked
  | .successfulExecutions => m.successfulExecutions
  | .failedExecutions => m.failedExecutions
  | .panickedExecutions => m.panickedExecutions
  | .executionMs => m.executionMs

/-- `PendingJobMetrics::increments`: the counters of a record that are not zero. -/
def PendingJobMetrics.increments (m : PendingJobMetrics) : List (JobMetric × ℕ) :=
  JobMetric.all.map fun k => (k, m.get k)

/-- `QueueCounterTotals::increments`: the counters of a queue that are not zero. -/
def QueueCounterTotals.increments (m : QueueCounterTotals) : List (String × ℕ) :=
  [("p", m.processed), ("s", m.succeeded), ("f", m.failed)]

/-! ## Flushing -/

/-- `METRICS_RETENTION_SECS`: one day. -/
def metricsRetentionSecs : Int := 24 * 60 * 60

/-- `redis_metric_increment`: a number as the server can add it. -/
def redisMetricIncrement (value : ℕ) : Int := (min value i64Max : ℕ)

/-- `queue_metric_field`: the length of the queue's name, the name, and the name of a counter. -/
def queueMetricField (queue metric : String) : String :=
  toString queue.utf8ByteSize ++ ":" ++ queue ++ "|" ++ metric

/-- `StorageInternal::metrics_counter_key`: the hash of the workers' counters of a minute. -/
def StorageKeys.metricsCounterKey (K : StorageKeys) (minute : Int) : Key :=
  K.metricsPrefix ++ ":j:" ++ toString minute

/-- `StorageInternal::metrics_queue_counter_key` -/
def StorageKeys.metricsQueueCounterKey (K : StorageKeys) (minute : Int) : Key :=
  K.metricsPrefix ++ ":qc:" ++ toString minute

/-- `StorageInternal::metrics_histogram_key`: the histogram of a worker in a minute. -/
def StorageKeys.metricsHistogramKey (K : StorageKeys) (identity : MetricIdentity) (minute : Int) :
    Key :=
  K.metricsPrefix ++ ":h:" ++ identity.fieldKey ++ ":" ++ toString minute

/-- `histogram_bitfield_increment_args`: the buckets that have something in them. -/
def histogramBitfieldIncrementArgs (buckets : ℕ → ℕ) : List (ℕ × ℕ) :=
  ((List.range histogramBucketCount).map fun i => (i, buckets i)).filter fun e => e.2 ≠ 0

/-- The increments of the fields of one record, where there is something to add. -/
def incrementCommands {ι : Type} (key : Key) (field : ι → String) (increments : List (ι × ℕ)) :
    List CounterCommand :=
  increments.filterMap fun e =>
    if 0 < e.2 then some (.hincr key (field e.1) (redisMetricIncrement e.2)) else none

variable (K : StorageKeys)

/-- The commands for what a worker did in a minute. -/
def recordCommands (e : (Int × MetricIdentity) × PendingJobMetrics) : List CounterCommand :=
  let counterKey := K.metricsCounterKey e.1.1
  let histogramKey := K.metricsHistogramKey e.1.2 e.1.1
  let histogramArgs := histogramBitfieldIncrementArgs e.2.histogram
  incrementCommands counterKey (fun k : JobMetric => e.1.2.metricField k.name) e.2.increments ++
    [.expire counterKey metricsRetentionSecs] ++
    if histogramArgs ≠ [] then
      [.bitfield histogramKey histogramArgs, .expire histogramKey metricsRetentionSecs]
    else []

/-- The commands for what was done on a queue in a minute. -/
def queueRecordCommands (e : (Int × String) × QueueCounterTotals) : List CounterCommand :=
  let counterKey := K.metricsQueueCounterKey e.1.1
  incrementCommands counterKey (fun metric => queueMetricField e.1.2 metric) e.2.increments ++
    [.expire counterKey metricsRetentionSecs]

/-- `StorageInternal::flush_job_metrics`: the commands of the pipeline, the
buffer's records coming in the given orders. -/
def flushJobMetrics (records : List ((Int × MetricIdentity) × PendingJobMetrics))
    (queueRecords : List ((Int × String) × QueueCounterTotals)) : List CounterCommand :=
  records.flatMap (recordCommands K) ++ queueRecords.flatMap (queueRecordCommands K)

/-- These are the commands that flush a buffer, in an order in which its maps may be iterated. -/
def Flushes (b : JobMetricsBuffer) (commands : List CounterCommand) : Prop :=
  ∃ records queueRecords, records.Perm b.entries.entries ∧
    queueRecords.Perm b.queueEntries.entries ∧
    commands = flushJobMetrics K records queueRecords

/-! ## Reading -/

/-- Counters over several records, as they are shown. -/
structure JobMetricsTotals where
  /-- jobs completed -/
  processed : ℕ := 0
  /-- jobs completed successfully -/
  succeeded : ℕ := 0
  /-- jobs that failed or panicked -/
  failed : ℕ := 0
  /-- jobs that panicked -/
  panicked : ℕ := 0
  /-- executions that succeeded -/
  successfulExecutions : ℕ := 0
  /-- executions that failed or panicked -/
  failedExecutions : ℕ := 0
  /-- executions that panicked -/
  panickedExecutions : ℕ := 0
  /-- total duration of the successful executions -/
  executionMs : ℕ := 0
  deriving DecidableEq, Repr

namespace JobMetricsTotals

/-- `add_metric`: a value is added to one of the counters. -/
def addMetric (t : JobMetricsTotals) (metric : JobMetric) (value : ℕ) : JobMetricsTotals :=
  match metric with
  | .processedJobs => { t with processed := satAdd t.processed value }
  | .failedJobs => { t with failed := satAdd t.failed value }
  | .panickedJobs => { t with panicked := satAdd t.panicked value }
  | .successfulExecutions =>
    { t with successfulExecutions := satAdd t.successfulExecutions value }
  | .failedExecutions => { t with failedExecutions := satAdd t.failedExecutions value }
  | .panickedExecutions => { t with panickedExecutions := satAdd t.panickedExecutions value }
  | .executionMs => { t with executionMs := satAdd t.executionMs value }

/-- `finalize`. Records older than the counters of executions have none of
them, and jobs are taken for executions. The sum is one of `u64`s. -/
def finalize (t : JobMetricsTotals) : JobMetricsTotals :=
  let t := { t with succeeded := t.processed - t.failed }
  if (t.successfulExecutions + t.failedExecutions + t.panickedExecutions) % 2 ^ 64 = 0 then
    { t with
      successfulExecutions := t.succeeded
      failedExecutions := t.failed
      panickedExecutions := t.panicked }
  else t

end JobMetricsTotals

/-- The counters of one minute of a window. -/
structure JobMetricsPoint extends JobMetricsTotals where
  /-- when the minute starts -/
  timestamp : Int := 0
  deriving DecidableEq, Repr

/-- `add_metric`, of a point: a value is added to one of its counters. -/
def JobMetricsPoint.addMetric (p : JobMetricsPoint) (metric : JobMetric) (value : ℕ) :
    JobMetricsPoint :=
  { p with toJobMetricsTotals := p.toJobMetricsTotals.addMetric metric value }

/-- `finalize`, of a point: old records are completed. -/
def JobMetricsPoint.finalize (p : JobMetricsPoint) : JobMetricsPoint :=
  { p with toJobMetricsTotals := p.toJobMetricsTotals.finalize }

/-- What a worker has done in a window. -/
structure WorkerMetricsSummary where
  /-- the worker -/
  identity : MetricIdentity
  /-- over the window -/
  totals : JobMetricsTotals
  /-- minute by minute -/
  series : List JobMetricsPoint
  deriving DecidableEq, Repr

/-- `JobMetricsAggregation`: what has been read of a window. -/
structure JobMetricsAggregation where
  /-- over the window, for all workers -/
  totals : JobMetricsTotals
  /-- minute by minute, for all workers -/
  series : List JobMetricsPoint
  /-- worker by worker -/
  workers : List WorkerMetricsSummary
  deriving DecidableEq, Repr

/-- `WorkerMetricsSummaryBuilder`: what has been read of a worker so far. -/
structure WorkerMetricsSummaryBuilder where
  /-- so far -/
  totals : JobMetricsTotals
  /-- so far -/
  series : List JobMetricsPoint

/-- The orders in which the hash maps of a query happen to be iterated. -/
structure Iteration where
  /-- the fields of the hash of each minute -/
  fields : ℕ → List (String × Int) → List (String × Int)
  /-- the workers -/
  workers : List (MetricIdentity × WorkerMetricsSummaryBuilder) →
    List (MetricIdentity × WorkerMetricsSummaryBuilder)
  /-- nothing is left out or repeated -/
  fields_perm : ∀ idx m, (fields idx m).Perm m
  /-- nothing is left out or repeated -/
  workers_perm : ∀ l, (workers l).Perm l

/-- The hash maps are iterated in the order they are laid out in. -/
def Iteration.plain : Iteration := ⟨fun _ m => m, fun l => l, fun _ m => .refl m, fun l => .refl l⟩

/-- The state of the loop of `aggregate_counter_hashes`. -/
structure Aggregating where
  /-- over the window -/
  totals : JobMetricsTotals
  /-- minute by minute -/
  series : List JobMetricsPoint
  /-- worker by worker -/
  workers : Table MetricIdentity WorkerMetricsSummaryBuilder

/-- The points of a window, before anything is added. -/
def emptySeries (minutes : List Int) : List JobMetricsPoint :=
  minutes.map fun minute => { timestamp := minute * 60 }

/-- A field that counts: whose, what, and how much. -/
def decodeField (filter : Option MetricIdentity) (e : String × Int) :
    Option (MetricIdentity × JobMetric × ℕ) :=
  (splitMetricField e.1).bind fun (identity, metric) =>
    if filter.any (fun expected => expected ≠ identity) then none
    else some (identity, metric, e.2.toNat)

/-- One field of the hash of one minute is added to the aggregation, if it can be read. -/
def aggregateField (template : List JobMetricsPoint) (filter : Option MetricIdentity) (idx : ℕ)
    (a : Aggregating) (e : String × Int) : Aggregating :=
  match decodeField filter e with
  | none => a
  | some (identity, metric, value) =>
    { totals := a.totals.addMetric metric value
      series := a.series.modify idx (·.addMetric metric value)
      workers := a.workers.modify identity ⟨{}, template⟩ fun b =>
        ⟨b.totals.addMetric metric value, b.series.modify idx (·.addMetric metric value)⟩ }

/-- The hash of one minute is added to the aggregation, field by field. -/
def aggregateHash (it : Iteration) (template : List JobMetricsPoint)
    (filter : Option MetricIdentity) (a : Aggregating) (h : List (String × Int) × ℕ) :
    Aggregating :=
  if h.2 < a.series.length then
    let a := (it.fields h.2 h.1).foldl (aggregateField template filter h.2) a
    { a with series := a.series.modify h.2 JobMetricsPoint.finalize }
  else a

/-- The order of workers: longest execution time first, then most jobs, then by
name. -/
def summaryCmp : WorkerMetricsSummary → WorkerMetricsSummary → Ordering :=
  compareLex (fun a b => compare b.totals.executionMs a.totals.executionMs)
    (compareLex (fun a b => compare b.totals.processed a.totals.processed)
      (compareOn fun s => s.identity.worker))

/-- The summary of a worker, once everything is added. -/
def finishSummary (e : MetricIdentity × WorkerMetricsSummaryBuilder) : WorkerMetricsSummary where
  identity := e.1
  totals := e.2.totals.finalize
  series := e.2.series.map JobMetricsPoint.finalize

/-- `aggregate_counter_hashes`: the hashes of all minutes, one after the other. -/
def aggregateCounterHashes (it : Iteration) (minutes : List Int)
    (hashes : List (List (String × Int))) (filter : Option MetricIdentity) :
    JobMetricsAggregation :=
  let template := emptySeries minutes
  let a := hashes.zipIdx.foldl (aggregateHash it template filter) ⟨{}, template, Table.empty⟩
  { totals := a.totals.finalize
    series := a.series
    workers := ((it.workers a.workers.entries).map finishSummary).mergeSort
      fun a b => (summaryCmp a b).isLE }

/-- `JobMetricsQuery::effective_minutes`: how many minutes are asked for, at most a day. -/
def effectiveMinutes (minutes : ℕ) : ℕ := if minutes = 0 then 60 else min minutes (24 * 60)

/-- `metric_minutes`: the minutes of a window, the last one being the current one. -/
def metricMinutes (nowTs : Int) (query : ℕ) : List Int :=
  (List.range (effectiveMinutes query)).map fun i : ℕ =>
    nowTs / 60 - effectiveMinutes query + 1 + i

/-- What `job_metrics` answers, for all workers. -/
structure JobMetricsSnapshot extends JobMetricsAggregation where
  /-- start of the first minute -/
  startsAt : Int
  /-- start of the last minute -/
  endsAt : Int
  /-- number of minutes -/
  minutes : ℕ

/-- What `job_metrics_for` answers, for one worker. -/
structure JobMetricsDetail where
  /-- the worker -/
  identity : MetricIdentity
  /-- start of the first minute -/
  startsAt : Int
  /-- start of the last minute -/
  endsAt : Int
  /-- number of minutes -/
  minutes : ℕ
  /-- over the window -/
  totals : JobMetricsTotals
  /-- minute by minute -/
  series : List JobMetricsPoint
  /-- label, upper bound and number of successful executions of each bucket -/
  histogram : List (String × Option ℕ × ℕ)

/-- `histogram_buckets_from_counts`: each count with the label of its bucket. -/
def histogramBucketsFromCounts (counts : List ℕ) : List (String × Option ℕ × ℕ) :=
  (histogramBucketLabels.zip counts).zipIdx.map fun ((label, count), idx) =>
    (label, if idx < histogramBucketCount - 1 then histogramBucketIntervalsMs[idx]? else none,
      count)

/-- `StorageInternal::job_metrics`, at an instant (in milliseconds) -/
def jobMetrics (it : Iteration) (now : Int) (query : ℕ) (s : CounterStore) :
    Option JobMetricsSnapshot := do
  let minutes := metricMinutes (now / 1000) query
  let hashes ← minutes.mapM fun minute => CounterStore.hgetall now (K.metricsCounterKey minute) s
  some
    { toJobMetricsAggregation := aggregateCounterHashes it minutes hashes none
      startsAt := minutes.head?.getD 0 * 60
      endsAt := minutes.getLast?.getD 0 * 60
      minutes := minutes.length }

/-- `StorageInternal::metrics_counter_hashes_for`, for one minute -/
def metricsCounterHashFor (now : Int) (identity : MetricIdentity) (s : CounterStore)
    (minute : Int) : Option (List (String × Int)) := do
  let values ← JobMetric.all.mapM fun k =>
    CounterStore.hget now (K.metricsCounterKey minute) (identity.metricField k.name) s
  some ((JobMetric.all.zip values).filterMap fun (k, value) =>
    value.map fun v => (identity.metricField k.name, v))

/-- `StorageInternal::metrics_histogram_counts_for` -/
def metricsHistogramCountsFor (now : Int) (minutes : List Int) (identity : MetricIdentity)
    (s : CounterStore) : Option (List ℕ) := do
  let values ← minutes.mapM fun minute =>
    CounterStore.bitfieldGet now (K.metricsHistogramKey identity minute) histogramBucketCount s
  some (values.foldl (fun totals bucketValues => List.zipWith satAdd totals bucketValues)
    (List.replicate histogramBucketCount 0))

/-- `StorageInternal::job_metrics_for`, at an instant (in milliseconds) -/
def jobMetricsFor (it : Iteration) (now : Int) (identity : MetricIdentity) (query : ℕ)
    (s : CounterStore) : Option JobMetricsDetail := do
  let minutes := metricMinutes (now / 1000) query
  let hashes ← minutes.mapM (metricsCounterHashFor K now identity s)
  let aggregation := aggregateCounterHashes it minutes hashes (some identity)
  let histogram ← metricsHistogramCountsFor K now minutes identity s
  some
    { identity := identity
      startsAt := minutes.head?.getD 0 * 60
      endsAt := minutes.getLast?.getD 0 * 60
      minutes := minutes.length
      totals := aggregation.totals
      series := aggregation.series
      histogram := histogramBucketsFromCounts histogram }

end Oxana
