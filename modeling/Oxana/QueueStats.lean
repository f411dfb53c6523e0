import Oxana.Float64
import Oxana.Collector

/-!
# Statistics of queues

The counters of all queues are fields of one hash: the name of the queue, a colon, the name of the
counter. Two more fields keep a length of the queue and the time at which it was taken. For the
dashboard the queues are grouped: what comes before the first `#` of a name is the name of the group,
and a queue with such a name is a child of it.

The maps of the program are iterated in no particular order. Nothing that comes out depends on it but
the order of the groups and of their children, which are sorted afterwards.
-/

namespace Oxana

open MetricIdentity

/-! ## Counters -/

/-- The counters of a queue that are recognised in the hash. -/
inductive QueueCounter where
  | processed
  | succeeded
  | panicked
  | failed
  deriving DecidableEq, Repr

/-- The names of the counters in the hash. -/
def QueueCounter.name : QueueCounter → String
  | processed => "processed"
  | succeeded => "succeeded"
  | panicked => "panicked"
  | failed => "failed"

/-- `QueueResultStats`, read back: signed numbers, whose sums are taken not to overflow. -/
@[ext]
structure StoredCounts where
  /-- jobs completed -/
  processed : ℤ := 0
  /-- jobs completed successfully -/
  succeeded : ℤ := 0
  /-- jobs that panicked -/
  panicked : ℤ := 0
  /-- jobs that failed or panicked -/
  failed : ℤ := 0
  deriving DecidableEq, Repr

namespace StoredCounts

/-- The value of one of the counters. -/
def get (counts : StoredCounts) : QueueCounter → ℤ
  | .processed => counts.processed
  | .succeeded => counts.succeeded
  | .panicked => counts.panicked
  | .failed => counts.failed

/-- `+=`, counter by counter, as far as the sums do not overflow. -/
instance : Add StoredCounts where
  add a b := ⟨a.processed + b.processed, a.succeeded + b.succeeded, a.panicked + b.panicked,
    a.failed + b.failed⟩

/-- What a field adds; one that is not recognised adds nothing. -/
def add (counts : StoredCounts) (stat : String) (value : ℤ) : StoredCounts :=
  if stat = "processed" then { counts with processed := counts.processed + value }
  else if stat = "succeeded" then { counts with succeeded := counts.succeeded + value }
  else if stat = "panicked" then { counts with panicked := counts.panicked + value }
  else if stat = "failed" then { counts with failed := counts.failed + value }
  else counts

end StoredCounts

/-! ## Lengths that were kept -/

/-- `QUEUE_LENGTH_SNAPSHOT_TTL_SECS`: two minutes. -/
def queueLengthSnapshotTtlSecs : ℤ := 120

/-- `QueueLengthSnapshot`: a length that was kept, and when. -/
structure QueueLengthSnapshot where
  /-- the length -/
  enqueued : Option ℤ := none
  /-- when it was taken, in seconds -/
  refreshedAt : Option ℤ := none

/-- `i64::saturating_sub`: a difference, or the nearest number that fits. -/
def saturatingSub (a b : ℤ) : ℤ := max (-2 ^ 63) (min (a - b) (2 ^ 63 - 1))

/-- `fresh_enqueued`: the length, if it was kept not long ago. -/
def QueueLengthSnapshot.freshEnqueued (snapshot : QueueLengthSnapshot) (now : ℤ) : Option ℕ := do
  let refreshedAt ← snapshot.refreshedAt
  if saturatingSub now refreshedAt > queueLengthSnapshotTtlSecs then none
  else
    let enqueued ← snapshot.enqueued
    if 0 ≤ enqueued then some enqueued.toNat else none

/-! ## Groups -/

/-- `DynamicQueueStats`, without the rates. The latency is a double, the number of seconds. -/
structure DynamicQueueStats extends StoredCounts where
  /-- what follows the first `#` of the name -/
  suffix : String
  /-- the length of the queue -/
  enqueued : ℕ := 0
  /-- how long the next job of the queue has been waiting -/
  latencyS : ℚ := 0

/-- `QueueStats`: a group of queues, or a queue without children. -/
structure QueueStats extends StoredCounts where
  /-- the name of the group -/
  key : String
  /-- the length -/
  enqueued : ℕ := 0
  /-- the longest latency of a queue of the group -/
  latencyS : ℚ := 0
  /-- the children -/
  queues : List DynamicQueueStats := []

/-- `queue_base`: what stands before the mark of an instance. -/
def queueBase (queue : String) : String :=
  match splitOnce '#' queue.toList with
  | some (base, _) => String.ofList base
  | none => queue

/-- `queue.split_once('#')`, of which the suffix is used. -/
def queueSuffix (queue : String) : Option String :=
  (splitOnce '#' queue.toList).map fun p => String.ofList p.2

/-- The child that a queue becomes in its group, if it is an instance. -/
def childOf (queue : String) (counts : StoredCounts) : Option DynamicQueueStats :=
  (queueSuffix queue).map fun suffix => { toStoredCounts := counts, suffix := suffix }

/-- What a queue does to its group: its counters are added, and it may be a child. -/
def QueueStats.addQueue (parent : QueueStats) (queue : String) (counts : StoredCounts) :
    QueueStats :=
  let parent := { parent with toStoredCounts := parent.toStoredCounts + counts }
  match childOf queue counts with
  | some child => { parent with queues := parent.queues ++ [child] }
  | none => parent

/-! ## The aggregation -/

/-- An order in which a map can be iterated. -/
structure IterationOrder where
  /-- the entries in that order -/
  order : {ν : Type} → Table String ν → List (String × ν)
  /-- they are all met -/
  perm : ∀ {ν : Type} (t : Table String ν), (order t).Perm t.entries

/-- The orders of all the maps that are iterated on the way. -/
structure HashOrders where
  /-- `stats` -/
  stats : IterationOrder
  /-- `snapshots` -/
  snapshots : IterationOrder
  /-- `enqueued_snapshots` -/
  enqueued : IterationOrder
  /-- `counters` -/
  counters : IterationOrder
  /-- `groups` -/
  groups : IterationOrder

/-- `key.rsplit_once(':')`: the queue and the counter of a field. -/
def splitField (key : String) : Option (String × String) :=
  (rsplitOnce ':' key.toList).map fun p => (String.ofList p.1, String.ofList p.2)

/-- What has been gathered from the fields so far. -/
structure QueueTallies where
  /-- the counters of each queue -/
  counters : Table String StoredCounts
  /-- the lengths that were kept -/
  snapshots : Table String QueueLengthSnapshot

/-- Whether a queue is looked at, by the filter. -/
def selects (queues : List String) (filter : Bool) (queue : String) : Bool :=
  !filter || queues.any fun selected => queueBase selected = queueBase queue

/-- One pass of the loop over the fields of the hash. -/
def QueueTallies.read (queues : List String) (filter : Bool) (t : QueueTallies) (field : String × ℤ) :
    QueueTallies :=
  match splitField field.1 with
  | none => t
  | some (queue, stat) =>
    if selects queues filter queue then
      if stat = "enqueued" then
        { t with snapshots := t.snapshots.modify queue {} ({ · with enqueued := some field.2 }) }
      else if stat = "enqueued_at" then
        { t with snapshots := t.snapshots.modify queue {} ({ · with refreshedAt := some field.2 }) }
      else { t with counters := t.counters.modify queue {} (·.add stat field.2) }
    else t

section Aggregation

variable (o : HashOrders) (queues : List String) (stats : Table String ℤ) (filter : Bool) (now : ℤ)

/-- What has been gathered after the loop over the fields. -/
def queueTallies : QueueTallies :=
  (o.stats.order stats).foldl (QueueTallies.read queues filter)
    ⟨Table.collect id {} (fun counts _ => counts) queues, Table.empty⟩

/-- `enqueued_snapshots`: the lengths that are fresh, by queue. -/
def enqueuedSnapshots : Table String ℕ :=
  Table.collect Prod.fst 0 (fun _ e => e.2)
    ((o.snapshots.order (queueTallies o queues stats filter).snapshots).filterMap fun e =>
      (e.2.freshEnqueued now).map fun enqueued => (e.1, enqueued))

/-- `counters`; a length that is not zero makes its queue visible. -/
def queueCounters : Table String StoredCounts :=
  (o.enqueued.order (enqueuedSnapshots o queues stats filter now)).foldl
    (fun t e => if 0 < e.2 then t.modify e.1 {} id else t) (queueTallies o queues stats filter).counters

/-- `groups`: the queues are grouped by their base. -/
def queueGroups (counters : List (String × StoredCounts)) : Table String QueueStats :=
  Table.collectFrom (fun e => queueBase e.1) (fun base => { key := base })
    (fun parent e => parent.addQueue e.1 e.2) counters

/-- `aggregate_queue_stats`: the groups, and the lengths that were kept. -/
def aggregateQueueStats : List QueueStats × Table String ℕ :=
  ((o.groups.order (queueGroups (o.counters.order
    (queueCounters o queues stats filter now)))).map Prod.snd,
    enqueuedSnapshots o queues stats filter now)

end Aggregation

end Oxana
