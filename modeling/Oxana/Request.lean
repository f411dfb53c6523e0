import Oxana.Scripts
import Oxana.Keys
import Mathlib.Data.List.Basic

/-!
# Enqueue requests

What a producer computes between its reads and the script call of a chunk:
which envelopes are left to submit, which ids need a snapshot, and the
arguments of the script. These are the pure parts of
`enqueue_chunk_w_conn`; the reads and the retry loop around them are in
`Oxana.Storage`.

Hash maps and sets of ids are lists without repetitions here, in the order of
insertion; nothing depends on that order.
-/

namespace Oxana

open Redis

/-- Where a job is placed when it is enqueued. -/
inductive JobDestination where
  /-- on the ready list of its queue -/
  | queue
  /-- in the schedule -/
  | schedule
  deriving DecidableEq, Repr

/-- Whether the envelope is written whether or not its id is stored. -/
def JobEnvelope.unconditional (e : JobEnvelope) : Bool :=
  !e.jobMeta.unique || decide (e.jobMeta.onConflict = some .replace)

/-- The conflict mode that is passed to the script for an envelope. -/
def JobEnvelope.conflict (e : JobEnvelope) : Conflict :=
  if !e.jobMeta.unique then .default
  else if e.jobMeta.onConflict = some .replace then .replace
  else .skip

/-- Leave out the Skip envelopes whose ids this request has already written,
or has seen earlier in the chunk. -/
def pendingOf (written : List JobId) : List JobEnvelope → List JobId → List JobEnvelope
  | [], _ => []
  | e :: es, seen =>
    if e.skips ∧ (e.id ∈ written ∨ e.id ∈ seen) then pendingOf written es seen
    else e :: pendingOf written es (e.id :: seen)

/-- The ids whose first unconditional write is a replacement. -/
def replacementIds : List JobEnvelope → List JobId → List JobId
  | [], _ => []
  | e :: es, overwritten =>
    if e.unconditional ∧ e.id ∉ overwritten then
      if e.jobMeta.unique then e.id :: replacementIds es (e.id :: overwritten)
      else replacementIds es (e.id :: overwritten)
    else replacementIds es overwritten

/-- Snapshots by id; `none` is the snapshot of an absent payload. -/
abbrev Snapshots := List (JobId × Option EnqueueSnapshot)

/-- Replace the snapshot of an id, or add it. -/
def Snapshots.insert (m : Snapshots) (id : JobId) (s : Option EnqueueSnapshot) : Snapshots :=
  match m with
  | [] => [(id, s)]
  | (id', s') :: m => if id' = id then (id, s) :: m else (id', s') :: Snapshots.insert m id s

/-- The ids of Skip envelopes that no snapshot tells about. -/
def skipIds (pending : List JobEnvelope) (snapshots : Snapshots) : List JobId :=
  (pending.filter fun e => e.skips ∧ (snapshots.lookup e.id).isNone).map (·.id)

/-- The ids of Skip envelopes that a snapshot shows to exist. -/
def snapshotSkips (pending : List JobEnvelope) (snapshots : Snapshots) : List JobId :=
  (pending.filter fun e => e.skips ∧ ((snapshots.lookup e.id).join).isSome).map (·.id)

/-- Leave out the Skip envelopes that are known to exist. -/
def dropExisting (existing : List JobId) (pending : List JobEnvelope) : List JobEnvelope :=
  pending.filter fun e => ¬ (e.skips ∧ e.id ∈ existing)

/-- A Skip envelope is dropped from a request if its id is there already. -/
theorem dropExisting_cons_drop {existing : List JobId} {e : JobEnvelope}
    (h : e.skips ∧ e.id ∈ existing) (es : List JobEnvelope) :
    dropExisting existing (e :: es) = dropExisting existing es := by
  simp only [dropExisting]
  exact List.filter_cons_of_neg (by simpa using h)

/-- Any other envelope is kept. -/
theorem dropExisting_cons_keep {existing : List JobId} {e : JobEnvelope}
    (h : ¬ (e.skips ∧ e.id ∈ existing)) (es : List JobEnvelope) :
    dropExisting existing (e :: es) = e :: dropExisting existing es := by
  simp only [dropExisting]
  exact List.filter_cons_of_pos (decide_eq_true h)

/-- The queues of a call, each once: those of the jobs, then those of the
snapshots. -/
def declaredQueues (pending : List JobEnvelope) (snapshots : Snapshots) : List String :=
  ((pending.map (·.queue)) ++ snapshots.filterMap fun p => p.2.map (·.queue)).eraseDups

/-- The index under which a queue's key is passed. -/
def queueIndex (queues : List String) (queue : String) : Nat := queues.idxOf queue + 4

/-- The arguments of the script that are about one snapshot. -/
def snapshotArg (queues : List String) (id : JobId) : Option EnqueueSnapshot → SnapshotArg
  | some s => ⟨id, .compare s.comparison, s.expected, queueIndex queues s.queue⟩
  | none => ⟨id, .absent, "", 0⟩

/-- The arguments of the script that are about one job. -/
def inputArg (queues : List String) (e : JobEnvelope) : InputArg :=
  ⟨e.id, e.encode, queueIndex queues e.queue, e.conflict, e.jobMeta.scheduledAt.toInt⟩

/-- One call of the script, as the producer makes it. -/
def enqueueCall (K : StorageKeys) (destination : JobDestination) (snapshots : Snapshots)
    (pending : List JobEnvelope) : Script EnqueueReply :=
  let queues := declaredQueues pending snapshots
  enqueueScript K.jobs K.schedule K.retry (queues.map K.namespaceQueue)
    (destination = .schedule) (snapshots.map fun p => snapshotArg queues p.1 p.2)
    (pending.map (inputArg queues))

/-! ### The queues of a call are declared -/

/-- The script finds the ready list of a queue under the index that the request gives for it. -/
theorem keyAt_queueIndex (K : StorageKeys) {queues : List String} {queue : String}
    (h : queue ∈ queues) :
    keyAt (K.jobs :: K.schedule :: K.retry :: queues.map K.namespaceQueue)
      (queueIndex queues queue) = some (K.namespaceQueue queue) := by
  rw [queueIndex, keyAt]
  have : (queues.map K.namespaceQueue)[queues.idxOf queue]? = some (K.namespaceQueue queue) := by
    rw [List.getElem?_map, List.getElem?_idxOf h]
    rfl
  exact this

/-- The queue of every pending job is declared to the script. -/
theorem mem_declared_pending {pending : List JobEnvelope} {snapshots : Snapshots}
    {e : JobEnvelope} (h : e ∈ pending) : e.queue ∈ declaredQueues pending snapshots :=
  List.mem_eraseDups.mpr (List.mem_append_left _ (List.mem_map_of_mem h))

/-- The queue of every snapshot is declared to the script. -/
theorem mem_declared_snapshot {pending : List JobEnvelope} {snapshots : Snapshots} {id : JobId}
    {s : EnqueueSnapshot} (h : (id, some s) ∈ snapshots) :
    s.queue ∈ declaredQueues pending snapshots :=
  List.mem_eraseDups.mpr (List.mem_append_right _ (List.mem_filterMap.mpr ⟨(id, some s), h, rfl⟩))

end Oxana
