import Oxana.Redis.Store

/-!
# Key names

Every key of a storage begins with its namespace. The fixed keys (`jobs`,
`dead`, `schedule`, `retry`, …) and the processing lists are pairwise
distinct; a ready list is distinct from all of them when the queue's name does
not itself begin with the namespace. A name that does is taken verbatim as a
key (`namespaceQueue`), and then nothing is promised: it may be any key of the
storage.
-/

namespace Oxana

open Redis

/-- Whether a string begins with another one. -/
def startsWith (s pre : String) : Bool := pre.toList.isPrefixOf s.toList

/-- `Throttler::build_key`: the sorted set of a throttled queue has the same name in every
namespace. -/
def throttlerKey (queue : String) : Key := "oxana:throttler:" ++ queue

/-- The naming scheme of one storage: its namespace, which is never empty. -/
structure StorageKeys where
  /-- applied to every key -/
  nspace : String
  /-- an empty namespace is replaced before it gets here -/
  nonempty : nspace ≠ ""

namespace StorageKeys

/-- `StorageKeys::new`: the keys of a namespace, which has a default. -/
def new (nspace : String) : StorageKeys :=
  if h : nspace = "" then ⟨"oxanus", by decide⟩ else ⟨nspace, h⟩

variable (K : StorageKeys)

/-- The hash of serialized envelopes, by job id. -/
def jobs : Key := K.nspace ++ ":jobs"

/-- The list of dead envelopes, the latest first. -/
def dead : Key := K.nspace ++ ":dead"

/-- The sorted set of scheduled job ids, by the time they are due. -/
def schedule : Key := K.nspace ++ ":schedule"

/-- The sorted set of job ids that wait for a retry, by the time they are due. -/
def retry : Key := K.nspace ++ ":retry"

/-- The sorted set of heartbeats, by process id. -/
def processes : Key := K.nspace ++ ":processes"

/-- The hash of the records of processes, by process id. -/
def processesData : Key := K.nspace ++ ":processes_data"

/-- The hash of counters, of the whole storage and of its queues. -/
def stats : Key := K.nspace ++ ":stats"

/-- The hash of runtime configurations, by queue. -/
def queueConfigs : Key := K.nspace ++ ":queue_configs"

/-- What stands before the keys of metrics. -/
def metricsPrefix : Key := K.nspace ++ ":metrics"

/-- What stands before the name of a queue in the key of its ready list. -/
def queuePrefix : Key := K.nspace ++ ":queue"

/-- What stands before the id of a process in the key of its processing list. -/
def processingQueuePrefix : Key := K.nspace ++ ":processing"

/-- `StorageInternal::processing_queue`: the list of what a process has claimed. -/
def processingQueue (processId : String) : Key := K.processingQueuePrefix ++ ":" ++ processId

/-- `StorageInternal::namespace_queue`: the ready list of a queue, unless its name is taken for a
key already. -/
def namespaceQueue (queue : String) : Key :=
  if startsWith queue K.nspace then queue else K.queuePrefix ++ ":" ++ queue

/-- The name of the queue is not taken for a key, since it does not begin with the namespace. -/
def Plain (queue : String) : Prop := startsWith queue K.nspace = false

instance (queue : String) : Decidable (K.Plain queue) := inferInstanceAs (Decidable (_ = false))

/-! ### Distinctness -/

variable {K}

/-- The ready list of a plain queue is under the key that the queue's name gives; other queues are
named by their keys. -/
theorem namespaceQueue_of_plain {queue : String} (h : K.Plain queue) :
    K.namespaceQueue queue = K.nspace ++ (":queue:" ++ queue) := by
  have : (":queue:" : String) = ":queue" ++ ":" := by decide
  rw [namespaceQueue, if_neg (by rw [h]; decide), queuePrefix, this]
  simp [String.append_assoc]

theorem processingQueue_eq (processId : String) :
    K.processingQueue processId = K.nspace ++ (":processing:" ++ processId) := by
  have : (":processing:" : String) = ":processing" ++ ":" := by decide
  rw [processingQueue, processingQueuePrefix, this]
  simp [String.append_assoc]

/-- Distinct processes have distinct processing lists. -/
theorem processingQueue_injective : Function.Injective K.processingQueue := by
  intro p q h
  rw [processingQueue_eq, processingQueue_eq, String.append_right_inj,
    String.append_right_inj] at h
  exact h

theorem jobs_ne_dead : K.jobs ≠ K.dead := by
  rw [jobs, dead, Ne, String.append_right_inj]
  decide

theorem jobs_ne_schedule : K.jobs ≠ K.schedule := by
  rw [jobs, schedule, Ne, String.append_right_inj]
  decide

theorem jobs_ne_retry : K.jobs ≠ K.retry := by
  rw [jobs, retry, Ne, String.append_right_inj]
  decide

theorem schedule_ne_retry : K.schedule ≠ K.retry := by
  rw [schedule, retry, Ne, String.append_right_inj]
  decide

theorem dead_ne_schedule : K.dead ≠ K.schedule := by
  rw [dead, schedule, Ne, String.append_right_inj]
  decide

theorem dead_ne_retry : K.dead ≠ K.retry := by
  rw [dead, retry, Ne, String.append_right_inj]
  decide

theorem processes_ne_jobs : K.processes ≠ K.jobs := by
  rw [processes, jobs, Ne, String.append_right_inj]
  decide

theorem processes_ne_processesData : K.processes ≠ K.processesData := by
  rw [processes, processesData, Ne, String.append_right_inj]
  decide

/-- A processing list is none of the keys of jobs. -/
theorem processing_ne_fixed (processId : String) :
    K.processingQueue processId ≠ K.jobs ∧ K.processingQueue processId ≠ K.dead ∧
      K.processingQueue processId ≠ K.schedule ∧ K.processingQueue processId ≠ K.retry := by
  have h : ∀ t : String, t.toList.take 2 ≠ [':', 'p'] →
      K.nspace ++ (":processing:" ++ processId) ≠ K.nspace ++ t := by
    intro t ht he
    rw [String.append_right_inj] at he
    apply ht
    rw [← he, String.toList_append]
    rfl
  rw [processingQueue_eq]
  exact ⟨h _ (by decide), h _ (by decide), h _ (by decide), h _ (by decide)⟩

/-- A processing list is none of the keys of processes. -/
theorem processing_ne_records (processId : String) :
    K.processingQueue processId ≠ K.processes ∧ K.processingQueue processId ≠ K.processesData := by
  have h : ∀ t : String, t.toList.take 9 ≠ [':', 'p', 'r', 'o', 'c', 'e', 's', 's', 'i'] →
      K.nspace ++ (":processing:" ++ processId) ≠ K.nspace ++ t := by
    intro t ht he
    rw [String.append_right_inj] at he
    apply ht
    rw [← he, String.toList_append]
    rfl
  rw [processingQueue_eq]
  exact ⟨h _ (by decide), h _ (by decide)⟩

/-- The ready list of a plain queue is none of the keys of jobs. -/
theorem queue_ne_fixed {queue : String} (hq : K.Plain queue) :
    K.namespaceQueue queue ≠ K.jobs ∧ K.namespaceQueue queue ≠ K.dead ∧
      K.namespaceQueue queue ≠ K.schedule ∧ K.namespaceQueue queue ≠ K.retry := by
  have h : ∀ t : String, t.toList.take 2 ≠ [':', 'q'] →
      K.nspace ++ (":queue:" ++ queue) ≠ K.nspace ++ t := by
    intro t ht he
    rw [String.append_right_inj] at he
    apply ht
    rw [← he, String.toList_append]
    rfl
  rw [namespaceQueue_of_plain hq]
  exact ⟨h _ (by decide), h _ (by decide), h _ (by decide), h _ (by decide)⟩

/-- The ready list of a plain queue is none of the keys of processes. -/
theorem queue_ne_records {queue : String} (hq : K.Plain queue) :
    K.namespaceQueue queue ≠ K.processes ∧ K.namespaceQueue queue ≠ K.processesData := by
  have h : ∀ t : String, t.toList.take 2 ≠ [':', 'q'] →
      K.nspace ++ (":queue:" ++ queue) ≠ K.nspace ++ t := by
    intro t ht he
    rw [String.append_right_inj] at he
    apply ht
    rw [← he, String.toList_append]
    rfl
  rw [namespaceQueue_of_plain hq]
  exact ⟨h _ (by decide), h _ (by decide)⟩

/-- Distinct plain queues have distinct ready lists. -/
theorem namespaceQueue_injective {q q' : String} (hq : K.Plain q) (hq' : K.Plain q')
    (h : K.namespaceQueue q = K.namespaceQueue q') : q = q' := by
  rw [namespaceQueue_of_plain hq, namespaceQueue_of_plain hq', String.append_right_inj,
    String.append_right_inj] at h
  exact h

/-- The records of processes are kept under other keys than jobs. -/
theorem records_ne_jobs :
    (K.processes ≠ K.jobs ∧ K.processes ≠ K.schedule ∧ K.processes ≠ K.retry) ∧
      K.processesData ≠ K.jobs ∧ K.processesData ≠ K.schedule ∧ K.processesData ≠ K.retry := by
  have h : ∀ s t : String, s ≠ t → K.nspace ++ s ≠ K.nspace ++ t := by
    intro s t hst he
    exact hst ((String.append_right_inj K.nspace).mp he)
  exact ⟨⟨h _ _ (by decide), h _ _ (by decide), h _ _ (by decide)⟩,
    h _ _ (by decide), h _ _ (by decide), h _ _ (by decide)⟩

/-- A ready list is never a processing list. -/
theorem queue_ne_processing {queue : String} (hq : K.Plain queue) (processId : String) :
    K.namespaceQueue queue ≠ K.processingQueue processId := by
  rw [namespaceQueue_of_plain hq, processingQueue_eq, Ne, String.append_right_inj]
  intro he
  have := congrArg (fun s : String => s.toList.take 2) he
  simp at this

/-- The empty name is plain: a namespace is not empty. -/
theorem plain_empty : K.Plain "" := by
  have hne : K.nspace.toList ≠ [] := by
    intro h
    exact K.nonempty (String.toList_inj.mp (by rw [h]; rfl))
  rcases h : K.nspace.toList with _ | ⟨c, cs⟩
  · exact absurd h hne
  · simp [Plain, startsWith, h]

end StorageKeys

end Oxana
