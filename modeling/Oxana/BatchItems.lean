import Oxana.Batcher
import Oxana.Calls
import Oxana.Executor
import Oxana.Metrics
import Oxana.Table

/-!
# The jobs of a batch

A batch of claimed jobs is turned into the jobs of its worker by decoding the arguments one by one.
Arguments that cannot be decoded are recorded by their position; the envelopes at these positions
are killed and left out, and from then on jobs, envelopes, contexts and policies are matched by
position alone.

`processPendingBatch_eq` says that this is the same as taking each envelope together with the job
its own arguments decode to: it is run with its own context, and a failure is handled with the limit
and the delay that its own job has.
-/

namespace Oxana.BatchItems

open Call

variable {γ A : Type}

/-! ## The worker -/

/-- A registered batch worker for jobs of type `A`. -/
structure BatchWorker (A : Type) where
  /-- `serde_json::from_value` -/
  fromValue : Json.Value → Except String A
  /-- how often a job is retried -/
  maxRetries : A → UInt32
  /-- when it is retried, by the number of retries -/
  retryDelay : A → UInt32 → UInt64
  /-- whether its jobs go on with the state they left -/
  shouldResume : Bool

/-- What a handler is told about a job beside its arguments. -/
structure JobContext where
  /-- under which the state is kept -/
  id : JobId
  /-- the metadata of the envelope -/
  jobMeta : JobMeta
  /-- the state that was kept -/
  state : Option Json.Value

/-- A job as the handler of a batch gets it, with its context. -/
structure BatchItem (A : Type) where
  /-- the job -/
  job : A
  /-- what it is told -/
  ctx : JobContext

/-- The settings and the worker that a batch is run with. -/
structure BatchRuntime (γ A : Type) where
  /-- the storage -/
  handle : Handle
  /-- the worker -/
  worker : BatchWorker A
  /-- `Worker::run_batch` -/
  handler : List (BatchItem A) → Call γ ExecutionResult
  /-- `format_error` -/
  formatError : String → String
  /-- `retry_delay_override`, for an error, a number of retries and the delay of the worker -/
  retryDelayOverride : String → UInt32 → UInt64 → Option UInt64

/-! ## Building the jobs -/

/-- A job of a batch whose arguments could not be decoded. -/
structure InvalidBatchJob where
  /-- the position in the batch -/
  index : ℕ
  /-- why -/
  error : String

/-- What is built from the arguments of a batch: jobs, and positions that are invalid. -/
structure BatchBuild (A : Type) where
  /-- the jobs, if there are any -/
  job : Option (List A)
  /-- the arguments that are none -/
  invalid : List InvalidBatchJob

variable (W : BatchWorker A)

/-- One round of the loop of `job_batch_factory`, for the arguments at one position. -/
def buildOne (built : List A × List InvalidBatchJob) (value : Json.Value × ℕ) :
    List A × List InvalidBatchJob :=
  match W.fromValue value.1 with
  | .ok job => (built.1 ++ [job], built.2)
  | .error error => (built.1, built.2 ++ [⟨value.2, error⟩])

/-- `job_batch_factory`: the arguments of all positions are decoded, those that can be. -/
def jobBatchFactory (values : List Json.Value) : BatchBuild A :=
  let built := values.zipIdx.foldl (buildOne W) ([], [])
  ⟨if built.1.isEmpty then none else some built.1, built.2⟩

/-- `invalid_jobs_by_index`: the first error of each position of the batch. -/
def invalidJobsByIndex (invalidJobs : List InvalidBatchJob) (envelopeCount : ℕ) :
    Table ℕ String :=
  invalidJobs.foldl (fun t invalid =>
    if invalid.index < envelopeCount then t.modify invalid.index invalid.error id else t) .empty

variable (B : BatchRuntime γ A)

/-- The loop of `process_pending_batch` that kills what is invalid and keeps the rest. -/
def dropInvalid (workerName : String) (invalidByIndex : Table ℕ String) :
    ℕ → List PendingJob → List PendingJob → Call γ (List PendingJob)
  | _, valid, [] => pure valid
  | index, valid, job :: rest =>
    match invalidByIndex.find index with
    | some error => do
      kill B.handle job.envelope ("Invalid job: " ++ workerName ++ " - " ++ error)
      dropInvalid workerName invalidByIndex (index + 1) valid rest
    | none => dropInvalid workerName invalidByIndex (index + 1) (valid ++ [job]) rest

/-- The part of `process_pending_batch` that does so if there is anything invalid. -/
def remaining (workerName : String) (invalidByIndex : Table ℕ String)
    (pending : List PendingJob) : Call γ (List PendingJob) :=
  if invalidByIndex.entries.isEmpty then pure pending
  else dropInvalid B workerName invalidByIndex 0 [] pending

/-! ## Running them -/

/-- `JobExecutionPolicy`: what decides what follows a failure of the job. -/
structure JobExecutionPolicy where
  /-- how often the job is retried -/
  maxRetries : UInt32
  /-- when -/
  retryDelay : UInt64

/-- `execution_policy`; an index out of bounds is a panic. -/
def executionPolicy (jobs : List A) (index : ℕ) (e : JobEnvelope) : Option JobExecutionPolicy :=
  (jobs[index]?).map fun job => ⟨W.maxRetries job, W.retryDelay job e.jobMeta.retries⟩

/-- `job_context`: what a handler is told about the job of an envelope. -/
def jobContext (e : JobEnvelope) : JobContext := ⟨e.id, e.jobMeta, e.jobMeta.state⟩

/-- `BoundBatchJob::process`, run by `run_process`, which catches its panics. -/
def process (jobs : List A) (contexts : List JobContext) : Call γ ExecutionResult :=
  if jobs.length = contexts.length then
    B.handler (jobs.zipWith (fun job ctx => ⟨job, ctx⟩) contexts)
  else pure (.panicked "batch jobs and contexts must have the same length")

/-- `handle_err` for every job of a failed batch, with its policy; the first error ends it. -/
def handlePolicies (message : String) (delay : JobEnvelope → JobExecutionPolicy → UInt64) :
    List (JobEnvelope × JobExecutionPolicy) → Call γ Unit
  | [] => pure ()
  | (e, policy) :: rest => do
    handleErr B.handle message e (delay e policy) policy.maxRetries
    handlePolicies message delay rest

/-- The error of a request, if there is one: `finish_batch_result` hands it to `config.fail` and
goes on. -/
def failureOf (x : Call γ Unit) : Call γ (Option OxanaError) :=
  catching x fun r => match r with
    | .ok _ => pure none
    | .error e => pure (some e)

/-- `finish_batch_result`, with the error that is handed to `config.fail`. A batch that cannot be
acknowledged counts as executed all the same. -/
def finish (result : ExecutionResult) (envelopes : List JobEnvelope)
    (policies : List JobExecutionPolicy) : Call γ (WorkerResultKind × Option OxanaError) :=
  match result with
  | .success => do
    let failure ← failureOf (finishWithSuccessBatch B.handle envelopes)
    pure (.success, failure)
  | .failed error => do
    let failure ← failureOf (handlePolicies B (B.formatError error)
      (fun e policy => (B.retryDelayOverride error e.jobMeta.retries policy.retryDelay).getD
        policy.retryDelay) (envelopes.zip policies))
    pure (.failed, failure)
  | .panicked message => do
    let failure ← failureOf
      (handlePolicies B message (fun _ policy => policy.retryDelay) (envelopes.zip policies))
    pure (.panicked, failure)

/-- What `process_pending_batch` passes on when a batch has been run. -/
structure BatchOutcome where
  /-- the kind of the result, for `process_result` -/
  kind : WorkerResultKind
  /-- the error that `config.fail` was called with -/
  failure : Option OxanaError
  /-- the envelopes, as they were started, for `process_result` -/
  envelopes : List JobEnvelope

/-- `run_batch`: the jobs that could be decoded are executed together, and finished. -/
def runJobs (jobs : List A) (envelopes : List JobEnvelope) : Call γ BatchOutcome :=
  if envelopes = [] then pure ⟨.success, none, []⟩
  else if jobs.length ≠ envelopes.length then fail .generic
  else match (envelopes.zipIdx).mapM fun e => executionPolicy B.worker jobs e.2 e.1 with
    | none => hang
    | some policies => do
      let started ← setStartedAtBatch B.handle
        (if B.worker.shouldResume then envelopes else envelopes.map (·.withoutState))
      let result ← process B jobs (started.map jobContext)
      let (kind, failure) ← finish B result started policies
      pure ⟨kind, failure, started⟩

/-- `process_pending_batch` for a worker that is registered, with what it passes on. -/
def processPendingBatch (pending : List PendingJob) : Call γ (Option BatchOutcome) :=
  match pending with
  | [] => pure none
  | first :: _ => do
    let workerName := first.envelope.job.name
    let batch := jobBatchFactory B.worker (pending.map (·.envelope.job.args))
    let invalidByIndex := invalidJobsByIndex batch.invalid pending.length
    let valid ← remaining B workerName invalidByIndex pending
    match batch.job with
    | none => pure none
    | some jobs => do
      let outcome ← runJobs B jobs (valid.map (·.envelope))
      pure (some outcome)

/-! ## What it amounts to -/

/-- The jobs that can be decoded, each with its own envelope. -/
def decodable (pending : List PendingJob) : List (A × JobEnvelope) :=
  pending.filterMap fun job =>
    (W.fromValue job.envelope.job.args).toOption.map fun a => (a, job.envelope)

/-- The envelopes that are not valid, each with the reason. -/
def undecodable (pending : List PendingJob) : List (JobEnvelope × String) :=
  pending.filterMap fun job => match W.fromValue job.envelope.job.args with
    | .ok _ => none
    | .error error => some (job.envelope, error)

/-- Kill these jobs with their reasons, one after the other. -/
def killAll (workerName : String) : List (JobEnvelope × String) → Call γ Unit
  | [] => pure ()
  | e :: es => do
    kill B.handle e.1 ("Invalid job: " ++ workerName ++ " - " ++ e.2)
    killAll workerName es

/-- The policy of a job, made for its own envelope. -/
def policyOf (job : A × JobEnvelope) : JobExecutionPolicy :=
  ⟨W.maxRetries job.1, W.retryDelay job.1 job.2.jobMeta.retries⟩

/-- The delay of a job after this error, for its own envelope: what the settings say, or else what
the worker says about the job. -/
def delayAfter (error : String) (job : A × JobEnvelope) : UInt64 :=
  (B.retryDelayOverride error job.2.jobMeta.retries
    (B.worker.retryDelay job.1 job.2.jobMeta.retries)).getD
      (B.worker.retryDelay job.1 job.2.jobMeta.retries)

/-- The envelope of a job as it is started. -/
def startedAt (t : Int) (job : A × JobEnvelope) : JobEnvelope :=
  (if W.shouldResume then job.2 else job.2.withoutState).withStartedAt (Int64.ofInt t)

/-- Handle the failure of jobs one after the other, each with the delay and the limit that the job
itself has; the first error ends it. -/
def handlePairs (message : String) (delay : A × JobEnvelope → UInt64) (t : Int) :
    List (A × JobEnvelope) → Call γ Unit
  | [] => pure ()
  | job :: jobs => do
    handleErr B.handle message (startedAt B.worker t job) (delay job) (B.worker.maxRetries job.1)
    handlePairs message delay t jobs

/-- Finish jobs that come with their envelopes: after a success all of them are acknowledged, after
an error or a panic each is retried or killed by the policy of its own job. -/
def finishPairs (result : ExecutionResult) (t : Int) (jobs : List (A × JobEnvelope)) :
    Call γ (WorkerResultKind × Option OxanaError) :=
  match result with
  | .success => do
    let failure ← failureOf
      (finishWithSuccessBatch B.handle (jobs.map (startedAt B.worker t)))
    pure (.success, failure)
  | .failed error => do
    let failure ← failureOf (handlePairs B (B.formatError error) (delayAfter B error) t jobs)
    pure (.failed, failure)
  | .panicked message => do
    let failure ← failureOf (handlePairs B message
      (fun job => B.worker.retryDelay job.1 job.2.jobMeta.retries) t jobs)
    pure (.panicked, failure)

/-- Run jobs that come with their envelopes, so that positions do not matter. -/
def runPairs (jobs : List (A × JobEnvelope)) : Call γ BatchOutcome := do
  let t ← now
  updateJobs B.handle (jobs.map (startedAt B.worker t))
  let result ← B.handler (jobs.map fun job => ⟨job.1, jobContext (startedAt B.worker t job)⟩)
  let (kind, failure) ← finishPairs B result t jobs
  pure ⟨kind, failure, jobs.map (startedAt B.worker t)⟩

/-- Kill what cannot be decoded and run the rest, every job with its own envelope. -/
def alignedBatch (pending : List PendingJob) : Call γ (Option BatchOutcome) :=
  match pending with
  | [] => pure none
  | first :: _ => do
    killAll B first.envelope.job.name (undecodable B.worker pending)
    match decodable B.worker pending with
    | [] => pure none
    | job :: jobs => do
      let outcome ← runPairs B (job :: jobs)
      pure (some outcome)

/-! ## The factory -/

variable {W B}

/-- The error of the arguments at a position, if they cannot be decoded. -/
def errorAt (W : BatchWorker A) (values : List Json.Value) (i : ℕ) : Option String :=
  (values[i]?).bind fun value => match W.fromValue value with
    | .ok _ => none
    | .error error => some error

/-- The loop collects the jobs that can be decoded, in order, and the errors of the others with
their positions. -/
theorem foldl_buildOne (values : List Json.Value) (n : ℕ)
    (built : List A × List InvalidBatchJob) :
    (values.zipIdx n).foldl (buildOne W) built =
      (built.1 ++ values.filterMap (fun value => (W.fromValue value).toOption),
        built.2 ++ (values.zipIdx n).filterMap fun value => match W.fromValue value.1 with
          | .ok _ => none
          | .error error => some ⟨value.2, error⟩) := by
  induction values generalizing n built with
  | nil => simp
  | cons value values ih =>
    rw [List.zipIdx_cons, List.foldl_cons, ih, List.filterMap_cons, List.filterMap_cons, buildOne]
    cases W.fromValue value with
    | ok job => simp [Except.toOption]
    | error error => simp [Except.toOption]

/-- The first error recorded for a position is the one that is found there. -/
theorem find_invalidJobsByIndex (invalidJobs : List InvalidBatchJob) (n i : ℕ) :
    (invalidJobsByIndex invalidJobs n).find i =
      if i < n then (invalidJobs.find? fun invalid => invalid.index = i).map (·.error)
      else none := by
  -- the loop may start from any table
  have hloop : ∀ t : Table ℕ String, (invalidJobs.foldl (fun t invalid =>
      if invalid.index < n then t.modify invalid.index invalid.error id else t) t).find i =
      (t.find i).or (if i < n then
        (invalidJobs.find? fun invalid => invalid.index = i).map (·.error) else none) := by
    induction invalidJobs with
    | nil => simp
    | cons invalid rest ih =>
      intro t
      rw [List.foldl_cons, ih, List.find?_cons]
      by_cases hi : invalid.index = i
      · subst hi
        by_cases hn : invalid.index < n
        · rw [if_pos hn, Table.find_modify_self]
          cases t.find invalid.index with
          | none => simp [hn]
          | some error => simp
        · simp [hn]
      · have hne : i ≠ invalid.index := fun h => hi h.symm
        by_cases hn : invalid.index < n
        · rw [if_pos hn, Table.find_modify_ne _ hne]
          simp [hi]
        · simp [hn, hi]
  exact (hloop .empty).trans (Option.none_or ..)

/-- What the factory records is found under the positions of the arguments that cannot be decoded.
-/
theorem find?_invalid (values : List Json.Value) (n i : ℕ) :
    ((((values.zipIdx n).filterMap fun value => match W.fromValue value.1 with
      | .ok _ => none
      | .error error => some (⟨value.2, error⟩ : InvalidBatchJob)).find? fun invalid =>
        invalid.index = n + i).map (·.error)) = errorAt W values i := by
  induction values generalizing n i with
  | nil => rfl
  | cons value values ih =>
    rw [List.zipIdx_cons, List.filterMap_cons]
    cases i with
    | zero =>
      cases hv : W.fromValue value with
      | ok job =>
        -- all later positions are larger
        have hlater : (((values.zipIdx (n + 1)).filterMap fun value =>
            match W.fromValue value.1 with
            | .ok _ => none
            | .error error => some (⟨value.2, error⟩ : InvalidBatchJob)).find? fun invalid =>
              invalid.index = n + 0) = none := by
          refine List.find?_eq_none.mpr fun invalid hmem => ?_
          obtain ⟨⟨value', m⟩, hin, hval⟩ := List.mem_filterMap.mp hmem
          have hm := List.le_snd_of_mem_zipIdx hin
          split at hval
          next => cases hval
          next =>
            cases hval
            simp only [decide_eq_true_eq]
            omega
        simp only [hlater, errorAt, List.getElem?_cons_zero, Option.bind_some, hv]
        rfl
      | error error => simp [errorAt, hv]
    | succ i =>
      have hih := ih (n + 1) i
      have herr : errorAt W (value :: values) (i + 1) = errorAt W values i := rfl
      rw [show n + (i + 1) = n + 1 + i by omega, herr, ← hih]
      cases W.fromValue value with
      | ok job => rfl
      | error error =>
        rw [List.find?_cons]
        have hne : decide (n = n + 1 + i) = false := decide_eq_false (by omega)
        simp only [hne]

/-- So the table holds exactly the errors: for each position the one of its argument, if it has one.
-/
theorem find_invalid (values : List Json.Value) (i : ℕ) :
    (invalidJobsByIndex (jobBatchFactory W values).invalid values.length).find i =
      errorAt W values i := by
  rw [find_invalidJobsByIndex]
  have hinvalid : (jobBatchFactory W values).invalid =
      values.zipIdx.filterMap fun value => match W.fromValue value.1 with
        | .ok _ => none
        | .error error => some ⟨value.2, error⟩ := by
    rw [jobBatchFactory, foldl_buildOne]
    rfl
  split
  next =>
    have h := find?_invalid (W := W) values 0 i
    rw [Nat.zero_add] at h
    rw [hinvalid, h]
  next hi => rw [errorAt, List.getElem?_eq_none (Nat.le_of_not_lt hi), Option.bind_none]

/-- The factory builds the jobs that can be decoded, in order, or nothing if there are none. -/
theorem jobBatchFactory_job (pending : List PendingJob) :
    (jobBatchFactory W (pending.map (·.envelope.job.args))).job =
      if (decodable W pending).isEmpty then none
      else some ((decodable W pending).map (·.1)) := by
  have hjobs : (pending.map (·.envelope.job.args)).filterMap
      (fun value => (W.fromValue value).toOption) = (decodable W pending).map (·.1) := by
    rw [List.filterMap_map, decodable, List.map_filterMap]
    refine List.filterMap_congr fun job _ => ?_
    simp [Option.map_map, Function.comp_def]
  rw [jobBatchFactory, foldl_buildOne]
  simp only [List.nil_append, hjobs, List.isEmpty_map]

/-! ## The envelopes -/

/-- The claimed jobs that stay in the batch, since their arguments can be decoded. -/
def valid (W : BatchWorker A) (pending : List PendingJob) : List PendingJob :=
  pending.filter fun job => (W.fromValue job.envelope.job.args).toOption.isSome

/-- The jobs that are left in a batch are those whose arguments can be decoded. -/
theorem valid_envelopes (pending : List PendingJob) :
    (valid W pending).map (·.envelope) = (decodable W pending).map (·.2) := by
  induction pending with
  | nil => rfl
  | cons job rest ih =>
    rw [valid, decodable, List.filter_cons, List.filterMap_cons]
    cases W.fromValue job.envelope.job.args with
    | ok a => exact congrArg (job.envelope :: ·) ih
    | error error => exact ih

/-- The loop kills what cannot be decoded, in order, and keeps the rest. -/
theorem dropInvalid_eq {workerName : String} {invalidByIndex : Table ℕ String} {n : ℕ}
    {kept rest : List PendingJob} (h : ∀ i, invalidByIndex.find (n + i) =
      errorAt B.worker (rest.map (·.envelope.job.args)) i) :
    dropInvalid B workerName invalidByIndex n kept rest =
      (do
        killAll B workerName (undecodable B.worker rest)
        pure (kept ++ valid B.worker rest)) := by
  induction rest generalizing n kept with
  | nil => rw [valid, List.filter_nil, List.append_nil]; rfl
  | cons job rest ih =>
    have hhere := h 0
    have hrest : ∀ i, invalidByIndex.find (n + 1 + i) =
        errorAt B.worker (rest.map (·.envelope.job.args)) i := by
      intro i
      rw [show n + 1 + i = n + (i + 1) by omega, h (i + 1)]
      rfl
    have hzero : errorAt B.worker ((job :: rest).map (·.envelope.job.args)) 0 =
        match B.worker.fromValue job.envelope.job.args with
        | .ok _ => none
        | .error error => some error := rfl
    rw [Nat.add_zero, hzero] at hhere
    rw [dropInvalid, undecodable, valid, List.filterMap_cons, List.filter_cons]
    cases hv : B.worker.fromValue job.envelope.job.args with
    | ok a =>
      rw [hv] at hhere
      simp only [hhere, ih hrest, Except.toOption, Option.isSome_some, if_true,
        List.append_assoc, List.singleton_append]
      rfl
    | error error =>
      rw [hv] at hhere
      simp only [hhere, ih hrest, Except.toOption, Option.isSome_none, Bool.false_eq_true,
        if_false]
      exact (Call.bind_assoc _ _ _).symm

/-- Without errors the loop has nothing to do and keeps everything. -/
theorem dropInvalid_empty {workerName : String} {invalidByIndex : Table ℕ String}
    (h : invalidByIndex.entries.isEmpty) (n : ℕ) (kept rest : List PendingJob) :
    dropInvalid B workerName invalidByIndex n kept rest = pure (kept ++ rest) := by
  have hnone : ∀ i, invalidByIndex.find i = none := by
    intro i
    rw [Table.find, List.isEmpty_iff.mp h, List.lookup_nil]
  induction rest generalizing n kept with
  | nil => rw [List.append_nil]; rfl
  | cons job rest ih =>
    rw [dropInvalid, hnone]
    simp only [ih, List.append_assoc, List.singleton_append]

/-- The jobs that are left after the loop are those that can be decoded. -/
theorem remaining_eq (workerName : String) (pending : List PendingJob) :
    remaining B workerName (invalidJobsByIndex (jobBatchFactory B.worker
        (pending.map (·.envelope.job.args))).invalid pending.length) pending =
      (do
        killAll B workerName (undecodable B.worker pending)
        pure (valid B.worker pending)) := by
  have hfind := find_invalid (W := B.worker) (pending.map (·.envelope.job.args))
  rw [List.length_map] at hfind
  have hdrop : dropInvalid B workerName (invalidJobsByIndex (jobBatchFactory B.worker
      (pending.map (·.envelope.job.args))).invalid pending.length) 0 [] pending = _ :=
    dropInvalid_eq fun i => (congrArg _ (Nat.zero_add i)).trans (hfind i)
  rw [List.nil_append] at hdrop
  rw [← hdrop, remaining]
  split
  next h => exact (dropInvalid_empty h 0 [] pending).symm
  next => rfl

/-! ## Running the rest -/

/-- Every index is in bounds, and the policy found there is the one of the job. -/
theorem executionPolicies (jobs : List (A × JobEnvelope)) :
    ((jobs.map (·.2)).zipIdx).mapM
        (fun e => executionPolicy W (jobs.map (·.1)) e.2 e.1) =
      some (jobs.map (policyOf W)) := by
  -- the policies of a suffix are looked up among all jobs
  have hsuffix : ∀ before rest : List (A × JobEnvelope),
      ((rest.map (·.2)).zipIdx before.length).mapM
          (fun e => executionPolicy W ((before ++ rest).map (·.1)) e.2 e.1) =
        some (rest.map (policyOf W)) := by
    intro before rest
    induction rest generalizing before with
    | nil => rfl
    | cons job rest ih =>
      have htail := ih (before ++ [job])
      rw [List.append_assoc, List.singleton_append, List.length_append, List.length_singleton]
        at htail
      have hhead : executionPolicy W ((before ++ job :: rest).map (·.1)) before.length job.2 =
          some (policyOf W job) := by
        rw [executionPolicy, List.map_append, List.getElem?_append_right (by simp)]
        simp [policyOf]
      rw [List.map_cons, List.zipIdx_cons, List.mapM_cons, hhead, htail]
      rfl
  exact hsuffix [] jobs

/-- Starting an envelope does not change the number of its retries. -/
theorem startedAt_retries (t : Int) (job : A × JobEnvelope) :
    (startedAt W t job).jobMeta.retries = job.2.jobMeta.retries := by
  rw [startedAt]
  split
  · rfl
  · rfl

/-- Policies that are matched with the envelopes by position are those of the jobs. -/
theorem handlePolicies_eq (message : String) {delay : JobEnvelope → JobExecutionPolicy → UInt64}
    {delay' : A × JobEnvelope → UInt64} (t : Int)
    (hdelay : ∀ job, delay (startedAt B.worker t job) (policyOf B.worker job) = delay' job)
    (jobs : List (A × JobEnvelope)) :
    handlePolicies B message delay
        ((jobs.map (startedAt B.worker t)).zip (jobs.map (policyOf B.worker))) =
      handlePairs B message delay' t jobs := by
  induction jobs with
  | nil => rfl
  | cons job jobs ih =>
    rw [List.map_cons, List.map_cons, List.zip_cons_cons, handlePolicies, handlePairs, hdelay, ih]
    rfl

/-- Finishing a batch by position is finishing each job by its own policy. -/
theorem finish_eq (result : ExecutionResult) (t : Int) (jobs : List (A × JobEnvelope)) :
    finish B result (jobs.map (startedAt B.worker t)) (jobs.map (policyOf B.worker)) =
      finishPairs B result t jobs := by
  cases result with
  | success => rfl
  | failed error =>
    have hdelay (job : A × JobEnvelope) :
        (B.retryDelayOverride error (startedAt B.worker t job).jobMeta.retries
          (policyOf B.worker job).retryDelay).getD (policyOf B.worker job).retryDelay =
            delayAfter B error job := by
      rw [startedAt_retries]
      rfl
    rw [finish, handlePolicies_eq _ t hdelay, finishPairs]
  | panicked message => rw [finish, handlePolicies_eq _ t (fun _ => rfl), finishPairs]; rfl

/-- Neither check of a length fails, and every envelope is matched with its own job. -/
theorem runJobs_eq {jobs : List (A × JobEnvelope)} (hne : jobs ≠ []) :
    runJobs B (jobs.map (·.1)) (jobs.map (·.2)) = runPairs B jobs := by
  have hne' : jobs.map (·.2) ≠ [] := fun h => hne (List.map_eq_nil_iff.mp h)
  have hlen : ¬ (jobs.map (·.1)).length ≠ (jobs.map (·.2)).length := by simp
  have hstarted (t : Int) : (if B.worker.shouldResume then jobs.map (·.2)
      else (jobs.map (·.2)).map (·.withoutState)).map (·.withStartedAt (Int64.ofInt t)) =
        jobs.map (startedAt B.worker t) := by
    cases hr : B.worker.shouldResume <;> simp [startedAt, hr, Function.comp_def]
  have hprocess (t : Int) : process B (jobs.map (·.1))
      ((jobs.map (startedAt B.worker t)).map jobContext) =
        B.handler (jobs.map fun job => ⟨job.1, jobContext (startedAt B.worker t job)⟩) := by
    rw [process, if_pos (by simp), List.map_map, List.zipWith_map, List.zipWith_self]
    rfl
  rw [runJobs, if_neg hne', if_neg hlen, executionPolicies]
  simp only [setStartedAtBatch, Call.bind_assoc, Call.pure_bind, hstarted, hprocess, finish_eq]
  rfl

/-- Nothing is lost: every claimed job of a batch is either killed or run, and only once. -/
theorem killed_or_run (pending : List PendingJob) :
    ((undecodable W pending).map (·.1) ++ (decodable W pending).map (·.2)).Perm
      (pending.map (·.envelope)) := by
  induction pending with
  | nil => exact .refl _
  | cons job rest ih =>
    rw [undecodable, decodable, List.filterMap_cons, List.filterMap_cons, List.map_cons]
    cases W.fromValue job.envelope.job.args with
    | ok a => exact List.perm_middle.trans (ih.cons _)
    | error error => exact ih.cons _

/-- **Alignment.** Whatever a batch worker is handed, processing the batch kills, once each and in
order, the jobs whose arguments cannot be decoded, and runs the others, each envelope with the job
its own arguments decode to and the context of that envelope. A success acknowledges exactly these
envelopes; after a failure each of them is retried or killed by the limit and the delay of its own job.
There are as many jobs as envelopes left, and every claimed job is either killed or run. -/
theorem processPendingBatch_eq (B : BatchRuntime γ A) (pending : List PendingJob) :
    processPendingBatch B pending = alignedBatch B pending ∧
    (jobBatchFactory B.worker (pending.map (·.envelope.job.args))).job.getD [] =
      (decodable B.worker pending).map (·.1) ∧
    (valid B.worker pending).map (·.envelope) = (decodable B.worker pending).map (·.2) ∧
    (∀ job ∈ decodable B.worker pending,
      B.worker.fromValue job.2.job.args = .ok job.1) ∧
    (∀ job ∈ undecodable B.worker pending,
      B.worker.fromValue job.1.job.args = .error job.2) ∧
    ((undecodable B.worker pending).map (·.1) ++ (decodable B.worker pending).map (·.2)).Perm
      (pending.map (·.envelope)) := by
  refine ⟨?_, ?_, valid_envelopes pending, ?_, ?_, killed_or_run pending⟩
  · cases pending with
    | nil => rfl
    | cons first rest =>
      rw [processPendingBatch]
      simp only [remaining_eq, Call.bind_assoc, Call.pure_bind, valid_envelopes,
        jobBatchFactory_job]
      rw [alignedBatch]
      cases hd : decodable B.worker (first :: rest) with
      | nil => rfl
      | cons job jobs =>
        simp only [List.isEmpty_cons, Bool.false_eq_true, if_false]
        rw [runJobs_eq (List.cons_ne_nil job jobs)]
  · rw [jobBatchFactory_job]
    split
    next h => rw [List.isEmpty_iff.mp h]; rfl
    next => rfl
  · intro job hjob
    obtain ⟨p, -, hp⟩ := List.mem_filterMap.mp hjob
    obtain ⟨a, ha, rfl⟩ := Option.map_eq_some_iff.mp hp
    cases hv : B.worker.fromValue p.envelope.job.args with
    | ok a' =>
      rw [hv] at ha
      cases ha
      rfl
    | error error =>
      rw [hv] at ha
      cases ha
  · intro job hjob
    obtain ⟨p, -, hp⟩ := List.mem_filterMap.mp hjob
    split at hp
    next => cases hp
    next error hv =>
      cases hp
      exact hv

/-! ## A batch of three -/

section ThreePosts

/-- A worker whose jobs are strings; each is retried as often as the string is long. -/
def postWorker : BatchWorker String where
  fromValue := fun value => match value with
    | .str s => .ok s
    | _ => .error "not a string"
  maxRetries s := .ofNat s.length
  retryDelay _ retries := .ofNat (5 * retries.toNat)
  shouldResume := false

/-- The worker of the sample, whose handler fails whenever it runs. -/
def postRuntime : BatchRuntime Unit String where
  handle := ⟨.new "app", "host", none⟩
  worker := postWorker
  handler _ := pure (.failed "offline")
  formatError error := error
  retryDelayOverride _ _ _ := none

/-- A claimed job of the sample with these arguments. -/
def claimedPost (id : JobId) (args : Json.Value) : PendingJob :=
  ⟨.new id 3 5 "mail" ⟨"Welcome", args, none, .skip, true, none⟩, 0⟩

/-- The arguments of the second job are not a string. -/
def threePosts : List PendingJob :=
  [claimedPost "a" (.str "one"), claimedPost "b" .null, claimedPost "c" (.str "three")]

/-- The second of three jobs is killed, and the third is run and retried with its own limit, not with
that of the second. -/
theorem threePosts_aligned :
    processPendingBatch postRuntime threePosts = alignedBatch postRuntime threePosts ∧
    (undecodable postWorker threePosts).map (fun job => (job.1.id, job.2)) =
      [("b", "not a string")] ∧
    (decodable postWorker threePosts).map
        (fun job => (job.1, job.2.id, (policyOf postWorker job).maxRetries)) =
      [("one", "a", 3), ("three", "c", 5)] := by
  obtain ⟨heq, -⟩ := processPendingBatch_eq postRuntime threePosts
  exact ⟨heq, rfl, by decide⟩

end ThreePosts

end Oxana.BatchItems
