import Oxana.Storage

/-!
# Working on jobs

What a worker process does to the store on behalf of its jobs: it claims them,
loads their payloads, starts them, lets the handler run, and brings them to one
of their ends. A single job is a batch of one.

A `worker` is the part of a process that works on one batch. Dispatchers claim
jobs and the coordinator loads them independently of each other, so claims and
loads come in any order (`gather`); where the source leaves the rest to the
runtime (`config.fail`, a cancelled task), the call ends.
-/

namespace Oxana

open Redis Call

variable {γ : Type} (H : Handle)

/-- `load_pending_job`: a claim without a payload is dropped. -/
def loadPendingJob (id : JobId) : Call γ (Option JobEnvelope) := do
  let found ← getClaimedJob H id
  match found with
  | some e => pure (some e)
  | none => do
    deleteJob H id
    pure none

/-- `handle_err`: a failed job is retried, or killed when its retries are used up. -/
def handleErr (message : String) (e : JobEnvelope) (delay : UInt64) (maxRetries : UInt32) :
    Call γ Unit :=
  if e.jobMeta.retries < maxRetries then retryIn H e.id delay message
  else kill H e message

/-- All jobs of a failed batch; the first error ends it. -/
def handleErrs (message : String) : List JobEnvelope → Call γ Unit
  | [] => pure ()
  | e :: es => ask fun c => do
    handleErr H message e c.delay c.maxRetries
    handleErrs message es

/-- `finish_batch_result`: all jobs of a batch are finished as its handler has ended. -/
def finishBatchResult (result : ExecutionResult) (envelopes : List JobEnvelope) : Call γ Unit :=
  match result with
  | .success => finishWithSuccessBatch H envelopes
  | .failed message => handleErrs H message envelopes
  | .panicked message => handleErrs H message envelopes

/-- What a handler does to the store: it may keep states for its jobs. -/
def runProcess (ids : List JobId) : Nat → Call γ Unit
  | 0 => pure ()
  | n + 1 => ask fun c => match ids[c.rounds]? with
    | none => pure ()
    | some id => catching (updateState H id c.state) fun _ => runProcess ids n

/-- A job that does not go on with the state it left. -/
def JobEnvelope.withoutState (e : JobEnvelope) : JobEnvelope :=
  { e with jobMeta := { e.jobMeta with state := none } }

/-- `run_batch`: the handler of a batch is called, and its jobs are finished. -/
def runBatch (envelopes : List JobEnvelope) : Call γ Unit :=
  if envelopes = [] then pure ()
  else ask fun c => do
    let started ← setStartedAtBatch H
      (if c.resumes then envelopes else envelopes.map (·.withoutState))
    runProcess H (started.map (·.id)) c.rounds
    finishBatchResult H c.result started

/-- The jobs of a batch that cannot be built are killed. -/
def killInvalid : List JobEnvelope → Call γ (List JobEnvelope)
  | [] => pure []
  | e :: es => ask fun c => match c.invalid with
    | some message => do
      kill H e message
      killInvalid es
    | none => do
      let valid ← killInvalid es
      pure (e :: valid)

/-- `process_pending_batch`, and `process_pending_job` for a batch of one -/
def processPending (envelopes : List JobEnvelope) : Call γ Unit := do
  let valid ← killInvalid H envelopes
  runBatch H valid

/-- Claim and load jobs from these queues, in any order. -/
def gather (queues : List String) : Nat → List JobId → List JobEnvelope →
    Call γ (List JobEnvelope)
  | 0, _, loaded => pure loaded
  | n + 1, claimed, loaded => ask fun c =>
    if c.done then pure loaded
    else match claimed, queues[c.rounds]? with
    | id :: claimed, none => do
      let found ← loadPendingJob H id
      gather queues n claimed (loaded ++ found.toList)
    | [], none => pure loaded
    | claimed, some queue => do
      let id ← dequeue H queue
      gather queues n (claimed ++ id.toList) loaded

/-- A worker for one batch: it claims jobs, loads them, and carries them out. -/
def worker (queues : List String) : Call γ Unit :=
  ask fun c => do
    let envelopes ← gather H queues c.rounds [] []
    processPending H envelopes

/-- Load claimed jobs; those without a payload are dropped. -/
def loadPendingJobs : List JobId → Call γ (List JobEnvelope)
  | [] => pure []
  | id :: ids => do
    let found ← loadPendingJob H id
    let loaded ← loadPendingJobs ids
    pure (found.toList ++ loaded)

/-- What a worker does once it has claimed these jobs. -/
def workOn (ids : List JobId) : Call γ Unit := do
  let envelopes ← loadPendingJobs H ids
  processPending H envelopes

end Oxana
