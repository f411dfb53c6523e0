import Oxana.Batcher
import Oxana.Drained

/-!
# A running process

The tasks of one process, each as the source has it: dispatchers claim jobs and send them to a
coordinator; the coordinator loads them and starts a task for each, or routes them to batchers,
which start a task for each batch; every task finishes its jobs one way or another. They share the
memory of the process: channels, the tasks that have been spawned and not started yet, the results
of tasks that have not been looked at yet, the token that stops everything, and the first error. It
takes the place of the bookkeeping in `World`.

* A sender that waits for a place in a channel, a task that waits for a permit and a branch of a
  `select!` that is not ready are a client that is not scheduled or that looks again.
* The sets of the throttles are kept elsewhere; whether a request to them fails and what it answers
  is left to the surroundings.
* User code beside the handler may panic in the task of a single job; there the panic is the result
  of the task. The tasks of batches are not joined by anyone, and are taken not to panic.
-/

namespace Oxana

open Redis Interleave Call

/-! ## The memory of the process -/

/-- What is handed to `Runtime::spawn` and to the `JoinSet` of a coordinator. -/
inductive RuntimeTask where
  /-- `process_pending_job`, for the coordinator with this number -/
  | single (coordinator : ℕ) (e : JobEnvelope)
  /-- `run_batcher`, for the batcher with this number -/
  | batcher (b : ℕ) (config : WorkerBatchConfig)
  /-- `process_pending_batch` -/
  | batch (es : List JobEnvelope)

/-- The jobs that a task is given when it is spawned. -/
def RuntimeTask.ids : RuntimeTask → List JobId
  | single _ e => [e.id]
  | batcher _ _ => []
  | batch es => es.map (·.id)

/-- The result of a task of a coordinator that has ended, and at whose result nobody has looked. -/
structure Joined where
  /-- in whose `JoinSet` it is -/
  coordinator : ℕ
  result : Except OxanaError Unit
  /-- the jobs the task was given -/
  given : List JobId

/-- The jobs that wait for the error to be noticed. -/
def Joined.ids (j : Joined) : List JobId :=
  match j.result with
  | .ok _ => []
  | .error _ => j.given

/-- What the tasks of a process share: channels, tasks, and whether everything stops. -/
structure Memory where
  /-- `cancel_token` -/
  cancelled : Bool := false
  /-- `shutdown_error` -/
  shutdownError : Option OxanaError := none
  /-- the claimed jobs in the channels of the coordinators -/
  jobs : List (ℕ × JobId) := []
  /-- the coordinators that have dropped their receivers -/
  stopped : List ℕ := []
  /-- how many batchers there are -/
  batchers : ℕ := 0
  /-- the jobs in the channels of the batchers -/
  batched : List (ℕ × JobEnvelope) := []
  /-- the batchers that have closed their channels -/
  closed : List ℕ := []
  /-- the tasks that have not been started -/
  spawned : List RuntimeTask := []
  /-- the results that have not been looked at -/
  joinset : List Joined := []

/-- `Runtime::fail`: the first error is kept, and everything is told to stop. -/
def Memory.fail (m : Memory) (error : OxanaError) : Memory :=
  { m with shutdownError := m.shutdownError.or (some error), cancelled := true }

section Runtime

variable {α : Type}

/-- A step within the process, which takes no request. -/
def locally (f : Memory → α × Memory) : Call Memory α :=
  Prog.act .wait (fun w => { w with ghost := (f w.ghost).2 }) fun w => Prog.ret (.ok (f w.ghost).1)

/-- `config.fail`: the same, as a step of a task. -/
def failRuntime (error : OxanaError) : Call Memory Unit := locally fun m => ((), m.fail error)

/-- `cancel_token.is_cancelled`: whether everything is to stop. -/
def isCancelled : Call Memory Bool := locally fun m => (m.cancelled, m)

/-- A task is handed over to the runtime, with the jobs it is given. -/
def spawnTask (task : RuntimeTask) : Call Memory Unit :=
  locally fun m => ((), { m with spawned := m.spawned ++ [task] })

/-- A `select!` with `cancel_token.cancelled()`: once the token is cancelled, the call may be dropped
before any of its steps. -/
def untilCancelled : Call Memory α → Call Memory (Option α)
  | .ret (.ok a) => pure (some a)
  | .ret (.error e) => fail e
  | .halt => hang
  | .act l f k => ask fun c => do
    let cancelled ← isCancelled
    if c.done ∧ cancelled then pure none
    else Prog.act l f fun w => untilCancelled (k w)
  | .ask k => ask fun c => untilCancelled (k c)

/-- What becomes of an error that nobody returns. -/
def orFail (x : Call Memory Unit) : Call Memory Unit :=
  catching x fun
    | .ok _ => pure ()
    | .error e => failRuntime e

variable (H : Handle)

/-! ## Dispatchers -/

/-- User code beside the handler, which may panic. -/
def panicking : Call Memory Unit := ask fun c => if c.done then pure () else fail .generic

/-- The worker may have been built for another number of jobs. -/
def matchLength : Call Memory Unit := ask fun c => if c.done then pure () else fail .generic

/-- User code reports a failure and says when to try again. -/
def reportFailure (user : Call Memory Unit) (result : ExecutionResult) : Call Memory Unit :=
  if result = .success then pure () else user

/-- `executor::run_batch`: an error of its last part is not returned. `user` is the user code that
runs beside the handler. -/
def executeBatch (user : Call Memory Unit) (envelopes : List JobEnvelope) : Call Memory Unit :=
  if envelopes = [] then pure ()
  else ask fun c => do
    matchLength
    user
    let started ← setStartedAtBatch H
      (if c.resumes then envelopes else envelopes.map (·.withoutState))
    runProcess H (started.map (·.id)) c.rounds
    reportFailure user c.result
    orFail (finishBatchResult H c.result started)

/-- `process_pending_job`: one claimed job is carried out. -/
def processPendingJob (e : JobEnvelope) : Call Memory Unit := do
  panicking
  let valid ← killInvalid H [e]
  executeBatch H panicking valid

/-- `process_pending_batch`: the claimed jobs of a batch are carried out. -/
def processPendingBatch (es : List JobEnvelope) : Call Memory Unit := do
  let valid ← killInvalid H es
  executeBatch H (pure ()) valid

/-! ## Batchers -/

/-- `rx.recv()` of a batcher that finds a job in its channel. -/
def receiveBatched (b : ℕ) : Call Memory (Option JobEnvelope) :=
  locally fun m => ((m.batched.find? (·.1 == b)).map (·.2),
    { m with batched := m.batched.eraseP (·.1 == b) })

/-- `rx.recv()` that finds nothing and nobody who could send; the receiver is dropped. -/
def endReceiving (b : ℕ) : Call Memory Bool :=
  locally fun m => if m.batched.any (·.1 == b) then (false, m)
    else (true, { m with closed := b :: m.closed })

/-- `spawn_batch`: what is pending is given to a task, if there is anything. -/
def spawnBatch (pending : List JobEnvelope) : Call Memory Unit :=
  if pending = [] then pure () else spawnTask (.batch pending)

/-- `flush_batcher`, from the closed channel on. -/
def flushRounds (b : ℕ) (config : WorkerBatchConfig) : Nat → List JobEnvelope → Call Memory Unit
  | 0, _ => hang
  | n + 1, pending => do
    let found ← receiveBatched b
    match found with
    | none => spawnBatch pending
    | some e =>
      if config.size ≤ pending.length + 1 then do
        spawnBatch (pending ++ [e])
        flushRounds b config n []
      else flushRounds b config n (pending ++ [e])

/-- `run_batcher`; the round says which branch is taken. -/
def batcherRounds (b : ℕ) (config : WorkerBatchConfig) : Nat → List JobEnvelope → Call Memory Unit
  | 0, _ => hang
  | n + 1, pending => ask fun c => match c.rounds with
    | 0 => do
      let found ← receiveBatched b
      match found with
      | none => batcherRounds b config n pending
      | some e =>
        if config.size ≤ pending.length + 1 ∨ config.timeout = 0 then do
          spawnBatch (pending ++ [e])
          batcherRounds b config n []
        else batcherRounds b config n (pending ++ [e])
    | 1 => do
      let ended ← endReceiving b
      if ended then spawnBatch pending else batcherRounds b config n pending
    | 2 => do
      -- the time of the batch is up
      spawnBatch pending
      batcherRounds b config n []
    | _ => do
      let cancelled ← isCancelled
      if cancelled then do
        locally fun m => ((), { m with closed := b :: m.closed })
        flushRounds b config c.rounds pending
      else batcherRounds b config n pending

/-! ## Coordinators -/

variable (registry : String → Option WorkerBatchConfig)

/-- `load_pending_job`, which gives up when everything is to stop. -/
def loadUnlessCancelled (id : JobId) : Call Memory (Option JobEnvelope) := do
  let found ← untilCancelled (getClaimedJob H id)
  match found with
  | none => pure none
  | some (some e) => pure (some e)
  | some none => do
    deleteJob H id
    pure none

/-- The sender for a key, that of a new batcher if there is none. -/
def batcherFor (config : WorkerBatchConfig) (key : BatchKey) (batchers : List (BatchKey × ℕ)) :
    Call Memory (ℕ × List (BatchKey × ℕ)) :=
  match batchers.lookup key with
  | some b => pure (b, batchers)
  | none => do
    let b ← locally fun m => (m.batchers,
      { m with batchers := m.batchers + 1, spawned := m.spawned ++ [.batcher m.batchers config] })
    pure (b, (key, b) :: batchers)

/-- `tx.send` to a batcher, unless it has stopped receiving. -/
def sendBatched (b : ℕ) (e : JobEnvelope) : Call Memory Bool :=
  locally fun m => if b ∈ m.closed then (false, m)
    else (true, { m with batched := m.batched ++ [(b, e)] })

/-- `send_to_batcher`: a batcher of the key is found or started. -/
def sendToBatcher (e : JobEnvelope) (config : WorkerBatchConfig) :
    Nat → List (BatchKey × ℕ) → Call Memory (List (BatchKey × ℕ))
  | 0, _ => hang
  | n + 1, batchers => do
    let (b, batchers) ← batcherFor config (.fromEnvelope e) batchers
    let sent ← sendBatched b e
    if sent then pure batchers
    else sendToBatcher e config n (batchers.filter fun p => p.1 ≠ .fromEnvelope e)

/-- `route_job`: a claimed job is loaded, and given to a batcher or to a task. -/
def routeJob (coordinator : ℕ) (id : JobId) (batchers : List (BatchKey × ℕ)) :
    Call Memory (List (BatchKey × ℕ)) := do
  let found ← loadUnlessCancelled H id
  match found with
  | none => pure batchers
  | some e => match registry e.job.name with
    | some config => ask fun c => sendToBatcher e config c.rounds batchers
    | none => do
      spawnTask (.single coordinator e)
      pure batchers

/-- `job_rx.recv()` of a coordinator that finds a job. -/
def receiveJob (coordinator : ℕ) : Call Memory (Option JobId) :=
  locally fun m => ((m.jobs.find? (·.1 == coordinator)).map (·.2),
    { m with jobs := m.jobs.eraseP (·.1 == coordinator) })

/-- `joinset.join_next()` of a coordinator that finds a result. -/
def joinNext (coordinator : ℕ) : Call Memory (Option Joined) :=
  locally fun m => (m.joinset.find? (·.coordinator == coordinator),
    { m with joinset := m.joinset.eraseP (·.coordinator == coordinator) })

/-- Taking a result, and failing if it is an error: whether it was. -/
def joinOrFail (coordinator : ℕ) : Call Memory Bool := do
  let found ← joinNext coordinator
  match found with
  | some ⟨_, .error e, _⟩ => do
    failRuntime e
    pure true
  | _ => pure false

/-- What follows the loop of `coordinator::run`: the receiver is dropped with what is left in it,
and the other results are taken. -/
def leaveCoordinator (coordinator : ℕ) : Nat → Call Memory Unit
  | 0 => pure ()
  | n + 1 => do
    let _ ← joinOrFail coordinator
    leaveCoordinator coordinator n

/-- The receiver of a coordinator is dropped, with what is in its channel. -/
def dropReceiver (coordinator : ℕ) : Call Memory Unit :=
  locally fun m => ((), { m with
    stopped := coordinator :: m.stopped
    jobs := m.jobs.filter fun p => p.1 ≠ coordinator })

/-- `coordinator::run`, to the end of its loop; the round says which branch is taken. -/
def coordinatorRounds (coordinator : ℕ) : Nat → List (BatchKey × ℕ) → Call Memory Unit
  | 0, _ => hang
  | n + 1, batchers => ask fun c => match c.rounds with
    | 0 => do
      let found ← receiveJob coordinator
      match found with
      | none => coordinatorRounds coordinator n batchers
      | some id => catching (routeJob H registry coordinator id batchers) fun
        | .ok batchers => coordinatorRounds coordinator n batchers
        | .error e => failRuntime e
    | 1 => do
      let failed ← joinOrFail coordinator
      if failed then pure () else coordinatorRounds coordinator n batchers
    | _ => do
      let cancelled ← isCancelled
      if cancelled then pure () else coordinatorRounds coordinator n batchers

/-- `coordinator::run`: from its first round to its end. -/
def coordinator (number : ℕ) : Call Memory Unit := ask fun c => do
  coordinatorRounds H registry number c.rounds []
  dropReceiver number
  ask fun c => leaveCoordinator number c.rounds

/-! ## Tasks -/

/-- A task of a `JoinSet`: its result waits to be looked at. -/
def joining (coordinator : ℕ) (given : List JobId) (x : Call Memory Unit) : Call Memory Unit :=
  catching x fun result => locally fun m => ((), { m with
    joinset := m.joinset ++ [⟨coordinator, result, given⟩] })

/-- What a task does from when it is launched. -/
def RuntimeTask.run : RuntimeTask → Call Memory Unit
  | single coordinator e => joining coordinator [e.id] (processPendingJob H e)
  | batcher b config => ask fun c => batcherRounds b config c.rounds []
  | batch es => orFail (processPendingBatch H es)

end Runtime

end Oxana
