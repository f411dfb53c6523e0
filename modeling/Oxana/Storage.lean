import Oxana.Request
import Oxana.Redis.Glob
import Oxana.Interleave.Prog

/-!
# Storage operations

The operations of the storage as clients of the server. Every command and every
script is one atomic step; between two of them anything may happen. A `Call` is
such a client with the early return of a failed step built in.

* **Lost commands and lost replies.** A request may get lost before the server
  sees it, or be executed without its reply getting back. In both cases the
  caller only sees an error (`Delivery`).
* **Pipelines** are not transactions: their commands are steps of their own,
  executed to the end even when one of them is rejected.
* **Loops without a bound** run as many rounds as the surroundings grant them
  and then stop for good, like a caller that is never heard of again.
-/

namespace Oxana

open Redis Interleave

/-- What a client sends, or asks the clock, or waits for, in one step. The requests of a worker about
jobs it has claimed, those of a producer that call the script, and deletions name the jobs they are
about; no client looks at these names, they are there for the proofs. -/
inductive Request where
  | now
  | wait
  | ping
  | hget
  | hgetBase
  | hmget
  | hexists
  | hset
  | update (ids : List JobId)
  | hdel
  | del
  | hscan
  | scan
  | lpush
  | lmove
  | lrem
  | lrange
  | llen
  | zadd
  | zrange
  | transaction (id : JobId)
  | unregister
  | enqueue (ids : List JobId)
  | promote
  | resurrect
  | retryFailed (id : JobId)
  | finishSuccess (ids : List JobId)
  | finishDead (id : JobId)
  | eval
  | rpush
  | lindex
  | zcard
  deriving DecidableEq, Repr

/-- Whether the request calls the script of `enqueue`. -/
def Request.submits : Request → Bool
  | .enqueue _ => true
  | _ => false

/-- It is a write of `update_job` or `update_jobs`. -/
def Request.updates : Request → Bool
  | .update _ => true
  | _ => false

/-- What becomes of a request on its way to the server and back. -/
inductive Delivery where
  /-- it never arrives -/
  | lost
  /-- it is executed, the reply does not get back -/
  | replyLost
  /-- it is executed and answered -/
  | answered
  deriving DecidableEq, Repr

/-- `ExecutionResult`: how the handler of a job or a batch has ended. -/
inductive ExecutionResult where
  /-- it returns -/
  | success
  /-- it returns an error -/
  | failed (error : String)
  /-- it panics -/
  | panicked (message : String)
  deriving DecidableEq, Repr

/-- What the surroundings decide when a client asks them: the fate of its requests, what a scan
returns, and what the code of the application does. -/
structure Choice where
  /-- the fate of the next request -/
  delivery : Delivery := .answered
  /-- whether an error of the connection may go away by itself -/
  transient : Bool := false
  /-- a number of rounds, or which of several things -/
  rounds : Nat := 1
  /-- the fields or keys of the next page of a scan -/
  page : List String := []
  /-- whether that is all -/
  done : Bool := true
  /-- what a handler wants to keep -/
  state : Json.Value := .null
  /-- why a job cannot be built -/
  invalid : Option String := none
  /-- whether a job goes on with the state it left -/
  resumes : Bool := true
  /-- how its handler ends -/
  result : ExecutionResult := .success
  /-- how often it is retried -/
  maxRetries : UInt32 := 0
  /-- when it is retried -/
  delay : UInt64 := 0
  /-- whether a task that was spawned goes on before the one that spawned it -/
  companion : Bool := false

/-- `OxanaError`, with those of its variants that the storage returns and what is asked about them
later. -/
inductive OxanaError where
  /-- of the server, the connection or the pool -/
  | redis (transient : Bool)
  /-- a payload that cannot be read -/
  | json
  /-- no payload -/
  | jobNotFound
  /-- a job that cannot be built -/
  | generic
  /-- a setting that is not allowed -/
  | config (message : String)
  deriving DecidableEq, Repr

/-- What the clients share: the server and the time in microseconds. The last
component is not visible to them; it is there for the proofs. -/
structure World (γ : Type) where
  /-- the server -/
  store : Store
  /-- the time -/
  clock : Int
  /-- bookkeeping of the proofs -/
  ghost : γ

variable {γ α β : Type}

/-- A client of the storage: it takes steps on a world, and may fail with an error. -/
def Call (γ α : Type) : Type := Prog Request (World γ) Choice (Except OxanaError α)

namespace Call

/-- The call that fails with an error and takes no step. -/
def fail (e : OxanaError) : Call γ α := Prog.ret (.error e)

/-- Go on after a success, stop with the error otherwise. -/
protected def bind (x : Call γ α) (f : α → Call γ β) : Call γ β :=
  Prog.bind x fun
    | .ok a => f a
    | .error e => fail e

instance : Monad (Call γ) where
  pure a := Prog.ret (.ok a)
  bind := Call.bind

/-- The call that never continues. -/
def hang : Call γ α := Prog.halt

/-- Ask the surroundings for a choice, and go on with it. -/
def ask (k : Choice → Call γ α) : Call γ α := Prog.ask k

/-- Handle the failure of a call, or go on with what it has returned. -/
def catching (x : Call γ α) (f : Except OxanaError α → Call γ β) : Call γ β := Prog.bind x f

end Call

open Call

/-! ## Requests -/

/-- How a caller sees the outcome of a command of a script. -/
def replyOf : Except Err α → Except OxanaError α
  | .ok a => .ok a
  | .error _ => .error (.redis false)

/-- The world after a script: only the store is different. -/
def World.after (w : World γ) (x : Script α) : World γ := { w with store := (x w.store).2 }

/-- The script runs at the server, in one step, and its reply is waited for. -/
def execute (l : Request) (x : Script α) (k : Except OxanaError α → Call γ β) : Call γ β :=
  Prog.act l (fun w => w.after x) fun w => k (replyOf (x w.store).1)

/-- Send a command or a script: it may get lost before it is executed, or its reply may. -/
def send (l : Request) (x : Script α) : Call γ α :=
  ask fun c => match c.delivery with
    | .lost => fail (.redis c.transient)
    | .replyLost => execute l x fun _ => fail (.redis c.transient)
    | .answered => execute l x Prog.ret

/-- Both outcomes of a pipelined command and of the rest of its pipeline. -/
def joinReplies : Except OxanaError α → Except OxanaError (List α) → Except OxanaError (List α)
  | .ok a, .ok as => .ok (a :: as)
  | .error e, _ => .error e
  | .ok _, .error e => .error e

/-- Send a pipeline. The connection may break anywhere in it. -/
def pipe (l : Request) : List (Script α) → Call γ (List α)
  | [] => ask fun c => match c.delivery with
    | .answered => pure []
    | _ => fail (.redis c.transient)
  | x :: xs => ask fun c => match c.delivery with
    | .lost => fail (.redis c.transient)
    | _ => execute l x fun r => catching (pipe l xs) fun rs => Prog.ret (joinReplies r rs)

/-- A pipeline of commands of different kinds, each of which is executed by itself. -/
def pipelined : List (Request × Script α) → Call γ (List α)
  | [] => ask fun c => match c.delivery with
    | .answered => pure []
    | _ => fail (.redis c.transient)
  | x :: xs => ask fun c => match c.delivery with
    | .lost => fail (.redis c.transient)
    | _ => execute x.1 x.2 fun r => catching (pipelined xs) fun rs => Prog.ret (joinReplies r rs)

theorem pipe_eq_pipelined (l : Request) (xs : List (Script α)) :
    (pipe l xs : Call γ (List α)) = pipelined (xs.map fun x => (l, x)) := by
  induction xs with
  | nil => rfl
  | cons x xs ih =>
    rw [List.map_cons, pipelined, ← ih]
    rfl

/-- The commands of a transaction: each is executed, the first error is
returned. -/
def transaction : List (Script Unit) → Script Unit
  | [], s => (.ok (), s)
  | x :: xs, s =>
    match x s, transaction xs (x s).2 with
    | (.ok _, _), r => r
    | (.error e, _), (_, s') => (.error e, s')

/-- Take a connection from the pool, which may fail. -/
def connection : Call γ Unit :=
  ask fun c => if c.delivery = .answered then pure () else fail (.redis c.transient)

/-- `chrono::Utc::now()`: the clock of the world is read, in one step. -/
def now : Call γ Int := Prog.act .now id fun w => Prog.ret (.ok w.clock)

section Operations

variable (K : StorageKeys)

/-! ## Enqueueing -/

/-- The writes of one ordinary job: its payload, and its place. -/
def ordinaryWrites (destination : JobDestination) (e : JobEnvelope) : List (Script Unit) :=
  [hset K.jobs e.id e.encode,
    match destination with
    | .queue => lpush (K.namespaceQueue e.queue) e.id
    | .schedule => zadd K.schedule e.jobMeta.scheduledAt.toInt e.id]

/-- Parse what is stored for an id, as a snapshot of it. -/
def snapshotOf : Option String → Call γ (Option EnqueueSnapshot)
  | none => pure none
  | some p => match EnqueueSnapshot.parse p with
    | some s => pure (some s)
    | none => fail .json

/-- Add the snapshots of payloads that have just been read. -/
def addSnapshots : List (JobId × Option String) → Snapshots → Call γ Snapshots
  | [], m => pure m
  | (id, p) :: ps, m => do
    let s ← snapshotOf p
    addSnapshots ps (m.insert id s)

/-- Read the snapshots of the ids that are to be replaced, unless there are none. -/
def readSnapshots (ids : List JobId) : Call γ Snapshots :=
  if ids = [] then pure []
  else do
    let payloads ← send .hmget (hmget K.jobs ids)
    addSnapshots (ids.zip payloads) []

/-- Which of these ids are stored, read in one pipeline. -/
def readExisting (ids : List JobId) : Call γ (List JobId) :=
  if ids = [] then pure []
  else do
    let found ← pipe .hexists (ids.map (hexists K.jobs))
    pure (((ids.zip found).filter (·.2)).map (·.1))

/-- The ids of unique jobs that a call has written, according to its outcomes. -/
def writtenOf (pending : List JobEnvelope) (outcomes : List Outcome) : List JobId :=
  ((pending.zip outcomes).filter fun p => p.2 ≠ .skipped ∧ p.1.jobMeta.unique).map (·.1.id)

/-- Call the script until no snapshot has changed under it. -/
def enqueueLoop (destination : JobDestination) (pending : List JobEnvelope) :
    Nat → Snapshots → Call γ (List JobId)
  | 0, _ => hang
  | n + 1, snapshots => do
    let reply ← send (.enqueue (pending.map (·.id)))
      (enqueueCall K destination snapshots pending)
    if reply.changed = [] then pure (writtenOf pending reply.outcomes)
    else do
      let snapshots ← addSnapshots reply.changed snapshots
      enqueueLoop destination pending n snapshots

/-- The part of a chunk after its reads: the script is called, if anything is left. -/
def enqueuePending (destination : JobDestination) (snapshots : Snapshots)
    (pending : List JobEnvelope) : Call γ (List JobId) :=
  if pending = [] then pure []
  else ask fun c => enqueueLoop K destination pending c.rounds snapshots

/-- A chunk with unique jobs, less those this request has already written. -/
def enqueueUnique (destination : JobDestination) (pending : List JobEnvelope) :
    Call γ (List JobId) :=
  if pending = [] then pure []
  else do
    let snapshots ← readSnapshots K (replacementIds pending [])
    let existing ← readExisting K (skipIds pending snapshots)
    enqueuePending K destination snapshots
      (dropExisting (snapshotSkips pending snapshots ++ existing) pending)

/-- `enqueue_chunk_w_conn`: the unique ids written by this request, with those
of this chunk. -/
def enqueueChunk (envelopes : List JobEnvelope) (destination : JobDestination)
    (written : List JobId) : Call γ (List JobId) :=
  if envelopes.all fun e => !e.jobMeta.unique then do
    let _ ← pipe .hset (envelopes.flatMap (ordinaryWrites K destination))
    pure written
  else do
    let new ← enqueueUnique K destination (pendingOf written envelopes [])
    pure (new ++ written)

/-- `enqueue_w_conn`: one envelope is enqueued for now or for later. -/
def enqueueOne (e : JobEnvelope) (destination : JobDestination) : Call γ JobId := do
  connection
  let _ ← enqueueChunk K [e] destination []
  pure e.id

/-- `enqueue`: one envelope is put on the ready list of its queue. -/
def enqueue (e : JobEnvelope) : Call γ JobId := enqueueOne K e .queue

/-- `enqueue_at`: one envelope is enqueued for its time, or now if that has come. -/
def enqueueAt (e : JobEnvelope) : Call γ JobId := do
  let t ← now
  if e.jobMeta.scheduledAt.toInt ≤ t then enqueue K e
  else enqueueOne K e .schedule

/-- `enqueue_list_chunks`: the envelopes in chunks of bounded size, in their order. -/
def enqueueListChunks (envelopes : List JobEnvelope) : List (List JobEnvelope) :=
  envelopes.toChunks 100

theorem flatten_toChunks_go {α : Type} (n : Nat) (xs : List α) (acc : Array α)
    (done : Array (List α)) :
    (List.toChunks.go n xs acc done).flatten = done.toList.flatten ++ acc.toList ++ xs := by
  induction xs generalizing acc done with
  | nil => simp [List.toChunks.go]
  | cons x xs ih =>
    simp only [List.toChunks.go]
    split
    · rw [ih]
      simp
    · rw [ih]
      simp

/-- The chunks of a list, one after the other, make up the list. -/
theorem flatten_toChunks {α : Type} (n : Nat) (xs : List α) : (xs.toChunks n).flatten = xs := by
  cases xs with
  | nil => rfl
  | cons x xs =>
    cases n with
    | zero => simp [List.toChunks]
    | succ n => simpa [List.toChunks] using flatten_toChunks_go (n + 1) xs #[x] #[]

/-- The chunks of a request are enqueued one after the other, each with what has been written
before. -/
def enqueueChunks (destination : JobDestination) :
    List (List JobEnvelope) → List JobId → Call γ Unit
  | [], _ => pure ()
  | c :: cs, written => do
    let written ← enqueueChunk K c destination written
    enqueueChunks destination cs written

/-- `enqueue_list`: the envelopes are enqueued chunk by chunk, and their ids are returned. -/
def enqueueList (envelopes : List JobEnvelope) : Call γ (List JobId) :=
  if envelopes = [] then pure []
  else do
    connection
    enqueueChunks K .queue (enqueueListChunks envelopes) []
    pure (envelopes.map (·.id))

/-- `try_enqueue`: one envelope is enqueued, and its id is returned if it has been written. -/
def tryEnqueue (e : JobEnvelope) : Call γ (Option JobId) := do
  connection
  let written ← enqueueChunk K [e] .queue []
  pure (if !e.jobMeta.unique || e.id ∈ written then some e.id else none)

end Operations

/-! ## Claimed jobs -/

/-- A storage handle: the names of its keys, the process on whose behalf it acts, and the limit of
its dead list. -/
structure Handle where
  /-- the names of the keys -/
  keys : StorageKeys
  /-- on behalf of which process -/
  processId : String
  /-- how many dead jobs are kept -/
  deadJobLimit : Option Nat

/-- `current_processing_queue`: the list of what this process has claimed. -/
def Handle.currentProcessingQueue (H : Handle) : Key := H.keys.processingQueue H.processId

section Claims

variable (H : Handle)

/-- Decode a payload, or fail with the error of the decoder. -/
def decoded (payload : String) : Call γ JobEnvelope :=
  match JobEnvelope.decode payload with
  | some e => pure e
  | none => fail .json

/-- `transition_snapshot`: what is stored for an id, as text and as an
envelope. -/
def transitionSnapshot (K : StorageKeys) (id : JobId) :
    Call γ (Option (String × JobEnvelope)) := do
  let payload ← send .hget (hget K.jobs id)
  match payload with
  | none => pure none
  | some p => do
    let e ← decoded p
    pure (some (p, e))

/-- `get_job_w_conn`: the envelope that is stored for an id, if there is one. -/
def getJobOn (id : JobId) : Call γ (Option JobEnvelope) := do
  let found ← transitionSnapshot H.keys id
  pure (found.map (·.2))

/-- `get_job`: the same, with a connection of its own. -/
def getJob (id : JobId) : Call γ (Option JobEnvelope) := do
  connection
  getJobOn H id

/-- The rounds of `get_claimed_job`: errors that may go away are met by another
read until the time is up. -/
def getClaimedJobRounds (id : JobId) : Nat → Call γ (Option JobEnvelope)
  | 0 => getJob H id
  | n + 1 => catching (getJob H id) fun
    | .ok e => pure e
    | .error (.redis true) => getClaimedJobRounds id n
    | .error e => fail e

/-- `get_claimed_job`: the same for a job that has been claimed, read again after errors that may go
away. -/
def getClaimedJob (id : JobId) : Call γ (Option JobEnvelope) :=
  ask fun c => getClaimedJobRounds H id c.rounds

/-- `dequeue`: the last job of a ready list is claimed, if there is one. -/
def dequeue (queue : String) : Call γ (Option JobId) := do
  connection
  send .lmove (lmove (H.keys.namespaceQueue queue) H.currentProcessingQueue)

/-- `update_jobs`: the payloads of several jobs are stored. -/
def updateJobs (envelopes : List JobEnvelope) : Call γ Unit :=
  if envelopes = [] then pure ()
  else do
    connection
    send (.update (envelopes.map (·.id)))
      (hsetMultiple H.keys.jobs (envelopes.map fun e => (e.id, e.encode)))

/-- `set_started_at_batch`: the envelopes as they are stored now. -/
def setStartedAtBatch (envelopes : List JobEnvelope) : Call γ (List JobEnvelope) := do
  let t ← now
  let started := envelopes.map (·.withStartedAt (Int64.ofInt t))
  updateJobs H started
  pure started

/-- `update_job`: the payload of one job is stored. -/
def updateJob (e : JobEnvelope) : Call γ Unit := do
  connection
  send (.update [e.id]) (hset H.keys.jobs e.id e.encode)

/-- `update_state`: the payload is read and stored again with the state, if the job is stored. -/
def updateState (id : JobId) (state : Json.Value) : Call γ Unit := do
  let found ← getJob H id
  match found with
  | some e => updateJob H (e.withState state)
  | none => fail .jobNotFound

/-- When a retry is due; the addition is one of 64 bits. -/
def retryScore (t : Int) (delay : UInt64) : Int :=
  ((UInt64.ofInt t + delay * 1000000).toNat : Int)

/-- `retry_in`: the job is put into the retry set, with one retry more, by a script that releases
its claim. -/
def retryIn (id : JobId) (delay : UInt64) (error : String) : Call γ Unit := do
  connection
  let found ← getJobOn H id
  match found with
  | none => send .lrem (lremFirst H.currentProcessingQueue id)
  | some e => do
    let t ← now
    let e' := e.withRetriesIncremented error
    send (.retryFailed e'.id) (retryFailed H.keys.jobs H.keys.retry H.currentProcessingQueue e'.id
      e'.encode (retryScore t delay))

/-- `kill`: the job is put on the dead list, by a script that drops its payload and its claim. -/
def kill (e : JobEnvelope) (error : String) : Call γ Unit := do
  connection
  let e' := e.withError error
  send (.finishDead e'.id) (finishDead H.keys.jobs H.keys.dead H.currentProcessingQueue e'.id
    e'.encode (H.deadJobLimit.getD 0))

/-- `finish_with_success_batch`: the payloads and the claims of several jobs are dropped by one
script. -/
def finishWithSuccessBatch (envelopes : List JobEnvelope) : Call γ Unit :=
  if envelopes = [] then pure ()
  else do
    connection
    send (.finishSuccess (envelopes.map (·.id)))
      (finishSuccess H.keys.jobs H.currentProcessingQueue (envelopes.map (·.id)))

/-! ## Deletion -/

/-- The pages of a key scan: whichever of the keys the server returns, they
match the pattern and are there. -/
def scanPage (pattern : String) (keys : List Key) : Script (List Key) := fun s =>
  (.ok (keys.filter fun k => (s.get k).isSome ∧ globMatch pattern k), s)

/-- `scan_keys_w_conn`: all keys that match a pattern, page by page. -/
def scanKeys (pattern : String) : Nat → Call γ (List Key)
  | 0 => hang
  | n + 1 => ask fun c => do
    let keys ← send .scan (scanPage pattern c.page)
    if c.done then pure keys
    else do
      let more ← scanKeys pattern n
      pure (keys ++ more)

/-- The queue a raw payload names, if it is an object that names one. -/
def rawQueue (payload : String) : Option String :=
  match (Json.parse payload.toList).map canon with
  | some (.obj ms) => match ms.lookup "queue" with
    | some (.str q) => some q
    | _ => none
  | _ => none

/-- The ready lists a job to be deleted may be in. -/
def queueKeysOf (K : StorageKeys) : Option String → Call γ (List Key)
  | none => pure []
  | some p => match rawQueue p with
    | some q => pure [K.namespaceQueue q]
    | none => ask fun c => scanKeys (K.namespaceQueue "*") c.rounds

/-- `delete_job`: a job is removed from every place where it may be, in one transaction. -/
def deleteJob (id : JobId) : Call γ Unit := do
  connection
  let raw ← send .hget (hget H.keys.jobs id)
  let queueKeys ← queueKeysOf H.keys raw
  send (.transaction id) (transaction ([hdel H.keys.jobs [id], zrem H.keys.schedule id,
    zrem H.keys.retry id, lremAll H.currentProcessingQueue id] ++
      queueKeys.map fun k => lremAll k id))

end Claims

/-! ## Schedules, recovery and retention -/

section Sweeps

variable (K : StorageKeys)

/-- One job of `promote_scheduled_jobs`; a malformed payload is left alone. -/
def promoteOne (set : Key) (id : JobId) (score : Int) : Call γ Nat :=
  catching (transitionSnapshot K id) fun
    | .ok found => send .promote (promoteScheduled K.jobs set
        (K.namespaceQueue ((found.map (·.2.queue)).getD "")) id ((found.map (·.1)).getD "") score)
    | .error .json => pure 0
    | .error e => fail e

/-- `promote_scheduled_jobs`: due jobs are moved to their ready lists, each by a call of the script.
-/
def promoteScheduledJobs (set : Key) : List (JobId × Int) → Call γ Nat
  | [] => pure 0
  | (id, score) :: jobs => do
    let moved ← promoteOne K set id score
    let count ← promoteScheduledJobs set jobs
    pure (moved + count)

/-- `enqueue_scheduled`: the jobs of a delayed set that are due are promoted. -/
def enqueueScheduled (set : Key) : Call γ Nat := do
  let t ← now
  connection
  let jobs ← send .zrange (zrangeByScore set 0 t)
  promoteScheduledJobs K set jobs

/-- `retry_all_now`: all jobs that wait for a retry are promoted. -/
def retryAllNow : Call γ Nat := do
  connection
  let jobs ← send .zrange (zrangeWithScores K.retry)
  promoteScheduledJobs K K.retry jobs

/-- One claim of a dead process; a malformed payload is left alone. -/
def resurrectOne (processId : String) (id : JobId) : Call γ Nat :=
  catching (transitionSnapshot K id) fun
    | .ok found => send .resurrect (resurrectClaim K.jobs (K.processingQueue processId)
        (K.namespaceQueue ((found.map (·.2.queue)).getD "")) id ((found.map (·.1)).getD "")
        ((found.map (·.2.jobMeta.resurrect)).getD false))
    | .error .json => pure 0
    | .error e => fail e

/-- The claims of a dead process, one after the other. -/
def resurrectJobs (processId : String) : List JobId → Call γ Nat
  | [] => pure 0
  | id :: ids => do
    let moved ← resurrectOne K processId id
    let count ← resurrectJobs processId ids
    pure (moved + count)

/-- The commands that remove the records of a process. -/
def unregister (processId : String) : List (Script Unit) :=
  [zrem K.processes processId, hdel K.processesData [processId]]

/-- The body of `resurrect` for one dead process: its claims, and then its records. -/
def resurrectProcess (processId : String) : Call γ Unit := do
  let ids ← send .lrange (lrange (K.processingQueue processId))
  let _ ← resurrectJobs K processId ids
  let left ← send .llen (llen (K.processingQueue processId))
  if left = 0 then do
    let _ ← pipe .unregister (unregister K processId)
    pure ()
  else pure ()

/-- `JOB_EXPIRE_TIME`, seven days in seconds. -/
def jobExpireTime : Int := 7 * 24 * 3600

/-- When the retention of a job begins, in seconds. -/
def retentionStartSecs (e : JobEnvelope) : Int :=
  (max e.jobMeta.createdAt.toInt e.jobMeta.scheduledAt.toInt).tdiv 1000000

/-- Whether `cleanup` drops a payload it reads at time `t`. -/
def expired (t : Int) (payload : String) : Bool :=
  match JobEnvelope.decode payload with
  | some e => retentionStartSecs e < t - jobExpireTime
  | none => true

/-- A page of `HSCAN`: whichever fields the server returns, with their
values. -/
def hscanPage (k : Key) (fields : List String) : Script (List (String × String)) :=
  onKind .hash k fun s =>
    (fields.filterMap fun f => ((s.hash k).lookup f).map fun v => (f, v), s)

/-- The pages of `cleanup`: the ids to be dropped. -/
def cleanupPages (t : Int) : Nat → List JobId → Call γ (List JobId)
  | 0, _ => hang
  | n + 1, ids => ask fun c => do
    let page ← send .hscan (hscanPage K.jobs c.page)
    let ids := ids ++ (page.filter fun p => expired t p.2).map (·.1)
    if c.done then pure ids
    else cleanupPages t n ids

/-- Drop the collected payloads, if there are any. -/
def cleanupDrop (ids : List JobId) : Call γ Nat :=
  if ids.length > 0 then do
    send .hdel (hdel K.jobs ids)
    pure ids.length
  else pure ids.length

/-- `cleanup`: payloads that are too old are collected page by page, and then dropped. -/
def cleanup : Call γ Nat := do
  connection
  let t ← now
  let ids ← ask fun c => cleanupPages K (t / 1000000) c.rounds []
  cleanupDrop K ids

end Sweeps

end Oxana
