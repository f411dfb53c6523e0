import Oxana.Executor

/-!
# Cron jobs

Every process runs a `cronJobLoop` for each of its cron jobs: it goes through
the occurrences of the schedule, waits until an occurrence is near, and enqueues
a job for it. The job of an occurrence has the id `name-scheduled_at` and skips
what is stored under that id, so that the processes do not get in each other's
way; a job that declares a unique id of its own takes part under that id.

The schedule itself is a parameter. The loops end when the process is cancelled,
which the surroundings decide.
-/

namespace Oxana

open Redis Interleave Call

variable {γ : Type}

/-- A cron job as it is registered, with its schedule and its job. -/
structure CronJob where
  /-- under which it is registered -/
  name : String
  /-- the occurrences after a given time, one after the other -/
  schedule : Int → Nat → Option Int64
  /-- the queue it belongs to -/
  queueKey : String
  /-- whether an interrupted attempt is repeated -/
  resurrect : Bool
  /-- what an empty object deserializes to -/
  job : Option Job

/-- The settings of the cron loops, in microseconds. -/
structure CronSettings where
  /-- how long a new process leaves occurrences to the others -/
  cronInitialOffset : Nat
  /-- how early an occurrence is enqueued -/
  cronLookahead : Nat

/-! ## Envelopes -/

/-- `new_cron`, with whether the job declares its id itself; replacing is not
supported. -/
def JobEnvelope.newCron (t : Int64) (queue : String) (occurrenceId : JobId) (job : Job)
    (scheduledAt : Int64) (resurrect : Bool) : Option (JobEnvelope × Bool) :=
  if job.onConflict = .replace then none
  else
    let (id, onConflict, declaredUnique) := match job.uniqueJobId with
      | some uniqueJobId => (uniqueJobId, job.onConflict, true)
      | none => (occurrenceId, .skip, false)
    some (⟨id, ⟨job.name, job.args⟩, queue,
      { id := id
        onDemand := none
        retries := 0
        unique := true
        onConflict := some onConflict
        createdAt := t
        scheduledAt := max scheduledAt t
        startedAt := none
        state := none
        resurrect := resurrect
        error := none
        throttleCost := none }⟩, declaredUnique)

/-- The id of the job of an occurrence: its name and its time. -/
def CronJob.occurrenceId (C : CronJob) (scheduledAt : Int64) : JobId :=
  C.name ++ "-" ++ toString scheduledAt.toInt

/-- `cron_envelope`: the envelope of an occurrence, and whether it is unique. -/
def CronJob.cronEnvelope (C : CronJob) (t scheduledAt : Int64) : Option (JobEnvelope × Bool) := do
  let job ← C.job
  JobEnvelope.newCron t C.queueKey (C.occurrenceId scheduledAt) job scheduledAt C.resurrect

/-! ## The loop -/

/-- `track_redis_result`: whether an error is one too many is up to the counter
that all loops of the process share. -/
def trackRedisResult {α : Type} (x : Call γ α) : Call γ (Option α) :=
  catching x fun
    | .ok a => pure (some a)
    | .error e => ask fun c => if c.done then fail e else pure none

/-- `DateTime::<Utc>::MAX_UTC`, in microseconds. -/
def maxUtc : Int := 8210266876799999999

/-- A later time, clamped to the latest one there is. -/
def laterBy (t : Int) (duration : Nat) : Int := min (t + duration) maxUtc

/-- Wait until an occurrence is near and its predecessor past; `false` when the
process is cancelled. -/
def cronWait (lookahead : Nat) (next : Int64) (previous : Option Int64) : Nat → Call γ Bool
  | 0 => hang
  | n + 1 => ask fun c =>
    if c.done then pure false
    else do
      let t ← now
      if laterBy t lookahead < next.toInt then cronWait lookahead next previous n
      else if previous.any fun p => t < p.toInt then cronWait lookahead next previous n
      else pure true

/-- `UniqueCronAction`: what is done at a poll of a unique occurrence. -/
inductive UniqueCronAction where
  /-- enqueue the occurrence -/
  | enqueue
  /-- look again later -/
  | wait
  /-- leave the occurrence out -/
  | skip
  deriving DecidableEq, Repr

/-- `unique_cron_action`: what is done, by what has been seen and by the time. -/
def uniqueCronAction (existing observed : Bool) (scheduledAt : Int64) (t : Int) :
    UniqueCronAction :=
  if scheduledAt.toInt ≤ t ∧ (existing ∨ observed) then .skip
  else if existing then .wait
  else .enqueue

section Loop

variable (H : Handle)

/-- Whether the occurrence of a job with an id of its own is enqueued; `none`
when the process is cancelled. -/
def uniqueCron (id : JobId) (scheduledAt : Int64) : Nat → Bool → Call γ (Option Bool)
  | 0, _ => hang
  | n + 1, observed => ask fun c =>
    if c.done then pure none
    else do
      let found ← trackRedisResult (getJob H id)
      match found with
      | none => uniqueCron id scheduledAt n observed
      | some existing => do
        let t ← now
        match uniqueCronAction existing.isSome observed scheduledAt t with
        | .skip => pure (some false)
        | .wait => uniqueCron id scheduledAt n (observed || existing.isSome)
        | .enqueue => pure (some true)

/-- Enqueue an occurrence until it is accepted; `false` when the process is
cancelled. -/
def cronEnqueue (submit : Call γ JobId) : Nat → Call γ Bool
  | 0 => hang
  | n + 1 => ask fun c =>
    if c.done then pure false
    else do
      let sent ← trackRedisResult submit
      match sent with
      | some _ => pure true
      | none => cronEnqueue submit n

variable (C : CronJob) (settings : CronSettings)

/-- The occurrences from the `i`-th on. `submit` enqueues an envelope. -/
def cronOccurrences (submit : JobEnvelope → Call γ JobId) (start : Int) :
    Nat → Nat → Option Int64 → Call γ Unit
  | 0, _, _ => hang
  | n + 1, i, previous => match C.schedule start i with
    | none => pure ()
    | some next => ask fun c => do
      let due ← cronWait settings.cronLookahead next previous c.rounds
      if due then do
        let t ← now
        match C.cronEnvelope (Int64.ofInt t) next with
        | none => fail .generic
        | some (e, declaredUnique) => do
          let wanted ← if declaredUnique then ask fun c => uniqueCron H e.id next c.rounds false
            else pure (some true)
          match wanted with
          | none => pure ()
          | some false => cronOccurrences submit start n (i + 1) (some next)
          | some true => ask fun c => do
            let sent ← cronEnqueue (submit e) c.rounds
            if sent then cronOccurrences submit start n (i + 1) (some next)
            else pure ()
      else pure ()

/-- `cron_job_loop`, whichever way it enqueues an occurrence. -/
def cronJobLoopWith (submit : JobEnvelope → Call γ JobId) : Call γ Unit := do
  let t ← now
  ask fun c =>
    cronOccurrences H C settings submit (laterBy t settings.cronInitialOffset) c.rounds 0 none

/-- `cron_job_loop`: occurrence by occurrence, each enqueued for its time. -/
def cronJobLoop : Call γ Unit := cronJobLoopWith H C settings (enqueueAt H.keys)

end Loop

end Oxana
