import Oxana.Calls
import Mathlib.Data.List.Dedup

/-!
# Processes, and the sweep for dead ones

A process registers with a heartbeat before it claims jobs, and goes on sending
heartbeats while it lives. A sweep looks for processing lists first and reads
the heartbeats afterwards; the claims of a process that has been silent for too
long, or that is not registered at all, are given to others.

Heartbeats are kept in seconds, with the milliseconds behind the point. Here a
score is the number of milliseconds, and a threshold is given in nanoseconds.
-/

namespace Oxana

open Redis Interleave Call

variable {γ : Type}

/-! ## The life of a process -/

/-- `unix_timestamp_secs_f64`, in milliseconds as the scores are kept here. -/
def millis (t : Int) : Int := t / 1000

/-- `ping`: the record of the process is renewed; nothing here reads its details. -/
def ping (H : Handle) (record : String) : Call γ Unit := do
  connection
  let t ← now
  let _ ← pipe .ping [zadd H.keys.processes (millis t) H.processId,
    hset H.keys.processesData H.processId record]
  pure ()

/-- `self_cleanup`: the process removes its own record. -/
def selfCleanup (H : Handle) : Call γ Unit := do
  connection
  let _ ← pipe .unregister (unregister H.keys H.processId)
  pure ()

/-- Time passes while the client waits. -/
def wait (delay : UInt64) : Call γ Unit :=
  Prog.act .wait (fun w => { w with clock := w.clock + delay.toNat }) fun _ => Prog.ret (.ok ())

/-- What a process does as long as it lives: it pings, it claims jobs, and time
passes. -/
def live (H : Handle) (record queue : String) : Nat → Call γ Unit
  | 0 => pure ()
  | n + 1 => ask fun c => match c.rounds with
    | 0 => catching (ping H record) fun _ => live H record queue n
    | 1 => catching (dequeue H queue) fun _ => live H record queue n
    | _ => catching (wait c.delay) fun _ => live H record queue n

/-! ## The sweep -/

variable (K : StorageKeys)

/-- The part of a key behind its last colon, which is the id of the process. -/
def lastSegment (k : Key) : String :=
  String.ofList (k.toList.reverse.takeWhile (· ≠ ':')).reverse

/-- Whether a heartbeat is older than the threshold. -/
def stale (threshold : Nat) (t score : Int) : Bool :=
  score * 1000000 < millis t * 1000000 - threshold

/-- The processes that have been silent for too long, and those that have a
processing list and no record. -/
def deadAmong (threshold : Nat) (t : Int) (queues : List Key) (records : List (String × Int)) :
    List String :=
  (records.filter fun r => stale threshold t r.2).map (·.1) ++
    (queues.map lastSegment).filter fun p => p ∉ records.map (·.1)

/-- `dead_process_ids_in`: the processes without a recent record, among those with claims or
records. -/
def deadProcessIdsIn (queues : List Key) (threshold : Nat) : Call γ (List String) := do
  let records ← send .zrange (zrangeWithScores K.processes)
  let t ← now
  pure (deadAmong threshold t queues records)

/-- `dead_process_ids`: the processing lists are searched first. -/
def deadProcessIds (threshold : Nat) : Call γ (List String) :=
  ask fun c => do
    let queues ← scanKeys (K.processingQueuePrefix ++ ":*") c.rounds
    deadProcessIdsIn K queues.dedup threshold

/-- The dead processes are resurrected, one after the other. -/
def resurrectProcesses : List String → Call γ Unit
  | [] => pure ()
  | p :: ps => do
    resurrectProcess K p
    resurrectProcesses ps

/-- `resurrect`: whoever is dead is found, and its claims are handed back. -/
def resurrect (threshold : Nat) : Call γ Unit := do
  connection
  let dead ← deadProcessIds K threshold
  resurrectProcesses K dead

/-! ## Its steps -/

/-- What the steps of a sweep over these processes do. -/
inductive SweepStep (dead : List String) : Request → World γ → World γ → Prop
  /-- the sweep reads, and this changes nothing -/
  | reads {l : Request} {w : World γ} : l = .lrange ∨ l = .hget ∨ l = .llen →
      SweepStep dead l w w
  /-- the sweep releases a claim of one of the processes -/
  | resurrects {w : World γ} {p : String} (hp : p ∈ dead) (queue : String) (id : JobId)
      (payload : String) (again : Bool) :
      SweepStep dead .resurrect w (w.after (resurrectClaim K.jobs (K.processingQueue p)
        (K.namespaceQueue queue) id payload again))
  /-- the sweep drops the records of one of the processes -/
  | unregisters {w : World γ} {p : String} (hp : p ∈ dead) {x : Script Unit} :
      x ∈ unregister K p → SweepStep dead .unregister w (w.after x)

variable {K} {E : Request → World γ → Prop} {dead : List String} {p : String}

/-- The steps of dealing with one claim are a read and a call of the script, whatever is stored. -/
theorem resurrectOne_always {G : Request → World γ → World γ → Prop}
    (hread : ∀ w, E .hget w → G .hget w w)
    (hclaim : ∀ w queue id payload again, E .resurrect w → G .resurrect w
      (w.after (resurrectClaim K.jobs (K.processingQueue p) (K.namespaceQueue queue) id payload
        again))) (id : JobId) :
    Call.Always E G (fun _ => True) (resurrectOne K p id) := by
  refine (transitionSnapshot_always hread id).catching (fun found _ => ?_) fun e => ?_
  · exact .send (fun w hw => hclaim w _ _ _ _ hw) fun _ _ _ _ => trivial
  · cases e with
    | json => exact .pure trivial
    | redis => exact .fail _
    | jobNotFound => exact .fail _
    | generic => exact .fail _
    | config _ => exact .fail _

/-- The steps of dealing with several claims are those of dealing with each of them. -/
theorem resurrectJobs_always {G : Request → World γ → World γ → Prop}
    (hread : ∀ w, E .hget w → G .hget w w)
    (hclaim : ∀ w queue id payload again, E .resurrect w → G .resurrect w
      (w.after (resurrectClaim K.jobs (K.processingQueue p) (K.namespaceQueue queue) id payload
        again))) (ids : List JobId) :
    Call.Always E G (fun _ => True) (resurrectJobs K p ids) := by
  induction ids with
  | nil => exact .pure trivial
  | cons id ids ih =>
    exact (resurrectOne_always hread hclaim id).bind fun _ _ => ih.bind fun _ _ => .pure trivial

/-- The steps of resurrecting a dead process are steps of a sweep. -/
theorem resurrectProcess_steps (hp : p ∈ dead) :
    Call.Always E (SweepStep K dead) (fun _ => True) (resurrectProcess K p : Call γ Unit) := by
  refine (Always.read (Q := fun _ => True) (fun s => lrange_snd ..)
    (fun w _ => .reads (by decide)) fun _ _ _ _ => trivial).bind fun ids _ => ?_
  refine (resurrectJobs_always (fun w _ => .reads (by decide))
    (fun w _ _ _ _ _ => .resurrects hp _ _ _ _) ids).bind fun _ _ => ?_
  refine (Always.read (Q := fun _ => True) (fun s => llen_snd ..)
    (fun w _ => .reads (by decide)) fun _ _ _ _ => trivial).bind fun left _ => ?_
  split
  · refine (Always.pipe (Q := fun _ _ => True) (fun x hx w _ => .unregisters hp hx)
      fun _ _ _ _ _ _ => trivial).bind fun _ _ => .pure trivial
  · exact .pure trivial

/-- The steps of resurrecting all dead processes are steps of a sweep. -/
theorem resurrectProcesses_steps {ps : List String} (hps : ∀ p ∈ ps, p ∈ dead) :
    Call.Always E (SweepStep K dead) (fun _ => True) (resurrectProcesses K ps : Call γ Unit) := by
  induction ps with
  | nil => exact .pure trivial
  | cons p ps ih =>
    exact (resurrectProcess_steps (hps p (List.mem_cons_self ..))).bind fun _ _ =>
      ih fun q hq => hps q (List.mem_cons_of_mem _ hq)

end Oxana
