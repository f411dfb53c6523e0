import Oxana.Cron
import Oxana.Processes

/-!
# Loops

What a process does in the background: it waits, runs an operation, and starts over, until it is
cancelled or until one error too many has come back. The loops share one way of doing so.
-/

namespace Oxana

open Redis Interleave Call

variable {γ α : Type}

/-- `poll_redis`; the process is cancelled while the loop waits. -/
def pollRedis (operation : Call γ α) : Nat → Call γ Unit
  | 0 => hang
  | n + 1 => ask fun c =>
    if c.done then pure ()
    else do
      let _ ← trackRedisResult operation
      pollRedis operation n

section Loops

variable (K : StorageKeys) (H : Handle)

/-- `retry_loop`: what is due in the retry set is promoted, again and again. -/
def retryLoop : Call γ Unit := ask fun c => pollRedis (enqueueScheduled K K.retry) c.rounds

/-- `schedule_loop`: what is due in the schedule is promoted, again and again. -/
def scheduleLoop : Call γ Unit := ask fun c => pollRedis (enqueueScheduled K K.schedule) c.rounds

/-- `cleanup_loop`: payloads that are too old are dropped, again and again. -/
def cleanupLoop : Call γ Unit := ask fun c => pollRedis (cleanup K) c.rounds

/-- `ping_loop`: the process renews its record, again and again. -/
def pingLoop (record : String) : Call γ Unit := ask fun c => pollRedis (ping H record) c.rounds

/-- `resurrect_loop`: dead processes are swept, again and again. -/
def resurrectLoop (deadProcessThreshold : Nat) : Call γ Unit :=
  ask fun c => pollRedis (resurrect K deadProcessThreshold) c.rounds

/-- The rounds of `register`: whether a ping has landed before the process was cancelled. -/
def registerRounds (record : String) : Nat → Call γ Bool
  | 0 => hang
  | n + 1 => ask fun c =>
    if c.done then pure false
    else do
      let landed ← trackRedisResult (ping H record)
      if landed.isSome then pure true
      else ask fun c => if c.done then pure false else registerRounds record n

/-- `register`: the process is registered, with as many attempts as it takes. -/
def register (record : String) : Call γ Bool := ask fun c => registerRounds H record c.rounds

end Loops

/-! ## What the operation does, the loop does -/

section Rules

variable {E : Request → World γ → Prop} {G : Request → World γ → World γ → Prop}

/-- Tracking the result of a request makes no request itself, so it keeps to what the call keeps to.
-/
theorem trackRedisResult_always {x : Call γ α} (hx : Call.Always E G (fun _ => True) x) :
    Call.Always E G (fun _ => True) (trackRedisResult x) := by
  refine hx.catching (fun a _ => .pure trivial) fun e => .ask fun c => ?_
  split
  · exact .fail _
  · exact .pure trivial

/-- A loop that polls keeps to what its operation keeps to, however often it goes round. -/
theorem pollRedis_always {operation : Call γ α}
    (h : Call.Always E G (fun _ => True) operation) (n : Nat) :
    Call.Always E G (fun _ => True) (pollRedis operation n) := by
  induction n with
  | zero => exact .hang
  | succ n ih =>
    refine .ask fun c => ?_
    split
    · exact .pure trivial
    · exact (trackRedisResult_always h).bind fun _ _ => ih

/-- The loop that registers a process keeps to what one heartbeat keeps to. -/
theorem registerRounds_always {H : Handle} {record : String}
    (h : Call.Always E G (fun _ => True) (ping H record)) (n : Nat) :
    Call.Always E G (fun _ => True) (registerRounds H record n) := by
  induction n with
  | zero => exact .hang
  | succ n ih =>
    refine .ask fun c => ?_
    split
    · exact .pure trivial
    · refine (trackRedisResult_always h).bind fun landed _ => ?_
      split
      · exact .pure trivial
      · refine .ask fun c => ?_
        split
        · exact .pure trivial
        · exact ih

end Rules

end Oxana
