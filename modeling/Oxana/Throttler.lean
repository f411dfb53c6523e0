import Mathlib.Data.List.Perm.Subperm
import Mathlib.Logic.Relation
import Mathlib.Order.MinMax
import Mathlib.Algebra.Ring.Int.Defs
import Mathlib.Algebra.Ring.Nat

/-!
# Throttled queues

A queue may be limited to a number of jobs in a window of time. Every claim is
recorded in a sorted set, with the time as its score; before a dispatcher
claims a job it drops what is older than the window and counts the rest. After
the claim it reads what the job costs, checks once more and adds the records.

Between any two of these steps other dispatchers may take theirs, and time
passes. The server forgets the set as a whole when nothing has been added for a
window. Time is counted in microseconds, expiry in milliseconds.

The window is a signed 64-bit number, and so is everything computed from it; where
a result does not fit, it wraps, as in a release build. In a debug build the
dispatcher panics there.
-/

namespace Oxana

/-- `QueueThrottle`, the throttle of a queue: how many jobs may be claimed in a window, and how long
the window is. -/
structure QueueThrottle where
  /-- how many jobs in a window -/
  limit : Nat
  /-- the length of the window in milliseconds -/
  windowMs : Int64

variable (q : QueueThrottle)

/-- `window_micros`: the product wraps if the window has more than 2 ^ 63 microseconds. -/
def QueueThrottle.windowMicros : Int64 := q.windowMs * 1000

/-- The length of the window in microseconds, as it is meant. -/
def QueueThrottle.window : Int := q.windowMs.toInt * 1000

/-! ## The set -/

/-- The sorted set in which the claims of a throttled queue are recorded, and the time at which its
key expires. -/
structure ThrottleSet where
  /-- the members with their scores -/
  entries : List (Nat × Nat)
  /-- in milliseconds -/
  expires : Option Int

/-- The set before anything has been recorded, whose key is absent. -/
def ThrottleSet.empty : ThrottleSet := ⟨[], none⟩

/-- The set as the server finds it at time `t`: it may have expired. -/
def ThrottleSet.at (s : ThrottleSet) (t : Nat) : ThrottleSet :=
  match s.expires with
  | some e => if e < t / 1000 then .empty else s
  | none => s

/-- `ZREMRANGEBYSCORE 0 hi`; a set without members is no key. -/
def ThrottleSet.zrembyscore (s : ThrottleSet) (hi : Int) : ThrottleSet :=
  match s.entries.filter fun p => hi < p.2 with
  | [] => .empty
  | p :: ps => ⟨p :: ps, s.expires⟩

/-- `ZADD` of new members with the same score. -/
def ThrottleSet.zadd (s : ThrottleSet) (members : List Nat) (score : Nat) : ThrottleSet :=
  { s with entries := s.entries ++ members.map fun m => (m, score) }

/-- `PEXPIRE` at time `t`; without time left the key is deleted. The server refuses times beyond the
range of 64 bits, which takes a window of 292 million years; this is left out. -/
def ThrottleSet.pexpire (s : ThrottleSet) (t : Nat) (ms : Int) : ThrottleSet :=
  if ms ≤ 0 then .empty else { s with expires := some (t / 1000 + ms) }

/-- `ThrottlerState`: what a check has found. -/
structure ThrottlerState where
  /-- the records in the window -/
  requests : Nat
  /-- whether there may be one more -/
  isAllowed : Bool
  /-- for how many milliseconds there may not -/
  throttledFor : Option Int64

/-- `state_w_conn`, for the clock it has read: the answer, and the set as it is
left. The score of the oldest record is cast to an `i64`. -/
def stateWConn (now : Int64) (s : ThrottleSet) : ThrottlerState × ThrottleSet :=
  let left := s.zrembyscore (now - q.windowMicros).toInt
  let requestCount := left.entries.length
  let isAllowed := decide (requestCount < q.limit)
  let first := (left.entries.map (·.2)).min?
  let throttledFor := if isAllowed then none
    else first.map fun start => (now - .ofIntClamp start + q.windowMicros) / 1000 + 1
  (⟨requestCount, isAllowed, throttledFor⟩, left)

/-! ## The dispatchers -/

/-- A claim: which one of the queue's, and when it was made. -/
structure Claim where
  /-- claims are numbered -/
  number : Nat
  /-- when it was made -/
  time : Nat
  deriving DecidableEq

/-- Where a dispatcher is in `pop_queue_message_w_throttle`. The list of an
allowed dispatcher is there for the proofs: the claims that had been recorded
when it checked. -/
inductive Phase where
  /-- between two pops -/
  | idle
  /-- `state` has read the clock -/
  | timed (now : Int64)
  /-- the check allows a claim -/
  | allowed (seen : List Claim)
  /-- a job is claimed -/
  | claimed (c : Claim)
  /-- its cost is known -/
  | priced (c : Claim) (cost : Option Nat)
  /-- `consume` has read the clock -/
  | stamped (c : Claim) (cost : Option Nat) (currentTime : Nat)
  /-- `state_w_conn` has read the clock once more, for the check inside `consume` -/
  | retimed (c : Claim) (cost : Option Nat) (currentTime : Nat) (now : Int64)
  /-- the second check allows it too -/
  | granted (c : Claim) (cost : Option Nat) (currentTime : Nat)
  /-- the dispatcher has returned an error -/
  | ended

/-- A throttled queue, its dispatchers, and what they have claimed. -/
structure Throttled where
  /-- the time -/
  clock : Nat
  /-- the set -/
  set : ThrottleSet
  /-- where the dispatchers are -/
  phase : ℕ → Phase
  /-- all claims, the last one first -/
  claims : List Claim
  /-- the claims recorded in the set so far -/
  recorded : List Claim
  /-- what the claimed jobs cost, as far as it is known -/
  priced : List (Option Nat)
  /-- for every pop that has returned a job, what it costs and how many members it added -/
  popped : List (Option Nat × Nat)

/-- Nothing has been claimed yet, and every dispatcher is idle. -/
def Throttled.initial (t : Nat) : Throttled := ⟨t, .empty, fun _ => .idle, [], [], [], []⟩

/-- What happens in one step, of a dispatcher or of the clock. -/
inductive ThrottleAct where
  /-- time passes -/
  | passes
  /-- dispatcher `i` starts a pop -/
  | begins (i : ℕ)
  /-- checks -/
  | checks (i : ℕ)
  /-- claims a job -/
  | claims (i : ℕ)
  /-- finds none -/
  | misses (i : ℕ)
  /-- reads what the job costs; a job without a payload costs nothing special -/
  | prices (i : ℕ) (cost : Option Nat)
  /-- reads the clock -/
  | stamps (i : ℕ)
  /-- reads it again -/
  | retimes (i : ℕ)
  /-- checks again -/
  | rechecks (i : ℕ)
  /-- adds the records -/
  | records (i : ℕ)
  /-- fails -/
  | fails (i : ℕ)

/-- Dispatcher `i` goes on to another phase. -/
def Throttled.goes (s : Throttled) (i : ℕ) (p : Phase) : Throttled :=
  { s with phase := Function.update s.phase i p }

/-- The answer of `state_w_conn` for the clock it has read. -/
def Throttled.stateAt (s : Throttled) (now : Int64) : ThrottlerState :=
  (stateWConn q now (s.set.at s.clock)).1

/-- The set is left without the records that are too old. -/
def Throttled.pruned (s : Throttled) (now : Int64) : Throttled :=
  { s with set := (stateWConn q now (s.set.at s.clock)).2 }

/-- A job is claimed at the time of the clock. -/
def Throttled.claim (s : Throttled) : Throttled :=
  { s with claims := ⟨s.claims.length, s.clock⟩ :: s.claims }

/-- The claim is recorded by these members, with this score. -/
def Throttled.record (s : Throttled) (c : Claim) (members : List Nat) (score : Nat) : Throttled :=
  { s with
    set := ((s.set.at s.clock).zadd members score).pexpire s.clock q.windowMs.toInt
    recorded := c :: s.recorded }

/-- A pop returns a job after it has added this many members. -/
def Throttled.pops (s : Throttled) (cost : Option Nat) (added : Nat) : Throttled :=
  { s with popped := (cost, added) :: s.popped }

/-- `Uuid::new_v4`: one member for each unit of the cost, none of them used. -/
structure NewMembers (s : ThrottleSet) (cost : Option Nat) (members : List Nat) : Prop where
  /-- as many as the job costs -/
  length : members.length = cost.getD 1
  /-- no two the same -/
  nodup : members.Nodup
  /-- none of them used -/
  fresh : ∀ m ∈ members, m ∉ s.entries.map (·.1)

/-- The steps of a throttled queue. A pipeline is one step. A request may get
lost, or be executed without an answer (`executed`). -/
inductive ThrottleStep : ThrottleAct → Throttled → Throttled → Prop
  | passes {s : Throttled} {t : Nat} : s.clock ≤ t →
      ThrottleStep .passes s { s with clock := t }
  | begins {s : Throttled} {i : ℕ} {now : Int64} : s.phase i = .idle → now.toInt = s.clock →
      ThrottleStep (.begins i) s (s.goes i (.timed now))
  | checks {s : Throttled} {i : ℕ} {now : Int64} : s.phase i = .timed now →
      ThrottleStep (.checks i) s ((s.pruned q now).goes i
        (if (s.stateAt q now).isAllowed then .allowed s.recorded else .idle))
  | claims {s : Throttled} {i : ℕ} {seen : List Claim} : s.phase i = .allowed seen →
      ThrottleStep (.claims i) s (s.claim.goes i (.claimed ⟨s.claims.length, s.clock⟩))
  | misses {s : Throttled} {i : ℕ} {seen : List Claim} : s.phase i = .allowed seen →
      ThrottleStep (.misses i) s (s.goes i .idle)
  | prices {s : Throttled} {i : ℕ} {c : Claim} (cost : Option Nat) : s.phase i = .claimed c →
      ThrottleStep (.prices i cost) s
        { s.goes i (.priced c cost) with priced := cost :: s.priced }
  | stamps {s : Throttled} {i : ℕ} {c : Claim} {cost : Option Nat} : s.phase i = .priced c cost →
      ThrottleStep (.stamps i) s (s.goes i (.stamped c cost s.clock))
  | retimes {s : Throttled} {i : ℕ} {c : Claim} {cost : Option Nat} {t : Nat} {now : Int64} :
      s.phase i = .stamped c cost t → now.toInt = s.clock →
      ThrottleStep (.retimes i) s (s.goes i (.retimed c cost t now))
  /-- a second check that allows the job -/
  | grants {s : Throttled} {i : ℕ} {c : Claim} {cost : Option Nat} {t : Nat} {now : Int64} :
      s.phase i = .retimed c cost t now → (s.stateAt q now).isAllowed → cost.getD 1 ≠ 0 →
      ThrottleStep (.rechecks i) s ((s.pruned q now).goes i (.granted c cost t))
  /-- one that refuses it, or a job that is free: the pop is over -/
  | skips {s : Throttled} {i : ℕ} {c : Claim} {cost : Option Nat} {t : Nat} {now : Int64} :
      s.phase i = .retimed c cost t now →
      ¬ ((s.stateAt q now).isAllowed ∧ cost.getD 1 ≠ 0) →
      ThrottleStep (.rechecks i) s (((s.pruned q now).pops cost 0).goes i .idle)
  | records {s : Throttled} {i : ℕ} {c : Claim} {cost : Option Nat} {t : Nat} {members : List Nat} :
      s.phase i = .granted c cost t → NewMembers (s.set.at s.clock) cost members →
      ThrottleStep (.records i) s (((s.record q c members t).pops cost
        (((s.set.at s.clock).zadd members t).entries.length -
          (s.set.at s.clock).entries.length)).goes i .idle)
  /-- a check that fails: the dispatcher tries again -/
  | retries {s : Throttled} {i : ℕ} {now : Int64} (executed : Bool) : s.phase i = .timed now →
      ThrottleStep (.fails i) s ((if executed then s.pruned q now else s).goes i .idle)
  /-- a claim that fails -/
  | loses {s : Throttled} {i : ℕ} {seen : List Claim} (executed : Bool) :
      s.phase i = .allowed seen →
      ThrottleStep (.fails i) s ((if executed then s.claim else s).goes i .ended)
  /-- the cost cannot be read -/
  | puzzles {s : Throttled} {i : ℕ} {c : Claim} : s.phase i = .claimed c →
      ThrottleStep (.fails i) s (s.goes i .ended)
  /-- a second check that fails -/
  | breaks {s : Throttled} {i : ℕ} {c : Claim} {cost : Option Nat} {t : Nat} {now : Int64}
      (executed : Bool) : s.phase i = .retimed c cost t now →
      ThrottleStep (.fails i) s ((if executed then s.pruned q now else s).goes i .ended)
  /-- records that are not answered -/
  | drops {s : Throttled} {i : ℕ} {c : Claim} {cost : Option Nat} {t : Nat} {members : List Nat}
      (executed : Bool) : s.phase i = .granted c cost t →
      NewMembers (s.set.at s.clock) cost members →
      ThrottleStep (.fails i) s ((if executed then s.record q c members t else s).goes i .ended)

end Oxana
