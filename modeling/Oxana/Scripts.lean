import Oxana.Redis.Script
import Oxana.Snapshot
import Mathlib.Logic.Function.Basic

/-!
# The transition scripts

The six Lua scripts that move a job from one place to another. The server does
not roll a script back, so each of them checks the types of its keys before it
writes anything.

Five of them have a fixed list of keys. `enqueueScript` takes any number of
ready lists and works through a whole chunk of jobs: it validates the
snapshots its caller took, plans what to do with each job in turn (a plan may
depend on what an earlier job of the chunk is going to write), checks the types
of all keys the plan touches, and only then commits.
-/

namespace Oxana

open Redis Script

/-- The name of a type as a script spells it. -/
def typeName : Kind → String
  | .string => "string"
  | .hash => "hash"
  | .list => "list"
  | .zset => "zset"

/-- The checks five of the scripts begin with: every key is absent or of its
expected type. -/
def checkTypes (transition : String) : List (Key × Kind) → Script Unit
  | [] => pure ()
  | (k, expected) :: ks => do
    let actual ← type k
    if actual ≠ none ∧ actual ≠ some expected then
      fail (.reply ("WRONGTYPE " ++ transition ++ " key is not a " ++ typeName expected))
    else checkTypes transition ks

/-- An empty argument stands for an absent payload. -/
def expectedPayload (arg : String) : Option String := if arg ≠ "" then some arg else none

/-- `retry_failed.lua`: the payload is stored, the retry is added, and the claim is released. -/
def retryFailed (jobs retry processing : Key) (id : JobId) (payload : String) (score : Int) :
    Script Unit := do
  checkTypes "retry transition" [(jobs, .hash), (retry, .zset), (processing, .list)]
  hset jobs id payload
  zadd retry score id
  lremFirst processing id

/-- `finish_success.lua`: the payloads and the claims of some jobs are dropped. -/
def finishSuccess (jobs processing : Key) (ids : List JobId) : Script Unit := do
  checkTypes "acknowledgment" [(jobs, .hash), (processing, .list)]
  forEach ids fun id => do
    hdel jobs [id]
    lremFirst processing id

/-- `finish_dead.lua`: an entry is added to the dead list, whose length is limited unless the limit
is zero. -/
def finishDead (jobs dead processing : Key) (id : JobId) (payload : String) (limit : Nat) :
    Script Unit := do
  checkTypes "dead transition" [(jobs, .hash), (dead, .list), (processing, .list)]
  lpush dead payload
  hdel jobs [id]
  lremFirst processing id
  if limit > 0 then ltrim dead limit

/-- `promote_scheduled.lua`: the number of jobs moved to the ready list. -/
def promoteScheduled (jobs set queue : Key) (id : JobId) (payloadArg : String) (scoreArg : Int) :
    Script Nat := do
  checkTypes "scheduled transition" [(jobs, .hash), (set, .zset), (queue, .list)]
  let score ← zscore set id
  if score ≠ some scoreArg then return 0
  let payload ← hget jobs id
  if payload ≠ expectedPayload payloadArg then return 0
  if payload.isSome then lpush queue id
  zrem set id
  return if payload.isSome then 1 else 0

/-- `resurrect_claim.lua`: the number of claims released. -/
def resurrectClaim (jobs processing queue : Key) (id : JobId) (payloadArg : String)
    (resurrect : Bool) : Script Nat := do
  checkTypes "recovery transition" [(jobs, .hash), (processing, .list), (queue, .list)]
  let claimed ← lpos processing id
  if !claimed then return 0
  let payload ← hget jobs id
  if payload ≠ expectedPayload payloadArg then return 0
  if payload.isSome then
    if resurrect then lpush queue id
    else hdel jobs [id]
  lremFirst processing id
  return 1

/-! ## `enqueue.lua` -/

/-- How a stored payload is compared with its snapshot. -/
inductive SnapshotMode where
  /-- there must be none -/
  | absent
  /-- all or a part of it -/
  | compare (how : EnqueueSnapshotComparison)
  deriving DecidableEq, Repr

/-- A snapshot of a payload, as it is passed to the script. -/
structure SnapshotArg where
  /-- the job -/
  id : JobId
  /-- how to compare -/
  mode : SnapshotMode
  /-- with what -/
  expected : String
  /-- the index of the old queue's key -/
  oldKey : Nat

/-- What the script is to do when the job is already there. -/
inductive Conflict where
  /-- write anyway, without a look -/
  | default
  /-- leave it alone -/
  | skip
  /-- replace it -/
  | replace
  deriving DecidableEq, Repr

/-- A job as it is passed to the script, with its queue and its payload. -/
structure InputArg where
  /-- the job -/
  id : JobId
  /-- its envelope -/
  payload : String
  /-- the index of its queue's key -/
  newKey : Nat
  /-- what to do when it is there -/
  conflict : Conflict
  /-- when it is due -/
  score : Int

/-- What has become of an input, as the script reports it. -/
inductive Outcome where
  /-- the job was there -/
  | skipped
  /-- it was not -/
  | enqueued
  /-- it was, and has been replaced -/
  | replaced
  deriving DecidableEq, Repr

/-- The payloads that changed since their snapshots were taken, and otherwise
the outcomes. -/
structure EnqueueReply where
  /-- job ids and what is stored for them now -/
  changed : List (JobId × Option String)
  /-- one for each input -/
  outcomes : List Outcome

/-- `KEYS[i]`, which is counted from one. -/
def keyAt (keys : List Key) : Nat → Option Key
  | 0 => none
  | i + 1 => keys[i]?

/-- The types that the script has already asked for. -/
abbrev Types := List (Key × Kind)

/-- `require_type`: a key is looked up once, later demands are compared with
the first. -/
def requireType (types : Types) (key : Option Key) (expected : Kind) : Script (Bool × Types) :=
  match key with
  | none => fail .fault
  | some key =>
    match types.lookup key with
    | some kd => pure (kd == expected, types)
    | none => do
      let actual ← type key
      pure (actual == none || actual == some expected, (key, expected) :: types)

/-- `wrong_type`: the error of `enqueue.lua` for a key of another type. -/
def enqueueWrongType : Err :=
  .reply "WRONGTYPE enqueue transition key has an incompatible type"

/-- Demand a type, or end the script with the error reply. -/
def demandType (types : Types) (key : Option Key) (expected : Kind) : Script Types := do
  let (ok, types) ← requireType types key expected
  if ok then pure types else fail enqueueWrongType

/-- Whether a stored payload agrees with a snapshot. -/
def SnapshotArg.agrees (a : SnapshotArg) (payload : Option String) : Bool :=
  match a.mode, payload with
  | .absent, payload => payload.isNone
  | .compare _, none => false
  | .compare .exact, some p => p = a.expected
  | .compare .suffix, some p => a.expected.toList.isSuffixOf p.toList
  | .compare .initial, some p => a.expected.toList.isPrefixOf p.toList

/-- The script's knowledge about ids: whether they are stored, if it knows,
and the ready list of those that may be replaced. -/
structure Known where
  /-- whether an id is stored -/
  present : JobId → Option Bool
  /-- the key of its queue -/
  queueKeys : JobId → Option Key

/-- Validate the snapshots: each must agree with what is stored. -/
def checkSnapshots (keys : List Key) (jobs : Key) :
    List SnapshotArg → Known → Script (List (JobId × Option String) × Known)
  | [], known => pure ([], known)
  | a :: as, known => do
    let payload ← hget jobs a.id
    let (changed, known) ← checkSnapshots keys jobs as
      ⟨Function.update known.present a.id (some payload.isSome),
        Function.update known.queueKeys a.id (keyAt keys a.oldKey)⟩
    pure (if a.agrees payload then changed else (a.id, payload) :: changed, known)

/-- A write that the script to enqueue has planned, once it has decided that the envelope is not
skipped. -/
structure Write where
  /-- the job -/
  id : JobId
  /-- its envelope -/
  payload : String
  /-- when it is due -/
  score : Int
  /-- the ready list it may be in -/
  oldQueue : Option Key
  /-- its queue's ready list -/
  newQueue : Option Key
  /-- whether it is there -/
  replacing : Bool

/-- Whether an input's id is stored. Inputs that are written anyway do not ask. -/
def storedBefore (jobs : Key) (a : InputArg) (known : Known) : Script (Option Bool) :=
  match known.present a.id with
  | some b => pure (some b)
  | none => if a.conflict = .default then pure none else some <$> hexists jobs a.id

/-- Remember whether a job is there, and on which list. -/
def Known.record (known : Known) (id : JobId) : Option Bool → Known
  | some b => { known with present := Function.update known.present id (some b) }
  | none => known

/-- Plan one input, given whether its id is stored. -/
def planWith (queue : Option Key) (a : InputArg) (stored : Option Bool) (known : Known) :
    Option Write × Outcome × Known :=
  if a.conflict = .skip ∧ stored = some true then (none, .skipped, known)
  else
    let replacing := decide (a.conflict = .replace ∧ stored = some true)
    (some ⟨a.id, a.payload, a.score, if replacing then known.queueKeys a.id else none, queue,
        replacing⟩,
      if replacing then .replaced else .enqueued,
      ⟨Function.update known.present a.id (some true),
        Function.update known.queueKeys a.id queue⟩)

/-- Plan one input, by what is known of its job. -/
def planInput (keys : List Key) (jobs : Key) (a : InputArg) (known : Known) :
    Script (Option Write × Outcome × Known) := do
  let stored ← storedBefore jobs a known
  pure (planWith (keyAt keys a.newKey) a stored (known.record a.id stored))

/-- Plan all inputs in their order, each by what the ones before will do. -/
def planInputs (keys : List Key) (jobs : Key) :
    List InputArg → Known → Script (List Write × List Outcome)
  | [], _ => pure ([], [])
  | a :: as, known => do
    let (write, outcome, known) ← planInput keys jobs a known
    let (writes, outcomes) ← planInputs keys jobs as known
    pure (write.toList ++ writes, outcome :: outcomes)

/-- Check the type of the place a job is written to. -/
def preflightPlace (schedule : Key) (scheduled : Bool) (w : Write) (types : Types) :
    Script Types :=
  if scheduled then demandType types (some schedule) .zset
  else demandType types w.newQueue .list

/-- Check the types of all keys one write touches. -/
def preflightWrite (schedule retry : Key) (scheduled : Bool) (w : Write) (types : Types) :
    Script Types := do
  let types ← preflightPlace schedule scheduled w types
  if w.replacing then
    let types ← demandType types (some schedule) .zset
    let types ← demandType types (some retry) .zset
    let types ← demandType types w.oldQueue .list
    demandType types w.newQueue .list
  else pure types

/-- Check the types of all keys the plan touches. -/
def preflight (schedule retry : Key) (scheduled : Bool) : List Write → Types → Script Types
  | [], types => pure types
  | w :: ws, types => do
    let types ← preflightWrite schedule retry scheduled w types
    preflight schedule retry scheduled ws types

/-- A command on a key that may be missing from the arguments. -/
def onKey (key : Option Key) (x : Key → Script Unit) : Script Unit :=
  match key with
  | some key => x key
  | none => fail .fault

/-- Commit one write: room is made, the payload is stored, and the job is placed. -/
def commitWrite (jobs schedule retry : Key) (scheduled : Bool) (w : Write) : Script Unit := do
  if w.replacing then
    zrem schedule w.id
    zrem retry w.id
    onKey w.oldQueue fun k => lremAll k w.id
    if w.oldQueue ≠ w.newQueue then onKey w.newQueue fun k => lremAll k w.id
  hset jobs w.id w.payload
  if scheduled then zadd schedule w.score w.id
  else onKey w.newQueue fun k => lpush k w.id

/-- Plan the writes, check the types, and commit: nothing is written before the checks. -/
def enqueueWrites (keys : List Key) (jobs schedule retry : Key) (scheduled : Bool)
    (inputs : List InputArg) (types : Types) (known : Known) : Script EnqueueReply := do
  let plan ← planInputs keys jobs inputs known
  let _ ← preflight schedule retry scheduled plan.1 types
  forEach plan.1 (commitWrite jobs schedule retry scheduled)
  pure ⟨[], plan.2⟩

/-- `enqueue.lua`. The first three keys are the jobs hash, the schedule and the
retry set. -/
def enqueueScript (jobs schedule retry : Key) (queueKeys : List Key) (scheduled : Bool)
    (snapshots : List SnapshotArg) (inputs : List InputArg) : Script EnqueueReply := do
  let keys := jobs :: schedule :: retry :: queueKeys
  let types ← demandType [] (some jobs) .hash
  let found ← checkSnapshots keys jobs snapshots ⟨fun _ => none, fun _ => none⟩
  if found.1 ≠ [] then pure ⟨found.1, []⟩
  else enqueueWrites keys jobs schedule retry scheduled inputs types found.2

end Oxana
