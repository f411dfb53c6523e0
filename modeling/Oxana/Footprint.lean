import Oxana.Redis.Commands
import Oxana.Drain
import Oxana.CronOnce
import Oxana.QueueSettings
import Oxana.ReviveDead
import Oxana.WipeQueue

/-!
# What the storage does to the server

Said once: every step of every storage operation issues commands of a few kinds, each on keys of
its own (`StorageCommand`). Ids are pushed to the head of a ready list and claimed at its tail; the
only list something is appended to is the dead list, when a revival puts entries back. Which requests
push ids to ready lists and which take them away is part of it (`Request.pushes`, `Request.takes`).
Results that do not depend on the order of the steps are case analyses over these commands.
-/

namespace Oxana

open Redis Script Interleave Call

/-! ## The commands -/

namespace StorageKeys

variable (K : StorageKeys)

/-- The keys of the storage that are hashes. -/
inductive IsHash : Key → Prop
  | jobs : IsHash K.jobs
  | processesData : IsHash K.processesData
  | queueConfigs : IsHash K.queueConfigs

/-- The keys of the storage that are sorted sets. -/
inductive IsSet : Key → Prop
  | schedule : IsSet K.schedule
  | retry : IsSet K.retry
  | processes : IsSet K.processes

/-- The lists of ids; those that a search for queues finds count as well. -/
inductive IsIds : Key → Prop
  | ready (queue : String) : IsIds (K.namespaceQueue queue)
  | processing (processId : String) : IsIds (K.processingQueue processId)
  | found {k : Key} : globMatch (K.namespaceQueue "*") k = true → IsIds k

/-- The lists of the storage that may be dropped as a whole. -/
inductive IsDropped : Key → Prop
  | ready (queue : String) : IsDropped (K.namespaceQueue queue)
  | dead : IsDropped K.dead
  | claim (uuid : String) : IsDropped (claimKeyOf K uuid)

/-- The keys of counters: the totals, the metrics of each minute, and the sets in which claims of
throttled queues are recorded. -/
inductive IsCounter : Key → Prop
  | stats : IsCounter K.stats
  | metrics (name : String) : IsCounter (K.metricsPrefix ++ ":" ++ name)
  | throttler (queue : String) : IsCounter (throttlerKey queue)

end StorageKeys

/-- The request may push the id to a ready list. The requests that enqueue jobs and those that promote
or resurrect a job do so; a call of the script pushes only ids it has been called with. -/
def Request.pushes : Request → JobId → Prop
  | .hset, _ | .promote, _ | .resurrect, _ => True
  | .enqueue ids, id => id ∈ ids
  | _, _ => False

/-- The request may take the id away from a ready list. Claims and the deletion of a list do so, a
replacement takes the jobs it replaces away, and the deletion of a job takes this job away. -/
def Request.takes : Request → JobId → Prop
  | .lmove, _ | .del, _ => True
  | .enqueue ids, id => id ∈ ids
  | .transaction id', id => id = id'
  | _, _ => False

/-- The commands of the storage, by the request they belong to. -/
inductive StorageCommand (K : StorageKeys) (l : Request) : Command → Prop
  | hset {k : Key} (fvs : List (String × String)) : K.IsHash k → StorageCommand K l (.hset k fvs)
  | hdel {k : Key} (fs : List String) : K.IsHash k → StorageCommand K l (.hdel k fs)
  | zadd {k : Key} (score : Int) (x : String) : K.IsSet k → StorageCommand K l (.zadd k score x)
  | zrem {k : Key} (x : String) : K.IsSet k → StorageCommand K l (.zrem k x)
  /-- an id is put at the head of a ready list -/
  | push (queue : String) {id : JobId} : l.pushes id →
      StorageCommand K l (.lpush (K.namespaceQueue queue) id)
  /-- an id is claimed: it moves from the tail of a ready list to the claims of a process -/
  | claim (queue processId : String) : l = .lmove →
      StorageCommand K l (.lmove (K.namespaceQueue queue) (K.processingQueue processId))
  | release (processId : String) (id : JobId) :
      StorageCommand K l (.lremFirst (K.processingQueue processId) id)
  | remove {k : Key} {id : JobId} : K.IsIds k → l.takes id → StorageCommand K l (.lremAll k id)
  /-- an entry is put at the head of the dead list -/
  | bury (entry : String) : StorageCommand K l (.lpush K.dead entry)
  | trim (n : Nat) : StorageCommand K l (.ltrim K.dead n)
  /-- the dead list is renamed, and thereby taken as a whole by the one who revives it -/
  | take (uuid : String) : StorageCommand K l (.rename K.dead (claimKeyOf K uuid))
  /-- entries that could not be revived are put back at the tail of the dead list -/
  | putBack (entries : List String) : StorageCommand K l (.rpush K.dead entries)
  | drop {k : Key} : K.IsDropped k → l = .del → StorageCommand K l (.del k)

/-! ## Scripts -/

section Scripts

variable {K : StorageKeys} {l : Request} {id : JobId} {payload : String} {p queue : String}

/-- A check of types issues no command. -/
theorem checkTypes_issues {A : Command → Prop} (transition : String) (ks : List (Key × Kind)) :
    Issues A (checkTypes transition ks) fun _ => True := by
  refine .read (fun s => ?_) fun _ _ _ => trivial
  rcases checkTypes_checks transition ks s with ⟨_, h, -⟩ | ⟨_, h⟩
  · rw [h]
  · rw [h]

/-- The script of a retry issues commands of the storage only. -/
theorem retryFailed_issues (score : Int) :
    Issues (StorageCommand K l)
      (retryFailed K.jobs K.retry (K.processingQueue p) id payload score) fun _ => True :=
  (checkTypes_issues _ _).bind fun _ _ => (Issues.hset (.hset _ .jobs)).bind fun _ _ =>
    (Issues.zadd (.zadd _ _ .retry)).bind fun _ _ => .lremFirst (.release p _)

/-- The script of an acknowledgement issues commands of the storage only. -/
theorem finishSuccess_issues (ids : List JobId) :
    Issues (StorageCommand K l) (finishSuccess K.jobs (K.processingQueue p) ids) fun _ => True :=
  (checkTypes_issues _ _).bind fun _ _ => .forEach fun _ _ =>
    (Issues.hdel (.hdel _ .jobs)).bind fun _ _ => .lremFirst (.release p _)

/-- The script of a job that is given up issues commands of the storage only. -/
theorem finishDead_issues (limit : Nat) :
    Issues (StorageCommand K l) (finishDead K.jobs K.dead (K.processingQueue p) id payload limit)
      fun _ => True := by
  refine (checkTypes_issues _ _).bind fun _ _ => (Issues.lpush (.bury _)).bind fun _ _ =>
    (Issues.hdel (.hdel _ .jobs)).bind fun _ _ =>
      (Issues.lremFirst (.release p _)).bind fun _ _ => ?_
  split
  · exact .ltrim (.trim limit)
  · exact .pure trivial

/-- The script of a promotion issues commands of the storage only. -/
theorem promoteScheduled_issues {set : Key} (hset : K.IsSet set) (score : Int) :
    Issues (StorageCommand K .promote)
      (promoteScheduled K.jobs set (K.namespaceQueue queue) id payload score) fun _ => True := by
  refine (checkTypes_issues _ _).bind fun _ _ => ?_
  refine Issues.bind (Q := fun _ => True) ?_ fun t _ => ?_
  · exact .read (fun s => onKind_read ..) fun _ _ _ => trivial
  split
  · exact .pure trivial
  · refine Issues.bind (Q := fun _ => True) ?_ fun stored _ => ?_
    · exact .read (fun s => hget_snd ..) fun _ _ _ => trivial
    split
    · exact .pure trivial
    · split
      · exact (Issues.lpush (.push queue trivial)).bind fun _ _ =>
          (Issues.zrem (.zrem id hset)).bind fun _ _ => .pure trivial
      · exact (Issues.zrem (.zrem id hset)).bind fun _ _ => .pure trivial

/-- The script that releases a claim issues commands of the storage only. -/
theorem resurrectClaim_issues (again : Bool) :
    Issues (StorageCommand K .resurrect)
      (resurrectClaim K.jobs (K.processingQueue p) (K.namespaceQueue queue) id payload again)
      fun _ => True := by
  refine (checkTypes_issues _ _).bind fun _ _ => ?_
  refine Issues.bind (Q := fun _ => True) ?_ fun claimed _ => ?_
  · exact .read (fun s => onKind_read ..) fun _ _ _ => trivial
  split
  · exact .pure trivial
  · have hrelease : Issues (StorageCommand K .resurrect)
        (lremFirst (K.processingQueue p) id >>= fun _ => Pure.pure 1) fun _ => True :=
      (Issues.lremFirst (.release p id)).bind fun _ _ => .pure trivial
    refine Issues.bind (Q := fun _ => True) ?_ fun stored _ => ?_
    · exact .read (fun s => hget_snd ..) fun _ _ _ => trivial
    split
    · exact .pure trivial
    · split
      · split
        · exact (Issues.lpush (.push queue trivial)).bind fun _ _ => hrelease
        · exact (Issues.hdel (.hdel [id] .jobs)).bind fun _ _ => hrelease
      · exact hrelease

/-- The script that claims the dead list issues commands of the storage only. -/
theorem claimDead_issues (uuid : String) :
    Issues (StorageCommand K l) (claimDead K.dead (claimKeyOf K uuid)) fun _ => True := by
  refine .command _ (.take uuid) fun s => ?_
  rw [claimDead, Command.run]
  cases s.get K.dead with
  | none => rfl
  | some v => rfl

/-- A transaction issues the commands of its parts. -/
theorem transaction_issues {A : Command → Prop} {xs : List (Script Unit)}
    (hxs : ∀ x ∈ xs, Issues A x fun _ => True) : Issues A (transaction xs) fun _ => True := by
  refine fun s => ⟨?_, fun _ _ => trivial⟩
  induction xs generalizing s with
  | nil => exact ⟨[], fun _ hc => absurd hc List.not_mem_nil, rfl⟩
  | cons x xs ih =>
    obtain ⟨⟨cs, hcs, hone⟩, -⟩ := hxs x List.mem_cons_self s
    obtain ⟨cs', hcs', hrest⟩ := ih (fun y hy => hxs y (List.mem_cons_of_mem x hy)) (x s).2
    refine ⟨cs ++ cs', fun c hc => (List.mem_append.mp hc).elim (hcs c) (hcs' c), ?_⟩
    rw [runAll_append, ← hone, ← hrest, transaction]
    split <;> simp_all

/-! ### The enqueue script -/

/-- The key, if there is one, is that of a ready list. -/
def ReadyKey (K : StorageKeys) (key : Option Key) : Prop :=
  ∀ k, key = some k → ∃ queue, k = K.namespaceQueue queue

theorem readyKey_none : ReadyKey K none := fun _ h => by cases h

/-- The keys of queues are behind the first three: under the index of a queue the script finds a
ready list. -/
theorem readyKey_index (queues : List String) (queue : String) :
    ReadyKey K (keyAt (K.jobs :: K.schedule :: K.retry :: queues.map K.namespaceQueue)
      (queueIndex queues queue)) := by
  intro k hk
  rw [queueIndex, keyAt] at hk
  have hmem : (queues.map K.namespaceQueue)[queues.idxOf queue]? = some k := hk
  obtain ⟨q, -, rfl⟩ := List.mem_map.mp (List.mem_of_getElem? hmem)
  exact ⟨q, rfl⟩

/-- A demand on the type of a key issues no command. -/
theorem demandType_issues {A : Command → Prop} (types : Types) (key : Option Key)
    (expected : Kind) : Issues A (demandType types key expected) fun _ => True := by
  refine .read (fun s => ?_) fun _ _ _ => trivial
  cases key with
  | none => rfl
  | some k =>
    rcases demandType_checks types k expected s with ⟨_, h, -⟩ | ⟨_, h⟩
    · rw [h]
    · rw [h]

section Enqueue

variable {A : Command → Prop} {keys : List Key} {jobs schedule retry : Key} {ids : List JobId}

/-- A write of one of these jobs, whose queues have ready lists. -/
structure Planned (K : StorageKeys) (ids : List JobId) (w : Write) : Prop where
  /-- the job is one of them -/
  id : w.id ∈ ids
  /-- it may be taken away from a ready list -/
  old : ReadyKey K w.oldQueue
  /-- the ready list to which the job goes is the list of a queue -/
  new : ReadyKey K w.newQueue

/-- The check of the snapshots issues no command. -/
theorem checkSnapshots_issues {as : List SnapshotArg}
    (has : ∀ a ∈ as, ReadyKey K (keyAt keys a.oldKey)) {known : Known}
    (hknown : ∀ id, ReadyKey K (known.queueKeys id)) :
    Issues A (checkSnapshots keys jobs as known) fun found =>
      ∀ id, ReadyKey K (found.2.queueKeys id) := by
  induction as generalizing known with
  | nil => exact .pure hknown
  | cons a as ih =>
    refine Issues.bind (Q := fun _ => True) ?_ fun payload _ => ?_
    · exact .read (fun s => hget_snd ..) fun _ _ _ => trivial
    refine (ih (fun b hb => has b (List.mem_cons_of_mem a hb)) fun id => ?_).bind
      fun found hfound => ?_
    · simp only [Function.update_apply]
      split
      · exact has a List.mem_cons_self
      · exact hknown id
    · exact .pure hfound

/-- A write that is planned is one of a job of the request, and its keys are those of ready lists.
-/
theorem planWith_ready {queue : Option Key} {a : InputArg} {stored : Option Bool} {known : Known}
    (hid : a.id ∈ ids) (hqueue : ReadyKey K queue)
    (hknown : ∀ id, ReadyKey K (known.queueKeys id)) :
    (∀ w ∈ (planWith queue a stored known).1, Planned K ids w) ∧
      ∀ id, ReadyKey K ((planWith queue a stored known).2.2.queueKeys id) := by
  rw [planWith]
  split
  · refine ⟨fun w hw => ?_, hknown⟩
    cases hw
  · refine ⟨fun w hw => ?_, fun id => ?_⟩
    · obtain rfl := Option.mem_some.mp hw
      refine ⟨hid, ?_, hqueue⟩
      simp only
      split
      · exact hknown a.id
      · exact readyKey_none
    · simp only [Function.update_apply]
      split
      · exact hqueue
      · exact hknown id

/-- The planning of a request issues no command, and what it plans are writes of its jobs. -/
theorem planInputs_issues {as : List InputArg}
    (has : ∀ a ∈ as, a.id ∈ ids ∧ ReadyKey K (keyAt keys a.newKey)) {known : Known}
    (hknown : ∀ id, ReadyKey K (known.queueKeys id)) :
    Issues A (planInputs keys jobs as known) fun plan => ∀ w ∈ plan.1, Planned K ids w := by
  induction as generalizing known with
  | nil => exact .pure fun _ h => absurd h List.not_mem_nil
  | cons a as ih =>
    have hstored : Issues A (storedBefore jobs a known) fun _ => True := by
      rw [storedBefore]
      split
      · exact .pure trivial
      · split
        · exact .pure trivial
        · refine Issues.bind (x := hexists jobs a.id) (Q := fun _ => True) ?_ fun _ _ => .pure trivial
          exact .read (fun s => hexists_snd ..) fun _ _ _ => trivial
    have hone : Issues A (planInput keys jobs a known) fun p =>
        (∀ w ∈ p.1, Planned K ids w) ∧ ∀ id, ReadyKey K (p.2.2.queueKeys id) := by
      obtain ⟨hid, hkey⟩ := has a List.mem_cons_self
      refine hstored.bind fun stored _ => .pure (planWith_ready hid hkey ?_)
      intro id
      cases stored with
      | none => exact hknown id
      | some b => exact hknown id
    refine hone.bind fun p hp => ?_
    refine (ih (fun b hb => has b (List.mem_cons_of_mem a hb)) hp.2).bind fun plan hplan =>
      .pure fun w hw => ?_
    rcases List.mem_append.mp hw with hw | hw
    · exact hp.1 w (Option.mem_toList.mp hw)
    · exact hplan w hw

/-- The check of a plan issues no command. -/
theorem preflight_issues (scheduled : Bool) (ws : List Write) (types : Types) :
    Issues A (preflight schedule retry scheduled ws types) fun _ => True := by
  induction ws generalizing types with
  | nil => exact .pure trivial
  | cons w ws ih =>
    have hplace : Issues A (preflightPlace schedule scheduled w types) fun _ => True := by
      rw [preflightPlace]
      split
      · exact demandType_issues _ _ _
      · exact demandType_issues _ _ _
    have hone : Issues A (preflightWrite schedule retry scheduled w types) fun _ => True := by
      refine hplace.bind fun _ _ => ?_
      split
      · exact (demandType_issues _ _ _).bind fun _ _ => (demandType_issues _ _ _).bind fun _ _ =>
          (demandType_issues _ _ _).bind fun _ _ => demandType_issues _ _ _
      · exact .pure trivial
    exact hone.bind fun _ _ => ih _

/-- A command on a key that the script can name is issued on a ready list. -/
theorem onKey_issues {key : Option Key} (hkey : ReadyKey K key) {x : Key → Script Unit}
    (h : ∀ queue, Issues A (x (K.namespaceQueue queue)) fun _ => True) :
    Issues A (onKey key x) fun _ => True := by
  cases key with
  | none => exact .fail _
  | some k =>
    obtain ⟨queue, rfl⟩ := hkey k rfl
    exact h queue

/-- A write that is committed issues commands of the storage only. -/
theorem commitWrite_issues (scheduled : Bool) {w : Write} (hw : Planned K ids w) :
    Issues (StorageCommand K (.enqueue ids)) (commitWrite K.jobs K.schedule K.retry scheduled w)
      fun _ => True := by
  have hplace : Issues (StorageCommand K (.enqueue ids)) (hset K.jobs w.id w.payload >>= fun _ =>
      if scheduled then zadd K.schedule w.score w.id
      else onKey w.newQueue fun k => lpush k w.id) fun _ => True := by
    refine (Issues.hset (.hset _ .jobs)).bind fun _ _ => ?_
    split
    · exact .zadd (.zadd _ _ .schedule)
    · exact onKey_issues hw.new fun queue => .lpush (.push queue hw.id)
  have hremove {key : Option Key} (hkey : ReadyKey K key) :
      Issues (StorageCommand K (.enqueue ids)) (onKey key fun k => lremAll k w.id) fun _ => True :=
    onKey_issues hkey fun queue => .lremAll (.remove (.ready queue) hw.id)
  rw [commitWrite]
  split
  · refine (Issues.zrem (.zrem _ .schedule)).bind fun _ _ =>
      (Issues.zrem (.zrem _ .retry)).bind fun _ _ =>
        (hremove hw.old).bind fun _ _ => ?_
    split
    · exact (hremove hw.new).bind fun _ _ => hplace
    · exact hplace
  · exact hplace

/-- The enqueue script issues commands of the storage only, for the jobs of its request. -/
theorem enqueueCall_issues (destination : JobDestination) (snapshots : Snapshots)
    (pending : List JobEnvelope) :
    Issues (StorageCommand K (.enqueue (pending.map (·.id))))
      (enqueueCall K destination snapshots pending) fun _ => True := by
  refine (demandType_issues _ _ _).bind fun types _ => ?_
  refine (checkSnapshots_issues (K := K) (fun a ha => ?_) fun _ => readyKey_none).bind
    fun found hfound => ?_
  · obtain ⟨⟨id, snapshot⟩, -, rfl⟩ := List.mem_map.mp ha
    cases snapshot with
    | none => exact readyKey_none
    | some s => exact readyKey_index _ s.queue
  split
  · exact .pure trivial
  · refine (planInputs_issues (fun a ha => ?_) hfound).bind fun plan hplan =>
      (preflight_issues _ _ _).bind fun _ _ =>
        (Issues.forEach fun w hw => commitWrite_issues _ (hplan w hw)).bind
          fun _ _ => .pure trivial
    obtain ⟨e, he, rfl⟩ := List.mem_map.mp ha
    exact ⟨List.mem_map_of_mem he, readyKey_index _ e.queue⟩

end Enqueue

end Scripts

end Oxana
