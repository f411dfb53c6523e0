import Oxana.AtMostOnce
import Oxana.FailedAttempts
import Oxana.Interleave.Beside
import Oxana.Loops

/-!
# Draining a queue

`drain` works through one queue, job by job, and returns what became of the jobs. It is a process of
its own: it registers under an id of its own and claims into a processing list of its own. Beside its
jobs a task that it has spawned sends its heartbeats; this task is cancelled and waited for before the
record is removed at the end. There are no retries: a job that fails is killed.

`drains_place_at_most_once`: drains may run beside everything else, any number of them, and every job
is still at most at one place.
-/

namespace Oxana

open Redis Interleave Call

variable {γ : Type}

/-! ## The program -/

/-- `ProcessJobResult`: what has become of a job that was drained. -/
inductive ProcessJobResult where
  | success
  | failed
  | missing
  deriving DecidableEq, Repr

/-- `DrainStats`: how many jobs a drain has claimed, and what has become of them. -/
structure DrainStats where
  /-- how many jobs it has claimed -/
  processed : ℕ := 0
  /-- how many of them succeeded -/
  succeeded : ℕ := 0
  /-- how many of them failed, and were killed -/
  failed : ℕ := 0
  /-- how many of them had no payload -/
  missing : ℕ := 0
  deriving DecidableEq, Repr

/-- The counters after one more job, which has ended with this result. -/
def DrainStats.count (stats : DrainStats) : ProcessJobResult → DrainStats
  | .success => { stats with succeeded := stats.succeeded + 1, processed := stats.processed + 1 }
  | .failed => { stats with failed := stats.failed + 1, processed := stats.processed + 1 }
  | .missing => { stats with missing := stats.missing + 1, processed := stats.processed + 1 }

/-- `for_new_process`: the handle of another process of the same storage. -/
def Handle.forNewProcess (H : Handle) (processId : String) : Handle := { H with processId }

section Program

variable (H : Handle)

/-- A job that does not resume forgets its state first. -/
def startOver (resumes : Bool) (e : JobEnvelope) : Call γ JobEnvelope :=
  if resumes then pure e
  else do
    updateJob H e.withoutState
    pure e.withoutState

/-- A job whose payload was found. It may turn out that it cannot be built; a handler that panics
takes the drain with it. -/
def processLoaded (id : JobId) (e : JobEnvelope) : Call γ ProcessJobResult :=
  ask fun c =>
    if c.invalid.isSome then fail .generic
    else do
      let e ← startOver H c.resumes e
      runProcess H [id] c.rounds
      match c.result with
      | .success => do
        finishWithSuccessBatch H [e]
        pure .success
      | .failed error => do
        kill H e error
        pure .failed
      | .panicked _ => hang

/-- `process_job`: a claimed job is loaded and executed, unless it cannot be found. -/
def processJob (id : JobId) : Call γ ProcessJobResult := do
  let found ← getJob H id
  match found with
  | none => pure .missing
  | some e => processLoaded H id e

/-- `drain_queue`: jobs are claimed and executed one after the other, until the queue is empty. -/
def drainQueue (queue : String) : Nat → DrainStats → Call γ DrainStats
  | 0, _ => hang
  | n + 1, stats => do
    let found ← dequeue H queue
    match found with
    | none => pure stats
    | some id => do
      let result ← processJob H id
      drainQueue queue n (stats.count result)

/-- `tokio::spawn` of a task, which is waited for in the end: what it returns is not looked at. -/
def Call.beside {α β : Type} (x : Call γ α) (task : Call γ β) : Call γ α :=
  Prog.beside (·.companion) x task

/-- `drain`, as a new process. The heartbeats go on beside `drain_queue`; whatever that has come to,
they are over when the record is removed. -/
def drain (processId record queue : String) : Call γ DrainStats := do
  ping (H.forNewProcess processId) record
  catching (Call.beside (ask fun c => drainQueue (H.forNewProcess processId) queue c.rounds {})
      (pingLoop (H.forNewProcess processId) record)) fun stats => do
    selfCleanup (H.forNewProcess processId)
    Prog.ret stats

end Program

/-! ## Tasks beside each other -/

section Beside

variable {α β : Type}

/-- What two tasks do at every step, they do at every step side by side. -/
theorem Call.Always.beside {E : Request → World γ → Prop}
    {G : Request → World γ → World γ → Prop} {Q : α → Prop} {Q' : β → Prop} {x : Call γ α}
    {task : Call γ β} (hx : Call.Always E G Q x) (htask : Call.Always E G Q' task) :
    Call.Always E G Q (Call.beside x task) :=
  Prog.Always.beside hx htask

/-- Two tasks that own nothing to begin with keep to the discipline side by side. -/
theorem Call.Keeps.beside {ο τ : Type} {D : Discipline ο (World γ) τ} {o : ο} {P : World γ → Prop}
    {x : Call γ α} {task : Call γ β}
    (hx : Call.Keeps D o P (fun _ _ => True) (fun _ => True) ∅ x)
    (htask : Call.Keeps D o P (fun _ _ => True) (fun _ => True) ∅ task) :
    Call.Keeps D o P (fun _ _ => True) (fun _ => True) ∅ (Call.beside x task) := by
  have hnone : ∀ t ∈ (∅ : Set τ), D.mine o t := fun _ h => absurd h (Set.notMem_empty _)
  have hboth : D.Safe o P (fun r T => ∃ T' ⊆ T, Call.Ends (fun _ _ => True) (fun _ => True) r T')
      (∅ ∪ ∅) (Call.beside x task) :=
    Discipline.Safe.beside hx htask (Set.disjoint_empty ∅) hnone hnone
  rw [Set.union_empty] at hboth
  refine Discipline.Safe.mono hboth fun r T' _ => ?_
  cases r with
  | ok a => trivial
  | error e => trivial

/-- A task may wait until its parent is done, and then return. -/
theorem Call.Returns.beside {x : Call γ α} {task : Call γ β} {a : α} {b : β}
    {tr tr' : List (Prog.Event Request (World γ))} (hx : Call.Returns x tr a)
    (htask : Call.Returns task tr' b) : Call.Returns (Call.beside x task) (tr ++ tr') a :=
  Prog.Trace.beside (i := fine) rfl hx htask

end Beside

/-! ## Drains beside others -/

section Works

variable {H : Handle} {U : Set JobId} {w : World Ledger} {id : JobId}

/-- A job that is started over, with its state or without, is written by the process that has
claimed it. -/
theorem startOver_works {e : JobEnvelope} {ids : List JobId} (hid : e.id ∈ ids)
    (hq : H.keys.Plain e.queue) (resumes : Bool) :
    Works H U (fun e' T => H.Holding ids T ∧ e'.id = e.id) (H.Holding ids) (H.claims ids)
      (startOver H resumes e) := by
  rw [startOver]
  split
  · exact .pure ⟨rfl, rfl⟩
  · refine (updateJob_works (e := e.withoutState) hid hq).bind ?_ fun _ h => h
    rintro _ _ rfl
    exact .pure ⟨rfl, rfl⟩

/-- A claimed job that has a payload is built, executed and finished by the process that has claimed
it. -/
theorem processJob_works (id : JobId) :
    Works H U (fun _ _ => True) (fun _ => True) (H.claims [id]) (processJob H id) := by
  refine (getJob_works List.mem_cons_self).bind ?_ fun _ _ => trivial
  rintro _ _ ⟨rfl, e, rfl, rfl, hq⟩
  refine .ask fun c => ?_
  split
  · exact .fail trivial _
  · refine (startOver_works List.mem_cons_self hq c.resumes).bind ?_ fun _ _ => trivial
    rintro e' _ ⟨rfl, hid⟩
    refine (runProcess_works (fun _ h => h) c.rounds).bind ?_ fun _ h => h
    rintro _ _ rfl
    rw [← hid]
    cases c.result with
    | success =>
      have hnodup : ([e'].map (·.id)).Nodup := List.nodup_singleton _
      exact (finishWithSuccessBatch_works hnodup).bind
        (fun _ _ _ => .pure trivial) fun _ h => h
    | failed error =>
      exact (kill_works (List.nodup_singleton _) error).bind (fun _ _ _ => .pure trivial)
        fun _ h => h
    | panicked _ => exact .hang

/-- The rounds of a drain keep to the discipline: each claims a job and finishes it. -/
theorem drainQueue_works {queue : String} (hq : H.keys.Plain queue) (n : Nat)
    (stats : DrainStats) :
    Works H U (fun _ _ => True) (fun _ => True) ∅ (drainQueue H queue n stats) := by
  induction n generalizing stats with
  | zero => exact .hang
  | succ n ih =>
    have hnone : (∅ : Set Custody) = H.claims [] := by
      ext t
      simp [Custody.claims]
    rw [hnone, drainQueue]
    refine (dequeue_works List.nodup_nil hq).bind ?_ fun _ h => h
    rintro found _ ⟨rfl, -⟩
    cases found with
    | none => exact .pure trivial
    | some id =>
      refine (processJob_works id).bind (fun result T _ => ?_) fun _ h => h
      exact (ih (stats.count result)).weaken (Set.empty_subset T)

/-- Writes to the records of processes are no writes to places of jobs. -/
theorem records_works {l : Request} {o : Option String} {P : World Ledger → Prop} {K : StorageKeys}
    {xs : List (Script Unit)}
    (hxs : ∀ x ∈ xs, ∃ kd k f, x = onKind kd k f ∧ Foreign K k ∧ ∀ s, ∃ v, (f s).2 = s.put k v) :
    Call.Keeps (custody K U) o P (fun _ _ => True) (fun _ => True) ∅
      (do let _ ← pipe l xs; pure ()) := by
  refine Keeps.bind (Q := fun _ _ => True) (R := fun _ => True) ?_ (fun _ _ _ => .pure trivial)
    fun _ h => h
  induction xs with
  | nil => exact .pipe_nil trivial
  | cons x xs ih =>
    obtain ⟨kd, k, f, rfl, hk, hf⟩ := hxs x List.mem_cons_self
    exact .pipe_cons fun w hinv _ _ => ⟨∅, Custody.trade_foreign hinv Custody.none_held hk (hf _),
      ih fun y hy => hxs y (List.mem_cons_of_mem _ hy)⟩

/-- A heartbeat keeps to the discipline; it owns nothing. -/
theorem ping_works {o : Option String} {P : World Ledger → Prop} (record : String) :
    Call.Keeps (custody H.keys U) o P (fun _ _ => True) (fun _ => True) ∅ (ping H record) := by
  refine Keeps.bind (R := fun _ => True) (.connection trivial) ?_ fun _ h => h
  rintro _ _ rfl
  refine Keeps.bind (R := fun _ => True) (.now Custody.none_mine) ?_ fun _ h => h
  rintro t _ rfl
  refine records_works fun x hx => ?_
  simp only [List.mem_cons, List.not_mem_nil, or_false] at hx
  rcases hx with rfl | rfl
  · exact ⟨_, _, _, rfl, foreign_processes, fun s => ⟨_, rfl⟩⟩
  · exact ⟨_, _, _, rfl, foreign_processesData, fun s => ⟨_, rfl⟩⟩

/-- The cleanup at the end keeps to the discipline; it owns nothing. -/
theorem selfCleanup_works {o : Option String} {P : World Ledger → Prop} :
    Call.Keeps (custody H.keys U) o P (fun _ _ => True) (fun _ => True) ∅ (selfCleanup H) := by
  refine Keeps.bind (R := fun _ => True) (.connection trivial) ?_ fun _ h => h
  rintro _ _ rfl
  refine records_works fun x hx => ?_
  simp only [unregister, List.mem_cons, List.not_mem_nil, or_false] at hx
  rcases hx with rfl | rfl
  · exact ⟨_, _, _, rfl, foreign_processes, fun s => ⟨_, rfl⟩⟩
  · exact ⟨_, _, _, rfl, foreign_processesData, fun s => ⟨_, rfl⟩⟩

/-- A loop that polls owns nothing between two of its rounds. -/
theorem pollRedis_works {K : StorageKeys} {α : Type} {operation : Call Ledger α}
    {o : Option String} {P : World Ledger → Prop}
    (h : Call.Keeps (custody K U) o P (fun _ _ => True) (fun _ => True) ∅ operation) (n : Nat) :
    Call.Keeps (custody K U) o P (fun _ _ => True) (fun _ => True) ∅ (pollRedis operation n) := by
  induction n with
  | zero => exact .hang
  | succ n ih =>
    refine .ask fun c => ?_
    split
    · exact .pure trivial
    · refine Keeps.bind (Q := fun _ _ => True) (R := fun _ => True) ?_
        (fun _ T _ => ih.weaken (Set.empty_subset T)) fun _ h => h
      refine h.catching (fun a T _ => .pure trivial) fun e T _ => .ask fun c => ?_
      split
      · exact .fail trivial _
      · exact .pure trivial

/-- **Drains keep to the discipline**: the rounds and the heartbeats beside them, and the cleanup
behind them. -/
theorem drain_works {processId queue : String} (hq : H.keys.Plain queue) (record : String) :
    Works (H.forNewProcess processId) U (fun _ _ => True) (fun _ => True) ∅
      (drain H processId record queue) := by
  refine (ping_works (H := H.forNewProcess processId) record).bind (fun _ T _ => ?_) fun _ h => h
  refine Keeps.weaken ?_ (Set.empty_subset T)
  have hqueue : Works (H.forNewProcess processId) U (fun _ _ => True) (fun _ => True) ∅
      (ask fun c => drainQueue (H.forNewProcess processId) queue c.rounds {}) :=
    .ask fun c => drainQueue_works (H := H.forNewProcess processId) hq c.rounds {}
  have hpings : Works (H.forNewProcess processId) U (fun _ _ => True) (fun _ => True) ∅
      (pingLoop (H.forNewProcess processId) record) :=
    .ask fun c => pollRedis_works (ping_works record) c.rounds
  have hrun := hqueue.beside hpings
  -- whatever it has come to, the record is removed
  have hcleanup (stats : Except OxanaError DrainStats) (T : Set Custody) :
      Works (H.forNewProcess processId) U (fun _ _ => True) (fun _ => True) T
        (do selfCleanup (H.forNewProcess processId); Prog.ret stats) := by
    refine Keeps.weaken ?_ (Set.empty_subset T)
    refine (selfCleanup_works (H := H.forNewProcess processId)).bind (fun _ T _ => ?_) fun _ h => h
    cases stats with
    | ok stats => exact .pure trivial
    | error e => exact .fail trivial e
  exact hrun.catching (fun stats T _ => hcleanup (.ok stats) T) fun e T _ => hcleanup (.error e) T

end Works

/-! ## The system with drains -/

section System

variable {K : StorageKeys} {U : Set JobId}

/-- The clients of `Starts`, and beside them drains, each as a process of its own that runs, and the
heartbeat, schedule and retry loops of any process. -/
inductive StartsOrDrains (K : StorageKeys) (U : Set JobId) :
    World Ledger → Option String → Prog Request (World Ledger) Choice Unit → World Ledger → Prop
  | starts {w w' : World Ledger} {o : Option String}
      {p : Prog Request (World Ledger) Choice Unit} :
      Starts K U w o p w' → StartsOrDrains K U w o p w'
  /-- `drain`, as a process that runs -/
  | drain {w : World Ledger} {H : Handle} {processId record queue : String} : H.keys = K →
      processId ∉ w.ghost.ended → K.Plain queue →
      StartsOrDrains K U w (some processId) (Call.client (drain H processId record queue)) w
  /-- `ping_loop` -/
  | pings {w : World Ledger} {H : Handle} {record : String} : H.keys = K →
      StartsOrDrains K U w none (Call.client (pingLoop H record)) w
  /-- `schedule_loop` -/
  | schedules {w : World Ledger} : StartsOrDrains K U w none (Call.client (scheduleLoop K)) w
  /-- `retry_loop` -/
  | retries {w : World Ledger} : StartsOrDrains K U w none (Call.client (retryLoop K)) w

/-- A loop that keeps to the discipline without tokens may be started at any time. -/
theorem loop_launched {α : Type} {operation : Call Ledger α} {w : World Ledger}
    (hinv : PlacementInv K U w) (h : Call.Keeps (custody K U) none (fun _ => True)
      (fun _ _ => True) (fun _ => True) ∅ operation) :
    ∃ T, (custody K U).Trades none ∅ T w w ∧ ∃ P, (custody K U).Stable none P ∧ P w ∧
      (custody K U).Safe none P (fun _ _ => True) T
        (Call.client (ask fun c => pollRedis operation c.rounds)) := by
  refine ⟨∅, .refl hinv (fun _ h => absurd h (Set.notMem_empty _)) Custody.none_mine, fun _ => True,
    fun _ _ _ _ => trivial, trivial, Keeps.client (Q := fun _ _ => True) (R := fun _ => True) ?_⟩
  exact .ask fun c => pollRedis_works h c.rounds

/-- Every client that may be started keeps to the custody of ids, drains included. -/
theorem startsOrDrains_ok : (custody K U).LaunchOk (StartsOrDrains K U) := by
  intro w o p w' hinv hstart
  have hstay : ∀ o, (custody K U).Trades o ∅ ∅ w w := fun o =>
    .refl hinv (fun _ h => absurd h (Set.notMem_empty _)) Custody.none_mine
  cases hstart with
  | starts h => exact starts_ok w o p w' hinv h
  | @drain H processId record queue hK hlive hq =>
    subst hK
    have hworks : Works (H.forNewProcess processId) U (fun _ _ => True) (fun _ => True) ∅
        (drain H processId record queue) := drain_works hq record
    refine ⟨∅, hstay _, Handle.Live (H.forNewProcess processId), ?_, hlive, hworks.client⟩
    exact fun s s' hmoves h => hmoves.2 processId rfl h
  | @pings H record hK =>
    subst hK
    exact loop_launched hinv (ping_works record)
  | schedules =>
    exact loop_launched hinv ((enqueueScheduled_sweeps (l := .schedule) (.inl rfl)).mono
      (fun _ _ _ => trivial) fun _ _ => trivial)
  | retries =>
    exact loop_launched hinv ((enqueueScheduled_sweeps (l := .retry) (.inr rfl)).mono
      (fun _ _ _ => trivial) fun _ _ => trivial)

/-- **Drains beside everything else**: in every reachable state, whatever the interleaving, every id
is at most once on the ready lists, the processing lists, in the schedule and in the retry set, and
if it is there, its envelope is stored. -/
theorem drains_place_at_most_once {t : Int}
    {c : Pool (Option String) Request (World Ledger) Choice}
    (h : Pool.Reachable (StartsOrDrains K U) Surrounds (World.initial t) c) (id : JobId) :
    (∀ S : Finset Loc, ∑ l ∈ S, occ K c.world.store id l ≤ 1) ∧
      ∀ l, occ K c.world.store id l ≠ 0 →
        ∃ p e, payloadOf K.jobs c.world.store id = some p ∧ JobEnvelope.decode p = some e ∧
          e.id = id := by
  have hinv : PlacementInv K U c.world :=
    Discipline.reachable_inv startsOrDrains_ok surrounds_ok (initial_inv t) h
  refine ⟨(hinv.jobs id).once, fun l hl => ?_⟩
  obtain ⟨p, hv, e, hdec, hid, -⟩ := hinv.at_place hl
  exact ⟨p, e, congrArg JobView.payload hv, hdec, hid⟩

/-! ### Two jobs that are drained -/

/-- The job `mail` again, under another id. -/
def secondMail : JobEnvelope := { mail with id := "b" }

/-- The world in which both of these jobs wait. -/
def mailsWait : World Ledger :=
  ((mailed.issue [secondMail]).after
    (hset (StorageKeys.new "").jobs secondMail.id secondMail.encode)).after
      (lpush ((StorageKeys.new "").namespaceQueue secondMail.queue) secondMail.id)

/-- The world with the two messages is reachable: producers have enqueued them. -/
theorem mailsWait_reachable : ∃ c : Pool (Option String) Request (World Ledger) Choice,
    Pool.Reachable (StartsOrDrains (.new "") ∅) Surrounds (World.initial 0) c ∧
      c.world = mailsWait := by
  obtain ⟨c, hc, hw⟩ := mailed_reachable
  have hstart : StartsOrDrains (.new "") ∅ c.world none
      (Call.client (enqueue (.new "") secondMail)) (c.world.issue [secondMail]) := by
    rw [hw]
    refine .starts (.enqueue ⟨fun e he => ?_, by decide, fun id hid hissued => ?_⟩)
    · rw [List.mem_singleton.mp he]
      exact ⟨by decide, fun _ h => h, fun h => absurd h (by decide), fun h => absurd h (by decide)⟩
    · obtain rfl : id = "b" := by simpa [ordinaryIds, secondMail, mail, JobEnvelope.new] using hid
      rcases hissued with h | h
      · exact h
      · exact absurd h (by decide)
  have hpipe : Call.Returns (pipe .hset ([secondMail].flatMap (ordinaryWrites (.new "") .queue)))
      [⟨.hset, mailed.issue [secondMail], _⟩, ⟨.hset, _, mailsWait⟩] [(), ()] :=
    .pipe_cons _ (ok_of_toOption (by decide +kernel))
      (.pipe_cons _ (ok_of_toOption (by decide +kernel)) .pipe_nil)
  have hchunk : Call.Returns (enqueueChunk (.new "") [secondMail] .queue []) _ [] :=
    hpipe.bind (.pure _)
  have hcall : Call.Returns (enqueue (.new "") secondMail) _ secondMail.id :=
    Call.Returns.connection.bind (hchunk.bind (.pure _))
  obtain ⟨threads, hended⟩ := (hc.mono fun _ _ _ _ h => StartsOrDrains.starts h).client hstart
    (Prog.Trace.bind hcall (.refl _)) (by rw [hw]; exact ⟨rfl, rfl, rfl⟩)
  exact ⟨_, hended, rfl⟩

/-- The handle of a process that may drain. -/
def draining : Handle := ⟨.new "", "p", none⟩

/-- The process of its own that a drain of it is. -/
def drainer : Handle := draining.forNewProcess "d"

/-- The world after a heartbeat of the drain. -/
def beaten (w : World Ledger) : World Ledger :=
  (w.after (zadd drainer.keys.processes (millis 0) drainer.processId)).after
    (hset drainer.keys.processesData drainer.processId "")

/-- The world after the drain has claimed the last job of its queue, if there is one. -/
def drainClaimed (w : World Ledger) : World Ledger :=
  w.after (lmove (drainer.keys.namespaceQueue "mail") drainer.currentProcessingQueue)

/-- The world after the first job, which has succeeded. -/
def drainSucceeded : World Ledger :=
  (drainClaimed (beaten mailsWait)).after
    (finishSuccess drainer.keys.jobs drainer.currentProcessingQueue ["a"])

/-- The second job as it is put on the dead list. -/
def deadMail : JobEnvelope := secondMail.normalize.withError "refused"

/-- The world after the second job, which has failed. -/
def drainFailed : World Ledger :=
  (drainClaimed drainSucceeded).after
    (finishDead drainer.keys.jobs drainer.keys.dead drainer.currentProcessingQueue deadMail.id
      deadMail.encode 0)

/-- The world after the drain: it has claimed once more, in vain, a last heartbeat has come, and its
record has been removed. -/
def drainClosed : World Ledger :=
  ((beaten (drainClaimed drainFailed)).after
    (zrem drainer.keys.processes drainer.processId)).after
      (hdel drainer.keys.processesData [drainer.processId])

/-- What the drain is told at its requests about the two jobs, in their order. -/
theorem drain_replies :
    (lmove (drainer.keys.namespaceQueue "mail") drainer.currentProcessingQueue
        (beaten mailsWait).store).1.toOption = some (some "a") ∧
      (hget drainer.keys.jobs "a" (drainClaimed (beaten mailsWait)).store).1.toOption =
        some (some mail.encode) ∧
      (finishSuccess drainer.keys.jobs drainer.currentProcessingQueue ["a"]
        (drainClaimed (beaten mailsWait)).store).1.toOption = some () ∧
      (lmove (drainer.keys.namespaceQueue "mail") drainer.currentProcessingQueue
        drainSucceeded.store).1.toOption = some (some "b") ∧
      (hget drainer.keys.jobs "b" (drainClaimed drainSucceeded).store).1.toOption =
        some (some secondMail.encode) ∧
      (finishDead drainer.keys.jobs drainer.keys.dead drainer.currentProcessingQueue deadMail.id
        deadMail.encode 0 (drainClaimed drainSucceeded).store).1.toOption = some () ∧
      (lmove (drainer.keys.namespaceQueue "mail") drainer.currentProcessingQueue
        drainFailed.store).1.toOption = some none := by decide +kernel

/-- The record of the drain can be written before the jobs and after them, and it can be removed. -/
theorem drain_records :
    (∀ w ∈ [mailsWait, drainClaimed drainFailed],
      (zadd drainer.keys.processes (millis 0) drainer.processId w.store).1.toOption = some () ∧
        (hset drainer.keys.processesData drainer.processId ""
          (w.after (zadd drainer.keys.processes (millis 0) drainer.processId)).store).1.toOption =
          some ()) ∧
      (zrem drainer.keys.processes drainer.processId
        (beaten (drainClaimed drainFailed)).store).1.toOption = some () ∧
      (hdel drainer.keys.processesData [drainer.processId]
        ((beaten (drainClaimed drainFailed)).after
          (zrem drainer.keys.processes drainer.processId)).store).1.toOption = some () := by
  decide +kernel

/-- A heartbeat lands when the keys of the records have their types. -/
theorem ping_returns (w : World Ledger) (hclock : w.clock = 0)
    (h : (zadd drainer.keys.processes (millis 0) drainer.processId w.store).1.toOption = some () ∧
      (hset drainer.keys.processesData drainer.processId ""
        (w.after (zadd drainer.keys.processes (millis 0) drainer.processId)).store).1.toOption =
        some ()) :
    Call.Returns (ping drainer "") [⟨.now, w, w⟩,
      ⟨.ping, w, w.after (zadd drainer.keys.processes (millis 0) drainer.processId)⟩,
      ⟨.ping, w.after (zadd drainer.keys.processes (millis 0) drainer.processId), beaten w⟩] () := by
  have hnow : Call.Returns (now : Call Ledger Int) [⟨.now, w, w⟩] 0 := by
    have h := Call.Returns.now w
    rwa [hclock] at h
  exact Call.Returns.connection.bind (hnow.bind (Call.Returns.bind
    (.pipe_cons _ (ok_of_toOption h.1) (.pipe_cons _ (ok_of_toOption h.2) .pipe_nil)) (.pure ())))

/-- A payload that is stored is found, and decodes to the envelope it was stored for. -/
theorem getJob_returns {H : Handle} {e : JobEnvelope} {id : JobId} (w : World γ)
    (hstored : (hget H.keys.jobs id w.store).1 = .ok (some e.encode)) :
    Call.Returns (getJob H id) [⟨.hget, w, w⟩] (some e.normalize) := by
  have hread : w.after (hget H.keys.jobs id) = w := World.after_read (hget_snd ..)
  have hget : Call.Returns (send .hget (hget H.keys.jobs id)) [⟨.hget, w, w⟩] (some e.encode) := by
    have hsend := Call.Returns.send (l := .hget) w hstored
    rwa [hread] at hsend
  have hsnap : Call.Returns (transitionSnapshot H.keys id) [⟨.hget, w, w⟩]
      (some (e.encode, e.normalize)) :=
    hget.bind ((Call.Returns.decoded (decode_encode e)).bind (.pure _))
  have hon : Call.Returns (getJobOn H id) [⟨.hget, w, w⟩] (some e.normalize) :=
    hsnap.bind (.pure _)
  exact Call.Returns.connection.bind hon

/-- A claimed job that succeeds is acknowledged: the drain counts it as such. -/
theorem processJob_succeeds {H : Handle} {e : JobEnvelope} {id : JobId} (w : World γ)
    (hid : e.normalize.id = id) (hstored : (hget H.keys.jobs id w.store).1 = .ok (some e.encode))
    (hfinish : (finishSuccess H.keys.jobs H.currentProcessingQueue [id] w.store).1 = .ok ()) :
    Call.Returns (processJob H id) [⟨.hget, w, w⟩, ⟨.finishSuccess [id], w,
      w.after (finishSuccess H.keys.jobs H.currentProcessingQueue [id])⟩] .success := by
  subst hid
  have hacked : Call.Returns (finishWithSuccessBatch H [e.normalize]) [⟨.finishSuccess [e.normalize.id],
      w, w.after (finishSuccess H.keys.jobs H.currentProcessingQueue [e.normalize.id])⟩] () :=
    Call.Returns.connection.bind (.send w hfinish)
  have hloaded : Call.Returns (processLoaded H e.normalize.id e.normalize) _ .success :=
    .ask fine (Call.Returns.bind (.pure _)
      (Call.Returns.bind (.ask fine (.pure ())) (hacked.bind (.pure _))))
  exact (getJob_returns w hstored).bind hloaded

/-- A claimed job that fails is killed: the drain counts it as such, and the job is on the dead
list. -/
theorem processJob_fails {H : Handle} {e : JobEnvelope} {id : JobId} {error : String} (w : World γ)
    (hid : e.normalize.id = id) (hstored : (hget H.keys.jobs id w.store).1 = .ok (some e.encode))
    (hkill : (finishDead H.keys.jobs H.keys.dead H.currentProcessingQueue id
      (e.normalize.withError error).encode (H.deadJobLimit.getD 0) w.store).1 = .ok ()) :
    Call.Returns (processJob H id) [⟨.hget, w, w⟩, ⟨.finishDead id, w,
      w.after (finishDead H.keys.jobs H.keys.dead H.currentProcessingQueue id
        (e.normalize.withError error).encode (H.deadJobLimit.getD 0))⟩] .failed := by
  subst hid
  have hkilled : Call.Returns (kill H e.normalize error) [⟨.finishDead e.normalize.id, w,
      w.after (finishDead H.keys.jobs H.keys.dead H.currentProcessingQueue e.normalize.id
        (e.normalize.withError error).encode (H.deadJobLimit.getD 0))⟩] () :=
    Call.Returns.connection.bind (.send w hkill)
  have hloaded : Call.Returns (processLoaded H e.normalize.id e.normalize) _ .failed :=
    .ask { result := .failed error } (Call.Returns.bind (.pure _)
      (Call.Returns.bind (.ask fine (.pure ())) (hkilled.bind (.pure _))))
  exact (getJob_returns w hstored).bind hloaded

/-- A drain of the two jobs, of which the second one fails. When the queue is empty a heartbeat comes,
before the loop is cancelled. -/
theorem mail_drains : ∃ tr, Call.Returns (drain draining "d" "" "mail") tr ⟨2, 1, 1, 0⟩ ∧
    Prog.Chained mailsWait tr drainClosed := by
  have hclaim {w : World Ledger} {found : Option JobId}
      (h : (lmove (drainer.keys.namespaceQueue "mail") drainer.currentProcessingQueue w.store).1 =
        .ok found) : Call.Returns (dequeue drainer "mail") [⟨.lmove, w, drainClaimed w⟩] found :=
    Call.Returns.connection.bind (.send w h)
  obtain ⟨hclaim₁, hload₁, hfinish, hclaim₂, hload₂, hkill, hclaim₃⟩ := drain_replies
  obtain ⟨hbeats, hzrem, hhdel⟩ := drain_records
  have hfirst : Call.Returns (processJob drainer "a")
      [_, ⟨.finishSuccess ["a"], drainClaimed (beaten mailsWait), drainSucceeded⟩] .success :=
    processJob_succeeds (e := mail) _ rfl (ok_of_toOption hload₁) (ok_of_toOption hfinish)
  have hsecond : Call.Returns (processJob drainer "b")
      [_, ⟨.finishDead "b", drainClaimed drainSucceeded, drainFailed⟩] .failed :=
    processJob_fails (e := secondMail) _ rfl (ok_of_toOption hload₂) (ok_of_toOption hkill)
  have hqueue : Call.Returns (drainQueue drainer "mail" 3 {}) _ ⟨2, 1, 1, 0⟩ :=
    (hclaim (ok_of_toOption hclaim₁)).bind (hfirst.bind
      ((hclaim (ok_of_toOption hclaim₂)).bind (hsecond.bind
        ((hclaim (ok_of_toOption hclaim₃)).bind (.pure _)))))
  have hregister := ping_returns mailsWait rfl (hbeats _ List.mem_cons_self)
  have hbeat := ping_returns (drainClaimed drainFailed) rfl
    (hbeats _ (List.mem_cons_of_mem _ List.mem_cons_self))
  have hpings : Call.Returns (pingLoop drainer "") _ () :=
    .ask { rounds := 2 } (.ask { done := false } (Call.Returns.bind
      (Call.Returns.catching hbeat (.pure _)) (.ask fine (.pure ()))))
  have hloop : Call.Returns (ask fun c => drainQueue drainer "mail" c.rounds {}) _ ⟨2, 1, 1, 0⟩ :=
    .ask { rounds := 3 } hqueue
  have hbeside := hloop.beside hpings
  have hleave : Call.Returns (selfCleanup drainer)
      [⟨.unregister, beaten (drainClaimed drainFailed), _⟩, ⟨.unregister, _, drainClosed⟩] () :=
    Call.Returns.connection.bind (Call.Returns.bind
      (.pipe_cons _ (ok_of_toOption hzrem) (.pipe_cons _ (ok_of_toOption hhdel) .pipe_nil))
      (.pure ()))
  exact ⟨_, hregister.bind (Call.Returns.catching hbeside (hleave.bind (.pure _))),
    rfl, rfl, rfl, rfl, rfl, rfl, rfl, rfl, rfl, rfl, rfl, rfl, rfl, rfl, rfl, rfl⟩

/-- The two jobs have been drained in the system, in which other clients could have moved them, and
`a` is at one place at most. -/
theorem mail_drained_once : ∃ c : Pool (Option String) Request (World Ledger) Choice,
    c.world = drainClosed ∧ (∀ S : Finset Loc, ∑ l ∈ S, occ (.new "") c.world.store "a" l ≤ 1) ∧
      ∀ l, occ (.new "") c.world.store "a" l ≠ 0 →
        ∃ p e, payloadOf (StorageKeys.new "").jobs c.world.store "a" = some p ∧
          JobEnvelope.decode p = some e ∧ e.id = "a" := by
  obtain ⟨c, hc, hw⟩ := mailsWait_reachable
  obtain ⟨tr, hdrain, hch⟩ := mail_drains
  have hstart : StartsOrDrains (.new "") ∅ c.world (some "d")
      (Call.client (drain draining "d" "" "mail")) c.world := by
    rw [hw]
    exact .drain rfl (fun h => h) (by decide)
  obtain ⟨threads, hended⟩ := hc.client hstart
    (Prog.Trace.bind hdrain (.refl _)) (by rw [List.append_nil, hw]; exact hch)
  exact ⟨_, rfl, drains_place_at_most_once hended "a"⟩

end System

end Oxana
