import Oxana.Interleave.Crash
import Oxana.JobMoves

/-!
# No job gets lost

Drains and loops move jobs no differently from workers and sweeps, so in the
whole system jobs only go the ways of `Moves` (`job_moves`).

A run is a sequence of such steps. A job that is somewhere at first and nowhere
at last has left with one of them, and there are only three to leave by
(`job_leaves_when_done`): the process that had claimed it was through with it,
or gave it up, or had ended before and the job was not to be resurrected. A job
that waits, to be claimed, for its time or for its next attempt, never leaves
from there.
-/

namespace Oxana

open Redis Script Interleave Call

variable {K : StorageKeys} {U : Set JobId} {P : World Ledger → Prop} {H : Handle}

/-! ## Drains and loops -/

/-- The heartbeat of a process moves no job. -/
theorem ping_ways (record : String) : Ways H.keys U P (ping H record) := by
  refine Always.connection.bind fun _ _ => ?_
  refine now_ways.bind fun t _ => ?_
  refine Always.bind (Q := fun _ => True) (foreign_ways fun x hx => ?_) fun _ _ => .pure trivial
  simp only [List.mem_cons, List.not_mem_nil, or_false] at hx
  rcases hx with rfl | rfl
  · exact ⟨_, _, _, rfl, foreign_processes, fun s => ⟨_, rfl⟩⟩
  · exact ⟨_, _, _, rfl, foreign_processesData, fun s => ⟨_, rfl⟩⟩

/-- Removing the own record of a process moves no job. -/
theorem selfCleanup_ways : Ways H.keys U P (selfCleanup H) := by
  refine Always.connection.bind fun _ _ => ?_
  exact (unregister_ways H.processId).bind fun _ _ => .pure trivial

/-- Starting a job over again updates its payload and moves no job. -/
theorem startOver_ways (resumes : Bool) (e : JobEnvelope) :
    Ways H.keys U P (startOver H resumes e) := by
  simp only [startOver]
  split
  · exact .pure trivial
  · exact (updateJob_ways e.withoutState).bind fun _ _ => .pure trivial

/-- A process that carries out one claimed job moves that job only, and only in the ways of the
requests that it makes. -/
theorem processJob_ways (id : JobId) : Ways H.keys U H.Live (processJob H id) := by
  refine (getJob_ways id).bind fun found _ => ?_
  cases found with
  | none => exact .pure trivial
  | some e =>
    refine .ask fun c => ?_
    split
    · exact .fail _
    · refine (startOver_ways c.resumes e).bind fun e' _ => ?_
      refine (runProcess_ways [id] c.rounds).bind fun _ _ => ?_
      cases c.result with
      | success => exact (finishWithSuccessBatch_ways [e']).bind fun _ _ => .pure trivial
      | failed error => exact (kill_ways e' error).bind fun _ _ => .pure trivial
      | panicked _ => exact .hang

/-- All the jobs that a drain carries out go the ways of the requests it makes for them. -/
theorem drainQueue_ways {queue : String} (hq : H.keys.Plain queue) (n : Nat) (stats : DrainStats) :
    Ways H.keys U H.Live (drainQueue H queue n stats) := by
  induction n generalizing stats with
  | zero => exact .hang
  | succ n ih =>
    refine (dequeue_ways hq).bind fun found _ => ?_
    cases found with
    | none => exact .pure trivial
    | some id => exact (processJob_ways id).bind fun result _ => ih (stats.count result)

/-- A drain as a whole, with its heartbeat and its removal at the end, moves jobs in the ways of its
requests only. -/
theorem drain_ways {processId queue : String} (hq : H.keys.Plain queue) (record : String) :
    Ways H.keys U (Handle.Live (H.forNewProcess processId)) (drain H processId record queue) := by
  refine (ping_ways (H := H.forNewProcess processId) record).bind fun _ _ => ?_
  have hqueue : Ways H.keys U (Handle.Live (H.forNewProcess processId))
      (ask fun c => drainQueue (H.forNewProcess processId) queue c.rounds {}) :=
    .ask fun c => drainQueue_ways (H := H.forNewProcess processId) hq c.rounds {}
  have hpings : Ways H.keys U (Handle.Live (H.forNewProcess processId))
      (pingLoop (H.forNewProcess processId) record) :=
    .ask fun c => pollRedis_always (ping_ways (H := H.forNewProcess processId) record) c.rounds
  refine (hqueue.beside hpings).catching (fun stats _ => ?_) fun e => ?_
  · exact (selfCleanup_ways (H := H.forNewProcess processId)).bind fun _ _ => .pure trivial
  · exact (selfCleanup_ways (H := H.forNewProcess processId)).bind fun _ _ => .fail e

/-! ## The system -/

section System

variable {w w' : World Ledger} {o : Option String}
  {p : Prog Request (World Ledger) Choice Unit}
  {c c' : Pool (Option String) Request (World Ledger) Choice} {t : Int} {id : JobId}

/-- Everything that clients start, before drains are added, moves jobs in the ways of its requests
only. -/
theorem starts_in : (custody K U).LaunchIn (Moving K) (Starts K U) := by
  intro w o p w' hinv hstart
  have hstable : ∀ o, (custody K U).Stable o fun _ => True := fun _ _ _ _ _ => trivial
  have hstay : ∀ o, (custody K U).Trades o ∅ ∅ w w := fun o =>
    .refl hinv (fun _ h => absurd h (Set.notMem_empty _)) Custody.none_mine
  cases hstart with
  | @enqueue e hes =>
    have he := hes.each e (List.mem_singleton_self e)
    exact ⟨_, issue_trades hinv hes, _, hstable _, trivial,
      ((enqueueOne_produces he .queue).within (enqueueOne_ways he)).client⟩
  | @enqueueAt e hes =>
    have he := hes.each e (List.mem_singleton_self e)
    exact ⟨_, issue_trades hinv hes, _, hstable _, trivial,
      ((enqueueAt_produces he).within (enqueueAt_ways he)).client⟩
  | enqueueList hes =>
    exact ⟨_, issue_trades hinv hes, _, hstable _, trivial,
      ((enqueueList_produces hes.each hes.nodup).within (enqueueList_ways hes.each)).client⟩
  | @worker processId deadJobLimit queues hlive hq =>
    refine ⟨∅, hstay _, Handle.Live ⟨K, processId, deadJobLimit⟩, ?_, hlive,
      (worker_worksIn (H := ⟨K, processId, deadJobLimit⟩) hq).client⟩
    exact fun s s' hmoves h => hmoves.2 processId rfl h
  | enqueueScheduled hl =>
    exact ⟨∅, hstay _, _, hstable _, trivial,
      ((enqueueScheduled_sweeps hl).within (enqueueScheduled_ways hl)).client⟩
  | retryAllNow =>
    exact ⟨∅, hstay _, _, hstable _, trivial, (retryAllNow_sweeps.within retryAllNow_ways).client⟩
  | @resurrect processId hended =>
    refine ⟨∅, hstay _, Ended processId, ?_, hended,
      ((resurrectProcess_sweeps processId).within (resurrectProcess_ways processId)).client⟩
    exact fun s s' hmoves h => hmoves.1 h

/-- A loop that repeats an operation moves jobs in the ways of that operation, however often it goes
round. -/
theorem loop_launchedIn {α : Type} {operation : Call Ledger α} (hinv : PlacementInv K U w)
    (h : Call.Keeps (custody K U) none (fun _ => True) (fun _ _ => True) (fun _ => True) ∅
      operation)
    (hways : Ways K U (fun _ => True) operation) :
    ∃ T, (custody K U).Trades none ∅ T w w ∧ ∃ P, (custody K U).Stable none P ∧ P w ∧
      (custody K U).SafeIn (Moving K) none P (fun _ _ => True) T
        (Call.client (ask fun c => pollRedis operation c.rounds)) := by
  have hloop : Call.Keeps (custody K U) none (fun _ => True) (fun _ _ => True) (fun _ => True) ∅
      (ask fun c => pollRedis operation c.rounds) := .ask fun c => pollRedis_works h c.rounds
  have hsteps : Ways K U (fun _ => True) (ask fun c => pollRedis operation c.rounds) :=
    .ask fun c => pollRedis_always hways c.rounds
  exact ⟨∅, .refl hinv (fun _ h => absurd h (Set.notMem_empty _)) Custody.none_mine, fun _ => True,
    fun _ _ _ _ => trivial, trivial, (hloop.within hsteps).client⟩

/-- Everybody moves jobs along: producers, promotions, recoveries, workers, the cron loops and
drains do so in the ways of their requests only. -/
theorem startsOrDrains_in : (custody K U).LaunchIn (Moving K) (StartsOrDrains K U) := by
  intro w o p w' hinv hstart
  have hsweep {l : Loc} (hl : l.Delayed) : Call.Keeps (custody K U) none (fun _ => True)
      (fun _ _ => True) (fun _ => True) ∅ (enqueueScheduled K (l.key K)) :=
    (enqueueScheduled_sweeps hl).mono (fun _ _ _ => trivial) fun _ _ => trivial
  cases hstart with
  | starts h => exact starts_in w o p w' hinv h
  | @drain H processId record queue hK hlive hq =>
    subst hK
    have hworks : Works (H.forNewProcess processId) U (fun _ _ => True) (fun _ => True) ∅
        (drain H processId record queue) := drain_works hq record
    refine ⟨∅, .refl hinv (fun _ h => absurd h (Set.notMem_empty _)) Custody.none_mine,
      Handle.Live (H.forNewProcess processId), ?_, hlive,
      (hworks.within (drain_ways hq record)).client⟩
    exact fun s s' hmoves h => hmoves.2 processId rfl h
  | @pings H record hK =>
    subst hK
    exact loop_launchedIn hinv (ping_works record) (ping_ways record)
  | schedules =>
    exact loop_launchedIn hinv (hsweep (l := .schedule) (.inl rfl))
      (@enqueueScheduled_ways _ _ _ .schedule (.inl rfl))
  | retries =>
    exact loop_launchedIn hinv (hsweep (l := .retry) (.inr rfl))
      (@enqueueScheduled_ways _ _ _ .retry (.inr rfl))

/-- Launching a client writes nothing to the store. -/
theorem StartsOrDrains.store_eq (h : StartsOrDrains K U w o p w') : w'.store = w.store := by
  cases h with
  | starts h => cases h <;> rfl
  | drain => rfl
  | pings => rfl
  | schedules => rfl
  | retries => rfl

/-- The surroundings, which are the clock and the ends of processes, write nothing to the store. -/
theorem Surrounds.store_eq (h : Surrounds c w) : w.store = c.world.store := by
  cases h <;> rfl

/-- In every reachable state each job has at most one place, drains included. -/
theorem startsOrDrains_inv
    (h : Pool.Reachable (StartsOrDrains K U) Surrounds (World.initial t) c) :
    PlacementInv K U c.world :=
  Discipline.reachable_inv startsOrDrains_in.ok surrounds_ok (initial_inv t) h

/-- When a client takes a step, every job goes one of the ways of the request that the client makes
with this very step. -/
theorem moving_of_step (h : Pool.Reachable (StartsOrDrains K U) Surrounds (World.initial t) c)
    {ev : Prog.Event Request (World Ledger)}
    (hmove : Pool.Move (StartsOrDrains K U) Surrounds c (some ev) c') :
    Moving K ev.label c.world c'.world := by
  have hstep := Discipline.steps_in startsOrDrains_in surrounds_ok (initial_inv t) h hmove
  obtain ⟨hpre, hpost⟩ := hmove.worlds
  rwa [hpre, hpost] at hstep

/-- When no client takes a step, no job is moved, and its payload is what it was. -/
theorem still_of_quiet (hmove : Pool.Move (StartsOrDrains K U) Surrounds c none c') (id : JobId) :
    occ K c'.world.store id = occ K c.world.store id := by
  have hstore : c'.world.store = c.world.store := by
    rcases hmove.quiet with hsame | ⟨o, p, hl⟩ | henv
    · exact congrArg World.store hsame
    · exact hl.store_eq
    · exact henv.store_eq
  rw [hstore]

/-- **Every step moves jobs along**: from every reachable state, whoever moves and whatever the others
are about to do, every job goes one of the ways that `Moves` has for the request of the step. When a
client is started or stopped, is told something, or the surroundings change, no job is moved. -/
theorem job_moves (h : Pool.Reachable (StartsOrDrains K U) Surrounds (World.initial t) c)
    {e : Option (Prog.Event Request (World Ledger))}
    (hmove : Pool.Move (StartsOrDrains K U) Surrounds c e c') :
    (∀ ev, e = some ev → Moving K ev.label c.world c'.world) ∧
      (e = none → ∀ id, occ K c'.world.store id = occ K c.world.store id) := by
  refine ⟨?_, ?_⟩
  · rintro ev rfl
    exact moving_of_step h hmove
  · rintro rfl
    exact still_of_quiet hmove

/-- `mail` waits; a drain comes, and then it is nowhere. -/
theorem mail_runs : ∃ c c' : Pool (Option String) Request (World Ledger) Choice,
    Pool.Reachable (StartsOrDrains (.new "") ∅) Surrounds (World.initial 0) c ∧
      Relation.ReflTransGen (Pool.Step (StartsOrDrains (.new "") ∅) Surrounds) c c' ∧
      occ (.new "") c.world.store "a" (.ready "mail") ≠ 0 ∧
      ∀ l, occ (.new "") c'.world.store "a" l = 0 := by
  obtain ⟨c, hc, hw⟩ := mailsWait_reachable
  obtain ⟨tr, hdrain, hch⟩ := mail_drains
  have hstart : StartsOrDrains (.new "") ∅ c.world (some "d")
      (Call.client (drain draining "d" "" "mail")) c.world := by
    rw [hw]
    exact .drain rfl (fun h => h) (by decide)
  have hch' : Prog.Chained c.world (tr ++ []) drainClosed := by rwa [hw, List.append_nil]
  obtain ⟨threads, hrun⟩ := Pool.client_runs hstart (Prog.Trace.bind hdrain (.refl _)) hch'
  refine ⟨c, _, hc, hrun, ?_, (startsOrDrains_inv (hc.run hrun)).gone ?_⟩
  · rw [hw]
    decide +kernel
  · show payloadOf (StorageKeys.new "").jobs drainClosed.store "a" = none
    decide +kernel

/-- The step with which `mail` leaves the ready list is a claim of the process that drains. -/
theorem mail_moves : ∃ (c c' : Pool (Option String) Request (World Ledger) Choice)
    (e : Option (Prog.Event Request (World Ledger))),
    Pool.Move (StartsOrDrains (.new "") ∅) Surrounds c e c' ∧
      occ (.new "") c.world.store "a" (.ready "mail") ≠ 0 ∧
      occ (.new "") c'.world.store "a" (.ready "mail") = 0 ∧
      (∀ ev, e = some ev → Moving (.new "") ev.label c.world c'.world) ∧
      (e = none → ∀ id, occ (.new "") c'.world.store id = occ (.new "") c.world.store id) := by
  obtain ⟨c, c', hc, hrun, hready, hgone⟩ := mail_runs
  obtain ⟨c₁, c₂, hbefore, hstep, -, hthere, hleft⟩ :=
    exists_change (P := fun c => occ (.new "") c.world.store "a" (.ready "mail") ≠ 0) hrun hready
      fun h => h (hgone (.ready "mail"))
  obtain ⟨e, hmove⟩ := hstep.move
  exact ⟨c₁, c₂, e, hmove, hthere, not_not.mp hleft, job_moves (hc.run hbefore) hmove⟩

/-! ## Leaving -/

variable {l : Request} {x : Option Loc}

/-- A job is claimed when it leaves: the process that has claimed it has succeeded with it, or has
given it up, or has ended. -/
theorem Moves.leaves (h : Moves K id w w' l x none) (hx : x ≠ none) :
    ∃ processId, x = some (.processing processId) ∧
      ((processId ∉ w.ghost.ended ∧
        ((∃ ids, id ∈ ids ∧
            w' = w.after (finishSuccess K.jobs (K.processingQueue processId) ids)) ∨
          ∃ limit, ∃ e : JobEnvelope, e.id = id ∧
            w'.store.list K.dead = bury limit e.encode (w.store.list K.dead))) ∨
      processId ∈ w.ghost.ended ∧ ∃ e, StoredAs K w.store id e ∧ e.jobMeta.resurrect = false) := by
  cases h with
  | rests => exact absurd rfl hx
  | succeeds hlive hid hw' => exact ⟨_, rfl, .inl ⟨hlive, .inl ⟨_, hid, hw'⟩⟩⟩
  | dies hlive hid hdead => exact ⟨_, rfl, .inl ⟨hlive, .inr ⟨_, _, hid, hdead⟩⟩⟩
  | abandons hended hstored hnot => exact ⟨_, rfl, .inr ⟨hended, _, hstored, hnot⟩⟩

/-- **No job gets lost**: if a job is at some place and later at none, then in between there is a
step with which it has left a processing list: that of a process that runs, which has either
succeeded with it or put its entry on the dead list; or that of a process that has ended, where its
payload says that it is not to be resurrected. -/
theorem job_leaves_when_done
    (h : Pool.Reachable (StartsOrDrains K U) Surrounds (World.initial t) c)
    (hrun : Relation.ReflTransGen (Pool.Step (StartsOrDrains K U) Surrounds) c c')
    (hat : ∃ l, occ K c.world.store id l ≠ 0) (hgone : ∀ l, occ K c'.world.store id l = 0) :
    ∃ c₁ c₂ processId, Relation.ReflTransGen (Pool.Step (StartsOrDrains K U) Surrounds) c c₁ ∧
      Pool.Step (StartsOrDrains K U) Surrounds c₁ c₂ ∧
      Relation.ReflTransGen (Pool.Step (StartsOrDrains K U) Surrounds) c₂ c' ∧
      occ K c₁.world.store id (.processing processId) = 1 ∧
      (∀ l, occ K c₂.world.store id l = 0) ∧
      ((processId ∉ c₁.world.ghost.ended ∧
        ((∃ ids, id ∈ ids ∧ c₂.world =
            c₁.world.after (finishSuccess K.jobs (K.processingQueue processId) ids)) ∨
          ∃ limit, ∃ e : JobEnvelope, e.id = id ∧ c₂.world.store.list K.dead =
            bury limit e.encode (c₁.world.store.list K.dead))) ∨
      processId ∈ c₁.world.ghost.ended ∧
        ∃ e, StoredAs K c₁.world.store id e ∧ e.jobMeta.resurrect = false) := by
  have hnot : ¬ ∃ l, occ K c'.world.store id l ≠ 0 := by
    rintro ⟨l, hl⟩
    exact hl (hgone l)
  obtain ⟨c₁, c₂, hbefore, hstep, hafter, ⟨l₁, hl₁⟩, hnone⟩ :=
    exists_change (P := fun c => ∃ l, occ K c.world.store id l ≠ 0) hrun hat hnot
  push Not at hnone
  obtain ⟨e, hmove⟩ := hstep.move
  cases e with
  | none =>
    -- nobody has moved it
    rw [still_of_quiet hmove id] at hnone
    exact absurd (hnone l₁) hl₁
  | some ev =>
  obtain ⟨x, y, hx, hy, hmoves⟩ := moving_of_step (h.run hbefore) hmove id
  -- it has been at `l₁`, and is nowhere
  obtain rfl : x = some l₁ := hx.eq_some hl₁
  obtain rfl : y = none := hy.unique (funext hnone)
  obtain ⟨processId, hloc, hway⟩ := hmoves.leaves (Option.some_ne_none l₁)
  rw [hloc] at hx
  exact ⟨c₁, c₂, processId, hbefore, hstep, hafter, hx.occ_self, hnone, hway⟩

/-- The drain has claimed `mail` before it leaves for good, and has succeeded with it. -/
theorem mail_leaves : ∃ c₁ c₂ : Pool (Option String) Request (World Ledger) Choice,
    ∃ processId, Pool.Step (StartsOrDrains (.new "") ∅) Surrounds c₁ c₂ ∧
      occ (.new "") c₁.world.store "a" (.processing processId) = 1 ∧
      ∀ l, occ (.new "") c₂.world.store "a" l = 0 := by
  obtain ⟨c, c', hc, hrun, hready, hgone⟩ := mail_runs
  obtain ⟨c₁, c₂, processId, -, hstep, -, hclaimed, hnone, -⟩ :=
    job_leaves_when_done hc hrun ⟨.ready "mail", hready⟩ hgone
  exact ⟨c₁, c₂, processId, hstep, hclaimed, hnone⟩

end System

end Oxana
