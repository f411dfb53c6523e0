import Oxana.Occurrences

/-!
# Cron occurrences run once, as long as nobody is late

Any number of processes run the loop of the same cron job, interleaved command
by command with the promotion of scheduled jobs and with workers that execute
and acknowledge what they claim. The id of an occurrence keeps its job from
being enqueued twice only as long as the job is stored: a process that enqueues
the occurrence after it has been acknowledged makes it run again.

`occurrence_runs_once` says that this is all that can go wrong.
-/

namespace Oxana

open Redis Script Interleave Call

variable {K : StorageKeys} {w w' : World Ledger}

/-! ## Enqueueing -/

/-- The job of an occurrence is still stored, or its execution has not begun,
when the script that enqueues it runs. -/
def Timely (K : StorageKeys) (id : JobId) (l : Request) (w : World Ledger) : Prop :=
  l.submits → (payloadOf K.jobs w.store id).isSome ∨ w.ghost.begun id = 0

section Enqueue

variable {e : JobEnvelope} {destination : JobDestination}

/-- Nothing happens to a begun job when it is enqueued in time: it is stored, so that the envelope
is skipped. -/
theorem enqueueSpec_settled (hinv : Tallied K w) (hskips : e.skips = true)
    (hq : K.Plain e.queue)
    (htime : (payloadOf K.jobs w.store e.id).isSome ∨ w.ghost.begun e.id = 0) :
    Settled K w { w with store := enqueueSpec K destination w.store e } := by
  have hrep : e.replaces = false := JobEnvelope.not_replaces fun _ => hskips
  simp only [enqueueSpec]
  rw [hskips, hrep]
  by_cases hsome : (payloadOf K.jobs w.store e.id).isSome
  · rw [hsome]
    exact .refl
  · obtain ⟨f, hch, -⟩ := Changes.enqueued hinv.placed.typed hq destination
    simp only [hsome, Bool.and_false, Bool.false_eq_true, if_false]
    exact hch.settled (htime.resolve_left hsome)

/-- Once enqueued, the job is stored, and enqueueing it again does nothing. -/
theorem enqueueSpec_again (hskips : e.skips = true) {s : Store}
    (hsome : (payloadOf K.jobs s e.id).isSome) : enqueueSpec K destination s e = s := by
  simp only [enqueueSpec]
  rw [hskips, hsome]
  rfl

/-- However often the same envelope is in a call of the script, it is enqueued as if it were there
once. -/
theorem foldl_enqueueSpec (destination : JobDestination) (hskips : e.skips = true) (hq : K.Plain e.queue)
    {es : List JobEnvelope} (hes : ∀ e' ∈ es, e' = e) (s : Store) :
    es.foldl (enqueueSpec K destination) s = s ∨
      es.foldl (enqueueSpec K destination) s = enqueueSpec K destination s e := by
  have hrep : e.replaces = false := JobEnvelope.not_replaces fun _ => hskips
  rcases es with _ | ⟨e', es⟩
  · exact .inl rfl
  · obtain rfl := hes e' (List.mem_cons_self ..)
    refine .inr ?_
    have hstored : (payloadOf K.jobs (enqueueSpec K destination s e') e'.id).isSome := by
      simp only [enqueueSpec]
      rw [hskips, hrep]
      by_cases hsome : (payloadOf K.jobs s e'.id).isSome
      · rw [hsome]
        exact hsome
      · simp only [hsome, Bool.and_false, Bool.false_eq_true, if_false]
        rw [payloadOf_placed hq, if_pos rfl]
        rfl
    show es.foldl (enqueueSpec K destination) (enqueueSpec K destination s e') = _
    have hrest : ∀ e'' ∈ es, e'' = e' := fun e'' h => hes e'' (List.mem_cons_of_mem _ h)
    clear hes
    induction es with
    | nil => rfl
    | cons e'' es ih =>
      obtain rfl := hrest e'' (List.mem_cons_self ..)
      show es.foldl _ (enqueueSpec K destination (enqueueSpec K destination s e'') e'') = _
      rw [enqueueSpec_again hskips hstored]
      exact ih fun e h => hrest e (List.mem_cons_of_mem _ h)

/-- A step of a producer of the occurrence settles it: a job that has begun is left alone. -/
theorem Processes.settled {l : Request} (h : Processes K destination [e] l w w')
    (hinv : Tallied K w) (hskips : e.skips = true) (hq : K.Plain e.queue)
    (htime : Timely K e.id l w) : Settled K w w' := by
  cases h with
  | reads => exact .refl
  | @commits _ _ es' hes =>
    rcases foldl_enqueueSpec destination hskips hq
      (fun e' he => List.mem_singleton.mp (hes e' he)) w.store with hsame | hone
    · rw [hsame]
      exact .refl
    · rw [hone]
      exact enqueueSpec_settled hinv hskips hq (htime rfl)

/-- The steps of `enqueue_at` settle the occurrence, too. -/
theorem enqueueAt_settled (hu : e.jobMeta.unique = true) (hskips : e.skips = true)
    (hq : K.Plain e.queue) :
    Call.Always (fun l w => Tallied K w ∧ Timely K e.id l w) (fun _ => Settled K)
      (fun _ => True) (enqueueAt K e : Call Ledger JobId) := by
  have hone : ∀ destination, Call.Always (fun l w => Tallied K w ∧ Timely K e.id l w)
      (fun _ => Settled K) (fun _ => True) (enqueueOne K e destination : Call Ledger JobId) :=
    fun destination => Always.weaken (enqueueOne_places hu destination)
      (fun _ _ h => h.1.placed.valid) fun _ _ _ h hstep => hstep.settled h.1 hskips hq h.2
  refine (Always.now (Q := fun _ => True) (fun _ _ => .refl) fun _ _ => trivial).bind fun t _ => ?_
  split
  · exact hone .queue
  · exact hone .schedule

end Enqueue

/-! ## The loops -/

/-- The call keeps to the discipline, whatever tokens it is left with. -/
abbrev Tallies {α : Type} (K : StorageKeys) (o : Option String) (P : World Ledger → Prop)
    (M : Set (Custody × Bool)) (x : Call Ledger α) : Prop :=
  Call.Keeps (tallying K) o P (fun _ _ => True) (fun _ => True) M x

section Loops

variable {α β : Type} {o : Option String} {P : World Ledger → Prop} {x : Call Ledger α}

/-- A client without tokens goes on without tokens, and never touches the tally. -/
theorem Tallies.bind {f : α → Call Ledger β} (hx : Tallies K o P ∅ x)
    (hf : ∀ a, Tallies K o P ∅ (f a)) : Tallies K o P ∅ (x >>= f) :=
  Keeps.bind hx (fun a T _ => (hf a).weaken (Set.empty_subset T)) fun _ h => h

theorem Tallies.now : Tallies K o P ∅ (now : Call Ledger Int) :=
  (Keeps.now (R := fun _ => True) fun _ h => absurd h (Set.notMem_empty _)).mono
    (fun _ _ _ => trivial) fun _ h => h

theorem trackRedisResult_tallies (hx : Tallies K o P ∅ x) :
    Tallies K o P ∅ (trackRedisResult x) := by
  refine Keeps.catching hx (fun a T _ => Keeps.pure trivial) fun e T _ => Keeps.ask fun c => ?_
  split
  · exact Keeps.fail trivial e
  · exact Keeps.pure trivial

/-- Waiting for an occurrence leaves the tally alone. -/
theorem cronWait_tallies (lookahead : Nat) (next : Int64) (previous : Option Int64) (n : Nat) :
    Tallies K o P ∅ (cronWait lookahead next previous n) := by
  induction n with
  | zero => exact Keeps.hang
  | succ n ih =>
    refine Keeps.ask fun c => ?_
    split
    · exact Keeps.pure trivial
    · refine Tallies.now.bind fun t => ?_
      split
      · exact ih
      · split
        · exact ih
        · exact Keeps.pure trivial

/-- The attempts to enqueue an occurrence leave the tally alone if each of them does. -/
theorem cronEnqueue_tallies {submit : Call Ledger JobId} (hsubmit : Tallies K o P ∅ submit)
    (n : Nat) : Tallies K o P ∅ (cronEnqueue submit n) := by
  induction n with
  | zero => exact Keeps.hang
  | succ n ih =>
    refine Keeps.ask fun c => ?_
    split
    · exact Keeps.pure trivial
    · refine (trackRedisResult_tallies hsubmit).bind fun sent => ?_
      split
      · exact Keeps.pure trivial
      · exact ih

/-- A cron job that does not declare the id of its job itself. -/
def CronJob.Ordinary (C : CronJob) : Prop := ∀ job, C.job = some job → job.uniqueJobId = none

/-- The envelope of an occurrence is a Skip envelope for the queue of the cron job, under the id of
the occurrence. -/
theorem CronJob.cronEnvelope_eq {C : CronJob} (hC : C.Ordinary) {t next : Int64}
    {e : JobEnvelope} {declaredUnique : Bool}
    (h : C.cronEnvelope t next = some (e, declaredUnique)) :
    declaredUnique = false ∧ e.id = C.occurrenceId next ∧ e.queue = C.queueKey ∧
      e.jobMeta.unique = true ∧ e.skips = true := by
  rw [CronJob.cronEnvelope, Option.bind_eq_bind, Option.bind_eq_some_iff] at h
  obtain ⟨job, hjob, hnew⟩ := h
  simp only [JobEnvelope.newCron] at hnew
  rw [hC job hjob] at hnew
  split at hnew
  · cases hnew
  · obtain ⟨rfl, rfl⟩ := Prod.mk.inj (Option.some.inj hnew)
    exact ⟨rfl, rfl, rfl, rfl, rfl⟩

variable {H : Handle} {C : CronJob} {settings : CronSettings}
  {submit : JobEnvelope → Call Ledger JobId}

/-- Going through the occurrences leaves the tally alone if enqueueing each of them does. -/
theorem cronOccurrences_tallies (hC : C.Ordinary)
    (hsubmit : ∀ t next e, C.cronEnvelope t next = some (e, false) →
      Tallies K o P ∅ (submit e)) (start : Int) (n i : Nat) (previous : Option Int64) :
    Tallies K o P ∅ (cronOccurrences H C settings submit start n i previous) := by
  induction n generalizing i previous with
  | zero => exact Keeps.hang
  | succ n ih =>
    simp only [cronOccurrences]
    split
    · exact Keeps.pure trivial
    · next next _ =>
      refine Keeps.ask fun c => (cronWait_tallies _ _ _ _).bind fun due => ?_
      split
      · refine Tallies.now.bind fun t => ?_
        split
        · exact Keeps.fail trivial _
        · next e declaredUnique henv =>
          obtain ⟨rfl, -⟩ := C.cronEnvelope_eq hC henv
          refine Tallies.bind (Keeps.pure trivial) fun wanted => ?_
          rcases wanted with _ | _ | _
          · exact Keeps.pure trivial
          · exact ih _ _
          · refine Keeps.ask fun c => ?_
            refine (cronEnqueue_tallies (hsubmit _ _ _ henv) _).bind fun sent => ?_
            split
            · exact ih _ _
            · exact Keeps.pure trivial
      · exact Keeps.pure trivial

/-- `cron_job_loop` where each occurrence is enqueued in time -/
noncomputable def timelyCronLoop (H : Handle) (C : CronJob) (settings : CronSettings) :
    Call Ledger Unit :=
  cronJobLoopWith H C settings fun e => Call.heeding (Timely H.keys e.id) (enqueueAt H.keys e)

/-- A cron loop that enqueues in time leaves the tally alone. -/
theorem timelyCronLoop_tallies (hC : C.Ordinary) (hq : H.keys.Plain C.queueKey) :
    Tallies H.keys none (fun _ => True) ∅ (timelyCronLoop H C settings) := by
  refine Tallies.now.bind fun t => Keeps.ask fun c => ?_
  refine cronOccurrences_tallies hC (fun t next e henv => ?_) _ _ _ _
  obtain ⟨-, -, hqueue, hu, hskips⟩ := C.cronEnvelope_eq hC henv
  rw [← hqueue] at hq
  have hcustody := enqueueAt_produces (K := H.keys) (U := Set.univ) (e := e)
    ⟨hq, fun h => absurd hu (by rw [h]; exact Bool.noConfusion), fun _ => trivial, fun _ => hskips⟩
  have hnone : Custody.freshes (ordinaryIds [e]) = ∅ := by
    rw [ordinaryIds_cons, hu]
    exact Set.eq_empty_of_forall_notMem fun _ h => by simp [Custody.freshes, ordinaryIds] at h
  rw [hnone] at hcustody
  have hsafe := hcustody.tallied (B := ∅) (enqueueAt_settled hu hskips hq)
  rw [marked_empty] at hsafe
  exact hsafe.mono (fun _ _ _ => trivial) fun _ h => h

end Loops

/-! ## Workers -/

/-- No attempt fails: no job is sent to the retry set. -/
def Unfailing (l : Request) (_ : World Ledger) : Prop := ∀ id, l ≠ .retryFailed id

section Workers

variable {α β : Type} {H : Handle} {x : Call Ledger α}

/-- The steps of a worker that are no acknowledgements leave begun jobs alone. -/
theorem Steps.settled (hx : Steps H x) :
    Call.Always (fun l w => Tallied H.keys w ∧ Unfailing l w) (fun _ => Settled H.keys)
      (fun _ => True) x :=
  Always.weaken hx (fun _ _ _ => trivial) fun _ _ _ h hstep =>
    hstep.settled h.1.placed.typed h.2

/-- Claiming a job leaves begun jobs alone. -/
theorem dequeue_settled {queue : String} (hq : H.keys.Plain queue) :
    Call.Always (fun l w => Tallied H.keys w ∧ Unfailing l w) (fun _ => Settled H.keys)
      (fun _ => True) (dequeue H queue : Call Ledger (Option JobId)) :=
  Always.connection.bind fun _ _ =>
    .send (fun _ h => lmove_settled h.1 hq) fun _ _ _ _ => trivial

/-- Claiming and loading a batch leaves begun jobs alone. -/
theorem gather_settled {queues : List String} (hq : ∀ q ∈ queues, H.keys.Plain q) (n : Nat)
    (claimed : List JobId) (loaded : List JobEnvelope) :
    Call.Always (fun l w => Tallied H.keys w ∧ Unfailing l w) (fun _ => Settled H.keys)
      (fun _ => True) (gather H queues n claimed loaded : Call Ledger (List JobEnvelope)) := by
  induction n generalizing claimed loaded with
  | zero => exact .pure trivial
  | succ n ih =>
    refine .ask fun c => ?_
    split
    · exact .pure trivial
    · split
      · next id claimed _ =>
        exact (loadPendingJob_steps id).settled.bind fun found _ => ih _ _
      · exact .pure trivial
      · next queue hqueue =>
        exact (dequeue_settled (hq queue (List.mem_of_getElem? hqueue))).bind fun id _ => ih _ _

/-- The first part of a worker is held back and takes custody of what it claims; the rest goes on
with it. -/
theorem Call.Keeps.heeding_bind {P : World Ledger → Prop} {Q : α → Set Custody → Prop}
    {R : Set Custody → Prop} {T : Set Custody} {f : α → Call Ledger β} {o : Option String}
    (hx : Call.Keeps (custody H.keys Set.univ) o P Q R T x)
    (ha : Call.Always (fun l w => Tallied H.keys w ∧ Unfailing l w) (fun _ => Settled H.keys)
      (fun _ => True) x)
    (hf : ∀ a T', Q a T' → Tallies H.keys o P (marked ∅ T') (heeding Unfailing (f a))) :
    Tallies H.keys o P (marked ∅ T) (heeding Unfailing (x >>= f : Call Ledger β)) := by
  have hseq : heeding Unfailing (x >>= f) =
      Call.bind (heeding Unfailing x) fun a => heeding Unfailing (f a) := by
    refine (Prog.heeding_bind _ _).trans (congrArg (Prog.bind _) (funext fun r => ?_))
    rcases r with e | a
    · rfl
    · rfl
  rw [hseq]
  refine Discipline.Safe.bind (hx.tallied (B := ∅) ha) ?_
  rintro (e | a) M hM
  · trivial
  · obtain ⟨B', hB', T', rfl, hQ⟩ := hM
    obtain rfl : B' = ∅ := Set.subset_empty_iff.mp hB'
    exact hf a T' hQ

variable {es : List JobEnvelope}

/-- What a worker does once its handler has been called: it finishes jobs that it has begun, and
counts no more of them. -/
theorem finish_tallies (hes : (es.map (·.id)).Nodup) (n : Nat) (result : ExecutionResult) :
    Tallies H.keys (some H.processId) H.Live
      (marked {id | id ∈ es.map (·.id)} (H.claims (es.map (·.id))))
      (heeding Unfailing (do
        runProcess H (es.map (·.id)) n
        finishBatchResult H result es : Call Ledger Unit)) := by
  have hcustody : Works H Set.univ (fun _ _ => True) (fun _ => True) (H.claims (es.map (·.id)))
      (do runProcess H (es.map (·.id)) n; finishBatchResult H result es) := by
    refine (runProcess_works (fun _ h => h) n).bind ?_ fun _ h => h
    rintro _ _ rfl
    exact finishBatchResult_works hes result
  have hsteps : Steps H (do runProcess H (es.map (·.id)) n; finishBatchResult H result es :
      Call Ledger Unit) :=
    (runProcess_steps _ n).bind fun _ _ => finishBatchResult_steps result es
  exact (hcustody.tallied hsteps.settled).mono (fun _ _ _ => trivial) fun _ h => h

/-- A worker that runs a batch counts each of its jobs once. -/
theorem runBatchNoting_tallies (hes : Batch H es) :
    Tallies H.keys (some H.processId) H.Live (marked ∅ (H.claims (es.map (·.id))))
      (heeding Unfailing (runBatchNoting H noteBegun es)) := by
  simp only [runBatchNoting]
  split
  · exact Keeps.pure trivial
  · refine Keeps.ask fun c => ?_
    have hstart : ∀ e ∈ (if c.resumes then es else es.map (·.withoutState)),
        e.id ∈ es.map (·.id) ∧ H.keys.Plain e.queue := by
      intro e he
      split at he
      · exact ⟨List.mem_map_of_mem he, hes.plain e he⟩
      · obtain ⟨e', he', rfl⟩ := List.mem_map.mp he
        exact ⟨List.mem_map_of_mem (f := (·.id)) he', hes.plain e' he'⟩
    have hids : (if c.resumes then es else es.map (·.withoutState)).map (·.id) =
        es.map (·.id) := by
      split
      · rfl
      · rw [List.map_map]
        rfl
    refine (setStartedAtBatch_works hstart).heeding_bind (setStartedAtBatch_steps _).settled ?_
    rintro started _ ⟨rfl, hstarted, -⟩
    rw [hids] at hstarted
    rw [← hstarted]
    have hnd : (started.map (·.id)).Nodup := hstarted ▸ hes.nodup
    -- here the handler is called
    refine Discipline.Safe.heeding_act fun w hinv _ hT _ => ?_
    exact ⟨_, begin_trades hinv hnd hT, finish_tallies hnd c.rounds c.result⟩

/-- **Workers begin what they claim once.** -/
theorem workerNoting_tallies {queues : List String} (hq : ∀ q ∈ queues, H.keys.Plain q) :
    Tallies H.keys (some H.processId) H.Live ∅
      (heeding Unfailing (workerNoting H noteBegun queues)) := by
  refine Keeps.ask fun c => ?_
  have hnone : (∅ : Set (Custody × Bool)) =
      marked ∅ (H.claims ([] ++ ([] : List JobEnvelope).map (·.id))) := by
    have hclaims : H.claims ([] ++ ([] : List JobEnvelope).map (·.id)) = ∅ := by
      ext t
      simp [Custody.claims]
    rw [hclaims, marked_empty]
  rw [hnone]
  refine (gather_works hq List.nodup_nil fun _ h => absurd h List.not_mem_nil).heeding_bind
    (gather_settled hq _ _ _) ?_
  rintro es _ ⟨hes, rest, rfl⟩
  -- claims that have not been loaded are left behind
  refine Keeps.weaken (T := marked ∅ (H.claims (es.map (·.id)))) ?_ ?_
  · have hnil : (es.map JobEnvelope.id ++ []).Nodup := by
      rw [List.append_nil]
      exact hes.nodup
    have hkill := killInvalid_works (U := Set.univ) hes hnil
    rw [List.append_nil] at hkill
    refine hkill.heeding_bind (killInvalid_steps es).settled ?_
    rintro valid _ ⟨hvalid, rfl, -⟩
    rw [List.append_nil]
    exact runBatchNoting_tallies hvalid
  · rintro t ⟨⟨id, hid, ht⟩, hmark⟩
    exact ⟨⟨id, List.mem_append_right _ hid, ht⟩, hmark⟩

end Workers

/-! ## The system -/

/-- A promotion leaves begun jobs alone. -/
theorem promoteOne_settled {l : Loc} (hl : l.Delayed) (id : JobId) (score : Int) :
    Call.Always (fun _ w => Tallied K w ∧ True) (fun _ => Settled K) (fun _ => True)
      (promoteOne K (l.key K) id score : Call Ledger Nat) := by
  refine (transitionSnapshot_always (fun _ _ => .refl) id).catching (fun found hfound => ?_)
    fun e => ?_
  · exact .send (fun w h => promoteScheduled_settled h.1 hl hfound id score)
      fun _ _ _ _ => trivial
  · cases e with
    | json => exact .pure trivial
    | redis b => exact .fail _
    | jobNotFound => exact .fail _
    | generic => exact .fail _
    | config _ => exact .fail _

/-- Promoting everything that is due leaves begun jobs alone. -/
theorem enqueueScheduled_settled {l : Loc} (hl : l.Delayed) :
    Call.Always (fun _ w => Tallied K w ∧ True) (fun _ => Settled K) (fun _ => True)
      (enqueueScheduled K (l.key K) : Call Ledger Nat) := by
  refine (Always.now (Q := fun _ => True) (fun _ _ => .refl) fun _ _ => trivial).bind fun t _ => ?_
  refine Always.connection.bind fun _ _ => ?_
  refine (Always.read (Q := fun _ => True) (fun s => zrangeByScore_snd ..) (fun _ _ => .refl)
    fun _ _ _ _ => trivial).bind fun jobs _ => ?_
  induction jobs with
  | nil => exact .pure trivial
  | cons job jobs ih =>
    exact (promoteOne_settled hl job.1 job.2).bind fun _ _ => ih.bind fun _ _ => .pure trivial

/-- The clients of the system: cron loops of any number of processes, schedulers, and workers of
running processes whose attempts do not fail. -/
inductive CronStarts (K : StorageKeys) (loop : Handle → CronSettings → Call Ledger Unit) :
    World Ledger → Option String → Prog Request (World Ledger) Choice Unit → World Ledger → Prop
  /-- the loop of some process -/
  | cron {w : World Ledger} {H : Handle} {settings : CronSettings} : H.keys = K →
      CronStarts K loop w none (Call.client (loop H settings)) w
  /-- `enqueue_scheduled`, for the schedule or the retry set -/
  | enqueueScheduled {w : World Ledger} {l : Loc} : l.Delayed →
      CronStarts K loop w none (Call.client (enqueueScheduled K (l.key K))) w
  /-- a worker whose attempts do not fail -/
  | worker {w : World Ledger} {processId : String} {deadJobLimit : Option Nat}
      {queues : List String} : processId ∉ w.ghost.ended → (∀ q ∈ queues, K.Plain q) →
      CronStarts K loop w (some processId) (Call.client
        (heeding Unfailing (workerNoting ⟨K, processId, deadJobLimit⟩ noteBegun queues))) w

/-- Every client that may be started keeps to the tally. -/
theorem cronStarts_ok {C : CronJob} (hC : C.Ordinary) (hq : K.Plain C.queueKey) :
    (tallying K).LaunchOk (CronStarts K fun H => timelyCronLoop H C) := by
  intro w o p w' hinv hstart
  have hstable : ∀ o, (tallying K).Stable o fun _ => True := fun _ _ _ _ _ => trivial
  cases hstart with
  | @cron H settings hK =>
    subst hK
    exact ⟨∅, .drop hinv, _, hstable _, trivial, (timelyCronLoop_tallies hC hq).client⟩
  | @enqueueScheduled l hl =>
    have hcustody : Sweeps K Set.univ (fun _ => True) (fun _ => True)
      (enqueueScheduled K (l.key K)) := enqueueScheduled_sweeps hl
    have htallies := hcustody.tallied (B := ∅) (G := fun _ _ => True) (enqueueScheduled_settled hl)
    rw [marked_empty, Call.heeding_true] at htallies
    exact ⟨∅, .drop hinv, _, hstable _, trivial, htallies.client⟩
  | @worker processId deadJobLimit queues hlive hqs =>
    refine ⟨∅, .drop hinv, Handle.Live ⟨K, processId, deadJobLimit⟩, ?_, hlive,
      (workerNoting_tallies (H := ⟨K, processId, deadJobLimit⟩) hqs).client⟩
    exact fun s s' hmoves h => hmoves.2 processId rfl h

/-- What surrounds the clients leaves the tally alone. -/
theorem surrounds_tally : (tallying K).EnvOk (ℓ := Request) (ι := Choice) Surrounds := by
  intro c w' hinv henv
  obtain ⟨hplaced, hthreads⟩ := surrounds_ok (U := Set.univ) c w' hinv.placed henv
  have hsame : w'.store = c.world.store ∧ w'.ghost.begun = c.world.ghost.begun := by
    cases henv <;> exact ⟨rfl, rfl⟩
  refine ⟨⟨hplaced, fun id => ?_, fun id => ?_⟩, fun i th hth => ⟨(hthreads i th hth).1, ?_⟩⟩
  · rw [hsame.2]
    exact hinv.once id
  · rw [hsame.1, hsame.2]
    exact hinv.claimed id
  · rintro t hmine ⟨hown, hmark⟩
    refine ⟨(hthreads i th hth).2 t.1 hmine hown, ?_⟩
    rw [hsame.2]
    exact hmark

/-- **A cron occurrence runs at most once**, in every run in which each process enqueues it while
its job is stored or has not begun: whatever processes, producers and sweeps do meanwhile. -/
theorem occurrence_runs_once {C : CronJob} (hC : C.Ordinary) (hq : K.Plain C.queueKey) {t : Int}
    {c : Pool (Option String) Request (World Ledger) Choice}
    (h : Pool.Reachable (CronStarts K fun H => timelyCronLoop H C) Surrounds (World.initial t) c)
    (scheduledAt : Int64) :
    c.world.ghost.begun (C.occurrenceId scheduledAt) ≤ 1 := by
  have hinit : Tallied K (World.initial t) :=
    ⟨initial_inv t, fun _ => Nat.zero_le 1, fun _ h => absurd rfl h⟩
  exact (Discipline.reachable_inv (cronStarts_ok hC hq) surrounds_tally hinit h).once _

/-! ## A late process -/

/-- A cron job with one occurrence, a second after the epoch. -/
def tick : CronJob where
  name := "Tick"
  schedule := fun start i => if start < 1000000 ∧ i = 0 then some 1000000 else none
  queueKey := "mail"
  resurrect := true
  job := some ⟨"Tick", .null, none, .skip, true, none⟩

/-- The job of the occurrence, built when it is due. -/
def ticked : JobEnvelope :=
  ⟨"Tick-1000000", ⟨"Tick", .null⟩, "mail",
    ⟨"Tick-1000000", none, 0, true, some .skip, 1000000, 1000000, none, none, true, none, none⟩⟩

/-- The job of the sample as its worker starts it. -/
def tickedStarted : JobEnvelope := ticked.normalize.withStartedAt (Int64.ofInt 1000000)

/-- The process of the sample. -/
def ticker : Handle := ⟨.new "", "q", none⟩

/-- The world of the sample at the time of the occurrence. -/
def atTick (s : Store) (g : Ledger) : World Ledger := ⟨s, 1000000, g⟩

/-- The store with the job of the occurrence, waiting on its ready list. -/
def tickWaiting : Store :=
  (Store.empty.put (StorageKeys.new "").jobs (.hash [("Tick-1000000", ticked.encode)])).put
    ((StorageKeys.new "").namespaceQueue "mail") (.list ["Tick-1000000"])

/-- The same store once a process has claimed the job. -/
def tickClaimed : Store :=
  (tickWaiting.put ((StorageKeys.new "").namespaceQueue "mail") (.list [])).put
    ticker.currentProcessingQueue (.list ["Tick-1000000"])

/-- The same store once the claimed job has been marked as started. -/
def tickStarted : Store :=
  tickClaimed.put (StorageKeys.new "").jobs (.hash [("Tick-1000000", tickedStarted.encode)])

theorem tick_envelope : tick.cronEnvelope (Int64.ofInt 1000000) 1000000 = some (ticked, false) := by
  decide +kernel

theorem tick_enqueues : enqueueCall (.new "") .queue [] [ticked] Store.empty =
    (.ok ⟨[], [.enqueued]⟩, tickWaiting) := rfl

theorem tick_claims : lmove ((StorageKeys.new "").namespaceQueue "mail")
    ticker.currentProcessingQueue tickWaiting = (.ok (some "Tick-1000000"), tickClaimed) := rfl

/-- Once the job is acknowledged, nothing is left in the store. -/
theorem tick_finishes : finishSuccess (StorageKeys.new "").jobs ticker.currentProcessingQueue
    ["Tick-1000000"] tickStarted = (.ok (), Store.empty) := by
  have hrun : finishSuccess (StorageKeys.new "").jobs ticker.currentProcessingQueue
      ["Tick-1000000"] tickStarted = (.ok (), (tickStarted.put (StorageKeys.new "").jobs
        (.hash [])).put ticker.currentProcessingQueue (.list [])) := rfl
  have hlist : ¬ (Value.list []).Live := fun h => h rfl
  have hhash : ¬ (Value.hash []).Live := fun h => h rfl
  rw [hrun]
  refine congrArg (Prod.mk _) (Store.ext fun k => ?_)
  simp only [tickStarted, tickClaimed, tickWaiting, Store.put, Function.update_apply, if_neg hlist,
    if_neg hhash]
  split_ifs <;> rfl

section Runs

variable (g : Ledger)

/-- The occurrence is enqueued, for nothing is stored under its id. -/
theorem ticked_enqueued : Call.Returns (enqueueAt (.new "") ticked)
    [⟨.now, atTick .empty g, atTick .empty g⟩, ⟨.hexists, atTick .empty g, atTick .empty g⟩,
      ⟨.enqueue ["Tick-1000000"], atTick .empty g, atTick tickWaiting g⟩] "Tick-1000000" := by
  have hpipe : Call.Returns (pipe .hexists
      (["Tick-1000000"].map (hexists (StorageKeys.new "").jobs)))
      [⟨.hexists, atTick .empty g, atTick .empty g⟩] [false] :=
    .pipe_cons (atTick .empty g) rfl .pipe_nil
  have hlook : Call.Returns (readExisting (.new "") ["Tick-1000000"]) _ [] := hpipe.bind (.pure _)
  have hsend := Call.Returns.send (l := .enqueue ["Tick-1000000"]) (atTick .empty g)
    (congrArg Prod.fst tick_enqueues)
  have hloop : Call.Returns (enqueuePending (.new "") .queue [] [ticked])
      [⟨.enqueue ["Tick-1000000"], atTick .empty g, atTick tickWaiting g⟩] ["Tick-1000000"] :=
    .ask Call.fine (hsend.bind (.pure _))
  have hunique : Call.Returns (enqueueUnique (.new "") .queue [ticked]) _ ["Tick-1000000"] :=
    Call.Returns.pure_bind (hlook.bind hloop)
  have hchunk : Call.Returns (enqueueChunk (.new "") [ticked] .queue [])
      [⟨.hexists, atTick .empty g, atTick .empty g⟩,
        ⟨.enqueue ["Tick-1000000"], atTick .empty g, atTick tickWaiting g⟩] ["Tick-1000000"] := by
    simp only [enqueueChunk]
    rw [if_neg (by decide)]
    exact hunique.bind (.pure _)
  have hone : Call.Returns (enqueue (.new "") ticked) _ "Tick-1000000" :=
    Call.Returns.connection.bind (hchunk.bind (.pure _))
  exact (Call.Returns.now (atTick .empty g)).bind hone

/-- What is left of the loop once it has been started. -/
def tickLoop (submit : JobEnvelope → Call Ledger JobId) : Call Ledger Unit :=
  ask fun c => cronOccurrences ticker tick ⟨0, 0⟩ submit 0 c.rounds 0 none

/-- What the loop does when the occurrence is due. -/
def tickEnqueue : List (Prog.Event Request (World Ledger)) :=
  [⟨.now, atTick .empty g, atTick .empty g⟩, ⟨.now, atTick .empty g, atTick .empty g⟩,
    ⟨.now, atTick .empty g, atTick .empty g⟩, ⟨.hexists, atTick .empty g, atTick .empty g⟩,
    ⟨.enqueue ["Tick-1000000"], atTick .empty g, atTick tickWaiting g⟩]

/-- The loop waits for the occurrence and enqueues it. -/
theorem tickLoop_enqueues (submit : JobEnvelope → Call Ledger JobId)
    (hsubmit : Call.Returns (submit ticked) [⟨.now, atTick .empty g, atTick .empty g⟩,
      ⟨.hexists, atTick .empty g, atTick .empty g⟩,
      ⟨.enqueue ["Tick-1000000"], atTick .empty g, atTick tickWaiting g⟩] "Tick-1000000") :
    Call.Returns (tickLoop submit) (tickEnqueue g) () := by
  have hnow := Call.Returns.now (atTick .empty g)
  have hwait : Call.Returns (cronWait 0 1000000 none 1) [⟨.now, atTick .empty g, atTick .empty g⟩]
      true := .ask { done := false } (hnow.bind (.pure true))
  have htrack : Call.Returns (trackRedisResult (submit ticked)) _ (some "Tick-1000000") :=
    hsubmit.catching (.pure (some "Tick-1000000"))
  have hsent : Call.Returns (cronEnqueue (submit ticked) 1) _ true :=
    .ask { done := false } (htrack.bind (.pure true))
  have hrest : Call.Returns (cronOccurrences ticker tick ⟨0, 0⟩ submit 0 1 1 (some 1000000)) []
      () := .pure _
  have henv : tick.cronEnvelope (Int64.ofInt (atTick .empty g).clock) 1000000 =
      some (ticked, false) := tick_envelope
  refine .ask { rounds := 2 } ?_
  show Call.Returns (cronOccurrences ticker tick ⟨0, 0⟩ submit 0 2 0 none) _ _
  refine .ask { rounds := 1 } (hwait.bind (hnow.bind ?_))
  simp only [henv]
  exact Call.Returns.pure_bind (a := some true) (.ask { rounds := 1 } (hsent.bind hrest))

/-- The ledger of the sample once the handler has been called. -/
abbrev Ledger.ticks : Ledger := g.begin ["Tick-1000000"]

/-- What the worker does, from the claim to the acknowledgment. -/
def tickWork : List (Prog.Event Request (World Ledger)) :=
  [⟨.lmove, atTick tickWaiting g, atTick tickClaimed g⟩,
    ⟨.hget, atTick tickClaimed g, atTick tickClaimed g⟩,
    ⟨.now, atTick tickClaimed g, atTick tickClaimed g⟩,
    ⟨.update ["Tick-1000000"], atTick tickClaimed g, atTick tickStarted g⟩,
    ⟨.wait, atTick tickStarted g, atTick tickStarted g.ticks⟩,
    ⟨.finishSuccess ["Tick-1000000"], atTick tickStarted g.ticks, atTick .empty g.ticks⟩]

/-- A worker claims the job, begins it and acknowledges it. -/
theorem tick_worked : Call.Returns (workerNoting ticker noteBegun ["mail"]) (tickWork g) () := by
  have hclaim : Call.Returns (dequeue ticker "mail")
      [⟨.lmove, atTick tickWaiting g, atTick tickClaimed g⟩] (some "Tick-1000000") :=
    Call.Returns.connection.bind (.send (atTick tickWaiting g) (congrArg Prod.fst tick_claims))
  have hget : Call.Returns (send .hget (hget ticker.keys.jobs "Tick-1000000"))
      [⟨.hget, atTick tickClaimed g, atTick tickClaimed g⟩] (some ticked.encode) :=
    Call.Returns.send (atTick tickClaimed g) rfl
  have hsnap : Call.Returns (transitionSnapshot ticker.keys "Tick-1000000") _
      (some (ticked.encode, ticked.normalize)) :=
    hget.bind ((Call.Returns.decoded (decode_encode _)).bind (.pure _))
  have hfind : Call.Returns (getClaimedJob ticker "Tick-1000000") _ (some ticked.normalize) :=
    .ask { rounds := 0 } (Call.Returns.connection.bind (hsnap.bind (.pure _)))
  have hload : Call.Returns (loadPendingJob ticker "Tick-1000000")
      [⟨.hget, atTick tickClaimed g, atTick tickClaimed g⟩] (some ticked.normalize) :=
    hfind.bind (.pure _)
  have hgather : Call.Returns (gather ticker ["mail"] 3 [] []) _ [ticked.normalize] :=
    .ask { done := false, rounds := 0 } (hclaim.bind
      (.ask { done := false, rounds := 1 } (hload.bind (.ask { done := true } (.pure _)))))
  have hvalid : Call.Returns (killInvalid ticker [ticked.normalize] : Call Ledger _) []
      [ticked.normalize] := .ask Call.fine (Call.Returns.bind (.pure _) (.pure _))
  have hupdate : Call.Returns (updateJobs ticker [tickedStarted])
      [⟨.update ["Tick-1000000"], atTick tickClaimed g, atTick tickStarted g⟩] () :=
    Call.Returns.connection.bind (.send (atTick tickClaimed g) rfl)
  have hstart : Call.Returns (setStartedAtBatch ticker [ticked.normalize]) _ [tickedStarted] :=
    (Call.Returns.now (atTick tickClaimed g)).bind (hupdate.bind (.pure [tickedStarted]))
  have hnote : Call.Returns (noteBegun ["Tick-1000000"])
      [⟨.wait, atTick tickStarted g, atTick tickStarted g.ticks⟩] () := Prog.Trace.act (.refl _)
  have hhandler : Call.Returns (runProcess ticker ["Tick-1000000"] 1 : Call Ledger Unit) [] () :=
    .ask Call.fine (.pure ())
  have hfinish : Call.Returns (finishBatchResult ticker .success [tickedStarted])
      [⟨.finishSuccess ["Tick-1000000"], atTick tickStarted g.ticks, atTick .empty g.ticks⟩] () := by
    have hsend := Call.Returns.send (l := .finishSuccess ["Tick-1000000"]) (a := ())
      (x := finishSuccess (StorageKeys.new "").jobs ticker.currentProcessingQueue ["Tick-1000000"])
      (atTick tickStarted g.ticks) (congrArg Prod.fst tick_finishes)
    rw [World.after, show (atTick tickStarted g.ticks).store = tickStarted from rfl,
      tick_finishes] at hsend
    exact Call.Returns.connection.bind hsend
  have hbatch : Call.Returns (runBatchNoting ticker noteBegun [ticked.normalize]) _ () :=
    .ask Call.fine (hstart.bind (hnote.bind (hhandler.bind hfinish)))
  exact .ask { rounds := 3 } (hgather.bind (hvalid.bind hbatch))

/-- A loop enqueues the occurrence, and a new worker executes it, in a run of the whole system. -/
theorem tick_passes {loop : Handle → CronSettings → Call Ledger Unit} {t : Int}
    {c : Pool (Option String) Request (World Ledger) Choice}
    (h : Pool.Reachable (CronStarts (.new "") loop) Surrounds (World.initial t) c)
    (hw : c.world = atTick .empty g) (hlive : "q" ∉ g.ended) {i j : ℕ} (hij : j ≠ i)
    {submit : JobEnvelope → Call Ledger JobId}
    (hi : c.threads i = some ⟨none, Call.client (tickLoop submit)⟩)
    (hsubmit : Call.Returns (tickLoop submit) (tickEnqueue g) ()) (hj : c.threads j = none) :
    ∃ c', Pool.Reachable (CronStarts (.new "") loop) Surrounds (World.initial t) c' ∧
      c'.world = atTick .empty g.ticks ∧ ∀ k, k ≠ i → k ≠ j → c'.threads k = c.threads k := by
  have h₁ := h.trace hi (Prog.Trace.bind hsubmit (.refl _))
    (show Prog.Chained _ _ (atTick tickWaiting g) from ⟨hw.symm, rfl, rfl, rfl, rfl, rfl⟩)
  have hstart : CronStarts (.new "") loop (atTick tickWaiting g) (some "q")
      (Call.client (heeding Unfailing (workerNoting ticker noteBegun ["mail"])))
      (atTick tickWaiting g) :=
    .worker hlive fun q hq => by
      rw [List.mem_singleton.mp hq]
      decide +kernel
  have h₂ := h₁.next (.launch (i := j) (by simpa [hij] using hj) hstart)
  have hunfailing : ∀ e ∈ tickWork g, Unfailing e.label e.pre := by
    simp [tickWork, Unfailing]
  have h₃ := h₂.trace (Function.update_self ..)
    (Prog.Trace.bind ((tick_worked g).heeding hunfailing) (.refl _))
    (show Prog.Chained _ _ (atTick .empty g.ticks) from ⟨rfl, rfl, rfl, rfl, rfl, rfl, rfl⟩)
  refine ⟨_, h₃, rfl, fun k hki hkj => ?_⟩
  simp [hki, hkj]

end Runs

theorem tick_ordinary : tick.Ordinary := by
  rintro job ⟨⟩
  rfl

theorem tick_id : tick.occurrenceId 1000000 = "Tick-1000000" := by
  decide +kernel

/-- A loop may be started before the occurrence, in a world where nothing is stored. -/
theorem tick_starts (loop : Handle → CronSettings → Call Ledger Unit)
    {submit : JobEnvelope → Call Ledger JobId}
    (hloop : loop ticker ⟨0, 0⟩ = cronJobLoopWith ticker tick ⟨0, 0⟩ submit)
    {c : Pool (Option String) Request (World Ledger) Choice}
    (h : Pool.Reachable (CronStarts (.new "") loop) Surrounds (World.initial 0) c)
    (hw : c.world = World.initial 0) {i : ℕ} (hi : c.threads i = none) :
    Pool.Reachable (CronStarts (.new "") loop) Surrounds (World.initial 0)
      ⟨World.initial 0, Function.update c.threads i
        (some ⟨none, Call.client (tickLoop submit)⟩)⟩ := by
  have hlaunch : CronStarts (.new "") loop c.world none (Call.client (loop ticker ⟨0, 0⟩))
      c.world := .cron rfl
  have hstart : Prog.Trace (Call.client (cronJobLoopWith ticker tick ⟨0, 0⟩ submit))
      [⟨.now, World.initial 0, World.initial 0⟩] (Call.client (tickLoop submit)) :=
    .act (.refl _)
  rw [hloop] at hlaunch
  have hrun := (h.next (.launch hi hlaunch)).trace (Function.update_self ..) hstart
    (show Prog.Chained _ _ (World.initial 0) from ⟨hw.symm, rfl⟩)
  rwa [Function.update_idem] at hrun

/-- The occurrence is enqueued by a process and executed by its worker: it is executed once, and it
is the only one. -/
theorem tick_runs_once : ∃ c : Pool (Option String) Request (World Ledger) Choice,
    c.world.ghost.begun (tick.occurrenceId 1000000) = 1 ∧
      ∀ scheduledAt, c.world.ghost.begun (tick.occurrenceId scheduledAt) ≤ 1 := by
  have h₁ := tick_starts (fun H => timelyCronLoop H tick) rfl .start rfl (i := 0) rfl
  have h₂ := h₁.next (.env (.clock 1000000))
  have htimely : ∀ e ∈ [(⟨.now, atTick .empty ⟨∅, ∅, 0⟩, atTick .empty ⟨∅, ∅, 0⟩⟩ :
      Prog.Event Request (World Ledger)),
      ⟨.hexists, atTick .empty ⟨∅, ∅, 0⟩, atTick .empty ⟨∅, ∅, 0⟩⟩,
      ⟨.enqueue ["Tick-1000000"], atTick .empty ⟨∅, ∅, 0⟩, atTick tickWaiting ⟨∅, ∅, 0⟩⟩],
      Timely (.new "") ticked.id e.label e.pre := by
    simp [Timely, atTick]
  have hsubmit := tickLoop_enqueues ⟨∅, ∅, 0⟩
    (fun e => heeding (Timely ticker.keys e.id) (enqueueAt ticker.keys e))
    ((ticked_enqueued ⟨∅, ∅, 0⟩).heeding htimely)
  obtain ⟨c, hc, hw, -⟩ := tick_passes ⟨∅, ∅, 0⟩ h₂ rfl (Set.notMem_empty _) (i := 0) (j := 1)
    (by decide) rfl hsubmit rfl
  refine ⟨c, ?_, occurrence_runs_once tick_ordinary (by decide +kernel) hc⟩
  rw [hw, tick_id]
  rfl

/-- One process enqueues the occurrence after it has been executed and
acknowledged, and it is executed again. -/
theorem occurrence_runs_twice : ∃ c : Pool (Option String) Request (World Ledger) Choice,
    Pool.Reachable (CronStarts (.new "") fun H => cronJobLoop H tick) Surrounds
        (World.initial 0) c ∧
      c.world.ghost.begun (tick.occurrenceId 1000000) = 2 := by
  -- two processes start before the occurrence
  have h₁ := tick_starts (fun H => cronJobLoop H tick) rfl .start rfl (i := 0) rfl
  have h₂ := tick_starts (fun H => cronJobLoop H tick) rfl h₁ rfl (i := 1) rfl
  have h₃ := h₂.next (.env (.clock 1000000))
  obtain ⟨c, hc, hw, hthreads⟩ := tick_passes ⟨∅, ∅, 0⟩ h₃ rfl (Set.notMem_empty _) (i := 0) (j := 2)
    (by decide) rfl (tickLoop_enqueues _ _ (ticked_enqueued _)) rfl
  obtain ⟨c', hc', hw', -⟩ := tick_passes _ hc hw (Set.notMem_empty _) (i := 1) (j := 3)
    (by decide) ((hthreads 1 (by decide) (by decide)).trans rfl)
    (tickLoop_enqueues _ _ (ticked_enqueued _)) ((hthreads 3 (by decide) (by decide)).trans rfl)
  refine ⟨c', hc', ?_⟩
  rw [hw', tick_id]
  rfl

end Oxana
