import Oxana.Collector
import Oxana.Delays
import Oxana.Footprint
import Oxana.Holding

/-!
# Every operation keeps to the commands of the storage

One lemma for each operation, and one for all of them (`Operation.operates`): producers, workers,
dispatchers with or without a throttle, drains, the loops of a process, recoveries, cron jobs, the
flushes of a collector and everything a dashboard can do, with any arguments, and whatever is composed
of these. Nothing is asked of queue names, of ids or of what is stored.
-/

namespace Oxana

open Redis Script Interleave Call

variable {γ α β : Type} {K : StorageKeys} {H : Handle}

/-! ## Steps -/

/-- What a step with this request does to the store: it issues commands of the storage, or it changes
nothing but counters. -/
inductive StorageWrites (K : StorageKeys) (l : Request) (s : Store) : Store → Prop
  | commands {cs : List Command} : (∀ c ∈ cs, StorageCommand K l c) →
      StorageWrites K l s (runAll cs s)
  | counters {s' : Store} : (∀ k, ¬ K.IsCounter k → s'.get k = s.get k) → StorageWrites K l s s'

section StorageSteps

variable {l : Request}

theorem StorageWrites.refl (s : Store) : StorageWrites K l s s := .counters fun _ _ => rfl

/-- A script that issues commands of the storage writes to the store what these commands write. -/
theorem StorageWrites.issued {s : Store} {x : Script α}
    (h : ∃ cs : List Command, (∀ c ∈ cs, StorageCommand K l c) ∧ (x s).2 = runAll cs s) :
    StorageWrites K l s (x s).2 := by
  obtain ⟨cs, hcs, heq⟩ := h
  rw [heq]
  exact .commands hcs

/-- What the commands of the storage keep is kept by a request, if it does not depend on counters.
-/
theorem StorageWrites.keeps {I : Store → Prop} {s s' : Store} (h : StorageWrites K l s s')
    (hI : ∀ c, StorageCommand K l c → ∀ s, I s → I (c.run s))
    (hcounters : ∀ s s' : Store, (∀ k, ¬ K.IsCounter k → s'.get k = s.get k) → I s → I s')
    (hs : I s) : I s' := by
  cases h with
  | commands hcs => exact runAll_keeps (fun c hc => hI c (hcs c hc)) hs
  | counters hsame => exact hcounters s s' hsame hs

end StorageSteps

/-- Every step of the call writes what the storage writes; what it returns satisfies `Q`. -/
abbrev Call.Operates (K : StorageKeys) (Q : α → Prop) (x : Call γ α) : Prop :=
  Call.Always (fun _ _ => True) (fun l w w' => StorageWrites K l w.store w'.store) Q x

namespace Call.Operates

theorem send {l : Request} {x : Script α} {Q : α → Prop}
    (hx : Script.Issues (StorageCommand K l) x Q) : Operates (γ := γ) K Q (send l x) :=
  Always.send (fun w _ => .issued (hx w.store).1) fun w a _ ha => (hx w.store).2 a ha

theorem pipelined {xs : List (Request × Script α)}
    (hxs : ∀ x ∈ xs, Script.Issues (StorageCommand K x.1) x.2 fun _ => True) :
    Operates (γ := γ) K (fun _ => True) (pipelined xs) :=
  (Always.pipelined (Q := fun _ _ => True) (fun x hx w _ => .issued (hxs x hx w.store).1)
    fun _ _ _ _ _ _ => trivial).mono fun _ _ => trivial

theorem pipe {l : Request} {xs : List (Script α)}
    (hxs : ∀ x ∈ xs, Script.Issues (StorageCommand K l) x fun _ => True) :
    Operates (γ := γ) K (fun _ => True) (pipe l xs) :=
  (Always.pipe (Q := fun _ _ => True) (fun x hx w _ => .issued (hxs x hx w.store).1)
    fun _ _ _ _ _ _ => trivial).mono fun _ _ => trivial

theorem now : Operates (γ := γ) K (fun _ => True) now :=
  Always.now (fun w _ => StorageWrites.refl w.store) fun _ _ => trivial

/-- A step that only reads writes nothing, so it keeps to the commands of the storage. -/
theorem same {l : Request} (w : World γ) (_ : True) : StorageWrites K l w.store w.store :=
  .refl w.store

/-- A request that only reads keeps to the commands of the storage, whatever it finds. -/
theorem read {l : Request} {x : Script α} (hx : ∀ s, (x s).2 = s) :
    Operates (γ := γ) K (fun _ => True) (Oxana.send l x) :=
  Always.read hx same fun _ _ _ _ => trivial

/-- A call that leaves the store as it is keeps to the commands of the storage, whatever it does
otherwise. -/
theorem of_reads {x : Call γ α} {Q : α → Prop}
    (hx : Call.Always (fun _ _ => True) (fun _ w w' => w'.store = w.store) Q x) :
    Operates K Q x := by
  refine hx.weaken (fun _ _ h => h) fun _ w w' _ hsame => ?_
  rw [hsame]
  exact .refl w.store

end Call.Operates

/-! ## Enqueueing -/

section Enqueue

/-- Enqueueing a chunk keeps to the commands of the storage: payloads, ready lists and the two
delayed sets. -/
theorem enqueueChunk_operates (es : List JobEnvelope) (destination : JobDestination)
    (written : List JobId) :
    Operates (γ := γ) K (fun _ => True) (enqueueChunk K es destination written) := by
  rw [enqueueChunk]
  split
  · refine (Operates.pipe fun x hx => ?_).bind fun _ _ => .pure trivial
    obtain ⟨e, -, hx⟩ := List.mem_flatMap.mp hx
    simp only [ordinaryWrites, List.mem_cons, List.not_mem_nil, or_false] at hx
    rcases hx with rfl | rfl
    · exact .hset (.hset _ .jobs)
    · cases destination with
      | queue => exact .lpush (.push e.queue trivial)
      | schedule => exact .zadd (.zadd _ _ .schedule)
  · have hloop (pending : List JobEnvelope) (n : Nat) (m : Snapshots) :
        Operates (γ := γ) K (fun _ => True) (enqueueLoop K destination pending n m) := by
      induction n generalizing m with
      | zero => exact .hang
      | succ n ih =>
        refine (Operates.send (enqueueCall_issues destination m pending)).bind fun reply _ => ?_
        split
        · exact .pure trivial
        · rcases addSnapshots_cases (γ := γ) reply.changed m with ⟨m', hm'⟩ | hm'
          · rw [hm']
            exact ih m'
          · rw [hm']
            exact .fail _
    refine Always.bind (Q := fun _ => True) ?_ fun _ _ => .pure trivial
    rw [enqueueUnique]
    split
    · exact .pure trivial
    · refine (readSnapshots_always (fun _ => Operates.same) (nodup_replacementIds _ []).1).bind
        fun m _ => (readExisting_always (fun _ => Operates.same) _).bind fun existing _ => ?_
      rw [enqueuePending]
      split
      · exact .pure trivial
      · exact .ask fun c => hloop _ _ _

theorem enqueueOne_operates (e : JobEnvelope) (destination : JobDestination) :
    Operates (γ := γ) K (fun _ => True) (enqueueOne K e destination) :=
  Always.connection.bind fun _ _ =>
    (enqueueChunk_operates [e] destination []).bind fun _ _ => .pure trivial

theorem enqueueAt_operates (e : JobEnvelope) :
    Operates (γ := γ) K (fun _ => True) (enqueueAt K e) := by
  refine Operates.now.bind fun t _ => ?_
  split
  · exact enqueueOne_operates e .queue
  · exact enqueueOne_operates e .schedule

theorem enqueueIn_operates (R : DateRange) (e : JobEnvelope) (delay : UInt64) :
    Operates (γ := γ) K (fun _ => True) (enqueueIn R K e delay) := by
  rw [enqueueIn]
  split
  · exact enqueueOne_operates e .queue
  · refine Operates.now.bind fun t _ => ?_
    split
    · exact .hang
    · exact Operates.now.bind fun t' _ => enqueueAt_operates _

theorem tryEnqueue_operates (e : JobEnvelope) :
    Operates (γ := γ) K (fun _ => True) (tryEnqueue K e) :=
  Always.connection.bind fun _ _ =>
    (enqueueChunk_operates [e] .queue []).bind fun _ _ => .pure trivial

theorem enqueueList_operates (es : List JobEnvelope) :
    Operates (γ := γ) K (fun _ => True) (enqueueList K es) := by
  rw [enqueueList]
  split
  · exact .pure trivial
  · have hchunks (cs : List (List JobEnvelope)) (written : List JobId) :
        Operates (γ := γ) K (fun _ => True) (enqueueChunks K .queue cs written) := by
      induction cs generalizing written with
      | nil => exact .pure trivial
      | cons c cs ih => exact (enqueueChunk_operates c .queue written).bind fun _ _ => ih _
    exact Always.connection.bind fun _ _ => (hchunks _ _).bind fun _ _ => .pure trivial

end Enqueue

/-! ## Claimed jobs -/

section Claims

theorem dequeue_operates (queue : String) :
    Operates (γ := γ) H.keys (fun _ => True) (dequeue H queue) :=
  Always.connection.bind fun _ _ => Operates.send (.lmove (.claim queue H.processId rfl))

theorem updateJob_operates (e : JobEnvelope) :
    Operates (γ := γ) H.keys (fun _ => True) (updateJob H e) :=
  Always.connection.bind fun _ _ => Operates.send (.hset (.hset _ .jobs))

theorem updateState_operates (id : JobId) (state : Json.Value) :
    Operates (γ := γ) H.keys (fun _ => True) (updateState H id state) := by
  refine (getJob_always Operates.same id).bind fun found _ => ?_
  cases found with
  | none => exact .fail _
  | some e => exact updateJob_operates (e.withState state)

theorem setStartedAtBatch_operates (es : List JobEnvelope) :
    Operates (γ := γ) H.keys (fun _ => True) (setStartedAtBatch H es) := by
  refine Operates.now.bind fun t _ => Always.bind (Q := fun _ => True) ?_ fun _ _ => .pure trivial
  rw [updateJobs]
  split
  · exact .pure trivial
  · exact Always.connection.bind fun _ _ => Operates.send (.hsetMultiple (.hset _ .jobs))

theorem retryIn_operates (id : JobId) (delay : UInt64) (error : String) :
    Operates (γ := γ) H.keys (fun _ => True) (retryIn H id delay error) := by
  refine Always.connection.bind fun _ _ =>
    (getJobOn_always Operates.same id).bind fun found _ => ?_
  cases found with
  | none => exact Operates.send (.lremFirst (.release H.processId id))
  | some e => exact Operates.now.bind fun t _ => Operates.send (retryFailed_issues _)

theorem kill_operates (e : JobEnvelope) (error : String) :
    Operates (γ := γ) H.keys (fun _ => True) (kill H e error) :=
  Always.connection.bind fun _ _ => Operates.send (finishDead_issues _)

theorem finishWithSuccessBatch_operates (es : List JobEnvelope) :
    Operates (γ := γ) H.keys (fun _ => True) (finishWithSuccessBatch H es) := by
  rw [finishWithSuccessBatch]
  split
  · exact .pure trivial
  · exact Always.connection.bind fun _ _ => Operates.send (finishSuccess_issues _)

/-- Every key that a scan returns matches its pattern. -/
theorem scanKeys_operates (pattern : String) (n : Nat) :
    Operates (γ := γ) K (fun keys => ∀ k ∈ keys, globMatch pattern k = true)
      (scanKeys pattern n) := by
  induction n with
  | zero => exact .hang
  | succ n ih =>
    refine .ask fun c => Always.bind (Q := fun keys => ∀ k ∈ keys, globMatch pattern k = true) ?_
      fun keys hkeys => ?_
    · refine .read (fun _ => rfl) Operates.same fun w keys _ hkeys k hk => ?_
      obtain rfl := Except.ok.inj hkeys
      exact (of_decide_eq_true (List.mem_filter.mp hk).2).2
    · split
      · exact .pure hkeys
      · refine ih.bind fun more hmore => .pure fun k hk => ?_
        exact (List.mem_append.mp hk).elim (hkeys k) (hmore k)

theorem deleteJob_operates (id : JobId) :
    Operates (γ := γ) H.keys (fun _ => True) (deleteJob H id) := by
  refine Always.connection.bind fun _ _ =>
    (Operates.read (fun s => hget_snd ..)).bind fun raw _ => ?_
  have hkeys : Operates (γ := γ) H.keys (fun keys => ∀ k ∈ keys, H.keys.IsIds k)
      (queueKeysOf H.keys raw) := by
    cases raw with
    | none => exact .pure fun _ hk => absurd hk List.not_mem_nil
    | some p =>
      rw [queueKeysOf]
      split
      · next q _ =>
        refine .pure fun k hk => ?_
        rw [List.mem_singleton.mp hk]
        exact .ready q
      · exact .ask fun c => (scanKeys_operates _ _).mono fun keys h k hk => .found (h k hk)
  refine hkeys.bind fun keys hkeys => Operates.send (transaction_issues fun x hx => ?_)
  rcases List.mem_append.mp hx with hx | hx
  · simp only [List.mem_cons, List.not_mem_nil, or_false] at hx
    rcases hx with rfl | rfl | rfl | rfl
    · exact .hdel (.hdel _ .jobs)
    · exact .zrem (.zrem _ .schedule)
    · exact .zrem (.zrem _ .retry)
    · exact .lremAll (.remove (.processing H.processId) rfl)
  · obtain ⟨k, hk, rfl⟩ := List.mem_map.mp hx
    exact .lremAll (.remove (hkeys k hk) rfl)

end Claims

/-! ## Executing jobs -/

section Execution

theorem runProcess_operates (ids : List JobId) (n : Nat) :
    Operates (γ := γ) H.keys (fun _ => True) (runProcess H ids n) := by
  induction n with
  | zero => exact .pure trivial
  | succ n ih =>
    refine .ask fun c => ?_
    split
    · exact .pure trivial
    · exact (updateState_operates _ _).catching (fun _ _ => ih) fun _ => ih

theorem handleErrs_operates (message : String) (es : List JobEnvelope) :
    Operates (γ := γ) H.keys (fun _ => True) (handleErrs H message es) := by
  induction es with
  | nil => exact .pure trivial
  | cons e es ih =>
    refine .ask fun c => Always.bind (Q := fun _ => True) ?_ fun _ _ => ih
    rw [handleErr]
    split
    · exact retryIn_operates _ _ _
    · exact kill_operates _ _

theorem finishBatchResult_operates (result : ExecutionResult) (es : List JobEnvelope) :
    Operates (γ := γ) H.keys (fun _ => True) (finishBatchResult H result es) := by
  cases result with
  | success => exact finishWithSuccessBatch_operates es
  | failed message => exact handleErrs_operates message es
  | panicked message => exact handleErrs_operates message es

theorem processPending_operates (es : List JobEnvelope) :
    Operates (γ := γ) H.keys (fun _ => True) (processPending H es) := by
  have hvalid : Operates (γ := γ) H.keys (fun _ => True) (killInvalid H es) := by
    induction es with
    | nil => exact .pure trivial
    | cons e es ih =>
      refine .ask fun c => ?_
      split
      · exact (kill_operates e _).bind fun _ _ => ih
      · exact ih.bind fun _ _ => .pure trivial
  refine hvalid.bind fun valid _ => ?_
  rw [runBatch]
  split
  · exact .pure trivial
  · exact .ask fun c => (setStartedAtBatch_operates _).bind fun started _ =>
      (runProcess_operates _ _).bind fun _ _ => finishBatchResult_operates _ _

theorem loadPendingJob_operates (id : JobId) :
    Operates (γ := γ) H.keys (fun _ => True) (loadPendingJob H id) := by
  refine (getClaimedJob_always Operates.same id).bind fun found _ => ?_
  cases found with
  | none => exact (deleteJob_operates id).bind fun _ _ => .pure trivial
  | some e => exact .pure trivial

/-- A worker keeps to the commands of the storage, whatever its jobs come to. -/
theorem worker_operates (queues : List String) :
    Operates (γ := γ) H.keys (fun _ => True) (worker H queues) := by
  have hgather (n : Nat) (claimed : List JobId) (loaded : List JobEnvelope) :
      Operates (γ := γ) H.keys (fun _ => True) (gather H queues n claimed loaded) := by
    induction n generalizing claimed loaded with
    | zero => exact .pure trivial
    | succ n ih =>
      refine .ask fun c => ?_
      split
      · exact .pure trivial
      · split
        · exact (loadPendingJob_operates _).bind fun _ _ => ih _ _
        · exact .pure trivial
        · exact (dequeue_operates _).bind fun _ _ => ih _ _
  exact .ask fun c => (hgather _ _ _).bind fun es _ => processPending_operates es

end Execution

/-! ## Sweeps, recovery and retention -/

section Sweeps

theorem promoteScheduledJobs_operates {set : Key} (hset : K.IsSet set)
    (jobs : List (JobId × Int)) :
    Operates (γ := γ) K (fun _ => True) (promoteScheduledJobs K set jobs) := by
  induction jobs with
  | nil => exact .pure trivial
  | cons job jobs ih =>
    have hone : Operates (γ := γ) K (fun _ => True) (promoteOne K set job.1 job.2) := by
      refine (transitionSnapshot_always Operates.same job.1).catching
        (fun found _ => Operates.send (promoteScheduled_issues hset _)) fun e => ?_
      split
      · next h => cases h
      · exact .pure trivial
      · exact .fail _
    exact hone.bind fun _ _ => ih.bind fun _ _ => .pure trivial

theorem enqueueScheduled_operates {set : Key} (hset : K.IsSet set) :
    Operates (γ := γ) K (fun _ => True) (enqueueScheduled K set) :=
  Operates.now.bind fun _ _ => Always.connection.bind fun _ _ =>
    (Operates.read (fun _ => zrangeByScore_snd ..)).bind fun jobs _ =>
      promoteScheduledJobs_operates hset jobs

theorem retryAllNow_operates : Operates (γ := γ) K (fun _ => True) (retryAllNow K) :=
  Always.connection.bind fun _ _ =>
    (Operates.read (fun _ => zrangeWithScores_snd ..)).bind fun jobs _ =>
      promoteScheduledJobs_operates .retry jobs

theorem unregister_operates {l : Request} (p : String) :
    Operates (γ := γ) K (fun _ => True) (pipe l (unregister K p)) := by
  refine Operates.pipe fun x hx => ?_
  simp only [unregister, List.mem_cons, List.not_mem_nil, or_false] at hx
  rcases hx with rfl | rfl
  · exact .zrem (.zrem _ .processes)
  · exact .hdel (.hdel _ .processesData)

/-- A sweep keeps to the commands of the storage. -/
theorem resurrect_operates (threshold : Nat) :
    Operates (γ := γ) K (fun _ => True) (resurrect K threshold) := by
  refine Always.connection.bind fun _ _ => ?_
  refine ((deadProcessIds_found threshold).weaken (fun _ _ h => h) fun _ w w' _ hsame => ?_).bind
    fun dead _ => (resurrectProcesses_steps fun _ h => h).weaken (fun _ _ h => h)
      fun _ w w' _ hstep => ?_
  · rw [hsame]
    exact .refl w.store
  · cases hstep with
    | reads => exact .refl _
    | resurrects hp queue id payload again => exact .issued (resurrectClaim_issues again _).1
    | unregisters hp hx =>
      simp only [unregister, List.mem_cons, List.not_mem_nil, or_false] at hx
      rcases hx with rfl | rfl
      · exact .issued (Issues.zrem (.zrem _ .processes) _).1
      · exact .issued (Issues.hdel (.hdel _ .processesData) _).1

theorem ping_operates (record : String) :
    Operates (γ := γ) H.keys (fun _ => True) (ping H record) := by
  refine Always.connection.bind fun _ _ => Operates.now.bind fun t _ =>
    (Operates.pipe fun x hx => ?_).bind fun _ _ => .pure trivial
  simp only [List.mem_cons, List.not_mem_nil, or_false] at hx
  rcases hx with rfl | rfl
  · exact .zadd (.zadd _ _ .processes)
  · exact .hset (.hset _ .processesData)

theorem selfCleanup_operates : Operates (γ := γ) H.keys (fun _ => True) (selfCleanup H) :=
  Always.connection.bind fun _ _ => (unregister_operates H.processId).bind fun _ _ => .pure trivial

/-- The cleanup of old keys deletes fields of payloads and keys of its own namespace only. -/
theorem cleanup_operates : Operates (γ := γ) K (fun _ => True) (cleanup K) := by
  refine Always.connection.bind fun _ _ => Operates.now.bind fun t _ => ?_
  have hpages (t : Int) (n : Nat) (ids : List JobId) :
      Operates (γ := γ) K (fun _ => True) (cleanupPages K t n ids) := by
    induction n generalizing ids with
    | zero => exact .hang
    | succ n ih =>
      refine .ask fun c => (Operates.read (fun s => onKind_read ..)).bind fun page _ => ?_
      split
      · exact .pure trivial
      · exact ih _
  refine Always.bind (Q := fun _ => True) (.ask fun c => hpages _ _ _) fun ids _ => ?_
  rw [cleanupDrop]
  split
  · exact (Operates.send (.hdel (.hdel _ .jobs))).bind fun _ _ => .pure trivial
  · exact .pure trivial

theorem register_operates (record : String) :
    Operates (γ := γ) H.keys (fun _ => True) (register H record) :=
  .ask fun c => registerRounds_always (ping_operates record) c.rounds

/-- A loop that polls does what its operation does, however often it goes round. -/
theorem loop_operates {operation : Call γ α} (h : Operates K (fun _ => True) operation) :
    Operates K (fun _ => True) (ask fun c => pollRedis operation c.rounds) :=
  .ask fun c => pollRedis_always h c.rounds

theorem processJob_operates (id : JobId) :
    Operates (γ := γ) H.keys (fun _ => True) (processJob H id) := by
  refine (getJob_always Operates.same id).bind fun found _ => ?_
  cases found with
  | none => exact .pure trivial
  | some e =>
    refine .ask fun c => ?_
    split
    · exact .fail _
    · refine Always.bind (Q := fun _ => True) ?_ fun e' _ =>
        (runProcess_operates _ _).bind fun _ _ => ?_
      · rw [startOver]
        split
        · exact .pure trivial
        · exact (updateJob_operates _).bind fun _ _ => .pure trivial
      · cases c.result with
        | success => exact (finishWithSuccessBatch_operates _).bind fun _ _ => .pure trivial
        | failed error => exact (kill_operates _ _).bind fun _ _ => .pure trivial
        | panicked _ => exact .hang

/-- A drain keeps to the commands of the storage, with its heartbeat and its removal at the end. -/
theorem drain_operates (processId record queue : String) :
    Operates (γ := γ) H.keys (fun _ => True) (drain H processId record queue) := by
  have hqueue (n : Nat) (stats : DrainStats) : Operates (γ := γ) H.keys (fun _ => True)
      (drainQueue (H.forNewProcess processId) queue n stats) := by
    induction n generalizing stats with
    | zero => exact .hang
    | succ n ih =>
      refine (dequeue_operates (H := H.forNewProcess processId) queue).bind fun found _ => ?_
      cases found with
      | none => exact .pure trivial
      | some id =>
        exact (processJob_operates (H := H.forNewProcess processId) id).bind fun _ _ => ih _
  have hcleanup (stats : Except OxanaError DrainStats) : Operates (γ := γ) H.keys (fun _ => True)
      (do selfCleanup (H.forNewProcess processId); Prog.ret stats) := by
    refine (selfCleanup_operates (H := H.forNewProcess processId)).bind fun _ _ => ?_
    exact fun _ _ => trivial
  have hpings : Operates (γ := γ) H.keys (fun _ => True)
      (pingLoop (H.forNewProcess processId) record) :=
    .ask fun c => pollRedis_always (ping_operates (H := H.forNewProcess processId) record) c.rounds
  have hrun : Operates (γ := γ) H.keys (fun _ => True) (Call.beside
      (ask fun c => drainQueue (H.forNewProcess processId) queue c.rounds {})
      (pingLoop (H.forNewProcess processId) record)) :=
    Always.beside (Always.ask fun c => hqueue _ _) hpings
  exact (ping_operates (H := H.forNewProcess processId) record).bind fun _ _ =>
    hrun.catching (fun stats _ => hcleanup _) fun e => hcleanup _

end Sweeps

/-! ## Cron jobs -/

section Cron

theorem cronWait_operates (lookahead : Nat) (next : Int64) (previous : Option Int64) (n : Nat) :
    Operates (γ := γ) K (fun _ => True) (cronWait lookahead next previous n) := by
  induction n with
  | zero => exact .hang
  | succ n ih =>
    refine .ask fun c => ?_
    split
    · exact .pure trivial
    · refine Operates.now.bind fun t _ => ?_
      split
      · exact ih
      · split
        · exact ih
        · exact .pure trivial

theorem uniqueCron_operates (id : JobId) (scheduledAt : Int64) (n : Nat) (observed : Bool) :
    Operates (γ := γ) H.keys (fun _ => True) (uniqueCron H id scheduledAt n observed) := by
  induction n generalizing observed with
  | zero => exact .hang
  | succ n ih =>
    refine .ask fun c => ?_
    split
    · exact .pure trivial
    · refine (trackRedisResult_always (getJob_always Operates.same id)).bind fun found _ => ?_
      cases found with
      | none => exact ih _
      | some existing =>
        refine Operates.now.bind fun t _ => ?_
        cases uniqueCronAction existing.isSome observed scheduledAt t with
        | skip => exact .pure trivial
        | wait => exact ih _
        | enqueue => exact .pure trivial

theorem cronEnqueue_operates {submit : Call γ JobId} (h : Operates K (fun _ => True) submit)
    (n : Nat) : Operates K (fun _ => True) (cronEnqueue submit n) := by
  induction n with
  | zero => exact .hang
  | succ n ih =>
    refine .ask fun c => ?_
    split
    · exact .pure trivial
    · refine (trackRedisResult_always h).bind fun sent _ => ?_
      cases sent with
      | some _ => exact .pure trivial
      | none => exact ih

/-- The loop of a cron job keeps to the commands of the storage, whatever slots it meets. -/
theorem cronJobLoop_operates (C : CronJob) (settings : CronSettings) :
    Operates (γ := γ) H.keys (fun _ => True) (cronJobLoop H C settings) := by
  suffices ∀ (start : Int) (n i : Nat) (previous : Option Int64),
      Operates (γ := γ) H.keys (fun _ => True)
        (cronOccurrences H C settings (enqueueAt H.keys) start n i previous) from
    Operates.now.bind fun t _ => .ask fun c => this _ _ _ _
  intro start n
  induction n with
  | zero => exact fun _ _ => .hang
  | succ n ih =>
    intro i previous
    rw [cronOccurrences]
    split
    · exact .pure trivial
    · next time _ =>
      refine .ask fun c => (cronWait_operates _ _ _ _).bind fun due _ => ?_
      split
      swap
      · exact .pure trivial
      refine Operates.now.bind fun t _ => ?_
      split
      · exact .fail _
      · next e unique _ =>
        have hsent : Operates (γ := γ) H.keys (fun _ => True) (ask fun c => do
            let sent ← cronEnqueue (enqueueAt H.keys e) c.rounds
            if sent then
              cronOccurrences H C settings (enqueueAt H.keys) start n (i + 1) (some time)
            else pure ()) := by
          refine .ask fun c => (cronEnqueue_operates (enqueueAt_operates e) _).bind fun sent _ => ?_
          split
          · exact ih _ _
          · exact .pure trivial
        simp only
        split
        · refine Always.bind (Q := fun _ => True) (.ask fun c => uniqueCron_operates _ _ _ _)
            fun wanted _ => ?_
          rcases wanted with _ | _ | _
          · exact .pure trivial
          · exact ih _ _
          · exact hsent
        · exact hsent

end Cron

/-! ## The dashboard -/

section Dashboard

theorem wipeQueue_operates (queue : String) :
    Operates (γ := γ) K (fun _ => True) (wipeQueue K queue) := by
  refine Always.connection.bind fun _ _ =>
    (Operates.read (fun s => lrange_snd ..)).bind fun ids _ => ?_
  split
  · refine (Operates.pipelined fun x hx => ?_).bind fun _ _ => .pure trivial
    simp only [List.mem_cons, List.not_mem_nil, or_false] at hx
    rcases hx with rfl | rfl
    · exact .hdel (.hdel _ .jobs)
    · exact .del (.drop (.ready queue) rfl)
  · exact Operates.send (.del (.drop (.ready queue) rfl))

variable (K) in
/-- `wipe_dead`: the dead list is dropped. -/
def wipeDead : Call γ Unit := do
  connection
  send .del (del K.dead)

theorem wipeDead_operates : Operates (γ := γ) K (fun _ => True) (wipeDead K) :=
  Always.connection.bind fun _ _ => Operates.send (.del (.drop .dead rfl))

/-- Reviving all dead jobs keeps to the commands of the storage: the claimed list is one of its
namespace as well. -/
theorem reviveAllDead_operates (uuid : String) :
    Operates (γ := γ) K (fun _ => True) (reviveAllDead K (claimKeyOf K uuid)) := by
  have hrestore (entries : List String) : Operates (γ := γ) K (fun _ => True)
      (restoreClaimedDeadEntries K (claimKeyOf K uuid) entries) := by
    refine Always.connection.bind fun _ _ => ?_
    split
    · exact Operates.send (.del (.drop (.claim uuid) rfl))
    · refine (Operates.pipelined fun x hx => ?_).bind fun _ _ => .pure trivial
      simp only [List.mem_cons, List.not_mem_nil, or_false] at hx
      rcases hx with rfl | rfl
      · exact .command _ (.putBack entries) fun _ => rfl
      · exact .del (.drop (.claim uuid) rfl)
  have hentries (entries : List String) (n : Nat) : Operates (γ := γ) K (fun _ => True)
      (reviveEntries K (claimKeyOf K uuid) entries n) := by
    induction entries generalizing n with
    | nil => exact .pure trivial
    | cons x entries ih =>
      rw [reviveEntries]
      split
      · exact ih n
      · refine (enqueueOne_operates _ .queue).catching (fun _ _ => ih _) fun e => ?_
        exact (hrestore _).catching (fun _ _ => .fail _) fun _ => .fail _
  refine Always.connection.bind fun _ _ =>
    (Operates.send (claimDead_issues uuid)).bind fun claimed _ => ?_
  split
  · exact (Operates.read (fun s => lrange_snd ..)).bind fun entries _ =>
      (hentries _ _).bind fun n _ => Always.connection.bind fun _ _ =>
        (Operates.send (.del (.drop (.claim uuid) rfl))).bind fun _ _ => .pure trivial
  · exact .pure trivial

theorem setQueueConfig_operates (queue : String) (config : QueueRuntimeConfig) :
    Operates (γ := γ) K (fun _ => True) (setQueueConfig K queue config) :=
  Always.connection.bind fun _ _ => Operates.send (.hset (.hset _ .queueConfigs))

variable (K) in
/-- `reset_queue_config`: the configuration of a queue is dropped. -/
def resetQueueConfig (queue : String) : Call γ Unit := do
  connection
  send .hdel (hdel K.queueConfigs [queue])

theorem resetQueueConfig_operates (queue : String) :
    Operates (γ := γ) K (fun _ => True) (resetQueueConfig K queue) :=
  Always.connection.bind fun _ _ => Operates.send (.hdel (.hdel _ .queueConfigs))

theorem readQueueConfig_operates (l : Request) (queue : String) :
    Operates (γ := γ) K (fun _ => True) (readQueueConfig K l queue) := by
  refine Always.connection.bind fun _ _ =>
    (Operates.read (fun s => hget_snd ..)).bind fun text _ => ?_
  cases text with
  | none => exact .pure trivial
  | some text =>
    rw [parsedConfig]
    split
    · exact .pure trivial
    · exact .fail _

theorem setQueueState_operates (queueKey : String) (q : QueueConfig) (state : QueueState) :
    Operates (γ := γ) K (fun _ => True) (setQueueState K queueKey q state) :=
  (readQueueConfig_operates .hget queueKey).bind fun _ _ => setQueueConfig_operates _ _

theorem setQueueConcurrency_operates (queueKey : String) (q : QueueConfig)
    (concurrency : UInt64) :
    Operates (γ := γ) K (fun _ => True) (setQueueConcurrency K queueKey q concurrency) := by
  have hvalid : Operates (γ := γ) K (fun _ => True)
      (validateDynamicConcurrency queueKey q.concurrency) := by
    rw [validateDynamicConcurrency]
    split
    · exact .pure trivial
    · exact .fail _
  have hdefault : Operates (γ := γ) K (fun _ => True)
      (runtimeConcurrencyResetDefault K queueKey q) := by
    rw [runtimeConcurrencyResetDefault]
    split
    · exact .pure trivial
    · split
      · exact .pure trivial
      · exact (readQueueConfig_operates .hgetBase _).bind fun _ _ => .pure trivial
  refine hvalid.bind fun _ _ => hdefault.bind fun n _ =>
    (readQueueConfig_operates .hget queueKey).bind fun existing _ => ?_
  split
  · exact .pure trivial
  · exact setQueueConfig_operates _ _

end Dashboard

/-! ## All of them -/

/-- What may run against the server, with any arguments. -/
inductive Operation : StorageKeys → {α : Type} → Call γ α → Prop
  | enqueue (K : StorageKeys) (e : JobEnvelope) : Operation K (enqueue K e)
  | tryEnqueue (K : StorageKeys) (e : JobEnvelope) : Operation K (tryEnqueue K e)
  | enqueueAt (K : StorageKeys) (e : JobEnvelope) : Operation K (enqueueAt K e)
  | enqueueIn (K : StorageKeys) (R : DateRange) (e : JobEnvelope) (delay : UInt64) :
      Operation K (enqueueIn R K e delay)
  | enqueueList (K : StorageKeys) (es : List JobEnvelope) : Operation K (enqueueList K es)
  | cron (H : Handle) (C : CronJob) (settings : CronSettings) :
      Operation H.keys (cronJobLoop H C settings)
  | worker (H : Handle) (queues : List String) : Operation H.keys (worker H queues)
  | dequeue (H : Handle) (queue : String) : Operation H.keys (dequeue H queue)
  /-- a handler saves its state -/
  | updateState (H : Handle) (id : JobId) (state : Json.Value) :
      Operation H.keys (updateState H id state)
  | drain (H : Handle) (processId record queue : String) :
      Operation H.keys (drain H processId record queue)
  | register (H : Handle) (record : String) : Operation H.keys (register H record)
  | pings (H : Handle) (record : String) : Operation H.keys (pingLoop H record)
  | schedules (K : StorageKeys) : Operation K (scheduleLoop K)
  | retries (K : StorageKeys) : Operation K (retryLoop K)
  | cleanups (K : StorageKeys) : Operation K (cleanupLoop K)
  | resurrections (K : StorageKeys) (threshold : Nat) : Operation K (resurrectLoop K threshold)
  | selfCleanup (H : Handle) : Operation H.keys (selfCleanup H)
  | deleteJob (H : Handle) (id : JobId) : Operation H.keys (deleteJob H id)
  | retryAllNow (K : StorageKeys) : Operation K (retryAllNow K)
  | wipeQueue (K : StorageKeys) (queue : String) : Operation K (wipeQueue K queue)
  | wipeDead (K : StorageKeys) : Operation K (wipeDead K)
  | reviveAllDead (K : StorageKeys) (uuid : String) :
      Operation K (reviveAllDead K (claimKeyOf K uuid))
  | setQueueConfig (K : StorageKeys) (queue : String) (config : QueueRuntimeConfig) :
      Operation K (setQueueConfig K queue config)
  | resetQueueConfig (K : StorageKeys) (queue : String) : Operation K (resetQueueConfig K queue)
  | setQueueState (K : StorageKeys) (queueKey : String) (q : QueueConfig) (state : QueueState) :
      Operation K (setQueueState K queueKey q state)
  | setQueueConcurrency (K : StorageKeys) (queueKey : String) (q : QueueConfig)
      (concurrency : UInt64) : Operation K (setQueueConcurrency K queueKey q concurrency)
  /-- anything that reads -/
  | reads (K : StorageKeys) {α : Type} {x : Call γ α} :
      Call.Always (fun _ _ => True) (fun _ w w' => w'.store = w.store) (fun _ => True) x →
      Operation K x
  /-- anything that changes counters only, such as a flush or a throttler -/
  | counts (K : StorageKeys) {α : Type} {x : Call γ α} :
      Call.Always (fun _ _ => True)
        (fun _ w w' => ∀ k, ¬ K.IsCounter k → w'.store.get k = w.store.get k) (fun _ => True) x →
      Operation K x
  /-- one after the other -/
  | bind {K : StorageKeys} {α β : Type} {x : Call γ α} {f : α → Call γ β} :
      Operation K x → (∀ a, Operation K (f a)) → Operation K (x >>= f)

/-- **Every operation keeps to the commands of the storage.** -/
theorem Operation.operates {x : Call γ α} (h : Operation K x) :
    Operates K (fun _ => True) x := by
  induction h with
  | enqueue _ e => exact enqueueOne_operates e .queue
  | tryEnqueue _ e => exact tryEnqueue_operates e
  | enqueueAt _ e => exact enqueueAt_operates e
  | enqueueIn _ R e delay => exact enqueueIn_operates R e delay
  | enqueueList _ es => exact enqueueList_operates es
  | cron H C settings => exact cronJobLoop_operates C settings
  | worker H queues => exact worker_operates queues
  | dequeue H queue => exact dequeue_operates queue
  | updateState H id state => exact updateState_operates id state
  | drain H processId record queue => exact drain_operates processId record queue
  | register H record => exact register_operates record
  | pings H record => exact loop_operates (ping_operates record)
  | schedules _ => exact loop_operates (enqueueScheduled_operates .schedule)
  | retries _ => exact loop_operates (enqueueScheduled_operates .retry)
  | cleanups _ => exact loop_operates cleanup_operates
  | resurrections _ threshold => exact loop_operates (resurrect_operates threshold)
  | selfCleanup H => exact selfCleanup_operates
  | deleteJob H id => exact deleteJob_operates id
  | retryAllNow _ => exact retryAllNow_operates
  | wipeQueue _ queue => exact wipeQueue_operates queue
  | wipeDead _ => exact wipeDead_operates
  | reviveAllDead _ uuid => exact reviveAllDead_operates uuid
  | setQueueConfig _ queue config => exact setQueueConfig_operates queue config
  | resetQueueConfig _ queue => exact resetQueueConfig_operates queue
  | setQueueState _ queueKey q state => exact setQueueState_operates queueKey q state
  | setQueueConcurrency _ queueKey q concurrency =>
    exact setQueueConcurrency_operates queueKey q concurrency
  | reads _ h => exact .of_reads h
  | counts _ h => exact h.weaken (fun _ _ h => h) fun _ _ _ _ hsame => .counters hsame
  | bind _ _ ihx ihf => exact ihx.bind fun a _ => ihf a

/-! ## Dispatchers with a throttle -/

/-- `pop_queue_message_w_throttle`, without the wait that ends a pop without a job. The two pipelines of
the throttler are calls of their own: `state` answers whether the queue may be claimed from, and
`consume` records a claim, given what the claimed job costs. -/
def popQueueMessageWThrottle (H : Handle) (queue : String) (state : Call γ Bool)
    (consume : Option UInt64 → Call γ Unit) : Call γ (Option JobId) := do
  let allowed ← state
  if allowed then do
    let found ← dequeue H queue
    match found with
    | none => pure none
    | some id => do
      let envelope ← getClaimedJob H id
      consume (envelope.bind (·.jobMeta.throttleCost))
      pure (some id)
  else pure none

/-- A dispatcher with a throttle is made of operations: what the throttle writes, the claims and the
counting of them. -/
theorem Operation.popQueueMessageWThrottle {queue : String} {state : Call γ Bool}
    {consume : Option UInt64 → Call γ Unit} (hstate : Operation H.keys state)
    (hconsume : ∀ cost, Operation H.keys (consume cost)) :
    Operation H.keys (popQueueMessageWThrottle H queue state consume) := by
  have hpure {α : Type} (a : α) : Operation H.keys (pure a : Call γ α) := .reads _ (.pure trivial)
  have hread (id : JobId) : Operation H.keys (getClaimedJob H id : Call γ _) :=
    .reads _ ((getClaimedJob_always (fun _ _ => rfl) id).mono fun _ _ => trivial)
  refine hstate.bind fun allowed => ?_
  cases allowed with
  | false => exact hpure none
  | true =>
    refine (Operation.dequeue H queue).bind fun found => ?_
    cases found with
    | none => exact hpure none
    | some id => exact (hread id).bind fun _ => (hconsume _).bind fun _ => hpure _

/-! ## Flushes -/

section Flushes

variable {c : CounterCommand}

theorem isCounter_metrics {name : String} (rest : String) (h : name = ":" ++ rest) :
    K.IsCounter (K.metricsPrefix ++ name) := by
  rw [h, ← String.append_assoc]
  exact .metrics rest

theorem isCounter_counterKey (minute : Int) : K.IsCounter (K.metricsCounterKey minute) := by
  rw [StorageKeys.metricsCounterKey, String.append_assoc]
  exact isCounter_metrics ("j:" ++ toString minute) (by rw [← String.append_assoc]; rfl)

theorem isCounter_queueCounterKey (minute : Int) :
    K.IsCounter (K.metricsQueueCounterKey minute) := by
  rw [StorageKeys.metricsQueueCounterKey, String.append_assoc]
  exact isCounter_metrics ("qc:" ++ toString minute) (by rw [← String.append_assoc]; rfl)

theorem isCounter_histogramKey (identity : MetricIdentity) (minute : Int) :
    K.IsCounter (K.metricsHistogramKey identity minute) := by
  rw [StorageKeys.metricsHistogramKey, String.append_assoc, String.append_assoc,
    String.append_assoc]
  exact isCounter_metrics ("h:" ++ (identity.fieldKey ++ (":" ++ toString minute)))
    (by rw [← String.append_assoc]; rfl)

theorem incrementCommands_key {ι : Type} {key : Key} {field : ι → String}
    {increments : List (ι × ℕ)} (h : c ∈ incrementCommands key field increments) : c.key = key := by
  obtain ⟨e, -, he⟩ := List.mem_filterMap.mp h
  split at he
  · obtain rfl := Option.some.inj he
    rfl
  · cases he

/-- The metrics of a minute are flushed to keys of metrics, for workers, queues and histograms
alike. -/
theorem flushJobMetrics_counters {records : List ((Int × MetricIdentity) × PendingJobMetrics)}
    {queueRecords : List ((Int × String) × QueueCounterTotals)}
    (h : c ∈ flushJobMetrics K records queueRecords) : K.IsCounter c.key := by
  rcases List.mem_append.mp h with h | h
  · obtain ⟨e, -, h⟩ := List.mem_flatMap.mp h
    simp only [recordCommands, List.append_assoc, List.mem_append, List.mem_singleton] at h
    rcases h with h | rfl | h
    · rw [incrementCommands_key h]
      exact isCounter_counterKey _
    · exact isCounter_counterKey _
    · split at h
      · simp only [List.mem_cons, List.not_mem_nil, or_false] at h
        rcases h with rfl | rfl
        · exact isCounter_histogramKey _ _
        · exact isCounter_histogramKey _ _
      · cases h
  · obtain ⟨e, -, h⟩ := List.mem_flatMap.mp h
    simp only [queueRecordCommands, List.mem_append, List.mem_singleton] at h
    rcases h with h | rfl
    · rw [incrementCommands_key h]
      exact isCounter_queueCounterKey _
    · exact isCounter_queueCounterKey _

/-- The results of jobs are flushed to the totals and to the counters of their queues. -/
theorem flushResultStats_counters {stats : List (String × QueueResultStats)}
    (h : c ∈ flushResultStats K stats) : K.IsCounter c.key := by
  obtain ⟨e, -, h⟩ := List.mem_flatMap.mp h
  obtain ⟨v, -, hv⟩ := List.mem_filterMap.mp h
  split at hv
  · obtain rfl := Option.some.inj hv
    exact .stats
  · cases hv

/-- A pipeline of commands on counters is an operation, whatever these do to their own keys. -/
theorem Operation.pipe_counters {run : CounterCommand → Script α} {cs : List CounterCommand}
    (hrun : ∀ c s k, k ≠ c.key → (run c s).2.get k = s.get k)
    (hcs : ∀ c ∈ cs, K.IsCounter c.key) (l : Request) :
    Operation (γ := γ) K (pipe l (cs.map run)) := by
  refine .counts K ((Always.pipe (Q := fun _ _ => True) (fun x hx w _ k hk => ?_)
    fun _ _ _ _ _ _ => trivial).mono fun _ _ => trivial)
  obtain ⟨c, hc, rfl⟩ := List.mem_map.mp hx
  refine hrun c w.store k fun heq => hk ?_
  rw [heq]
  exact hcs c hc

/-- The flushes of a collector are such pipelines, one for each of its buffers. -/
theorem Operation.flush {run : CounterCommand → Script α}
    (hrun : ∀ c s k, k ≠ c.key → (run c s).2.get k = s.get k) (l : Request)
    (records : List ((Int × MetricIdentity) × PendingJobMetrics))
    (queueRecords : List ((Int × String) × QueueCounterTotals))
    (stats : List (String × QueueResultStats)) :
    Operation (γ := γ) K (pipe l ((flushJobMetrics K records queueRecords).map run)) ∧
      Operation (γ := γ) K (pipe l ((flushResultStats K stats).map run)) :=
  ⟨.pipe_counters hrun (fun _ h => flushJobMetrics_counters h) l,
    .pipe_counters hrun (fun _ h => flushResultStats_counters h) l⟩

end Flushes

end Oxana
