import Oxana.Deletion

/-!
# What a worker does

Said once: every step of a worker on jobs it has claimed either leaves the world
alone or is one of seven writes (`WorkStep`). Results about workers that do not
depend on the order of their steps are case analyses over these.
-/

namespace Oxana

open Redis Script Interleave Call

variable {γ : Type} {H : Handle}

/-- The requests of a worker that only read. -/
def Request.Reads (l : Request) : Prop := l = .now ∨ l = .hget ∨ l = .scan

/-- What a step of `delete_job` does to the world. -/
inductive DeleteStep (H : Handle) (id : JobId) : Request → World γ → World γ → Prop where
  /-- it reads -/
  | reads {l : Request} {w : World γ} : l.Reads → DeleteStep H id l w w
  /-- the transaction -/
  | deletes {w : World γ} (queueKeys : List Key) :
      DeleteStep H id (.transaction id) w (w.after (H.deletion id queueKeys))

theorem deleteJob_steps (id : JobId) :
    Call.Always (fun _ _ => True) (DeleteStep H id) (fun _ => True)
      (deleteJob H id : Call γ Unit) := by
  refine Always.connection.bind fun _ _ => ?_
  refine (Always.read (Q := fun _ => True) (fun s => hget_snd ..)
    (fun _ _ => .reads (.inr (.inl rfl))) fun _ _ _ _ => trivial).bind fun raw _ => ?_
  refine (queueKeysOf_always (fun _ _ => .reads (.inr (.inr rfl))) raw).bind fun queueKeys _ => ?_
  exact .send (fun _ _ => .deletes queueKeys) fun _ _ _ _ => trivial

/-- What a step of a worker does to the world, by its request. -/
inductive WorkStep (H : Handle) : Request → World γ → World γ → Prop where
  /-- it reads -/
  | reads {l : Request} {w : World γ} : l.Reads → WorkStep H l w w
  /-- `update_state` -/
  | keeps {w : World γ} (e : JobEnvelope) :
      WorkStep H (.update [e.id]) w (w.after (hset H.keys.jobs e.id e.encode))
  /-- `set_started_at_batch` -/
  | starts {w : World γ} (es : List JobEnvelope) :
      WorkStep H (.update (es.map (·.id))) w
        (w.after (hsetMultiple H.keys.jobs (es.map fun e => (e.id, e.encode))))
  /-- `retry_in` without a payload -/
  | releases {w : World γ} (id : JobId) :
      WorkStep H .lrem w (w.after (lremFirst H.currentProcessingQueue id))
  /-- `retry_in` -/
  | retries {w : World γ} (e : JobEnvelope) (score : Int) :
      WorkStep H (.retryFailed e.id) w (w.after
        (retryFailed H.keys.jobs H.keys.retry H.currentProcessingQueue e.id e.encode score))
  /-- `finish_with_success_batch` -/
  | finishes {w : World γ} (ids : List JobId) :
      WorkStep H (.finishSuccess ids) w
        (w.after (finishSuccess H.keys.jobs H.currentProcessingQueue ids))
  /-- `kill` -/
  | kills {w : World γ} (e : JobEnvelope) :
      WorkStep H (.finishDead e.id) w (w.after (finishDead H.keys.jobs H.keys.dead
        H.currentProcessingQueue e.id e.encode (H.deadJobLimit.getD 0)))
  /-- `delete_job` -/
  | deletes {w : World γ} (id : JobId) (queueKeys : List Key) :
      WorkStep H (.transaction id) w (w.after (H.deletion id queueKeys))

/-- Every step of the call is one of a worker. -/
abbrev Steps {α : Type} (H : Handle) (x : Call γ α) : Prop :=
  Call.Always (fun _ _ => True) (WorkStep H) (fun _ => True) x

/-- A request that is a write of a worker is a step of a worker. -/
theorem Steps.write {α : Type} {l : Request} {x : Script α}
    (h : ∀ w : World γ, WorkStep H l w (w.after x)) :
    Steps (γ := γ) H (send l x) :=
  .send (fun w _ => h w) fun _ _ _ _ => trivial

/-- The steps of deleting a job are steps of a worker. -/
theorem DeleteStep.workStep {id : JobId} {l : Request} {w w' : World γ}
    (h : DeleteStep H id l w w') : WorkStep H l w w' := by
  cases h with
  | reads hl => exact .reads hl
  | deletes queueKeys => exact .deletes id queueKeys

/-- A read of a payload is a step of a worker. -/
theorem WorkStep.hget (w : World γ) (_ : True) : WorkStep H .hget w w := .reads (.inr (.inl rfl))

/-- A look at the clock is a step of a worker. -/
theorem Steps.now {Q : Int → Prop} (hQ : ∀ t, Q t) :
    Call.Always (fun _ _ => True) (WorkStep H) Q (now : Call γ Int) :=
  .now (fun _ _ => .reads (.inl rfl)) fun w _ => hQ w.clock

theorem loadPendingJob_steps (id : JobId) : Steps (γ := γ) H (loadPendingJob H id) := by
  refine (getClaimedJob_always WorkStep.hget id).bind fun found _ => ?_
  rcases found with _ | e
  · refine Always.bind (Q := fun _ => True) ?_ fun _ _ => .pure trivial
    exact (deleteJob_steps id).weaken (fun _ _ h => h) fun _ _ _ _ hstep => hstep.workStep
  · exact .pure trivial

theorem kill_steps (e : JobEnvelope) (error : String) : Steps (γ := γ) H (kill H e error) :=
  Always.connection.bind fun _ _ => Steps.write fun _ => .kills (e.withError error)

theorem retryIn_steps (id : JobId) (delay : UInt64) (error : String) :
    Steps (γ := γ) H (retryIn H id delay error) := by
  refine Always.connection.bind fun _ _ => ?_
  refine (getJobOn_always WorkStep.hget id).bind fun found _ => ?_
  rcases found with _ | e
  · exact Steps.write fun _ => .releases id
  · refine (Steps.now (Q := fun _ => True) fun _ => trivial).bind fun t _ => ?_
    exact Steps.write fun _ => .retries (e.withRetriesIncremented error) _

theorem handleErr_steps (message : String) (e : JobEnvelope) (delay : UInt64)
    (maxRetries : UInt32) : Steps (γ := γ) H (handleErr H message e delay maxRetries) := by
  simp only [handleErr]
  split
  · exact retryIn_steps e.id delay message
  · exact kill_steps e message

theorem handleErrs_steps (message : String) (es : List JobEnvelope) :
    Steps (γ := γ) H (handleErrs H message es) := by
  induction es with
  | nil => exact .pure trivial
  | cons e es ih => exact .ask fun c => (handleErr_steps message e _ _).bind fun _ _ => ih

theorem finishBatchResult_steps (result : ExecutionResult) (es : List JobEnvelope) :
    Steps (γ := γ) H (finishBatchResult H result es) := by
  cases result with
  | success =>
    show Steps H (finishWithSuccessBatch H es)
    simp only [finishWithSuccessBatch]
    split
    · exact .pure trivial
    · exact Always.connection.bind fun _ _ => Steps.write fun _ => .finishes (es.map (·.id))
  | failed message => exact handleErrs_steps message es
  | panicked message => exact handleErrs_steps message es

theorem updateState_steps (id : JobId) (state : Json.Value) :
    Steps (γ := γ) H (updateState H id state) := by
  refine (getJob_always WorkStep.hget id).bind fun found _ => ?_
  rcases found with _ | e
  · exact .fail _
  · exact Always.connection.bind fun _ _ => Steps.write fun _ => .keeps (e.withState state)

theorem runProcess_steps (ids : List JobId) (n : Nat) :
    Steps (γ := γ) H (runProcess H ids n) := by
  induction n with
  | zero => exact .pure trivial
  | succ n ih =>
    refine .ask fun c => ?_
    split
    · exact .pure trivial
    · next id _ => exact (updateState_steps id c.state).catching (fun _ _ => ih) fun _ => ih

theorem setStartedAtBatch_steps (es : List JobEnvelope) :
    Steps (γ := γ) H (setStartedAtBatch H es) := by
  refine (Steps.now (Q := fun _ => True) fun _ => trivial).bind fun t _ => ?_
  refine Always.bind (Q := fun _ => True) ?_ fun _ _ => .pure trivial
  simp only [updateJobs]
  split
  · exact .pure trivial
  · exact Always.connection.bind fun _ _ => Steps.write fun _ => .starts _

theorem runBatch_steps (es : List JobEnvelope) : Steps (γ := γ) H (runBatch H es) := by
  simp only [runBatch]
  split
  · exact .pure trivial
  · refine .ask fun c => (setStartedAtBatch_steps _).bind fun started _ => ?_
    exact (runProcess_steps _ _).bind fun _ _ => finishBatchResult_steps _ _

theorem killInvalid_steps (es : List JobEnvelope) : Steps (γ := γ) H (killInvalid H es) := by
  induction es with
  | nil => exact .pure trivial
  | cons e es ih =>
    refine .ask fun c => ?_
    split
    · exact (kill_steps e _).bind fun _ _ => ih
    · exact ih.bind fun _ _ => .pure trivial

theorem processPending_steps (es : List JobEnvelope) :
    Steps (γ := γ) H (processPending H es) :=
  (killInvalid_steps es).bind fun valid _ => runBatch_steps valid

theorem workOn_steps (ids : List JobId) : Steps (γ := γ) H (workOn H ids) := by
  refine Always.bind (Q := fun _ => True) ?_ fun es _ => processPending_steps es
  induction ids with
  | nil => exact .pure trivial
  | cons id ids ih =>
    exact (loadPendingJob_steps id).bind fun found _ => ih.bind fun loaded _ => .pure trivial

/-! ## What the steps do to a job -/

/-- The job comes to wait nowhere, except for a retry. -/
def JobView.Stays (v v' : JobView) : Prop :=
  ∀ l : Loc, l.Waiting → l ≠ .retry → v'.places l ≤ v.places l

theorem JobView.Wanes.stays {v v' : JobView} (h : v.Wanes v') : v.Stays v' := fun l _ _ => h.2 l

/-- The request is one that stores a payload for the job: an update of it, or its return to the
retry set. -/
def Request.Stores (l : Request) (id : JobId) : Prop :=
  (∃ ids, l = .update ids ∧ id ∈ ids) ∨ l = .retryFailed id

/-- What a step of a worker does to the jobs of the store. -/
structure WorkStep.Does (K : StorageKeys) (l : Request) (s s' : Store) : Prop where
  /-- the keys have their types -/
  typed : StoreTyped K s'
  /-- no job comes to wait, except for a retry -/
  stays : ∀ id, (jobView K s id).Stays (jobView K s' id)
  /-- unless its payload is stored, it does not come back -/
  wanes : ∀ id, ¬ l.Stores id → (jobView K s id).Wanes (jobView K s' id)

section Does

variable {K : StorageKeys} {s s' : Store} {l : Request}

theorem WorkStep.Does.of_wanes (htyped : StoreTyped K s')
    (h : ∀ id, (jobView K s id).Wanes (jobView K s' id)) : WorkStep.Does K l s s' :=
  ⟨htyped, fun id => (h id).stays, fun id _ => h id⟩

theorem WorkStep.Does.refl (hs : StoreTyped K s) : WorkStep.Does K l s s :=
  .of_wanes hs fun _ => .refl _

theorem wanes_acknowledged (v : JobView) (l : Loc) : v.Wanes (v.forget.leave l) :=
  v.wanes_forget.trans (v.forget.wanes_leave l)

/-- What acknowledging jobs does to each job. -/
structure Acknowledges (K : StorageKeys) (processId : String) (ids : List JobId) (s s' : Store) :
    Prop where
  /-- the keys have their types -/
  typed : StoreTyped K s'
  /-- the jobs lose their payloads -/
  payload : ∀ id ∈ ids, payloadOf K.jobs s' id = none
  /-- a job loses no place but claims of the process -/
  places : ∀ id loc, loc ≠ .processing processId → occ K s' id loc = occ K s id loc
  /-- nothing else happens -/
  others : ∀ id, id ∉ ids → jobView K s' id = jobView K s id
  /-- nothing comes back -/
  wanes : ∀ id, (jobView K s id).Wanes (jobView K s' id)

/-- Acknowledging a job takes its payload and its claim, and changes nothing of the others. -/
theorem acknowledges_one {f : JobView → JobView} {processId : String} {id : JobId}
    (hch : Changes K s id f s') (hf : ∀ v, f v = v.forget.leave (.processing processId)) :
    Acknowledges K processId [id] s s' := by
  have hview : jobView K s' id = (jobView K s id).forget.leave (.processing processId) := by
    rw [hch.eq, hf]
  refine ⟨hch.typed, fun id' hid => ?_, fun id' loc hloc => ?_, fun id' hid => hch.ne ?_,
    hch.wanes fun v => ?_⟩
  · rw [List.mem_singleton.mp hid]
    exact congrArg JobView.payload hview
  · by_cases hid : id' = id
    · subst hid
      refine (congrArg (fun v => v.places loc) hview).trans ?_
      exact Function.update_of_ne hloc ..
    · exact congrArg (fun v => v.places loc) (hch.ne hid)
  · simpa using hid
  · rw [hf]
    exact wanes_acknowledged v _

/-- Acknowledging several jobs takes the payload and the claim of each of them. -/
theorem acknowledges_all (hs : StoreTyped K s) (processId : String) (ids : List JobId) :
    Acknowledges K processId ids s
      (ids.foldl (acknowledge K.jobs (K.processingQueue processId)) s) := by
  induction ids generalizing s with
  | nil =>
    exact ⟨hs, fun _ h => absurd h List.not_mem_nil, fun _ _ _ => rfl, fun _ _ => rfl,
      fun _ => .refl _⟩
  | cons id ids ih =>
    have hone := acknowledges_one (Changes.acknowledged id hs processId) fun _ => rfl
    have hrest := ih hone.typed
    refine ⟨hrest.typed, fun id' hid => ?_, fun id' loc hloc => ?_, fun id' hid => ?_,
      fun id' => (hone.wanes id').trans (hrest.wanes id')⟩
    · by_cases hmem : id' ∈ ids
      · exact hrest.payload id' hmem
      · have hsame := congrArg JobView.payload (hrest.others id' hmem)
        refine hsame.trans (hone.payload id' ?_)
        simpa [hmem] using hid
    · exact (hrest.places id' loc hloc).trans (hone.places id' loc hloc)
    · simp only [List.mem_cons, not_or] at hid
      exact (hrest.others id' hid.2).trans (hone.others id' (by simpa using hid.1))

/-- Storing payloads moves no job, and does nothing to the jobs that are not stored. -/
theorem storeAll_does (hs : StoreTyped K s) (es : List JobEnvelope) :
    WorkStep.Does K (.update (es.map (·.id))) s (s.put K.jobs (.hash
      ((es.map fun e => (e.id, e.encode)).foldl (fun m p => setField p.1 p.2 m)
        (s.hash K.jobs)))) := by
  refine ⟨hs.put_jobs _, fun id l _ _ => ?_, fun id hl => ?_⟩
  · rw [jobView_put_jobs]
    exact le_refl _
  · have hid : id ∉ (es.map fun e => (e.id, e.encode)).map (·.1) := by
      rw [List.map_map]
      exact fun hmem => hl (.inl ⟨_, rfl, hmem⟩)
    rw [jobView_put_jobs, lookup_foldl_setField hid]
    exact .refl _

end Does

/-- **What the steps of a worker do to the jobs.** -/
theorem WorkStep.does {l : Request} {w w' : World γ} (h : WorkStep H l w w')
    (hs : StoreTyped H.keys w.store) : WorkStep.Does H.keys l w.store w'.store := by
  have hp := StorageKeys.processing_ne_fixed (K := H.keys) H.processId
  cases h with
  | reads => exact .refl hs
  | keeps e =>
    rw [World.after, hset_ok hs.jobs]
    exact storeAll_does hs [e]
  | starts es =>
    rw [World.after, hsetMultiple, onKind_ok hs.jobs]
    exact storeAll_does hs es
  | releases id =>
    have hch := Changes.erase id (l := .processing H.processId) hs trivial rfl
    have hfits : w.store.Fits (H.keys.processingQueue H.processId) .list :=
      hs.places (.processing H.processId) trivial
    rw [World.after, Handle.currentProcessingQueue, lremFirst_ok hfits]
    exact .of_wanes hch.typed (hch.wanes fun v => v.wanes_leave _)
  | retries e score =>
    rw [World.after, Handle.currentProcessingQueue]
    rcases retryFailed_cases (s := w.store) StorageKeys.jobs_ne_retry hp.1.symm hp.2.2.2.symm
      e.id e.encode score with ⟨m, hm⟩ | ⟨-, -, -, hrun⟩
    · rw [hm]
      exact .refl hs
    · have hch := Changes.retried e.id hs H.processId e.encode score
      rw [hrun]
      refine ⟨hch.typed, fun id => ?_, fun id hl => ?_⟩
      swap
      · rw [hch.ne fun hid => hl (.inr (congrArg Request.retryFailed hid.symm))]
        exact .refl _
      rw [hch.view]
      split
      · intro l _ hl
        have hsame : (((jobView H.keys w.store id).store e.encode).enter .retry).places l =
            (jobView H.keys w.store id).places l := Function.update_of_ne hl ..
        rw [← hsame]
        exact (JobView.wanes_leave _ _).2 l
      · exact fun _ _ _ => le_refl _
  | finishes ids =>
    rw [World.after, Handle.currentProcessingQueue]
    rcases finishSuccess_cases (s := w.store) hp.1.symm ids with ⟨m, hm⟩ | ⟨-, -, hrun⟩
    · rw [hm]
      exact .refl hs
    · rw [hrun]
      have hack := acknowledges_all hs H.processId ids
      exact .of_wanes hack.typed hack.wanes
  | kills e =>
    rw [World.after, Handle.currentProcessingQueue]
    rcases finishDead_cases (s := w.store) StorageKeys.jobs_ne_dead hp.1.symm hp.2.1.symm e.id
      e.encode (H.deadJobLimit.getD 0) with ⟨m, hm⟩ | ⟨-, -, -, hrun⟩
    · rw [hm]
      exact .refl hs
    · rw [hrun]
      have hch := Changes.buried e.id hs H.processId
      exact .of_wanes (hch _).typed ((hch _).wanes fun v => wanes_acknowledged v _)
  | deletes id queueKeys =>
    have hdel := deletion_deletes id hs queueKeys
    exact .of_wanes hdel.typed hdel.wanes

end Oxana
