import Oxana.Custody
import Oxana.Executor

/-!
# Workers keep to the discipline

A worker owns the jobs it has claimed from the moment it moves them to the
processing list of its process to the moment it finishes, retries or buries
them. In between it may write their payloads as often as it likes: nobody else
touches them, so what it has claimed stays stored, and the branches for a
missing payload are never taken.
-/

namespace Oxana

open Redis Script Interleave Call

variable {H : Handle} {U : Set JobId} {w : World Ledger}

/-- The executions of the process go on. -/
def Handle.Live (H : Handle) (w : World Ledger) : Prop := H.processId ∉ w.ghost.ended

/-- The call keeps to the discipline on behalf of its process. -/
abbrev Works {α : Type} (H : Handle) (U : Set JobId) (Q : α → Set Custody → Prop)
    (R : Set Custody → Prop) (T : Set Custody) (x : Call Ledger α) : Prop :=
  Call.Keeps (custody H.keys U) (some H.processId) H.Live Q R T x

/-- The tokens of the claims of a worker. -/
abbrev Handle.claims (H : Handle) (ids : List JobId) : Set Custody :=
  Custody.claims H.processId ids

theorem Handle.claims_mine {ids : List JobId} : ∀ t ∈ H.claims ids,
    Custody.Mine (some H.processId) t := by
  rintro t ⟨id, -, rfl⟩
  rfl

theorem Handle.claims_held {ids : List JobId}
    (hT : ∀ t ∈ H.claims ids, (custody H.keys U).owns t w) :
    ∀ t ∈ H.claims ids, (custody H.keys U).owns t w ∧ Custody.Mine (some H.processId) t :=
  fun t ht => ⟨hT t ht, Handle.claims_mine t ht⟩

theorem Handle.claims_perm {ids ids' : List JobId} (h : ids.Perm ids') :
    H.claims ids = H.claims ids' := by
  ext t
  exact exists_congr fun id => and_congr_left fun _ => h.mem_iff (a := id)

/-- What is claimed is stored, is on the processing list, and is nowhere else. -/
theorem Handle.claims_view {ids : List JobId} {id : JobId} (hinv : PlacementInv H.keys U w)
    (hT : ∀ t ∈ H.claims ids, (custody H.keys U).owns t w) (hid : id ∈ ids) :
    ∃ p, jobView H.keys w.store id = ⟨some p, only (.processing H.processId)⟩ ∧
      GoodPayload H.keys id p := by
  have hocc : occ H.keys w.store id (.processing H.processId) ≠ 0 := (hT _ ⟨id, hid, rfl⟩).2
  exact hinv.at_place hocc

/-- The worker holds these claims, no more and no less. -/
def Handle.Holding (H : Handle) (ids : List JobId) (T : Set Custody) : Prop := T = H.claims ids

/-! ## Reads -/

/-- The envelope of a job that may be worked on. -/
def GoodEnvelope (K : StorageKeys) (id : JobId) (e : JobEnvelope) : Prop :=
  e.id = id ∧ K.Plain e.queue

/-- A claimed job has been read, and what was found is what was stored. -/
def Handle.Loads (H : Handle) (ids : List JobId) (id : JobId) (found : Option JobEnvelope)
    (T : Set Custody) : Prop :=
  H.Holding ids T ∧ ∃ e, found = some e ∧ GoodEnvelope H.keys id e

section Reads

variable {ids : List JobId} {id : JobId}

/-- Taking the snapshot of a claimed job keeps its claim. -/
theorem transitionSnapshot_works (hid : id ∈ ids) :
    Works H U (fun found => H.Loads ids id (found.map (·.2))) (H.Holding ids) (H.claims ids)
      (transitionSnapshot H.keys id) := by
  refine Keeps.bind (Q := fun found T => H.Holding ids T ∧
      ∃ p, found = some p ∧ GoodPayload H.keys id p) (R := H.Holding ids) ?_ ?_ fun _ h => h
  · refine .send rfl (.read Handle.claims_mine (fun s => hget_snd ..) rfl ?_)
    intro w a hinv _ hT ha
    obtain ⟨p, hv, hgood⟩ := Handle.claims_view hinv hT hid
    have hpay : payloadOf H.keys.jobs w.store id = some p := congrArg JobView.payload hv
    obtain ⟨-, rfl⟩ := onKind_inv ha
    exact ⟨rfl, p, hpay, hgood⟩
  · rintro _ _ ⟨rfl, p, rfl, e, hdec, hgood⟩
    have hdecoded : (decoded p : Call Ledger JobEnvelope) = pure e := by
      rw [decoded, hdec]
    show Works H U _ _ _ (decoded p >>= fun e => pure (some (p, e)))
    rw [hdecoded]
    exact .pure ⟨rfl, e, rfl, hgood⟩

theorem getJobOn_works (hid : id ∈ ids) :
    Works H U (H.Loads ids id) (H.Holding ids) (H.claims ids) (getJobOn H id) :=
  (transitionSnapshot_works hid).bind (fun _ _ h => .pure h) fun _ h => h

theorem getJob_works (hid : id ∈ ids) :
    Works H U (H.Loads ids id) (H.Holding ids) (H.claims ids) (getJob H id) := by
  refine Keeps.bind (R := H.Holding ids) (.connection rfl) ?_ fun _ h => h
  rintro _ _ rfl
  exact getJobOn_works hid

theorem getClaimedJob_works (hid : id ∈ ids) :
    Works H U (H.Loads ids id) (H.Holding ids) (H.claims ids) (getClaimedJob H id) := by
  refine .ask fun c => ?_
  induction c.rounds with
  | zero => exact getJob_works hid
  | succ n ih =>
    refine (getJob_works hid).catching (fun a T h => .pure h) ?_
    rintro e _ rfl
    rcases e with ⟨_ | _⟩ | _ | _ | _ | _
    · exact Keeps.fail (R := H.Holding ids) rfl _
    · exact ih
    · exact Keeps.fail (R := H.Holding ids) rfl _
    · exact Keeps.fail (R := H.Holding ids) rfl _
    · exact Keeps.fail (R := H.Holding ids) rfl _
    · exact Keeps.fail (R := H.Holding ids) rfl _

/-- What is claimed can be loaded, since its payload is stored and decodes. -/
theorem loadPendingJob_works (hid : id ∈ ids) :
    Works H U (H.Loads ids id) (fun _ => True) (H.claims ids) (loadPendingJob H id) := by
  refine (getClaimedJob_works hid).bind ?_ fun _ _ => trivial
  rintro _ _ ⟨rfl, e, rfl, hgood⟩
  exact .pure ⟨rfl, e, rfl, hgood⟩

end Reads

/-! ## Writes -/

section Writes

variable {ids ids' : List JobId} {id : JobId} {e : JobEnvelope}

theorem goodPayload_encode (h : GoodEnvelope H.keys id e) : GoodPayload H.keys id e.encode :=
  ⟨e.normalize, decode_encode e, h.1, h.2⟩

/-- One write to a claimed job keeps the other claims, and this one if the job stays claimed. -/
theorem Handle.claims_trade {s' : Store} {f : JobView → JobView} (hinv : PlacementInv H.keys U w)
    (hT : ∀ t ∈ H.claims ids, (custody H.keys U).owns t w) (hid : id ∈ ids)
    (hch : Changes H.keys w.store id f s')
    (hok : ∀ p, GoodPayload H.keys id p → (id ∉ U → id ∈ w.ghost.issued) →
      JobOk H.keys U w.ghost.issued id (f ⟨some p, only (.processing H.processId)⟩) ∧
        (id ∈ ids' → (f ⟨some p, only (.processing H.processId)⟩).places
          (.processing H.processId) ≠ 0))
    (hsub : ∀ id' ∈ ids', id' ∈ ids) :
    (custody H.keys U).Trades (some H.processId) (H.claims ids) (H.claims ids') w
      { w with store := s' } := by
  obtain ⟨p, hv, hgood⟩ := Handle.claims_view hinv hT hid
  obtain ⟨hok, hleft⟩ := hok p hgood (hinv.issued_of_stored hv)
  rw [← hv] at hok hleft
  exact Custody.trade_claimed hinv (Handle.claims_held hT) hid hch hok hsub hleft

/-- A new payload for a claimed job keeps all claims. -/
theorem Handle.claims_store (hinv : PlacementInv H.keys U w)
    (hT : ∀ t ∈ H.claims ids, (custody H.keys U).owns t w) (hid : id ∈ ids)
    (he : GoodEnvelope H.keys id e) :
    (custody H.keys U).Trades (some H.processId) (H.claims ids) (H.claims ids) w
      { w with
        store := w.store.put H.keys.jobs
          (.hash (setField id e.encode (w.store.hash H.keys.jobs))) } := by
  refine Handle.claims_trade hinv hT hid (.setField _ hinv.typed _) (fun p _ hknown => ?_)
    fun _ h => h
  refine ⟨.at_place (goodPayload_encode he) hknown _, fun _ => ?_⟩
  simp

theorem updateJob_works (hid : e.id ∈ ids) (hq : H.keys.Plain e.queue) :
    Works H U (fun _ => H.Holding ids) (H.Holding ids) (H.claims ids) (updateJob H e) := by
  refine Keeps.bind (R := H.Holding ids) (.connection rfl) ?_ fun _ h => h
  rintro _ _ rfl
  refine .send rfl fun w hinv _ hT => ⟨H.claims ids, ?_, rfl, fun _ _ => rfl⟩
  rw [World.after, hset_ok hinv.typed.jobs]
  exact Handle.claims_store hinv hT hid ⟨rfl, hq⟩

/-- Keeping a state for a claimed job keeps all claims. -/
theorem updateState_works (hid : id ∈ ids) (state : Json.Value) :
    Works H U (fun _ => H.Holding ids) (H.Holding ids) (H.claims ids)
      (updateState H id state) := by
  refine (getJob_works hid).bind ?_ fun _ h => h
  rintro _ _ ⟨rfl, e, rfl, hgood⟩
  exact updateJob_works (e := e.withState state) (hgood.1.symm ▸ hid) hgood.2

/-- Whatever states the handler keeps, the claims are kept. -/
theorem runProcess_works (hsub : ∀ id ∈ ids', id ∈ ids) (n : Nat) :
    Works H U (fun _ => H.Holding ids) (fun _ => True) (H.claims ids) (runProcess H ids' n) := by
  induction n with
  | zero => exact .pure rfl
  | succ n ih =>
    refine .ask fun c => ?_
    split
    · exact .pure rfl
    · next id hid =>
      have hmem : id ∈ ids := hsub id (List.mem_of_getElem? hid)
      refine (updateState_works hmem c.state).catching ?_ ?_
      · rintro _ _ rfl
        exact ih
      · rintro _ _ rfl
        exact ih

/-- Storing several payloads at once is storing them one after the other. -/
theorem Handle.claims_storeAll {es : List JobEnvelope} (hinv : PlacementInv H.keys U w)
    (hT : ∀ t ∈ H.claims ids, (custody H.keys U).owns t w)
    (hes : ∀ e ∈ es, e.id ∈ ids ∧ H.keys.Plain e.queue) :
    (custody H.keys U).Trades (some H.processId) (H.claims ids) (H.claims ids) w
      { w with
        store := w.store.put H.keys.jobs (.hash ((es.map fun e => (e.id, e.encode)).foldl
          (fun m p => setField p.1 p.2 m) (w.store.hash H.keys.jobs))) } := by
  induction es generalizing w with
  | nil =>
    refine Custody.trade_nothing hinv (Handle.claims_held hT) (hinv.typed.put_jobs _) fun id => ?_
    rw [jobView_put_jobs]
    rfl
  | cons e es ih =>
    obtain ⟨hid, hq⟩ := hes e (List.mem_cons_self ..)
    have h₁ := Handle.claims_store (e := e) hinv hT hid ⟨rfl, hq⟩
    have h₂ := ih h₁.inv h₁.owns fun e' he => hes e' (List.mem_cons_of_mem _ he)
    have := h₁.trans h₂
    simpa using this

theorem setStartedAtBatch_works {es : List JobEnvelope}
    (hes : ∀ e ∈ es, e.id ∈ ids ∧ H.keys.Plain e.queue) :
    Works H U (fun started T => H.Holding ids T ∧ started.map (·.id) = es.map (·.id) ∧
        ∀ e ∈ started, H.keys.Plain e.queue)
      (fun _ => True) (H.claims ids) (setStartedAtBatch H es) := by
  refine Keeps.bind (R := fun _ => True) (.now Handle.claims_mine) ?_ fun _ h => h
  rintro t _ rfl
  have hstarted : ∀ e ∈ es.map (·.withStartedAt (Int64.ofInt t)),
      e.id ∈ ids ∧ H.keys.Plain e.queue := by
    intro e' he'
    obtain ⟨e, he, rfl⟩ := List.mem_map.mp he'
    exact hes e he
  refine Keeps.bind (Q := fun _ => H.Holding ids) (R := fun _ => True) ?_ ?_ fun _ h => h
  · simp only [updateJobs]
    split
    · exact .pure rfl
    · refine Keeps.bind (R := fun _ => True) (.connection trivial) ?_ fun _ h => h
      rintro _ _ rfl
      refine .send trivial fun w hinv _ hT => ⟨H.claims ids, ?_, trivial, fun _ _ => rfl⟩
      rw [World.after, hsetMultiple, onKind_ok hinv.typed.jobs]
      exact Handle.claims_storeAll hinv hT hstarted
  · rintro _ _ rfl
    refine .pure ⟨rfl, ?_, fun e he => (hstarted e he).2⟩
    rw [List.map_map]
    rfl

end Writes

/-! ## Ends -/

section Ends

variable {ids : List JobId} {id : JobId} {e : JobEnvelope}

/-- A write that takes a claimed job away gives up its claim, and no other. -/
theorem Handle.claims_finish (hinv : PlacementInv H.keys U w) (hnd : (id :: ids).Nodup)
    (hT : ∀ t ∈ H.claims (id :: ids), (custody H.keys U).owns t w) {s' : Store}
    (hch : Changes H.keys w.store id (fun v => v.forget.leave (.processing H.processId)) s') :
    (custody H.keys U).Trades (some H.processId) (H.claims (id :: ids)) (H.claims ids) w
      { w with store := s' } := by
  refine Handle.claims_trade hinv hT (List.mem_cons_self ..) hch (fun p _ _ => ?_)
    fun _ h => List.mem_cons_of_mem _ h
  refine ⟨?_, fun h => absurd h (List.nodup_cons.mp hnd).1⟩
  rw [JobView.forget_mk, JobView.leave_only]
  exact .gone

/-- Giving a job up gives up its claim. -/
theorem kill_works (hnd : (e.id :: ids).Nodup) (error : String) :
    Works H U (fun _ => H.Holding ids) (fun _ => True) (H.claims (e.id :: ids))
      (kill H e error) := by
  have hp := StorageKeys.processing_ne_fixed (K := H.keys) H.processId
  refine Keeps.bind (R := fun _ => True) (.connection trivial) ?_ fun _ h => h
  rintro _ _ rfl
  refine .send trivial fun w hinv _ hT => ?_
  rcases finishDead_cases (s := w.store) StorageKeys.jobs_ne_dead hp.1.symm hp.2.1.symm
    (e.withError error).id (e.withError error).encode (H.deadJobLimit.getD 0)
    with hno | ⟨-, -, -, hrun⟩
  · exact hno.sends hinv hT Handle.claims_mine trivial
  · refine ⟨H.claims ids, ?_, trivial, fun _ _ => rfl⟩
    rw [World.after, Handle.currentProcessingQueue, hrun]
    exact Handle.claims_finish hinv hnd hT (.buried _ hinv.typed _ _)

/-- A retry gives up the claim of the job, since it is in the retry set then. -/
theorem retryIn_works (hnd : (id :: ids).Nodup) (delay : UInt64) (error : String) :
    Works H U (fun _ => H.Holding ids) (fun _ => True) (H.claims (id :: ids))
      (retryIn H id delay error) := by
  have hp := StorageKeys.processing_ne_fixed (K := H.keys) H.processId
  refine Keeps.bind (R := fun _ => True) (.connection trivial) ?_ fun _ h => h
  rintro _ _ rfl
  refine (getJobOn_works (List.mem_cons_self ..)).bind ?_ fun _ _ => trivial
  rintro _ _ ⟨rfl, e, rfl, hid, hq⟩
  refine Keeps.bind (R := fun _ => True) (.now Handle.claims_mine) ?_ fun _ h => h
  rintro t _ rfl
  subst hid
  refine .send trivial fun w hinv _ hT => ?_
  rcases retryFailed_cases (s := w.store) StorageKeys.jobs_ne_retry hp.1.symm hp.2.2.2.symm
    (e.withRetriesIncremented error).id (e.withRetriesIncremented error).encode
    (retryScore t delay) with hno | ⟨-, -, -, hrun⟩
  · exact hno.sends hinv hT Handle.claims_mine trivial
  · refine ⟨H.claims ids, ?_, trivial, fun _ _ => rfl⟩
    rw [World.after, Handle.currentProcessingQueue, hrun]
    refine Handle.claims_trade hinv hT (List.mem_cons_self ..) (.retried _ hinv.typed _ _ _)
      (fun p _ hknown => ?_) fun _ h => List.mem_cons_of_mem _ h
    refine ⟨?_, fun h => absurd h (List.nodup_cons.mp hnd).1⟩
    rw [JobView.store_mk, JobView.leave_enter Loc.noConfusion, JobView.leave_only,
      JobView.enter_zero]
    exact .at_place (goodPayload_encode (e := e.withRetriesIncremented error) ⟨rfl, hq⟩) hknown _

/-- What follows an error gives up the claim of the job in any case. -/
theorem handleErr_works (hnd : (e.id :: ids).Nodup) (message : String) (delay : UInt64)
    (maxRetries : UInt32) :
    Works H U (fun _ => H.Holding ids) (fun _ => True) (H.claims (e.id :: ids))
      (handleErr H message e delay maxRetries) := by
  simp only [handleErr]
  split
  · exact retryIn_works hnd delay message
  · exact kill_works hnd message

theorem handleErrs_works {es : List JobEnvelope} (hnd : (es.map (·.id)).Nodup)
    (message : String) :
    Works H U (fun _ _ => True) (fun _ => True) (H.claims (es.map (·.id)))
      (handleErrs H message es) := by
  induction es with
  | nil => exact .pure trivial
  | cons e es ih =>
    refine .ask fun c => ?_
    refine (handleErr_works hnd message c.delay c.maxRetries).bind ?_ fun _ h => h
    rintro _ _ rfl
    exact ih (List.nodup_cons.mp hnd).2

/-- Several acknowledgments at once are several acknowledgments, one after the other. -/
theorem Handle.claims_finishAll (hinv : PlacementInv H.keys U w) (hnd : ids.Nodup)
    (hT : ∀ t ∈ H.claims ids, (custody H.keys U).owns t w) :
    (custody H.keys U).Trades (some H.processId) (H.claims ids) (H.claims []) w
      { w with
        store := ids.foldl (acknowledge H.keys.jobs (H.keys.processingQueue H.processId))
          w.store } := by
  induction ids generalizing w with
  | nil => exact .refl hinv hT Handle.claims_mine
  | cons id ids ih =>
    have h₁ := Handle.claims_finish hinv hnd hT (.acknowledged _ hinv.typed _)
    exact h₁.trans (ih h₁.inv (List.nodup_cons.mp hnd).2 h₁.owns)

theorem finishWithSuccessBatch_works {es : List JobEnvelope} (hnd : (es.map (·.id)).Nodup) :
    Works H U (fun _ _ => True) (fun _ => True) (H.claims (es.map (·.id)))
      (finishWithSuccessBatch H es) := by
  have hp := StorageKeys.processing_ne_fixed (K := H.keys) H.processId
  simp only [finishWithSuccessBatch]
  split
  · exact .pure trivial
  · refine Keeps.bind (R := fun _ => True) (.connection trivial) ?_ fun _ h => h
    rintro _ _ rfl
    refine .send trivial fun w hinv _ hT => ?_
    rcases finishSuccess_cases (s := w.store) hp.1.symm (es.map (·.id)) with hno | ⟨-, -, hrun⟩
    · exact hno.sends hinv hT Handle.claims_mine trivial
    · refine ⟨H.claims [], ?_, trivial, fun _ _ => trivial⟩
      rw [World.after, Handle.currentProcessingQueue, hrun]
      exact Handle.claims_finishAll hinv hnd hT

/-- However a batch has ended, the claims of all its jobs are given up. -/
theorem finishBatchResult_works {es : List JobEnvelope} (hnd : (es.map (·.id)).Nodup)
    (result : ExecutionResult) :
    Works H U (fun _ _ => True) (fun _ => True) (H.claims (es.map (·.id)))
      (finishBatchResult H result es) := by
  cases result with
  | success => exact finishWithSuccessBatch_works hnd
  | failed message => exact handleErrs_works hnd message
  | panicked message => exact handleErrs_works hnd message

end Ends

/-! ## A whole batch -/

section Batch

variable {ids : List JobId} {id : JobId}

/-- A job that waits on a ready list may be claimed by a process that runs. -/
theorem Handle.claims_new (hinv : PlacementInv H.keys U w) (hlive : H.Live w)
    (hT : ∀ t ∈ H.claims ids, (custody H.keys U).owns t w) {queue : String}
    (hocc : occ H.keys w.store id (.ready queue) ≠ 0) {s' : Store}
    (hch : Changes H.keys w.store id
      (fun v => (v.leave (.ready queue)).join (.processing H.processId)) s') :
    id ∉ ids ∧ (custody H.keys U).Trades (some H.processId) (H.claims ids)
      (H.claims (id :: ids)) w { w with store := s' } := by
  obtain ⟨p, hv, hgood⟩ := hinv.at_place hocc
  have hnobody : ∀ t : Custody, t.id = id → ¬ (custody H.keys U).owns t w := by
    intro t ht
    rw [← ht] at hv
    exact Custody.unowned hv fun _ h => nomatch h
  have hview : ((jobView H.keys w.store id).leave (.ready queue)).join (.processing H.processId) =
      ⟨some p, only (.processing H.processId)⟩ := by
    rw [hv, JobView.leave_only, JobView.join_zero]
  refine ⟨fun hid => hnobody _ rfl (hT _ ⟨id, hid, rfl⟩), ?_⟩
  refine Custody.trade_one hinv (Handle.claims_held hT) hch ?_
    (fun t ht hown => absurd hown (hnobody t ht)) ?_ ?_
  · rw [hview]
    exact .at_place hgood (hinv.issued_of_stored hv) _
  · rintro t ⟨id', hid', rfl⟩ hne
    exact ⟨id', (List.mem_cons.mp hid').resolve_left hne, rfl⟩
  · rintro t ⟨id', -, rfl⟩ rfl
    rw [hview]
    exact ⟨⟨hlive, by simp⟩, rfl, fun _ => hnobody _ rfl⟩

/-- Claiming a job from a plain queue gives the process one claim more, or none if the list is
empty. -/
theorem dequeue_works (hnd : ids.Nodup) {queue : String} (hq : H.keys.Plain queue) :
    Works H U (fun found T => H.Holding (found.toList ++ ids) T ∧ (found.toList ++ ids).Nodup)
      (fun _ => True) (H.claims ids) (dequeue H queue) := by
  refine Keeps.bind (R := fun _ => True) (.connection trivial) ?_ fun _ h => h
  rintro _ _ rfl
  refine .send trivial fun w hinv hlive hT => ?_
  rcases lmove_cases (H.keys.namespaceQueue queue) H.currentProcessingQueue w.store
    with ⟨hsame, hno⟩ | ⟨id, hlast, hrun⟩
  · refine .nothing hinv hT Handle.claims_mine trivial hsame fun a ha => ?_
    rcases a with _ | id
    · exact ⟨rfl, hnd⟩
    · exact absurd ha (hno id)
  · have hch := Changes.claimed hinv.typed hq H.processId hlast
    have hocc : occ H.keys w.store id (.ready queue) ≠ 0 :=
      (hinv.typed.mem_ready hq).mp (List.mem_of_getLast? hlast)
    obtain ⟨hnew, htr⟩ := Handle.claims_new hinv hlive hT hocc hch
    refine ⟨H.claims (id :: ids), ?_, trivial, fun a ha => ?_⟩
    · rw [World.after, hrun]
      exact htr
    · rw [hrun] at ha
      obtain rfl := Except.ok.inj ha
      exact ⟨rfl, List.nodup_cons.mpr ⟨hnew, hnd⟩⟩

/-- The envelopes of claimed jobs, one for each of them. -/
structure Batch (H : Handle) (es : List JobEnvelope) : Prop where
  /-- one each -/
  nodup : (es.map (·.id)).Nodup
  /-- on queues with plain names -/
  plain : ∀ e ∈ es, H.keys.Plain e.queue

/-- Jobs that do not belong to the batch are given up, and the claims of the others are kept. -/
theorem killInvalid_works {es : List JobEnvelope} (hes : Batch H es) {kept : List JobId}
    (hkept : (es.map (·.id) ++ kept).Nodup) :
    Works H U (fun valid T => Batch H valid ∧ H.Holding (valid.map (·.id) ++ kept) T ∧
        ∀ e ∈ valid, e ∈ es)
      (fun _ => True) (H.claims (es.map (·.id) ++ kept)) (killInvalid H es) := by
  induction es generalizing kept with
  | nil => exact .pure ⟨hes, rfl, fun _ h => h⟩
  | cons e es ih =>
    have hes' : Batch H es :=
      ⟨(List.nodup_cons.mp hes.nodup).2, fun e' he => hes.plain e' (List.mem_cons_of_mem _ he)⟩
    refine .ask fun c => ?_
    rcases c.invalid with _ | message
    · -- the job stays claimed while the rest is looked at
      have hperm : ((e :: es).map (·.id) ++ kept).Perm (es.map (·.id) ++ e.id :: kept) :=
        List.perm_middle.symm
      rw [Handle.claims_perm hperm]
      refine (ih hes' (hperm.nodup_iff.mp hkept)).bind ?_ fun _ h => h
      rintro valid _ ⟨hvalid, rfl, hsub⟩
      refine .pure ⟨⟨?_, ?_⟩, ?_, ?_⟩
      · refine List.nodup_cons.mpr ⟨fun hmem => ?_, hvalid.nodup⟩
        obtain ⟨e', he', hid⟩ := List.mem_map.mp hmem
        exact (List.nodup_cons.mp hes.nodup).1 (hid ▸ List.mem_map_of_mem (hsub e' he'))
      · intro e' he'
        rcases List.mem_cons.mp he' with rfl | he'
        · exact hes.plain _ (List.mem_cons_self ..)
        · exact hvalid.plain e' he'
      · exact Handle.claims_perm List.perm_middle
      · intro e' he'
        rcases List.mem_cons.mp he' with rfl | he'
        · exact List.mem_cons_self ..
        · exact List.mem_cons_of_mem _ (hsub e' he')
    · refine (kill_works hkept message).bind ?_ fun _ h => h
      rintro _ _ rfl
      refine (ih hes' (List.nodup_cons.mp hkept).2).mono ?_ fun _ h => h
      rintro valid T ⟨hvalid, hT, hsub⟩
      exact ⟨hvalid, hT, fun e' he' => List.mem_cons_of_mem _ (hsub e' he')⟩

theorem runBatch_works {es : List JobEnvelope} (hes : Batch H es) :
    Works H U (fun _ _ => True) (fun _ => True) (H.claims (es.map (·.id))) (runBatch H es) := by
  simp only [runBatch]
  split
  · exact .pure trivial
  · refine .ask fun c => ?_
    have hstart : ∀ e ∈ (if c.resumes then es else es.map (·.withoutState)),
        e.id ∈ es.map (·.id) ∧ H.keys.Plain e.queue := by
      intro e he
      split at he
      · exact ⟨List.mem_map_of_mem he, hes.plain e he⟩
      · obtain ⟨e', he', rfl⟩ := List.mem_map.mp he
        exact ⟨List.mem_map_of_mem (f := (·.id)) he', hes.plain e' he'⟩
    have hids : (if c.resumes then es else es.map (·.withoutState)).map (·.id) =
        es.map (·.id) := by
      split
      · rfl
      · rw [List.map_map]
        rfl
    refine (setStartedAtBatch_works hstart).bind ?_ fun _ h => h
    rintro started _ ⟨rfl, hstarted, -⟩
    rw [hids] at hstarted
    refine (runProcess_works (fun id hid => hstarted ▸ hid) c.rounds).bind ?_ fun _ h => h
    rintro _ _ rfl
    rw [← hstarted]
    exact finishBatchResult_works (hstarted ▸ hes.nodup) c.result

/-- Carrying out a batch gives up all its claims, whatever its jobs come to. -/
theorem processPending_works {es : List JobEnvelope} (hes : Batch H es) :
    Works H U (fun _ _ => True) (fun _ => True) (H.claims (es.map (·.id)))
      (processPending H es) := by
  have hnil : (es.map JobEnvelope.id ++ []).Nodup := by
    rw [List.append_nil]
    exact hes.nodup
  have hkill := killInvalid_works (U := U) hes hnil
  rw [List.append_nil] at hkill
  refine hkill.bind ?_ fun _ h => h
  rintro valid _ ⟨hvalid, rfl, -⟩
  rw [List.append_nil]
  exact runBatch_works hvalid

/-- Gathering a batch claims jobs and loads them, each once. -/
theorem gather_works {queues : List String} (hq : ∀ q ∈ queues, H.keys.Plain q) {n : Nat}
    {claimed : List JobId} {loaded : List JobEnvelope}
    (hnd : (claimed ++ loaded.map (·.id)).Nodup) (hplain : ∀ e ∈ loaded, H.keys.Plain e.queue) :
    Works H U (fun es T => Batch H es ∧ ∃ rest, H.Holding (rest ++ es.map (·.id)) T)
      (fun _ => True) (H.claims (claimed ++ loaded.map (·.id)))
      (gather H queues n claimed loaded) := by
  have hloaded : Batch H loaded := ⟨(List.nodup_append.mp hnd).2.1, hplain⟩
  induction n generalizing claimed loaded with
  | zero => exact .pure ⟨hloaded, claimed, rfl⟩
  | succ n ih =>
    refine .ask fun c => ?_
    split
    · exact .pure ⟨hloaded, claimed, rfl⟩
    · split
      · next id claimed hnone =>
        -- the loaded job moves to the end of the list
        have hload := loadPendingJob_works (H := H) (U := U)
          (show id ∈ id :: claimed ++ loaded.map (·.id) from List.mem_cons_self ..)
        refine hload.bind ?_ fun _ h => h
        rintro _ _ ⟨rfl, e, rfl, rfl, hplain'⟩
        have hperm : (claimed ++ (loaded ++ [e]).map JobEnvelope.id).Perm
            (e.id :: claimed ++ loaded.map (·.id)) := by
          rw [List.map_append, ← List.append_assoc]
          exact List.perm_append_singleton e.id _
        rw [← Handle.claims_perm hperm]
        have hnd' := hperm.nodup_iff.mpr hnd
        refine ih hnd' (fun e' he' => ?_) ⟨(List.nodup_append.mp hnd').2.1, fun e' he' => ?_⟩
        all_goals
          rcases List.mem_append.mp he' with he' | he'
          · exact hplain e' he'
          · rw [List.mem_singleton.mp he']
            exact hplain'
      · exact .pure ⟨hloaded, [], rfl⟩
      · next claimed _ _ queue hqueue =>
        refine (dequeue_works hnd (hq queue (List.mem_of_getElem? hqueue))).bind ?_ fun _ h => h
        rintro found _ ⟨rfl, hnd'⟩
        have hperm : (claimed ++ found.toList ++ loaded.map JobEnvelope.id).Perm
            (found.toList ++ (claimed ++ loaded.map (·.id))) := by
          rw [← List.append_assoc]
          exact List.perm_append_comm.append_right _
        rw [← Handle.claims_perm hperm]
        exact ih (hperm.nodup_iff.mpr hnd') hplain hloaded

/-- **Workers keep to the discipline**: they begin without claims, and write only what they have
claimed. -/
theorem worker_works {queues : List String} (hq : ∀ q ∈ queues, H.keys.Plain q) :
    Works H U (fun _ _ => True) (fun _ => True) ∅ (worker H queues) := by
  refine .ask fun c => ?_
  have hnone : (∅ : Set Custody) = H.claims ([] ++ ([] : List JobEnvelope).map (·.id)) := by
    ext t
    simp [Custody.claims]
  rw [hnone]
  refine (gather_works hq List.nodup_nil fun _ h => absurd h List.not_mem_nil).bind ?_ fun _ h => h
  rintro es _ ⟨hes, rest, rfl⟩
  -- claims that have not been loaded are left behind
  refine (processPending_works hes).weaken ?_
  rintro t ⟨id, hid, rfl⟩
  exact ⟨id, List.mem_append_right _ hid, rfl⟩

theorem loadPendingJobs_works {ids claimed : List JobId} (hsub : ∀ id ∈ ids, id ∈ claimed) :
    Works H U (fun es T => H.Holding claimed T ∧ es.map (·.id) = ids ∧
        ∀ e ∈ es, H.keys.Plain e.queue)
      (fun _ => True) (H.claims claimed) (loadPendingJobs H ids) := by
  induction ids with
  | nil => exact .pure ⟨rfl, rfl, fun _ h => absurd h List.not_mem_nil⟩
  | cons id ids ih =>
    refine (loadPendingJob_works (hsub id (List.mem_cons_self ..))).bind ?_ fun _ h => h
    rintro _ _ ⟨rfl, e, rfl, hid, hplain⟩
    refine (ih fun id' h => hsub id' (List.mem_cons_of_mem _ h)).bind ?_ fun _ h => h
    rintro es _ ⟨rfl, hes, hplains⟩
    refine .pure ⟨rfl, ?_, fun e' he' => ?_⟩
    · simp [hid, hes]
    · rcases List.mem_cons.mp he' with rfl | he'
      · exact hplain
      · exact hplains e' he'

/-- Workers on jobs that are claimed already keep to it, too. -/
theorem workOn_works {ids : List JobId} (hnd : ids.Nodup) :
    Works H U (fun _ _ => True) (fun _ => True) (H.claims ids) (workOn H ids) := by
  refine (loadPendingJobs_works fun _ h => h).bind ?_ fun _ h => h
  rintro es _ ⟨rfl, rfl, hplain⟩
  exact processPending_works ⟨hnd, hplain⟩

end Batch

end Oxana
