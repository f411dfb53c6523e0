import Oxana.Lifecycle
import Oxana.ProducerSteps

/-!
# Nobody moves a job otherwise

Each client of the system, step by step. For most of them it is enough to know
which requests they make, in whatever state (`Ways`): the invariant before and
after a request says the rest. A worker also has requests that would take a job
away from where it is: they are meant for a claim whose payload is missing. That
there is no such claim it owes to its own tokens, so these calls are gone through
once more (`WorksIn`).
-/

namespace Oxana

open Redis Script Interleave Call

variable {K : StorageKeys} {U : Set JobId} {P : World Ledger → Prop} {l : Request}

/-- Whatever the state of the system: every step of the call moves the jobs along. -/
abbrev Ways {α : Type} (K : StorageKeys) (U : Set JobId) (P : World Ledger → Prop)
    (x : Call Ledger α) : Prop :=
  Call.Always (fun _ w => PlacementInv K U w ∧ P w)
    (fun l w w' => PlacementInv K U w' → Moving K l w w') (fun _ => True) x

theorem Moving.refl {w : World Ledger} (hw : PlacementInv K U w) : Moving K l w w :=
  .still hw hw fun _ => rfl

/-- A script that refuses what it is given moves no job. -/
theorem Refused.moving {α : Type} {x : Script α} {w : World Ledger} (hw : PlacementInv K U w)
    (hx : Refused x w.store) : Moving K l w (w.after x) := by
  obtain ⟨m, hm⟩ := hx
  rw [World.after_read (by rw [hm])]
  exact .refl hw

/-- A request that only reads moves no job. -/
theorem read_ways {α : Type} {x : Script α} (hx : ∀ s, (x s).2 = s) :
    Ways K U P (send l x : Call Ledger α) :=
  .read hx (fun _ hw _ => .refl hw.1) fun _ _ _ _ => trivial

theorem now_ways : Ways K U P (now : Call Ledger Int) :=
  .now (fun _ hw _ => .refl hw.1) fun _ _ => trivial

/-- A request moves jobs in its ways when its script does so in every world in which it can be made.
-/
theorem send_ways {α : Type} {x : Script α}
    (h : ∀ w, PlacementInv K U w → P w → PlacementInv K U (w.after x) →
      Moving K l w (w.after x)) : Ways K U P (send l x : Call Ledger α) :=
  .send (fun w hw hw' => h w hw.1 hw.2 hw') fun _ _ _ _ => trivial

/-- A pipeline moves jobs in its ways when each of its commands does. -/
theorem pipe_ways {α : Type} {xs : List (Script α)}
    (h : ∀ x ∈ xs, ∀ w, PlacementInv K U w → PlacementInv K U (w.after x) →
      Moving K l w (w.after x)) : Ways K U P (pipe l xs : Call Ledger (List α)) :=
  (Always.pipe (Q := fun _ _ => True) (fun x hx w hw hw' => h x hx w hw.1 hw')
    fun _ _ _ _ _ _ => trivial).mono fun _ _ => trivial

/-- Writes to keys that have nothing to do with jobs, such as counters and records, move no job. -/
theorem foreign_ways {xs : List (Script Unit)}
    (hxs : ∀ x ∈ xs, ∃ kd k f, x = onKind kd k f ∧ Foreign K k ∧ ∀ s, ∃ v, (f s).2 = s.put k v) :
    Ways K U P (pipe l xs : Call Ledger (List Unit)) := by
  refine pipe_ways fun x hx w hw hw' => ?_
  obtain ⟨kd, k, f, rfl, hk, hf⟩ := hxs x hx
  refine .still hw hw' fun id => ?_
  simp only [World.after, onKind]
  split
  · obtain ⟨v, hv⟩ := hf w.store
    rw [hv]
    exact congrArg JobView.places (jobView_put_foreign hk v)
  · rfl

/-! ## Producers -/

section Producers

variable {e : JobEnvelope} {es : List JobEnvelope} {destination : JobDestination}

/-- Storing a payload moves no job, since the lists and sets are what they were. -/
theorem hset_moving {w : World Ledger} (hw : PlacementInv K U w) (id : JobId) (p : String)
    (hw' : PlacementInv K U (w.after (hset K.jobs id p))) :
    Moving K l w (w.after (hset K.jobs id p)) := by
  refine .still hw hw' fun id' => ?_
  rw [World.after, hset_ok hw.typed.jobs]
  exact occ_put_jobs _ id'

/-- The writes for jobs that are not unique put each of them at the place it is meant for. -/
theorem ordinaryWrites_ways (hes : ∀ e ∈ es, K.Plain e.queue) :
    Ways K U P (pipe .hset (es.flatMap (ordinaryWrites K destination))) := by
  refine pipe_ways fun x hx w hw hw' => ?_
  obtain ⟨e, he, hx⟩ := List.mem_flatMap.mp hx
  simp only [ordinaryWrites, List.mem_cons, List.not_mem_nil, or_false] at hx
  rcases hx with rfl | rfl
  · exact hset_moving hw e.id e.encode hw'
  · have hgains := place_gains hw.typed (hes e he) destination
    cases destination with
    | queue =>
      have hf : w.store.Fits (K.namespaceQueue e.queue) .list :=
        hw.typed.places (.ready e.queue) (hes e he)
      dsimp only at hw' ⊢
      rw [World.after, lpush_ok hf] at hw' ⊢
      exact hgains.moving (.inl rfl) hw hw'
    | schedule =>
      have hf : w.store.Fits K.schedule .zset := hw.typed.places .schedule trivial
      dsimp only at hw' ⊢
      rw [World.after, zadd_ok hf] at hw' ⊢
      exact hgains.moving (.inl rfl) hw hw'

/-- What a producer may enqueue is for a plain queue and replaces nothing. -/
theorem Enqueueable.plain_fresh (he : Enqueueable K U e) : K.Plain e.queue ∧ e.replaces = false :=
  ⟨he.plain, JobEnvelope.not_replaces he.skips⟩

/-- The request for the unique jobs of a chunk puts each of them, unless it is skipped, at the place
it is meant for. -/
theorem enqueueUnique_ways (hes : ∀ e ∈ es, Enqueueable K U e) :
    Ways K U P (enqueueUnique K destination es) := by
  refine Always.weaken (enqueueUnique_places es) (fun _ w hw => hw.1.valid)
    fun l w w' hw hstep hw' => ?_
  cases hstep with
  | reads => exact .refl hw.1
  | commits hsub =>
    refine Gains.moving ?_ (.inr rfl) hw.1 hw'
    exact enqueueSpecs_gain hw.1.typed (fun e he => (hes e (hsub e he)).plain_fresh) destination

theorem enqueueChunk_ways (hes : ∀ e ∈ es, Enqueueable K U e) (written : List JobId) :
    Ways K U P (enqueueChunk K es destination written) := by
  simp only [enqueueChunk]
  split
  · exact (ordinaryWrites_ways fun e he => (hes e he).plain).bind fun _ _ => .pure trivial
  · refine (enqueueUnique_ways fun e he => hes e (mem_of_mem_pendingOf he)).bind fun _ _ => ?_
    exact .pure trivial

theorem enqueueOne_ways (he : Enqueueable K U e) : Ways K U P (enqueueOne K e destination) := by
  refine Always.connection.bind fun _ _ => ?_
  refine (enqueueChunk_ways (fun e' he' => ?_) []).bind fun _ _ => .pure trivial
  rwa [List.mem_singleton.mp he']

theorem enqueueAt_ways (he : Enqueueable K U e) : Ways K U P (enqueueAt K e) := by
  refine now_ways.bind fun t _ => ?_
  split
  · exact enqueueOne_ways he
  · exact enqueueOne_ways he

theorem enqueueChunks_ways {cs : List (List JobEnvelope)}
    (hcs : ∀ c ∈ cs, ∀ e ∈ c, Enqueueable K U e) (written : List JobId) :
    Ways K U P (enqueueChunks K destination cs written) := by
  induction cs generalizing written with
  | nil => exact .pure trivial
  | cons c cs ih =>
    refine (enqueueChunk_ways (hcs c List.mem_cons_self) written).bind fun written' _ => ?_
    exact ih (fun c' hc => hcs c' (List.mem_cons_of_mem _ hc)) written'

/-- Enqueueing a list of jobs, chunk by chunk, moves each job in the ways of the requests for its
chunk. -/
theorem enqueueList_ways (hes : ∀ e ∈ es, Enqueueable K U e) : Ways K U P (enqueueList K es) := by
  simp only [enqueueList]
  split
  · exact .pure trivial
  · refine Always.connection.bind fun _ _ => ?_
    refine (enqueueChunks_ways (fun c hc e he => hes e ?_) []).bind fun _ _ => .pure trivial
    rw [← flatten_enqueueListChunks es]
    exact List.mem_flatten.mpr ⟨c, hc, he⟩

end Producers

/-! ## Sweeps -/

section Sweeps

variable {w : World Ledger} {found : Option (String × JobEnvelope)}

/-- A payload that agrees with the snapshot that was taken of it is the envelope of that snapshot.
-/
theorem storedAs_of_snapshot (s : Store) (id : JobId) (hfound : Decoded found) {p : String}
    (hp : payloadOf K.jobs s id = some p)
    (heq : some p = expectedPayload ((found.map (·.1)).getD "")) :
    ∃ e, StoredAs K s id e ∧ (found.map (·.2.queue)).getD "" = e.queue ∧
      (found.map (·.2.jobMeta.resurrect)).getD false = e.jobMeta.resurrect := by
  rcases found with _ | ⟨p', e⟩
  · cases heq
  · have hpp : p = p' := by
      have heq' : some p = expectedPayload p' := heq
      simp only [expectedPayload] at heq'
      split at heq'
      · exact Option.some.inj heq'
      · cases heq'
    subst hpp
    exact ⟨e, ⟨p, hp, hfound⟩, rfl, rfl⟩

/-- A job that joins a ready list leaves the place it has been at, and has one place as before. -/
theorem becomes_ready {s s' : Store} {id : JobId} {loc : Loc} (queue : String)
    {f : JobView → JobView} (hch : Changes K s id f s')
    (hocc : (f (jobView K s id)).places (.ready queue) ≠ 0) {x y : Option Loc}
    (hx : IsAt K s id x) (hat : occ K s id loc ≠ 0) (hy : IsAt K s' id y) :
    x = some loc ∧ y = some (.ready queue) := by
  refine ⟨hx.eq_some hat, hy.eq_some ?_⟩
  rw [← hch.eq] at hocc
  exact hocc

/-- `promote_scheduled.lua` moves the job that is promoted, from its delayed set to the ready list
of its queue, and no other. -/
theorem promote_moving {loc : Loc} (hloc : loc.Delayed) (hfound : Decoded found) {id : JobId}
    {score : Int} (hw : PlacementInv K U w)
    (hw' : PlacementInv K U (w.after (promoteScheduled K.jobs (loc.key K)
      (K.namespaceQueue ((found.map (·.2.queue)).getD "")) id ((found.map (·.1)).getD "") score))) :
    Moving K .promote w (w.after (promoteScheduled K.jobs (loc.key K)
      (K.namespaceQueue ((found.map (·.2.queue)).getD "")) id
      ((found.map (·.1)).getD "") score)) := by
  have hplain := fun p => plain_of_snapshot (K := K) (p := p) hfound id
  have hnames := fun p => storedAs_of_snapshot (K := K) (p := p) w.store id hfound
  generalize (found.map (·.2.queue)).getD "" = queue at hw' hplain hnames ⊢
  rcases promoteScheduled_cases (s := w.store) K.jobs (loc.key K)
    (K.namespaceQueue queue) id ((found.map (·.1)).getD "") score
    with hno | hzero | ⟨-, -, -, hscore, heq, hmove⟩
  · exact hno.moving hw
  · rw [World.after_read (by rw [hzero])]
    exact .refl hw
  · have hocc := hw.typed.waits hloc hscore
    obtain ⟨p, hv, hgood⟩ := hw.at_place hocc
    have hpay : payloadOf K.jobs w.store id = some p := congrArg JobView.payload hv
    rw [hpay] at heq
    rcases hmove with ⟨hnone, -⟩ | ⟨-, -, -, hrun⟩
    · rw [hpay] at hnone
      cases hnone
    · obtain ⟨e, hstored, hqueue, -⟩ := hnames p hpay heq
      have hch := Changes.promoted id hw.typed (hplain p hgood heq) hloc
      rw [World.after, hrun] at hw' ⊢
      refine .one hw hw' hch fun x y hx hy => ?_
      obtain ⟨rfl, rfl⟩ := becomes_ready queue hch
        (by simp [JobView.exit, JobView.join, (hloc.ne_ready _).symm]) hx hocc hy
      rw [hqueue]
      exact .becomesReady hloc hstored

theorem promoteOne_ways {loc : Loc} (hloc : loc.Delayed) (id : JobId) (score : Int) :
    Ways K U P (promoteOne K (loc.key K) id score) := by
  refine (transitionSnapshot_always (fun _ hw _ => .refl hw.1) id).catching
    (fun found hfound => send_ways fun w hw _ hw' => promote_moving hloc hfound hw hw') fun e => ?_
  cases e with
  | json => exact .pure trivial
  | redis _ => exact .fail _
  | jobNotFound => exact .fail _
  | generic => exact .fail _
  | config _ => exact .fail _

theorem promoteScheduledJobs_ways {loc : Loc} (hloc : loc.Delayed) (jobs : List (JobId × Int)) :
    Ways K U P (promoteScheduledJobs K (loc.key K) jobs) := by
  induction jobs with
  | nil => exact .pure trivial
  | cons job jobs ih =>
    refine (promoteOne_ways hloc job.1 job.2).bind fun _ _ => ?_
    exact ih.bind fun _ _ => .pure trivial

/-- A promotion moves the jobs that are due, each by a request of its own. -/
theorem enqueueScheduled_ways {loc : Loc} (hloc : loc.Delayed) :
    Ways K U P (enqueueScheduled K (loc.key K)) := by
  refine now_ways.bind fun t _ => ?_
  refine Always.connection.bind fun _ _ => ?_
  refine (read_ways fun s => zrangeByScore_snd ..).bind fun jobs _ => ?_
  exact promoteScheduledJobs_ways hloc jobs

/-- Retrying everything now moves the jobs of the retry set, each by a request of its own. -/
theorem retryAllNow_ways : Ways K U P (retryAllNow K) := by
  refine Always.connection.bind fun _ _ => ?_
  refine (read_ways fun s => zrangeWithScores_snd ..).bind fun jobs _ => ?_
  have hretry : Loc.retry.Delayed := .inr rfl
  exact promoteScheduledJobs_ways hretry jobs

/-- `resurrect_claim.lua` moves the job of the claim, from the processing list of an ended process
to the ready list or to nowhere, and no other. -/
theorem resurrect_moving {processId : String} (hended : Ended processId w)
    (hfound : Decoded found) {id : JobId} (hw : PlacementInv K U w)
    (hw' : PlacementInv K U (w.after (resurrectClaim K.jobs (K.processingQueue processId)
      (K.namespaceQueue ((found.map (·.2.queue)).getD "")) id ((found.map (·.1)).getD "")
      ((found.map (·.2.jobMeta.resurrect)).getD false)))) :
    Moving K .resurrect w (w.after (resurrectClaim K.jobs (K.processingQueue processId)
      (K.namespaceQueue ((found.map (·.2.queue)).getD "")) id ((found.map (·.1)).getD "")
      ((found.map (·.2.jobMeta.resurrect)).getD false))) := by
  have hp := StorageKeys.processing_ne_fixed (K := K) processId
  have hplain := fun p => plain_of_snapshot (K := K) (p := p) hfound id
  have hnames := fun p => storedAs_of_snapshot (K := K) (p := p) w.store id hfound
  generalize (found.map (·.2.queue)).getD "" = queue at hw' hplain hnames ⊢
  rcases resurrectClaim_cases (s := w.store) (K.namespaceQueue queue) hp.1.symm id
    ((found.map (·.1)).getD "") ((found.map (·.2.jobMeta.resurrect)).getD false)
    with hno | ⟨hzero, -⟩ | ⟨-, -, -, hclaimed, heq, hmove⟩
  · exact hno.moving hw
  · rw [World.after_read (by rw [hzero])]
    exact .refl hw
  · have hocc : occ K w.store id (.processing processId) ≠ 0 :=
      (hw.typed.mem_processing processId).mp hclaimed
    obtain ⟨p, hv, hgood⟩ := hw.at_place hocc
    have hpay : payloadOf K.jobs w.store id = some p := congrArg JobView.payload hv
    rw [hpay] at heq
    obtain ⟨e, hstored, hqueue, hagain⟩ := hnames p hpay heq
    rcases hmove with ⟨hnone, -⟩ | ⟨-, -, htrue, hrun⟩ | ⟨-, hfalse, hrun⟩
    · rw [hpay] at hnone
      cases hnone
    · -- back to the queue
      have hch := Changes.recovered id hw.typed (hplain p hgood heq) processId
      rw [World.after, hrun] at hw' ⊢
      refine .one hw hw' hch fun x y hx hy => ?_
      obtain ⟨rfl, rfl⟩ := becomes_ready queue hch
        (by simp [JobView.leave, JobView.join]) hx hocc hy
      rw [hqueue]
      exact .recovers hended hstored (hagain.symm.trans htrue)
    · -- it is dropped
      rw [World.after, hrun] at hw' ⊢
      have hack := acknowledges_one (Changes.acknowledged id hw.typed processId) fun _ => rfl
      refine hack.moving hw hw' fun id' hid => ?_
      obtain rfl := List.mem_singleton.mp hid
      exact .abandons hended hstored (hagain.symm.trans hfalse)

theorem resurrectOne_ways (processId : String) (id : JobId) :
    Ways K U (Ended processId) (resurrectOne K processId id) := by
  refine (transitionSnapshot_always (fun _ hw _ => .refl hw.1) id).catching
    (fun found hfound => send_ways fun w hw hended hw' => resurrect_moving hended hfound hw hw')
    fun e => ?_
  cases e with
  | json => exact .pure trivial
  | redis _ => exact .fail _
  | jobNotFound => exact .fail _
  | generic => exact .fail _
  | config _ => exact .fail _

theorem resurrectJobs_ways (processId : String) (ids : List JobId) :
    Ways K U (Ended processId) (resurrectJobs K processId ids) := by
  induction ids with
  | nil => exact .pure trivial
  | cons id ids ih =>
    refine (resurrectOne_ways processId id).bind fun _ _ => ?_
    exact ih.bind fun _ _ => .pure trivial

theorem unregister_ways (processId : String) :
    Ways K U P (pipe .unregister (unregister K processId)) := by
  refine foreign_ways fun x hx => ?_
  simp only [unregister, List.mem_cons, List.not_mem_nil, or_false] at hx
  rcases hx with rfl | rfl
  · exact ⟨_, _, _, rfl, foreign_processes, fun s => ⟨_, rfl⟩⟩
  · exact ⟨_, _, _, rfl, foreign_processesData, fun s => ⟨_, rfl⟩⟩

/-- Resurrecting a process moves the jobs on its processing list, each by a request of its own, and
then removes its record. -/
theorem resurrectProcess_ways (processId : String) :
    Ways K U (Ended processId) (resurrectProcess K processId) := by
  refine (read_ways fun s => lrange_snd ..).bind fun ids _ => ?_
  refine (resurrectJobs_ways processId ids).bind fun _ _ => ?_
  refine (read_ways fun s => llen_snd ..).bind fun left _ => ?_
  split
  · exact (unregister_ways processId).bind fun _ _ => .pure trivial
  · exact .pure trivial

end Sweeps

/-! ## Calls that also rely on their tokens -/

section Rules

variable {γ α β ο τ : Type} {D : Discipline ο (World γ) τ}
  {G : Request → World γ → World γ → Prop} {o : ο} {P : World γ → Prop}
  {Q : α → Set τ → Prop} {Q' : β → Set τ → Prop} {R R' : Set τ → Prop} {T : Set τ}

/-- The call keeps to the discipline, and its steps are in `G`. -/
def Call.KeepsIn (D : Discipline ο (World γ) τ) (G : Request → World γ → World γ → Prop) (o : ο)
    (P : World γ → Prop) (Q : α → Set τ → Prop) (R : Set τ → Prop) (T : Set τ)
    (x : Call γ α) : Prop :=
  D.SafeIn G o P (Call.Ends Q R) T x

theorem Call.KeepsIn.pure {a : α} (h : Q a T) : Call.KeepsIn D G o P Q R T (pure a) := h

theorem Call.KeepsIn.ask {k : Choice → Call γ α} (h : ∀ c, Call.KeepsIn D G o P Q R T (k c)) :
    Call.KeepsIn D G o P Q R T (Call.ask k) := h

theorem Call.KeepsIn.bind {x : Call γ α} {f : α → Call γ β} (hx : Call.KeepsIn D G o P Q R T x)
    (hf : ∀ a T', Q a T' → Call.KeepsIn D G o P Q' R' T' (f a)) (herr : ∀ T', R T' → R' T') :
    Call.KeepsIn D G o P Q' R' T (x >>= f) := by
  refine Discipline.SafeIn.bind hx fun r T' hr => ?_
  cases r with
  | ok a => exact hf a T' hr
  | error e => exact herr T' hr

theorem Call.KeepsIn.weaken {T' : Set τ} {x : Call γ α}
    (hx : Call.KeepsIn D G o P (fun _ _ => True) (fun _ => True) T x) (hsub : T ⊆ T') :
    Call.KeepsIn D G o P (fun _ _ => True) (fun _ => True) T' x := by
  refine Discipline.SafeIn.weaken hx hsub fun r hr => ?_
  cases r with
  | ok a => exact hr
  | error e => exact hr

/-- A request of a client that has tokens in its hands: the form of its step and what it sends are
shown together, from the same invariant. -/
theorem Call.KeepsIn.send {x : Script α} (hR : R T)
    (h : ∀ w, D.inv w → P w → (∀ t ∈ T, D.owns t w) →
      G l w (w.after x) ∧ Call.Sends D o Q R T w x) :
    Call.KeepsIn D G o P Q R T (Oxana.send l x) := by
  refine .ask fun c => ?_
  rcases c.delivery with _ | _ | _
  · exact hR
  · intro w hw hP hT
    obtain ⟨hG, T', htr, hR', -⟩ := h w hw hP hT
    exact ⟨hG, T', htr, hR'⟩
  · intro w hw hP hT
    obtain ⟨hG, T', htr, hR', hQ⟩ := h w hw hP hT
    refine ⟨hG, T', htr, (?_ : Call.Ends Q R (replyOf (x w.store).1) T')⟩
    rcases hx : (x w.store).1 with e | a
    · exact hR'
    · exact hQ a hx

/-- A call that keeps the invariant is within a form of steps when each of its steps, seen alone,
has that form. -/
theorem Call.Keeps.within {x : Call γ α} {Q' : α → Prop} (hx : Call.Keeps D o P Q R T x)
    (hG : Call.Always (fun _ w => D.inv w ∧ P w) (fun l w w' => D.inv w' → G l w w') Q' x) :
    Call.KeepsIn D G o P Q R T x :=
  Discipline.Safe.within hx hG fun _ _ _ _ hw' h => h hw'

/-- A client made of a call within a form of steps takes steps of that form only. -/
theorem Call.KeepsIn.client {x : Call γ α} (h : Call.KeepsIn D G o P Q R T x) :
    D.SafeIn G o P (fun _ _ => True) T (Call.client x) :=
  Discipline.SafeIn.bind h fun _ _ _ => trivial

end Rules

/-! ## Workers -/

section Workers

variable {H : Handle} {e : JobEnvelope} {es : List JobEnvelope} {ids : List JobId} {id : JobId}

/-- Loading a job moves none, whatever is stored for it. -/
theorem getJob_ways (id : JobId) : Ways H.keys U P (getJob H id) :=
  (getJob_always (fun _ hw _ => .refl hw.1) id).mono fun _ _ => trivial

/-- Giving a job up moves it from the processing list of the process to nowhere, with a copy on the
dead list. -/
theorem kill_ways (e : JobEnvelope) (error : String) : Ways H.keys U H.Live (kill H e error) := by
  have hp := StorageKeys.processing_ne_fixed (K := H.keys) H.processId
  refine Always.connection.bind fun _ _ => send_ways fun w hw hlive hw' => ?_
  rcases finishDead_cases (s := w.store) StorageKeys.jobs_ne_dead hp.1.symm hp.2.1.symm
    (e.withError error).id (e.withError error).encode (H.deadJobLimit.getD 0)
    with hno | ⟨-, -, -, hrun⟩
  · exact hno.moving hw
  · rw [World.after, Handle.currentProcessingQueue, hrun] at hw' ⊢
    have hch := Changes.buried (e.withError error).id hw.typed H.processId
      (bury (H.deadJobLimit.getD 0) (e.withError error).encode (w.store.list H.keys.dead))
    refine (acknowledges_one hch fun _ => rfl).moving hw hw' fun id hid => ?_
    obtain rfl := List.mem_singleton.mp hid
    exact @Moves.dies _ _ _ _ _ (H.deadJobLimit.getD 0) _ hlive rfl (Store.list_put_self _)

/-- Finishing a batch with success moves each of its jobs from the processing list to nowhere. -/
theorem finishWithSuccessBatch_ways (es : List JobEnvelope) :
    Ways H.keys U H.Live (finishWithSuccessBatch H es) := by
  have hp := StorageKeys.processing_ne_fixed (K := H.keys) H.processId
  simp only [finishWithSuccessBatch]
  split
  · exact .pure trivial
  · refine Always.connection.bind fun _ _ => send_ways fun w hw hlive hw' => ?_
    rcases finishSuccess_cases (s := w.store) hp.1.symm (es.map (·.id)) with hno | ⟨-, -, hrun⟩
    · exact hno.moving hw
    · have hafter : w.after (finishSuccess H.keys.jobs (H.keys.processingQueue H.processId)
          (es.map (·.id))) = { w with
            store := (es.map (·.id)).foldl
              (acknowledge H.keys.jobs (H.keys.processingQueue H.processId)) w.store } := by
        rw [World.after, hrun]
      rw [Handle.currentProcessingQueue, hafter] at hw' ⊢
      refine (acknowledges_all hw.typed H.processId (es.map (·.id))).moving hw hw' fun id hid => ?_
      exact .succeeds hlive hid hafter.symm

theorem updateJob_ways (e : JobEnvelope) : Ways H.keys U P (updateJob H e) :=
  Always.connection.bind fun _ _ => send_ways fun _ hw _ hw' => hset_moving hw e.id e.encode hw'

theorem updateState_ways (id : JobId) (state : Json.Value) :
    Ways H.keys U P (updateState H id state) := by
  refine (getJob_ways id).bind fun found _ => ?_
  cases found with
  | none => exact .fail _
  | some e => exact updateJob_ways (e.withState state)

theorem runProcess_ways (ids : List JobId) (n : Nat) : Ways H.keys U P (runProcess H ids n) := by
  induction n with
  | zero => exact .pure trivial
  | succ n ih =>
    refine .ask fun c => ?_
    split
    · exact .pure trivial
    · next id _ => exact (updateState_ways id c.state).catching (fun _ _ => ih) fun _ => ih

theorem setStartedAtBatch_ways (es : List JobEnvelope) :
    Ways H.keys U P (setStartedAtBatch H es) := by
  refine now_ways.bind fun t _ => ?_
  refine Always.bind (Q := fun _ => True) ?_ fun _ _ => .pure trivial
  simp only [updateJobs]
  split
  · exact .pure trivial
  · refine Always.connection.bind fun _ _ => send_ways fun w hw _ hw' => ?_
    refine .still hw hw' fun id => ?_
    rw [World.after, hsetMultiple, onKind_ok hw.typed.jobs]
    exact occ_put_jobs _ id

/-- Jobs that do not belong to the batch are given up, and no other job is moved. -/
theorem killInvalid_ways (es : List JobEnvelope) : Ways H.keys U H.Live (killInvalid H es) := by
  induction es with
  | nil => exact .pure trivial
  | cons e es ih =>
    refine .ask fun c => ?_
    split
    · exact (kill_ways e _).bind fun _ _ => ih
    · exact ih.bind fun _ _ => .pure trivial

/-- Claiming a job moves it from the ready list to the processing list of the process. -/
theorem dequeue_ways {queue : String} (hq : H.keys.Plain queue) :
    Ways H.keys U H.Live (dequeue H queue) := by
  refine Always.connection.bind fun _ _ => send_ways fun w hw hlive hw' => ?_
  rcases lmove_cases (H.keys.namespaceQueue queue) H.currentProcessingQueue w.store
    with ⟨hsame, -⟩ | ⟨id, hlast, hrun⟩
  · rw [World.after_read hsame]
    exact .refl hw
  · have hch := Changes.claimed hw.typed hq H.processId hlast
    have hocc : occ H.keys w.store id (.ready queue) ≠ 0 :=
      (hw.typed.mem_ready hq).mp (List.mem_of_getLast? hlast)
    rw [World.after, hrun] at hw' ⊢
    refine .one hw hw' hch fun x y hx hy => ?_
    obtain rfl : x = some (.ready queue) := hx.eq_some hocc
    obtain rfl : y = some (.processing H.processId) := by
      apply hy.eq_some
      have hview := congrArg (fun v => v.places (.processing H.processId)) hch.eq
      refine hview.trans_ne ?_
      simp [JobView.join]
    exact .claims hlive hlast

/-- The call of a worker moves jobs in the ways of its requests, and begins with these tokens. -/
abbrev WorksIn {α : Type} (H : Handle) (U : Set JobId) (Q : α → Set Custody → Prop)
    (R : Set Custody → Prop) (T : Set Custody) (x : Call Ledger α) : Prop :=
  Call.KeepsIn (custody H.keys U) (Moving H.keys) (some H.processId) H.Live Q R T x

/-- What is claimed has a payload that decodes, so loading a claimed job deletes nothing. -/
theorem loadPendingJob_worksIn (hid : id ∈ ids) :
    WorksIn H U (H.Loads ids id) (fun _ => True) (H.claims ids) (loadPendingJob H id) := by
  have hread := (getClaimedJob_works (U := U) hid).within (G := Moving H.keys)
    (getClaimedJob_always (fun _ hw _ => .refl hw.1) id)
  refine hread.bind ?_ fun _ _ => trivial
  rintro _ _ ⟨rfl, e, rfl, hgood⟩
  exact .pure ⟨rfl, e, rfl, hgood⟩

/-- A retry moves the job from the processing list of the process to the retry set; nothing else
releases it, since it is claimed. -/
theorem retryIn_worksIn (hnd : (id :: ids).Nodup) (delay : UInt64) (error : String) :
    WorksIn H U (fun _ => H.Holding ids) (fun _ => True) (H.claims (id :: ids))
      (retryIn H id delay error) := by
  have hp := StorageKeys.processing_ne_fixed (K := H.keys) H.processId
  refine KeepsIn.bind (R := fun _ => True) ((Keeps.connection trivial).within Always.connection) ?_
    fun _ h => h
  rintro _ _ rfl
  refine KeepsIn.bind (R := H.Holding (id :: ids)) ((getJobOn_works List.mem_cons_self).within
    (getJobOn_always (fun _ hw _ => .refl hw.1) id)) ?_ fun _ _ => trivial
  rintro _ _ ⟨rfl, e, rfl, rfl, hq⟩
  refine KeepsIn.bind (R := fun _ => True) ((Keeps.now Handle.claims_mine).within now_ways) ?_
    fun _ h => h
  rintro t _ rfl
  refine .send trivial fun w hw hlive hT => ?_
  simp only [Handle.currentProcessingQueue]
  rcases retryFailed_cases (s := w.store) StorageKeys.jobs_ne_retry hp.1.symm hp.2.2.2.symm
    (e.withRetriesIncremented error).id (e.withRetriesIncremented error).encode
    (retryScore t delay) with hno | ⟨-, -, -, hrun⟩
  · exact ⟨hno.moving hw, hno.sends hw hT Handle.claims_mine trivial⟩
  · have hch := Changes.retried e.id hw.typed H.processId (e.withRetriesIncremented error).encode
      (retryScore t delay)
    have hclaimed : occ H.keys w.store e.id (.processing H.processId) ≠ 0 :=
      (hT _ ⟨e.id, List.mem_cons_self, rfl⟩).2
    have htrade : (custody H.keys U).Trades (some H.processId) (H.claims (e.id :: ids))
        (H.claims ids) w { w with store := _ } :=
      Handle.claims_trade hw hT List.mem_cons_self hch (fun p _ hknown => ?_)
        fun _ h => List.mem_cons_of_mem _ h
    · have hafter := congrArg (fun r => { w with store := r.2 }) hrun
      refine ⟨?_, H.claims ids, ?_, trivial, fun _ _ => rfl⟩
      · rw [World.after, hrun]
        refine .one hw htrade.inv hch fun x y hx hy => ?_
        obtain rfl : x = some (.processing H.processId) := hx.eq_some hclaimed
        obtain rfl : y = some .retry := by
          apply hy.eq_some
          refine (congrArg (fun v => v.places .retry) hch.eq).trans_ne ?_
          simp [JobView.leave, JobView.enter]
        exact @Moves.fails _ _ _ _ _ (e.withRetriesIncremented error) (retryScore t delay) hlive rfl
          hafter.symm
      · rw [World.after, hrun]
        exact htrade
    · refine ⟨?_, fun h => absurd h (List.nodup_cons.mp hnd).1⟩
      rw [JobView.store_mk, JobView.leave_enter Loc.noConfusion, JobView.leave_only,
        JobView.enter_zero]
      exact .at_place (goodPayload_encode (e := e.withRetriesIncremented error) ⟨rfl, hq⟩) hknown _

/-- What follows an error moves the job to the retry set, or to nowhere with a copy on the dead
list. -/
theorem handleErr_worksIn (hnd : (e.id :: ids).Nodup) (message : String) (delay : UInt64)
    (maxRetries : UInt32) :
    WorksIn H U (fun _ => H.Holding ids) (fun _ => True) (H.claims (e.id :: ids))
      (handleErr H message e delay maxRetries) := by
  simp only [handleErr]
  split
  · exact retryIn_worksIn hnd delay message
  · exact (kill_works hnd message).within (kill_ways e message)

theorem handleErrs_worksIn (hnd : (es.map (·.id)).Nodup) (message : String) :
    WorksIn H U (fun _ _ => True) (fun _ => True) (H.claims (es.map (·.id)))
      (handleErrs H message es) := by
  induction es with
  | nil => exact .pure trivial
  | cons e es ih =>
    refine .ask fun c => ?_
    refine (handleErr_worksIn hnd message c.delay c.maxRetries).bind ?_ fun _ h => h
    rintro _ _ rfl
    exact ih (List.nodup_cons.mp hnd).2

/-- However a batch has ended, each of its jobs goes one way, by a request of its own or by the one
for all of them. -/
theorem finishBatchResult_worksIn (hnd : (es.map (·.id)).Nodup) (result : ExecutionResult) :
    WorksIn H U (fun _ _ => True) (fun _ => True) (H.claims (es.map (·.id)))
      (finishBatchResult H result es) := by
  cases result with
  | success =>
    exact (finishWithSuccessBatch_works hnd).within (finishWithSuccessBatch_ways es)
  | failed message => exact handleErrs_worksIn hnd message
  | panicked message => exact handleErrs_worksIn hnd message

theorem runBatch_worksIn (hes : Batch H es) :
    WorksIn H U (fun _ _ => True) (fun _ => True) (H.claims (es.map (·.id))) (runBatch H es) := by
  simp only [runBatch]
  split
  · exact .pure trivial
  · refine .ask fun c => ?_
    have hstart : ∀ e ∈ (if c.resumes then es else es.map (·.withoutState)),
        e.id ∈ es.map (·.id) ∧ H.keys.Plain e.queue := by
      intro e he
      split at he
      · exact ⟨List.mem_map_of_mem he, hes.plain e he⟩
      · obtain ⟨e', he', rfl⟩ := List.mem_map.mp he
        exact ⟨List.mem_map_of_mem (f := (·.id)) he', hes.plain e' he'⟩
    have hids : (if c.resumes then es else es.map (·.withoutState)).map (·.id) =
        es.map (·.id) := by
      split
      · rfl
      · rw [List.map_map]
        rfl
    have hset := (setStartedAtBatch_works (U := U) hstart).within (setStartedAtBatch_ways _)
    refine hset.bind ?_ fun _ h => h
    rintro started _ ⟨rfl, hstarted, -⟩
    rw [hids] at hstarted
    have hrun := (runProcess_works (H := H) (U := U) (fun id hid => hstarted ▸ hid) c.rounds).within
      (runProcess_ways (started.map (·.id)) c.rounds)
    refine hrun.bind ?_ fun _ h => h
    rintro _ _ rfl
    rw [← hstarted]
    exact finishBatchResult_worksIn (hstarted ▸ hes.nodup) c.result

/-- A process that carries out a batch moves the jobs of the batch, and only in the ways of the
requests that it makes. -/
theorem processPending_worksIn (hes : Batch H es) :
    WorksIn H U (fun _ _ => True) (fun _ => True) (H.claims (es.map (·.id)))
      (processPending H es) := by
  have hnil : (es.map JobEnvelope.id ++ []).Nodup := by
    rw [List.append_nil]
    exact hes.nodup
  have hkill := (killInvalid_works (U := U) hes hnil).within (killInvalid_ways es)
  rw [List.append_nil] at hkill
  refine hkill.bind ?_ fun _ h => h
  rintro valid _ ⟨hvalid, rfl, -⟩
  rw [List.append_nil]
  exact runBatch_worksIn hvalid

/-- Gathering a batch claims jobs from the lists, and moves each from its ready list to the
processing list of the process. -/
theorem gather_worksIn {queues : List String} (hq : ∀ q ∈ queues, H.keys.Plain q) {n : Nat}
    {claimed : List JobId} {loaded : List JobEnvelope}
    (hnd : (claimed ++ loaded.map (·.id)).Nodup) (hplain : ∀ e ∈ loaded, H.keys.Plain e.queue) :
    WorksIn H U (fun es T => Batch H es ∧ ∃ rest, H.Holding (rest ++ es.map (·.id)) T)
      (fun _ => True) (H.claims (claimed ++ loaded.map (·.id)))
      (gather H queues n claimed loaded) := by
  have hloaded : Batch H loaded := ⟨(List.nodup_append.mp hnd).2.1, hplain⟩
  induction n generalizing claimed loaded with
  | zero => exact .pure ⟨hloaded, claimed, rfl⟩
  | succ n ih =>
    refine .ask fun c => ?_
    split
    · exact .pure ⟨hloaded, claimed, rfl⟩
    · split
      · next id claimed hnone =>
        have hload := loadPendingJob_worksIn (H := H) (U := U)
          (show id ∈ id :: claimed ++ loaded.map (·.id) from List.mem_cons_self)
        refine hload.bind ?_ fun _ h => h
        rintro _ _ ⟨rfl, e, rfl, rfl, hplain'⟩
        have hperm : (claimed ++ (loaded ++ [e]).map JobEnvelope.id).Perm
            (e.id :: claimed ++ loaded.map (·.id)) := by
          rw [List.map_append, ← List.append_assoc]
          exact List.perm_append_singleton e.id _
        rw [← Handle.claims_perm hperm]
        have hnd' := hperm.nodup_iff.mpr hnd
        have hplain'' : ∀ e' ∈ loaded ++ [e], H.keys.Plain e'.queue := by
          intro e' he'
          rcases List.mem_append.mp he' with he' | he'
          · exact hplain e' he'
          · rwa [List.mem_singleton.mp he']
        exact ih hnd' hplain'' ⟨(List.nodup_append.mp hnd').2.1, hplain''⟩
      · exact .pure ⟨hloaded, [], rfl⟩
      · next claimed _ _ queue hqueue =>
        have hqueue' := hq queue (List.mem_of_getElem? hqueue)
        refine ((dequeue_works hnd hqueue').within (dequeue_ways hqueue')).bind ?_ fun _ h => h
        rintro found _ ⟨rfl, hnd'⟩
        have hperm : (claimed ++ found.toList ++ loaded.map JobEnvelope.id).Perm
            (found.toList ++ (claimed ++ loaded.map (·.id))) := by
          rw [← List.append_assoc]
          exact List.perm_append_comm.append_right _
        rw [← Handle.claims_perm hperm]
        exact ih (hperm.nodup_iff.mpr hnd') hplain hloaded

/-- A worker, which gathers a batch and carries it out, moves jobs in the ways of its requests only.
-/
theorem worker_worksIn {queues : List String} (hq : ∀ q ∈ queues, H.keys.Plain q) :
    WorksIn H U (fun _ _ => True) (fun _ => True) ∅ (worker H queues) := by
  refine .ask fun c => ?_
  have hnone : (∅ : Set Custody) = H.claims ([] ++ ([] : List JobEnvelope).map (·.id)) := by
    ext t
    simp [Custody.claims]
  rw [hnone]
  refine (gather_worksIn hq List.nodup_nil fun _ h => absurd h List.not_mem_nil).bind ?_
    fun _ h => h
  rintro es _ ⟨hes, rest, rfl⟩
  refine (processPending_worksIn hes).weaken ?_
  rintro t ⟨id, hid, rfl⟩
  exact ⟨id, List.mem_append_right _ hid, rfl⟩

end Workers

end Oxana
