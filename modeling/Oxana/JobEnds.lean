import Oxana.JobFates
import Oxana.Interleave.Crash
import Oxana.Dispatching
import Oxana.Recovery
import Mathlib.Data.Set.Finite.Basic

/-!
# No job is stuck

Whatever has happened, the system can still be done with every job: from every
reachable state there is a run after which a given job is nowhere
(`job_can_end`), and then it has left in order (`job_leaves_when_done`).

A job that waits for its time or for its next attempt becomes ready when that
time comes and its set is swept. A job that is claimed is recovered when its
process has ended; any process may end, as everybody may stop at any time. And a
job that is ready has its turn: each worker that runs takes the last of the list
and is done with it.
-/

namespace Oxana

open Redis Script Interleave Call

variable {K : StorageKeys} {U : Set JobId} {id : JobId} {queue : String} {t : Int}
  {c c' : Pool (Option String) Request (World Ledger) Choice} {w w' : World Ledger}

/-- The system goes on by any number of steps. -/
abbrev Runs (K : StorageKeys) (U : Set JobId) :
    Pool (Option String) Request (World Ledger) Choice →
      Pool (Option String) Request (World Ledger) Choice → Prop :=
  Relation.ReflTransGen (Pool.Step (StartsOrDrains K U) Surrounds)

/-- A call that may be made can be made before anything else happens: its client starts, runs alone,
and the system reaches what the call leaves. -/
theorem call_runs {α : Type} {allowed : Choice → Prop} {x : Call Ledger α} {o : Option String}
    {r : Except OxanaError α} (hstart : StartsOrDrains K U c.world o (Call.client x) w)
    (hsolo : Solo allowed x w r w') : ∃ threads, Runs K U c ⟨w', threads⟩ := by
  obtain ⟨tr, htr, hch⟩ := Prog.Solo.trace hsolo
  have hch' : Prog.Chained w (tr ++ []) w' := by rwa [List.append_nil]
  exact Pool.client_runs hstart (Prog.Trace.bind htr (.refl _)) hch'

/-- In every reachable state only finitely many processes have ended, so that there is a fresh name
for another one. -/
theorem ended_finite (h : Pool.Reachable (StartsOrDrains K U) Surrounds (World.initial t) c) :
    c.world.ghost.ended.Finite := by
  induction h with
  | start => exact Set.finite_empty
  | @next c c' h hstep ih =>
    rcases Discipline.step_moves startsOrDrains_in surrounds_ok (initial_inv t) h hstep
      with hmoves | henv
    · refine ih.subset fun p hp => ?_
      by_contra hlive
      exact (hmoves (some p)).2 p rfl hlive hp
    · generalize c'.world = w' at henv ⊢
      cases henv with
      | clock => exact ih
      | ends p => exact ih.insert p

/-! ## What is in order -/

/-- The names of queues that are not taken for keys. -/
def StorageKeys.plainNames (K : StorageKeys) : Set String := {queue | K.Plain queue}

/-- The plain names are names of queues: their keys are neither those of the records nor those of
the processing lists. -/
theorem StorageKeys.plainNames_queues : K.Queues K.plainNames where
  apart _ hq := StorageKeys.Plain.apart hq
  unnamed := StorageKeys.plain_empty

/-- In a state with at most one place for each job, the keys have their types and no key is used for
two purposes. -/
theorem PlacementInv.sound (hinv : PlacementInv K U w) : Sound K K.plainNames w.store where
  jobs := hinv.typed.jobs
  dead := hinv.typed.dead
  places l hl := by
    cases l with
    | ready queue => exact hinv.typed.places (.ready queue) hl
    | processing p => exact hinv.typed.places (.processing p) trivial
    | schedule => exact hinv.typed.places .schedule trivial
    | retry => exact hinv.typed.places .retry trivial
  stored id p e hp he := by
    obtain ⟨e', he', hid, hq⟩ := (hinv.jobs id).good p hp
    obtain rfl := Option.some.inj (he.symm.trans he')
    exact ⟨hid, hq⟩

/-- A job that has a place is at its key and nowhere else, it has a payload, and the payload
decodes. -/
theorem PlacementInv.found (hinv : PlacementInv K U w) {l : Loc} (hat : occ K w.store id l ≠ 0)
    (hdate : ∀ (set : DelayedSet) (score : Int),
      (w.store.zset (set.key K)).lookup id = some score → 0 ≤ score) :
    ∃ queue r, Found K K.plainNames id queue r (l.key K) w.store := by
  obtain ⟨p, hv, e, hdec, hid, -⟩ := hinv.at_place hat
  have honly : occ K w.store id = only l := (hinv.jobs id).once.eq_only hat
  have hl : l.Proper K := by
    by_contra hnot
    exact hat (if_neg hnot)
  refine ⟨e.queue, e.jobMeta.retries.toNat, hinv.sound,
    ⟨p, e, congrArg JobView.payload hv, hdec, hid, rfl, rfl⟩, fun l' hl' => ?_, hdate⟩
  have hproper : l'.Proper K := by
    cases l' with
    | ready queue => exact hl'
    | processing p => trivial
    | schedule => trivial
    | retry => trivial
  rw [← occ_of_proper hproper, honly]
  by_cases heq : l' = l
  · subst heq
    rw [only_self, if_pos rfl]
  · have hkey : some (l.key K) ≠ some (l'.key K) := fun hkey =>
      heq (Loc.key_injective hproper hl (Option.some.inj hkey).symm)
    rw [only_ne heq, if_neg hkey]

/-! ## Delayed jobs -/

theorem DelayedSet.loc_delayed (set : DelayedSet) : set.loc.Delayed := by
  cases set with
  | schedule => exact .inl rfl
  | retry => exact .inr rfl

/-- When its time comes, a delayed job can become ready: a promotion that runs alone takes it to the
list of its queue. -/
theorem delayed_becomes_ready
    (h : Pool.Reachable (StartsOrDrains K U) Surrounds (World.initial t) c) (set : DelayedSet)
    (hat : occ K c.world.store id set.loc ≠ 0)
    (hdate : ∀ (set : DelayedSet) (score : Int),
      (c.world.store.zset (set.key K)).lookup id = some score → 0 ≤ score) :
    ∃ c', Runs K U c c' ∧ ∃ queue, K.Plain queue ∧ occ K c'.world.store id (.ready queue) ≠ 0 := by
  obtain ⟨queue, r, hfound⟩ := (startsOrDrains_inv h).found hat hdate
  rw [set.loc_key] at hfound
  obtain ⟨score, hscore⟩ := hfound.score
  let due : World Ledger := { c.world with clock := score }
  have hclock : Pool.Step (StartsOrDrains K U) Surrounds c ⟨due, c.threads⟩ :=
    .env (.clock score)
  obtain ⟨n, hsweep⟩ := solo_enqueueScheduled (w := due) StorageKeys.plainNames_queues
    hfound.sound set
  have hstart : StartsOrDrains K U due none (Call.client (enqueueScheduled K (set.key K))) due := by
    rw [← set.loc_key]
    exact .starts (.enqueueScheduled set.loc_delayed)
  obtain ⟨threads, hrun⟩ := call_runs (c := ⟨due, c.threads⟩) hstart ((hsweep _ _).mpr ⟨rfl, rfl⟩)
  refine ⟨_, .head hclock hrun, queue, hfound.queue_mem, ?_⟩
  have hdue : (id, score) ∈ dueJobs c.world.store (set.key K) score := by
    obtain ⟨before, after, hmem, -⟩ := List.lookup_eq_some_iff.mp hscore
    refine List.mem_filter.mpr ⟨?_, ?_⟩
    · rw [hmem]
      exact List.mem_append_right _ List.mem_cons_self
    · simp [hdate set score hscore]
  rcases hfound.promotedAll StorageKeys.plainNames_queues hscore
    (dueJobs c.world.store (set.key K) score) with ⟨-, hready⟩ | ⟨hnot, -⟩
  · have hq : (Loc.ready queue).Proper K := hfound.queue_mem
    have hcount := (hready.located (.ready queue) hq).trans (if_pos rfl)
    rw [occ_of_proper hq]
    exact hcount.trans_ne Nat.one_ne_zero
  · exact absurd hdue hnot

/-! ## Claimed jobs -/

/-- Where the keys have their types, the claim script of a recovery runs to its end and refuses
nothing. -/
theorem resurrectClaim_runs {jobs processing queue : Key} {s : Store} (hjp : jobs ≠ processing)
    (hj : s.Fits jobs .hash) (hp : s.Fits processing .list) (hq : s.Fits queue .list) (id : JobId)
    (payloadArg : String) (again : Bool) :
    ∃ n, (resurrectClaim jobs processing queue id payloadArg again s).1 = .ok n := by
  have hrun : checkTypes "recovery transition"
      [(jobs, .hash), (processing, .list), (queue, .list)] s = (.ok (), s) := by
    refine checkTypes_ok fun p hm => ?_
    simp only [List.mem_cons, List.not_mem_nil, or_false] at hm
    rcases hm with rfl | rfl | rfl
    · exact hj
    · exact hp
    · exact hq
  rw [resurrectClaim, bind_ok hrun, bind_ok (lpos_ok hp id)]
  split
  · exact ⟨0, rfl⟩
  · rw [bind_ok (hget_run hj id)]
    split
    · exact ⟨0, rfl⟩
    · split
      · split
        · rw [bind_ok (lpush_ok hq id)]
          exact ⟨1, congrArg Prod.fst (bind_ok (lremFirst_ok (hp.put _ fun _ => rfl) id))⟩
        · rw [bind_ok (hdel_ok hj id)]
          have hp' := hp.put (.hash (unset id (s.hash jobs))) fun h => absurd h.symm hjp
          exact ⟨1, congrArg Prod.fst (bind_ok (lremFirst_ok hp' id))⟩
      · exact ⟨1, congrArg Prod.fst (bind_ok (lremFirst_ok hp id))⟩

/-- One claim is dealt with by one request, whatever is stored for the job, and the keys stay in
order. -/
theorem Sound.resurrects {Q : Set String} (hQ : K.Queues Q) (hs : Sound K Q w.store) (p : String)
    (id : JobId) : ∃ n s', Solo Reliable (resurrectOne K p id) w (.ok n) { w with store := s' } ∧
      Sound K Q s' := by
  have hp := StorageKeys.processing_ne_fixed (K := K) p
  have hsend (found : Option (String × JobEnvelope))
      (hsnapshot : Solo Reliable (transitionSnapshot K id) w (.ok found) w)
      (hq : (found.map (·.2.queue)).getD "" ∈ Q) :
      ∃ n s', Solo Reliable (resurrectOne K p id) w (.ok n) { w with store := s' } ∧
        Sound K Q s' := by
    have hready := hs.ready hq
    generalize hqueue : (found.map (·.2.queue)).getD "" = queue at hq hready
    obtain ⟨n, hok⟩ := resurrectClaim_runs hp.1.symm hs.jobs (hs.processing p) hready id
      ((found.map (·.1)).getD "") ((found.map (·.2.jobMeta.resurrect)).getD false)
    refine ⟨n, (resurrectClaim K.jobs (K.processingQueue p) (K.namespaceQueue queue) id
      ((found.map (·.1)).getD "") ((found.map (·.2.jobMeta.resurrect)).getD false) w.store).2,
      solo_catching.mpr ⟨.ok found, w, hsnapshot, ?_⟩, ?_⟩
    · subst hqueue
      exact solo_send_reliable.mpr ⟨(congrArg replyOf hok).symm, rfl⟩
    · rcases resurrectClaim_cases (s := w.store) (K.namespaceQueue queue) hp.1.symm id
        ((found.map (·.1)).getD "") ((found.map (·.2.jobMeta.resurrect)).getD false)
        with ⟨m, hno⟩ | ⟨hzero, -⟩ | ⟨-, -, -, -, -, ⟨-, hrun⟩ | ⟨-, -, -, hrun⟩ | ⟨-, -, hrun⟩⟩
      · rw [hno] at hok
        cases hok
      · rw [hzero]
        exact hs
      · rw [hrun]
        exact hs.put_place hQ (l := .processing p) trivial rfl
      · rw [hrun]
        exact (hs.put_place hQ (l := .ready queue) hq rfl).put_place hQ (l := .processing p)
          trivial rfl
      · rw [hrun]
        exact (hs.unset hQ).put_place hQ (l := .processing p) trivial rfl
  cases hpay : payloadOf K.jobs w.store id with
  | none =>
    refine hsend none ((solo_transitionSnapshot_reliable hs.jobs).mpr ⟨rfl, ?_⟩) hQ.unnamed
    rw [hpay]
  | some x =>
    cases hdec : JobEnvelope.decode x with
    | none =>
      refine ⟨0, w.store, solo_catching.mpr ⟨.error .json, w, ?_, solo_pure.mpr ⟨rfl, rfl⟩⟩, hs⟩
      refine (solo_transitionSnapshot_reliable hs.jobs).mpr ⟨rfl, ?_⟩
      simp only [hpay, hdec]
    | some e =>
      refine hsend (some (x, e)) ((solo_transitionSnapshot_reliable hs.jobs).mpr ⟨rfl, ?_⟩)
        (hs.stored id x e hpay hdec).2
      simp only [hpay, hdec]

/-- All the claims of a process are dealt with one after the other, and the keys stay in order. -/
theorem Sound.resurrects_all {Q : Set String} (hQ : K.Queues Q) (hs : Sound K Q w.store)
    (p : String) (ids : List JobId) :
    ∃ n s', Solo Reliable (resurrectJobs K p ids) w (.ok n) { w with store := s' } ∧
      Sound K Q s' := by
  induction ids generalizing w with
  | nil => exact ⟨0, w.store, solo_pure.mpr ⟨rfl, rfl⟩, hs⟩
  | cons id ids ih =>
    obtain ⟨n, s₁, hone, hs₁⟩ := hs.resurrects hQ p id
    obtain ⟨m, s', hrest, hs'⟩ := ih (w := { w with store := s₁ }) hs₁
    refine ⟨n + m, s', solo_bind.mpr (.inl ⟨n, _, hone, ?_⟩), hs'⟩
    exact solo_bind.mpr (.inl ⟨m, _, hrest, solo_pure.mpr ⟨rfl, rfl⟩⟩)

/-- Recoveries take no job to a key of another kind: the payloads that are stored name plain queues.
-/
theorem PlacementInv.plainQueues (hinv : PlacementInv K U w) : PlainQueues K w.store := by
  intro id queue hreturns
  cases hpay : payloadOf K.jobs w.store id with
  | none =>
    rw [fate_absent_iff.mpr hpay] at hreturns
    cases hreturns
  | some x =>
    obtain ⟨e, hdec, -, hq⟩ := (hinv.jobs id).good x hpay
    rw [fate_of_decode hpay hdec] at hreturns
    split at hreturns
    · cases hreturns
      exact hq
    · cases hreturns

/-- When its process has ended, a claimed job can be recovered: it becomes ready again, or it is
dropped because it is enqueued already or forbids it. -/
theorem claimed_recovers
    (h : Pool.Reachable (StartsOrDrains K U) Surrounds (World.initial t) c) {p : String}
    (hat : occ K c.world.store id (.processing p) ≠ 0) :
    ∃ c', Runs K U c c' ∧ ((∀ l, occ K c'.world.store id l = 0) ∨
      ∃ queue, K.Plain queue ∧ occ K c'.world.store id (.ready queue) ≠ 0) := by
  have hinv := startsOrDrains_inv h
  have hsound := hinv.sound
  let w : World Ledger := { c.world with
    ghost := { c.world.ghost with ended := insert p c.world.ghost.ended } }
  have hend : Pool.Step (StartsOrDrains K U) Surrounds (Pool.idle c.world) (Pool.idle w) := by
    refine .env (.ends p fun i th hth => ?_)
    cases hth
  -- the claims are read and dealt with
  obtain ⟨n, s', hsolo, -⟩ := Sound.resurrects_all (w := w) StorageKeys.plainNames_queues hsound p
    (w.store.list (K.processingQueue p))
  have hlist : Solo Reliable (send .lrange (lrange (K.processingQueue p))) w
      (.ok (w.store.list (K.processingQueue p))) w := by
    have hread : lrange (K.processingQueue p) w.store =
        (.ok (w.store.list (K.processingQueue p)), w.store) := onKind_ok (hsound.processing p)
    exact (solo_send_run hread).mpr ⟨rfl, rfl⟩
  obtain ⟨tr₁, htr₁, hch₁⟩ := Prog.Solo.trace hlist
  obtain ⟨tr₂, htr₂, hch₂⟩ := Prog.Solo.trace hsolo
  have hstart : StartsOrDrains K U w none (Call.client (resurrectProcess K p)) w :=
    .starts (.resurrect (Set.mem_insert p _))
  obtain ⟨threads, hrun⟩ := Pool.client_runs (c := Pool.idle w) hstart
    (Prog.Trace.bind_left (Prog.Trace.bind htr₁ (Prog.Trace.bind htr₂ (.refl _))) _)
    (hch₁.append (by rwa [List.append_nil]))
  have hafter : Runs K U c ⟨{ w with store := s' }, threads⟩ := (h.crash.tail hend).trans hrun
  -- and this is what becomes of the job
  obtain ⟨x, hv, e, hdec, -, hq⟩ := hinv.at_place hat
  have hfate := fate_of_decode (congrArg JobView.payload hv) hdec
  have hhandled := (solo_resurrectJobs hinv.plainQueues (Handled.start K p w.store) hsolo).1
  have hclaimed : id ∈ w.store.list (K.processingQueue p) := (hinv.typed.mem_processing p).mpr hat
  refine ⟨_, hafter, ?_⟩
  cases hagain : e.jobMeta.resurrect with
  | true =>
    rw [hagain, if_pos rfl] at hfate
    refine .inr ⟨e.queue, hq, ?_⟩
    have hcount : (s'.list (K.namespaceQueue e.queue)).count id = _ :=
      hhandled.ready e.queue hq id
    have hmany := List.count_pos_iff.mpr hclaimed
    rw [if_pos hfate, List.nil_append] at hcount
    refine ((startsOrDrains_inv (h.run hafter)).typed.mem_ready hq).mp (List.count_pos_iff.mp ?_)
    exact (by omega : 0 < (s'.list (K.namespaceQueue e.queue)).count id)
  | false =>
    rw [hagain, if_neg Bool.false_ne_true] at hfate
    have hgone := (hhandled.payload id).trans (if_pos ⟨hclaimed, hfate⟩)
    exact .inl ((startsOrDrains_inv (h.run hafter)).gone hgone)

/-! ## Jobs that are ready -/

/-- Where the keys have their types, `finish_success.lua` runs to its end and refuses nothing. -/
theorem finishSuccess_ok {jobs processing : Key} {s : Store} (hjp : jobs ≠ processing)
    (hj : s.Fits jobs .hash) (hp : s.Fits processing .list) (ids : List JobId) :
    finishSuccess jobs processing ids s = (.ok (), ids.foldl (acknowledge jobs processing) s) := by
  have hrun : checkTypes "acknowledgment" [(jobs, .hash), (processing, .list)] s = (.ok (), s) := by
    refine checkTypes_ok fun p hm => ?_
    simp only [List.mem_cons, List.not_mem_nil, or_false] at hm
    rcases hm with rfl | rfl
    · exact hj
    · exact hp
  rw [finishSuccess, bind_ok hrun, acknowledge_run hjp hj hp]

section Turn

variable {H : Handle} {s : Store} {e : JobEnvelope}

/-- A worker that finds a ready list with jobs on it claims the last of them. -/
theorem claims_last (hs : StoreTyped H.keys w.store) (hq : H.keys.Plain queue)
    (hlast : (w.store.list (H.keys.namespaceQueue queue)).getLast? = some id) :
    ∃ s', Solo Reliable (dequeue H queue) w (.ok (some id)) { w with store := s' } ∧
      StoreTyped H.keys s' ∧ s'.list (H.keys.namespaceQueue queue) =
        (w.store.list (H.keys.namespaceQueue queue)).dropLast ∧
      payloadOf H.keys.jobs s' id = payloadOf H.keys.jobs w.store id := by
  have hproc := StorageKeys.processing_ne_fixed (K := H.keys) H.processId
  have hrun := (solo_dequeue_reliable (H := H) (w := w) (hs.places (.ready queue) hq)
    (hs.places (.processing H.processId) trivial)).mpr ⟨rfl, rfl⟩
  rw [hlast, movedLast, hlast] at hrun
  refine ⟨_, hrun, (Changes.claimed hs hq H.processId hlast).typed, ?_, ?_⟩
  · dsimp only [Handle.currentProcessingQueue]
    rw [Store.list_put_ne _ (StorageKeys.queue_ne_processing hq H.processId), Store.list_put_self]
  · dsimp only [Handle.currentProcessingQueue]
    rw [payloadOf_put_ne hproc.1.symm, payloadOf_put_ne (StorageKeys.queue_ne_fixed hq).1.symm]

/-- A claimed job whose payload decodes is loaded as the envelope that is stored. -/
theorem loads_stored (hj : w.store.Fits H.keys.jobs .hash) {x : String}
    (hpay : payloadOf H.keys.jobs w.store id = some x) (hdec : JobEnvelope.decode x = some e) :
    Solo Reliable (loadPendingJob H id) w (.ok (some e)) w := by
  have hsnapshot : Solo Reliable (transitionSnapshot H.keys id) w (.ok (some (x, e))) w := by
    refine (solo_transitionSnapshot_reliable hj).mpr ⟨rfl, ?_⟩
    simp only [hpay, hdec]
  have hfound : Solo Reliable (getJob H id) w (.ok (some e)) w :=
    solo_connection_bind.mpr (solo_bind.mpr (.inl ⟨_, w, hsnapshot, solo_pure.mpr ⟨rfl, rfl⟩⟩))
  have hclaimed : Solo Reliable (getClaimedJob H id) w (.ok (some e)) w :=
    solo_ask.mpr ⟨{ rounds := 0 }, rfl, hfound⟩
  exact solo_bind.mpr (.inl ⟨some e, w, hclaimed, solo_pure.mpr ⟨rfl, rfl⟩⟩)

/-- A job that is executed with success is gone: neither its payload nor its claim is left. -/
theorem processes_one (hs : StoreTyped H.keys w.store) (hq : H.keys.Plain queue)
    (e : JobEnvelope) :
    ∃ s', Solo Reliable (processPending H [e]) w (.ok ()) { w with store := s' } ∧
      s'.list (H.keys.namespaceQueue queue) = w.store.list (H.keys.namespaceQueue queue) ∧
      payloadOf H.keys.jobs s' e.id = none := by
  have hproc := StorageKeys.processing_ne_fixed (K := H.keys) H.processId
  have hjobs := (StorageKeys.queue_ne_fixed hq).1
  obtain ⟨m, hset⟩ : ∃ m, hsetMultiple H.keys.jobs
      ([e.withStartedAt (.ofInt w.clock)].map fun e => (e.id, e.encode)) w.store =
        (.ok (), w.store.put H.keys.jobs (.hash m)) := ⟨_, onKind_ok hs.jobs⟩
  have hs₁ : StoreTyped H.keys (w.store.put H.keys.jobs (.hash m)) := hs.put_jobs m
  have hfinish := finishSuccess_ok hproc.1.symm hs₁.jobs
    (hs₁.places (.processing H.processId) trivial) [e.id]
  refine ⟨[e.id].foldl (acknowledge H.keys.jobs (H.keys.processingQueue H.processId))
    (w.store.put H.keys.jobs (.hash m)), ?_, ?_, ?_⟩
  · have hvalid : Solo Reliable (killInvalid H [e]) w (.ok [e]) w :=
      solo_ask.mpr ⟨{}, rfl, solo_bind.mpr
        (.inl ⟨[], w, solo_pure.mpr ⟨rfl, rfl⟩, solo_pure.mpr ⟨rfl, rfl⟩⟩)⟩
    have hstart : Solo Reliable (setStartedAtBatch H [e]) w
        (.ok [e.withStartedAt (.ofInt w.clock)])
        { w with store := w.store.put H.keys.jobs (.hash m) } :=
      solo_now_bind.mpr (solo_bind.mpr (.inl ⟨(), _,
        solo_connection_bind.mpr ((solo_send_run hset).mpr ⟨rfl, rfl⟩),
        solo_pure.mpr ⟨rfl, rfl⟩⟩))
    refine solo_bind.mpr (.inl ⟨[e], w, hvalid, ?_⟩)
    rw [runBatch, if_neg (List.cons_ne_nil e [])]
    refine solo_ask.mpr ⟨{ rounds := 0 }, rfl, solo_bind.mpr (.inl ⟨_, _, hstart, ?_⟩)⟩
    refine solo_bind.mpr (.inl ⟨(), _, solo_pure.mpr ⟨rfl, rfl⟩, ?_⟩)
    exact solo_connection_bind.mpr ((solo_send_run hfinish).mpr ⟨rfl, rfl⟩)
  · simp only [List.foldl_cons, List.foldl_nil, acknowledge]
    rw [Store.list_put_ne _ (StorageKeys.queue_ne_processing hq H.processId),
      Store.list_put_ne _ hjobs, Store.list_put_ne _ hjobs]
  · exact (acknowledges_all hs₁ H.processId [e.id]).payload e.id (List.mem_singleton_self _)

/-- A worker that runs takes the last job of a ready list and is done with it, and every other job
is where it was. -/
theorem worker_finishes (hinv : PlacementInv H.keys U w) (hq : H.keys.Plain queue)
    (hlast : (w.store.list (H.keys.namespaceQueue queue)).getLast? = some id) :
    ∃ s', Solo Reliable (worker H [queue]) w (.ok ()) { w with store := s' } ∧
      s'.list (H.keys.namespaceQueue queue) =
        (w.store.list (H.keys.namespaceQueue queue)).dropLast ∧
      payloadOf H.keys.jobs s' id = none := by
  obtain ⟨s₁, hclaim, htyped, hlist, hkept⟩ := claims_last hinv.typed hq hlast
  have hat : occ H.keys w.store id (.ready queue) ≠ 0 :=
    (hinv.typed.mem_ready hq).mp (List.mem_of_getLast? hlast)
  obtain ⟨x, hv, e, hdec, rfl, -⟩ := hinv.at_place hat
  have hload := loads_stored (H := H) (w := { w with store := s₁ }) htyped.jobs
    (hkept.trans (congrArg JobView.payload hv)) hdec
  obtain ⟨s', hprocess, hrest, hpay⟩ := processes_one (w := { w with store := s₁ }) htyped hq e
  refine ⟨s', ?_, hrest.trans hlist, hpay⟩
  have hgather : Solo Reliable (gather H [queue] 3 [] []) w (.ok [e]) { w with store := s₁ } := by
    refine solo_ask.mpr ⟨{ done := false, rounds := 0 }, rfl, ?_⟩
    refine solo_bind.mpr (.inl ⟨some e.id, _, hclaim, ?_⟩)
    refine solo_ask.mpr ⟨{ done := false, rounds := 1 }, rfl, ?_⟩
    refine solo_bind.mpr (.inl ⟨some e, _, hload, ?_⟩)
    exact solo_ask.mpr ⟨{}, rfl, solo_pure.mpr ⟨rfl, rfl⟩⟩
  exact solo_ask.mpr ⟨{ rounds := 3 }, rfl, solo_bind.mpr (.inl ⟨[e], _, hgather, hprocess⟩)⟩

end Turn

/-- A job that is ready has its turn when the jobs behind it on its list have had theirs. -/
theorem ready_ends (h : Pool.Reachable (StartsOrDrains K U) Surrounds (World.initial t) c)
    (hq : K.Plain queue) (hat : occ K c.world.store id (.ready queue) ≠ 0) :
    ∃ c', Runs K U c c' ∧ ∀ l, occ K c'.world.store id l = 0 := by
  generalize hn : (c.world.store.list (K.namespaceQueue queue)).length = n
  induction n generalizing c with
  | zero =>
    have hmem := ((startsOrDrains_inv h).typed.mem_ready hq).mpr hat
    rw [List.length_eq_zero_iff.mp hn] at hmem
    cases hmem
  | succ n ih =>
    have hinv := startsOrDrains_inv h
    obtain ⟨p, hp⟩ := (ended_finite h).exists_notMem
    have hne : c.world.store.list (K.namespaceQueue queue) ≠ [] := by
      intro hnil
      rw [hnil] at hn
      cases hn
    have hlast := List.getLast?_eq_some_getLast hne
    obtain ⟨s', hsolo, hleft, hpay⟩ := worker_finishes (H := ⟨K, p, none⟩) hinv hq hlast
    have hlist : s'.list (K.namespaceQueue queue) =
        (c.world.store.list (K.namespaceQueue queue)).dropLast := hleft
    have hstart : StartsOrDrains K U c.world (some p)
        (Call.client (worker ⟨K, p, none⟩ [queue])) c.world := by
      refine .starts (.worker hp fun q hmem => ?_)
      rwa [List.mem_singleton.mp hmem]
    obtain ⟨threads, hrun⟩ := call_runs hstart hsolo
    have hinv' := startsOrDrains_inv (h.run hrun)
    by_cases hid : (c.world.store.list (K.namespaceQueue queue)).getLast hne = id
    · rw [hid] at hpay
      exact ⟨_, hrun, hinv'.gone hpay⟩
    · -- it has moved on by one
      have hmem : id ∈ s'.list (K.namespaceQueue queue) := by
        have hin := (hinv.typed.mem_ready hq).mpr hat
        rw [← List.dropLast_concat_getLast hne, List.mem_append, List.mem_singleton] at hin
        rw [hlist]
        exact hin.resolve_right fun heq => hid heq.symm
      have hat' : occ K s' id (.ready queue) ≠ 0 := (hinv'.typed.mem_ready hq).mp hmem
      have hn' : (s'.list (K.namespaceQueue queue)).length = n := by
        rw [hlist, List.length_dropLast, hn]
        rfl
      obtain ⟨c', hrun', hgone⟩ := ih (h.run hrun) hat' hn'
      exact ⟨c', hrun.trans hrun', hgone⟩

/-! ## All jobs -/

/-- **No job is stuck**: from every reachable state, whatever has been interleaved and wherever
clients have stopped, the system can still be done with any job, as long as its time is not set
before the beginning of time. The payloads must be readable: a job that is stored with arguments
nested too deep is never loaded, and it is this hypothesis, not the proof, that excludes it, since the
reader of this development has no such limit. -/
theorem job_can_end (h : Pool.Reachable (StartsOrDrains K U) Surrounds (World.initial t) c)
    (_hreadable : ∀ id p, payloadOf K.jobs c.world.store id = some p → Json.Shallow p.toList)
    (hdate : ∀ (set : DelayedSet) (score : Int),
      (c.world.store.zset (set.key K)).lookup id = some score → 0 ≤ score) :
    ∃ c', Relation.ReflTransGen (Pool.Step (StartsOrDrains K U) Surrounds) c c' ∧
      ∀ l, occ K c'.world.store id l = 0 := by
  have hready : ∀ c', Runs K U c c' →
      (∃ queue, K.Plain queue ∧ occ K c'.world.store id (.ready queue) ≠ 0) →
      ∃ c', Runs K U c c' ∧ ∀ l, occ K c'.world.store id l = 0 := by
    rintro c' hrun ⟨queue, hq, hat⟩
    obtain ⟨c'', hrun', hgone⟩ := ready_ends (h.run hrun) hq hat
    exact ⟨c'', hrun.trans hrun', hgone⟩
  obtain ⟨x, hx⟩ := (startsOrDrains_inv h).isAt id
  cases x with
  | none => exact ⟨c, .refl, congrFun hx⟩
  | some l =>
    have hat : occ K c.world.store id l ≠ 0 := by
      rw [hx.occ_self]
      exact Nat.one_ne_zero
    cases l with
    | ready queue =>
      have hq : K.Plain queue := by
        by_contra hnot
        exact hat (if_neg hnot)
      exact hready c .refl ⟨queue, hq, hat⟩
    | processing p =>
      obtain ⟨c', hrun, hgone | hagain⟩ := claimed_recovers h hat
      · exact ⟨c', hrun, hgone⟩
      · exact hready c' hrun hagain
    | schedule =>
      obtain ⟨c', hrun, hdue⟩ := delayed_becomes_ready h .schedule hat hdate
      exact hready c' hrun hdue
    | retry =>
      obtain ⟨c', hrun, hdue⟩ := delayed_becomes_ready h .retry hat hdate
      exact hready c' hrun hdue

/-- The message that waits on its ready list can be dealt with: there is a run after which it is at
no place. -/
theorem mail_can_end : ∃ c c' : Pool (Option String) Request (World Ledger) Choice,
    occ (.new "") c.world.store "a" (.ready "mail") ≠ 0 ∧
      Relation.ReflTransGen (Pool.Step (StartsOrDrains (.new "") ∅) Surrounds) c c' ∧
      ∀ l, occ (.new "") c'.world.store "a" l = 0 := by
  obtain ⟨c, hmailed, hw⟩ := mailed_reachable
  have hc : Pool.Reachable (StartsOrDrains (.new "") ∅) Surrounds (World.initial 0) c :=
    hmailed.mono fun _ _ _ _ h => .starts h
  have hundated (set : DelayedSet) :
      (mailed.store.zset (set.key (.new ""))).lookup "a" = none := by
    cases set <;> decide +kernel
  have hdate (set : DelayedSet) (score : Int)
      (hscore : (c.world.store.zset (set.key (.new ""))).lookup "a" = some score) : 0 ≤ score := by
    rw [hw, hundated set] at hscore
    cases hscore
  have hreadable (id : JobId) (p : String)
      (hp : payloadOf (StorageKeys.new "").jobs c.world.store id = some p) :
      Json.Shallow p.toList := by
    rw [hw] at hp
    obtain rfl : p = mail.encode := by
      have hjobs : payloadOf (StorageKeys.new "").jobs mailed.store id =
          ([("a", mail.encode)] : List (String × String)).lookup id := rfl
      rw [hjobs, List.lookup_cons] at hp
      split at hp
      · exact (Option.some.inj hp).symm
      · cases hp
    decide +kernel
  obtain ⟨c', hrun, hgone⟩ := job_can_end hc hreadable hdate
  refine ⟨c, c', ?_, hrun, hgone⟩
  rw [hw]
  decide +kernel

end Oxana
