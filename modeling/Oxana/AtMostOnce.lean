import Oxana.WorkerCustody
import Oxana.SweepCustody

/-!
# Every job is at most at one place

The whole system: any number of producers, workers, schedulers and recoveries,
started at any time, interleaved command by command, each of which may stop at
any point. Ordinary jobs have ids of their own and unique jobs skip; recovery is
for processes whose executions have ended.

`placed_at_most_once` says that in every reachable state every job id occurs at
most once on all ready and processing lists and in the two sorted sets together,
and that what is placed is stored.
-/

namespace Oxana

open Redis Interleave Call

variable {K : StorageKeys} {U : Set JobId}

/-- A call that keeps to the discipline makes a client that does. -/
theorem Call.Keeps.client {γ α ο τ : Type} {D : Discipline ο (World γ) τ} {o : ο}
    {P : World γ → Prop} {Q : α → Set τ → Prop} {R : Set τ → Prop} {T : Set τ} {x : Call γ α}
    (h : Call.Keeps D o P Q R T x) : D.Safe o P (fun _ _ => True) T (Call.client x) :=
  Discipline.Safe.bind h fun _ _ _ => trivial

/-- The world in which the ids of these envelopes have been handed out. -/
def World.issue (w : World Ledger) (es : List JobEnvelope) : World Ledger :=
  { w with ghost := { w.ghost with issued := w.ghost.issued ∪ {id | id ∈ ordinaryIds es} } }

/-- What a producer may be asked to enqueue: its ordinary jobs have new ids. -/
structure Submittable (K : StorageKeys) (U : Set JobId) (w : World Ledger)
    (es : List JobEnvelope) : Prop where
  /-- each can be enqueued -/
  each : ∀ e ∈ es, Enqueueable K U e
  /-- no ordinary id twice -/
  nodup : (ordinaryIds es).Nodup
  /-- no ordinary id that has been handed out before -/
  new : ∀ id ∈ ordinaryIds es, id ∉ w.ghost.issued

/-- The clients that may be started, each with the process on whose behalf it runs: producers whose
jobs may be submitted, the workers of running processes, schedulers, and recoveries of processes
that have ended. -/
inductive Starts (K : StorageKeys) (U : Set JobId) :
    World Ledger → Option String → Prog Request (World Ledger) Choice Unit → World Ledger → Prop
  /-- `enqueue` -/
  | enqueue {w : World Ledger} {e : JobEnvelope} : Submittable K U w [e] →
      Starts K U w none (Call.client (enqueue K e)) (w.issue [e])
  /-- `enqueue_at` -/
  | enqueueAt {w : World Ledger} {e : JobEnvelope} : Submittable K U w [e] →
      Starts K U w none (Call.client (enqueueAt K e)) (w.issue [e])
  /-- `enqueue_list` -/
  | enqueueList {w : World Ledger} {es : List JobEnvelope} : Submittable K U w es →
      Starts K U w none (Call.client (enqueueList K es)) (w.issue es)
  /-- a worker of a running process -/
  | worker {w : World Ledger} {processId : String} {deadJobLimit : Option Nat}
      {queues : List String} : processId ∉ w.ghost.ended → (∀ q ∈ queues, K.Plain q) →
      Starts K U w (some processId) (Call.client (worker ⟨K, processId, deadJobLimit⟩ queues)) w
  /-- `enqueue_scheduled`, for the schedule or the retry set -/
  | enqueueScheduled {w : World Ledger} {l : Loc} : l.Delayed →
      Starts K U w none (Call.client (enqueueScheduled K (l.key K))) w
  /-- `retry_all_now` -/
  | retryAllNow {w : World Ledger} : Starts K U w none (Call.client (retryAllNow K)) w
  /-- the recovery of a process whose executions have ended -/
  | resurrect {w : World Ledger} {processId : String} : processId ∈ w.ghost.ended →
      Starts K U w none (Call.client (resurrectProcess K processId)) w

/-- What happens by itself: the clock is set to any time, and a process ends for which no client
runs any more. -/
inductive Surrounds :
    Pool (Option String) Request (World Ledger) Choice → World Ledger → Prop
  /-- the clock is set -/
  | clock {c : Pool (Option String) Request (World Ledger) Choice} (t : Int) :
      Surrounds c { c.world with clock := t }
  /-- a process ends that nobody works for any more -/
  | ends {c : Pool (Option String) Request (World Ledger) Choice} (processId : String) :
      (∀ i th, c.threads i = some th → th.owner ≠ some processId) →
      Surrounds c
        { c.world with ghost := { c.world.ghost with ended := insert processId c.world.ghost.ended } }

/-- The world in which nothing has happened yet, at some time. -/
def World.initial (t : Int) : World Ledger := ⟨Store.empty, t, ⟨∅, ∅, 0⟩⟩

/-! ## The system keeps to the discipline -/

/-- In the world with which everything begins, nothing is placed and nothing has been handed out. -/
theorem initial_inv (t : Int) : PlacementInv K U (World.initial t) := by
  refine ⟨⟨Store.fits_empty _, Store.fits_empty _, fun _ _ => Store.fits_empty _⟩, fun id => ?_⟩
  have hview : jobView K Store.empty id = ⟨none, 0⟩ := by
    have hocc : occ K Store.empty id = 0 := by
      funext l
      simp [occ, Store.empty]
    rw [jobView, hocc]
    rfl
  show JobOk K U ∅ id (jobView K Store.empty id)
  rw [hview]
  exact .gone

/-- The ids of a request that may be submitted are fresh, and may be handed out with it. -/
theorem issue_trades {w : World Ledger} {es : List JobEnvelope} (hinv : PlacementInv K U w)
    (hes : Submittable K U w es) :
    (custody K U).Trades none ∅ (Custody.freshes (ordinaryIds es)) w (w.issue es) := by
  have hU : ∀ id ∈ ordinaryIds es, id ∉ U := by
    intro id hid
    obtain ⟨e, he, rfl⟩ := List.mem_map.mp hid
    obtain ⟨hmem, hord⟩ := List.mem_filter.mp he
    exact (hes.each e hmem).ordinary (by simpa using hord)
  have hgone : ∀ id ∈ ordinaryIds es, jobView K w.store id = ⟨none, 0⟩ := by
    intro id hid
    have hpay : (jobView K w.store id).payload = none := by
      by_contra hne
      exact hes.new id hid ((hinv.jobs id).known (hU id hid) hne)
    have hplaces : (jobView K w.store id).places = 0 :=
      by_contra fun hne => (hinv.jobs id).stored hne hpay
    rw [← hpay, ← hplaces]
  refine ⟨⟨hinv.typed, fun id => ?_⟩, fun o => ⟨Set.Subset.rfl, fun _ _ h => h⟩, ?_, ?_,
    Custody.freshes_mine, ?_⟩
  · have hok := hinv.jobs id
    exact ⟨hok.once, hok.stored, hok.good, fun h₁ h₂ => .inl (hok.known h₁ h₂)⟩
  · intro t _ hown
    cases t with
    | claim p id => exact hown
    | fresh id => exact ⟨hown.1, .inl hown.2.1, hown.2.2⟩
    | staged id => exact hown
  · rintro t ⟨id, hid, rfl⟩
    exact ⟨hU id hid, .inr hid, hgone id hid⟩
  · rintro t ⟨id, hid, rfl⟩ - hown
    exact hes.new id hid hown.2.1

/-- Every client that may be started keeps to the custody of ids, with the ids it has been handed.
-/
theorem starts_ok : (custody K U).LaunchOk (Starts K U) := by
  intro w o p w' hinv hstart
  have hstable : ∀ o, (custody K U).Stable o fun _ => True := fun _ _ _ _ _ => trivial
  have hstay : ∀ o, (custody K U).Trades o ∅ ∅ w w := fun o =>
    .refl hinv (fun _ h => absurd h (Set.notMem_empty _)) Custody.none_mine
  cases hstart with
  | enqueue hes =>
    exact ⟨_, issue_trades hinv hes, _, hstable _, trivial,
      (enqueueOne_produces (hes.each _ (List.mem_singleton_self _)) .queue).client⟩
  | enqueueAt hes =>
    exact ⟨_, issue_trades hinv hes, _, hstable _, trivial,
      (enqueueAt_produces (hes.each _ (List.mem_singleton_self _))).client⟩
  | enqueueList hes =>
    exact ⟨_, issue_trades hinv hes, _, hstable _, trivial,
      (enqueueList_produces hes.each hes.nodup).client⟩
  | @worker processId deadJobLimit queues hlive hq =>
    refine ⟨∅, hstay _, Handle.Live ⟨K, processId, deadJobLimit⟩, ?_, hlive,
      (worker_works (H := ⟨K, processId, deadJobLimit⟩) hq).client⟩
    exact fun s s' hmoves h => hmoves.2 processId rfl h
  | enqueueScheduled hl =>
    exact ⟨∅, hstay _, _, hstable _, trivial, (enqueueScheduled_sweeps hl).client⟩
  | retryAllNow =>
    exact ⟨∅, hstay _, _, hstable _, trivial, retryAllNow_sweeps.client⟩
  | @resurrect processId hended =>
    refine ⟨∅, hstay _, Ended processId, ?_, hended, (resurrectProcess_sweeps processId).client⟩
    exact fun s s' hmoves h => hmoves.1 h

/-- What surrounds the clients leaves the custody of ids alone. -/
theorem surrounds_ok : (custody K U).EnvOk (ℓ := Request) (ι := Choice) Surrounds := by
  intro c w' hinv henv
  cases henv with
  | clock t =>
    exact ⟨⟨hinv.typed, hinv.jobs⟩, fun _ _ _ => ⟨⟨Set.Subset.rfl, fun _ _ h => h⟩, fun _ _ h => h⟩⟩
  | ends processId hnobody =>
    refine ⟨⟨hinv.typed, hinv.jobs⟩, fun i th hth => ⟨⟨Set.subset_insert _ _, ?_⟩, ?_⟩⟩
    · rintro p hp hlive (rfl | hended)
      · exact hnobody i th hth hp
      · exact hlive hended
    · -- claims of the process that ends are in nobody's hands
      intro t hmine hown
      cases t with
      | claim p id =>
        refine ⟨?_, hown.2⟩
        rintro (rfl | hended)
        · exact hnobody i th hth hmine
        · exact hown.1 hended
      | fresh id => exact hown
      | staged id => exact hown

/-- **At most once**: in every reachable state, whatever the interleaving, every
id is at most once on the ready lists, the processing lists, in the schedule and
in the retry set, and if it is there, its envelope is stored. -/
theorem placed_at_most_once {t : Int} {c : Pool (Option String) Request (World Ledger) Choice}
    (h : Pool.Reachable (Starts K U) Surrounds (World.initial t) c) (id : JobId) :
    (∀ S : Finset Loc, ∑ l ∈ S, occ K c.world.store id l ≤ 1) ∧
      ∀ l, occ K c.world.store id l ≠ 0 →
        ∃ p e, payloadOf K.jobs c.world.store id = some p ∧ JobEnvelope.decode p = some e ∧
          e.id = id := by
  have hinv : PlacementInv K U c.world :=
    Discipline.reachable_inv starts_ok surrounds_ok (initial_inv t) h
  refine ⟨(hinv.jobs id).once, fun l hl => ?_⟩
  obtain ⟨p, hv, e, hdec, hid, -⟩ := hinv.at_place hl
  exact ⟨p, e, congrArg JobView.payload hv, hdec, hid⟩

/-- The world once `mail` has been enqueued. -/
def mailed : World Ledger :=
  (((World.initial 0).issue [mail]).after (hset (StorageKeys.new "").jobs mail.id mail.encode)).after
    (lpush ((StorageKeys.new "").namespaceQueue mail.queue) mail.id)

/-- The world with the one message is reachable: a producer has enqueued it. -/
theorem mailed_reachable : ∃ c : Pool (Option String) Request (World Ledger) Choice,
    Pool.Reachable (Starts (.new "") ∅) Surrounds (World.initial 0) c ∧ c.world = mailed := by
  have hstart : Starts (.new "") ∅ (World.initial 0) none (Call.client (enqueue (.new "") mail))
      ((World.initial 0).issue [mail]) := by
    refine .enqueue ⟨fun e he => ?_, by decide, fun _ _ h => h⟩
    rw [List.mem_singleton.mp he]
    exact ⟨by decide, fun _ h => h, fun h => absurd h (by decide), fun h => absurd h (by decide)⟩
  have hpipe : Call.Returns (pipe .hset ([mail].flatMap (ordinaryWrites (.new "") .queue)))
      [⟨.hset, (World.initial 0).issue [mail], _⟩, ⟨.hset, _, mailed⟩] [(), ()] :=
    .pipe_cons _ rfl (.pipe_cons _ rfl .pipe_nil)
  have hchunk : Call.Returns (enqueueChunk (.new "") [mail] .queue []) _ [] :=
    hpipe.bind (.pure _)
  have hcall : Call.Returns (enqueue (.new "") mail) _ mail.id :=
    Call.Returns.connection.bind (hchunk.bind (.pure _))
  exact ⟨_, (Pool.Reachable.start.next (.launch (i := 0) rfl hstart)).trace
    (Function.update_self ..) (Prog.Trace.bind hcall (.refl _)) ⟨rfl, rfl, rfl⟩, rfl⟩

/-- The message that has been enqueued is counted once, on the ready list of its queue, and its
envelope is stored. -/
theorem mail_placed_once : ∃ c : Pool (Option String) Request (World Ledger) Choice,
    c.world = mailed ∧ (∀ S : Finset Loc, ∑ l ∈ S, occ (.new "") c.world.store "a" l ≤ 1) ∧
      ∀ l, occ (.new "") c.world.store "a" l ≠ 0 →
        ∃ p e, payloadOf (StorageKeys.new "").jobs c.world.store "a" = some p ∧
          JobEnvelope.decode p = some e ∧ e.id = "a" := by
  obtain ⟨c, hc, hw⟩ := mailed_reachable
  exact ⟨c, hw, placed_at_most_once hc "a"⟩

end Oxana
