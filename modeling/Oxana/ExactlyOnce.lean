import Oxana.AtMostOnce
import Oxana.ProducerSteps

/-!
# Unclaimed unique jobs have one home

Producers that skip and replace, and schedulers, but nobody who claims: then a
stored job is at exactly one place, and that is the schedule, the retry set or
the ready list of the queue its payload names; and a job that is not stored is
nowhere (`replaced_exactly_once`).

No ownership is needed here. A replacement that commits has been told the queue
of what it replaces by a payload that is still the stored one, and a promotion
moves a job to the queue of the payload it compares with, so every single step
keeps the invariant, whatever its client has read before.
-/

namespace Oxana

open Redis Script Interleave Call

variable {γ : Type} {K : StorageKeys} {s s' : Store} {id : JobId}

/-- The places where a job may be: the delayed sets and the ready list of its queue. -/
def JobEnvelope.MayBeAt (e : JobEnvelope) (l : Loc) : Prop := l.Delayed ∨ l = .ready e.queue

/-- The job is stored and at one of its places, or it is gone. -/
structure Homed (K : StorageKeys) (id : JobId) (v : JobView) : Prop where
  /-- what is not stored is nowhere -/
  gone : v.payload = none → v.places = 0
  /-- what is stored is at one place -/
  home : ∀ p, v.payload = some p → ∃ e l, JobEnvelope.decode p = some e ∧ e.id = id ∧
    K.Plain e.queue ∧ e.MayBeAt l ∧ v.places = only l

/-- The invariant of the store: every job is stored and at one place, or gone. -/
structure HomeInv (K : StorageKeys) (s : Store) : Prop where
  /-- the keys have their types -/
  typed : StoreTyped K s
  /-- every job has its home -/
  jobs : ∀ id, Homed K id (jobView K s id)

/-- If only one job is changed, and is at home afterwards, all jobs are. -/
theorem HomeInv.change (h : HomeInv K s) {f : JobView → JobView} (hch : Changes K s id f s')
    (hok : Homed K id (f (jobView K s id))) : HomeInv K s' := by
  refine ⟨hch.typed, fun id' => ?_⟩
  by_cases hid : id' = id
  · subst hid
    rw [hch.eq]
    exact hok
  · rw [hch.ne hid]
    exact h.jobs id'

/-- A job that is stored and at one place where it may be is at home. -/
theorem Homed.at_place {p : String} {e : JobEnvelope} {l : Loc}
    (hdec : JobEnvelope.decode p = some e) (hid : e.id = id) (hq : K.Plain e.queue)
    (hl : e.MayBeAt l) : Homed K id ⟨some p, only l⟩ := by
  refine ⟨fun h => absurd h (Option.some_ne_none p), fun p' hp => ?_⟩
  obtain rfl := Option.some.inj hp
  exact ⟨e, l, hdec, hid, hq, hl, rfl⟩

/-- Where all jobs are at home, every payload can be read. -/
theorem HomeInv.valid (h : HomeInv K s) : Valid K s := by
  intro id p hp
  obtain ⟨e, l, hdec, -⟩ := (h.jobs id).home p hp
  rw [hdec]
  rfl

/-- The view of a job that is stored: its payload is an envelope of its own id, and it is at one
place where it may be. -/
theorem HomeInv.stored (h : HomeInv K s) {p : String} (hp : payloadOf K.jobs s id = some p) :
    ∃ e l, JobEnvelope.decode p = some e ∧ e.id = id ∧ K.Plain e.queue ∧ e.MayBeAt l ∧
      jobView K s id = ⟨some p, only l⟩ := by
  obtain ⟨e, l, hdec, hid, hq, hl, hplaces⟩ := (h.jobs id).home p hp
  refine ⟨e, l, hdec, hid, hq, hl, ?_⟩
  rw [← hp]
  exact congrArg (JobView.mk _) hplaces

/-- The view of a job that is not stored: it is nowhere. -/
theorem HomeInv.absent (h : HomeInv K s) (hp : payloadOf K.jobs s id = none) :
    jobView K s id = ⟨none, 0⟩ := by
  rw [← hp]
  exact congrArg (JobView.mk _) ((h.jobs id).gone hp)

/-! ## Enqueueing -/

section Enqueue

variable {e : JobEnvelope}

/-- A job that makes room is at none of its places any more. -/
theorem displaced_places {e₀ : JobEnvelope} {p : Option String} {l : Loc} (hl : e₀.MayBeAt l) :
    ((((⟨p, only l⟩ : JobView).exit .schedule).exit .retry).exit (.ready e₀.queue)).exit
      (.ready e.queue) = ⟨p, 0⟩ := by
  simp only [JobView.exit]
  congr 1
  funext l'
  simp only [Function.update_apply, only]
  rcases hl with (rfl | rfl) | rfl
  all_goals
    split_ifs
    all_goals simp_all

/-- Storing a job that is nowhere and placing it brings it home, and leaves all others at home. -/
theorem HomeInv.enqueued (htyped : StoreTyped K s') (h : HomeInv K s)
    (hframe : ∀ id, id ≠ e.id → jobView K s' id = jobView K s id) {p : Option String}
    (hview : jobView K s' e.id = ⟨p, 0⟩) (hq : K.Plain e.queue) (destination : JobDestination) :
    HomeInv K (place K destination e (record K e s')) := by
  obtain ⟨f, hch, hf⟩ := Changes.enqueued htyped hq destination
  refine ⟨hch.typed, fun id => ?_⟩
  by_cases hid : id = e.id
  · subst hid
    rw [hch.eq, hview, hf]
    refine .at_place (decode_encode e) rfl hq ?_
    cases destination with
    | queue => exact .inr rfl
    | schedule => exact .inl (.inl rfl)
  · rw [hch.ne hid, hframe id hid]
    exact h.jobs id

/-- **Processing one envelope keeps the invariant**, whether it is skipped, replaces a job or is the
first of its id. -/
theorem enqueueSpec_homed (h : HomeInv K s) (hu : e.jobMeta.unique = true) (hq : K.Plain e.queue)
    (destination : JobDestination) : HomeInv K (enqueueSpec K destination s e) := by
  rcases hp : payloadOf K.jobs s e.id with _ | p
  · -- nothing to skip, and nothing to make room for
    have hdis : (if e.replaces then displace K e s else s) = s := by
      have hnone : storedQueue K s e.id = none := by
        rw [storedQueue, hp]
        rfl
      split
      · rw [displace, hnone]
      · rfl
    have hskip : ¬ (e.skips && (none : Option String).isSome) = true := by simp
    rw [enqueueSpec, hp, if_neg hskip, hdis]
    exact .enqueued h.typed h (fun _ _ => rfl) (h.absent hp) hq destination
  · simp only [enqueueSpec]
    split
    · exact h
    · next hskip =>
      have hrep : e.replaces = true := by
        simp only [JobEnvelope.skips] at hskip
        simp only [JobEnvelope.replaces]
        simpa [hu, hp] using hskip
      obtain ⟨e₀, l, hdec, -, hq₀, hl, hview⟩ := h.stored hp
      have hstored : storedQueue K s e.id = some e₀.queue := by
        rw [storedQueue, hp]
        simp [hdec]
      have hch := Changes.displaced h.typed hq hq₀ hstored
      rw [if_pos hrep]
      refine .enqueued (p := some p) hch.typed h (fun id hid => hch.ne hid) ?_ hq destination
      rw [hch.eq, hview, displaced_places hl]

end Enqueue

/-! ## Promotion -/

section Promote

variable {l : Loc}

/-- The script of a promotion keeps the invariant: a job that is due leaves its set for the ready
list of its queue. -/
theorem promoteScheduled_homed (hw : HomeInv K s) (hl : l.Delayed)
    {found : Option (String × JobEnvelope)} (hfound : Decoded found) (id : JobId) (score : Int) :
    HomeInv K (promoteScheduled K.jobs (l.key K)
      (K.namespaceQueue ((found.map (·.2.queue)).getD "")) id ((found.map (·.1)).getD "") score
      s).2 := by
  rcases promoteScheduled_cases (s := s) K.jobs (l.key K)
    (K.namespaceQueue ((found.map (·.2.queue)).getD "")) id
    ((found.map (·.1)).getD "") score with ⟨_, hx⟩ | hx | ⟨-, -, -, hscore, heq, hmove⟩
  · rw [hx]
    exact hw
  · rw [hx]
    exact hw
  · have hocc : (jobView K s id).places l ≠ 0 := hw.typed.waits hl hscore
    rcases hpay : payloadOf K.jobs s id with _ | p
    · rw [hw.absent hpay] at hocc
      exact absurd rfl hocc
    · obtain ⟨e, l', hdec, hid, hq, -, hview⟩ := hw.stored hpay
      obtain rfl : l = l' := by
        rw [hview] at hocc
        exact by_contra fun hne => hocc (only_ne hne)
      rw [hpay] at heq
      -- the payload is the one the snapshot was taken of
      have hqueue : (found.map (·.2.queue)).getD "" = e.queue := queue_of_snapshot hfound hdec heq
      rw [hqueue] at hmove ⊢
      rcases hmove with ⟨hnone, -⟩ | ⟨-, -, -, hx⟩
      · rw [hpay] at hnone
        cases hnone
      · rw [hx]
        have hch := Changes.promoted id hw.typed hq hl
        refine hw.change hch ?_
        rw [hview, JobView.exit_join (hl.ne_ready _), JobView.exit_only, JobView.join_zero]
        exact .at_place hdec hid hq (.inr rfl)

end Promote

/-! ## The system -/

/-- The clients of the system: producers of unique jobs on plain queues, whatever their strategy,
and schedulers that promote what is due. -/
inductive Offers (K : StorageKeys) :
    World Unit → Unit → Prog Request (World Unit) Choice Unit → World Unit → Prop
  /-- `enqueue` -/
  | enqueue {w : World Unit} {e : JobEnvelope} : e.jobMeta.unique = true → K.Plain e.queue →
      Offers K w () (Call.client (enqueue K e)) w
  /-- `enqueue_at` -/
  | enqueueAt {w : World Unit} {e : JobEnvelope} : e.jobMeta.unique = true → K.Plain e.queue →
      Offers K w () (Call.client (enqueueAt K e)) w
  /-- `enqueue_list` -/
  | enqueueList {w : World Unit} {es : List JobEnvelope} :
      (∀ e ∈ es, e.jobMeta.unique = true ∧ K.Plain e.queue) →
      Offers K w () (Call.client (enqueueList K es)) w
  /-- `enqueue_scheduled`, for the schedule or the retry set -/
  | enqueueScheduled {w : World Unit} {l : Loc} : l.Delayed →
      Offers K w () (Call.client (enqueueScheduled K (l.key K))) w
  /-- `retry_all_now` -/
  | retryAllNow {w : World Unit} : Offers K w () (Call.client (retryAllNow K)) w

/-- What the steps of producers and schedulers keep. -/
structure OffersKeep (K : StorageKeys) (I : Store → Prop) : Prop where
  /-- what is stored are envelopes -/
  valid : ∀ s, I s → Valid K s
  /-- processing an envelope keeps it -/
  enqueue : ∀ s e destination, I s → e.jobMeta.unique = true → K.Plain e.queue →
    I (enqueueSpec K destination s e)
  /-- so does promoting a job to the queue of its snapshot -/
  promote : ∀ s (l : Loc) (found : Option (String × JobEnvelope)) id score, I s → l.Delayed →
    Decoded found → I (promoteScheduled K.jobs (l.key K)
      (K.namespaceQueue ((found.map (·.2.queue)).getD "")) id ((found.map (·.1)).getD "") score s).2

/-- The call keeps a fact about the store at each of its steps. -/
abbrev Upholds {α : Type} (I : Store → Prop) (Q : α → Prop) (x : Call γ α) : Prop :=
  Call.Always (fun _ w => I w.store) (fun _ _ w' => I w'.store) Q x

section Keep

variable {I : Store → Prop} {l : Loc}

/-- A step that reads keeps every invariant. -/
theorem Upholds.read {α : Type} {l : Request} {x : Script α} (hx : ∀ s, (x s).2 = s) :
    Upholds (γ := γ) I (fun _ => True) (send l x) := by
  refine .send (fun w hw => ?_) fun _ _ _ _ => trivial
  show I (x w.store).2
  rw [hx]
  exact hw

/-- A call that enqueues keeps what processing an envelope keeps. -/
theorem OffersKeep.enqueuing {α : Type} {x : Call γ α} (hI : OffersKeep K I) (h : Enqueuing K x) :
    Upholds I (fun _ => True) x := by
  refine Always.weaken h (fun _ w hw => hI.valid w.store hw) fun _ w w' hw hstep => ?_
  exact hstep.keeps (fun destination s e hu hq hs => hI.enqueue s e destination hs hu hq) hw

/-- A promotion of one job keeps what its script keeps. -/
theorem OffersKeep.promoteOne (hI : OffersKeep K I) (hl : l.Delayed) (id : JobId) (score : Int) :
    Upholds (γ := γ) I (fun _ => True) (promoteOne K (l.key K) id score) := by
  have hsnap : Upholds (γ := γ) I Decoded (transitionSnapshot K id) :=
    transitionSnapshot_always (fun _ hw => hw) id
  refine hsnap.catching (fun found hfound => ?_) fun e => ?_
  · exact .send (fun w hw => hI.promote w.store l found id score hw hl hfound)
      fun _ _ _ _ => trivial
  · cases e with
    | json => exact .pure trivial
    | redis b => exact .fail _
    | jobNotFound => exact .fail _
    | generic => exact .fail _
    | config _ => exact .fail _

/-- The promotions of several jobs keep what the script keeps. -/
theorem OffersKeep.promoteScheduledJobs (hI : OffersKeep K I) (hl : l.Delayed)
    (jobs : List (JobId × Int)) :
    Upholds (γ := γ) I (fun _ => True) (promoteScheduledJobs K (l.key K) jobs) := by
  induction jobs with
  | nil => exact .pure trivial
  | cons job jobs ih =>
    exact (hI.promoteOne hl job.1 job.2).bind fun _ _ => ih.bind fun _ _ => .pure trivial

/-- `enqueue_scheduled` keeps what the script of a promotion keeps. -/
theorem OffersKeep.enqueueScheduled (hI : OffersKeep K I) (hl : l.Delayed) :
    Upholds (γ := γ) I (fun _ => True) (enqueueScheduled K (l.key K)) := by
  refine (Always.now (Q := fun _ => True) (fun w hw => hw) fun _ _ => trivial).bind fun t _ => ?_
  refine Always.connection.bind fun _ _ => ?_
  exact (Upholds.read fun s => zrangeByScore_snd ..).bind fun jobs _ =>
    hI.promoteScheduledJobs hl jobs

/-- `retry_all_now` keeps what the script of a promotion keeps. -/
theorem OffersKeep.retryAllNow (hI : OffersKeep K I) :
    Upholds (γ := γ) I (fun _ => True) (retryAllNow K) := by
  refine Always.connection.bind fun _ _ => ?_
  exact (Upholds.read fun s => zrangeWithScores_snd ..).bind fun jobs _ =>
    hI.promoteScheduledJobs (l := .retry) (.inr rfl) jobs

/-- Every client keeps what processing an envelope and the script of a promotion keep. -/
theorem OffersKeep.offers (hI : OffersKeep K I) {w w' : World Unit} {o : Unit}
    {p : Prog Request (World Unit) Choice Unit} (h : Offers K w o p w') : w' = w ∧
      Prog.Always (fun _ w => I w.store) (fun _ _ w' => I w'.store) (fun _ => True) p := by
  have hclient : ∀ {α : Type} {x : Call Unit α}, Upholds I (fun _ => True) x →
      Prog.Always (fun _ w => I w.store) (fun _ _ w' => I w'.store) (fun _ => True)
        (Call.client x) :=
    fun h => Prog.Always.bind h fun _ _ => trivial
  cases h with
  | enqueue hu hq => exact ⟨rfl, hclient (hI.enqueuing (enqueueOne_enqueuing hu hq .queue))⟩
  | enqueueAt hu hq => exact ⟨rfl, hclient (hI.enqueuing (enqueueAt_enqueuing hu hq))⟩
  | enqueueList hes =>
    exact ⟨rfl, hclient (hI.enqueuing
      ((enqueueList_places fun e he => (hes e he).1).enqueuing hes))⟩
  | enqueueScheduled hl => exact ⟨rfl, hclient (hI.enqueueScheduled hl)⟩
  | retryAllNow => exact ⟨rfl, hclient hI.retryAllNow⟩

/-- So it holds in every reachable state if it holds at first. -/
theorem OffersKeep.reachable (hI : OffersKeep K I) {w : World Unit}
    {c : Pool Unit Request (World Unit) Choice}
    (h : Pool.Reachable (Offers K) TimePasses w c) (hw : I w.store) : I c.world.store := by
  refine h.always_inv (I := fun w => I w.store) ?_ ?_ hw
  · intro w o p w' hw hl
    obtain ⟨rfl, hp⟩ := hI.offers hl
    exact ⟨hw, hp⟩
  · rintro c w' hw ⟨t⟩
    exact hw

end Keep

/-- Producers and promotions keep all jobs at home. -/
theorem homeInv_kept : OffersKeep K (HomeInv K) where
  valid _ h := h.valid
  enqueue _ _ destination h hu hq := enqueueSpec_homed h hu hq destination
  promote _ _ _ id score h hl hfound := promoteScheduled_homed h hl hfound id score

/-- In the empty store all jobs are at home, as there are none. -/
theorem homeInv_empty : HomeInv K Store.empty :=
  ⟨storeTyped_empty, fun id => ⟨fun _ => funext (occ_empty id), fun _ hp => nomatch hp⟩⟩

/-- **Exactly once**: in every reachable state a stored job is at exactly one
place, namely the schedule, the retry set or the ready list of the queue that
its payload names, and a job that is not stored is nowhere. -/
theorem replaced_exactly_once {t : Int} {c : Pool Unit Request (World Unit) Choice}
    (h : Pool.Reachable (Offers K) TimePasses ⟨Store.empty, t, ()⟩ c) (id : JobId) :
    (∀ p, payloadOf K.jobs c.world.store id = some p → ∃ e, JobEnvelope.decode p = some e ∧
      ∃ l, (l = .schedule ∨ l = .retry ∨ l = .ready e.queue) ∧
        ∀ l', occ K c.world.store id l' = if l' = l then 1 else 0) ∧
    (payloadOf K.jobs c.world.store id = none → ∀ l, occ K c.world.store id l = 0) := by
  have hinv : HomeInv K c.world.store := homeInv_kept.reachable h homeInv_empty
  refine ⟨fun p hp => ?_, fun hp => congrFun ((hinv.jobs id).gone hp)⟩
  obtain ⟨e, l, hdec, -, -, hl, hplaces⟩ := (hinv.jobs id).home p hp
  refine ⟨e, hdec, l, ?_, congrFun hplaces⟩
  rcases hl with (rfl | rfl) | rfl
  · exact .inl rfl
  · exact .inr (.inl rfl)
  · exact .inr (.inr rfl)

/-- The world once `b` has been enqueued. -/
def welcomed : World Unit := bare.after (enqueueCall (.new "") .queue [] [welcome "b"])

/-- The world with the one welcome is reachable: a producer has enqueued it. -/
theorem welcomed_reachable : ∃ c : Pool Unit Request (World Unit) Choice,
    Pool.Reachable (Offers (.new "")) TimePasses ⟨Store.empty, 10, ()⟩ c ∧ c.world = welcomed := by
  have hstart : Offers (.new "") bare () (Call.client (enqueue (.new "") (welcome "b"))) bare :=
    .enqueue rfl (by decide)
  exact ⟨_, (Pool.Reachable.start.next (.launch (i := 0) rfl hstart)).trace
    (Function.update_self ..) (Prog.Trace.bind (welcome_enqueued rfl rfl) (.refl _))
    ⟨rfl, rfl, rfl⟩, rfl⟩

/-- The welcome that has been enqueued is at exactly one place, which is the ready list of its
queue. -/
theorem welcomed_exactly_once : ∃ c : Pool Unit Request (World Unit) Choice, c.world = welcomed ∧
    (∀ p, payloadOf (StorageKeys.new "").jobs c.world.store "b" = some p →
      ∃ e, JobEnvelope.decode p = some e ∧
        ∃ l, (l = .schedule ∨ l = .retry ∨ l = .ready e.queue) ∧
          ∀ l', occ (.new "") c.world.store "b" l' = if l' = l then 1 else 0) ∧
    (payloadOf (StorageKeys.new "").jobs c.world.store "b" = none →
      ∀ l, occ (.new "") c.world.store "b" l = 0) := by
  obtain ⟨c, hc, hw⟩ := welcomed_reachable
  exact ⟨c, hw, replaced_exactly_once hc "b"⟩

end Oxana
