import Oxana.Alone
import Oxana.Executor
import Oxana.Whereabouts

/-!
# Moving jobs about

What promotes a job, claims it and loads it, when nobody interferes and the keys have their types:
each of these calls succeeds, and the store afterwards is a function of the store before. Of a
single job they do what they are for, or nothing.
-/

namespace Oxana

open Redis Interleave Call

variable {γ : Type} {K : StorageKeys} {Q : Set String} {H : Handle} {id : JobId} {queue : String}
  {w w' : World γ}

/-! ## Promotions -/

/-- What is found for an id whose payload can be read: the payload and its envelope, or that there
is none. -/
theorem solo_transitionSnapshot_reliable {r : Except OxanaError (Option (String × JobEnvelope))}
    (hfits : w.store.Fits K.jobs .hash) :
    Solo Reliable (transitionSnapshot K id) w r w' ↔ w' = w ∧
      r = match payloadOf K.jobs w.store id with
        | none => .ok none
        | some p => match JobEnvelope.decode p with
          | none => .error .json
          | some e => .ok (some (p, e)) := by
  rw [transitionSnapshot, hget, solo_read_bind hfits]
  show Solo Reliable (match payloadOf K.jobs w.store id with
    | none => pure none
    | some p => decoded p >>= fun e => pure (some (p, e))) w r w' ↔ _
  cases payloadOf K.jobs w.store id with
  | none => exact solo_pure.trans and_comm
  | some p =>
    cases hdec : JobEnvelope.decode p with
    | none =>
      simp only [decoded, hdec]
      exact Iff.trans (Iff.rfl : _ ↔ r = .error .json ∧ w' = w) and_comm
    | some e =>
      simp only [decoded, hdec, pure_bind]
      exact solo_pure.trans and_comm

/-- A delayed set and a ready list after the promotion of one job. -/
def promotedOne (K : StorageKeys) (set : Key) (job : JobId × Int) (s : Store) : Store :=
  if (s.zset set).lookup job.1 = some job.2 then
    match payloadOf K.jobs s job.1 with
    | none => s.put set (.zset (unset job.1 (s.zset set)))
    | some p => match JobEnvelope.decode p with
      | none => s
      | some e => (s.put (K.namespaceQueue e.queue)
          (.list (job.1 :: s.list (K.namespaceQueue e.queue)))).put set
            (.zset (unset job.1 (s.zset set)))
  else s

/-- `promote_scheduled_jobs` with one job: what the script leaves of the store. -/
theorem solo_promoteOne (hQ : K.Queues Q) (hs : Sound K Q w.store) (set : DelayedSet) (id : JobId)
    (score : Int) :
    ∃ n, ∀ (r : Except OxanaError Nat) (w' : World γ),
      Solo Reliable (promoteOne K (set.key K) id score) w r w' ↔
        r = .ok n ∧ w' = { w with store := promotedOne K (set.key K) (id, score) w.store } := by
  -- the script is sent with what was found
  have hsend (found : Option (String × JobEnvelope)) (hdec : Decoded found)
      (hpay : payloadOf K.jobs w.store id = found.map (·.1))
      (hq : (found.map (·.2.queue)).getD "" ∈ Q) :
      promoteScheduled K.jobs (set.key K) (K.namespaceQueue ((found.map (·.2.queue)).getD "")) id
        ((found.map (·.1)).getD "") score w.store =
          if (w.store.zset (set.key K)).lookup id = some score then
            if found.isSome then
              (.ok 1, (w.store.put (K.namespaceQueue ((found.map (·.2.queue)).getD ""))
                (.list (id :: w.store.list
                  (K.namespaceQueue ((found.map (·.2.queue)).getD ""))))).put (set.key K)
                    (.zset (unset id (w.store.zset (set.key K)))))
            else (.ok 0, w.store.put (set.key K) (.zset (unset id (w.store.zset (set.key K)))))
          else (.ok 0, w.store) := by
    rw [promoteScheduled_run K.jobs (set.key K) _ hs.jobs (hs.delayed set) (hs.ready hq)
      ((hQ.apart _ hq).delayed set), hdec.expected, hpay, Option.isSome_map]
    simp only [and_true]
  simp only [promoteOne, solo_catching, solo_transitionSnapshot_reliable hs.jobs, promotedOne,
    and_assoc, exists_eq_left]
  cases hpay : payloadOf K.jobs w.store id with
  | none =>
    have hrun := hsend none trivial hpay hQ.unnamed
    refine ⟨0, fun r w' => solo_send_run ?_⟩
    rw [hrun]
    split
    · rfl
    · rfl
  | some p =>
    cases hdec : JobEnvelope.decode p with
    | none =>
      simp only [hdec, ite_self]
      exact ⟨0, fun r w' => solo_pure⟩
    | some e =>
      simp only [hdec]
      have hrun := hsend (some (p, e)) hdec hpay (hs.stored id p e hpay hdec).2
      by_cases hsc : (w.store.zset (set.key K)).lookup id = some score
      · refine ⟨1, fun r w' => solo_send_run ?_⟩
        rw [hrun, if_pos hsc, if_pos hsc]
        rfl
      · refine ⟨0, fun r w' => solo_send_run ?_⟩
        rw [hrun, if_neg hsc, if_neg hsc]

/-- The store after `promote_scheduled_jobs`, when it is alone. -/
def promotedAll (K : StorageKeys) (set : Key) (jobs : List (JobId × Int)) (s : Store) : Store :=
  jobs.foldl (fun s job => promotedOne K set job s) s

/-- A promotion keeps the store in the form in which workers find it. -/
theorem Sound.promotedOne (hQ : K.Queues Q) {s : Store} (hs : Sound K Q s) (set : DelayedSet)
    (job : JobId × Int) : Sound K Q (promotedOne K (set.key K) job s) := by
  simp only [Oxana.promotedOne, ← set.loc_key]
  split
  · split
    · exact hs.put_place hQ set.loc_of set.loc_kind.symm
    · next p hpay =>
      split
      · exact hs
      · next e hdec =>
        have hq := (hs.stored job.1 p e hpay hdec).2
        exact (hs.put_place hQ (l := .ready e.queue) hq rfl).put_place hQ set.loc_of
          set.loc_kind.symm
  · exact hs

/-- The promotion of another job leaves this one where it is. -/
theorem promotedOne_elsewhere (hQ : K.Queues Q) {s : Store} (hs : Sound K Q s) (set : DelayedSet)
    {job : JobId × Int} (hne : id ≠ job.1) :
    Elsewhere K Q id s (promotedOne K (set.key K) job s) := by
  simp only [promotedOne]
  split
  · split
    · exact .unset hQ hne set (hs.delayed set)
    · next p hpay =>
      split
      · exact .refl s
      · next e hdec =>
        have hq := (hs.stored job.1 p e hpay hdec).2
        have hpush := Elsewhere.push hQ (l := .ready e.queue) hne hq rfl (hs.ready hq)
        have hpushed := Sound.put_place hQ hs (l := .ready e.queue) hq
          (v := .list (job.1 :: s.list (K.namespaceQueue e.queue))) rfl
        have hunset := Elsewhere.unset hQ hne set (hpushed.delayed set)
        rw [Store.zset_put_ne (k := (Loc.ready e.queue).key K) _
          ((hQ.apart _ hq).delayed set).symm] at hunset
        exact hpush.trans hunset
  · exact .refl s

/-- The promotion of the job puts it on the ready list of its queue. -/
theorem Found.promotedOne (hQ : K.Queues Q) {s : Store} {r : ℕ} {set : DelayedSet}
    (h : Found K Q id queue r (set.key K) s) {score : Int}
    (hscore : (s.zset (set.key K)).lookup id = some score) :
    Found K Q id queue r (K.namespaceQueue queue) (promotedOne K (set.key K) (id, score) s) := by
  obtain ⟨p, e, hp, he, hc⟩ := h.stored
  rw [Oxana.promotedOne, if_pos hscore, hp]
  simp only [he, hc.queue]
  exact h.promoted hQ

/-- A promotion leaves the dead list as it is. -/
theorem promotedOne_dead (hQ : K.Queues Q) {s : Store} (hs : Sound K Q s) (set : DelayedSet)
    (job : JobId × Int) : (promotedOne K (set.key K) job s).list K.dead = s.list K.dead := by
  simp only [promotedOne]
  split
  · split
    · rw [Store.list_put_ne _ set.key_ne_dead.symm]
    · next p hpay =>
      split
      · rfl
      · next e hdec =>
        rw [Store.list_put_ne _ set.key_ne_dead.symm,
          Store.list_put_ne _ (hQ.apart _ (hs.stored job.1 p e hpay hdec).2).dead.symm]
  · rfl

/-- Promotions keep the keys in use, and change no dead list. -/
theorem Sound.promotedAll (hQ : K.Queues Q) {s : Store} (hs : Sound K Q s) (set : DelayedSet)
    (jobs : List (JobId × Int)) :
    Sound K Q (promotedAll K (set.key K) jobs s) ∧
      (promotedAll K (set.key K) jobs s).list K.dead = s.list K.dead := by
  induction jobs generalizing s with
  | nil => exact ⟨hs, rfl⟩
  | cons job jobs ih =>
    obtain ⟨hsound, hdead⟩ := ih (hs.promotedOne hQ set job)
    exact ⟨hsound, hdead.trans (promotedOne_dead hQ hs set job)⟩

/-- A job that is not in the set is not promoted, whatever jobs are. -/
theorem promotedAll_elsewhere (hQ : K.Queues Q) {s : Store} (hs : Sound K Q s) (set : DelayedSet)
    (hout : (s.zset (set.key K)).lookup id = none) (jobs : List (JobId × Int)) :
    Elsewhere K Q id s (promotedAll K (set.key K) jobs s) := by
  induction jobs generalizing s with
  | nil => exact .refl s
  | cons job jobs ih =>
    have hone : Elsewhere K Q id s (promotedOne K (set.key K) job s) := by
      by_cases hne : id = job.1
      · rw [promotedOne, if_neg (by rw [← hne, hout]; exact fun h => nomatch h)]
        exact .refl s
      · exact promotedOne_elsewhere hQ hs set hne
    exact hone.trans (ih (hs.promotedOne hQ set job) ((hone.dates set).trans hout))

/-- A job that is in the set is promoted if it is among those to be promoted. -/
theorem Found.promotedAll (hQ : K.Queues Q) {s : Store} {r : ℕ} {set : DelayedSet}
    (h : Found K Q id queue r (set.key K) s) {score : Int}
    (hscore : (s.zset (set.key K)).lookup id = some score) (jobs : List (JobId × Int)) :
    ((id, score) ∈ jobs ∧
        Found K Q id queue r (K.namespaceQueue queue) (promotedAll K (set.key K) jobs s)) ∨
      (id, score) ∉ jobs ∧ Found K Q id queue r (set.key K) (promotedAll K (set.key K) jobs s) := by
  induction jobs generalizing s with
  | nil => exact .inr ⟨List.not_mem_nil, h⟩
  | cons job jobs ih =>
    obtain ⟨id', score'⟩ := job
    by_cases hjob : (id, score) = (id', score')
    · cases hjob
      have hone := h.promotedOne hQ hscore
      refine .inl ⟨List.mem_cons_self, ?_⟩
      exact (promotedAll_elsewhere hQ hone.sound set
        (hone.not_delayed ((hQ.apart queue h.queue_mem).delayed set)) jobs).found hone
    · have hone : Elsewhere K Q id s (Oxana.promotedOne K (set.key K) (id', score') s) := by
        by_cases hne : id = id'
        · subst hne
          rw [Oxana.promotedOne,
            if_neg fun hs => hjob (by rw [Option.some.inj (hscore.symm.trans hs)])]
          exact .refl s
        · have hother : id ≠ (id', score').1 := hne
          exact promotedOne_elsewhere hQ h.sound set hother
      have hrest := ih (hone.found h) ((hone.dates set).trans hscore)
      simp only [List.mem_cons, hjob, false_or]
      exact hrest

/-- `promote_scheduled_jobs` without faults: each of the jobs is promoted, one after the other. -/
theorem solo_promoteScheduledJobs (hQ : K.Queues Q) (hs : Sound K Q w.store) (set : DelayedSet)
    (jobs : List (JobId × Int)) :
    ∃ n, ∀ (r : Except OxanaError Nat) (w' : World γ),
      Solo Reliable (promoteScheduledJobs K (set.key K) jobs) w r w' ↔
        r = .ok n ∧ w' = { w with store := promotedAll K (set.key K) jobs w.store } := by
  induction jobs generalizing w with
  | nil => exact ⟨0, fun r w' => solo_pure⟩
  | cons job jobs ih =>
    obtain ⟨n, hone⟩ := solo_promoteOne hQ hs set job.1 job.2
    obtain ⟨m, hrest⟩ := ih
      (w := { w with store := Oxana.promotedOne K (set.key K) job w.store })
      (hs.promotedOne hQ set job)
    refine ⟨n + m, fun r w' => ?_⟩
    rw [promoteScheduledJobs, solo_bind]
    constructor
    · rintro (⟨a, w₁, h₁, h⟩ | ⟨e, h₁, -⟩)
      · obtain ⟨ha, rfl⟩ := (hone _ _).mp h₁
        cases ha
        obtain ⟨b, w₂, h₂, h⟩ := solo_bind.mp h |>.resolve_right (by
          rintro ⟨e, he, -⟩
          cases ((hrest _ _).mp he).1)
        obtain ⟨hb, rfl⟩ := (hrest _ _).mp h₂
        cases hb
        exact solo_pure.mp h
      · cases ((hone _ _).mp h₁).1
    · rintro ⟨rfl, rfl⟩
      exact .inl ⟨n, _, (hone _ _).mpr ⟨rfl, rfl⟩, solo_bind.mpr
        (.inl ⟨m, _, (hrest _ _).mpr ⟨rfl, rfl⟩, solo_pure.mpr ⟨rfl, rfl⟩⟩)⟩

/-- The members of a delayed set that are due at time `t`. -/
def dueJobs (s : Store) (set : Key) (t : Int) : List (JobId × Int) :=
  (s.zset set).filter fun p => 0 ≤ p.2 ∧ p.2 ≤ t

/-- The store when the jobs that are due have been promoted. -/
def promotedDue (K : StorageKeys) (set : Key) (t : Int) (s : Store) : Store :=
  promotedAll K set (dueJobs s set t) s

/-- `enqueue_scheduled` without faults: what is due in the set is promoted, and nothing else. -/
theorem solo_enqueueScheduled (hQ : K.Queues Q) (hs : Sound K Q w.store) (set : DelayedSet) :
    ∃ n, ∀ (r : Except OxanaError Nat) (w' : World γ),
      Solo Reliable (enqueueScheduled K (set.key K)) w r w' ↔
        r = .ok n ∧ w' = { w with store := promotedDue K (set.key K) w.clock w.store } := by
  obtain ⟨n, hjobs⟩ := solo_promoteScheduledJobs hQ hs set
    (dueJobs w.store (set.key K) w.clock)
  refine ⟨n, fun r w' => ?_⟩
  rw [enqueueScheduled, solo_now_bind, solo_connection_bind, zrangeByScore,
    solo_read_bind (hs.delayed set)]
  exact hjobs r w'

/-! ## Claims -/

/-- The last item of a list becomes the first of another. -/
def movedLast (src dst : Key) (s : Store) : Store :=
  match (s.list src).getLast? with
  | none => s
  | some x =>
    let s' := s.put src (.list (s.list src).dropLast)
    s'.put dst (.list (x :: s'.list dst))

/-- `dequeue` without faults: the oldest job of the ready list is claimed, if there is one. -/
theorem solo_dequeue_reliable {r : Except OxanaError (Option JobId)}
    (hsrc : w.store.Fits (H.keys.namespaceQueue queue) .list)
    (hdst : w.store.Fits H.currentProcessingQueue .list) :
    Solo Reliable (dequeue H queue) w r w' ↔
      r = .ok (w.store.list (H.keys.namespaceQueue queue)).getLast? ∧
        w' = { w with
          store := movedLast (H.keys.namespaceQueue queue) H.currentProcessingQueue w.store } := by
  rw [dequeue, solo_connection_bind]
  refine solo_send_run ?_
  rw [lmove, if_pos hsrc, movedLast]
  split
  · next hnone => rw [hnone]
  · next x hlast => rw [if_pos hdst, hlast]

/-- The claim of another job leaves this one where it is. -/
theorem movedLast_elsewhere (hQ : H.keys.Queues Q) {s : Store} (hs : Sound H.keys Q s)
    (hq : queue ∈ Q) (hother : (s.list (H.keys.namespaceQueue queue)).getLast? ≠ some id) :
    Elsewhere H.keys Q id s
      (movedLast (H.keys.namespaceQueue queue) H.currentProcessingQueue s) := by
  rw [movedLast]
  split
  · exact .refl s
  · next x hlast =>
    have hne : id ≠ x := by
      rintro rfl
      exact hother hlast
    have hdrop := Elsewhere.drop hQ (l := .ready queue) hne hq rfl (hs.ready hq) hlast
    exact hdrop.trans (.push hQ (l := .processing H.processId) hne trivial rfl
      ((hdrop.sound hs).processing H.processId))

/-- A claim leaves the dead list as it is. -/
theorem movedLast_dead (hQ : H.keys.Queues Q) (hq : queue ∈ Q) (s : Store) :
    (movedLast (H.keys.namespaceQueue queue) H.currentProcessingQueue s).list H.keys.dead =
      s.list H.keys.dead := by
  rw [movedLast]
  split
  · rfl
  · exact (Store.list_put_ne _ (current_ne H).2.1.symm).trans
      (Store.list_put_ne _ (hQ.apart queue hq).dead.symm)

/-- A claim takes one job from the ready list. -/
theorem movedLast_length {src dst : Key} (hne : src ≠ dst) (s : Store) :
    ((movedLast src dst s).list src).length = (s.list src).length - 1 := by
  rw [movedLast]
  split
  · next hnone => rw [List.getLast?_eq_none_iff.mp hnone, List.length_nil]
  · rw [Store.list_put_ne _ hne, Store.list_put_self, List.length_dropLast]

/-! ## Loads -/

/-- `get_job` of a job that is found returns its envelope. -/
theorem solo_getJob_found {s : ℕ} {here : Key} (h : Found H.keys Q id queue s here w.store) :
    ∃ e, e.Counts id queue s ∧ ∀ (r : Except OxanaError (Option JobEnvelope)) (w' : World γ),
      Solo Reliable (getJob H id) w r w' ↔ r = .ok (some e) ∧ w' = w := by
  obtain ⟨p, e, hp, he, hc⟩ := h.stored
  refine ⟨e, hc, fun r w' => ?_⟩
  rw [getJob, solo_connection_bind, getJobOn, solo_bind]
  simp only [solo_transitionSnapshot_reliable h.sound.jobs, hp, he]
  constructor
  · rintro (⟨found, w₁, ⟨rfl, hfound⟩, hr⟩ | ⟨error, ⟨-, herr⟩, -⟩)
    · cases hfound
      exact solo_pure.mp hr
    · cases herr
  · rintro ⟨rfl, rfl⟩
    exact .inl ⟨_, w', ⟨rfl, rfl⟩, solo_pure.mpr ⟨rfl, rfl⟩⟩

/-- `load_pending_job` of a job that is found returns its envelope and deletes nothing. -/
theorem solo_loadPendingJob {s : ℕ} {here : Key} (h : Found H.keys Q id queue s here w.store) :
    ∃ e, e.Counts id queue s ∧ ∀ (r : Except OxanaError (Option JobEnvelope)) (w' : World γ),
      Solo Reliable (loadPendingJob H id) w r w' ↔ r = .ok (some e) ∧ w' = w := by
  obtain ⟨e, hc, hget⟩ := solo_getJob_found h
  have hrounds (n : ℕ) (r : Except OxanaError (Option JobEnvelope)) (w' : World γ) :
      Solo Reliable (getClaimedJobRounds H id n) w r w' ↔ r = .ok (some e) ∧ w' = w := by
    cases n with
    | zero => exact hget r w'
    | succ n =>
      rw [getClaimedJobRounds, solo_catching]
      simp only [hget, and_assoc, exists_and_left, exists_eq_left]
      exact solo_pure
  refine ⟨e, hc, fun r w' => ?_⟩
  rw [loadPendingJob, solo_bind]
  simp only [getClaimedJob, solo_ask, hrounds]
  constructor
  · rintro (⟨found, w₁, ⟨c, -, hfound, rfl⟩, hr⟩ | ⟨error, ⟨c, -, herr, -⟩, -⟩)
    · cases hfound
      exact solo_pure.mp hr
    · cases herr
  · rintro ⟨rfl, rfl⟩
    exact .inl ⟨some e, w', ⟨{}, rfl, rfl, rfl⟩, solo_pure.mpr ⟨rfl, rfl⟩⟩

end Oxana
