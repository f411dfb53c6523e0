import Oxana.Alone
import Oxana.Atomicity
import Oxana.Executor
import Oxana.Placement

/-!
# Where one job is

The places of a single job, told apart by their keys: the ready lists of the queues in use, the
processing lists, the schedule and the retry set. A queue may have any name that is not taken for
one of the storage's own keys.

`Found` is what the store knows of the job while it is somewhere, `Vanished` what it knows
afterwards.
Each write of the job's operations leads from one of them to the other; nobody else's do.
-/

namespace Oxana

open Redis

/-- A queue whose ready list is none of the storage's own keys. -/
structure StorageKeys.Apart (K : StorageKeys) (queue : String) : Prop where
  jobs : K.namespaceQueue queue ≠ K.jobs
  dead : K.namespaceQueue queue ≠ K.dead
  schedule : K.namespaceQueue queue ≠ K.schedule
  retry : K.namespaceQueue queue ≠ K.retry
  processing : ∀ p, K.namespaceQueue queue ≠ K.processingQueue p

/-- A plain name is apart from the names of the other keys. -/
theorem StorageKeys.Plain.apart {K : StorageKeys} {queue : String} (h : K.Plain queue) :
    K.Apart queue :=
  ⟨(queue_ne_fixed h).1, (queue_ne_fixed h).2.1, (queue_ne_fixed h).2.2.1,
    (queue_ne_fixed h).2.2.2, queue_ne_processing h⟩

theorem StorageKeys.Apart.delayed {K : StorageKeys} {queue : String} (h : K.Apart queue)
    (set : DelayedSet) : K.namespaceQueue queue ≠ set.key K := by
  cases set with
  | schedule => exact h.schedule
  | retry => exact h.retry

/-- The names of the queues in use. A job without a payload counts as one of the queue without a
name. -/
structure StorageKeys.Queues (K : StorageKeys) (Q : Set String) : Prop where
  /-- they are no names of other keys -/
  apart : ∀ q ∈ Q, K.Apart q
  /-- the empty name is among them -/
  unnamed : "" ∈ Q

namespace Loc

/-- The place belongs to these queues: if it is a ready list, it is that of one of them. -/
def Of (Q : Set String) : Loc → Prop
  | ready queue => queue ∈ Q
  | _ => True

variable {K : StorageKeys} {Q : Set String} (hQ : K.Queues Q) {l l' : Loc}

include hQ

theorem Of.ne_jobs (hl : l.Of Q) : l.key K ≠ K.jobs := by
  cases l with
  | ready q => exact (hQ.apart q hl).jobs
  | processing p => exact (StorageKeys.processing_ne_fixed p).1
  | schedule => exact StorageKeys.jobs_ne_schedule.symm
  | retry => exact StorageKeys.jobs_ne_retry.symm

theorem Of.ne_dead (hl : l.Of Q) : l.key K ≠ K.dead := by
  cases l with
  | ready q => exact (hQ.apart q hl).dead
  | processing p => exact (StorageKeys.processing_ne_fixed p).2.1
  | schedule => exact StorageKeys.dead_ne_schedule.symm
  | retry => exact StorageKeys.dead_ne_retry.symm

/-- Places that have the same key are of the same kind. -/
theorem Of.kind_eq (hl : l.Of Q) (hl' : l'.Of Q) (h : l.key K = l'.key K) : l.kind = l'.kind := by
  cases l with
  | ready q =>
    cases l' with
    | ready q' => rfl
    | processing p => rfl
    | schedule => exact absurd h (hQ.apart q hl).schedule
    | retry => exact absurd h (hQ.apart q hl).retry
  | processing p =>
    cases l' with
    | ready q' => rfl
    | processing p' => rfl
    | schedule => exact absurd h (StorageKeys.processing_ne_fixed p).2.2.1
    | retry => exact absurd h (StorageKeys.processing_ne_fixed p).2.2.2
  | schedule =>
    cases l' with
    | ready q' => exact absurd h.symm (hQ.apart q' hl').schedule
    | processing p' => exact absurd h.symm (StorageKeys.processing_ne_fixed p').2.2.1
    | schedule => rfl
    | retry => rfl
  | retry =>
    cases l' with
    | ready q' => exact absurd h.symm (hQ.apart q' hl').retry
    | processing p' => exact absurd h.symm (StorageKeys.processing_ne_fixed p').2.2.2
    | schedule => rfl
    | retry => rfl

end Loc

/-! ## The keys in use -/

variable {K : StorageKeys} {Q : Set String} {s s' : Store} {id : JobId} {l : Loc}

/-- The keys have their types, and every job is stored under its id and on one of the queues in
use. -/
structure Sound (K : StorageKeys) (Q : Set String) (s : Store) : Prop where
  jobs : s.Fits K.jobs .hash
  dead : s.Fits K.dead .list
  places : ∀ l : Loc, l.Of Q → s.Fits (l.key K) l.kind
  stored : ∀ id p e, payloadOf K.jobs s id = some p → JobEnvelope.decode p = some e →
    e.id = id ∧ e.queue ∈ Q

namespace Sound

/-- A write to a place keeps the types, if what is written is of the kind of the place. -/
theorem put_place (hQ : K.Queues Q) (h : Sound K Q s) (hl : l.Of Q) {v : Value}
    (hv : v.kind = l.kind) : Sound K Q (s.put (l.key K) v) where
  jobs := h.jobs.put _ fun hk => absurd hk.symm (hl.ne_jobs hQ)
  dead := h.dead.put _ fun hk => absurd hk.symm (hl.ne_dead hQ)
  places l' hl' := (h.places l' hl').put _ fun hk => hv.trans (hl.kind_eq hQ hl' hk.symm)
  stored id p e hp he := by
    rw [payloadOf, Store.hash_put_ne _ (hl.ne_jobs hQ).symm] at hp
    exact h.stored id p e hp he

theorem put_dead (hQ : K.Queues Q) (h : Sound K Q s) (ps : List String) :
    Sound K Q (s.put K.dead (.list ps)) where
  jobs := h.jobs.put _ fun hk => absurd hk StorageKeys.jobs_ne_dead
  dead := h.dead.put _ fun _ => rfl
  places l' hl' := (h.places l' hl').put _ fun hk => absurd hk (hl'.ne_dead hQ)
  stored id p e hp he := by
    rw [payloadOf, Store.hash_put_ne _ StorageKeys.jobs_ne_dead] at hp
    exact h.stored id p e hp he

/-- The hash of the payloads may be written as long as payloads stay under their own ids and queues.
-/
theorem put_jobs (hQ : K.Queues Q) (h : Sound K Q s) {m : List (String × String)}
    (hm : ∀ id p e, m.lookup id = some p → JobEnvelope.decode p = some e →
      e.id = id ∧ e.queue ∈ Q) :
    Sound K Q (s.put K.jobs (.hash m)) where
  jobs := h.jobs.put _ fun _ => rfl
  dead := h.dead.put _ fun hk => absurd hk.symm StorageKeys.jobs_ne_dead
  places l' hl' := (h.places l' hl').put _ fun hk => absurd hk (hl'.ne_jobs hQ)
  stored id p e hp he := by
    rw [payloadOf, Store.hash_put_self] at hp
    exact hm id p e hp he

theorem setField (hQ : K.Queues Q) (h : Sound K Q s) {e : JobEnvelope} (hq : e.queue ∈ Q) :
    Sound K Q (s.put K.jobs (.hash (setField e.id e.encode (s.hash K.jobs)))) := by
  refine h.put_jobs hQ fun id' p' e' hp' he => ?_
  by_cases hid : id' = e.id
  · rw [hid, lookup_setField_self] at hp'
    cases hp'
    rw [decode_encode] at he
    cases he
    exact ⟨hid.symm, hq⟩
  · rw [lookup_setField_ne hid] at hp'
    exact h.stored id' p' e' hp' he

theorem unset (hQ : K.Queues Q) (h : Sound K Q s) :
    Sound K Q (s.put K.jobs (.hash (Redis.unset id (s.hash K.jobs)))) := by
  refine h.put_jobs hQ fun id' p' e hp' he => ?_
  by_cases hid : id' = id
  · rw [hid, lookup_unset_self] at hp'
    cases hp'
  · rw [lookup_unset_ne hid] at hp'
    exact h.stored id' p' e hp' he

end Sound

/-! ## One place -/

/-- The job is at this key, once, and at no other place; with `none` it is nowhere. -/
def Located (K : StorageKeys) (Q : Set String) (s : Store) (id : JobId) (here : Option Key) :
    Prop :=
  ∀ l : Loc, l.Of Q → occursAt s id (l.key K) = if here = some (l.key K) then 1 else 0

section Located

variable {here : Option Key} {k : Key}

/-- What is written to a key that is no place does not matter to where a job is. -/
theorem Located.put_other (h : Located K Q s id here) (v : Value)
    (hk : ∀ l : Loc, l.Of Q → l.key K ≠ k) : Located K Q (s.put k v) id here := by
  intro l hl
  rw [occursAt_put_ne _ (hk l hl)]
  exact h l hl

/-- A write that takes the job away from the only place where it is. -/
theorem Located.take (h : Located K Q s id (some k)) {v : Value} (hv : occursIn id v = 0) :
    Located K Q (s.put k v) id none := by
  intro l hl
  rw [if_neg (nomatch ·)]
  by_cases hk : l.key K = k
  · rw [hk, occursAt_put_self, hv]
  · rw [occursAt_put_ne _ hk, h l hl, if_neg fun h => hk (Option.some.inj h).symm]

/-- A write that puts a job that is nowhere at a place. -/
theorem Located.give (h : Located K Q s id none) {v : Value} (hv : occursIn id v = 1) :
    Located K Q (s.put k v) id (some k) := by
  intro l hl
  by_cases hk : l.key K = k
  · rw [hk, occursAt_put_self, hv, if_pos rfl]
  · rw [occursAt_put_ne _ hk, h l hl, if_neg (nomatch ·),
      if_neg fun h => hk (Option.some.inj h).symm]

/-- The job is put at `k'` before it is taken away from `k`, so it is at one place in the end. -/
theorem Located.move {k' : Key} (h : Located K Q s id (some k)) (hne : k ≠ k') {v v' : Value}
    (hv' : occursIn id v' = 1) (hv : occursIn id v = 0) :
    Located K Q ((s.put k' v').put k v) id (some k') := by
  rw [Store.put_comm _ _ hne.symm]
  exact (h.take hv).give hv'

end Located

/-! ## What is stored -/

/-- An envelope of the job, on its queue, after so many retries. -/
structure JobEnvelope.Counts (id : JobId) (queue : String) (retries : ℕ) (e : JobEnvelope) :
    Prop where
  id : e.id = id
  queue : e.queue = queue
  retries : e.jobMeta.retries.toNat = retries

namespace JobEnvelope.Counts

variable {queue : String} {r : ℕ} {e : JobEnvelope}

theorem normalize (h : e.Counts id queue r) : e.normalize.Counts id queue r :=
  ⟨h.id, h.queue, h.retries⟩

theorem withState (h : e.Counts id queue r) (v : Json.Value) : (e.withState v).Counts id queue r :=
  ⟨h.id, h.queue, h.retries⟩

theorem withoutState (h : e.Counts id queue r) : e.withoutState.Counts id queue r :=
  ⟨h.id, h.queue, h.retries⟩

theorem withStartedAt (h : e.Counts id queue r) (t : Int64) :
    (e.withStartedAt t).Counts id queue r := ⟨h.id, h.queue, h.retries⟩

theorem withError (h : e.Counts id queue r) (error : String) :
    (e.withError error).Counts id queue r := ⟨h.id, h.queue, h.retries⟩

/-- The counter of retries does not wrap as long as there is a larger number. -/
theorem withRetriesIncremented {m : UInt32} (h : e.Counts id queue r) (hr : r < m.toNat)
    (error : String) : (e.withRetriesIncremented error).Counts id queue (r + 1) := by
  refine ⟨h.id, h.queue, ?_⟩
  have hlt := m.toNat_lt
  show (e.jobMeta.retries + 1).toNat = r + 1
  rw [UInt32.toNat_add, h.retries, show (1 : UInt32).toNat = 1 from rfl, Nat.mod_eq_of_lt]
  omega

end JobEnvelope.Counts

/-- All that the store knows of a job that is at one place: its payload counts its attempts, and it
is at this place only. -/
structure Found (K : StorageKeys) (Q : Set String) (id : JobId) (queue : String) (retries : ℕ)
    (here : Key) (s : Store) : Prop where
  sound : Sound K Q s
  /-- its payload is there -/
  stored : ∃ p e, payloadOf K.jobs s id = some p ∧ JobEnvelope.decode p = some e ∧
    e.Counts id queue retries
  /-- it is here and nowhere else -/
  located : Located K Q s id (some here)
  /-- it is not due before the beginning of time -/
  dated : ∀ (set : DelayedSet) (score : Int), (s.zset (set.key K)).lookup id = some score →
    0 ≤ score

/-- All that the store knows of a job that is nowhere: it has no payload and is at no place. -/
structure Vanished (K : StorageKeys) (Q : Set String) (id : JobId) (s : Store) : Prop where
  sound : Sound K Q s
  payload : payloadOf K.jobs s id = none
  located : Located K Q s id none

/-- In an empty store every job is nowhere. -/
theorem vanished_empty : Vanished K Q id Store.empty where
  sound := by
    refine ⟨Store.fits_empty _, Store.fits_empty _, fun _ _ => Store.fits_empty _, ?_⟩
    intro id p e hp
    cases hp
  payload := rfl
  located _ _ := rfl

section Writes

variable {queue : String} {r r' : ℕ} {here : Key} {e : JobEnvelope} {H : Handle}

theorem DelayedSet.key_ne_jobs (set : DelayedSet) : set.key K ≠ K.jobs := by
  cases set with
  | schedule => exact StorageKeys.jobs_ne_schedule.symm
  | retry => exact StorageKeys.jobs_ne_retry.symm

theorem DelayedSet.key_ne_dead (set : DelayedSet) : set.key K ≠ K.dead := by
  cases set with
  | schedule => exact StorageKeys.dead_ne_schedule.symm
  | retry => exact StorageKeys.dead_ne_retry.symm

/-- A delayed set, as a place. -/
def DelayedSet.loc : DelayedSet → Loc
  | .schedule => .schedule
  | .retry => .retry

theorem DelayedSet.loc_of (set : DelayedSet) : set.loc.Of Q := by
  cases set with
  | schedule => trivial
  | retry => trivial

theorem DelayedSet.loc_key (set : DelayedSet) : set.loc.key K = set.key K := by
  cases set with
  | schedule => rfl
  | retry => rfl

theorem DelayedSet.loc_kind (set : DelayedSet) : set.loc.kind = .zset := by
  cases set with
  | schedule => rfl
  | retry => rfl

theorem Sound.delayed (h : Sound K Q s) (set : DelayedSet) : s.Fits (set.key K) .zset := by
  cases set with
  | schedule => exact h.places .schedule trivial
  | retry => exact h.places .retry trivial

theorem Sound.processing (h : Sound K Q s) (p : String) : s.Fits (K.processingQueue p) .list :=
  h.places (.processing p) trivial

theorem Sound.ready (h : Sound K Q s) (hq : queue ∈ Q) : s.Fits (K.namespaceQueue queue) .list :=
  h.places (.ready queue) hq

/-- A job is counted once on the list where it is, and on no other list. -/
theorem Found.count_list (h : Found K Q id queue r here s) (hl : l.Of Q) (hk : l.kind = .list) :
    (s.list (l.key K)).count id = if here = l.key K then 1 else 0 := by
  have hf := h.sound.places l hl
  rw [hk] at hf
  rw [← occursAt_list hf, h.located l hl]
  simp only [Option.some.injEq]

theorem Vanished.count_list (h : Vanished K Q id s) (hl : l.Of Q) (hk : l.kind = .list) :
    (s.list (l.key K)).count id = 0 := by
  have hf := h.sound.places l hl
  rw [hk] at hf
  rw [← occursAt_list hf, h.located l hl]
  rfl

theorem Found.queue_mem (h : Found K Q id queue r here s) : queue ∈ Q := by
  obtain ⟨p, e, hp, he, hc⟩ := h.stored
  exact hc.queue ▸ (h.sound.stored id p e hp he).2

/-- A job that is elsewhere is in no delayed set. -/
theorem Located.not_delayed {here : Option Key} (h : Located K Q s id here) (hs : Sound K Q s)
    {set : DelayedSet} (hne : here ≠ some (set.key K)) : (s.zset (set.key K)).lookup id = none := by
  have hz := h set.loc set.loc_of
  rw [set.loc_key, if_neg hne, occursAt_zset (hs.delayed set)] at hz
  cases hl : (s.zset (set.key K)).lookup id with
  | none => rfl
  | some score =>
    rw [hl] at hz
    cases hz

theorem Found.not_delayed (h : Found K Q id queue r here s) {set : DelayedSet}
    (hne : here ≠ set.key K) : (s.zset (set.key K)).lookup id = none :=
  h.located.not_delayed h.sound fun hk => hne (Option.some.inj hk)

/-- In the delayed set where the job is it has a score. -/
theorem Found.score {set : DelayedSet} (h : Found K Q id queue r (set.key K) s) :
    ∃ score, (s.zset (set.key K)).lookup id = some score := by
  have hz := h.located set.loc set.loc_of
  rw [set.loc_key, if_pos rfl, occursAt_zset (h.sound.delayed set)] at hz
  cases hl : (s.zset (set.key K)).lookup id with
  | some score => exact ⟨score, rfl⟩
  | none =>
    rw [hl] at hz
    cases hz

theorem Vanished.not_delayed (h : Vanished K Q id s) (set : DelayedSet) :
    (s.zset (set.key K)).lookup id = none :=
  h.located.not_delayed h.sound fun hk => by cases hk

theorem current_ne_delayed (H : Handle) (set : DelayedSet) :
    H.currentProcessingQueue ≠ set.key H.keys := by
  cases set with
  | schedule => exact (current_ne H).2.2.1
  | retry => exact (current_ne H).2.2.2

variable (hQ : K.Queues Q)

include hQ

/-- The payload of the job is written, and it is where it was. -/
theorem Found.write (h : Found K Q id queue r here s) (he : e.Counts id queue r') :
    Found K Q id queue r' here
      (s.put K.jobs (.hash (setField id e.encode (s.hash K.jobs)))) where
  sound := he.id ▸ h.sound.setField hQ (he.queue ▸ h.queue_mem)
  stored := by
    refine ⟨e.encode, e.normalize, ?_, decode_encode e, he.normalize⟩
    rw [payloadOf, Store.hash_put_self, lookup_setField_self]
  located := h.located.put_other _ fun l hl => hl.ne_jobs hQ
  dated set score hscore := by
    rw [Store.zset_put_ne _ set.key_ne_jobs] at hscore
    exact h.dated set score hscore

/-- A job that was nowhere is enqueued, and is on the ready list of its queue. -/
theorem Vanished.enqueued (h : Vanished K Q id s) (he : e.Counts id queue r) (hq : queue ∈ Q) :
    Found K Q id queue r (K.namespaceQueue queue)
      ((s.put K.jobs (.hash (setField id e.encode (s.hash K.jobs)))).put (K.namespaceQueue queue)
        (.list (id :: s.list (K.namespaceQueue queue)))) := by
  have hz := h.count_list (l := .ready queue) hq rfl
  refine ⟨?_, ?_, ?_, fun set score hscore => ?_⟩
  · exact (he.id ▸ h.sound.setField hQ (he.queue.symm ▸ hq)).put_place hQ (l := .ready queue) hq
      rfl
  · rw [payloadOf, Store.hash_put_ne _ (hQ.apart queue hq).jobs.symm, Store.hash_put_self,
      lookup_setField_self]
    exact ⟨e.encode, e.normalize, rfl, decode_encode e, he.normalize⟩
  · refine (h.located.put_other _ fun l hl => hl.ne_jobs hQ).give ?_
    show (id :: s.list ((Loc.ready queue).key K)).count id = 1
    rw [List.count_cons_self, hz]
  · rw [Store.zset_put_ne _ ((hQ.apart queue hq).delayed set).symm,
      Store.zset_put_ne _ set.key_ne_jobs, h.not_delayed set] at hscore
    cases hscore

/-- The job is moved from its ready list to a processing list. -/
theorem Found.claimed (h : Found K Q id queue r (K.namespaceQueue queue) s) {p : String}
    (hlast : (s.list (K.namespaceQueue queue)).getLast? = some id) :
    Found K Q id queue r (K.processingQueue p)
      ((s.put (K.namespaceQueue queue) (.list (s.list (K.namespaceQueue queue)).dropLast)).put
        (K.processingQueue p) (.list (id :: (s.put (K.namespaceQueue queue)
          (.list (s.list (K.namespaceQueue queue)).dropLast)).list (K.processingQueue p)))) := by
  have hq := h.queue_mem
  have hne : K.processingQueue p ≠ K.namespaceQueue queue := ((hQ.apart queue hq).processing p).symm
  have hready : (s.list (K.namespaceQueue queue)).count id = 1 :=
    (h.count_list (l := .ready queue) hq rfl).trans (if_pos rfl)
  have hproc : (s.list (K.processingQueue p)).count id = 0 :=
    (h.count_list (l := .processing p) trivial rfl).trans (if_neg hne.symm)
  have hdrop : (s.list (K.namespaceQueue queue)).dropLast.count id = 0 := by
    rw [← List.dropLast_append_getLast? id hlast, List.count_append,
      List.count_singleton_self] at hready
    omega
  rw [Store.list_put_ne _ hne]
  refine ⟨?_, ?_, ?_, fun set score hscore => ?_⟩
  · exact (h.sound.put_place hQ (l := .ready queue) hq rfl).put_place hQ (l := .processing p)
      trivial rfl
  · rw [payloadOf, Store.hash_put_ne _ (StorageKeys.processing_ne_fixed p).1.symm,
      Store.hash_put_ne _ (hQ.apart queue hq).jobs.symm]
    exact h.stored
  · refine (h.located.take ?_).give ?_
    · exact hdrop
    · rw [occursIn, List.count_cons_self, hproc]
  · have hset : set.key K ≠ K.processingQueue p := by
      cases set with
      | schedule => exact (StorageKeys.processing_ne_fixed p).2.2.1.symm
      | retry => exact (StorageKeys.processing_ne_fixed p).2.2.2.symm
    rw [Store.zset_put_ne _ hset, Store.zset_put_ne _ ((hQ.apart queue hq).delayed set).symm]
      at hscore
    exact h.dated set score hscore

/-- The job is moved from a delayed set to its ready list. -/
theorem Found.promoted {set : DelayedSet} (h : Found K Q id queue r (set.key K) s) :
    Found K Q id queue r (K.namespaceQueue queue)
      ((s.put (K.namespaceQueue queue) (.list (id :: s.list (K.namespaceQueue queue)))).put
        (set.key K) (.zset (unset id (s.zset (set.key K))))) := by
  have hq := h.queue_mem
  have hne := (hQ.apart queue hq).delayed set
  have hready : (s.list (K.namespaceQueue queue)).count id = 0 :=
    (h.count_list (l := .ready queue) hq rfl).trans (if_neg hne.symm)
  refine ⟨?_, ?_, ?_, fun set' score hscore => ?_⟩
  · rw [← set.loc_key]
    exact (h.sound.put_place hQ (l := .ready queue) hq rfl).put_place hQ set.loc_of
      set.loc_kind.symm
  · rw [payloadOf, Store.hash_put_ne _ set.key_ne_jobs.symm,
      Store.hash_put_ne _ (hQ.apart queue hq).jobs.symm]
    exact h.stored
  · refine h.located.move hne.symm ?_ ?_
    · show (id :: s.list (K.namespaceQueue queue)).count id = 1
      rw [List.count_cons_self, hready]
    · rw [occursIn, lookup_unset_self]
      rfl
  · by_cases hset : set'.key K = set.key K
    · rw [hset, Store.zset_put_self, lookup_unset_self] at hscore
      cases hscore
    · rw [Store.zset_put_ne _ hset, Store.zset_put_ne _ ((hQ.apart queue hq).delayed set').symm]
        at hscore
      exact h.dated set' score hscore

/-- A failed attempt writes the job back with one retry more, and moves it to the retry set. -/
theorem Found.retried (hK : H.keys = K) (h : Found K Q id queue r H.currentProcessingQueue s)
    (he : e.Counts id queue r') {score : Int} (hscore : 0 ≤ score) :
    Found K Q id queue r' K.retry (retried H e score s) := by
  subst hK
  have hcount : (s.list H.currentProcessingQueue).count id = 1 :=
    (h.count_list (l := .processing H.processId) trivial rfl).trans (if_pos rfl)
  have hw := h.write hQ he
  have hid : e.id = id := he.id
  have hproc := current_ne H
  rw [Oxana.retried, hid]
  refine ⟨?_, ?_, ?_, fun set score' hs => ?_⟩
  · exact (hw.sound.put_place hQ (l := .retry) trivial rfl).put_place hQ
      (l := .processing H.processId) trivial rfl
  · rw [payloadOf, Store.hash_put_ne _ hproc.1.symm, Store.hash_put_ne _ StorageKeys.jobs_ne_retry]
    exact hw.stored
  · refine hw.located.move hproc.2.2.2 ?_ ?_
    · rw [occursIn, lookup_setScore_self]
      rfl
    · show ((s.list H.currentProcessingQueue).erase id).count id = 0
      rw [List.count_erase_self, hcount]
  · cases set with
    | schedule =>
      rw [DelayedSet.key, Store.zset_put_ne _ hproc.2.2.1.symm,
        Store.zset_put_ne _ StorageKeys.schedule_ne_retry,
        Store.zset_put_ne _ StorageKeys.jobs_ne_schedule.symm] at hs
      exact h.dated .schedule score' hs
    | retry =>
      rw [DelayedSet.key, Store.zset_put_ne _ hproc.2.2.2.symm, Store.zset_put_self,
        lookup_setScore_self] at hs
      cases hs
      exact hscore

/-- A last failure takes the job away, with a copy on the dead list. -/
theorem Found.killed (hK : H.keys = K) (h : Found K Q id queue r H.currentProcessingQueue s)
    (he : e.id = id) : Vanished K Q id (killed H e s) := by
  subst hK
  have hcount : (s.list H.currentProcessingQueue).count id = 1 :=
    (h.count_list (l := .processing H.processId) trivial rfl).trans (if_pos rfl)
  have hproc := current_ne H
  rw [Oxana.killed, he]
  refine ⟨?_, ?_, ?_⟩
  · exact ((h.sound.unset hQ).put_place hQ (l := .processing H.processId) trivial rfl).put_dead hQ _
  · rw [payloadOf, Store.hash_put_ne _ StorageKeys.jobs_ne_dead,
      Store.hash_put_ne _ hproc.1.symm, Store.hash_put_self, lookup_unset_self]
  · refine Located.put_other (Located.take (h.located.put_other _ fun l hl => hl.ne_jobs hQ) ?_) _
      fun l hl => hl.ne_dead hQ
    show ((s.list H.currentProcessingQueue).erase id).count id = 0
    rw [List.count_erase_self, hcount]

end Writes

/-! ## What others do -/

/-- Nothing happens to this job, whatever happens to others. -/
structure Elsewhere (K : StorageKeys) (Q : Set String) (id : JobId) (s s' : Store) : Prop where
  sound : Sound K Q s → Sound K Q s'
  payload : payloadOf K.jobs s' id = payloadOf K.jobs s id
  places : ∀ l : Loc, l.Of Q → occursAt s' id (l.key K) = occursAt s id (l.key K)
  dates : ∀ set : DelayedSet,
    (s'.zset (set.key K)).lookup id = (s.zset (set.key K)).lookup id

namespace Elsewhere

variable {queue : String} {r : ℕ} {here : Key} {s'' : Store}

theorem refl (s : Store) : Elsewhere K Q id s s :=
  ⟨fun h => h, rfl, fun _ _ => rfl, fun _ => rfl⟩

theorem trans (h : Elsewhere K Q id s s') (h' : Elsewhere K Q id s' s'') :
    Elsewhere K Q id s s'' :=
  ⟨fun hs => h'.sound (h.sound hs), h'.payload.trans h.payload,
    fun l hl => (h'.places l hl).trans (h.places l hl),
    fun set => (h'.dates set).trans (h.dates set)⟩

/-- What is done elsewhere leaves a job where it is. -/
theorem found (h : Elsewhere K Q id s s') (hs : Found K Q id queue r here s) :
    Found K Q id queue r here s' where
  sound := h.sound hs.sound
  stored := by
    rw [h.payload]
    exact hs.stored
  located l hl := (h.places l hl).trans (hs.located l hl)
  dated set score hscore := by
    rw [h.dates set] at hscore
    exact hs.dated set score hscore

/-- What is done elsewhere leaves a job that is nowhere where it is. -/
theorem vanished (h : Elsewhere K Q id s s') (hs : Vanished K Q id s) : Vanished K Q id s' :=
  ⟨h.sound hs.sound, h.payload.trans hs.payload,
    fun l hl => (h.places l hl).trans (hs.located l hl)⟩

variable (hQ : K.Queues Q)

include hQ

/-- A write to a list that keeps the count of the job is elsewhere. -/
theorem put_list (hl : l.Of Q) (hk : l.kind = .list) {xs : List String}
    (hcount : xs.count id = occursAt s id (l.key K)) :
    Elsewhere K Q id s (s.put (l.key K) (.list xs)) where
  sound hs := hs.put_place hQ hl hk.symm
  payload := by rw [payloadOf, Store.hash_put_ne _ (hl.ne_jobs hQ).symm, payloadOf]
  places l' hl' := by
    by_cases h : l'.key K = l.key K
    · rw [h, occursAt_put_self, occursIn, hcount]
    · rw [occursAt_put_ne _ h]
  dates set := by
    have hne : set.key K ≠ l.key K := by
      intro h
      have hkind := Loc.Of.kind_eq hQ set.loc_of hl (set.loc_key.trans h)
      rw [hk, set.loc_kind] at hkind
      cases hkind
    rw [Store.zset_put_ne _ hne]

/-- Another job leaves a delayed set, which is elsewhere for this one. -/
theorem unset {id' : JobId} (hne : id ≠ id') (set : DelayedSet)
    (hf : s.Fits (set.key K) .zset) :
    Elsewhere K Q id s (s.put (set.key K) (.zset (unset id' (s.zset (set.key K))))) where
  sound hs := by
    rw [← set.loc_key]
    exact hs.put_place hQ set.loc_of set.loc_kind.symm
  payload := by rw [payloadOf, Store.hash_put_ne _ set.key_ne_jobs.symm, payloadOf]
  places l' hl' := by
    by_cases h : l'.key K = set.key K
    · rw [h, occursAt_put_self, occursIn, lookup_unset_ne hne, occursAt_zset hf]
    · rw [occursAt_put_ne _ h]
  dates set' := by
    by_cases h : set'.key K = set.key K
    · rw [h, Store.zset_put_self, lookup_unset_ne hne]
    · rw [Store.zset_put_ne _ h]

/-- Another job joins a list, which is elsewhere for this one. -/
theorem push {id' : JobId} (hne : id ≠ id') (hl : l.Of Q) (hk : l.kind = .list)
    (hf : s.Fits (l.key K) .list) :
    Elsewhere K Q id s (s.put (l.key K) (.list (id' :: s.list (l.key K)))) := by
  refine put_list hQ hl hk ?_
  rw [List.count_cons_of_ne hne.symm, occursAt_list hf]

/-- Another job leaves a list at its end, which is elsewhere for this one. -/
theorem drop {id' : JobId} (hne : id ≠ id') (hl : l.Of Q) (hk : l.kind = .list)
    (hf : s.Fits (l.key K) .list) (hlast : (s.list (l.key K)).getLast? = some id') :
    Elsewhere K Q id s (s.put (l.key K) (.list (s.list (l.key K)).dropLast)) := by
  refine put_list hQ hl hk ?_
  rw [occursAt_list hf, ← List.dropLast_append_getLast? id' hlast, List.count_append,
    List.dropLast_append_getLast? id' hlast, List.count_singleton, if_neg (by simpa using hne.symm),
    Nat.add_zero]

/-- A write to the payloads that keeps the one of the job is elsewhere. -/
theorem put_jobs {m : List (String × String)}
    (hm : Sound K Q s → Sound K Q (s.put K.jobs (.hash m)))
    (hlookup : m.lookup id = (s.hash K.jobs).lookup id) :
    Elsewhere K Q id s (s.put K.jobs (.hash m)) where
  sound := hm
  payload := by
    rw [payloadOf, Store.hash_put_self, hlookup]
    rfl
  places l' hl' := occursAt_put_ne _ (hl'.ne_jobs hQ)
  dates set := by rw [Store.zset_put_ne _ set.key_ne_jobs]

/-- The payload of another job is written, which is elsewhere for this one. -/
theorem setField {e : JobEnvelope} (hne : id ≠ e.id) (hq : e.queue ∈ Q) :
    Elsewhere K Q id s (s.put K.jobs (.hash (setField e.id e.encode (s.hash K.jobs)))) :=
  put_jobs hQ (fun hs => hs.setField hQ hq) (lookup_setField_ne hne)

/-- The payload of another job is dropped, which is elsewhere for this one. -/
theorem unsetField {id' : JobId} (hne : id ≠ id') :
    Elsewhere K Q id s (s.put K.jobs (.hash (Redis.unset id' (s.hash K.jobs)))) :=
  put_jobs hQ (fun hs => hs.unset hQ) (lookup_unset_ne hne)

/-- Another job leaves a list, which is elsewhere for this one. -/
theorem erase {id' : JobId} (hne : id ≠ id') (hl : l.Of Q) (hk : l.kind = .list)
    (hf : s.Fits (l.key K) .list) :
    Elsewhere K Q id s (s.put (l.key K) (.list ((s.list (l.key K)).erase id'))) := by
  refine put_list hQ hl hk ?_
  rw [List.count_erase_of_ne hne, occursAt_list hf]

/-- A write to the dead list is elsewhere for every job. -/
theorem put_dead (ps : List String) : Elsewhere K Q id s (s.put K.dead (.list ps)) where
  sound hs := hs.put_dead hQ ps
  payload := by rw [payloadOf, Store.hash_put_ne _ StorageKeys.jobs_ne_dead, payloadOf]
  places l' hl' := occursAt_put_ne _ (hl'.ne_dead hQ)
  dates set := by rw [Store.zset_put_ne _ set.key_ne_dead]

/-- Another job joins a delayed set, which is elsewhere for this one. -/
theorem setScore {id' : JobId} (hne : id ≠ id') (score : Int) (set : DelayedSet)
    (hf : s.Fits (set.key K) .zset) :
    Elsewhere K Q id s
      (s.put (set.key K) (.zset (setScore id' score (s.zset (set.key K))))) where
  sound hs := by
    rw [← set.loc_key]
    exact hs.put_place hQ set.loc_of set.loc_kind.symm
  payload := by rw [payloadOf, Store.hash_put_ne _ set.key_ne_jobs.symm, payloadOf]
  places l' hl' := by
    by_cases h : l'.key K = set.key K
    · rw [h, occursAt_put_self, occursIn, lookup_setScore_ne hne, occursAt_zset hf]
    · rw [occursAt_put_ne _ h]
  dates set' := by
    by_cases h : set'.key K = set.key K
    · rw [h, Store.zset_put_self, lookup_setScore_ne hne]
    · rw [Store.zset_put_ne _ h]

omit hQ

/-- Another job is retried, which is elsewhere for this one. -/
theorem retried {H : Handle} {e : JobEnvelope} (hQ : H.keys.Queues Q) (hs : Sound H.keys Q s)
    (hne : id ≠ e.id) (hq : e.queue ∈ Q) (score : Int) :
    Elsewhere H.keys Q id s (retried H e score s) := by
  have hproc := current_ne H
  have hfield := setField (s := s) hQ hne hq
  have hscore := setScore hQ hne score .retry ((hfield.sound hs).delayed .retry)
  have herase := erase hQ hne (l := .processing H.processId) trivial rfl
    ((hscore.sound (hfield.sound hs)).processing H.processId)
  have hz : (s.put H.keys.jobs (.hash (Redis.setField e.id e.encode (s.hash H.keys.jobs)))).zset
      H.keys.retry = s.zset H.keys.retry := Store.zset_put_ne _ StorageKeys.jobs_ne_retry.symm
  have hl : ((s.put H.keys.jobs (.hash (Redis.setField e.id e.encode (s.hash H.keys.jobs)))).put
      H.keys.retry (.zset (Redis.setScore e.id score (s.zset H.keys.retry)))).list
        H.currentProcessingQueue = s.list H.currentProcessingQueue :=
    (Store.list_put_ne _ hproc.2.2.2).trans (Store.list_put_ne _ hproc.1)
  have hall := (hfield.trans hscore).trans herase
  simp only [DelayedSet.key, hz] at hall
  rw [Oxana.retried, ← hl]
  exact hall

/-- Another job is given up, which is elsewhere for this one. -/
theorem killed {H : Handle} {e : JobEnvelope} (hQ : H.keys.Queues Q) (hs : Sound H.keys Q s)
    (hne : id ≠ e.id) : Elsewhere H.keys Q id s (killed H e s) := by
  have hfield := unsetField (s := s) hQ hne
  have herase := erase hQ hne (l := .processing H.processId) trivial rfl
    ((hfield.sound hs).processing H.processId)
  have hl : (s.put H.keys.jobs (.hash (Redis.unset e.id (s.hash H.keys.jobs)))).list
      H.currentProcessingQueue = s.list H.currentProcessingQueue :=
    Store.list_put_ne _ (current_ne H).1
  rw [Oxana.killed, ← hl]
  exact (hfield.trans herase).trans (put_dead hQ _)

end Elsewhere

end Oxana
