import Oxana.Atomicity

/-!
# What an enqueue means

`enqueueSpec` processes one envelope against a store, in the plainest terms: a
Skip envelope whose id is stored does nothing; a Replace envelope whose id is
stored first takes the job out of wherever it may be waiting; and then the
envelope is stored and placed.

`commit_refines` is the refinement: the writes that the script makes for a list
of envelopes are these steps, one after the other. The script decides about all
of them before it makes the first write, so its plan has to foresee what the
earlier writes of the same call will have done.
-/

namespace Oxana

open Redis Script

variable {K : StorageKeys}

/-- Take a job out of a sorted set, if it is there. -/
def leaveSet (k : Key) (id : JobId) (s : Store) : Store := s.put k (.zset (unset id (s.zset k)))

/-- Take a job out of a list, as often as it is there. -/
def leaveList (k : Key) (id : JobId) (s : Store) : Store :=
  s.put k (.list ((s.list k).filter (· ≠ id)))

/-- Store the payload of an envelope. -/
def record (K : StorageKeys) (e : JobEnvelope) (s : Store) : Store :=
  s.put K.jobs (.hash (setField e.id e.encode (s.hash K.jobs)))

/-- Put a job where it belongs: on its ready list, or into the schedule. -/
def place (K : StorageKeys) (destination : JobDestination) (e : JobEnvelope) (s : Store) : Store :=
  match destination with
  | .queue => s.put (K.namespaceQueue e.queue) (.list (e.id :: s.list (K.namespaceQueue e.queue)))
  | .schedule =>
    s.put K.schedule (.zset (setScore e.id e.jobMeta.scheduledAt.toInt (s.zset K.schedule)))

/-- The queue that a stored job names, if it can be read. -/
def storedQueue (K : StorageKeys) (s : Store) (id : JobId) : Option String :=
  ((payloadOf K.jobs s id).bind JobEnvelope.decode).map (·.queue)

/-- Make room for a replacement: the job leaves the schedule, the retry set, the
ready list of the queue it names now and that of the queue it is going to. -/
def displace (K : StorageKeys) (e : JobEnvelope) (s : Store) : Store :=
  match storedQueue K s e.id with
  | some old => leaveList (K.namespaceQueue e.queue) e.id (leaveList (K.namespaceQueue old) e.id
      (leaveSet K.retry e.id (leaveSet K.schedule e.id s)))
  | none => s

/-- Process one envelope: skip it, or replace what is there, or just enqueue it. -/
def enqueueSpec (K : StorageKeys) (destination : JobDestination) (s : Store) (e : JobEnvelope) :
    Store :=
  if e.skips && (payloadOf K.jobs s e.id).isSome then s
  else place K destination e (record K e (if e.replaces then displace K e s else s))

/-- Every payload in the jobs hash can be read as an envelope. -/
def Valid (K : StorageKeys) (s : Store) : Prop :=
  ∀ id p, payloadOf K.jobs s id = some p → (JobEnvelope.decode p).isSome

/-- The view of a store: the ready list that each stored job names. -/
def viewOf (K : StorageKeys) (s : Store) : View := fun id =>
  (storedQueue K s id).map K.namespaceQueue

/-- In a store whose payloads are all envelopes, the view knows a job exactly if it is stored. -/
theorem viewOf_isSome {s : Store} (h : Valid K s) (id : JobId) :
    (viewOf K s id).isSome = (payloadOf K.jobs s id).isSome := by
  rcases hp : payloadOf K.jobs s id with _ | p
  · simp [viewOf, storedQueue, hp]
  · simpa [viewOf, storedQueue, hp] using h id p hp

/-! ## One write -/

section Write

variable {Γ : Typing} {destination : JobDestination} {s : Store} {v : View} {e : JobEnvelope}

/-- The keys that a write of the envelope touches have their kinds in the typing, and no key has two
kinds. -/
structure Keys (K : StorageKeys) (Γ : Typing) (destination : JobDestination) (e : JobEnvelope) :
    Prop where
  /-- no key has two kinds -/
  consistent : Γ.Consistent
  /-- the jobs hash -/
  jobs : Γ K.jobs .hash
  /-- the destination -/
  place : match destination with
    | .queue => Γ (K.namespaceQueue e.queue) .list
    | .schedule => Γ K.schedule .zset

/-- Storing a job and placing it, as commands: they succeed on a typed store and do what is meant.
-/
theorem place_run (hk : Keys K Γ destination e) (hs : Script.Typed Γ s) :
    (do
      hset K.jobs e.id e.encode
      if decide (destination = .schedule) = true then
        zadd K.schedule e.jobMeta.scheduledAt.toInt e.id
      else onKey (some (K.namespaceQueue e.queue)) fun k => lpush k e.id : Script Unit) s =
      (.ok (), place K destination e (record K e s)) := by
  have hs' : Script.Typed Γ (record K e s) := hs.put hk.consistent hk.jobs
  rw [bind_ok (hset_ok (hs _ _ hk.jobs) e.id e.encode)]
  have hplace := hk.place
  cases destination with
  | queue => exact lpush_ok (hs' _ _ hplace) e.id
  | schedule => exact zadd_ok (hs' _ _ hplace) _ e.id

/-- A list is left once and for all: leaving it again does nothing. -/
theorem leaveList_leaveList (k : Key) (id : JobId) (s : Store) :
    leaveList k id (leaveList k id s) = leaveList k id s := by
  simp [leaveList]

/-- A write to another key touches no payload. -/
theorem payloadOf_put_ne {k : Key} {w : Value} {id : JobId} (h : K.jobs ≠ k) :
    payloadOf K.jobs (s.put k w) id = payloadOf K.jobs s id := by
  rw [payloadOf, Store.hash_put_ne _ h, payloadOf]

/-- Storing a job changes its own payload, and that of no other job. -/
theorem payloadOf_record (id : JobId) : payloadOf K.jobs (record K e s) id =
    if id = e.id then some e.encode else payloadOf K.jobs s id := by
  rw [payloadOf, record, Store.hash_put_self]
  split
  · next h => rw [h, lookup_setField_self]
  · next h => rw [lookup_setField_ne h, payloadOf]

/-- Placing a job changes no payload. -/
theorem payloadOf_place (hk : Keys K Γ destination e) (id : JobId) :
    payloadOf K.jobs (place K destination e s) id = payloadOf K.jobs s id := by
  have hplace := hk.place
  cases destination with
  | queue =>
    refine payloadOf_put_ne fun h => ?_
    rw [← h] at hplace
    cases hk.consistent _ _ _ hk.jobs hplace
  | schedule => exact payloadOf_put_ne StorageKeys.jobs_ne_schedule

/-- Making room for a job changes no payload. -/
theorem payloadOf_displace (hΓ : Γ.Consistent) (hj : Γ K.jobs .hash)
    (hnew : Γ (K.namespaceQueue e.queue) .list)
    (hold : ∀ old, storedQueue K s e.id = some old → Γ (K.namespaceQueue old) .list)
    (id : JobId) : payloadOf K.jobs (displace K e s) id = payloadOf K.jobs s id := by
  have hne : ∀ k, Γ k .list → K.jobs ≠ k := by
    rintro k hk rfl
    cases hΓ _ _ _ hj hk
  simp only [displace]
  split
  · next old h =>
    rw [leaveList, payloadOf_put_ne (hne _ hnew), leaveList, payloadOf_put_ne (hne _ (hold _ h)),
      leaveSet, payloadOf_put_ne StorageKeys.jobs_ne_retry, leaveSet,
      payloadOf_put_ne StorageKeys.jobs_ne_schedule]
  · rfl

/-- The keys of a planned write are of the kinds that the write needs. -/
theorem Keys.of_typed (hΓ : Γ.Consistent) (hj : Γ K.jobs .hash)
    (ht : (writeFor K v e).Typed Γ K.schedule K.retry (destination = .schedule)) :
    Keys K Γ destination e := by
  refine ⟨hΓ, hj, ?_⟩
  have := ht.place
  cases destination with
  | queue => exact this _ rfl
  | schedule => exact this

/-- **One write**: what the script commits for an envelope that is not skipped is what the envelope
means. -/
theorem commitWrite_refines (hΓ : Γ.Consistent) (hs : Script.Typed Γ s) (hj : Γ K.jobs .hash)
    (ht : (writeFor K v e).Typed Γ K.schedule K.retry (destination = .schedule))
    (hv : v e.id = viewOf K s e.id) (hval : Valid K s)
    (hskip : (e.skips && (v e.id).isSome) = false) :
    commitWrite K.jobs K.schedule K.retry (destination = .schedule) (writeFor K v e) s =
        (.ok (), enqueueSpec K destination s e) ∧
      ∀ id, payloadOf K.jobs (enqueueSpec K destination s e) id =
        if id = e.id then some e.encode else payloadOf K.jobs s id := by
  have hk := Keys.of_typed hΓ hj ht
  have hspec : enqueueSpec K destination s e =
      place K destination e (record K e (if e.replaces then displace K e s else s)) := by
    rw [enqueueSpec, if_neg]
    rw [← viewOf_isSome hval, ← hv, hskip]
    decide
  rw [hspec]
  by_cases hr : (writeFor K v e).replacing
  · -- a job that is there makes room
    obtain ⟨hrep, hsome⟩ := Bool.and_eq_true_iff.mp hr
    obtain ⟨h₁, h₂, h₃, h₄⟩ := ht.remove hr
    obtain ⟨k, hvk⟩ := Option.isSome_iff_exists.mp hsome
    obtain ⟨old, hold, rfl⟩ := Option.map_eq_some_iff.mp (hv.symm.trans hvk)
    have hq : (writeFor K v e).oldQueue = some (K.namespaceQueue old) := by
      rw [writeFor, if_pos hrep, hvk]
    have hdis : displace K e s = leaveList (K.namespaceQueue e.queue) e.id
        (leaveList (K.namespaceQueue old) e.id (leaveSet K.retry e.id
          (leaveSet K.schedule e.id s))) := by
      rw [displace, hold]
    have hs₁ : Script.Typed Γ (leaveSet K.schedule e.id s) := hs.put hΓ h₁
    have hs₂ : Script.Typed Γ (leaveSet K.retry e.id (leaveSet K.schedule e.id s)) := hs₁.put hΓ h₂
    have hs₃ : Script.Typed Γ (leaveList (K.namespaceQueue old) e.id
        (leaveSet K.retry e.id (leaveSet K.schedule e.id s))) := hs₂.put hΓ (h₃ _ hq)
    have hs₄ : Script.Typed Γ (displace K e s) := by
      rw [hdis]
      exact hs₃.put hΓ (h₄ _ rfl)
    rw [if_pos hrep]
    refine ⟨?_, fun id => ?_⟩
    · simp only [commitWrite]
      simp only [if_pos hr]
      refine (bind_ok (zrem_ok (hs _ _ h₁) _)).trans <|
        (bind_ok (zrem_ok (hs₁ _ _ h₂) _)).trans ?_
      rw [hq]
      refine (bind_ok (lremAll_ok (hs₂ _ _ (h₃ _ hq)) _)).trans ?_
      by_cases hkk : K.namespaceQueue old = K.namespaceQueue e.queue
      · rw [if_neg (by simp [writeFor, hkk])]
        have : displace K e s = leaveList (K.namespaceQueue old) e.id
            (leaveSet K.retry e.id (leaveSet K.schedule e.id s)) := by
          rw [hdis, ← hkk, leaveList_leaveList]
        rw [← place_run hk hs₄, this]
        rfl
      · rw [if_pos (by simp [writeFor, hkk])]
        refine (bind_ok (lremAll_ok (hs₃ _ _ (h₄ _ rfl)) _)).trans ?_
        rw [← place_run hk hs₄, hdis]
        rfl
    · rw [payloadOf_place hk, payloadOf_record, payloadOf_displace hΓ hj (h₄ _ rfl)]
      intro old' hold'
      rw [hold] at hold'
      obtain rfl := Option.some.inj hold'
      exact h₃ _ hq
  · -- otherwise there is nothing to make room for
    have hdis : (if e.replaces then displace K e s else s) = s := by
      split
      · next hrep =>
        have hnone : storedQueue K s e.id = none := by
          have : v e.id = none := by simpa [writeFor, hrep] using hr
          rw [hv] at this
          simpa [viewOf] using this
        rw [displace, hnone]
      · rfl
    rw [hdis]
    refine ⟨?_, fun id => by rw [payloadOf_place hk, payloadOf_record]⟩
    simp only [commitWrite]
    simp only [if_neg hr]
    exact place_run hk hs

end Write

/-! ## A whole plan -/

section Plan

variable {Γ : Typing} {destination : JobDestination} {s : Store} {v : View}

/-- The view follows a write: the id is stored with its queue, all else is as before. -/
theorem viewOf_write {s' : Store} {e : JobEnvelope} (hv : ∀ id, v id = viewOf K s id)
    (hpay : ∀ id, payloadOf K.jobs s' id =
      if id = e.id then some e.encode else payloadOf K.jobs s id) (id : JobId) :
    v.write K e id = viewOf K s' id := by
  rw [viewOf, storedQueue, hpay, View.write]
  by_cases h : id = e.id
  · subst h
    simp [decode_encode]
  · simp [h, hv, viewOf, storedQueue]

/-- A store whose payloads are all envelopes is one after an envelope has been written. -/
theorem Valid.write {s' : Store} {e : JobEnvelope} (hval : Valid K s)
    (hpay : ∀ id, payloadOf K.jobs s' id =
      if id = e.id then some e.encode else payloadOf K.jobs s id) : Valid K s' := by
  intro id p hp
  rw [hpay] at hp
  split at hp
  · obtain rfl := Option.some.inj hp
    simp [decode_encode]
  · exact hval id p hp

/-- **A plan is carried out as its envelopes mean**, one after the other. -/
theorem commit_refines (hΓ : Γ.Consistent) (hj : Γ K.jobs .hash) {es : List JobEnvelope}
    (hs : Script.Typed Γ s) (hv : ∀ id, v id = viewOf K s id) (hval : Valid K s)
    (hws : ∀ w ∈ planFor K v es, w.Typed Γ K.schedule K.retry (destination = .schedule)) :
    forEach (planFor K v es) (commitWrite K.jobs K.schedule K.retry (destination = .schedule)) s =
      (.ok (), es.foldl (enqueueSpec K destination) s) := by
  induction es generalizing s v with
  | nil => rfl
  | cons e es ih =>
    rw [planFor] at hws ⊢
    rw [List.foldl_cons]
    by_cases hskip : (e.skips && (v e.id).isSome) = true
    · rw [if_pos hskip] at hws ⊢
      have : enqueueSpec K destination s e = s := by
        rw [hv, viewOf_isSome hval] at hskip
        rw [enqueueSpec, if_pos hskip]
      rw [this]
      exact ih hs hv hval hws
    · rw [if_neg hskip] at hws ⊢
      have hw := hws _ (List.mem_cons_self ..)
      obtain ⟨hrun, hpay⟩ := commitWrite_refines hΓ hs hj hw (hv e.id) hval
        (Bool.eq_false_iff.mpr hskip)
      obtain ⟨_, s', hrun', hs'⟩ := commitWrite_total hΓ hj (writeFor_keyed v e) hw s hs
      rw [hrun] at hrun'
      obtain rfl := (Prod.mk.inj hrun').2
      rw [forEach, bind_ok hrun]
      exact ih hs' (viewOf_write hv hpay) (hval.write hpay)
        fun w h => hws w (List.mem_cons_of_mem _ h)

/-- The script's knowledge is that of the store's view, once the snapshots agree. -/
theorem viewOf_agrees {pending : List JobEnvelope} {snapshots : Snapshots} (hval : Valid K s)
    (hnd : (snapshots.map (·.1)).Nodup)
    (hparsed : ∀ id sn, (id, some sn) ∈ snapshots → ∃ p, EnqueueSnapshot.parse p = some sn)
    (hagree : SnapshotsAgree K pending snapshots s) :
    (learned K pending snapshots s).Agrees K.jobs s (viewOf K s)
      fun id => id ∈ snapshots.map (·.1) := by
  refine ⟨fun id b hb => ?_, fun id _ => viewOf_isSome hval id, fun id hid => ?_⟩
  · rw [viewOf_isSome hval]
    by_cases hid : id ∈ snapshots.map (·.1)
    · obtain ⟨⟨id, sn⟩, hmem, rfl⟩ := List.mem_map.mp hid
      rw [(learned_present _ hnd hmem).1] at hb
      exact (Option.some.inj hb).symm
    · rw [learned_absent hid] at hb
      cases hb
  · obtain ⟨⟨id, sn⟩, hmem, rfl⟩ := List.mem_map.mp hid
    have ha := hagree _ (List.mem_map.mpr ⟨(id, sn), hmem, rfl⟩)
    rcases hp : payloadOf K.jobs s id with _ | p'
    · exact .inr (by simp [viewOf, storedQueue, hp])
    · rcases sn with _ | sn
      · simp [snapshotArg, SnapshotArg.agrees, hp] at ha
      · -- a snapshot that agrees names the queue the payload names
        left
        obtain ⟨p, hparse⟩ := hparsed id sn hmem
        obtain ⟨e, he⟩ := Option.isSome_iff_exists.mp (hval id p' hp)
        have hm : sn.matches p' := by
          simp only [snapshotArg, hp] at ha
          simp only [EnqueueSnapshot.matches]
          simp only [SnapshotArg.agrees] at ha
          rcases hc : sn.comparison with _ | _ | _ <;> simpa [hc] using ha
        have hqueue := EnqueueSnapshot.queue_of_matches hparse hm he
        rw [(learned_present _ hnd hmem).2 sn rfl]
        simp [viewOf, storedQueue, hp, he, hqueue]

end Plan

end Oxana
