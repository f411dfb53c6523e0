import Oxana.Drain
import Oxana.WorkerSteps
import Oxana.Interleave.Within

/-!
# The life of a job

Seen from outside, a job is nowhere or at one place, and there are few ways from
one place to another: `Moves` lists them, each with the request that goes this
way and with what must be true when it does. A job is claimed by a process that
runs; only that process hands it on to the retry set or ends it; when the
process has ended, what it had claimed goes back to the queue its payload names,
or is dropped if the payload says so.

`job_moves` says that the system does nothing else: from every reachable state,
every step, whoever takes it and whatever has been interleaved, moves every job
along one of these arrows. So no job gets lost: one that has been somewhere and
is nowhere has been ended by the process that had claimed it, or was not to be
resurrected (`job_leaves_when_done`).
-/

namespace Oxana

open Redis Script Interleave Call

variable {K : StorageKeys} {U : Set JobId} {w w' : World Ledger} {id : JobId} {l : Request}

/-! ## Places and arrows -/

/-- The job is at this place, once, and at no other; without a place, it is nowhere at all. -/
def IsAt (K : StorageKeys) (s : Store) (id : JobId) (x : Option Loc) : Prop :=
  occ K s id = x.elim 0 only

/-- The payload that is stored for the job can be read, and this is the envelope it is read as. -/
def StoredAs (K : StorageKeys) (s : Store) (id : JobId) (e : JobEnvelope) : Prop :=
  ∃ p, payloadOf K.jobs s id = some p ∧ JobEnvelope.decode p = some e

/-- The places to which new jobs go. -/
def Loc.Entry (l : Loc) : Prop := l = .schedule ∨ ∃ queue, l = .ready queue

/-- The ways of a job from one place to another, each with the request that takes it there and with
what that request demands of the world. -/
inductive Moves (K : StorageKeys) (id : JobId) (w w' : World Ledger) :
    Request → Option Loc → Option Loc → Prop
  /-- it stays where it is -/
  | rests (l : Request) (x : Option Loc) : Moves K id w w' l x x
  /-- it is enqueued -/
  | arrives {l : Request} {x : Loc} : l = .hset ∨ l.submits → x.Entry →
      Moves K id w w' l none (some x)
  /-- a process that runs claims it, from the end of the ready list -/
  | claims {queue processId : String} : processId ∉ w.ghost.ended →
      (w.store.list (K.namespaceQueue queue)).getLast? = some id →
      Moves K id w w' .lmove (some (.ready queue)) (some (.processing processId))
  /-- it becomes ready, on the queue its payload names -/
  | becomesReady {x : Loc} {e : JobEnvelope} : x.Delayed → StoredAs K w.store id e →
      Moves K id w w' .promote (some x) (some (.ready e.queue))
  /-- its process has it retried -/
  | fails {processId : String} {e : JobEnvelope} {score : Int} : processId ∉ w.ghost.ended →
      e.id = id → w' = w.after
        (retryFailed K.jobs K.retry (K.processingQueue processId) id e.encode score) →
      Moves K id w w' (.retryFailed id) (some (.processing processId)) (some .retry)
  /-- its process is done with it -/
  | succeeds {processId : String} {ids : List JobId} : processId ∉ w.ghost.ended → id ∈ ids →
      w' = w.after (finishSuccess K.jobs (K.processingQueue processId) ids) →
      Moves K id w w' (.finishSuccess ids) (some (.processing processId)) none
  /-- its process gives it up; its entry is put on the dead list -/
  | dies {processId : String} {limit : Nat} {e : JobEnvelope} : processId ∉ w.ghost.ended →
      e.id = id → w'.store.list K.dead = bury limit e.encode (w.store.list K.dead) →
      Moves K id w w' (.finishDead id) (some (.processing processId)) none
  /-- its process has ended, and it goes back to the queue its payload names -/
  | recovers {processId : String} {e : JobEnvelope} : processId ∈ w.ghost.ended →
      StoredAs K w.store id e → e.jobMeta.resurrect = true →
      Moves K id w w' .resurrect (some (.processing processId)) (some (.ready e.queue))
  /-- its process has ended, and its payload says not to resurrect it -/
  | abandons {processId : String} {e : JobEnvelope} : processId ∈ w.ghost.ended →
      StoredAs K w.store id e → e.jobMeta.resurrect = false →
      Moves K id w w' .resurrect (some (.processing processId)) none

/-- Every job goes one of the ways of this request, or stays: wherever it was before the step, a way
leads to where it is afterwards. -/
def Moving (K : StorageKeys) (l : Request) (w w' : World Ledger) : Prop :=
  ∀ id, ∃ x y, IsAt K w.store id x ∧ IsAt K w'.store id y ∧ Moves K id w w' l x y

section Places

variable {s : Store} {x y : Option Loc}

/-- A job is at one place only, so where it is counted is where it is. -/
theorem IsAt.eq_some (h : IsAt K s id x) {l : Loc} (hl : occ K s id l ≠ 0) : x = some l := by
  rw [IsAt] at h
  rw [h] at hl
  cases x with
  | none => exact absurd rfl hl
  | some l' =>
    by_cases hll : l = l'
    · rw [hll]
    · exact absurd (only_ne hll) hl

/-- At the place where a job is, it is counted once. -/
theorem IsAt.occ_self {l : Loc} (h : IsAt K s id (some l)) : occ K s id l = 1 := by
  rw [IsAt] at h
  rw [h]
  exact only_self l

/-- A job is not at two places. -/
theorem IsAt.unique (h : IsAt K s id x) (h' : IsAt K s id y) : x = y := by
  cases y with
  | none =>
    cases x with
    | none => rfl
    | some l =>
      have hzero : occ K s id l = 0 := congrFun h' l
      rw [h.occ_self] at hzero
      cases hzero
  | some l =>
    apply h.eq_some
    rw [h'.occ_self]
    exact Nat.one_ne_zero

/-- Every job is at some place or at none, in every state with at most one place for each job. -/
theorem PlacementInv.isAt (hinv : PlacementInv K U w) (id : JobId) :
    ∃ x, IsAt K w.store id x := by
  by_cases h : occ K w.store id = 0
  · exact ⟨none, h⟩
  · obtain ⟨l, hl⟩ : ∃ l, occ K w.store id l ≠ 0 := by
      by_contra hall
      push Not at hall
      exact h (funext hall)
    exact ⟨some l, (hinv.jobs id).once.eq_only hl⟩

/-- A job whose payload is not stored is at no place. -/
theorem PlacementInv.gone (hinv : PlacementInv K U w) (hpay : payloadOf K.jobs w.store id = none)
    (l : Loc) : occ K w.store id l = 0 := by
  by_contra hl
  exact (hinv.jobs id).stored (fun hzero => hl (congrFun hzero l)) hpay

theorem PlacementInv.nowhere (hinv : PlacementInv K U w) (h : IsAt K w.store id x)
    (hpay : payloadOf K.jobs w.store id = none) : x = none := by
  cases x with
  | none => rfl
  | some l =>
    have hzero := hinv.gone hpay l
    rw [h.occ_self] at hzero
    cases hzero

end Places

/-! ## How to tell the way -/

section Ways

variable {x y : Option Loc}

/-- When the counts of a job have not changed, it is where it was. -/
theorem Moves.same (hocc : occ K w'.store id = occ K w.store id) (hx : IsAt K w.store id x)
    (hy : IsAt K w'.store id y) : Moves K id w w' l x y := by
  have hxy : x = y := by
    apply hx.unique
    rwa [IsAt, ← hocc]
  rw [hxy]
  exact .rests l y

/-- When a job is counted as often as before or more often, it has stayed where it was, or has come
to a place where new jobs go. -/
theorem Moves.grows (hl : l = .hset ∨ l.submits)
    (hle : ∀ loc, occ K w.store id loc ≤ occ K w'.store id loc)
    (hentry : ∀ loc, occ K w'.store id loc ≠ occ K w.store id loc → loc.Entry)
    (hx : IsAt K w.store id x) (hy : IsAt K w'.store id y) : Moves K id w w' l x y := by
  cases x with
  | none =>
    cases y with
    | none => exact .rests l none
    | some loc =>
      refine .arrives hl (hentry loc ?_)
      have hzero : occ K w.store id loc = 0 := congrFun hx loc
      rw [hy.occ_self, hzero]
      exact Nat.one_ne_zero
  | some loc =>
    have hone := hle loc
    rw [hx.occ_self] at hone
    have hsame : y = some loc := hy.eq_some (Nat.one_le_iff_ne_zero.mp hone)
    rw [hsame]
    exact .rests l _

/-- When the payload of a job has been dropped, the job has left the one place it may have left. -/
theorem Moves.gone (hw' : PlacementInv K U w') {loc : Loc}
    (hpay : payloadOf K.jobs w'.store id = none)
    (hocc : ∀ loc', loc' ≠ loc → occ K w'.store id loc' = occ K w.store id loc')
    (hway : Moves K id w w' l (some loc) none) (hx : IsAt K w.store id x)
    (hy : IsAt K w'.store id y) : Moves K id w w' l x y := by
  obtain rfl : y = none := hw'.nowhere hy hpay
  cases x with
  | none => exact .rests l none
  | some loc' =>
    by_cases hloc : loc' = loc
    · rw [hloc]
      exact hway
    · -- it cannot have left another place
      have hzero : occ K w'.store id loc' = 0 := congrFun hy loc'
      rw [hocc loc' hloc, hx.occ_self] at hzero
      cases hzero

/-- Jobs are moved in the ways of a request when this holds of each of them, wherever it was and
wherever it is. -/
theorem Moving.of (hw : PlacementInv K U w) (hw' : PlacementInv K U w')
    (h : ∀ id x y, IsAt K w.store id x → IsAt K w'.store id y → Moves K id w w' l x y) :
    Moving K l w w' := by
  intro id
  obtain ⟨x, hx⟩ := hw.isAt id
  obtain ⟨y, hy⟩ := hw'.isAt id
  exact ⟨x, y, hx, hy, h id x y hx hy⟩

/-- No job is moved when the counts of every job are what they were. -/
theorem Moving.still (hw : PlacementInv K U w) (hw' : PlacementInv K U w')
    (h : ∀ id, occ K w'.store id = occ K w.store id) : Moving K l w w' :=
  .of hw hw' fun id _ _ => .same (h id)

/-- When the counts of one job have changed and those of no other, it is enough to know the way of
that job. -/
theorem Moving.one {s' : Store} {f : JobView → JobView} (hw : PlacementInv K U w)
    (hw' : PlacementInv K U { w with store := s' }) (hch : Changes K w.store id f s')
    (h : ∀ x y, IsAt K w.store id x → IsAt K s' id y →
      Moves K id w { w with store := s' } l x y) : Moving K l w { w with store := s' } := by
  refine .of hw hw' fun id' x y hx hy => ?_
  by_cases hid : id' = id
  · subst hid
    exact h x y hx hy
  · exact .same (congrArg JobView.places (hch.ne hid)) hx hy

end Ways

/-! ## Requests -/

/-- Places are only gained, and only by new jobs. -/
structure Gains (K : StorageKeys) (s s' : Store) : Prop where
  /-- the keys have their types -/
  typed : StoreTyped K s'
  /-- no job leaves -/
  le : ∀ id loc, occ K s id loc ≤ occ K s' id loc
  /-- a job gains only places that are entries of the system: those where new jobs are put -/
  entry : ∀ id loc, occ K s' id loc ≠ occ K s id loc → loc.Entry

section Requests

variable {s s' s'' : Store} {e : JobEnvelope}

theorem Gains.refl (hs : StoreTyped K s) : Gains K s s :=
  ⟨hs, fun _ _ => le_refl _, fun _ _ h => absurd rfl h⟩

theorem Gains.trans (h : Gains K s s') (h' : Gains K s' s'') : Gains K s s'' := by
  refine ⟨h'.typed, fun id loc => (h.le id loc).trans (h'.le id loc), fun id loc hne => ?_⟩
  by_cases hsame : occ K s' id loc = occ K s id loc
  · apply h'.entry id loc
    rwa [hsame]
  · exact h.entry id loc hsame

theorem Gains.moving {s' : Store} (h : Gains K w.store s') (hl : l = .hset ∨ l.submits)
    (hw : PlacementInv K U w) (hw' : PlacementInv K U { w with store := s' }) :
    Moving K l w { w with store := s' } :=
  .of hw hw' fun id _ _ => .grows hl (h.le id) (h.entry id)

/-- Joining a list or a set gives a job one occurrence more there, and takes none away anywhere. -/
theorem JobView.le_join (v : JobView) (loc loc' : Loc) :
    v.places loc' ≤ (v.join loc).places loc' := by
  by_cases h : loc' = loc
  · simp [join, h]
  · simp [join, h]

/-- Placing an ordinary job adds to the list or the set that it is meant for, and takes nothing
away. -/
theorem place_gains (hs : StoreTyped K s) (hq : K.Plain e.queue) (destination : JobDestination) :
    Gains K s (place K destination e s) := by
  obtain ⟨f, hch, hf⟩ := Changes.placed_frame hs hq destination
  refine ⟨hch.typed, fun id loc => ?_, fun id loc hne => ?_⟩
  · by_cases hid : id = e.id
    · subst hid
      by_cases hloc : loc = e.loc destination
      · subst hloc
        cases destination with
        | queue =>
          have hpush := (Changes.push e.id (l := .ready e.queue) hs hq rfl).eq
          have hocc := congrArg (fun v => v.places (.ready e.queue)) hpush
          exact (JobView.le_join _ _ _).trans hocc.ge
        | schedule =>
          -- in a sorted set a job is once at most
          have hset := (Changes.setScore e.id (l := .schedule) hs trivial rfl
            e.jobMeta.scheduledAt.toInt).eq
          have hocc : occ K (place K .schedule e s) e.id .schedule = 1 := by
            refine (congrArg (fun v => v.places .schedule) hset).trans ?_
            simp [JobView.enter]
          rw [JobEnvelope.loc, hocc,
            occ_zset (l := .schedule) trivial (hs.places .schedule trivial)]
          split
          · exact le_refl 1
          · exact Nat.zero_le 1
      · have hsame := (hf (jobView K s e.id)).2 loc hloc
        rw [← hch.eq] at hsame
        exact hsame.ge
    · have hsame := congrArg (fun v => v.places loc) (hch.ne hid)
      exact hsame.ge
  · have hid : id = e.id := by
      by_contra hid
      exact hne (congrArg (fun v => v.places loc) (hch.ne hid))
    subst hid
    have hloc : loc = e.loc destination := by
      by_contra hloc
      have hsame := (hf (jobView K s e.id)).2 loc hloc
      rw [← hch.eq] at hsame
      exact hne hsame
    subst hloc
    cases destination with
    | queue => exact .inr ⟨e.queue, rfl⟩
    | schedule => exact .inl rfl

/-- Storing payloads moves no job, since no list and no set is written. -/
theorem occ_put_jobs (m : List (String × String)) (id : JobId) :
    occ K (s.put K.jobs (.hash m)) id = occ K s id := by
  funext loc
  exact occ_put_of_ne (fun hloc => Loc.key_ne_jobs hloc) _

/-- Recording a payload adds it and takes nothing away. -/
theorem record_gains (hs : StoreTyped K s) (e : JobEnvelope) : Gains K s (record K e s) := by
  have hocc (id : JobId) : occ K (record K e s) id = occ K s id := occ_put_jobs _ id
  refine ⟨hs.put_jobs _, fun id loc => ?_, fun id loc hne => ?_⟩
  · rw [hocc]
  · rw [hocc] at hne
    exact absurd rfl hne

/-- A job that replaces nothing is only added: what had a place before has it still. -/
theorem enqueueSpec_gains (hs : StoreTyped K s) (hq : K.Plain e.queue) (hrep : e.replaces = false)
    (destination : JobDestination) : Gains K s (enqueueSpec K destination s e) := by
  rw [enqueueSpec, hrep]
  split
  · exact .refl hs
  · exact (record_gains hs e).trans (place_gains (record_gains hs e).typed hq destination)

/-- So it is for several jobs, one after the other. -/
theorem enqueueSpecs_gain {es : List JobEnvelope} (hs : StoreTyped K s)
    (hes : ∀ e ∈ es, K.Plain e.queue ∧ e.replaces = false) (destination : JobDestination) :
    Gains K s (es.foldl (enqueueSpec K destination) s) := by
  induction es generalizing s with
  | nil => exact .refl hs
  | cons e es ih =>
    obtain ⟨hq, hrep⟩ := hes e List.mem_cons_self
    have hone := enqueueSpec_gains hs hq hrep destination
    exact hone.trans (ih hone.typed fun e' he => hes e' (List.mem_cons_of_mem _ he))

/-- Acknowledged jobs go the way of their process: from its processing list to nowhere. -/
theorem Acknowledges.moving {processId : String} {ids : List JobId} {s' : Store}
    (h : Acknowledges K processId ids w.store s') (hw : PlacementInv K U w)
    (hw' : PlacementInv K U { w with store := s' })
    (hway : ∀ id ∈ ids,
      Moves K id w { w with store := s' } l (some (.processing processId)) none) :
    Moving K l w { w with store := s' } := by
  refine .of hw hw' fun id x y hx hy => ?_
  by_cases hid : id ∈ ids
  · exact .gone hw' (h.payload id hid) (h.places id) (hway id hid) hx hy
  · exact .same (congrArg JobView.places (h.others id hid)) hx hy

end Requests

end Oxana
