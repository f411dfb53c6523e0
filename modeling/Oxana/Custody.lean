import Oxana.Placement
import Oxana.Ownership
import Oxana.EnqueueSpec

/-!
# Custody of jobs

The discipline under which every job is at most at one place. What has to hold
of the world is stated job by job (`JobOk`), and so are the tokens by which
clients own a job between two of their steps:

* a live process owns the jobs it has claimed,
* a producer owns the ordinary jobs it is about to enqueue: first `fresh`, then
  — where storing and placing are two steps — `staged`.

Nobody owns a job that waits on a ready list or in a sorted set, nor a job
claimed by a process whose executions have ended. A step is harmless when all
owned tokens of the jobs it touches are the client's own (`Custody.trade`).
-/

namespace Oxana

open Redis Interleave

/-- What is known about the world beyond the store: which ids were handed out, which processes have
ended, and which executions have begun. -/
structure Ledger where
  /-- the ids of ordinary jobs that have been handed out -/
  issued : Set JobId
  /-- the processes whose executions have ended -/
  ended : Set String
  /-- how many executions of a job have begun -/
  begun : JobId → ℕ := 0

/-- An envelope stored under its own id, on a queue with a plain name. -/
def GoodPayload (K : StorageKeys) (id : JobId) (p : String) : Prop :=
  ∃ e, JobEnvelope.decode p = some e ∧ e.id = id ∧ K.Plain e.queue

/-- The invariant of a single job, as the store has it; `U` are the ids of unique jobs, which may be
enqueued again and again. -/
structure JobOk (K : StorageKeys) (U issued : Set JobId) (id : JobId) (v : JobView) : Prop where
  /-- it is at most at one place -/
  once : Once v.places
  /-- if it is anywhere, it is stored -/
  stored : v.places ≠ 0 → v.payload ≠ none
  /-- what is stored is its envelope -/
  good : ∀ p, v.payload = some p → GoodPayload K id p
  /-- an ordinary job that is stored has been handed out -/
  known : id ∉ U → v.payload ≠ none → id ∈ issued

/-- The keys have their types: the payloads, the dead list, and every place where a job can be. -/
structure StoreTyped (K : StorageKeys) (s : Store) : Prop where
  /-- the jobs hash -/
  jobs : s.Fits K.jobs .hash
  /-- the dead list -/
  dead : s.Fits K.dead .list
  /-- all places -/
  places : ∀ l : Loc, l.Proper K → s.Fits (l.key K) l.kind

/-- What a client may own: a fact about a job that holds as long as the owner does not change it,
because nobody else may. -/
inductive Custody where
  /-- a job claimed by a process -/
  | claim (processId : String) (id : JobId)
  /-- an ordinary job that is not stored yet -/
  | fresh (id : JobId)
  /-- an ordinary job that is stored and not placed yet -/
  | staged (id : JobId)
  deriving DecidableEq

namespace Custody

/-- The job that the token is about. -/
def id : Custody → JobId
  | claim _ id => id
  | fresh id => id
  | staged id => id

/-- The fact that the token stands for, as a statement about the view of its job and what is known
beyond the store. -/
def Holds (U : Set JobId) (g : Ledger) : Custody → JobView → Prop
  | claim p _, v => p ∉ g.ended ∧ v.places (.processing p) ≠ 0
  | fresh id, v => id ∉ U ∧ id ∈ g.issued ∧ v = ⟨none, 0⟩
  | staged id, v => id ∉ U ∧ v.places = 0 ∧ v.payload ≠ none

/-- Claims belong to the clients of their process, new jobs to producers. -/
def Mine : Option String → Custody → Prop
  | o, claim p _ => o = some p
  | o, fresh _ => o = none
  | o, staged _ => o = none

end Custody

/-- The invariant of the world: the keys have their types, and every job is in order. -/
structure PlacementInv (K : StorageKeys) (U : Set JobId) (w : World Ledger) : Prop where
  /-- the keys have their types -/
  typed : StoreTyped K w.store
  /-- every job is in order -/
  jobs : ∀ id, JobOk K U w.ghost.issued id (jobView K w.store id)

/-- The discipline of these tokens: the invariant, the fact that each stands for, and who may own
it. -/
def custody (K : StorageKeys) (U : Set JobId) : Discipline (Option String) (World Ledger) Custody where
  inv := PlacementInv K U
  owns t w := t.Holds U w.ghost (jobView K w.store t.id)
  mine := Custody.Mine
  moves o w w' := w.ghost.ended ⊆ w'.ghost.ended ∧
    ∀ p, o = some p → p ∉ w.ghost.ended → p ∉ w'.ghost.ended
  moves_refl _ _ := ⟨Set.Subset.rfl, fun _ _ h => h⟩
  moves_trans _ _ _ _ h h' := ⟨h.1.trans h'.1, fun p hp hlive => h'.2 p hp (h.2 p hp hlive)⟩

variable {K : StorageKeys} {U : Set JobId} {w w' : World Ledger} {o : Option String}
  {T T' : Set Custody}

/-- **Harmless steps**: the step touches the jobs `X` only, they are in order afterwards, and
whatever was owned of them was owned by the client. Such a step is a trade. -/
theorem Custody.trade (X : Set JobId) (hghost : w'.ghost = w.ghost)
    (hinv : PlacementInv K U w) (htyped : StoreTyped K w'.store)
    (hframe : ∀ id, id ∉ X → jobView K w'.store id = jobView K w.store id)
    (hok : ∀ id ∈ X, JobOk K U w.ghost.issued id (jobView K w'.store id))
    (hours : ∀ t : Custody, t.id ∈ X → (custody K U).owns t w → t ∈ T)
    (howns : ∀ t ∈ T', (custody K U).owns t w')
    (hmine : ∀ t ∈ T', Custody.Mine o t)
    (hfresh : ∀ t ∈ T', t ∉ T → ¬ (custody K U).owns t w) :
    (custody K U).Trades o T T' w w' := by
  refine ⟨⟨htyped, fun id => ?_⟩, ?_, fun t ht hown => ?_, howns, hmine, hfresh⟩
  · rw [hghost]
    by_cases hid : id ∈ X
    · exact hok id hid
    · rw [hframe id hid]
      exact hinv.jobs id
  · intro o'
    refine ⟨?_, fun p _ hp => ?_⟩
    · rw [hghost]
    · rw [hghost]
      exact hp
  · have hid : t.id ∉ X := fun h => ht (hours t h hown)
    show t.Holds U w'.ghost (jobView K w'.store t.id)
    rw [hghost, hframe _ hid]
    exact hown

/-- A job that is somewhere is stored, and it is nowhere else. -/
theorem PlacementInv.at_place (hinv : PlacementInv K U w) {id : JobId} {l : Loc}
    (h : occ K w.store id l ≠ 0) :
    ∃ p, jobView K w.store id = ⟨some p, only l⟩ ∧ GoodPayload K id p := by
  have hok := hinv.jobs id
  have hplaces : occ K w.store id = only l := hok.once.eq_only h
  have hne : (jobView K w.store id).places ≠ 0 := fun h0 => h (congrFun h0 l)
  rcases hp : payloadOf K.jobs w.store id with _ | p
  · exact absurd hp (hok.stored hne)
  · exact ⟨p, by rw [jobView, hp, hplaces], hok.good p hp⟩

/-- The only token of a job that is at one place is that of its claim, if the place is a claim at
all. -/
theorem Custody.of_only {t : Custody} {p : String} {l : Loc}
    (hv : jobView K w.store t.id = ⟨some p, only l⟩) (hown : (custody K U).owns t w) :
    ∃ q, l = .processing q ∧ t = .claim q t.id ∧ q ∉ w.ghost.ended := by
  have h : t.Holds U w.ghost (jobView K w.store t.id) := hown
  rw [hv] at h
  cases t with
  | claim q id =>
    obtain ⟨hq, hocc⟩ := h
    have hl : Loc.processing q = l := by_contra fun hne => hocc (only_ne hne)
    exact ⟨q, hl.symm, rfl, hq⟩
  | fresh id =>
    have := congrArg JobView.payload h.2.2
    cases this
  | staged id =>
    have := congrFun h.2.1 l
    simp at this

/-- Nobody owns a job that waits somewhere, nor one whose process has ended. -/
theorem Custody.unowned {t : Custody} {p : String} {l : Loc}
    (hv : jobView K w.store t.id = ⟨some p, only l⟩) (hl : ∀ q, l = .processing q → q ∈ w.ghost.ended) :
    ¬ (custody K U).owns t w := by
  intro hown
  obtain ⟨q, rfl, -, hq⟩ := Custody.of_only hv hown
  exact hq (hl q rfl)

/-- A job that is stored and at one place is in order. -/
theorem JobOk.at_place {issued : Set JobId} {id : JobId} {p : String} (hp : GoodPayload K id p)
    (hknown : id ∉ U → id ∈ issued) (l : Loc) : JobOk K U issued id ⟨some p, only l⟩ :=
  ⟨once_only l, fun _ => Option.some_ne_none p, fun _ h => Option.some.inj h ▸ hp, fun h _ => hknown h⟩

/-- A job that is stored and at no place is in order, too. -/
theorem JobOk.stored_only {issued : Set JobId} {id : JobId} {p : String} (hp : GoodPayload K id p)
    (hknown : id ∉ U → id ∈ issued) : JobOk K U issued id ⟨some p, 0⟩ :=
  ⟨once_zero, fun h => absurd rfl h, fun _ h => Option.some.inj h ▸ hp, fun h _ => hknown h⟩

/-- A job of which nothing is left is in order. -/
theorem JobOk.gone {issued : Set JobId} {id : JobId} : JobOk K U issued id ⟨none, 0⟩ :=
  ⟨once_zero, fun h => absurd rfl h, fun _ h => (nomatch h), fun _ h => absurd rfl h⟩

/-- An ordinary job that is stored has been handed out. -/
theorem PlacementInv.issued_of_stored (hinv : PlacementInv K U w) {id : JobId} {p : String}
    {f : Loc → ℕ} (h : jobView K w.store id = ⟨some p, f⟩) : id ∉ U → id ∈ w.ghost.issued := by
  intro hU
  refine (hinv.jobs id).known hU ?_
  rw [h]
  exact Option.some_ne_none p

/-- A write to a key of no job is a trade: everybody keeps their tokens. -/
theorem Custody.trade_nothing {s' : Store} (hinv : PlacementInv K U w)
    (hT : ∀ t ∈ T, (custody K U).owns t w ∧ Custody.Mine o t) (htyped : StoreTyped K s')
    (hview : ∀ id, jobView K s' id = jobView K w.store id) :
    (custody K U).Trades o T T w { w with store := s' } := by
  refine Custody.trade ∅ rfl hinv htyped (fun id _ => hview id)
    (fun _ h => absurd h (Set.notMem_empty _)) (fun _ h => absurd h (Set.notMem_empty _))
    (fun t ht => ?_) (fun t ht => (hT t ht).2) fun t ht hnot => absurd ht hnot
  show t.Holds U w.ghost (jobView K s' t.id)
  rw [hview]
  exact (hT t ht).1

/-- A script that refuses to run is a request without consequences: everybody keeps their tokens. -/
theorem Refused.sends {α : Type} {Q : α → Set Custody → Prop} {R : Set Custody → Prop}
    {x : Script α} (hinv : PlacementInv K U w) (hT : ∀ t ∈ T, (custody K U).owns t w)
    (hmine : ∀ t ∈ T, Custody.Mine o t) (hR : R T) (hx : Refused x w.store) :
    Call.Sends (custody K U) o Q R T w x := by
  obtain ⟨m, hm⟩ := hx
  refine .nothing hinv hT hmine hR (by rw [hm]) fun a ha => ?_
  rw [hm] at ha
  cases ha

/-! ## Keys of the right type -/

/-- In the empty store all keys have their types. -/
theorem storeTyped_empty : StoreTyped K Store.empty :=
  ⟨Store.fits_empty _, Store.fits_empty _, fun _ _ => Store.fits_empty _⟩

/-- A job is on a ready list exactly if it is at this place. -/
theorem StoreTyped.mem_ready {s : Store} (h : StoreTyped K s) {id : JobId} {queue : String}
    (hq : K.Plain queue) :
    id ∈ s.list (K.namespaceQueue queue) ↔ occ K s id (.ready queue) ≠ 0 :=
  (occ_ne_zero (l := .ready queue) hq (h.places (.ready queue) hq)).symm

/-- A job is claimed by a process exactly if it is at this place. -/
theorem StoreTyped.mem_processing {s : Store} (h : StoreTyped K s) {id : JobId} (p : String) :
    id ∈ s.list (K.processingQueue p) ↔ occ K s id (.processing p) ≠ 0 :=
  (occ_ne_zero (l := .processing p) trivial (h.places (.processing p) trivial)).symm

/-- A value of the kind of a place may be written to it. -/
theorem StoreTyped.put_place {s : Store} (h : StoreTyped K s) {l : Loc} (hl : l.Proper K)
    {v : Value} (hv : v.kind = l.kind) : StoreTyped K (s.put (l.key K) v) := by
  refine ⟨h.jobs.put _ fun hk => absurd hk.symm (Loc.key_ne_jobs hl),
    h.dead.put _ fun hk => absurd hk.symm (Loc.key_ne_dead hl), fun l' hl' => ?_⟩
  refine (h.places l' hl').put _ fun hk => ?_
  rw [Loc.key_injective hl' hl hk]
  exact hv

theorem StoreTyped.put_jobs {s : Store} (h : StoreTyped K s) (m : List (String × String)) :
    StoreTyped K (s.put K.jobs (.hash m)) :=
  ⟨h.jobs.put _ fun _ => rfl, h.dead.put _ fun hk => absurd hk StorageKeys.jobs_ne_dead.symm,
    fun l hl => (h.places l hl).put _ fun hk => absurd hk (Loc.key_ne_jobs hl)⟩

theorem StoreTyped.put_dead {s : Store} (h : StoreTyped K s) (m : List String) :
    StoreTyped K (s.put K.dead (.list m)) :=
  ⟨h.jobs.put _ fun hk => absurd hk StorageKeys.jobs_ne_dead, h.dead.put _ fun _ => rfl,
    fun l hl => (h.places l hl).put _ fun hk => absurd hk (Loc.key_ne_dead hl)⟩

/-- Whatever is written to a key that has nothing to do with jobs, the keys of jobs have their
types. -/
theorem StoreTyped.put_foreign {s : Store} (h : StoreTyped K s) {k : Key} (hk : Foreign K k)
    (v : Value) : StoreTyped K (s.put k v) :=
  ⟨h.jobs.put _ fun hj => absurd hj.symm hk.jobs, h.dead.put _ fun hd => absurd hd.symm hk.dead,
    fun l hl => (h.places l hl).put _ fun hp => absurd hp (hk.place l hl)⟩

/-- A command on a key that has nothing to do with jobs is a trade: everybody keeps their tokens. -/
theorem Custody.trade_foreign {α : Type} {kd : Kind} {k : Key} {f : Store → α × Store}
    (hinv : PlacementInv K U w) (hT : ∀ t ∈ T, (custody K U).owns t w ∧ Custody.Mine o t)
    (hk : Foreign K k) (hf : ∃ v, (f w.store).2 = w.store.put k v) :
    (custody K U).Trades o T T w (w.after (onKind kd k f)) := by
  simp only [World.after, onKind]
  split
  · obtain ⟨v, hv⟩ := hf
    rw [hv]
    exact Custody.trade_nothing hinv hT (hinv.typed.put_foreign hk v)
      fun id => jobView_put_foreign hk v
  · exact .refl hinv (fun t ht => (hT t ht).1) fun t ht => (hT t ht).2

/-! ## Writes to one job -/

/-- The store `s'` differs from `s` in one job, whose view is changed by `f`; the views of all
others stay. -/
structure Changes (K : StorageKeys) (s : Store) (id : JobId) (f : JobView → JobView) (s' : Store) :
    Prop where
  /-- the keys have their types -/
  typed : StoreTyped K s'
  /-- the job is changed, the others are not -/
  view : ∀ id', jobView K s' id' = if id' = id then f (jobView K s id') else jobView K s id'

namespace Changes

variable {s s' s'' : Store} {id : JobId} {f g : JobView → JobView} {l : Loc}

theorem refl (hs : StoreTyped K s) : Changes K s id (fun v => v) s :=
  ⟨hs, fun _ => (ite_self _).symm⟩

/-- Two changes of one job, one after the other, are one. -/
theorem trans (h : Changes K s id f s') (h' : Changes K s' id g s'') :
    Changes K s id (fun v => g (f v)) s'' := by
  refine ⟨h'.typed, fun id' => ?_⟩
  rw [h'.view, h.view]
  split
  · rfl
  · rfl

/-- What has become of the job that is changed. -/
theorem eq (h : Changes K s id f s') : jobView K s' id = f (jobView K s id) := by
  rw [h.view, if_pos rfl]

/-- No other job is changed. -/
theorem ne (h : Changes K s id f s') {id' : JobId} (hne : id' ≠ id) :
    jobView K s' id' = jobView K s id' := by
  rw [h.view, if_neg hne]

variable (id)

/-- Storing a payload changes one job, which is stored then. -/
theorem setField (hs : StoreTyped K s) (p : String) :
    Changes K s id (·.store p)
      (s.put K.jobs (.hash (setField id p (s.hash K.jobs)))) :=
  ⟨hs.put_jobs _, fun _ => jobView_setField id p⟩

/-- Dropping a payload changes one job, which is not stored any more. -/
theorem unsetField (hs : StoreTyped K s) :
    Changes K s id JobView.forget (s.put K.jobs (.hash (unset id (s.hash K.jobs)))) :=
  ⟨hs.put_jobs _, fun _ => jobView_unsetField id⟩

/-- An id that is pushed to a list is there once more than before. -/
theorem push (hs : StoreTyped K s) (hl : l.Proper K) (hk : l.kind = .list) :
    Changes K s id (·.join l) (s.put (l.key K) (.list (id :: s.list (l.key K)))) :=
  ⟨hs.put_place hl hk.symm, fun _ => jobView_push hl (hk ▸ hs.places l hl) id⟩

/-- An id that is erased from a list is there once less than before. -/
theorem erase (hs : StoreTyped K s) (hl : l.Proper K) (hk : l.kind = .list) :
    Changes K s id (·.leave l) (s.put (l.key K) (.list ((s.list (l.key K)).erase id))) :=
  ⟨hs.put_place hl hk.symm, fun _ => jobView_erase hl (hk ▸ hs.places l hl) id⟩

theorem dropLast {id : JobId} (hs : StoreTyped K s) (hl : l.Proper K) (hk : l.kind = .list)
    (hlast : (s.list (l.key K)).getLast? = some id) :
    Changes K s id (·.leave l) (s.put (l.key K) (.list (s.list (l.key K)).dropLast)) :=
  ⟨hs.put_place hl hk.symm, fun _ => jobView_dropLast hl (hk ▸ hs.places l hl) hlast⟩

theorem setScore (hs : StoreTyped K s) (hl : l.Proper K) (hk : l.kind = .zset) (score : Int) :
    Changes K s id (·.enter l)
      (s.put (l.key K) (.zset (setScore id score (s.zset (l.key K))))) :=
  ⟨hs.put_place hl hk.symm, fun _ => jobView_setScore hl (hk ▸ hs.places l hl) id score⟩

theorem unsetScore (hs : StoreTyped K s) (hl : l.Proper K) (hk : l.kind = .zset) :
    Changes K s id (·.exit l) (s.put (l.key K) (.zset (unset id (s.zset (l.key K))))) :=
  ⟨hs.put_place hl hk.symm, fun _ => jobView_unsetScore hl (hk ▸ hs.places l hl) id⟩

theorem filter (hs : StoreTyped K s) (hl : l.Proper K) (hk : l.kind = .list) :
    Changes K s id (·.exit l) (s.put (l.key K) (.list ((s.list (l.key K)).filter (· ≠ id)))) :=
  ⟨hs.put_place hl hk.symm, fun _ => jobView_filter hl (hk ▸ hs.places l hl) id⟩

theorem dead (hs : StoreTyped K s) (ps : List String) :
    Changes K s id (fun v => v) (s.put K.dead (.list ps)) :=
  ⟨hs.put_dead _, fun _ => by rw [jobView_put_dead, ite_self]⟩

/-- `dequeue` takes the last id of a ready list: this job leaves the list and joins the claims. -/
theorem claimed {id : JobId} (hs : StoreTyped K s) {queue : String} (hq : K.Plain queue)
    (p : String) (hlast : (s.list (K.namespaceQueue queue)).getLast? = some id) :
    Changes K s id (fun v => (v.leave (.ready queue)).join (.processing p))
      ((s.put (K.namespaceQueue queue) (.list (s.list (K.namespaceQueue queue)).dropLast)).put
        (K.processingQueue p) (.list (id :: (s.put (K.namespaceQueue queue)
          (.list (s.list (K.namespaceQueue queue)).dropLast)).list (K.processingQueue p)))) := by
  have h₁ := dropLast (l := .ready queue) hs hq rfl hlast
  have h₂ := push id (l := .processing p) h₁.typed trivial rfl
  exact h₁.trans h₂

/-- `acknowledge` changes one job: it loses its payload and one claim. -/
theorem acknowledged (hs : StoreTyped K s) (p : String) :
    Changes K s id (fun v => v.forget.leave (.processing p))
      (acknowledge K.jobs (K.processingQueue p) s id) := by
  have h₁ := unsetField id hs
  have h₂ := erase id (l := .processing p) h₁.typed trivial rfl
  have hlist : (s.put K.jobs (.hash (unset id (s.hash K.jobs)))).list (K.processingQueue p) =
      s.list (K.processingQueue p) := Store.list_put_ne _ (StorageKeys.processing_ne_fixed p).1
  have := h₁.trans h₂
  rwa [Loc.key, hlist] at this

/-- `retry_failed.lua` changes one job: its new payload is stored, it enters the retry set and loses
one claim. -/
theorem retried (hs : StoreTyped K s) (p : String) (payload : String) (score : Int) :
    Changes K s id (fun v => ((v.store payload).enter .retry).leave (.processing p))
      (((s.put K.jobs (.hash (Redis.setField id payload (s.hash K.jobs)))).put K.retry
        (.zset (Redis.setScore id score (s.zset K.retry)))).put (K.processingQueue p)
          (.list ((s.list (K.processingQueue p)).erase id))) := by
  have h₁ := setField id hs payload
  have h₂ := setScore id (l := .retry) h₁.typed trivial rfl score
  have h₃ := erase id (l := .processing p) h₂.typed trivial rfl
  have := (h₁.trans h₂).trans h₃
  have hp := StorageKeys.processing_ne_fixed (K := K) p
  simpa only [Loc.key, Store.zset_put_ne _ StorageKeys.jobs_ne_retry.symm,
    Store.list_put_ne _ hp.2.2.2, Store.list_put_ne _ hp.1] using this

/-- `finish_dead.lua` changes one job: it loses its payload and one claim; what goes to the dead
list is no place. -/
theorem buried (hs : StoreTyped K s) (p : String) (ps : List String) :
    Changes K s id (fun v => v.forget.leave (.processing p))
      ((acknowledge K.jobs (K.processingQueue p) s id).put K.dead (.list ps)) :=
  (acknowledged id hs p).trans (dead id (acknowledged id hs p).typed ps)

end Changes

/-! ## Steps on one job -/

/-- A step on one job is a trade: its tokens may change as they do, those of all other jobs stay. -/
theorem Custody.trade_one {s' : Store} {id : JobId} {f : JobView → JobView}
    (hinv : PlacementInv K U w) (hT : ∀ t ∈ T, (custody K U).owns t w ∧ Custody.Mine o t)
    (hch : Changes K w.store id f s')
    (hok : JobOk K U w.ghost.issued id (f (jobView K w.store id)))
    (hours : ∀ t : Custody, t.id = id → (custody K U).owns t w → t ∈ T)
    (hkeep : ∀ t ∈ T', t.id ≠ id → t ∈ T)
    (hnew : ∀ t ∈ T', t.id = id →
      t.Holds U w.ghost (f (jobView K w.store id)) ∧ Custody.Mine o t ∧
        (t ∉ T → ¬ (custody K U).owns t w)) :
    (custody K U).Trades o T T' w { w with store := s' } := by
  refine Custody.trade {id} rfl hinv hch.typed (fun id' hid => hch.ne hid) (fun id' hid => ?_)
    (fun t ht => hours t ht) (fun t ht => ?_) (fun t ht => ?_) (fun t ht hnot => ?_)
  · obtain rfl : id' = id := hid
    rw [hch.eq]
    exact hok
  · show t.Holds U w.ghost (jobView K s' t.id)
    by_cases hid : t.id = id
    · rw [hid, hch.eq]
      exact (hnew t ht hid).1
    · rw [hch.ne hid]
      exact (hT t (hkeep t ht hid)).1
  · by_cases hid : t.id = id
    · exact (hnew t ht hid).2.1
    · exact (hT t (hkeep t ht hid)).2
  · by_cases hid : t.id = id
    · exact (hnew t ht hid).2.2 hnot
    · exact absurd (hkeep t ht hid) hnot

/-- A job nobody owns may be moved about, as long as it is in order afterwards. -/
theorem Custody.trade_unowned {s' : Store} {id : JobId} {f : JobView → JobView}
    (hinv : PlacementInv K U w) (hT : ∀ t ∈ T, (custody K U).owns t w ∧ Custody.Mine o t)
    (hch : Changes K w.store id f s')
    (hok : JobOk K U w.ghost.issued id (f (jobView K w.store id)))
    (hnobody : ∀ t : Custody, t.id = id → ¬ (custody K U).owns t w) :
    (custody K U).Trades o T T w { w with store := s' } :=
  Custody.trade_one hinv hT hch hok (fun t hid hown => absurd hown (hnobody t hid))
    (fun _ ht _ => ht) fun t ht hid => absurd (hT t ht).1 (hnobody t hid)

/-- The tokens of jobs that a process has claimed. -/
def Custody.claims (p : String) (ids : List JobId) : Set Custody :=
  {t | ∃ id ∈ ids, t = .claim p id}

/-- A process may write to a job it has claimed, and give it up. -/
theorem Custody.trade_claimed {s' : Store} {p : String} {id : JobId} {ids ids' : List JobId}
    {f : JobView → JobView} (hinv : PlacementInv K U w)
    (hT : ∀ t ∈ Custody.claims p ids, (custody K U).owns t w ∧ Custody.Mine o t)
    (hid : id ∈ ids) (hch : Changes K w.store id f s')
    (hok : JobOk K U w.ghost.issued id (f (jobView K w.store id)))
    (hsub : ∀ id' ∈ ids', id' ∈ ids)
    (hleft : id ∈ ids' → (f (jobView K w.store id)).places (.processing p) ≠ 0) :
    (custody K U).Trades o (Custody.claims p ids) (Custody.claims p ids') w
      { w with store := s' } := by
  have hclaim := hT (.claim p id) ⟨id, hid, rfl⟩
  have hocc : occ K w.store id (.processing p) ≠ 0 := hclaim.1.2
  obtain ⟨q, hq, -⟩ := hinv.at_place hocc
  refine Custody.trade_one hinv hT hch hok ?_ ?_ ?_
  · intro t htid hown
    rw [← htid] at hq
    obtain ⟨p', hp', ht, -⟩ := Custody.of_only hq hown
    obtain rfl := Loc.processing.inj hp'
    exact ⟨t.id, htid ▸ hid, ht⟩
  · rintro t ⟨id', hid', rfl⟩ -
    exact ⟨id', hsub id' hid', rfl⟩
  · rintro t ⟨id', hid', rfl⟩ rfl
    refine ⟨⟨hclaim.1.1, hleft hid'⟩, hclaim.2, fun hnot => absurd ?_ hnot⟩
    exact ⟨id', hid, rfl⟩

end Oxana
