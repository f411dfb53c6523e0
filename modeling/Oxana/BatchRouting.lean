import Mathlib.Algebra.BigOperators.Group.List.Basic
import Mathlib.Data.List.Nodup
import Oxana.Batcher

/-!
# Routing jobs to batchers

A coordinator keeps one batcher for each worker and queue it has seen, and starts a new one when it
has none or when the one it has no longer accepts jobs. Here the coordinator and all the batchers
it has started take their steps in any order, and the runtime may be cancelled between any two.

`batches_partition` says that no job is lost or duplicated on the way: for each key the jobs routed
are, in order, those its batchers received, those in their channels and the one that is being sent.
-/

namespace Oxana

open Interleave (Channel)

/-! ## The coordinator and its batchers -/

/-- Where `send_to_batcher` stands with the job that it is sending. -/
inductive Sending where
  /-- between two calls -/
  | done
  /-- at the head of the loop -/
  | entry (job : PendingJob) (config : WorkerBatchConfig)
  /-- `tx.send`, waiting for a place in the channel of a batcher -/
  | waiting (job : PendingJob) (config : WorkerBatchConfig) (id : ℕ)
  /-- `tx.send`, with a place in the channel -/
  | placed (job : PendingJob) (id : ℕ)

/-- The job that is being sent, if there is one. -/
def Sending.job? : Sending → Option PendingJob
  | .done => none
  | .entry job _ | .waiting job _ _ | .placed job _ => some job

/-- The batcher whose sender the coordinator has a clone of. -/
def Sending.target : Sending → Option ℕ
  | .done | .entry _ _ => none
  | .waiting _ _ id | .placed _ id => some id

/-- The batcher in whose channel the coordinator has a place. -/
def Sending.place : Sending → Option ℕ
  | .placed _ id => some id
  | _ => none

/-- The coordinator of a process together with the batchers it has started, which run beside it. -/
structure Routing where
  /-- the runtime is cancelled -/
  cancelled : Bool
  /-- the coordinator has left its loop -/
  ended : Bool
  /-- the senders it keeps, by the number of the batcher -/
  batchers : List (BatchKey × ℕ)
  /-- the batchers in the order they were started, each with its key -/
  tasks : List (BatchKey × Batcher)
  /-- the call of `send_to_batcher` -/
  sending : Sending
  /-- every job `send_to_batcher` was called with, in order -/
  routed : List PendingJob

/-- The steps of the coordinator, of its batchers and of the surroundings, which can be taken in any
order. -/
inductive RoutingAct where
  /-- `route_job` calls `send_to_batcher` -/
  | route (job : PendingJob)
  /-- `batchers.entry(key).or_insert_with(..)` -/
  | entry
  /-- `tx.send` gets a place -/
  | reserve
  /-- `tx.send` puts the job in its place -/
  | put
  /-- `tx.send` finds the channel closed -/
  | refused
  /-- the coordinator leaves its loop and drops its senders -/
  | leave
  /-- the runtime is cancelled -/
  | cancel
  /-- a batcher takes a step -/
  | wake (id : ℕ) (w : Wakeup)

namespace Routing

/-- A coordinator that starts, without batchers. -/
def start : Routing := ⟨false, false, [], [], .done, []⟩

variable (s : Routing)

/-- Whether somebody can still send to the batcher. -/
def hasSender (id : ℕ) : Bool :=
  s.batchers.any (fun e => e.2 == id) || s.sending.target == some id

/-- The batcher under a number is changed, and its entry in the map is kept. -/
def update (id : ℕ) (key : BatchKey) (b : Batcher) : Routing :=
  { s with tasks := s.tasks.set id (key, b) }

variable (registry : String → Option WorkerBatchConfig)

/-- One step; `registry` is `WorkerRegistry::batch_config`. -/
def step : RoutingAct → Option Routing
  | .route job =>
    match s.sending, registry job.envelope.job.name with
    | .done, some config =>
      if s.ended then none
      else some { s with sending := .entry job config, routed := s.routed ++ [job] }
    | _, _ => none
  | .entry =>
    match s.sending with
    | .entry job config =>
      match s.batchers.lookup job.key with
      | some id => some { s with sending := .waiting job config id }
      | none => some { s with
          batchers := (job.key, s.tasks.length) :: s.batchers
          tasks := s.tasks ++ [(job.key, .new config)]
          sending := .waiting job config s.tasks.length }
    | _ => none
  | .reserve =>
    match s.sending with
    | .waiting job _ id => do
      let (key, b) ← s.tasks[id]?
      let rx ← b.rx.reserve
      some { s.update id key { b with rx } with sending := .placed job id }
    | _ => none
  | .put =>
    match s.sending with
    | .placed job id => do
      let (key, b) ← s.tasks[id]?
      some { s.update id key { b with rx := b.rx.put job } with sending := .done }
    | _ => none
  | .refused =>
    match s.sending with
    | .waiting job config id => do
      let (_, b) ← s.tasks[id]?
      if b.rx.closed then
        some { s with
          batchers := s.batchers.filter fun e => e.1 ≠ job.key
          sending := .entry job config }
      else none
    | _ => none
  | .leave =>
    match s.sending with
    | .done => some { s with batchers := [], ended := true }
    | _ => none
  | .cancel => some { s with cancelled := true }
  | .wake id w => do
    let (key, b) ← s.tasks[id]?
    let b' ← b.step s.cancelled (s.hasSender id) w
    some (s.update id key b')

/-- Takes steps one after another, as long as each is possible. -/
def run (acts : List RoutingAct) : Option Routing :=
  acts.foldlM (fun s act => s.step registry act) s

/-! ## What is delivered for a key -/

/-- The jobs delivered to the batchers of a key, in order. -/
def deliveredFor (k : BatchKey) (tasks : List (BatchKey × Batcher)) : List PendingJob :=
  tasks.flatMap fun t => if t.1 = k then t.2.delivered else []

/-- What is delivered for a key is not delivered to batchers with other keys. -/
theorem deliveredFor_none {k : BatchKey} {tasks : List (BatchKey × Batcher)}
    (h : ∀ t ∈ tasks, t.1 ≠ k) : deliveredFor k tasks = [] :=
  List.flatMap_eq_nil_iff.mpr fun t ht => if_neg (h t ht)

theorem deliveredFor_concat (k : BatchKey) (tasks : List (BatchKey × Batcher))
    (t : BatchKey × Batcher) :
    deliveredFor k (tasks ++ [t]) =
      deliveredFor k tasks ++ if t.1 = k then t.2.delivered else [] := by
  rw [deliveredFor, List.flatMap_append, List.flatMap_singleton]
  rfl

/-- If `more` has been delivered to the last batcher with its key, this is what has been delivered
for the key since. -/
theorem deliveredFor_set {tasks : List (BatchKey × Batcher)} {id : ℕ} {key : BatchKey}
    {b b' : Batcher} {more : List PendingJob} (ht : tasks[id]? = some (key, b))
    (hb : b'.delivered = b.delivered ++ more)
    (hlast : more = [] ∨ ∀ j t, id < j → tasks[j]? = some t → t.1 ≠ key) (k : BatchKey) :
    deliveredFor k (tasks.set id (key, b')) =
      deliveredFor k tasks ++ if key = k then more else [] := by
  induction tasks generalizing id with
  | nil => cases ht
  | cons t tasks ih =>
    cases id with
    | zero =>
      rw [List.getElem?_cons_zero] at ht
      cases ht
      have hrest : key = k → more = [] ∨ deliveredFor k tasks = [] := by
        rintro rfl
        refine hlast.imp_right fun h => deliveredFor_none fun t ht => ?_
        obtain ⟨j, hj⟩ := List.mem_iff_getElem?.mp ht
        exact h (j + 1) t (Nat.succ_pos j) hj
      show (if key = k then b'.delivered else []) ++ deliveredFor k tasks =
        ((if key = k then b.delivered else []) ++ deliveredFor k tasks) ++ _
      split
      next hk =>
        rw [hb]
        rcases hrest hk with h | h
        · rw [h, List.append_nil, List.append_nil]
        · rw [h, List.append_nil, List.append_nil]
      next => rw [List.append_nil]
    | succ id =>
      rw [List.getElem?_cons_succ] at ht
      have := ih ht (hlast.imp_right fun h j t' hj => h (j + 1) t' (Nat.succ_lt_succ hj))
      show (if t.1 = k then t.2.delivered else []) ++ deliveredFor k (tasks.set id (key, b')) =
        ((if t.1 = k then t.2.delivered else []) ++ deliveredFor k tasks) ++ _
      rw [this, List.append_assoc]

/-- If nothing more was delivered to a batcher, nothing more was delivered for any key. -/
theorem deliveredFor_same {tasks : List (BatchKey × Batcher)} {id : ℕ} {key : BatchKey}
    {b b' : Batcher} (ht : tasks[id]? = some (key, b)) (hb : b'.delivered = b.delivered)
    (k : BatchKey) : deliveredFor k (tasks.set id (key, b')) = deliveredFor k tasks := by
  have h := deliveredFor_set ht (hb.trans (List.append_nil _).symm) (.inl rfl) k
  rw [ite_self, List.append_nil] at h
  exact h

/-! ## The invariant -/

variable {registry} {s : Routing}

/-- What holds between any two steps of a coordinator and its batchers. -/
structure Sound (s : Routing) : Prop where
  /-- every batcher has spawned what it received -/
  batcher : ∀ t ∈ s.tasks, t.2.Sound
  /-- the sender kept for a key is the one of the last batcher started for it -/
  current : ∀ e ∈ s.batchers, (∃ b, s.tasks[e.2]? = some (e.1, b)) ∧
    ∀ (j : ℕ) (t : BatchKey × Batcher), e.2 < j → s.tasks[j]? = some t → t.1 ≠ e.1
  /-- a job is sent to the batcher of its key -/
  target : ∀ id, s.sending.target = some id → ∃ job, s.sending.job? = some job ∧
    (job.key, id) ∈ s.batchers
  /-- the jobs of a key are where they belong, in order -/
  delivered : ∀ k, s.routed.filter (fun job => job.key = k) =
    deliveredFor k s.tasks ++ (s.sending.job?.toList).filter fun job => job.key = k
  /-- no place in a channel is forgotten -/
  promised : ∀ (id : ℕ) (t : BatchKey × Batcher), s.tasks[id]? = some t →
    t.2.rx.promised = if s.sending.place = some id then 1 else 0
  /-- a batcher returns only when nothing will come any more -/
  returned : ∀ (id : ℕ) (t : BatchKey × Batcher), s.tasks[id]? = some t → t.2.stage = .returned →
    t.2.rx.Finished (s.hasSender id)

/-- The invariant holds at the start, when nothing has been routed. -/
theorem sound_start : start.Sound where
  batcher := by
    intro t h
    cases h
  current := by
    intro e h
    cases h
  target := by
    intro id h
    cases h
  delivered := fun _ => rfl
  promised := by
    intro id t h
    cases h
  returned := by
    intro id t h
    cases h

/-! ## What one step preserves -/

/-- One batcher changes, and all others are as they were. -/
theorem getElem?_update {id : ℕ} {key : BatchKey} {b : Batcher}
    (ht : s.tasks[id]? = some (key, b)) (b' : Batcher) (j : ℕ) :
    (s.update id key b').tasks[j]? = if id = j then some (key, b') else s.tasks[j]? := by
  obtain ⟨hlt, -⟩ := List.getElem?_eq_some_iff.mp ht
  show (s.tasks.set id (key, b'))[j]? = _
  rw [List.getElem?_set, if_pos hlt]

/-- The batcher a sender is kept for can be sent to. -/
theorem hasSender_of_mem {e : BatchKey × ℕ} (h : e ∈ s.batchers) : s.hasSender e.2 = true := by
  rw [hasSender, Bool.or_eq_true, List.any_eq_true]
  exact .inl ⟨e, h, beq_self_eq_true e.2⟩

/-- When senders are dropped and none is cloned, no batcher gets one that had none. -/
theorem hasSender_mono {s' : Routing} {id : ℕ} (h : s'.hasSender id = true)
    (hb : s'.batchers ⊆ s.batchers)
    (ht : ∀ id, s'.sending.target = some id → s.hasSender id = true) :
    s.hasSender id = true := by
  rw [hasSender, Bool.or_eq_true, List.any_eq_true] at h
  rcases h with ⟨e, he, hid⟩ | hid
  · rw [← eq_of_beq hid]
    exact hasSender_of_mem (hb he)
  · exact ht id (eq_of_beq hid)

/-- The batcher that is being sent to has a sender in the table. -/
theorem Sound.hasSender_target (h : s.Sound) {id : ℕ} (ht : s.sending.target = some id) :
    s.hasSender id = true := by
  obtain ⟨job, -, hmem⟩ := h.target id ht
  exact hasSender_of_mem hmem

/-- While the batcher is being sent to, it is the last one of the key of the job. -/
theorem Sound.target_last (h : s.Sound) {id : ℕ} (ht : s.sending.target = some id)
    {key : BatchKey} {b : Batcher} (hb : s.tasks[id]? = some (key, b)) :
    ∃ job, s.sending.job? = some job ∧ job.key = key ∧
      ∀ (j : ℕ) (t : BatchKey × Batcher), id < j → s.tasks[j]? = some t → t.1 ≠ key := by
  obtain ⟨job, hjob, hmem⟩ := h.target id ht
  obtain ⟨⟨b', hb'⟩, hlast⟩ := h.current _ hmem
  cases hb.symm.trans hb'
  exact ⟨job, hjob, rfl, hlast⟩

/-- A batcher changes and keeps its tally; all others keep theirs. -/
theorem Sound.update_batcher (h : s.Sound) {id : ℕ} {key : BatchKey} {b : Batcher}
    (hb : b.Sound) : ∀ t ∈ (s.update id key b).tasks, t.2.Sound := by
  intro t ht
  rcases List.mem_or_eq_of_mem_set ht with ht | rfl
  · exact h.batcher t ht
  · exact hb

/-- The keys of the batchers do not change when one of them does. -/
theorem Sound.update_current (h : s.Sound) {id : ℕ} {key : BatchKey} {b : Batcher}
    (ht : s.tasks[id]? = some (key, b)) (b' : Batcher) :
    ∀ e ∈ s.batchers, (∃ b, (s.update id key b').tasks[e.2]? = some (e.1, b)) ∧
      ∀ (j : ℕ) (t : BatchKey × Batcher), e.2 < j →
        (s.update id key b').tasks[j]? = some t → t.1 ≠ e.1 := by
  intro e he
  obtain ⟨⟨b₀, hb₀⟩, hlast⟩ := h.current e he
  constructor
  · rw [getElem?_update ht]
    split
    next hid =>
      rw [hid, hb₀] at ht
      cases ht
      exact ⟨b', rfl⟩
    next => exact ⟨b₀, hb₀⟩
  · intro j t hj hjt
    rw [getElem?_update ht] at hjt
    split at hjt
    next hid =>
      cases hjt
      subst hid
      exact hlast id (key, b) hj ht
    next => exact hlast j t hj hjt

/-- A call of `send_to_batcher` starts, and the invariant is kept. -/
theorem Sound.route (h : s.Sound) (hs : s.sending = .done) (job : PendingJob)
    (config : WorkerBatchConfig) :
    ({ s with sending := .entry job config, routed := s.routed ++ [job] } : Routing).Sound where
  batcher := h.batcher
  current := h.current
  target := by
    intro id hid
    cases hid
  delivered := by
    intro k
    have hk := h.delivered k
    rw [hs] at hk
    show (s.routed ++ [job]).filter (fun job => job.key = k) = deliveredFor k s.tasks ++ _
    rw [List.filter_append, hk, Sending.job?, Option.toList_none, List.filter_nil,
      List.append_nil]
    rfl
  promised := by
    intro id t ht
    rw [h.promised id t ht, hs]
    rfl
  returned := by
    intro id t ht hr
    refine (h.returned id t ht hr).mono fun hsend => ?_
    exact hasSender_mono hsend (List.Subset.refl _) fun _ hid => by cases hid

/-- The key of the job has a batcher, whose sender is cloned, and the invariant is kept. -/
theorem Sound.entry_old (h : s.Sound) {job : PendingJob} {config : WorkerBatchConfig} {id : ℕ}
    (hs : s.sending = .entry job config) (hid : s.batchers.lookup job.key = some id) :
    ({ s with sending := .waiting job config id } : Routing).Sound := by
  have hmem : (job.key, id) ∈ s.batchers := by
    obtain ⟨l₁, l₂, hl, -⟩ := List.lookup_eq_some_iff.mp hid
    rw [hl]
    exact List.mem_append_right _ List.mem_cons_self
  refine ⟨h.batcher, h.current, ?_, ?_, ?_, ?_⟩
  · intro id' hid'
    cases hid'
    exact ⟨job, rfl, hmem⟩
  · intro k
    have hk := h.delivered k
    rw [hs] at hk
    exact hk
  · intro id' t ht
    rw [h.promised id' t ht, hs]
    rfl
  · intro id' t ht hr
    refine (h.returned id' t ht hr).mono fun hsend => ?_
    refine hasSender_mono hsend (List.Subset.refl _) ?_
    intro id'' hid''
    cases hid''
    exact hasSender_of_mem hmem

/-- The key of the job has no batcher, one is started, and the invariant is kept. -/
theorem Sound.entry_new (h : s.Sound) {job : PendingJob} {config : WorkerBatchConfig}
    (hs : s.sending = .entry job config) (hnone : s.batchers.lookup job.key = none) :
    ({ s with
        batchers := (job.key, s.tasks.length) :: s.batchers
        tasks := s.tasks ++ [(job.key, .new config)]
        sending := .waiting job config s.tasks.length } : Routing).Sound := by
  -- a task of the longer list is an old one or the new one
  have htasks {j : ℕ} {t : BatchKey × Batcher}
      (ht : (s.tasks ++ [(job.key, Batcher.new config)])[j]? = some t) :
      s.tasks[j]? = some t ∨ j = s.tasks.length ∧ t = (job.key, Batcher.new config) := by
    by_cases hj : j < s.tasks.length
    · rw [List.getElem?_append_left hj] at ht
      exact .inl ht
    · rw [List.getElem?_append_right (Nat.le_of_not_lt hj), List.getElem?_singleton] at ht
      split at ht
      next h0 => exact .inr ⟨by omega, (Option.some.inj ht).symm⟩
      next => cases ht
  have hlt {j : ℕ} {t : BatchKey × Batcher} (ht : s.tasks[j]? = some t) : j < s.tasks.length :=
    (List.getElem?_eq_some_iff.mp ht).1
  refine ⟨?_, ?_, ?_, ?_, ?_, ?_⟩
  · intro t ht
    rcases List.mem_append.mp ht with ht | ht
    · exact h.batcher t ht
    · rw [List.mem_singleton.mp ht]
      exact Batcher.sound_new config
  · intro e he
    rcases List.mem_cons.mp he with rfl | he
    · refine ⟨⟨.new config, List.getElem?_concat_length⟩, fun j t hj ht => ?_⟩
      rcases htasks ht with ht | ⟨rfl, -⟩
      · exact absurd (hlt ht) (Nat.lt_asymm hj)
      · exact absurd hj (Nat.lt_irrefl _)
    · obtain ⟨⟨b, hb⟩, hlast⟩ := h.current e he
      refine ⟨⟨b, ?_⟩, fun j t hj ht => ?_⟩
      · rw [← hb]
        exact List.getElem?_append_left (hlt hb)
      · rcases htasks ht with ht | ⟨-, rfl⟩
        · exact hlast j t hj ht
        · have := List.lookup_eq_none_iff.mp hnone e he
          rw [bne_iff_ne] at this
          exact this
  · intro id hid
    cases hid
    exact ⟨job, rfl, List.mem_cons_self⟩
  · intro k
    have hk := h.delivered k
    rw [hs] at hk
    rw [deliveredFor_concat]
    have hnew : (if job.key = k then (Batcher.new config).delivered else []) = [] := by
      split <;> rfl
    rw [hnew, List.append_nil]
    exact hk
  · intro j t ht
    rcases htasks ht with ht | ⟨-, rfl⟩
    · rw [h.promised j t ht, hs]
      rfl
    · rfl
  · intro j t ht hr
    rcases htasks ht with ht | ⟨-, rfl⟩
    · refine (h.returned j t ht hr).mono fun hsend => ?_
      have hj := hlt ht
      rw [hasSender, Bool.or_eq_true, List.any_cons, Bool.or_eq_true, List.any_eq_true] at hsend
      rcases hsend with (hid | ⟨e, he, hid⟩) | hid
      · exact absurd (eq_of_beq hid) (Nat.ne_of_gt hj)
      · rw [← eq_of_beq hid]
        exact hasSender_of_mem he
      · exact absurd (Option.some.inj (eq_of_beq hid)) (Nat.ne_of_gt hj)
    · cases hr

/-- The sender is given a place in the channel, and the invariant is kept. -/
theorem Sound.reserve (h : s.Sound) {job : PendingJob} {config : WorkerBatchConfig} {id : ℕ}
    (hs : s.sending = .waiting job config id) {key : BatchKey} {b : Batcher}
    (hb : s.tasks[id]? = some (key, b)) {rx : Channel PendingJob} (hrx : b.rx.reserve = some rx) :
    ({ s.update id key { b with rx } with sending := .placed job id } : Routing).Sound := by
  obtain ⟨hopen, -, rfl⟩ := Channel.reserve_eq_some.mp hrx
  have htarget : s.sending.target = some id := by rw [hs]; rfl
  refine ⟨h.update_batcher ((h.batcher _ (List.mem_of_getElem? hb)).withRx rfl rfl),
    h.update_current hb _, ?_, ?_, ?_, ?_⟩
  · intro id' hid'
    cases hid'
    have := h.target id htarget
    rw [hs] at this
    exact this
  · intro k
    have hk := h.delivered k
    rw [hs] at hk
    refine hk.trans (congrArg (· ++ _) ?_)
    exact (deliveredFor_same hb (by rfl) k).symm
  · intro j t ht
    rw [getElem?_update hb] at ht
    split at ht
    next hj =>
      cases ht
      have := h.promised id _ hb
      rw [hs] at this
      subst hj
      show b.rx.promised + 1 = if some id = some id then 1 else 0
      rw [this, if_pos rfl]
      rfl
    next hj =>
      rw [h.promised j t ht, hs]
      exact (if_neg fun heq => hj (Option.some.inj heq)).symm
  · intro j t ht hr
    rw [getElem?_update hb] at ht
    split at ht
    next hj =>
      cases ht
      rcases (h.returned id _ hb hr).shut with ⟨hc, -⟩ | hno
      · rw [hopen] at hc
        cases hc
      · rw [h.hasSender_target htarget] at hno
        cases hno
    next hj =>
      refine (h.returned j t ht hr).mono fun hsend => ?_
      refine hasSender_mono hsend (List.Subset.refl _) ?_
      intro id' hid'
      cases hid'
      exact h.hasSender_target htarget

/-- The job is put into the channel, and the invariant is kept: it has been delivered to the batcher
of its key. -/
theorem Sound.put (h : s.Sound) {job : PendingJob} {id : ℕ} (hs : s.sending = .placed job id)
    {key : BatchKey} {b : Batcher} (hb : s.tasks[id]? = some (key, b)) :
    ({ s.update id key { b with rx := b.rx.put job } with sending := .done } : Routing).Sound := by
  have htarget : s.sending.target = some id := by rw [hs]; rfl
  have hplace : b.rx.promised = 1 := by
    rw [h.promised id _ hb, hs]
    exact if_pos rfl
  obtain ⟨job', hjob', hkey, hlast⟩ := h.target_last htarget hb
  rw [hs] at hjob'
  cases hjob'
  refine ⟨h.update_batcher ((h.batcher _ (List.mem_of_getElem? hb)).withRx rfl rfl),
    h.update_current hb _, nofun, ?_, ?_, ?_⟩
  · intro k
    have hk := h.delivered k
    rw [hs] at hk
    show s.routed.filter _ = deliveredFor k (s.tasks.set id _) ++ []
    rw [hk, deliveredFor_set hb (List.append_assoc _ _ _).symm (.inr hlast) k, List.append_nil]
    congr 1
    show [job].filter _ = _
    by_cases hk' : key = k <;> simp [hkey, hk']
  · intro j t ht
    rw [getElem?_update hb] at ht
    split at ht
    next hj =>
      cases ht
      show b.rx.promised - 1 = 0
      rw [hplace]
    next hj =>
      rw [h.promised j t ht, hs]
      exact if_neg fun heq => hj (Option.some.inj heq)
  · intro j t ht hr
    rw [getElem?_update hb] at ht
    split at ht
    next hj =>
      cases ht
      rcases (h.returned id _ hb hr).shut with ⟨-, h0⟩ | hno
      · rw [hplace] at h0
        cases h0
      · rw [h.hasSender_target htarget] at hno
        cases hno
    next hj =>
      refine (h.returned j t ht hr).mono fun hsend => ?_
      exact hasSender_mono hsend (List.Subset.refl _) fun _ hid => by cases hid

/-- The channel was closed and the sender kept for the key is dropped, and the invariant is kept. -/
theorem Sound.refused (h : s.Sound) {job : PendingJob} {config : WorkerBatchConfig} {id : ℕ}
    (hs : s.sending = .waiting job config id) :
    ({ s with
        batchers := s.batchers.filter fun e => e.1 ≠ job.key
        sending := .entry job config } : Routing).Sound := by
  have hsub : (s.batchers.filter fun e => e.1 ≠ job.key) ⊆ s.batchers := List.filter_subset_self _
  refine ⟨h.batcher, fun e he => h.current e (hsub he), nofun, ?_, ?_, ?_⟩
  · intro k
    have hk := h.delivered k
    rw [hs] at hk
    exact hk
  · intro j t ht
    rw [h.promised j t ht, hs]
    rfl
  · intro j t ht hr
    refine (h.returned j t ht hr).mono fun hsend => ?_
    exact hasSender_mono hsend hsub fun _ hid => by cases hid

/-- The coordinator leaves and the senders are dropped, and the invariant is kept. -/
theorem Sound.leave (h : s.Sound) (hs : s.sending = .done) :
    ({ s with batchers := [], ended := true } : Routing).Sound := by
  have htarget {id : ℕ} (hid : s.sending.target = some id) : False := by
    rw [hs] at hid
    cases hid
  refine ⟨h.batcher, nofun, fun id hid => (htarget hid).elim, h.delivered, h.promised, ?_⟩
  intro j t ht hr
  refine (h.returned j t ht hr).mono fun hsend => ?_
  exact hasSender_mono hsend (List.nil_subset _) fun _ hid => (htarget hid).elim

/-- A batcher takes a step, and the invariant is kept. -/
theorem Sound.wake (h : s.Sound) {id : ℕ} {w : Wakeup} {key : BatchKey} {b b' : Batcher}
    (hb : s.tasks[id]? = some (key, b))
    (hstep : b.step s.cancelled (s.hasSender id) w = some b') : (s.update id key b').Sound := by
  have hsound := h.batcher _ (List.mem_of_getElem? hb)
  refine ⟨h.update_batcher (hsound.step hstep), h.update_current hb b', h.target, ?_, ?_, ?_⟩
  · intro k
    rw [show (s.update id key b').routed = s.routed from rfl, h.delivered k]
    refine congrArg (· ++ _) ?_
    exact (deliveredFor_same hb (Batcher.step_delivered hstep) k).symm
  · intro j t ht
    rw [getElem?_update hb] at ht
    split at ht
    next hj =>
      cases ht
      rw [Batcher.step_promised hstep, h.promised id _ hb, ← hj]
      rfl
    next => exact h.promised j t ht
  · intro j t ht hr
    rw [getElem?_update hb] at ht
    split at ht
    next hj =>
      cases ht
      subst hj
      obtain ⟨hfin, hrx⟩ := Batcher.step_returned hstep hr
      rw [hrx]
      exact ⟨hfin.empty, hfin.shut.imp_left fun hc => ⟨rfl, hc.2⟩⟩
    next => exact h.returned j t ht hr

/-- Every step of the coordinator, of a batcher or of the surroundings keeps the invariant. -/
theorem Sound.step (h : s.Sound) {act : RoutingAct} {s' : Routing}
    (hstep : s.step registry act = some s') : s'.Sound := by
  cases act with
  | route job =>
    simp only [Routing.step] at hstep
    split at hstep
    next config hs _ =>
      split at hstep
      next => cases hstep
      next =>
        cases hstep
        exact h.route hs job config
    next => cases hstep
  | entry =>
    simp only [Routing.step] at hstep
    split at hstep
    next job config hs =>
      split at hstep
      next id hid =>
        cases hstep
        exact h.entry_old hs hid
      next hnone =>
        cases hstep
        exact h.entry_new hs hnone
    next => cases hstep
  | reserve =>
    simp only [Routing.step] at hstep
    split at hstep
    next job config id hs =>
      obtain ⟨⟨key, b⟩, hb, hstep⟩ := Option.bind_eq_some_iff.mp hstep
      obtain ⟨rx, hrx, hstep⟩ := Option.bind_eq_some_iff.mp hstep
      cases hstep
      exact h.reserve hs hb hrx
    next => cases hstep
  | put =>
    simp only [Routing.step] at hstep
    split at hstep
    next job id hs =>
      obtain ⟨⟨key, b⟩, hb, hstep⟩ := Option.bind_eq_some_iff.mp hstep
      cases hstep
      exact h.put hs hb
    next => cases hstep
  | refused =>
    simp only [Routing.step] at hstep
    split at hstep
    next job config id hs =>
      obtain ⟨⟨key, b⟩, hb, hstep⟩ := Option.bind_eq_some_iff.mp hstep
      simp only at hstep
      split at hstep
      next =>
        cases hstep
        exact h.refused hs
      next => cases hstep
    next => cases hstep
  | leave =>
    simp only [Routing.step] at hstep
    split at hstep
    next hs =>
      cases hstep
      exact h.leave hs
    next => cases hstep
  | cancel =>
    cases hstep
    exact ⟨h.batcher, h.current, h.target, h.delivered, h.promised, h.returned⟩
  | wake id w =>
    simp only [Routing.step] at hstep
    obtain ⟨⟨key, b⟩, hb, hstep⟩ := Option.bind_eq_some_iff.mp hstep
    obtain ⟨b', hb', hstep⟩ := Option.bind_eq_some_iff.mp hstep
    cases hstep
    exact h.wake hb hb'

/-- A whole run keeps the invariant, by induction on its steps. -/
theorem Sound.run (h : s.Sound) {acts : List RoutingAct} {s' : Routing}
    (hrun : s.run registry acts = some s') : s'.Sound := by
  induction acts generalizing s with
  | nil =>
    cases hrun
    exact h
  | cons act acts ih =>
    obtain ⟨s₁, hstep, hrun⟩ := Option.bind_eq_some_iff.mp hrun
    exact ih (h.step hstep) hrun

/-! ## Nothing waits forever -/

/-- Some steps lead from one state to another, and the coordinator is not called with another job
meanwhile. -/
def Leads (registry : String → Option WorkerBatchConfig) (s s' : Routing) : Prop :=
  ∃ acts, s.run registry acts = some s' ∧ s'.routed = s.routed

theorem Leads.refl (s : Routing) : Leads registry s s := ⟨[], rfl, rfl⟩

theorem Leads.trans {s₁ s₂ s₃ : Routing} (h : Leads registry s₁ s₂) (h' : Leads registry s₂ s₃) :
    Leads registry s₁ s₃ := by
  obtain ⟨acts, hrun, hr⟩ := h
  obtain ⟨acts', hrun', hr'⟩ := h'
  refine ⟨acts ++ acts', ?_, hr'.trans hr⟩
  rw [Routing.run, List.foldlM_append]
  exact Option.bind_eq_some_iff.mpr ⟨s₂, hrun, hrun'⟩

theorem Leads.of_step {act : RoutingAct} {s s' : Routing} (h : s.step registry act = some s')
    (hr : s'.routed = s.routed) : Leads registry s s' :=
  ⟨[act], Option.bind_eq_some_iff.mpr ⟨s', h, rfl⟩, hr⟩

theorem Sound.leads (h : s.Sound) {s' : Routing} (hl : Leads registry s s') : s'.Sound :=
  hl.elim fun _ hrun => h.run hrun.1

theorem update_self {id : ℕ} {key : BatchKey} {b : Batcher}
    (hb : s.tasks[id]? = some (key, b)) : s.update id key b = s := by
  have htasks : s.tasks.set id (key, b) = s.tasks := by
    refine List.ext_getElem? fun j => ?_
    rw [show (s.tasks.set id (key, b))[j]? = _ from getElem?_update hb b j]
    split
    next hj => rw [← hj, hb]
    next => rfl
  rw [update, htasks]

theorem update_update (id : ℕ) (key : BatchKey) (b b' : Batcher) :
    (s.update id key b).update id key b' = s.update id key b' := by
  simp only [update, List.set_set]

variable (registry) in
/-- A batcher into whose channel nothing is being put can be brought to spawn all it has, in
finitely many steps of its own. -/
theorem Sound.drains (h : s.Sound) {id : ℕ} {key : BatchKey} {b : Batcher}
    (hb : s.tasks[id]? = some (key, b)) (hplace : s.sending.place ≠ some id) :
    ∃ b', Leads registry s (s.update id key b') ∧ b'.Drained := by
  -- each step brings it nearer to that
  induction hn : b.rank using Nat.strong_induction_on generalizing s b with
  | h n ih =>
    by_cases hd : b.Drained
    · refine ⟨b, ?_, hd⟩
      rw [update_self hb]
      exact Leads.refl s
    · have hpromised := h.promised id _ hb
      rw [if_neg hplace] at hpromised
      obtain ⟨w, b₁, hstep, hlt⟩ := (h.batcher _ (List.mem_of_getElem? hb)).nearer s.cancelled
        (s.hasSender id) hpromised (fun hr => (h.returned id _ hb hr).empty) hd
      have hb₁ : (s.update id key b₁).tasks[id]? = some (key, b₁) := by
        rw [getElem?_update hb, if_pos rfl]
      obtain ⟨b', hleads, hdrained⟩ := ih b₁.rank (hn ▸ hlt) (h.wake hb hstep) hb₁ hplace rfl
      rw [update_update] at hleads
      have hwake : s.step registry (.wake id w) = some (s.update id key b₁) := by
        simp only [Routing.step, hb, hstep, Option.bind_eq_bind, Option.bind_some]
      exact ⟨b', (Leads.of_step hwake rfl).trans hleads, hdrained⟩

/-- A job that has its place is put there, and the call returns. -/
theorem Sound.puts (h : s.Sound) {job : PendingJob} {id : ℕ} (hs : s.sending = .placed job id) :
    ∃ s', Leads registry s s' ∧ s'.sending = .done := by
  obtain ⟨job', -, hmem⟩ := h.target id (by rw [hs]; rfl)
  obtain ⟨⟨b, hb⟩, -⟩ := h.current _ hmem
  have hput : s.step registry .put = some { s.update id job'.key { b with rx := b.rx.put job } with
      sending := .done } := by
    simp only [Routing.step, hs, hb, Option.bind_eq_bind, Option.bind_some]
  exact ⟨_, Leads.of_step hput rfl, rfl⟩

/-- A place in a channel that is open and empty can be had, and the call returns. -/
theorem Sound.sends (h : s.Sound) {job : PendingJob} {config : WorkerBatchConfig} {id : ℕ}
    (hs : s.sending = .waiting job config id) {key : BatchKey} {b : Batcher}
    (hb : s.tasks[id]? = some (key, b)) (hopen : b.rx.closed = false) (hempty : b.rx.queue = []) :
    ∃ s', Leads registry s s' ∧ s'.sending = .done := by
  have hpromised : b.rx.promised = 0 := by
    rw [h.promised id _ hb, hs]
    rfl
  have hroom : b.rx.queue.length + b.rx.promised < b.rx.capacity := by
    rw [hempty, hpromised]
    exact (h.batcher _ (List.mem_of_getElem? hb)).room
  obtain ⟨rx, hrx⟩ : ∃ rx, b.rx.reserve = some rx :=
    ⟨_, Channel.reserve_eq_some.mpr ⟨hopen, hroom, rfl⟩⟩
  have hreserve : s.step registry .reserve =
      some { s.update id key { b with rx } with sending := .placed job id } := by
    simp only [Routing.step, hs, hb, hrx, Option.bind_eq_bind, Option.bind_some]
  obtain ⟨s', hleads, hdone⟩ := (h.reserve hs hb hrx).puts rfl
  exact ⟨s', (Leads.of_step hreserve rfl).trans hleads, hdone⟩

variable (registry) in
/-- If the key has no batcher one is started, whose channel is empty, and the call returns. -/
theorem Sound.starts (h : s.Sound) {job : PendingJob} {config : WorkerBatchConfig}
    (hs : s.sending = .entry job config) (hnone : s.batchers.lookup job.key = none) :
    ∃ s', Leads registry s s' ∧ s'.sending = .done := by
  have hentry : s.step registry .entry = some { s with
      batchers := (job.key, s.tasks.length) :: s.batchers
      tasks := s.tasks ++ [(job.key, .new config)]
      sending := .waiting job config s.tasks.length } := by
    simp only [Routing.step, hs, hnone]
  obtain ⟨s', hleads, hdone⟩ :=
    (h.entry_new hs hnone).sends rfl (List.getElem?_concat_length) rfl rfl
  exact ⟨s', (Leads.of_step hentry rfl).trans hleads, hdone⟩

/-- The channel of the batcher may be full, or closed; either way some steps lead to the return of
the call. -/
theorem Sound.waits (h : s.Sound) {job : PendingJob} {config : WorkerBatchConfig} {id : ℕ}
    (hs : s.sending = .waiting job config id) : ∃ s', Leads registry s s' ∧ s'.sending = .done := by
  obtain ⟨job', -, hmem⟩ := h.target id (by rw [hs]; rfl)
  obtain ⟨⟨b, hb⟩, -⟩ := h.current _ hmem
  obtain ⟨b', hleads, hdrained⟩ := h.drains registry hb (by rw [hs]; nofun)
  have h' := h.leads hleads
  have hb' : (s.update id job'.key b').tasks[id]? = some (job'.key, b') := by
    rw [getElem?_update hb, if_pos rfl]
  cases hc : b'.rx.closed with
  | false =>
    obtain ⟨s', hleads', hdone⟩ := h'.sends hs hb' hc hdrained.queue
    exact ⟨s', hleads.trans hleads', hdone⟩
  | true =>
    have hrefused : (s.update id job'.key b').step registry .refused =
        some { s.update id job'.key b' with
          batchers := s.batchers.filter fun e => e.1 ≠ job.key
          sending := .entry job config } := by
      have hs' : (s.update id job'.key b').sending = .waiting job config id := hs
      simp only [Routing.step, hs', hb', Option.bind_eq_bind, Option.bind_some, hc, if_true]
      rfl
    obtain ⟨s', hleads', hdone⟩ := (h'.refused hs).starts registry rfl (by
      refine List.lookup_eq_none_iff.mpr fun e he => ?_
      have hne := of_decide_eq_true (List.mem_filter.mp he).2
      exact bne_iff_ne.mpr (Ne.symm hne))
    exact ⟨s', hleads.trans ((Leads.of_step hrefused rfl).trans hleads'), hdone⟩

variable (registry) in
/-- Every call of `send_to_batcher` can come to its end, from every state that a run reaches. -/
theorem Sound.returns (h : s.Sound) : ∃ s', Leads registry s s' ∧ s'.sending = .done := by
  cases hs : s.sending with
  | done => exact ⟨s, Leads.refl s, hs⟩
  | placed job id => exact h.puts hs
  | waiting job config id => exact h.waits hs
  | entry job config =>
    cases hid : s.batchers.lookup job.key with
    | none => exact h.starts registry hs hid
    | some id =>
      have hentry : s.step registry .entry =
          some { s with sending := .waiting job config id } := by
        simp only [Routing.step, hs, hid]
      obtain ⟨s', hleads, hdone⟩ := (h.entry_old hs hid).waits rfl
      exact ⟨s', (Leads.of_step hentry rfl).trans hleads, hdone⟩

/-- Everything that was routed has arrived: no call of `send_to_batcher` is under way, and every
batcher is drained. -/
structure Settled (s : Routing) : Prop where
  done : s.sending = .done
  drained : ∀ t ∈ s.tasks, t.2.Drained

variable (registry) in
/-- The first `n` batchers can be brought to spawn all they have, one after the other. -/
theorem Sound.drains_all (h : s.Sound) (hs : s.sending = .done) (n : ℕ) :
    ∃ s', Leads registry s s' ∧ s'.sending = .done ∧ s'.tasks.length = s.tasks.length ∧
      ∀ j < n, ∀ t, s'.tasks[j]? = some t → t.2.Drained := by
  induction n with
  | zero => exact ⟨s, Leads.refl s, hs, rfl, nofun⟩
  | succ n ih =>
    obtain ⟨s₁, hleads, hdone, hlen, hall⟩ := ih
    cases hb : s₁.tasks[n]? with
    | none =>
      refine ⟨s₁, hleads, hdone, hlen, fun j hj t ht => ?_⟩
      rcases Nat.lt_succ_iff_lt_or_eq.mp hj with hj | rfl
      · exact hall j hj t ht
      · rw [hb] at ht
        cases ht
    | some t =>
      obtain ⟨key, b⟩ := t
      obtain ⟨b', hleads', hdrained⟩ := (h.leads hleads).drains registry hb
        (by rw [hdone]; nofun)
      refine ⟨s₁.update n key b', hleads.trans hleads', hdone, ?_, fun j hj t ht => ?_⟩
      · rw [← hlen]
        exact List.length_set
      · rw [getElem?_update hb] at ht
        split at ht
        next =>
          cases ht
          exact hdrained
        next hne =>
          exact hall j (Nat.lt_of_le_of_ne (Nat.le_of_lt_succ hj) (Ne.symm hne)) t ht

variable (registry) in
/-- From every state that a run reaches, some steps lead to one where every job is in a batch. -/
theorem Sound.settles (h : s.Sound) : ∃ s', Leads registry s s' ∧ s'.Settled := by
  obtain ⟨s₁, hleads, hdone⟩ := h.returns registry
  obtain ⟨s₂, hleads', hdone', hlen, hall⟩ :=
    (h.leads hleads).drains_all registry hdone s₁.tasks.length
  refine ⟨s₂, hleads.trans hleads', hdone', fun t ht => ?_⟩
  obtain ⟨j, hj⟩ := List.mem_iff_getElem?.mp ht
  have hlt := (List.getElem?_eq_some_iff.mp hj).1
  exact hall j (hlen ▸ hlt) t hj

/-! ## The partition -/

/-- What is delivered to a batcher was routed before and has the key of the batcher. -/
theorem Sound.mem_delivered (h : s.Sound) {t : BatchKey × Batcher} (ht : t ∈ s.tasks)
    {job : PendingJob} (hjob : job ∈ t.2.delivered) : job ∈ s.routed ∧ job.key = t.1 := by
  have hmem : job ∈ s.routed.filter fun job => job.key = t.1 := by
    rw [h.delivered t.1]
    refine List.mem_append_left _ (List.mem_flatMap.mpr ⟨t, ht, ?_⟩)
    rw [if_pos rfl]
    exact hjob
  exact ⟨(List.mem_filter.mp hmem).1, of_decide_eq_true (List.mem_filter.mp hmem).2⟩

/-- In a settled state nothing is on the way: the routed jobs of a key are in the batches of its
batchers. -/
theorem Sound.settled_filter (h : s.Sound) (hs : s.Settled) (k : BatchKey) :
    s.routed.filter (fun job => job.key = k) =
      s.tasks.flatMap fun t => if t.1 = k then t.2.batches.flatten else [] := by
  rw [h.delivered k, hs.done]
  show deliveredFor k s.tasks ++ [] = _
  rw [List.append_nil, deliveredFor]
  refine List.flatMap_congr fun t ht => ?_
  have hd := hs.drained t ht
  rw [Batcher.delivered, ← (h.batcher t ht).partition, hd.queue, hd.pending, List.append_nil,
    List.append_nil]

/-- In a settled state a job that was routed once is received by one batcher and no other. -/
theorem Sound.exactly_one (h : s.Sound) (hs : s.Settled) (hnodup : s.routed.Nodup)
    {job : PendingJob} (hjob : job ∈ s.routed) :
    ∃! id : ℕ, ∃ t : BatchKey × Batcher, s.tasks[id]? = some t ∧ job ∈ t.2.received := by
  have hfilter := h.settled_filter hs job.key
  have hreceived {t : BatchKey × Batcher} (ht : t ∈ s.tasks) :
      t.2.batches.flatten = t.2.received := by
    rw [← (h.batcher t ht).partition, (hs.drained t ht).pending, List.append_nil]
  have hpairwise := (List.nodup_flatMap.mp (hfilter ▸ hnodup.filter _)).2
  -- a batcher that received the job contributes it to the jobs of the key
  have hcontributes {t : BatchKey × Batcher} (ht : t ∈ s.tasks) (hmem : job ∈ t.2.received) :
      job ∈ if t.1 = job.key then t.2.batches.flatten else [] := by
    rw [if_pos (h.mem_delivered ht (List.mem_append_left _ hmem)).2.symm, hreceived ht]
    exact hmem
  have hmem : job ∈ s.routed.filter fun j => j.key = job.key :=
    List.mem_filter.mpr ⟨hjob, decide_eq_true rfl⟩
  rw [hfilter] at hmem
  obtain ⟨t, ht, hjt⟩ := List.mem_flatMap.mp hmem
  obtain ⟨id, hid⟩ := List.mem_iff_getElem?.mp ht
  split at hjt
  next =>
    rw [hreceived ht] at hjt
    refine ⟨id, ⟨t, hid, hjt⟩, ?_⟩
    rintro id' ⟨t', hid', hjt'⟩
    obtain ⟨hlt, rfl⟩ := List.getElem?_eq_some_iff.mp hid
    obtain ⟨hlt', rfl⟩ := List.getElem?_eq_some_iff.mp hid'
    have h₁ := hcontributes ht hjt
    have h₂ := hcontributes (List.getElem_mem hlt') hjt'
    rw [List.pairwise_iff_getElem] at hpairwise
    rcases Nat.lt_trichotomy id' id with hlt'' | heq | hlt''
    · exact absurd h₁ (hpairwise id' id hlt' hlt hlt'' h₂)
    · exact heq
    · exact absurd h₂ (hpairwise id id' hlt hlt' hlt'' h₁)
  next => cases hjt

/-- **Batches partition the job stream.** Whatever jobs are routed, and in whatever order the
coordinator, its batchers, the clock and the cancellation of the runtime take their steps: what a
batcher has spawned and what is pending are what it received, in order; its batches are not empty,
not too large and of one key; a batcher that has returned has nothing left; the jobs routed for a
key are, in order, those received by the batchers of that key, those in their channels and the one
being sent; and from every state some steps lead to one where each of them is in a batch and was
received by one batcher. -/
theorem batches_partition {acts : List RoutingAct} {s : Routing}
    (h : start.run registry acts = some s) :
    (∀ t ∈ s.tasks,
      t.2.batches.flatten ++ t.2.pending = t.2.received ∧
      (∀ batch ∈ t.2.batches, batch ≠ [] ∧ batch.length ≤ t.2.config.size ∧
        ∀ job ∈ batch, job.key = t.1) ∧
      (t.2.stage = .returned → t.2.batches.flatten = t.2.received ∧ t.2.rx.queue = [])) ∧
    (∀ k, s.routed.filter (fun job => job.key = k) =
      (s.tasks.flatMap fun t => if t.1 = k then t.2.received ++ t.2.rx.queue else []) ++
        s.sending.job?.toList.filter fun job => job.key = k) ∧
    (s.Settled → s.routed.Nodup → ∀ job ∈ s.routed,
      ∃! id : ℕ, ∃ t : BatchKey × Batcher, s.tasks[id]? = some t ∧ job ∈ t.2.received) ∧
    ∃ s', Leads registry s s' ∧ s'.Settled ∧
      ∀ k, s.routed.filter (fun job => job.key = k) =
        s'.tasks.flatMap fun t => if t.1 = k then t.2.batches.flatten else [] := by
  have hs := sound_start.run h
  refine ⟨fun t ht => ⟨(hs.batcher t ht).partition, fun batch hb => ?_, fun hr => ?_⟩,
    hs.delivered, fun hset hnodup _ hjob => hs.exactly_one hset hnodup hjob, ?_⟩
  · obtain ⟨hne, hsize⟩ := (hs.batcher t ht).sized batch hb
    refine ⟨hne, hsize, fun job hjob => (hs.mem_delivered ht (List.mem_append_left _ ?_)).2⟩
    rw [← (hs.batcher t ht).partition]
    exact List.mem_append_left _ (List.mem_flatten.mpr ⟨batch, hb, hjob⟩)
  · obtain ⟨id, hid⟩ := List.mem_iff_getElem?.mp ht
    refine ⟨?_, (hs.returned id t hid hr).empty⟩
    rw [← (hs.batcher t ht).partition, (hs.batcher t ht).empty (.inr hr), List.append_nil]
  · obtain ⟨s', hleads, hset⟩ := hs.settles registry
    refine ⟨s', hleads, hset, fun k => ?_⟩
    obtain ⟨acts', -, hrouted⟩ := id hleads
    rw [← hrouted]
    exact (hs.leads hleads).settled_filter hset k

/-- A batcher closes its channel while a job is being put into it, and takes that job; the next
job of the key finds the channel closed and goes to a new batcher. -/
def race : List RoutingAct :=
  [.route ⟨mail, 0⟩, .entry, .reserve, .cancel, .wake 0 .cancelled, .put, .wake 0 .recv,
    .wake 0 .recv, .route ⟨mail, 1⟩, .entry, .refused, .entry, .reserve, .put, .wake 1 .recv,
    .wake 1 .timeout]

/-- Both jobs of the race are in a batch: the first in one of the batcher that has closed its
channel, the second in one of the batcher that was started after it. -/
theorem race_partition :
    (start.run (fun _ => some ⟨2, 1000, by decide⟩) race).map (fun s =>
        s.tasks.map fun t => t.2.batches.map fun batch => batch.map PendingJob.permit) =
      some [[[0]], [[1]]] ∧
    ∃ s, start.run (fun _ => some ⟨2, 1000, by decide⟩) race = some s ∧
      ∀ t ∈ s.tasks, t.2.batches.flatten ++ t.2.pending = t.2.received := by
  refine ⟨rfl, ?_⟩
  obtain ⟨s, hs⟩ : ∃ s, start.run (fun _ => some ⟨2, 1000, by decide⟩) race = some s := ⟨_, rfl⟩
  exact ⟨s, hs, fun t ht => ((batches_partition hs).1 t ht).1⟩

end Routing

end Oxana
