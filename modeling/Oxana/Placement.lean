import Oxana.Transitions
import Mathlib.Algebra.BigOperators.Group.Finset.Piecewise

/-!
# Where jobs are

A job id can wait on the ready list of a queue, in the schedule or the retry
set, or be claimed on the processing list of a process. `occ` counts how often
it is at each of these places, and a `JobView` is all that the transitions of a
job depend on: its payload and these counts.

Every write of the storage changes the view of few jobs, and the invariants are
stated job by job, so the lemmas here say what a write to a key does to a view.
Ready lists are taken into account under plain names only, under which they
cannot be mistaken for another key.
-/

namespace Oxana

open Redis

/-- A place where a job can be found: a ready list, a processing list, the schedule or the retry
set. -/
inductive Loc where
  /-- on the ready list of a queue -/
  | ready (queue : String)
  /-- claimed by a process -/
  | processing (processId : String)
  /-- in the schedule -/
  | schedule
  /-- in the retry set -/
  | retry
  deriving DecidableEq, Repr

namespace Loc

/-- The key that holds the place. -/
def key (K : StorageKeys) : Loc → Key
  | ready queue => K.namespaceQueue queue
  | processing processId => K.processingQueue processId
  | schedule => K.schedule
  | retry => K.retry

/-- The type of what is stored there. -/
def kind : Loc → Kind
  | ready _ => .list
  | processing _ => .list
  | schedule => .zset
  | retry => .zset

/-- The place is told apart from all others by its key. -/
def Proper (K : StorageKeys) : Loc → Prop
  | ready queue => K.Plain queue
  | _ => True

instance (K : StorageKeys) : (l : Loc) → Decidable (l.Proper K)
  | ready queue => inferInstanceAs (Decidable (K.Plain queue))
  | processing _ => inferInstanceAs (Decidable True)
  | schedule => inferInstanceAs (Decidable True)
  | retry => inferInstanceAs (Decidable True)

variable {K : StorageKeys}

/-- Different places have different keys, as long as their queues have plain names. -/
theorem key_injective {l l' : Loc} (hl : l.Proper K) (hl' : l'.Proper K)
    (h : l.key K = l'.key K) : l = l' := by
  cases l with
  | ready q =>
    cases l' with
    | ready q' =>
      have h' : K.namespaceQueue q = K.namespaceQueue q' := h
      rw [StorageKeys.namespaceQueue_of_plain hl, StorageKeys.namespaceQueue_of_plain hl',
        String.append_right_inj, String.append_right_inj] at h'
      rw [h']
    | processing p => exact absurd h (StorageKeys.queue_ne_processing hl p)
    | schedule => exact absurd h (StorageKeys.queue_ne_fixed hl).2.2.1
    | retry => exact absurd h (StorageKeys.queue_ne_fixed hl).2.2.2
  | processing p =>
    cases l' with
    | ready q => exact absurd h.symm (StorageKeys.queue_ne_processing hl' p)
    | processing p' => rw [StorageKeys.processingQueue_injective h]
    | schedule => exact absurd h (StorageKeys.processing_ne_fixed p).2.2.1
    | retry => exact absurd h (StorageKeys.processing_ne_fixed p).2.2.2
  | schedule =>
    cases l' with
    | ready q => exact absurd h.symm (StorageKeys.queue_ne_fixed hl').2.2.1
    | processing p => exact absurd h.symm (StorageKeys.processing_ne_fixed p).2.2.1
    | schedule => rfl
    | retry => exact absurd h StorageKeys.schedule_ne_retry
  | retry =>
    cases l' with
    | ready q => exact absurd h.symm (StorageKeys.queue_ne_fixed hl').2.2.2
    | processing p => exact absurd h.symm (StorageKeys.processing_ne_fixed p).2.2.2
    | schedule => exact absurd h.symm StorageKeys.schedule_ne_retry
    | retry => rfl

/-- No place is at the key of the payloads. -/
theorem key_ne_jobs {l : Loc} (hl : l.Proper K) : l.key K ≠ K.jobs := by
  cases l with
  | ready q => exact (StorageKeys.queue_ne_fixed hl).1
  | processing p => exact (StorageKeys.processing_ne_fixed p).1
  | schedule => exact StorageKeys.jobs_ne_schedule.symm
  | retry => exact StorageKeys.jobs_ne_retry.symm

/-- No place is at the key of the dead list. -/
theorem key_ne_dead {l : Loc} (hl : l.Proper K) : l.key K ≠ K.dead := by
  cases l with
  | ready q => exact (StorageKeys.queue_ne_fixed hl).2.1
  | processing p => exact (StorageKeys.processing_ne_fixed p).2.1
  | schedule => exact StorageKeys.dead_ne_schedule.symm
  | retry => exact StorageKeys.dead_ne_retry.symm

end Loc

/-! ## Counting -/

/-- How often an id is in a value, as an item or as a member. -/
def occursIn (id : JobId) : Value → ℕ
  | .list l => l.count id
  | .zset z => if (z.lookup id).isSome then 1 else 0
  | _ => 0

/-- How often an id is at a place, where that is told apart by its key. -/
def occ (K : StorageKeys) (s : Store) (id : JobId) (l : Loc) : ℕ :=
  if l.Proper K then ((s.get (l.key K)).map (occursIn id)).getD 0 else 0

/-- What a store says about a job: the payload that is stored, and how often the job is at each
place. -/
structure JobView where
  /-- what is stored -/
  payload : Option String
  /-- how often it is at each place -/
  places : Loc → ℕ

/-- The job as the store has it. -/
def jobView (K : StorageKeys) (s : Store) (id : JobId) : JobView :=
  ⟨payloadOf K.jobs s id, occ K s id⟩

/-- How often an id is at a key, whatever is stored there. -/
def occursAt (s : Store) (id : JobId) (k : Key) : ℕ := ((s.get k).map (occursIn id)).getD 0

section Count

variable {s : Store} {id : JobId} {k k' : Key}

theorem occursIn_of_not_live {v : Value} (h : ¬ v.Live) : occursIn id v = 0 := by
  cases v with
  | string t => rfl
  | hash m => rfl
  | list l =>
    obtain rfl : l = [] := by simpa [Value.Live] using h
    rfl
  | zset z =>
    obtain rfl : z = [] := by simpa [Value.Live] using h
    rfl

theorem occursAt_put_self (v : Value) : occursAt (s.put k v) id k = occursIn id v := by
  rw [occursAt, Store.get_put_self]
  by_cases hv : v.Live
  · rw [if_pos hv]
    rfl
  · rw [if_neg hv, occursIn_of_not_live hv]
    rfl

theorem occursAt_put_ne (v : Value) (h : k' ≠ k) :
    occursAt (s.put k v) id k' = occursAt s id k' := by
  rw [occursAt, Store.get_put_ne _ h, occursAt]

/-- On a list, a job is counted as often as its id is there. -/
theorem occursAt_list (hf : s.Fits k .list) : occursAt s id k = (s.list k).count id := by
  simp only [occursAt, Store.list]
  rcases hg : s.get k with _ | v
  · rfl
  · cases v with
    | list l => rfl
    | string t => rcases hf with h | h <;> simp [Store.kind, hg, Value.kind] at h
    | hash m => rcases hf with h | h <;> simp [Store.kind, hg, Value.kind] at h
    | zset z => rcases hf with h | h <;> simp [Store.kind, hg, Value.kind] at h

/-- In a sorted set, a job is counted once if its id has a score, and otherwise not at all. -/
theorem occursAt_zset (hf : s.Fits k .zset) :
    occursAt s id k = if ((s.zset k).lookup id).isSome then 1 else 0 := by
  rw [occursAt, Store.zset]
  rcases hg : s.get k with _ | v
  · rfl
  · cases v with
    | zset z => rfl
    | string t => rcases hf with h | h <;> simp [Store.kind, hg, Value.kind] at h
    | hash m => rcases hf with h | h <;> simp [Store.kind, hg, Value.kind] at h
    | list l => rcases hf with h | h <;> simp [Store.kind, hg, Value.kind] at h

end Count

section Put

variable {K : StorageKeys} {s : Store} {id : JobId}

theorem occ_of_proper {l : Loc} (hl : l.Proper K) : occ K s id l = occursAt s id (l.key K) :=
  if_pos hl

theorem occ_empty (id : JobId) (l : Loc) : occ K Store.empty id l = 0 := by
  simp [occ, Store.empty]

theorem occ_put_self {l : Loc} (hl : l.Proper K) (v : Value) :
    occ K (s.put (l.key K) v) id l = occursIn id v := by
  rw [occ_of_proper hl, occursAt_put_self]

theorem occ_put_of_ne {l : Loc} {k : Key} (h : l.Proper K → l.key K ≠ k) (v : Value) :
    occ K (s.put k v) id l = occ K s id l := by
  simp only [occ]
  split
  · next hl => rw [Store.get_put_ne _ (h hl)]
  · rfl

/-- A write to a place changes the count there, and nothing else about any job. -/
theorem jobView_put_place (id : JobId) {l : Loc} (hl : l.Proper K) (v : Value) :
    jobView K (s.put (l.key K) v) id =
      ⟨payloadOf K.jobs s id, Function.update (occ K s id) l (occursIn id v)⟩ := by
  have hpay : payloadOf K.jobs (s.put (l.key K) v) id = payloadOf K.jobs s id := by
    rw [payloadOf, Store.hash_put_ne _ (Loc.key_ne_jobs hl).symm, payloadOf]
  rw [jobView, hpay]
  congr 1
  funext l'
  by_cases h : l' = l
  · subst h
    rw [occ_put_self hl, Function.update_self]
  · rw [Function.update_of_ne h]
    exact occ_put_of_ne (fun hl' hk => h (Loc.key_injective hl' hl hk)) v

/-- A write to the hash of the payloads changes payloads, and no count. -/
theorem jobView_put_jobs (m : List (String × String)) :
    jobView K (s.put K.jobs (.hash m)) id = ⟨m.lookup id, occ K s id⟩ := by
  rw [jobView, payloadOf, Store.hash_put_self]
  congr 1
  funext l
  exact occ_put_of_ne (fun hl => Loc.key_ne_jobs hl) _

/-- A write to the dead list changes nothing about any job. -/
theorem jobView_put_dead (v : Value) : jobView K (s.put K.dead v) id = jobView K s id := by
  rw [jobView, jobView, payloadOf, Store.hash_put_ne _ StorageKeys.jobs_ne_dead, ← payloadOf]
  congr 1
  funext l
  exact occ_put_of_ne (fun hl => Loc.key_ne_dead hl) _

/-- A key that has nothing to do with jobs. -/
structure Foreign (K : StorageKeys) (k : Key) : Prop where
  /-- not the jobs hash -/
  jobs : k ≠ K.jobs
  /-- not the dead list -/
  dead : k ≠ K.dead
  /-- it is not the key of any place -/
  place : ∀ l : Loc, l.Proper K → l.key K ≠ k

/-- A write to a key that has nothing to do with jobs changes nothing about any of them. -/
theorem jobView_put_foreign {k : Key} (hk : Foreign K k) (v : Value) :
    jobView K (s.put k v) id = jobView K s id := by
  rw [jobView, jobView, payloadOf, Store.hash_put_ne _ hk.jobs.symm, ← payloadOf]
  congr 1
  funext l
  exact occ_put_of_ne (fun hl => hk.place l hl) v

/-- Keys that begin otherwise than those of the jobs have nothing to do with jobs. -/
theorem foreign_of_ne {k t : String} (hk : k = K.nspace ++ t)
    (hfix : t ≠ ":jobs" ∧ t ≠ ":dead" ∧ t ≠ ":schedule" ∧ t ≠ ":retry")
    (hqueue : t.toList.take 2 ≠ [':', 'q']) (hproc : t.toList[8]? ≠ some 'i') :
    Foreign K k := by
  subst hk
  have hinj : ∀ t', K.nspace ++ t = K.nspace ++ t' → t = t' := fun t' h =>
    (String.append_right_inj _).mp h
  refine ⟨fun h => hfix.1 (hinj _ h), fun h => hfix.2.1 (hinj _ h), fun l hl h => ?_⟩
  cases l with
  | ready q =>
    have h' : K.namespaceQueue q = K.nspace ++ t := h
    rw [StorageKeys.namespaceQueue_of_plain hl] at h'
    apply hqueue
    rw [hinj _ h'.symm, String.toList_append]
    rfl
  | processing p =>
    have h' : K.processingQueue p = K.nspace ++ t := h
    rw [StorageKeys.processingQueue_eq] at h'
    have ht := hinj _ h'.symm
    apply hproc
    rw [ht, String.toList_append]
    rfl
  | schedule => exact hfix.2.2.1 (hinj _ h.symm)
  | retry => exact hfix.2.2.2 (hinj _ h.symm)

theorem foreign_processes : Foreign K K.processes :=
  foreign_of_ne (t := ":processes") rfl (by decide) (by decide) (by decide)

theorem foreign_processesData : Foreign K K.processesData :=
  foreign_of_ne (t := ":processes_data") rfl (by decide) (by decide) (by decide)

/-- The count of a job at a list is how often its id is on it. -/
theorem occ_list {l : Loc} (hl : l.Proper K) (hf : s.Fits (l.key K) .list) :
    occ K s id l = (s.list (l.key K)).count id :=
  (occ_of_proper hl).trans (occursAt_list hf)

/-- A job is counted at a list exactly if its id is on it. -/
theorem occ_ne_zero {l : Loc} (hl : l.Proper K) (hf : s.Fits (l.key K) .list) :
    occ K s id l ≠ 0 ↔ id ∈ s.list (l.key K) := by
  rw [occ_list hl hf]
  exact Nat.pos_iff_ne_zero.symm.trans List.count_pos_iff

/-- The count of a job at a sorted set is one if it has a score, and zero otherwise. -/
theorem occ_zset {l : Loc} (hl : l.Proper K) (hf : s.Fits (l.key K) .zset) :
    occ K s id l = if ((s.zset (l.key K)).lookup id).isSome then 1 else 0 :=
  (occ_of_proper hl).trans (occursAt_zset hf)

end Put

/-! ## Elementary writes

Each changes the view of one job. -/

namespace JobView

/-- The job once a payload has been stored for it. -/
def store (p : String) (v : JobView) : JobView := ⟨some p, v.places⟩

/-- The job once its payload has been dropped. -/
def forget (v : JobView) : JobView := ⟨none, v.places⟩

/-- The job once its id has joined a list. -/
def join (l : Loc) (v : JobView) : JobView :=
  ⟨v.payload, Function.update v.places l (v.places l + 1)⟩

/-- The job once one occurrence of it has left a list. -/
def leave (l : Loc) (v : JobView) : JobView :=
  ⟨v.payload, Function.update v.places l (v.places l - 1)⟩

/-- The job once it is in a set. -/
def enter (l : Loc) (v : JobView) : JobView := ⟨v.payload, Function.update v.places l 1⟩

/-- The job once it is not in a set any more. -/
def exit (l : Loc) (v : JobView) : JobView := ⟨v.payload, Function.update v.places l 0⟩

end JobView

section Writes

variable {K : StorageKeys} {s : Store} {id : JobId} {l : Loc}

/-- Storing a payload changes the payload of that job, and nothing of the others. -/
theorem jobView_setField (id' : JobId) (p : String) :
    jobView K (s.put K.jobs (.hash (setField id' p (s.hash K.jobs)))) id =
      if id = id' then (jobView K s id).store p else jobView K s id := by
  rw [jobView_put_jobs]
  split
  · next h =>
    rw [h, lookup_setField_self]
    rfl
  · next h => rw [lookup_setField_ne h, jobView, payloadOf]

/-- Dropping a payload takes that of its job away, and nothing of the others. -/
theorem jobView_unsetField (id' : JobId) :
    jobView K (s.put K.jobs (.hash (unset id' (s.hash K.jobs)))) id =
      if id = id' then (jobView K s id).forget else jobView K s id := by
  rw [jobView_put_jobs]
  split
  · next h =>
    rw [h, lookup_unset_self]
    rfl
  · next h => rw [lookup_unset_ne h, jobView, payloadOf]

/-- Joining a list adds one occurrence of that job, and changes no other. -/
theorem jobView_push (hl : l.Proper K) (hf : s.Fits (l.key K) .list) (id' : JobId) :
    jobView K (s.put (l.key K) (.list (id' :: s.list (l.key K)))) id =
      if id = id' then (jobView K s id).join l else jobView K s id := by
  rw [jobView_put_place _ hl, occursIn]
  split
  · next h =>
    rw [h, List.count_cons_self, ← occ_list hl hf]
    rfl
  · next h =>
    rw [List.count_cons_of_ne (Ne.symm h), ← occ_list hl hf, Function.update_eq_self, jobView]

/-- Leaving a list takes one occurrence of that job away, and changes no other. -/
theorem jobView_erase (hl : l.Proper K) (hf : s.Fits (l.key K) .list) (id' : JobId) :
    jobView K (s.put (l.key K) (.list ((s.list (l.key K)).erase id'))) id =
      if id = id' then (jobView K s id).leave l else jobView K s id := by
  rw [jobView_put_place _ hl, occursIn]
  split
  · next h =>
    rw [h, List.count_erase_self, ← occ_list hl hf]
    rfl
  · next h =>
    rw [List.count_erase_of_ne h, ← occ_list hl hf, Function.update_eq_self, jobView]

/-- Leaving a list at its end takes one occurrence of the last job away, and changes no other. -/
theorem jobView_dropLast (hl : l.Proper K) (hf : s.Fits (l.key K) .list) {id' : JobId}
    (hlast : (s.list (l.key K)).getLast? = some id') :
    jobView K (s.put (l.key K) (.list (s.list (l.key K)).dropLast)) id =
      if id = id' then (jobView K s id).leave l else jobView K s id := by
  have hcount : (s.list (l.key K)).count id =
      (s.list (l.key K)).dropLast.count id + if id = id' then 1 else 0 := by
    conv_lhs => rw [← List.dropLast_append_getLast? id' hlast]
    rw [List.count_append]
    by_cases h : id = id'
    · rw [if_pos h, h, List.count_singleton_self]
    · rw [if_neg h, List.count_eq_zero.mpr fun hm => h (List.mem_singleton.mp hm)]
  rw [jobView_put_place _ hl, occursIn]
  split
  · next h =>
    rw [if_pos h, ← occ_list hl hf] at hcount
    rw [show (s.list (l.key K)).dropLast.count id = occ K s id l - 1 by omega]
    rfl
  · next h =>
    rw [if_neg h, Nat.add_zero, ← occ_list hl hf] at hcount
    rw [← hcount, Function.update_eq_self, jobView]

/-- Leaving a list for good takes every occurrence of that job away, and changes no other. -/
theorem jobView_filter (hl : l.Proper K) (hf : s.Fits (l.key K) .list) (id' : JobId) :
    jobView K (s.put (l.key K) (.list ((s.list (l.key K)).filter (· ≠ id')))) id =
      if id = id' then (jobView K s id).exit l else jobView K s id := by
  rw [jobView_put_place _ hl, occursIn]
  split
  · next h =>
    have hnone : ((s.list (l.key K)).filter (· ≠ id')).count id = 0 :=
      List.count_eq_zero.mpr fun hm => (of_decide_eq_true (List.mem_filter.mp hm).2) h
    rw [hnone]
    rfl
  · next h =>
    have hsame : ((s.list (l.key K)).filter (· ≠ id')).count id = (s.list (l.key K)).count id :=
      List.count_filter (by simpa using h)
    rw [hsame, ← occ_list hl hf, Function.update_eq_self, jobView]

/-- Joining a sorted set puts that job there once, and changes no other. -/
theorem jobView_setScore (hl : l.Proper K) (hf : s.Fits (l.key K) .zset) (id' : JobId)
    (score : Int) :
    jobView K (s.put (l.key K) (.zset (setScore id' score (s.zset (l.key K))))) id =
      if id = id' then (jobView K s id).enter l else jobView K s id := by
  rw [jobView_put_place _ hl, occursIn]
  by_cases h : id = id'
  · rw [if_pos h, h, lookup_setScore_self]
    rfl
  · rw [if_neg h, lookup_setScore_ne h, ← occ_zset hl hf, Function.update_eq_self, jobView]

/-- Leaving a sorted set takes that job away from it, and changes no other. -/
theorem jobView_unsetScore (hl : l.Proper K) (hf : s.Fits (l.key K) .zset) (id' : JobId) :
    jobView K (s.put (l.key K) (.zset (unset id' (s.zset (l.key K))))) id =
      if id = id' then (jobView K s id).exit l else jobView K s id := by
  rw [jobView_put_place _ hl, occursIn]
  by_cases h : id = id'
  · rw [if_pos h, h, lookup_unset_self]
    rfl
  · rw [if_neg h, lookup_unset_ne h, ← occ_zset hl hf, Function.update_eq_self, jobView]

end Writes

/-! ## At most once -/

/-- In total, the counts of all places are at most one. -/
def Once (f : Loc → ℕ) : Prop := ∀ S : Finset Loc, ∑ l ∈ S, f l ≤ 1

/-- The counts of a job that is at one place and at no other. -/
def only (l : Loc) : Loc → ℕ := fun l' => if l' = l then 1 else 0

@[simp] theorem only_self (l : Loc) : only l l = 1 := if_pos rfl

@[simp] theorem only_ne {l l' : Loc} (h : l' ≠ l) : only l l' = 0 := if_neg h

theorem once_zero : Once 0 := fun S => by simp

theorem once_only (l : Loc) : Once (only l) := by
  intro S
  have : ∑ l' ∈ S, only l l' = if l ∈ S then 1 else 0 := Finset.sum_ite_eq' S l fun _ => 1
  rw [this]
  split <;> omega

/-- A job that is at most at one place, and counted at this one, is there and nowhere else. -/
theorem Once.eq_only {f : Loc → ℕ} (h : Once f) {l : Loc} (hl : f l ≠ 0) : f = only l := by
  have hone : f l ≤ 1 := by simpa using h {l}
  funext l'
  by_cases hll : l' = l
  · subst hll
    rw [only_self]
    omega
  · have hpair := h {l', l}
    rw [Finset.sum_pair hll] at hpair
    rw [only_ne hll]
    omega

/-- A job that leaves the only place where it is, is nowhere. -/
@[simp] theorem update_only_zero (l : Loc) : Function.update (only l) l 0 = 0 := by
  funext l'
  by_cases h : l' = l
  · subst h
    simp
  · simp [h]

/-- A job that is nowhere and joins a place is only there. -/
@[simp] theorem update_zero_one (l : Loc) : Function.update (0 : Loc → ℕ) l 1 = only l := by
  funext l'
  by_cases h : l' = l
  · subst h
    simp
  · simp [h]

/-! ### Moving from one place to another -/

namespace JobView

variable {q : Option String} {l l' : Loc}

@[simp] theorem store_mk (p : String) (f : Loc → ℕ) : (⟨q, f⟩ : JobView).store p = ⟨some p, f⟩ :=
  rfl

@[simp] theorem forget_mk (f : Loc → ℕ) : (⟨q, f⟩ : JobView).forget = ⟨none, f⟩ := rfl

@[simp] theorem leave_only : (⟨q, only l⟩ : JobView).leave l = ⟨q, 0⟩ := by
  simp [leave]

@[simp] theorem exit_only : (⟨q, only l⟩ : JobView).exit l = ⟨q, 0⟩ := by
  simp [exit]

@[simp] theorem join_zero : (⟨q, 0⟩ : JobView).join l = ⟨q, only l⟩ := by
  simp [join]

@[simp] theorem enter_zero : (⟨q, 0⟩ : JobView).enter l = ⟨q, only l⟩ := by
  simp [enter]

theorem leave_join (h : l ≠ l') (v : JobView) : (v.join l').leave l = (v.leave l).join l' := by
  simp only [leave, join]
  simp only [Function.update_of_ne h, Function.update_of_ne h.symm, Function.update_comm h]

theorem exit_join (h : l ≠ l') (v : JobView) : (v.join l').exit l = (v.exit l).join l' := by
  simp only [exit, join]
  simp only [Function.update_of_ne h.symm, Function.update_comm h]

theorem leave_enter (h : l ≠ l') (v : JobView) : (v.enter l').leave l = (v.leave l).enter l' := by
  simp only [leave, enter]
  simp only [Function.update_of_ne h, Function.update_comm h]

end JobView

end Oxana
