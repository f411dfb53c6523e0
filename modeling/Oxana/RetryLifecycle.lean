import Oxana.FailedAttempts

/-!
# The life of a job that always fails

A job is claimed, loaded and executed, alone or in a batch; the attempt fails, and the job is put
into the retry set or, when it has been retried often enough, on the dead list. From the retry set
it is promoted to its ready list, and so on.

`retry_lifecycle` follows the job through any number of attempts: the two counters agree with the
number of failures all the time, and it is executed one time more than it may be retried.
-/

namespace Oxana

open Redis Interleave Call

variable {γ : Type} {K : StorageKeys} {Q : Set String} {H : Handle} {id : JobId} {queue : String}
  {w w' : World γ}

/-! ## The life of a job -/

/-- What the runtime is doing with the job at the moment. -/
inductive LifePhase where
  /-- nothing -/
  | idle
  /-- it has claimed it -/
  | claimed
  /-- it has loaded it -/
  | loaded (e : JobEnvelope)

/-- How often the job has been executed, what is being done with it, and the world. -/
structure Life (γ : Type) where
  /-- the number of executions -/
  runs : ℕ
  /-- what is being done -/
  phase : LifePhase
  /-- the world -/
  world : World γ

/-- What happens next, to the job or elsewhere. -/
inductive LifeAct where
  /-- something that does not concern the job -/
  | elsewhere
  /-- time passes -/
  | passes
  /-- what is due is promoted -/
  | promotes
  /-- a dispatcher claims a job -/
  | claims
  /-- the claimed job is loaded -/
  | loads
  /-- the claimed job is executed, in one batch with these other jobs -/
  | executes (others : List JobEnvelope)

/-- The steps of a runtime that matter for one job, each attempt of which fails: promotions, claims,
executions, and whatever happens to other jobs. -/
inductive LifeStep (H : Handle) (Q : Set String) (id : JobId) (m : UInt32) :
    LifeAct → Life γ → Life γ → Prop
  | elsewhere {s : Life γ} {w' : World γ} : Elsewhere H.keys Q id s.world.store w'.store →
      LifeStep H Q id m .elsewhere s { s with world := w' }
  | passes {s : Life γ} {t : Int} : s.world.clock ≤ t →
      LifeStep H Q id m .passes s { s with world := { s.world with clock := t } }
  | promotes {s : Life γ} {set : DelayedSet} {r : Except OxanaError Nat} {w' : World γ} :
      Solo Reliable (enqueueScheduled H.keys (set.key H.keys)) s.world r w' →
      LifeStep H Q id m .promotes s { s with world := w' }
  | claims {s : Life γ} {queue : String} {next : Option JobId} {w' : World γ} : queue ∈ Q →
      Solo Reliable (dequeue H queue) s.world (.ok next) w' →
      LifeStep H Q id m .claims s
        { s with world := w', phase := if next = some id then .claimed else s.phase }
  | loads {s : Life γ} {found : Option JobEnvelope} {w' : World γ} : s.phase = .claimed →
      Solo Reliable (loadPendingJob H id) s.world (.ok found) w' →
      LifeStep H Q id m .loads s { s with world := w', phase := found.elim .idle .loaded }
  | executes {s : Life γ} {before after : List JobEnvelope} {e : JobEnvelope} {w' : World γ} :
      s.phase = .loaded e → Others Q id (before ++ after) →
      FailingAttempt H m before e after s.world w' →
      LifeStep H Q id m (.executes (before ++ after)) s ⟨s.runs + 1, .idle, w'⟩

/-- Where the job is, by what is being done with it. -/
inductive Lives (H : Handle) (Q : Set String) (id : JobId) (queue : String) (m : UInt32) :
    Life γ → Prop
  /-- it waits on its ready list, or for its time -/
  | waits {n : ℕ} {w : World γ} {here : Key} : n ≤ m.toNat →
      (here = H.keys.namespaceQueue queue ∨ ∃ set : DelayedSet, here = set.key H.keys) →
      Found H.keys Q id queue n here w.store → Lives H Q id queue m ⟨n, .idle, w⟩
  /-- it is claimed -/
  | claimed {n : ℕ} {w : World γ} : n ≤ m.toNat →
      Found H.keys Q id queue n H.currentProcessingQueue w.store →
      Lives H Q id queue m ⟨n, .claimed, w⟩
  /-- what was loaded has the counter that is stored -/
  | loaded {n : ℕ} {e : JobEnvelope} {w : World γ} : n ≤ m.toNat → e.Counts id queue n →
      Found H.keys Q id queue n H.currentProcessingQueue w.store →
      Lives H Q id queue m ⟨n, .loaded e, w⟩
  /-- it is over -/
  | ended {w : World γ} : Vanished H.keys Q id w.store →
      Lives H Q id queue m ⟨m.toNat + 1, .idle, w⟩

section Life

variable {m : UInt32} {s s' : Life γ}

/-- What is stored of the job at any time: either it can be found with its retries, or it has been
executed for the last time. -/
theorem Lives.store (h : Lives H Q id queue m s) :
    (s.runs ≤ m.toNat ∧ ∃ here, Found H.keys Q id queue s.runs here s.world.store) ∨
      (s.runs = m.toNat + 1 ∧ Vanished H.keys Q id s.world.store) := by
  cases h with
  | waits hn _ h => exact .inl ⟨hn, _, h⟩
  | claimed hn h => exact .inl ⟨hn, _, h⟩
  | loaded hn _ h => exact .inl ⟨hn, _, h⟩
  | ended h => exact .inr ⟨rfl, h⟩

/-- At any time the keys have their types. -/
theorem Lives.sound (h : Lives H Q id queue m s) : Sound H.keys Q s.world.store := by
  rcases h.store with ⟨-, _, h⟩ | ⟨-, h⟩
  · exact h.sound
  · exact h.sound

/-- What is done elsewhere, about other jobs, changes nothing of the life of the job. -/
theorem Lives.elsewhere {w' : World γ} (h : Lives H Q id queue m s)
    (hsame : Elsewhere H.keys Q id s.world.store w'.store) :
    Lives H Q id queue m { s with world := w' } := by
  cases h with
  | waits hn hhere h => exact .waits hn hhere (hsame.found h)
  | claimed hn h => exact .claimed hn (hsame.found h)
  | loaded hn he h => exact .loaded hn he (hsame.found h)
  | ended h => exact .ended (hsame.vanished h)

/-- A promotion moves the job to its ready list if it is due, and leaves it alone otherwise. -/
theorem Lives.promotes {set : DelayedSet} {r : Except OxanaError Nat} {w' : World γ}
    (hQ : H.keys.Queues Q) (h : Lives H Q id queue m s)
    (hrun : Solo Reliable (enqueueScheduled H.keys (set.key H.keys)) s.world r w') :
    Lives H Q id queue m { s with world := w' } ∧
      w'.store.list H.keys.dead = s.world.store.list H.keys.dead := by
  obtain ⟨_, hiff⟩ := solo_enqueueScheduled hQ h.sound set
  obtain ⟨-, rfl⟩ := (hiff _ _).mp hrun
  refine ⟨?_, (h.sound.promotedAll hQ set _).2⟩
  by_cases hin : (s.world.store.zset (set.key H.keys)).lookup id = none
  · exact h.elsewhere (promotedAll_elsewhere hQ h.sound set hin _)
  · obtain ⟨score, hscore⟩ := Option.ne_none_iff_exists'.mp hin
    cases h with
    | @waits n w here hn _ hfound =>
      have hhere : here = set.key H.keys := by
        by_contra hne
        exact hin (hfound.not_delayed hne)
      subst hhere
      rcases hfound.promotedAll hQ hscore (dueJobs w.store (set.key H.keys) w.clock) with
        ⟨-, h⟩ | ⟨-, h⟩
      · exact .waits hn (.inl rfl) h
      · exact .waits hn (.inr ⟨set, rfl⟩) h
    | claimed _ hfound =>
      exact absurd (hfound.not_delayed (current_ne_delayed H set)) hin
    | loaded _ _ hfound =>
      exact absurd (hfound.not_delayed (current_ne_delayed H set)) hin
    | ended hover => exact absurd (hover.not_delayed set) hin

/-- A claim takes the job if it is the last of the list, and leaves it alone otherwise. -/
theorem Lives.claims {queue' : String} {next : Option JobId} {w' : World γ}
    (hQ : H.keys.Queues Q) (h : Lives H Q id queue m s) (hq : queue' ∈ Q)
    (hrun : Solo Reliable (dequeue H queue') s.world (.ok next) w') :
    Lives H Q id queue m
        { s with world := w', phase := if next = some id then .claimed else s.phase } ∧
      w'.store.list H.keys.dead = s.world.store.list H.keys.dead := by
  obtain ⟨hnext, rfl⟩ := (solo_dequeue_reliable (h.sound.ready hq)
    (h.sound.processing H.processId)).mp hrun
  refine ⟨?_, movedLast_dead hQ hq _⟩
  have hlast : next = (s.world.store.list (H.keys.namespaceQueue queue')).getLast? :=
    Except.ok.inj hnext
  by_cases hid : next = some id
  · rw [hid] at hlast
    rw [if_pos hid]
    -- then it waits there
    have hmem := List.mem_of_getLast? hlast.symm
    have hcount {n : ℕ} {here : Key} (hfound : Found H.keys Q id queue n here s.world.store) :
        here = H.keys.namespaceQueue queue' := by
      by_contra hne
      have hzero := (hfound.count_list (l := .ready queue') hq rfl).trans (if_neg hne)
      exact absurd hmem (List.count_eq_zero.mp hzero)
    cases h with
    | @waits n w here hn hhere hfound =>
      have hkey := hcount hfound
      have hready : H.keys.namespaceQueue queue' = H.keys.namespaceQueue queue := by
        rcases hhere with rfl | ⟨set, rfl⟩
        · exact hkey.symm
        · exact absurd hkey.symm ((hQ.apart queue' hq).delayed set)
      rw [hkey, hready] at hfound
      rw [hready] at hlast
      refine .claimed hn ?_
      simp only [movedLast, hready, ← hlast]
      exact hfound.claimed hQ hlast.symm
    | claimed _ hfound =>
      exact absurd (hcount hfound).symm ((hQ.apart queue' hq).processing H.processId)
    | loaded _ _ hfound =>
      exact absurd (hcount hfound).symm ((hQ.apart queue' hq).processing H.processId)
    | ended hover =>
      exact absurd hmem (List.count_eq_zero.mp (hover.count_list (l := .ready queue') hq rfl))
  · rw [if_neg hid]
    exact h.elsewhere (movedLast_elsewhere hQ h.sound hq (hlast ▸ hid))

/-- What is loaded of the claimed job has as many retries as the job has been executed. -/
theorem Lives.loads {found : Option JobEnvelope} {w' : World γ}
    (h : Lives H Q id queue m s) (hphase : s.phase = .claimed)
    (hrun : Solo Reliable (loadPendingJob H id) s.world (.ok found) w') :
    Lives H Q id queue m { s with world := w', phase := found.elim .idle .loaded } ∧
      w' = s.world := by
  cases h with
  | waits _ _ _ => cases hphase
  | loaded _ _ _ => cases hphase
  | ended _ => cases hphase
  | claimed hn hfound =>
    obtain ⟨e, he, hiff⟩ := solo_loadPendingJob hfound
    obtain ⟨hfound', rfl⟩ := (hiff _ _).mp hrun
    cases hfound'
    exact ⟨.loaded hn he hfound, rfl⟩

/-- What an execution leaves: one more run, and the job in the retry set or on the dead list. -/
theorem Lives.executes {before after : List JobEnvelope} {e : JobEnvelope} {w' : World γ}
    (hQ : H.keys.Queues Q) (h : Lives H Q id queue m s) (hphase : s.phase = .loaded e)
    (hothers : Others Q id (before ++ after))
    (hrun : FailingAttempt H m before e after s.world w') :
    Lives H Q id queue m ⟨s.runs + 1, .idle, w'⟩ ∧ s.runs ≤ m.toNat ∧
      Failed H Q id queue m s.runs (before ++ after) s.world.store w'.store := by
  cases h with
  | waits _ _ _ => cases hphase
  | claimed _ _ => cases hphase
  | ended _ => cases hphase
  | @loaded n e' w hn he hfound =>
    cases hphase
    have hfailed := hfound.attempt hQ he hothers hrun
    refine ⟨?_, hn, hfailed⟩
    rcases Nat.lt_or_eq_of_le hn with hlt | heq
    · exact .waits hlt (.inr ⟨.retry, rfl⟩) (hfailed.again hlt).1
    · show Lives H Q id queue m ⟨n + 1, .idle, w'⟩
      rw [heq]
      exact .ended (hfailed.ended heq.ge).1

/-- **One step.** The job stays where it can be found, and the dead list changes only when the job
is executed. -/
theorem LifeStep.lives {act : LifeAct} (hQ : H.keys.Queues Q) (h : Lives H Q id queue m s)
    (hstep : LifeStep H Q id m act s s') :
    Lives H Q id queue m s' ∧ (act ≠ .elsewhere → (∀ others, act ≠ .executes others) →
      s'.world.store.list H.keys.dead = s.world.store.list H.keys.dead) := by
  cases hstep with
  | elsewhere hsame => exact ⟨h.elsewhere hsame, fun hne => absurd rfl hne⟩
  | passes _ => exact ⟨h.elsewhere (.refl _), fun _ _ => rfl⟩
  | promotes hrun =>
    obtain ⟨hlives, hdead⟩ := h.promotes hQ hrun
    exact ⟨hlives, fun _ _ => hdead⟩
  | claims hq hrun =>
    obtain ⟨hlives, hdead⟩ := h.claims hQ hq hrun
    exact ⟨hlives, fun _ _ => hdead⟩
  | loads hphase hrun =>
    obtain ⟨hlives, rfl⟩ := h.loads hphase hrun
    exact ⟨hlives, fun _ _ => rfl⟩
  | executes hphase hothers hrun =>
    exact ⟨(h.executes hQ hphase hothers hrun).1, fun _ hne => absurd rfl (hne _)⟩

/-- **Runs.** Any number of steps keeps the job where it can be found. -/
theorem Lives.run (hQ : H.keys.Queues Q) (h : Lives H Q id queue m s)
    (hrun : Relation.ReflTransGen (fun s s' => ∃ act, LifeStep H Q id m act s s') s s') :
    Lives H Q id queue m s' := by
  induction hrun with
  | refl => exact h
  | tail _ hstep ih =>
    obtain ⟨act, hstep⟩ := hstep
    exact (hstep.lives hQ ih).1

/-! ### It goes on -/

/-- What the runtime can do with the job, step by step, when nothing else happens in the system. -/
def Continues (H : Handle) (Q : Set String) (id : JobId) (m : UInt32) : Life γ → Life γ → Prop :=
  Relation.ReflTransGen fun s s' => ∃ act, act ≠ .elsewhere ∧ LifeStep H Q id m act s s'

theorem Continues.run (h : Continues H Q id m s s') :
    Relation.ReflTransGen (fun s s' => ∃ act, LifeStep H Q id m act s s') s s' := by
  induction h with
  | refl => exact .refl
  | tail _ hstep ih =>
    obtain ⟨act, -, hstep⟩ := hstep
    exact ih.tail ⟨act, hstep⟩

theorem LifeStep.continues {act : LifeAct} (h : LifeStep H Q id m act s s')
    (hne : act ≠ .elsewhere) : Continues H Q id m s s' := .single ⟨act, hne, h⟩

/-- A job on its ready list is claimed once those before it have been claimed. -/
theorem ready_claimed (hQ : H.keys.Queues Q) {n : ℕ} {w : World γ}
    (h : Found H.keys Q id queue n (H.keys.namespaceQueue queue) w.store) :
    ∃ w', Continues H Q id m ⟨n, .idle, w⟩ ⟨n, .claimed, w'⟩ := by
  have hq := h.queue_mem
  -- by induction on the length of the list
  generalize hlength : (w.store.list (H.keys.namespaceQueue queue)).length = k
  induction k generalizing w with
  | zero =>
    have hcount := (h.count_list (l := .ready queue) hq rfl).trans (if_pos rfl)
    have hnil : w.store.list ((Loc.ready queue).key H.keys) = [] :=
      List.eq_nil_of_length_eq_zero hlength
    rw [hnil] at hcount
    cases hcount
  | succ k ih =>
    have hdequeue := (solo_dequeue_reliable (H := H) (w := w) (h.sound.ready hq)
      (h.sound.processing H.processId)).mpr ⟨rfl, rfl⟩
    have hstep : LifeStep H Q id m .claims ⟨n, .idle, w⟩ _ :=
      .claims (s := ⟨n, .idle, w⟩) hq hdequeue
    by_cases hlast : (w.store.list (H.keys.namespaceQueue queue)).getLast? = some id
    · rw [if_pos hlast] at hstep
      exact ⟨_, hstep.continues (by intro h; cases h)⟩
    · rw [if_neg hlast] at hstep
      -- another job is claimed, and the list gets shorter
      have hshorter : ((movedLast (H.keys.namespaceQueue queue) H.currentProcessingQueue
          w.store).list (H.keys.namespaceQueue queue)).length = k := by
        have hne : H.keys.namespaceQueue queue ≠ H.currentProcessingQueue :=
          (hQ.apart queue hq).processing H.processId
        rw [movedLast_length hne, hlength, Nat.add_sub_cancel]
      obtain ⟨w', hrest⟩ := ih (w := { w with store := movedLast _ _ w.store })
        ((movedLast_elsewhere hQ h.sound hq hlast).found h) hshorter
      exact ⟨w', (hstep.continues (by intro h; cases h)).trans hrest⟩

/-- A job in a delayed set is promoted once its time has come. -/
theorem delayed_ready (hQ : H.keys.Queues Q) {n : ℕ} {w : World γ} {set : DelayedSet}
    (h : Found H.keys Q id queue n (set.key H.keys) w.store) :
    ∃ w', Continues H Q id m ⟨n, .idle, w⟩ ⟨n, .idle, w'⟩ ∧
      Found H.keys Q id queue n (H.keys.namespaceQueue queue) w'.store := by
  obtain ⟨score, hscore⟩ := h.score
  -- it waits for its time
  have hpasses : LifeStep H Q id m .passes ⟨n, .idle, w⟩
      ⟨n, .idle, { w with clock := max w.clock score }⟩ :=
    .passes (s := ⟨n, .idle, w⟩) (le_max_left ..)
  obtain ⟨_, hiff⟩ :=
    solo_enqueueScheduled (w := { w with clock := max w.clock score }) hQ h.sound set
  have hpromotes : LifeStep H Q id m .promotes _ _ :=
    .promotes (s := ⟨n, .idle, { w with clock := max w.clock score }⟩) ((hiff _ _).mpr ⟨rfl, rfl⟩)
  refine ⟨_, (hpasses.continues ?_).trans (hpromotes.continues ?_), ?_⟩
  · intro h
    cases h
  · intro h
    cases h
  · have hdue : (id, score) ∈ dueJobs w.store (set.key H.keys) (max w.clock score) := by
      obtain ⟨l₁, l₂, hmem, -⟩ := List.lookup_eq_some_iff.mp hscore
      refine List.mem_filter.mpr ⟨?_, decide_eq_true ⟨h.dated set score hscore, le_max_right ..⟩⟩
      rw [hmem]
      exact List.mem_append_right _ List.mem_cons_self
    exact ((h.promotedAll hQ hscore _).resolve_right fun hno => hno.1 hdue).2

/-- A claimed job is loaded and executed, and the attempt fails. -/
theorem claimed_executed (hQ : H.keys.Queues Q) {n : ℕ} {w : World γ}
    (h : Lives H Q id queue m ⟨n, .claimed, w⟩) :
    ∃ s', Continues H Q id m ⟨n, .claimed, w⟩ s' ∧ s'.runs = n + 1 := by
  cases h with
  | claimed hn h =>
    obtain ⟨e, he, hiff⟩ := solo_loadPendingJob h
    have hloads : LifeStep H Q id m .loads ⟨n, .claimed, w⟩ ⟨n, .loaded e, w⟩ :=
      @LifeStep.loads _ H Q id m ⟨n, .claimed, w⟩ (some e) w rfl ((hiff _ _).mpr ⟨rfl, rfl⟩)
    obtain ⟨w', hrun⟩ := h.attempts hQ he m
    have hexecutes : LifeStep H Q id m (.executes ([] ++ [])) ⟨n, .loaded e, w⟩
        ⟨n + 1, .idle, w'⟩ :=
      .executes (s := ⟨n, .loaded e, w⟩) rfl (fun _ h => absurd h List.not_mem_nil) hrun
    refine ⟨_, (hloads.continues ?_).trans (hexecutes.continues ?_), rfl⟩
    · intro h
      cases h
    · intro h
      cases h

/-- As long as its retries are not used up, there is another execution. -/
theorem Lives.next (hQ : H.keys.Queues Q) (h : Lives H Q id queue m s) (hle : s.runs ≤ m.toNat) :
    ∃ s', Continues H Q id m s s' ∧ s'.runs = s.runs + 1 := by
  have hready {n : ℕ} {w : World γ} (hn : n ≤ m.toNat)
      (h : Found H.keys Q id queue n (H.keys.namespaceQueue queue) w.store) :
      ∃ s', Continues H Q id m ⟨n, .idle, w⟩ s' ∧ s'.runs = n + 1 := by
    obtain ⟨w', hclaim⟩ := ready_claimed (m := m) hQ h
    have hlives := (Lives.waits hn (.inl rfl) h).run hQ hclaim.run
    obtain ⟨s', hrest, hruns⟩ := claimed_executed hQ hlives
    exact ⟨s', hclaim.trans hrest, hruns⟩
  cases h with
  | waits hn hhere h =>
    rcases hhere with rfl | ⟨set, rfl⟩
    · exact hready hn h
    · obtain ⟨w', hpromote, h'⟩ := delayed_ready (m := m) hQ h
      obtain ⟨s', hrest, hruns⟩ := hready hn h'
      exact ⟨s', hpromote.trans hrest, hruns⟩
  | claimed hn h => exact claimed_executed hQ (.claimed hn h)
  | @loaded n e w hn he h =>
    obtain ⟨w', hrun⟩ := h.attempts hQ he m
    have hexecutes : LifeStep H Q id m (.executes ([] ++ [])) ⟨n, .loaded e, w⟩
        ⟨n + 1, .idle, w'⟩ :=
      .executes (s := ⟨n, .loaded e, w⟩) rfl (fun _ h => absurd h List.not_mem_nil) hrun
    exact ⟨_, hexecutes.continues (by intro h; cases h), rfl⟩
  | ended _ => exact absurd hle (Nat.not_succ_le_self _)

/-- The job is executed again and again, until it has been executed often enough. -/
theorem Lives.ends (hQ : H.keys.Queues Q) (h : Lives H Q id queue m s) :
    ∃ s', Continues H Q id m s s' ∧ s'.runs = m.toNat + 1 := by
  -- by induction on the executions that are left
  generalize hleft : m.toNat + 1 - s.runs = k
  induction k generalizing s with
  | zero =>
    rcases h.store with ⟨hle, -⟩ | ⟨heq, -⟩
    · omega
    · exact ⟨s, .refl, heq⟩
  | succ k ih =>
    obtain ⟨s₁, hone, hruns⟩ := h.next hQ (by omega)
    obtain ⟨s', hrest, hend⟩ := ih (h.run hQ hone.run) (by omega)
    exact ⟨s', hone.trans hrest, hend⟩

/-- **The retry lifecycle.** A job that has not been retried yet is on its ready list or in a
delayed set, and every attempt fails. In every state that is reached, it has been executed at most
one time more than it may be retried; if it may still be executed, its payload is there with the
number of failures as its counter, and it is at one place; otherwise nothing is left of it. An
execution leaves it in the retry set, and the last one with one entry in the dead list; nothing else
touches that list on its behalf. And it goes on until the last one. -/
theorem retry_lifecycle (hQ : H.keys.Queues Q) {w₀ : World γ} {here : Key}
    (hhere : here = H.keys.namespaceQueue queue ∨ ∃ set : DelayedSet, here = set.key H.keys)
    (hfresh : Found H.keys Q id queue 0 here w₀.store)
    (hrun : Relation.ReflTransGen (fun s s' => ∃ act, LifeStep H Q id m act s s')
      ⟨0, .idle, w₀⟩ s) :
    ((s.runs ≤ m.toNat ∧ ∃ here, Found H.keys Q id queue s.runs here s.world.store) ∨
      (s.runs = m.toNat + 1 ∧ Vanished H.keys Q id s.world.store)) ∧
    (∀ others s', LifeStep H Q id m (.executes others) s s' → s'.runs = s.runs + 1 ∧
      s.runs ≤ m.toNat ∧ Failed H Q id queue m s.runs others s.world.store s'.world.store ∧
      ∀ ps, EntriesOf others ps → ∀ p ∈ ps, ∀ e, JobEnvelope.decode p = some e → e.id ≠ id) ∧
    (∀ act s', act ≠ .elsewhere → (∀ others, act ≠ .executes others) →
      LifeStep H Q id m act s s' → s'.runs = s.runs ∧
        s'.world.store.list H.keys.dead = s.world.store.list H.keys.dead) ∧
    ∃ s', Continues H Q id m s s' ∧ s'.runs = m.toNat + 1 := by
  have hlives := (Lives.waits (Nat.zero_le _) hhere hfresh).run hQ hrun
  refine ⟨hlives.store, fun others s' hstep => ?_, fun act s' helse hexec hstep => ?_,
    hlives.ends hQ⟩
  · cases hstep with
    | executes hphase hothers hrun =>
      obtain ⟨-, hruns, hfailed⟩ := hlives.executes hQ hphase hothers hrun
      exact ⟨rfl, hruns, hfailed, fun ps hps => hps.not_entry fun e he => (hothers e he).1⟩
  · refine ⟨?_, (hstep.lives hQ hlives).2 helse hexec⟩
    cases hstep with
    | elsewhere _ => rfl
    | passes _ => rfl
    | promotes _ => rfl
    | claims _ _ => rfl
    | loads _ _ => rfl
    | executes _ _ _ => exact absurd rfl (hexec _)

end Life

/-! ### A job that may be retried twice -/

/-- The queue it is on, and the one without a name. -/
def mailQueues : Set String := fun q => q = "" ∨ q = "mail"

theorem mailQueues_apart : saving.keys.Queues mailQueues := by
  refine ⟨fun q hq => ?_, .inl rfl⟩
  rcases hq with rfl | rfl
  · exact StorageKeys.plain_empty.apart
  · exact StorageKeys.Plain.apart (by decide +kernel)

/-- The world in which the job of the sample has been enqueued. -/
def enqueuedMail : World Unit :=
  ⟨(Store.empty.put saving.keys.jobs (.hash (setField mail.id mail.encode []))).put
    (saving.keys.namespaceQueue "mail") (.list [mail.id]), 10, ()⟩

theorem enqueuedMail_found : Found saving.keys mailQueues mail.id "mail" 0
    (saving.keys.namespaceQueue "mail") enqueuedMail.store :=
  vanished_empty.enqueued (e := mail) mailQueues_apart ⟨rfl, rfl, rfl⟩ (.inr rfl)

/-- The sample job fails every time, and may be retried twice: it is executed three times, and is
then at no place. -/
theorem mail_lifecycle : ∃ s', Continues saving mailQueues mail.id 2 ⟨0, .idle, enqueuedMail⟩ s' ∧
    s'.runs = 3 :=
  (retry_lifecycle mailQueues_apart (.inl rfl) enqueuedMail_found .refl).2.2.2

end Oxana
