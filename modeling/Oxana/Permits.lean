import Mathlib.Data.Finset.Card
import Mathlib.Logic.Function.Basic
import Mathlib.Logic.Relation
import Oxana.QueueConfig

/-!
# Concurrency permits

A dispatcher needs a permit of its queue before it claims a job. A task that
finds none waits to be notified: it takes a ticket, looks once more at the state
under its lock and, if that is of no use, waits for the ticket. Whoever changes
the state notifies all tickets there are after it has released the lock. Between
any two of these steps other tasks may take theirs.

`permits_exact` says that nothing goes wrong: permits are counted exactly, none
is granted beyond the limit in force, and nobody waits in vain.
-/

namespace Oxana

/-! ## Notifications -/

/-- `Notify`, as far as `notify_waiters` is concerned: how often it was called. -/
structure Notify where
  /-- how often -/
  calls : ℕ := 0

/-- A ticket: how often `notify_waiters` had been called when it was taken. -/
abbrev Notified := ℕ

namespace Notify

/-- `Notify::notified`: a ticket is taken, which counts the calls so far. -/
def notified (n : Notify) : Notified := n.calls

/-- `Notify::notify_waiters`: everyone who has a ticket is notified. -/
def notifyWaiters (n : Notify) : Notify := ⟨n.calls + 1⟩

/-- The ticket has been notified since it was taken: there was a call of `notify_waiters` after it.
-/
def Ready (n : Notify) (t : Notified) : Prop := t < n.calls

/-- The ticket was taken at some time in the past. -/
def Taken (n : Notify) (t : Notified) : Prop := t ≤ n.calls

variable {n : Notify} {t : Notified}

theorem taken_notified : n.Taken n.notified := le_refl n.calls

theorem Taken.notify (h : n.Taken t) : n.notifyWaiters.Taken t := Nat.le_succ_of_le h

/-- A notification of the waiters reaches every ticket that has been taken before it. -/
theorem Taken.ready (h : n.Taken t) : n.notifyWaiters.Ready t := Nat.lt_succ_of_le h

/-- A ticket that has been notified stays notified when others are. -/
theorem Ready.notify (h : n.Ready t) : n.notifyWaiters.Ready t := Nat.lt_succ_of_lt h

end Notify

/-! ## The control of a queue -/

/-- Where a task is in `acquire`, from when it begins to when it has a permit. -/
inductive Waiter where
  /-- it does not want a permit -/
  | away
  /-- it is about to take a ticket -/
  | entering
  /-- it has one and is about to look at the state -/
  | ticketed (t : Notified)
  /-- it has looked in vain -/
  | parked (t : Notified)
  deriving DecidableEq

/-- `QueueControlState`: what is kept under the lock. -/
structure QueueControlState where
  /-- the limit -/
  concurrency : UInt64
  /-- how many permits are out -/
  active : ℕ
  /-- whether the queue is paused -/
  queueState : QueueState

namespace QueueControlState

variable (s : QueueControlState)

/-- There is a permit: the queue is active, and fewer are out than it allows. -/
def Available : Prop := s.queueState.isActive = true ∧ s.active < s.concurrency.toNat

instance : Decidable s.Available := inferInstanceAs (Decidable (_ ∧ _))

/-- The state with one permit more that is out. -/
def grant : QueueControlState := { s with active := s.active + 1 }

/-- `release`, under the lock: a saturating subtraction. -/
def release : QueueControlState := { s with active := s.active - 1 }

/-- `apply_config`, under the lock: the limit and the state of the queue are set. -/
def applyConfig (config : QueueRuntimeConfig) : QueueControlState :=
  { s with concurrency := config.concurrency.getD s.concurrency, queueState := config.state }

end QueueControlState

/-- `QueueControl`, and the tasks that use it. -/
structure QueueControl where
  /-- the state under the lock -/
  state : QueueControlState
  /-- the notifications -/
  notify : Notify
  /-- where the tasks are -/
  waiter : ℕ → Waiter
  /-- the permits that are out, by number -/
  permits : Finset ℕ
  /-- how many were granted so far -/
  granted : ℕ
  /-- how many tasks have released the lock and are about to notify -/
  notifying : ℕ

namespace QueueControl

/-- `QueueControl::new`: no permit is out, and no task waits. -/
def new (config : QueueRuntimeConfig) : QueueControl :=
  ⟨⟨config.concurrency.getD 1, 0, config.state⟩, {}, fun _ => .away, ∅, 0, 0⟩

/-- One task goes on to another place. -/
def goes (c : QueueControl) (i : ℕ) (w : Waiter) : QueueControl :=
  { c with waiter := Function.update c.waiter i w }

/-- A permit is handed out, which is counted. -/
def grant (c : QueueControl) : QueueControl :=
  { c with
    state := c.state.grant
    permits := insert c.granted c.permits
    granted := c.granted + 1 }

/-- A step of some task that acquires or drops a permit, or of whoever changes the configuration, in
any order. -/
inductive Step : QueueControl → QueueControl → Prop
  /-- a task calls `acquire` -/
  | acquires {c : QueueControl} {i : ℕ} : c.waiter i = .away → Step c (c.goes i .entering)
  /-- takes a ticket -/
  | tickets {c : QueueControl} {i : ℕ} : c.waiter i = .entering →
      Step c (c.goes i (.ticketed c.notify.notified))
  /-- gets a permit -/
  | grants {c : QueueControl} {i : ℕ} {t : Notified} : c.waiter i = .ticketed t →
      c.state.Available → Step c (c.grant.goes i .away)
  /-- gets none -/
  | parks {c : QueueControl} {i : ℕ} {t : Notified} : c.waiter i = .ticketed t →
      ¬ c.state.Available → Step c (c.goes i (.parked t))
  /-- is notified and tries again -/
  | wakes {c : QueueControl} {i : ℕ} {t : Notified} : c.waiter i = .parked t →
      c.notify.Ready t → Step c (c.goes i .entering)
  /-- gives up, wherever it is -/
  | leaves {c : QueueControl} {i : ℕ} : Step c (c.goes i .away)
  /-- a permit is dropped -/
  | drops {c : QueueControl} {p : ℕ} : p ∈ c.permits →
      Step c { c with
        state := c.state.release, permits := c.permits.erase p, notifying := c.notifying + 1 }
  /-- a configuration is applied -/
  | applies {c : QueueControl} (config : QueueRuntimeConfig) :
      Step c { c with state := c.state.applyConfig config, notifying := c.notifying + 1 }
  /-- whoever has changed the state notifies -/
  | notifies {c : QueueControl} {n : ℕ} : c.notifying = n + 1 →
      Step c { c with notify := c.notify.notifyWaiters, notifying := n }

/-! ## The invariant -/

variable {c c' : QueueControl}

/-- The task will be woken up, or its ticket has been notified already. -/
def Pending (c : QueueControl) (t : Notified) : Prop := c.notify.Ready t ∨ 0 < c.notifying

/-- Permits are counted, and nobody waits in vain. -/
structure Exact (c : QueueControl) : Prop where
  /-- the count is right -/
  active : c.state.active = c.permits.card
  /-- the next number is new -/
  fresh : ∀ p ∈ c.permits, p < c.granted
  /-- tickets are of the past -/
  ticketed : ∀ i t, c.waiter i = .ticketed t → c.notify.Taken t
  /-- those of waiting tasks, too -/
  parked : ∀ i t, c.waiter i = .parked t → c.notify.Taken t
  /-- a task that waits for a permit that is there will be woken up -/
  woken : ∀ i t, c.waiter i = .parked t → c.state.Available → c.Pending t

/-- In the beginning no permit is out, and no task waits. -/
theorem exact_new (config : QueueRuntimeConfig) : (new config).Exact :=
  ⟨rfl, fun _ h => absurd h (Finset.notMem_empty _), fun _ _ h => (nomatch h),
    fun _ _ h => (nomatch h), fun _ _ h => (nomatch h)⟩

/-- When one task goes on, every other task is where it was. -/
theorem goes_waiter {i j : ℕ} {w w' : Waiter} (h : (c.goes i w).waiter j = w') :
    (j = i ∧ w = w') ∨ c.waiter j = w' := by
  replace h : Function.update c.waiter i w j = w' := h
  by_cases hij : j = i
  · rw [hij, Function.update_self] at h
    exact .inl ⟨hij, h⟩
  · rw [Function.update_of_ne hij] at h
    exact .inr h

/-- A task that goes on without waiting for anything keeps the permits exact. -/
theorem Exact.goes (h : c.Exact) {w : Waiter} (hw : w = .away ∨ w = .entering) (i : ℕ) :
    (c.goes i w).Exact := by
  have hold : ∀ {j t w'}, w' = .ticketed t ∨ w' = .parked t → (c.goes i w).waiter j = w' →
      c.waiter j = w' := by
    intro j t w' hw' hj
    rcases goes_waiter hj with ⟨-, rfl⟩ | hj
    · rcases hw with rfl | rfl
      · rcases hw' with hw' | hw'
        · cases hw'
        · cases hw'
      · rcases hw' with hw' | hw'
        · cases hw'
        · cases hw'
    · exact hj
  exact ⟨h.active, h.fresh, fun j t hj => h.ticketed j t (hold (.inl rfl) hj),
    fun j t hj => h.parked j t (hold (.inr rfl) hj),
    fun j t hj => h.woken j t (hold (.inr rfl) hj)⟩

/-- When a permit is handed out, nobody has to be woken up for that, since there is one less. -/
theorem Exact.grant (h : c.Exact) : c.grant.Exact := by
  have hnew : c.granted ∉ c.permits := fun hp => lt_irrefl _ (h.fresh _ hp)
  refine ⟨?_, fun p hp => ?_, h.ticketed, h.parked, fun i t hi hav => ?_⟩
  · show c.state.active + 1 = (insert c.granted c.permits).card
    rw [Finset.card_insert_of_notMem hnew, h.active]
  · rcases Finset.mem_insert.mp hp with rfl | hp
    · exact Nat.lt_succ_self _
    · exact Nat.lt_succ_of_lt (h.fresh p hp)
  · -- there was a permit before
    have hbefore : c.state.Available := ⟨hav.1, (Nat.lt_succ_self _).trans hav.2⟩
    exact h.woken i t hi hbefore

/-- **Every step** keeps the invariant, whatever task or setting it is of. -/
theorem Exact.step (h : c.Exact) (hstep : Step c c') : c'.Exact := by
  cases hstep with
  | acquires _ => exact h.goes (.inr rfl) _
  | tickets _ =>
    refine ⟨h.active, h.fresh, fun j t hj => ?_, fun j t hj => ?_, fun j t hj hav => ?_⟩
    · rcases goes_waiter hj with ⟨-, ht⟩ | hj
      · cases ht
        exact Notify.taken_notified
      · exact h.ticketed j t hj
    · rcases goes_waiter hj with ⟨-, ht⟩ | hj
      · cases ht
      · exact h.parked j t hj
    · rcases goes_waiter hj with ⟨-, ht⟩ | hj
      · cases ht
      · exact h.woken j t hj hav
  | grants _ _ => exact h.grant.goes (.inl rfl) _
  | parks hi hnone =>
    refine ⟨h.active, h.fresh, fun j t hj => ?_, fun j t hj => ?_, fun j t hj hav => ?_⟩
    · rcases goes_waiter hj with ⟨-, ht⟩ | hj
      · cases ht
      · exact h.ticketed j t hj
    · rcases goes_waiter hj with ⟨-, ht⟩ | hj
      · cases ht
        exact h.ticketed _ _ hi
      · exact h.parked j t hj
    · exact absurd hav hnone
  | wakes _ _ => exact h.goes (.inr rfl) _
  | leaves => exact h.goes (.inl rfl) _
  | drops hp =>
    refine ⟨?_, fun q hq => h.fresh q (Finset.mem_of_mem_erase hq), h.ticketed, h.parked,
      fun _ _ _ _ => .inr (Nat.succ_pos _)⟩
    show c.state.active - 1 = (c.permits.erase _).card
    rw [Finset.card_erase_of_mem hp, h.active]
  | applies config =>
    exact ⟨h.active, h.fresh, h.ticketed, h.parked, fun _ _ _ _ => .inr (Nat.succ_pos _)⟩
  | notifies _ =>
    exact ⟨h.active, h.fresh, fun i t hi => (h.ticketed i t hi).notify,
      fun i t hi => (h.parked i t hi).notify, fun i t hi _ => .inl (h.parked i t hi).ready⟩

/-! ## Runs -/

/-- A step that is taken while there is no permit. -/
def IdleStep (c c' : QueueControl) : Prop := Step c c' ∧ ¬ c.state.Available

/-- A step grants at most one permit, and only when there is one. -/
theorem Step.granted (h : Step c c') :
    c'.granted = c.granted ∨ c'.granted = c.granted + 1 ∧ c.state.Available := by
  cases h with
  | grants _ hav => exact .inr ⟨rfl, hav⟩
  | _ => exact .inl rfl

/-- A task that waits for a permit that is there can be brought to look again: its ticket has been
notified. -/
theorem Exact.wakes (h : c.Exact) {i : ℕ} {t : Notified} (hi : c.waiter i = .parked t)
    (hav : c.state.Available) :
    ∃ c', Relation.ReflTransGen Step c c' ∧ c'.state = c.state ∧ c'.waiter i = .entering := by
  have hready : ∀ c₁ : QueueControl, c₁.waiter i = .parked t → c₁.notify.Ready t →
      ∃ c', Step c₁ c' ∧ c'.state = c₁.state ∧ c'.waiter i = .entering :=
    fun c₁ hi₁ ht => ⟨_, .wakes hi₁ ht, rfl, Function.update_self ..⟩
  rcases h.woken i t hi hav with ht | hn
  · obtain ⟨c', hstep, hstate, hw⟩ := hready c hi ht
    exact ⟨c', .single hstep, hstate, hw⟩
  · obtain ⟨n, hn⟩ := Nat.exists_eq_succ_of_ne_zero (Nat.pos_iff_ne_zero.mp hn)
    obtain ⟨c', hstep, hstate, hw⟩ :=
      hready { c with notify := c.notify.notifyWaiters, notifying := n } hi (h.parked i t hi).ready
    exact ⟨c', .head (.notifies hn) (.single hstep), hstate, hw⟩

/-- **Permits are exact**: whatever the tasks do, the count is the number of
permits that are out, and there is one to give back when one is dropped; a
permit is granted only when the queue is active and the count is below the
limit in force, so none as long as that is not so; and a task that waits for a
permit that is there has been notified, or will be. -/
theorem permits_exact {config : QueueRuntimeConfig}
    (h : Relation.ReflTransGen Step (new config) c) :
    (c.state.active = c.permits.card ∧ ∀ p ∈ c.permits, 0 < c.state.active) ∧
    (∀ c', Step c c' → c'.granted ≠ c.granted →
      c.state.queueState.isActive = true ∧ c.state.active < c.state.concurrency.toNat) ∧
    (∀ c', Relation.ReflTransGen IdleStep c c' → c'.granted = c.granted) ∧
    (∀ i t, c.waiter i = .parked t → c.state.Available →
      c.Pending t ∧ ∃ c', Relation.ReflTransGen Step c c' ∧ c'.state = c.state ∧
        c'.waiter i = .entering) := by
  have hexact : c.Exact := by
    induction h with
    | refl => exact exact_new config
    | tail _ hstep ih => exact ih.step hstep
  refine ⟨⟨hexact.active, fun p hp => ?_⟩, fun c' hstep hne => ?_, fun c' hrun => ?_,
    fun i t hi hav => ⟨hexact.woken i t hi hav, hexact.wakes hi hav⟩⟩
  · rw [hexact.active]
    exact Finset.card_pos.mpr ⟨p, hp⟩
  · rcases hstep.granted with heq | ⟨-, hav⟩
    · exact absurd heq hne
    · exact hav
  · induction hrun with
    | refl => rfl
    | tail _ hstep ih =>
      rcases hstep.1.granted with heq | ⟨-, hav⟩
      · exact heq.trans ih
      · exact absurd hav hstep.2

/-- A queue that is paused is resumed: no permit is out, one is there, and the task that waits has
been notified, so it is about to look again. -/
theorem resumed_exact : ∃ c : QueueControl,
    Relation.ReflTransGen Step (new ⟨some 1, .paused⟩) c ∧ c.waiter 0 = .parked 0 ∧
      c.state.Available ∧ c.Pending 0 := by
  have h₁ := Relation.ReflTransGen.single (Step.acquires (c := new ⟨some 1, .paused⟩) (i := 0) rfl)
  have h₂ := h₁.tail (.tickets (i := 0) rfl)
  have h₃ := h₂.tail (.parks (i := 0) rfl (by decide))
  have h₄ := h₃.tail (.applies (.new 1))
  have hav : (QueueControlState.applyConfig ⟨1, 0, .paused⟩ (.new 1)).Available := by decide
  exact ⟨_, h₄, rfl, hav, ((permits_exact h₄).2.2.2 0 0 rfl hav).1⟩

end QueueControl

end Oxana
