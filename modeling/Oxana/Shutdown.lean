import Oxana.Storage
import Mathlib.Algebra.Order.Group.Multiset
import Mathlib.Logic.Relation
import Mathlib.Tactic.Abel

/-!
# Shutting down

`launcher::run` from the moment its tasks are started. It waits for the first of them to end, for a
failure or for a signal; then it stops everything in order: coordinators, loops, the futures tracked
by the runtime, the heartbeat, and last the registration. If that takes too long, it aborts them, in
the same order, and leaves the registration alone.

The tasks are what the launcher sees of them: they end with a result, fail the runtime, and start
futures of their own. A client that waits is one that is not scheduled.

* `heartbeats_outlive_executions`: as long as anything may be executing, the heartbeat has not been
  told to stop.
* `run_tells`: what is returned says whether anything failed.
-/

namespace Oxana

/-! ## The launcher -/

/-- The `JoinSet`s of the launcher, by what their tasks do. -/
inductive TaskGroup where
  | coordinators
  /-- of retries, schedules, recoveries, cron jobs and cleanups -/
  | loops
  /-- the heartbeat -/
  | ping
  deriving DecidableEq

/-- How a task of a set ends. -/
inductive TaskEnd where
  /-- it returns, or panics -/
  | result (r : Except OxanaError Unit)
  | aborted

/-- `JoinSet`: how many tasks run, and the results that nobody has taken. -/
structure TaskSet where
  /-- how many are running -/
  live : ℕ
  /-- the results nobody has taken -/
  ended : List TaskEnd := []
  /-- `abort_all` has been called -/
  aborting : Bool := false

/-- What `launcher::run` returns in the end, if not its statistics. -/
inductive ShutdownError where
  | failure (error : OxanaError)
  | shutdownTimeout

/-- Where the launcher is in its shutdown. -/
inductive LauncherPhase where
  /-- the launcher waits in its first `select!` for a result, a cancellation or a signal -/
  | running
  /-- it shuts down and takes the results of the tasks of this set, one after the other -/
  | draining (g : TaskGroup)
  /-- it shuts down and waits until no future is tracked any more -/
  | drainingTracked
  /-- it runs `self_cleanup`, the last thing to be done before it returns -/
  | cleaningUp
  /-- the deadline has passed, the tasks of this set have been aborted, and it takes their results
  -/
  | forcing (g : TaskGroup)
  /-- the deadline has passed, and it waits for the tracked futures, which have been cancelled -/
  | forcingTracked
  | returned (error : Option ShutdownError)

/-- How far the launcher and its tasks have come. -/
structure Stage where
  phase : LauncherPhase := .running
  /-- `force_cancel_token` -/
  forceCancelled : Bool := false
  /-- `ping_cancel_token` -/
  pingCancelled : Bool := false
  sets : TaskGroup → TaskSet
  /-- how many futures `tasks` tracks -/
  tracked : ℕ := 0

namespace Stage

variable (s : Stage)

/-- The stage in which a set has been written. -/
def put (g : TaskGroup) (t : TaskSet) : Stage := { s with sets := Function.update s.sets g t }

theorem put_sets (g : TaskGroup) (t : TaskSet) (g' : TaskGroup) :
    (s.put g t).sets g' = if g' = g then t else s.sets g' := Function.update_apply ..

/-- The stage once a task of the set has ended. -/
def endTask (g : TaskGroup) (x : TaskEnd) : Stage :=
  let t := s.sets g
  s.put g { t with live := t.live - 1, ended := t.ended ++ [x] }

/-- `join_next`: a result is taken out of the set. -/
def take (g : TaskGroup) (left : List TaskEnd) : Stage := s.put g { s.sets g with ended := left }

/-- `abort_all`: every task of the set that runs is to be aborted. -/
def abortAll (g : TaskGroup) : Stage :=
  let t := s.sets g
  s.put g { t with aborting := true }

/-- The launcher goes on to another phase. -/
def go (phase : LauncherPhase) : Stage := { s with phase := phase }

/-- The heartbeat is told to stop. -/
def cancelPing : Stage := { s with pingCancelled := true }

/-- The deadline has passed: the coordinators are aborted first. -/
def timeOut : Stage :=
  { (s.abortAll .coordinators).go (.forcing .coordinators) with forceCancelled := true }

/-- The set of tasks is joined: all its results have been taken, and no task of it runs that could
give another. -/
def Joined (g : TaskGroup) : Prop := (s.sets g).live = 0 ∧ (s.sets g).ended = []

/-- Somebody is left who executes a job, or may start to. -/
def Busy : Prop := 0 < s.tracked ∨ 0 < (s.sets .coordinators).live ∨ 0 < (s.sets .loops).live

end Stage

/-- What the launcher and its tasks share, with what has happened. -/
structure Launcher extends Stage where
  /-- `cancel_token` -/
  cancelled : Bool := false
  /-- `shutdown_error` -/
  shutdownError : Option OxanaError := none
  /-- bookkeeping of the proofs: the errors that have been recorded, the latest last -/
  recorded : List OxanaError := []
  /-- bookkeeping of the proofs: the errors that have happened, recorded or not, the latest last -/
  happened : List OxanaError := []
  /-- bookkeeping of the proofs: the error with which the heartbeat ended, if it failed -/
  pingError : Option OxanaError := none

namespace Launcher

/-- The tasks have been started; `queues` is how many queues are selected. -/
def start (queues : ℕ) : Launcher where
  sets
    | .coordinators => { live := queues }
    | .loops => { live := 5 }
    | .ping => { live := 1 }

variable (s : Launcher)

/-- `Runtime::fail`: the first error is kept, every error is recorded here, and everything is told
to stop. -/
def fail (error : OxanaError) : Launcher :=
  { s with
    shutdownError := s.shutdownError.or (some error)
    cancelled := true
    recorded := s.recorded ++ [error] }

/-- There is an error, of the heartbeat or another task. -/
def happens (error : OxanaError) (ping : Bool) : Launcher :=
  { s with
    happened := s.happened ++ [error]
    pingError := if ping then some error else s.pingError }

/-- `record_task_result`: the error of a result is recorded, and being aborted counts as one. -/
def recordTaskResult : TaskEnd → Launcher
  | .result (.ok _) => s
  | .result (.error e) => s.fail e
  | .aborted => s.fail .generic

/-- `abort_and_join` takes a result: here being aborted is no error. -/
def joinAborted : TaskEnd → Launcher
  | .aborted => s
  | x => s.recordTaskResult x

/-- The tasks or the launcher go on to another stage. -/
def moved (stage : Stage) : Launcher := { s with toStage := stage }

/-- A task of the set ends with this result, which is an error that has happened or none. -/
def endWith (g : TaskGroup) : Except OxanaError Unit → Launcher
  | .ok u => s.moved (s.endTask g (.result (.ok u)))
  | .error e => (s.moved (s.endTask g (.result (.error e)))).happens e (g = .ping)

/-- What follows the first `select!`: the shutdown begins. -/
def beginShutdown : Launcher := { s.moved (s.go (.draining .coordinators)) with cancelled := true }

/-- The phase after a set has been drained. -/
def nextDraining : TaskGroup → LauncherPhase
  | .coordinators => .draining .loops
  | .loops => .drainingTracked
  | .ping => .cleaningUp

/-- The last part of `launcher::run`: what has been recorded is returned. -/
def finish : Launcher :=
  { s.moved (s.go (.returned ((s.shutdownError.map .failure).or
      (if s.forceCancelled then some .shutdownTimeout else none)))) with shutdownError := none }

/-- What follows after a set has been aborted. -/
def nextForcing : TaskGroup → Launcher
  | .coordinators => s.moved ((s.abortAll .loops).go (.forcing .loops))
  | .loops => s.moved (s.go .forcingTracked)
  | .ping => s.finish

end Launcher

/-! ## Steps -/

/-- What may happen next in a launcher and its tasks, in any order; `deadline` says whether the
shutdown has one. -/
inductive LauncherStep (deadline : Bool) : Launcher → Launcher → Prop
  /-- a task returns; the heartbeat only stops by itself when it is told to -/
  | ends {s : Launcher} (g : TaskGroup) (r : Except OxanaError Unit) : 0 < (s.sets g).live →
      (g = .ping → r = .ok () → s.pingCancelled = true) → LauncherStep deadline s (s.endWith g r)
  | aborts {s : Launcher} (g : TaskGroup) : 0 < (s.sets g).live → (s.sets g).aborting = true →
      LauncherStep deadline s (s.moved (s.endTask g .aborted))
  /-- a task fails the runtime -/
  | fails {s : Launcher} (e : OxanaError) : s.Busy →
      LauncherStep deadline s ((s.happens e false).fail e)
  | tracks {s : Launcher} : s.Busy → LauncherStep deadline s { s with tracked := s.tracked + 1 }
  | untracks {s : Launcher} : 0 < s.tracked →
      LauncherStep deadline s { s with tracked := s.tracked - 1 }
  /-- the first `select!` takes the result of a task, and the shutdown begins -/
  | selects {s : Launcher} (g : TaskGroup) {before after : List TaskEnd} {x : TaskEnd} :
      s.phase = .running → (s.sets g).ended = before ++ x :: after →
      LauncherStep deadline s (((s.moved (s.take g (before ++ after))).recordTaskResult x).beginShutdown)
  /-- the first `select!` is left because everything is cancelled or because of a signal -/
  | stops {s : Launcher} : s.phase = .running → LauncherStep deadline s s.beginShutdown
  | joins {s : Launcher} (g : TaskGroup) {before after : List TaskEnd} {x : TaskEnd} :
      s.phase = .draining g → (s.sets g).ended = before ++ x :: after →
      LauncherStep deadline s ((s.moved (s.take g (before ++ after))).recordTaskResult x)
  | drained {s : Launcher} (g : TaskGroup) : s.phase = .draining g → s.Joined g →
      LauncherStep deadline s (s.moved (s.go (Launcher.nextDraining g)))
  | waited {s : Launcher} : s.phase = .drainingTracked → s.tracked = 0 →
      LauncherStep deadline s (s.moved (s.cancelPing.go (.draining .ping)))
  | cleans {s : Launcher} : s.phase = .cleaningUp → LauncherStep deadline s s.finish
  | cleansNot {s : Launcher} (e : OxanaError) : s.phase = .cleaningUp →
      LauncherStep deadline s ((s.happens e false).fail e).finish
  | timesOut {s : Launcher} : deadline = true →
      (s.phase = .drainingTracked ∨ s.phase = .cleaningUp ∨ ∃ g, s.phase = .draining g) →
      LauncherStep deadline s (s.moved s.timeOut)
  | joinsAborted {s : Launcher} (g : TaskGroup) {before after : List TaskEnd} {x : TaskEnd} :
      s.phase = .forcing g → (s.sets g).ended = before ++ x :: after →
      LauncherStep deadline s ((s.moved (s.take g (before ++ after))).joinAborted x)
  | forced {s : Launcher} (g : TaskGroup) : s.phase = .forcing g → s.Joined g →
      LauncherStep deadline s (s.nextForcing g)
  | forcedWaited {s : Launcher} : s.phase = .forcingTracked → s.tracked = 0 →
      LauncherStep deadline s (s.moved ((s.cancelPing.abortAll .ping).go (.forcing .ping)))

/-! ## The order of things -/

/-- The sets whose results have all been taken in a phase. -/
def LauncherPhase.Past : LauncherPhase → TaskGroup → Prop
  | .draining .loops, g | .forcing .loops, g => g = .coordinators
  | .drainingTracked, g | .draining .ping, g | .forcingTracked, g | .forcing .ping, g => g ≠ .ping
  | .cleaningUp, _ | .returned _, _ => True
  | _, _ => False

/-- The phases in which the tracked futures are gone. -/
def LauncherPhase.Waited : LauncherPhase → Prop
  | .draining .ping | .cleaningUp | .forcing .ping | .returned _ => True
  | _ => False

/-- The phases in which something is being aborted. -/
def LauncherPhase.Forced : LauncherPhase → Prop
  | .forcing _ | .forcingTracked => True
  | _ => False

/-- What holds of the stage at all times. -/
structure Stage.Orderly (s : Stage) : Prop where
  /-- the heartbeat is told to stop when nothing may be executing any more -/
  quiet : s.pingCancelled = true → ¬ s.Busy
  past : ∀ g, s.phase.Past g → s.Joined g
  waited : s.phase.Waited → s.pingCancelled = true
  /-- tasks are aborted after the deadline only, the heartbeat last -/
  forced : s.phase.Forced → s.forceCancelled = true
  unforced : s.forceCancelled = true → s.phase.Forced ∨ ∃ error, s.phase = .returned error
  aborting : ∀ g, (s.sets g).aborting = true → s.forceCancelled = true
  ping : (s.sets .ping).aborting = true → s.pingCancelled = true
  aborted : ∀ g, .aborted ∈ (s.sets g).ended → (s.sets g).aborting = true

namespace Stage.Orderly

variable {s : Stage}

/-- A set of tasks is written: everything is in order if the set is as its phase wants it. -/
theorem put (hs : s.Orderly) {g : TaskGroup} {t : TaskSet} (hlive : t.live ≤ (s.sets g).live)
    (hpast : s.phase.Past g → t.live = 0 ∧ t.ended = [])
    (haborting : t.aborting = true → s.forceCancelled = true)
    (hping : g = .ping → t.aborting = true → s.pingCancelled = true)
    (haborted : .aborted ∈ t.ended → t.aborting = true) : (s.put g t).Orderly where
  quiet hp hbusy := by
    have hle (g' : TaskGroup) : ((s.put g t).sets g').live ≤ (s.sets g').live := by
      rw [put_sets]
      split
      · next h => rwa [h]
      · exact le_rfl
    refine hs.quiet hp (hbusy.imp_right (Or.imp ?_ ?_))
    · exact fun h => h.trans_le (hle _)
    · exact fun h => h.trans_le (hle _)
  past g' hg' := by
    rw [Joined, put_sets]
    split
    · next h => exact hpast (h ▸ hg')
    · exact hs.past g' hg'
  waited := hs.waited
  forced := hs.forced
  unforced := hs.unforced
  aborting g' := by
    rw [put_sets]
    split
    · exact haborting
    · exact hs.aborting g'
  ping := by
    rw [put_sets]
    split
    · next h => exact hping h.symm
    · exact hs.ping
  aborted g' := by
    rw [put_sets]
    split
    · exact haborted
    · exact hs.aborted g'

theorem endTask (hs : s.Orderly) {g : TaskGroup} {x : TaskEnd} (hlive : 0 < (s.sets g).live)
    (hx : x = .aborted → (s.sets g).aborting = true) : (s.endTask g x).Orderly := by
  refine hs.put (Nat.sub_le _ _) (fun h => ?_) (hs.aborting g) (fun h => ?_) fun h => ?_
  · exact absurd (hs.past g h).1 hlive.ne'
  · subst h
    exact hs.ping
  · rcases List.mem_append.mp h with h | h
    · exact hs.aborted g h
    · exact hx (List.mem_singleton.mp h).symm

/-- A result that is taken out of a set leaves everything in order. -/
theorem take (hs : s.Orderly) {g : TaskGroup} {before after : List TaskEnd} {x : TaskEnd}
    (hended : (s.sets g).ended = before ++ x :: after) : (s.take g (before ++ after)).Orderly := by
  refine hs.put le_rfl (fun h => ?_) (hs.aborting g) (fun h => ?_) fun h => hs.aborted g ?_
  · rw [(hs.past g h).2] at hended
    exact absurd hended.symm (by simp)
  · subst h
    exact hs.ping
  · rw [hended]
    rcases List.mem_append.mp h with h | h
    · exact List.mem_append_left _ h
    · exact List.mem_append_right _ (List.mem_cons_of_mem _ h)

/-- Aborting a set is in order once the deadline has passed. -/
theorem abortAll (hs : s.Orderly) {g : TaskGroup} (hforce : s.forceCancelled = true)
    (hping : g = .ping → s.pingCancelled = true) : (s.abortAll g).Orderly :=
  hs.put le_rfl (hs.past g) (fun _ => hforce) (fun h _ => hping h) fun _ => rfl

/-- The launcher goes on to a phase for which everything is as it should be. -/
theorem go (hs : s.Orderly) {phase : LauncherPhase} (hpast : ∀ g, phase.Past g → s.Joined g)
    (hwaited : phase.Waited → s.pingCancelled = true)
    (hforced : s.forceCancelled = true ↔ phase.Forced ∨ s.forceCancelled = true ∧
      ∃ error, phase = .returned error) : (s.go phase).Orderly where
  quiet := hs.quiet
  past := hpast
  waited := hwaited
  forced h := hforced.mpr (.inl h)
  unforced h := (hforced.mp h).imp_right And.right
  aborting := hs.aborting
  ping := hs.ping
  aborted := hs.aborted

/-- Before the launcher has returned, and where nothing is being aborted, nothing has been cancelled
by force. -/
theorem not_forced (hs : s.Orderly) (h : ¬ s.phase.Forced) (hreturned : ∀ e, s.phase ≠ .returned e) :
    s.forceCancelled ≠ true := fun hforce =>
  (hs.unforced hforce).elim h fun hret => hret.elim hreturned

theorem not_busy (hs : s.Orderly) (htracked : s.tracked = 0)
    (hpast : ∀ g ≠ .ping, s.phase.Past g) : ¬ s.Busy := by
  have hc := (hs.past .coordinators (hpast _ TaskGroup.noConfusion)).1
  have hl := (hs.past .loops (hpast _ TaskGroup.noConfusion)).1
  rw [Busy, htracked, hc, hl]
  decide

/-- The heartbeat may be told to stop when nobody is busy. -/
theorem cancelPing (hs : s.Orderly) (hbusy : ¬ s.Busy) : s.cancelPing.Orderly :=
  ⟨fun _ => hbusy, hs.past, fun _ => rfl, hs.forced, hs.unforced, hs.aborting, fun _ => rfl, hs.aborted⟩

theorem track (hs : s.Orderly) {n : ℕ} (hn : n ≤ s.tracked ∨ s.Busy) :
    Orderly { s with tracked := n } := by
  refine ⟨fun hp hbusy => ?_, hs.past, hs.waited, hs.forced, hs.unforced, hs.aborting, hs.ping,
    hs.aborted⟩
  have hquiet := hs.quiet hp
  rcases hn with hn | hn
  · exact hquiet (hbusy.imp_left fun h => h.trans_le hn)
  · exact hquiet hn

theorem timeOut (hs : s.Orderly) : s.timeOut.Orderly := by
  have hforced : Orderly { s with phase := .forcing .coordinators, forceCancelled := true } :=
    ⟨hs.quiet, fun g h => h.elim, fun h => h.elim, fun _ => rfl, fun _ => .inl trivial,
      fun _ _ => rfl, hs.ping, hs.aborted⟩
  exact hforced.abortAll rfl TaskGroup.noConfusion

/-- The launcher may return when every set has been joined. -/
theorem returns (hs : s.Orderly) (error : Option ShutdownError) (hall : ∀ g, s.Joined g)
    (hping : s.pingCancelled = true) : (s.go (.returned error)).Orderly :=
  hs.go (fun g _ => hall g) (fun _ => hping) ⟨fun h => .inr ⟨h, error, rfl⟩, fun h =>
    h.elim (fun h => h.elim) And.left⟩

end Stage.Orderly

namespace Launcher

variable {s : Launcher}

theorem recordTaskResult_toStage (x : TaskEnd) : (s.recordTaskResult x).toStage = s.toStage := by
  rcases x with (_ | _) | _
  · rfl
  · rfl
  · rfl

theorem joinAborted_toStage (x : TaskEnd) : (s.joinAborted x).toStage = s.toStage := by
  rcases x with (_ | _) | _
  · rfl
  · rfl
  · rfl

theorem endWith_toStage (g : TaskGroup) (r : Except OxanaError Unit) :
    (s.endWith g r).toStage = s.endTask g (.result r) := by
  cases r with
  | ok u => rfl
  | error e => rfl

end Launcher

/-- While nothing is being aborted, the launcher may go on to any phase in which nothing is aborted
either. -/
theorem Stage.Orderly.goes {s : Stage} (hs : s.Orderly) (h : ¬ s.phase.Forced)
    (hreturned : ∀ e, s.phase ≠ .returned e) {phase : LauncherPhase}
    (hpast : ∀ g, phase.Past g → s.Joined g) (hwaited : phase.Waited → s.pingCancelled = true)
    (hforced : ¬ phase.Forced) : (s.go phase).Orderly := by
  have hforce := hs.not_forced h hreturned
  exact hs.go hpast hwaited
    ⟨fun h => absurd h hforce, fun h => h.elim (fun h => absurd h hforced) And.left⟩

/-- While the sets are being aborted, the launcher may go on to the next of these phases. -/
theorem Stage.Orderly.goesForced {s : Stage} (hs : s.Orderly) (hforce : s.forceCancelled = true)
    {phase : LauncherPhase} (hpast : ∀ g, phase.Past g → s.Joined g)
    (hwaited : phase.Waited → s.pingCancelled = true) (hforced : phase.Forced) :
    (s.go phase).Orderly :=
  hs.go hpast hwaited ⟨fun _ => .inl hforced, fun _ => hforce⟩

/-- After the first `select!` the coordinators are drained, and everything is in order. -/
theorem Stage.Orderly.shutdown {s : Stage} (hs : s.Orderly) (hphase : s.phase = .running) :
    (s.go (.draining .coordinators)).Orderly :=
  hs.goes (by rw [hphase]; exact id) (by rw [hphase]; rintro _ ⟨⟩) (fun _ h => h.elim)
    (fun h => h.elim) id

/-- A set that has been drained is followed by the next one. -/
theorem Stage.Orderly.drained {s : Stage} (hs : s.Orderly) {g : TaskGroup}
    (hphase : s.phase = .draining g) (hjoined : s.Joined g) :
    (s.go (Launcher.nextDraining g)).Orderly := by
  have hpast := hs.past
  have hwaited := hs.waited
  rw [hphase] at hpast hwaited
  refine hs.goes (by rw [hphase]; exact id) (by rw [hphase]; rintro _ ⟨⟩) (fun g' hg' => ?_)
    (fun h => ?_) (fun h => ?_)
  · cases g with
    | coordinators =>
      obtain rfl : g' = .coordinators := hg'
      exact hjoined
    | loops =>
      cases g' with
      | coordinators => exact hpast .coordinators rfl
      | loops => exact hjoined
      | ping => exact absurd rfl hg'
    | ping =>
      by_cases hping : g' = .ping
      · exact hping ▸ hjoined
      · exact hpast g' hping
  · cases g with
    | ping => exact hwaited trivial
    | _ => exact h.elim
  · cases g with
    | _ => exact h.elim

/-- When no tracked future is left either, the heartbeat is told to stop. -/
theorem Stage.Orderly.drainedTracked {s : Stage} (hs : s.Orderly)
    (hphase : s.phase = .drainingTracked) (htracked : s.tracked = 0) :
    (s.cancelPing.go (.draining .ping)).Orderly := by
  have hpast := hs.past
  have hbusy := hs.not_busy htracked fun g hg => by
    rw [hphase]
    exact hg
  rw [hphase] at hpast
  exact (hs.cancelPing hbusy).goes (by rw [Stage.cancelPing, hphase]; exact id)
    (by rw [Stage.cancelPing, hphase]; rintro _ ⟨⟩) hpast (fun _ => rfl) id

/-- A set that has been aborted is followed by the next one. -/
theorem Launcher.nextForcing_orderly {s : Launcher} (hs : s.Orderly) {g : TaskGroup}
    (hphase : s.phase = .forcing g) (hjoined : s.Joined g) : (s.nextForcing g).Orderly := by
  have hpast := hs.past
  have hwaited := hs.waited
  have hforce := hs.forced (by rw [hphase]; trivial)
  rw [hphase] at hpast hwaited
  cases g with
  | coordinators =>
    refine (hs.abortAll hforce TaskGroup.noConfusion).goesForced hforce (fun g' hg' => ?_)
      (fun h => h.elim) trivial
    obtain rfl : g' = .coordinators := hg'
    exact hjoined
  | loops =>
    refine hs.goesForced hforce (fun g' hg' => ?_) (fun h => h.elim) trivial
    cases g' with
    | coordinators => exact hpast .coordinators rfl
    | loops => exact hjoined
    | ping => exact absurd rfl hg'
  | ping =>
    refine hs.returns _ (fun g' => ?_) (hwaited trivial)
    by_cases hping : g' = .ping
    · exact hping ▸ hjoined
    · exact hpast g' hping

/-- When the tracked futures have ended after the deadline, the heartbeat is aborted. -/
theorem Stage.Orderly.forcedTracked {s : Stage} (hs : s.Orderly)
    (hphase : s.phase = .forcingTracked) (htracked : s.tracked = 0) :
    ((s.cancelPing.abortAll .ping).go (.forcing .ping)).Orderly := by
  have hpast := hs.past
  have hforce := hs.forced (by rw [hphase]; trivial)
  have hbusy := hs.not_busy htracked fun g hg => by
    rw [hphase]
    exact hg
  rw [hphase] at hpast
  refine ((hs.cancelPing hbusy).abortAll hforce fun _ => rfl).goesForced hforce (fun g hg => ?_)
    (fun _ => rfl) trivial
  rw [Stage.Joined, Stage.abortAll, Stage.put_sets, if_neg hg]
  exact hpast g hg

/-- Every step keeps the order. -/
theorem LauncherStep.orderly {deadline : Bool} {s s' : Launcher} (h : LauncherStep deadline s s')
    (hs : s.Orderly) : s'.Orderly := by
  have hall (hphase : s.phase = .cleaningUp) : (∀ g, s.Joined g) ∧ s.pingCancelled = true :=
    ⟨fun g => hs.past g (by rw [hphase]; trivial), hs.waited (by rw [hphase]; trivial)⟩
  cases h with
  | ends g r hlive _ =>
    rw [Launcher.endWith_toStage]
    exact hs.endTask hlive TaskEnd.noConfusion
  | aborts g hlive haborting => exact hs.endTask hlive fun _ => haborting
  | fails e _ => exact hs
  | tracks hbusy => exact hs.track (.inr hbusy)
  | untracks _ => exact hs.track (.inl (Nat.sub_le _ _))
  | @selects g before after x hphase hended =>
    show ((Launcher.recordTaskResult _ x).toStage.go _).Orderly
    rw [Launcher.recordTaskResult_toStage]
    exact (hs.take hended).shutdown hphase
  | stops hphase => exact hs.shutdown hphase
  | joins g hphase hended =>
    rw [Launcher.recordTaskResult_toStage]
    exact hs.take hended
  | drained g hphase hjoined => exact hs.drained hphase hjoined
  | waited hphase htracked => exact hs.drainedTracked hphase htracked
  | cleans hphase => exact hs.returns _ (hall hphase).1 (hall hphase).2
  | cleansNot e hphase =>
    have hfailed : Stage.Orderly ((s.happens e false).fail e).toStage := hs
    exact hfailed.returns _ (hall hphase).1 (hall hphase).2
  | timesOut _ _ => exact hs.timeOut
  | joinsAborted g hphase hended =>
    rw [Launcher.joinAborted_toStage]
    exact hs.take hended
  | forced g hphase hjoined => exact Launcher.nextForcing_orderly hs hphase hjoined
  | forcedWaited hphase htracked => exact hs.forcedTracked hphase htracked

/-! ## The errors -/

/-- The error of a result that nobody has taken. -/
def TaskEnd.errors : TaskEnd → List OxanaError
  | .result (.error e) => [e]
  | _ => []

/-- The errors of a set that nobody has noticed. -/
def TaskSet.errors (t : TaskSet) : Multiset OxanaError :=
  (t.ended.flatMap (·.errors) : List OxanaError)

/-- The errors of tasks that nobody has noticed yet. -/
def Stage.unnoticed (s : Stage) : Multiset OxanaError :=
  (s.sets .coordinators).errors + (s.sets .loops).errors + (s.sets .ping).errors

namespace Stage

variable {s : Stage}

theorem unnoticed_put (g : TaskGroup) (t : TaskSet) :
    (s.put g t).unnoticed + (s.sets g).errors = s.unnoticed + t.errors := by
  cases g with
  | _ =>
    simp only [unnoticed, put_sets, reduceCtorEq, if_true, if_false]
    abel

theorem unnoticed_endTask (g : TaskGroup) (x : TaskEnd) :
    (s.endTask g x).unnoticed = s.unnoticed + (x.errors : Multiset OxanaError) := by
  have hput := s.unnoticed_put g
    { s.sets g with live := (s.sets g).live - 1, ended := (s.sets g).ended ++ [x] }
  refine add_right_cancel (b := (s.sets g).errors) (hput.trans ?_)
  rw [TaskSet.errors, List.flatMap_append, List.flatMap_singleton, ← Multiset.coe_add, TaskSet.errors]
  abel

theorem unnoticed_take {g : TaskGroup} {before after : List TaskEnd} {x : TaskEnd}
    (h : (s.sets g).ended = before ++ x :: after) :
    s.unnoticed = (s.take g (before ++ after)).unnoticed + (x.errors : Multiset OxanaError) := by
  have hput := s.unnoticed_put g { s.sets g with ended := before ++ after }
  have herrors : (s.sets g).errors = TaskSet.errors { s.sets g with ended := before ++ after } +
      (x.errors : Multiset OxanaError) := by
    simp only [TaskSet.errors, h, List.flatMap_append, List.flatMap_cons, ← Multiset.coe_add]
    abel
  refine add_right_cancel (b := TaskSet.errors { s.sets g with ended := before ++ after }) ?_
  rw [← hput, herrors]
  show (s.put g _).unnoticed + _ = (s.put g _).unnoticed + _ + _
  abel

theorem unnoticed_abortAll (g : TaskGroup) : (s.abortAll g).unnoticed = s.unnoticed :=
  add_right_cancel (s.unnoticed_put g { s.sets g with aborting := true })

theorem unnoticed_joined (h : ∀ g, s.Joined g) : s.unnoticed = 0 := by
  simp only [unnoticed, TaskSet.errors, (h _).2]
  rfl

end Stage

/-- The errors there have been are those that have been recorded and those in `U`; the first that has
been recorded is kept. -/
structure Launcher.Tallies (s : Launcher) (U : Multiset OxanaError) : Prop where
  first : s.shutdownError = s.recorded.head?
  errors : (s.happened : Multiset OxanaError) = s.recorded + U

namespace Launcher.Tallies

variable {s : Launcher} {U : Multiset OxanaError}

theorem fail {e : OxanaError} (h : s.Tallies (U + {e})) : (s.fail e).Tallies U where
  first := by
    show s.shutdownError.or (some e) = (s.recorded ++ [e]).head?
    rw [h.first, List.head?_append]
    rfl
  errors := by
    show (s.happened : Multiset OxanaError) = (s.recorded ++ [e] : List OxanaError) + U
    rw [h.errors, ← Multiset.coe_add, Multiset.coe_singleton]
    abel

theorem of_eq {V : Multiset OxanaError} (h : s.Tallies U) (hV : V = U) : s.Tallies V := hV ▸ h

/-- The tasks or the launcher go on. -/
theorem moved (h : s.Tallies U) (stage : Stage) : (s.moved stage).Tallies U := ⟨h.first, h.errors⟩

theorem none (h : s.Tallies (U + (([] : List OxanaError) : Multiset OxanaError))) : s.Tallies U := by
  rwa [Multiset.coe_nil, add_zero] at h

theorem recordTaskResult {x : TaskEnd} (h : s.Tallies (U + (x.errors : Multiset OxanaError)))
    (hx : x ≠ .aborted) : (s.recordTaskResult x).Tallies U := by
  rcases x with (e | u) | _
  · exact fail h
  · exact none h
  · exact absurd rfl hx

theorem joinAborted {x : TaskEnd} (h : s.Tallies (U + (x.errors : Multiset OxanaError))) :
    (s.joinAborted x).Tallies U := by
  rcases x with (e | u) | _
  · exact fail h
  · exact none h
  · exact none h

/-- A failure that happens is one more that has to be told. -/
theorem happens {e : OxanaError} (ping : Bool) (h : s.Tallies U) :
    (s.happens e ping).Tallies (U + {e}) where
  first := h.first
  errors := by
    show ((s.happened ++ [e] : List OxanaError) : Multiset OxanaError) = s.recorded + (U + {e})
    rw [← Multiset.coe_add, h.errors, Multiset.coe_singleton, add_assoc]

end Launcher.Tallies

/-- What is returned in the end: the first error recorded, or whether the deadline has passed. -/
def Launcher.outcome (s : Launcher) : Option ShutdownError :=
  (s.recorded.head?.map .failure).or (if s.forceCancelled then some .shutdownTimeout else none)

/-- The heartbeat runs until it is told to stop, unless it fails. -/
def Launcher.Beats (s : Launcher) : Prop :=
  0 < (s.sets .ping).live ∨ s.pingCancelled = true ∨ ∃ e ∈ s.happened, s.pingError = some e

/-- What holds of the errors at all times. -/
structure Launcher.Accounts (s : Launcher) : Prop where
  tallies : (∀ error, s.phase ≠ .returned error) → s.Tallies s.unnoticed
  returned : ∀ error, s.phase = .returned error →
    error = s.outcome ∧ (s.happened : Multiset OxanaError) = s.recorded
  beats : s.Beats

namespace Launcher

variable {s s' : Launcher}

/-- The heartbeat goes on as long as nothing is done to it. -/
theorem Beats.mono (h : s.Beats) (hlive : (s'.sets .ping).live = (s.sets .ping).live)
    (hcancelled : s.pingCancelled = true → s'.pingCancelled = true)
    (hhappened : s.happened ⊆ s'.happened) (herror : s'.pingError = s.pingError) : s'.Beats := by
  rcases h with h | h | ⟨e, he, h⟩
  · exact .inl (hlive ▸ h)
  · exact .inr (.inl (hcancelled h))
  · exact .inr (.inr ⟨e, hhappened he, herror.trans h⟩)

theorem Accounts.running (htallies : s.Tallies s.unnoticed)
    (hphase : ∀ error, s.phase ≠ .returned error) (hbeats : s.Beats) : s.Accounts :=
  ⟨fun _ => htallies, fun error h => absurd h (hphase error), hbeats⟩

/-- What is returned tells what has happened, when nothing is left unnoticed. -/
theorem Accounts.finish (htallies : s.Tallies s.unnoticed) (hall : ∀ g, s.Joined g)
    (hbeats : s.Beats) : s.finish.Accounts where
  tallies h := absurd rfl (h _)
  returned error h := by
    obtain rfl := LauncherPhase.returned.inj h
    have herrors := htallies.errors
    rw [Stage.unnoticed_joined hall, add_zero] at herrors
    refine ⟨?_, herrors⟩
    rw [htallies.first]
    rfl
  beats := hbeats

theorem recordTaskResult_fields (x : TaskEnd) : (s.recordTaskResult x).happened = s.happened ∧
    (s.recordTaskResult x).pingError = s.pingError := by
  rcases x with (_ | _) | _
  · exact ⟨rfl, rfl⟩
  · exact ⟨rfl, rfl⟩
  · exact ⟨rfl, rfl⟩

/-- A result is taken and looked at, and the heartbeat goes on as before. -/
theorem Beats.taken (h : s.Beats) {g : TaskGroup} {left : List TaskEnd}
    (hstage : s'.toStage = s.take g left) (hhappened : s'.happened = s.happened)
    (herror : s'.pingError = s.pingError) : s'.Beats := by
  refine h.mono ?_ (fun hc => ?_) (fun e he => hhappened ▸ he) herror
  · rw [hstage, Stage.take, Stage.put_sets]
    split
    · next hg => rw [hg]
    · rfl
  · rw [hstage]
    exact hc

theorem joinAborted_fields (x : TaskEnd) : (s.joinAborted x).happened = s.happened ∧
    (s.joinAborted x).pingError = s.pingError := by
  rcases x with (_ | _) | _
  · exact ⟨rfl, rfl⟩
  · exact ⟨rfl, rfl⟩
  · exact ⟨rfl, rfl⟩

end Launcher

/-- Nothing happens after the launcher has returned. -/
theorem LauncherStep.not_returned {deadline : Bool} {s s' : Launcher}
    (h : LauncherStep deadline s s') (hs : s.Orderly) (error : Option ShutdownError) :
    s.phase ≠ .returned error := by
  intro hphase
  have hall (g : TaskGroup) : s.Joined g := hs.past g (by rw [hphase]; trivial)
  have hbusy : ¬ s.Busy := hs.quiet (hs.waited (by rw [hphase]; trivial))
  cases h with
  | ends g r hlive _ => exact hlive.ne' (hall g).1
  | aborts g hlive _ => exact hlive.ne' (hall g).1
  | fails e h => exact hbusy h
  | tracks h => exact hbusy h
  | untracks h => exact hbusy (.inl h)
  | selects g h _ => cases hphase.symm.trans h
  | stops h => cases hphase.symm.trans h
  | joins g h _ => cases hphase.symm.trans h
  | drained g h _ => cases hphase.symm.trans h
  | waited h _ => cases hphase.symm.trans h
  | cleans h => cases hphase.symm.trans h
  | cleansNot e h => cases hphase.symm.trans h
  | timesOut _ h =>
    rcases h with h | h | ⟨g, h⟩
    · cases hphase.symm.trans h
    · cases hphase.symm.trans h
    · cases hphase.symm.trans h
  | joinsAborted g h _ => cases hphase.symm.trans h
  | forced g h _ => cases hphase.symm.trans h
  | forcedWaited h _ => cases hphase.symm.trans h

/-- Outside of what follows the deadline nothing is aborted, so every task ends with a result. -/
theorem Stage.Orderly.result {s : Stage} (hs : s.Orderly) (h : ¬ s.phase.Forced)
    (hreturned : ∀ e, s.phase ≠ .returned e) {g : TaskGroup} {x : TaskEnd} (hx : x ∈ (s.sets g).ended) :
    x ≠ .aborted := by
  rintro rfl
  exact hs.not_forced h hreturned (hs.aborting g (hs.aborted g hx))

/-- A task that ends leaves its error to be noticed, and the heartbeat only ends when it is told to or
fails. -/
theorem Launcher.Accounts.endWith {s : Launcher} (htallies : s.Tallies s.unnoticed) (hbeats : s.Beats)
    (hreturned : ∀ error, s.phase ≠ .returned error) (g : TaskGroup) (r : Except OxanaError Unit)
    (hping : g = .ping → r = .ok () → s.pingCancelled = true) : (s.endWith g r).Accounts := by
  have hother (hg : g ≠ .ping) (x : TaskEnd) :
      ((s.endTask g x).sets .ping).live = (s.sets .ping).live := by
    rw [Stage.endTask, Stage.put_sets, if_neg hg.symm]
  cases r with
  | ok u =>
    refine .running (.of_eq (htallies.moved _) ?_) hreturned ?_
    · exact (Stage.unnoticed_endTask g _).trans (add_zero _)
    · by_cases hg : g = .ping
      · exact .inr (.inl (hping hg rfl))
      · exact hbeats.mono (hother hg _) id (List.Subset.refl _) rfl
  | error e =>
    refine .running (((htallies.moved _).happens _).of_eq (Stage.unnoticed_endTask g _)) hreturned ?_
    by_cases hg : g = .ping
    · exact .inr (.inr ⟨e, List.mem_append_right _ List.mem_cons_self, by
        rw [Launcher.endWith, Launcher.happens, if_pos (by simpa using hg)]⟩)
    · exact hbeats.mono (hother hg _) id (List.subset_append_left _ _) (by
        rw [Launcher.endWith, Launcher.happens, if_neg (by simpa using hg)]
        rfl)

/-- A task that is aborted has no error, and the heartbeat is aborted only when it may stop. -/
theorem Launcher.Accounts.aborts {s : Launcher} (htallies : s.Tallies s.unnoticed) (hbeats : s.Beats)
    (hreturned : ∀ error, s.phase ≠ .returned error) (horder : s.Orderly) {g : TaskGroup}
    (haborting : (s.sets g).aborting = true) : (s.moved (s.endTask g .aborted)).Accounts := by
  refine .running (.of_eq (htallies.moved _) ?_) hreturned ?_
  · exact (Stage.unnoticed_endTask g _).trans (add_zero _)
  · by_cases hg : g = .ping
    · subst hg
      exact .inr (.inl (horder.ping haborting))
    · refine hbeats.mono ?_ id (List.Subset.refl _) rfl
      show ((s.endTask g .aborted).sets .ping).live = _
      rw [Stage.endTask, Stage.put_sets, if_neg (Ne.symm hg)]

/-- The error of a result that is taken is recorded, so that it is told in the end. -/
theorem Launcher.Tallies.records {s : Launcher} (h : s.Tallies s.unnoticed) {g : TaskGroup}
    {before after : List TaskEnd} {x : TaskEnd} (hended : (s.sets g).ended = before ++ x :: after)
    (hx : x ≠ .aborted) : ((s.moved (s.take g (before ++ after))).recordTaskResult x).Tallies
      (s.take g (before ++ after)).unnoticed :=
  ((h.of_eq (Stage.unnoticed_take hended).symm).moved _).recordTaskResult hx

theorem Launcher.Beats.records {s : Launcher} (h : s.Beats) (g : TaskGroup) (left : List TaskEnd)
    (x : TaskEnd) : ((s.moved (s.take g left)).recordTaskResult x).Beats := by
  obtain ⟨hhappened, herror⟩ := Launcher.recordTaskResult_fields (s := s.moved (s.take g left)) x
  exact h.taken (Launcher.recordTaskResult_toStage x) hhappened herror

/-- After an aborted set the next one is aborted, or everything has been accounted for. -/
theorem Launcher.Accounts.nextForcing {s : Launcher} (htallies : s.Tallies s.unnoticed)
    (hbeats : s.Beats) (horder : s.Orderly) {g : TaskGroup} (hphase : s.phase = .forcing g)
    (hjoined : s.Joined g) : (s.nextForcing g).Accounts := by
  cases g with
  | coordinators =>
    refine .running ⟨htallies.first, htallies.errors.trans ?_⟩ (by rintro _ ⟨⟩)
      (hbeats.mono rfl id (List.Subset.refl _) rfl)
    exact congrArg _ (Stage.unnoticed_abortAll .loops).symm
  | loops => exact .running ⟨htallies.first, htallies.errors⟩ (by rintro _ ⟨⟩) hbeats
  | ping =>
    refine .finish htallies (fun g' => ?_) hbeats
    by_cases hping : g' = .ping
    · exact hping ▸ hjoined
    · exact horder.past g' (by rw [hphase]; exact hping)

/-- Every step accounts for the errors: what has happened is recorded, or still to be noticed. -/
theorem LauncherStep.accounts {deadline : Bool} {s s' : Launcher} (h : LauncherStep deadline s s')
    (horder : s.Orderly) (hs : s.Accounts) : s'.Accounts := by
  have hreturned := h.not_returned horder
  have htallies := hs.tallies hreturned
  have hbeats := hs.beats
  have hresult {g : TaskGroup} {before after : List TaskEnd} {x : TaskEnd} (hphase : ¬ s.phase.Forced)
      (hended : (s.sets g).ended = before ++ x :: after) : x ≠ .aborted :=
    horder.result hphase hreturned (by rw [hended]; exact List.mem_append_right _ List.mem_cons_self)
  cases h with
  | ends g r hlive hping => exact .endWith htallies hbeats hreturned g r hping
  | aborts g hlive haborting => exact .aborts htallies hbeats hreturned horder haborting
  | fails e _ =>
    exact .running (htallies.happens false).fail hreturned
      (hbeats.mono rfl id (List.subset_append_left _ _) rfl)
  | tracks _ => exact .running ⟨htallies.first, htallies.errors⟩ hreturned hbeats
  | untracks _ => exact .running ⟨htallies.first, htallies.errors⟩ hreturned hbeats
  | @selects g before after x hphase hended =>
    have hrec := htallies.records hended (hresult (by rw [hphase]; exact id) hended)
    refine .running ⟨hrec.first, hrec.errors.trans ?_⟩ (by rintro _ ⟨⟩) (hbeats.records g _ x)
    show _ = _ + (Launcher.recordTaskResult _ x).toStage.unnoticed
    rw [Launcher.recordTaskResult_toStage]
    rfl
  | stops hphase =>
    exact .running ⟨htallies.first, htallies.errors⟩ (by rintro _ ⟨⟩) hbeats
  | @joins g before after x hphase hended =>
    have hrec := htallies.records hended (hresult (by rw [hphase]; exact id) hended)
    have hstage := Launcher.recordTaskResult_toStage
      (s := s.moved (s.take g (before ++ after))) x
    refine .running (hrec.of_eq ?_) ?_ (hbeats.records g _ x)
    · rw [hstage]
      rfl
    · rw [hstage]
      exact hreturned
  | drained g hphase hjoined =>
    refine .running ⟨htallies.first, htallies.errors⟩ ?_ hbeats
    cases g with
    | _ => rintro _ ⟨⟩
  | waited hphase htracked =>
    exact .running ⟨htallies.first, htallies.errors⟩ (by rintro _ ⟨⟩)
      (hbeats.mono rfl (fun _ => rfl) (List.Subset.refl _) rfl)
  | cleans hphase =>
    exact .finish htallies (fun g => horder.past g (by rw [hphase]; trivial)) hbeats
  | cleansNot e hphase =>
    exact .finish (htallies.happens false).fail
      (fun g => horder.past g (by rw [hphase]; trivial))
      (hbeats.mono rfl id (List.subset_append_left _ _) rfl)
  | timesOut _ _ =>
    refine .running ⟨htallies.first, htallies.errors.trans ?_⟩ (by rintro _ ⟨⟩)
      (hbeats.mono rfl id (List.Subset.refl _) rfl)
    exact congrArg _ (Stage.unnoticed_abortAll .coordinators).symm
  | @joinsAborted g before after x hphase hended =>
    have hrec := ((htallies.of_eq (Stage.unnoticed_take hended).symm).moved
      (s.take g (before ++ after))).joinAborted
    have hstage := Launcher.joinAborted_toStage (s := s.moved (s.take g (before ++ after))) x
    obtain ⟨hhappened, herror⟩ := Launcher.joinAborted_fields
      (s := s.moved (s.take g (before ++ after))) x
    refine .running (hrec.of_eq ?_) ?_ (hbeats.taken hstage hhappened herror)
    · rw [hstage]
      rfl
    · rw [hstage]
      exact hreturned
  | forced g hphase hjoined => exact .nextForcing htallies hbeats horder hphase hjoined
  | forcedWaited hphase htracked =>
    refine .running ⟨htallies.first, htallies.errors.trans ?_⟩ (by rintro _ ⟨⟩)
      (hbeats.mono rfl (fun _ => rfl) (List.Subset.refl _) rfl)
    exact congrArg _ (Stage.unnoticed_abortAll (s := s.cancelPing) .ping).symm

/-! ## Runs -/

theorem Launcher.start_orderly (queues : ℕ) : (start queues).Orderly where
  quiet := Bool.noConfusion
  past _ h := h.elim
  waited h := h.elim
  forced h := h.elim
  unforced := Bool.noConfusion
  aborting g h := by
    cases g with
    | _ => cases h
  ping := Bool.noConfusion
  aborted g h := by
    cases g with
    | _ => cases h

/-- In the beginning no error has happened. -/
theorem Launcher.start_accounts (queues : ℕ) : (start queues).Accounts :=
  .running ⟨rfl, rfl⟩ (by rintro _ ⟨⟩) (.inl Nat.one_pos)

/-- Without a deadline nothing is ever forced. -/
theorem LauncherStep.unforced {s s' : Launcher} (h : LauncherStep false s s')
    (hs : s.forceCancelled = false) : s'.forceCancelled = false := by
  have htoStage {s' : Launcher} (stage : Stage) (h : s'.toStage = stage)
      (hstage : stage.forceCancelled = false) : s'.forceCancelled = false := h ▸ hstage
  cases h with
  | ends g r _ _ => exact htoStage _ (Launcher.endWith_toStage g r) hs
  | selects g _ _ =>
    show (Launcher.recordTaskResult _ _).toStage.forceCancelled = false
    exact htoStage _ (Launcher.recordTaskResult_toStage _) hs
  | joins g _ _ => exact htoStage _ (Launcher.recordTaskResult_toStage _) hs
  | joinsAborted g _ _ => exact htoStage _ (Launcher.joinAborted_toStage _) hs
  | timesOut hdeadline _ => cases hdeadline
  | forced g _ _ =>
    cases g with
    | _ => exact hs
  | _ => exact hs

section Run

variable {queues : ℕ} {deadline : Bool} {s : Launcher}

/-- Both invariants hold of every run. -/
theorem Launcher.run_keeps
    (h : Relation.ReflTransGen (LauncherStep deadline) (.start queues) s) :
    s.Orderly ∧ s.Accounts := by
  induction h with
  | refl => exact ⟨start_orderly queues, start_accounts queues⟩
  | tail _ hstep ih => exact ⟨hstep.orderly ih.1, hstep.accounts ih.1 ih.2⟩

theorem Launcher.outcome_nil (h : s.recorded = []) :
    s.outcome = if s.forceCancelled then some .shutdownTimeout else none := by
  rw [outcome, h]
  rfl

theorem Launcher.outcome_cons {e : OxanaError} {rest : List OxanaError} (h : s.recorded = e :: rest) :
    s.outcome = some (.failure e) := by
  rw [outcome, h]
  rfl

theorem Launcher.run_unforced
    (h : Relation.ReflTransGen (LauncherStep deadline) (.start queues) s)
    (hforce : s.forceCancelled = true) : deadline = true := by
  cases deadline with
  | true => rfl
  | false =>
    have hunforced : s.forceCancelled = false := by
      clear hforce
      induction h with
      | refl => rfl
      | tail _ hstep ih => exact hstep.unforced ih
    exact hunforced.symm.trans hforce

/-- As long as somebody may be executing, the heartbeat has not been told to stop, and runs unless it
has failed. The registration is removed after all of that, and nothing is left when the launcher
returns. -/
theorem heartbeats_outlive_executions
    (h : Relation.ReflTransGen (LauncherStep deadline) (.start queues) s) :
    (s.Busy → s.pingCancelled = false ∧
      (0 < (s.sets .ping).live ∨ ∃ e ∈ s.happened, s.pingError = some e)) ∧
    (s.phase = .cleaningUp → s.forceCancelled = false ∧ ¬ s.Busy ∧ ∀ g, s.Joined g) ∧
    ∀ error, s.phase = .returned error → ¬ s.Busy ∧ ∀ g, s.Joined g := by
  obtain ⟨horder, haccounts⟩ := Launcher.run_keeps h
  refine ⟨fun hbusy => ?_, fun hphase => ⟨?_, ?_, fun g => ?_⟩, fun error hphase => ⟨?_, fun g => ?_⟩⟩
  · have hping : s.pingCancelled = false := by
      rw [← Bool.not_eq_true]
      exact fun hp => horder.quiet hp hbusy
    refine ⟨hping, haccounts.beats.imp_right fun hb => hb.resolve_left ?_⟩
    rw [hping]
    exact Bool.false_ne_true
  · rw [← Bool.not_eq_true]
    refine horder.not_forced ?_ ?_
    · rw [hphase]
      exact id
    · rw [hphase]
      rintro _ ⟨⟩
  · refine horder.quiet (horder.waited ?_)
    rw [hphase]
    trivial
  · refine horder.past g ?_
    rw [hphase]
    trivial
  · refine horder.quiet (horder.waited ?_)
    rw [hphase]
    trivial
  · refine horder.past g ?_
    rw [hphase]
    trivial

/-- A coordinator starts a future, there is a signal, and the coordinator returns while the future is
still running: everything waits for it, and the heartbeat goes on. -/
theorem heartbeat_goes_on : ∃ s, Relation.ReflTransGen (LauncherStep true) (.start 1) s ∧ s.Busy ∧
    (s.Busy → s.pingCancelled = false ∧
      (0 < (s.sets .ping).live ∨ ∃ e ∈ s.happened, s.pingError = some e)) ∧
    (s.phase = .cleaningUp → s.forceCancelled = false ∧ ¬ s.Busy ∧ ∀ g, s.Joined g) ∧
    ∀ error, s.phase = .returned error → ¬ s.Busy ∧ ∀ g, s.Joined g := by
  have hsignal : Relation.ReflTransGen (LauncherStep true) (.start 1) _ :=
    (Relation.ReflTransGen.refl.tail (.tracks (.inr (.inl Nat.one_pos)))).tail (.stops rfl)
  have hjoined := (hsignal.tail
    (.ends .coordinators (.ok ()) (by decide) TaskGroup.noConfusion)).tail
      (@LauncherStep.joins _ _ .coordinators [] [] _ rfl rfl)
  have hrun := hjoined.tail (.drained .coordinators rfl ⟨rfl, rfl⟩)
  exact ⟨_, hrun, .inl Nat.one_pos, heartbeats_outlive_executions hrun⟩

/-- What is returned says whether anything failed: the first failure that was recorded, else whether
the deadline has passed. All failures there have been are recorded, and once each; what is aborted
is none. Neither is a panic inside a future that is only tracked: the tracker lets it end like any
other future, and nobody learns of it. -/
theorem run_tells {error : Option ShutdownError}
    (h : Relation.ReflTransGen (LauncherStep deadline) (.start queues) s)
    (hreturned : s.phase = .returned error) :
    (error = none ↔ s.happened = [] ∧ s.forceCancelled = false) ∧
    (error = some .shutdownTimeout ↔ s.happened = [] ∧ s.forceCancelled = true) ∧
    (∀ e, error = some (.failure e) → s.recorded.head? = some e ∧ e ∈ s.happened) ∧
    s.happened.Perm s.recorded ∧ (s.forceCancelled = true → deadline = true) := by
  obtain ⟨rfl, hrecorded⟩ := (Launcher.run_keeps h).2.returned error hreturned
  have hperm : s.happened.Perm s.recorded := Multiset.coe_eq_coe.mp hrecorded
  have hempty : s.happened = [] ↔ s.recorded = [] := ⟨fun h => (h ▸ hperm).nil_eq.symm, fun h =>
    (h ▸ hperm).eq_nil⟩
  rw [hempty]
  rcases hlist : s.recorded with _ | ⟨first, rest⟩
  · rw [Launcher.outcome_nil hlist]
    refine ⟨?_, ?_, fun e he => ?_, hlist ▸ hperm, Launcher.run_unforced h⟩
    · cases s.forceCancelled with
      | _ => simp
    · cases s.forceCancelled with
      | _ => simp
    · cases hforce : s.forceCancelled with
      | false => simp [hforce] at he
      | true => simp [hforce] at he
  · rw [Launcher.outcome_cons hlist]
    refine ⟨by simp, by simp, fun e he => ?_, hlist ▸ hperm, Launcher.run_unforced h⟩
    obtain rfl := ShutdownError.failure.inj (Option.some.inj he)
    exact ⟨rfl, hperm.mem_iff.mpr (hlist ▸ List.mem_cons_self)⟩

/-- A loop fails before anything else: everything is shut down, and its error is what the launcher
returns. -/
theorem failure_told : ∃ s, Relation.ReflTransGen (LauncherStep false) (.start 0) s ∧
    s.phase = .returned (some (.failure .generic)) ∧ s.happened.Perm s.recorded := by
  have hfailed : Relation.ReflTransGen (LauncherStep false) (.start 0) _ :=
    ((Relation.ReflTransGen.refl.tail
      (.ends .loops (.error .generic) (by decide) TaskGroup.noConfusion)).tail
      (@LauncherStep.selects _ _ .loops [] [] _ rfl rfl)).tail (.drained .coordinators rfl ⟨rfl, rfl⟩)
  -- The other loops return.
  have hone := (hfailed.tail (.ends .loops (.ok ()) (by decide) TaskGroup.noConfusion)).tail
    (@LauncherStep.joins _ _ .loops [] [] _ rfl rfl)
  have htwo := (hone.tail (.ends .loops (.ok ()) (by decide) TaskGroup.noConfusion)).tail
    (@LauncherStep.joins _ _ .loops [] [] _ rfl rfl)
  have hthree := (htwo.tail (.ends .loops (.ok ()) (by decide) TaskGroup.noConfusion)).tail
    (@LauncherStep.joins _ _ .loops [] [] _ rfl rfl)
  have hloops := (hthree.tail (.ends .loops (.ok ()) (by decide) TaskGroup.noConfusion)).tail
    (@LauncherStep.joins _ _ .loops [] [] _ rfl rfl)
  have hping := (((hloops.tail (.drained .loops rfl ⟨rfl, rfl⟩)).tail (.waited rfl rfl)).tail
    (.ends .ping (.ok ()) (by decide) fun _ _ => rfl)).tail
    (@LauncherStep.joins _ _ .ping [] [] _ rfl rfl)
  have hreturned := (hping.tail (.drained .ping rfl ⟨rfl, rfl⟩)).tail (.cleans rfl)
  exact ⟨_, hreturned, rfl, (run_tells hreturned rfl).2.2.2.1⟩

end Run

end Oxana
