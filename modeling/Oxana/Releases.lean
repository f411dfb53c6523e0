import Oxana.Deletion
import Oxana.Drained

/-!
# How claims are released

What a process does to the server on behalf of its jobs takes claims away and never adds any, apart
from claiming (`Tends`), and payloads stay stored under the ids of their jobs. The transitions that
end the work on a job take one claim of it away and no other, if they succeed at all (`Frees`); a
deletion takes all claims of the job away (`Clears`). Everything else leaves the claims as they are
(`Tidies`).
-/

namespace Oxana

open Redis Interleave Call

variable {H : Handle} {s s' s'' : Store} {id : JobId}

/-- Payloads are stored under the ids of their jobs, and claims are taken away at most. -/
structure Tends (H : Handle) (s s' : Store) : Prop where
  payloads : ∀ id p, payloadOf H.keys.jobs s' id = some p →
    payloadOf H.keys.jobs s id = some p ∨ ∀ e, JobEnvelope.decode p = some e → e.id = id
  claims : (s'.list H.currentProcessingQueue : Multiset JobId) ≤ s.list H.currentProcessingQueue

namespace Tends

theorem refl (s : Store) : Tends H s s := ⟨fun _ _ h => .inl h, le_rfl⟩

theorem trans (h : Tends H s s') (h' : Tends H s' s'') : Tends H s s'' where
  payloads id p hp := (h'.payloads id p hp).elim (h.payloads id p) .inr
  claims := h'.claims.trans h.claims

/-- Where every payload is stored under its own id, it stays so. -/
theorem storedUnder (h : Tends H s s') (hs : StoredUnder H.keys s) : StoredUnder H.keys s' :=
  fun id p e hp he => (h.payloads id p hp).elim (fun hp => hs id p e hp he) fun hown => hown e he

/-- A write to another key releases no claim and stores no payload. -/
theorem put {k : Key} (v : Value) (hj : k ≠ H.keys.jobs) (hp : k ≠ H.currentProcessingQueue) :
    Tends H s (s.put k v) where
  payloads id p h := by
    rw [payloadOf, Store.hash_put_ne _ hj.symm] at h
    exact .inl h
  claims := by rw [Store.list_put_ne _ hp.symm]

/-- Writing payloads releases no claim, as long as each of them is under its own id. -/
theorem put_jobs {m : List (String × String)}
    (hm : ∀ id p, m.lookup id = some p →
      payloadOf H.keys.jobs s id = some p ∨ ∀ e, JobEnvelope.decode p = some e → e.id = id) :
    Tends H s (s.put H.keys.jobs (.hash m)) where
  payloads id p h := by
    rw [payloadOf, Store.hash_put_self] at h
    exact hm id p h
  claims := by rw [Store.list_put_ne _ (current_ne H).1]

end Tends

/-- One claim of each of the ids is taken off the processing list, and nothing else. -/
structure Releases (H : Handle) (ids : List JobId) (s s' : Store) : Prop extends Tends H s s' where
  released : (s'.list H.currentProcessingQueue : Multiset JobId) =
    (s.list H.currentProcessingQueue : Multiset JobId) - ids

theorem Releases.nil (s : Store) : Releases H [] s s :=
  ⟨.refl s, by simp⟩

theorem Releases.cons {ids : List JobId} (h : Releases H [id] s s') (h' : Releases H ids s' s'') :
    Releases H (id :: ids) s s'' := by
  refine ⟨h.toTends.trans h'.toTends, h'.released.trans ?_⟩
  have hid : ((id :: ids : List JobId) : Multiset JobId) = ([id] : List JobId) + ids := rfl
  rw [hid, ← tsub_tsub, h.released]

/-- One claim of the id is erased, and nothing else is done to the list. -/
theorem Releases.erase (h : Tends H s s')
    (hlist : s'.list H.currentProcessingQueue = (s.list H.currentProcessingQueue).erase id) :
    Releases H [id] s s' := by
  refine ⟨h, ?_⟩
  rw [hlist, ← Multiset.coe_erase, ← Multiset.sub_singleton]
  rfl

/-- What the script does to the claims: they are taken away at most, and if it succeeds, one claim of
each of these ids is. -/
def Frees {α : Type} (H : Handle) (ids : List JobId) (x : Script α) : Prop :=
  ∀ s, Tends H s (x s).2 ∧ ∀ a, (x s).1 = .ok a → Releases H ids s (x s).2

/-- A single command that is given a key of the wrong type refuses, so only the other case is to be
shown. -/
theorem Frees.onKind {α : Type} {kd : Kind} {k : Key} {ids : List JobId} {f : Store → α × Store}
    (h : ∀ s, Releases H ids s (f s).2) : Frees H ids (onKind kd k f) := by
  intro s
  rw [Redis.onKind]
  split
  · exact ⟨(h s).toTends, fun _ _ => h s⟩
  · exact ⟨.refl s, fun _ ha => by cases ha⟩

/-- What the script does to the claims: they are taken away at most, and if it succeeds, all claims of
the id are. -/
def Clears {α : Type} (H : Handle) (id : JobId) (x : Script α) : Prop :=
  ∀ s, Tends H s (x s).2 ∧ ∀ a, (x s).1 = .ok a → id ∉ (x s).2.list H.currentProcessingQueue

/-- Every step leaves the memory and the claims as they are and keeps payloads where they belong; what
the call returns satisfies `Q`. -/
abbrev Call.Tidies {γ α : Type} (H : Handle) (Q : α → Prop) (x : Call γ α) : Prop :=
  Call.Always (fun _ w => StoredUnder H.keys w.store)
    (fun _ w w' => w'.ghost = w.ghost ∧ Releases H [] w.store w'.store) Q x

section Calls

open Call

variable {γ α : Type}

namespace Call.Tidies

theorem same (w : World γ) (_ : StoredUnder H.keys w.store) :
    w.ghost = w.ghost ∧ Releases H [] w.store w.store := ⟨rfl, .nil w.store⟩

theorem send {l : Request} {x : Script α} (hx : ∀ s, Releases H [] s (x s).2) :
    Tidies (γ := γ) H (fun _ => True) (send l x) :=
  Always.send (fun w _ => ⟨rfl, hx w.store⟩) fun _ _ _ _ => trivial

end Call.Tidies

end Calls

end Oxana
