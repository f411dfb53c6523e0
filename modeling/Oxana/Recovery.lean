import Oxana.Sweep
import Oxana.EnqueueAlone
import Mathlib.Algebra.BigOperators.Group.Finset.Basic
import Mathlib.Algebra.BigOperators.Group.Finset.Piecewise

/-!
# What a sweep recovers

A sweep that nobody interferes with: of the claims of a dead process those whose payload cannot be
read stay, and the others are released, each to the ready list its payload names or for good
(`Fate`). `resurrect_recovers_iff` says when it does so for every dead process: those without a
record have to be found by their processing lists, and the search for these takes the name of the
storage for a pattern.
-/

namespace Oxana

open Redis Interleave Call

variable {γ : Type} {K : StorageKeys} {s s₁ s₂ s' : Store} {p : String} {id : JobId}
  {w w' : World γ} {allowed : Choice → Prop}

/-! ## What becomes of a claim -/

/-- What a sweep does with a claim, by what is stored for its job. -/
inductive Fate where
  /-- there is no payload: the claim is dropped -/
  | absent
  /-- the payload cannot be read: the claim stays -/
  | malformed
  /-- the job goes back to its queue -/
  | returns (queue : String)
  /-- the job is dropped, with its payload -/
  | drops
  deriving DecidableEq

/-- The fate of a job: what is stored for it decides what a sweep does. -/
def fate (K : StorageKeys) (s : Store) (id : JobId) : Fate :=
  match payloadOf K.jobs s id with
  | none => .absent
  | some payload =>
    match JobEnvelope.decode payload with
    | none => .malformed
    | some e => if e.jobMeta.resurrect then .returns e.queue else .drops

/-- The fate of a job whose payload decodes is told by its envelope: whether it is resurrected, and
where to. -/
theorem fate_of_decode {x : String} {e : JobEnvelope} (hp : payloadOf K.jobs s id = some x)
    (hdec : JobEnvelope.decode x = some e) :
    fate K s id = if e.jobMeta.resurrect then .returns e.queue else .drops := by
  rw [fate, hp]
  simp only [hdec]

/-- The queues to which the recovery returns jobs have names that are not taken for keys. -/
def PlainQueues (K : StorageKeys) (s : Store) : Prop :=
  ∀ id queue, fate K s id = .returns queue → K.Plain queue

/-- The store once the claim has been released. -/
def released (K : StorageKeys) (p : String) (id : JobId) (s : Store) : Store :=
  s.put (K.processingQueue p) (.list ((s.list (K.processingQueue p)).erase id))

/-- What the sweep leaves of a store when it has met a claim. -/
def settled (K : StorageKeys) (p : String) (id : JobId) (s : Store) : Store :=
  match fate K s id with
  | .malformed => s
  | .absent => released K p id s
  | .returns queue => released K p id (s.put (K.namespaceQueue queue)
      (.list (id :: s.list (K.namespaceQueue queue))))
  | .drops => released K p id (s.put K.jobs (.hash (unset id (s.hash K.jobs))))

/-- An error of taking the snapshot is not one of the decoder, unless the payload is malformed, and
then nothing has changed. -/
theorem transitionSnapshot_error {e : OxanaError}
    (h : Call.Solo allowed (transitionSnapshot K id) w (.error e) w') :
    e ≠ .json ∨ (w' = w ∧ fate K w.store id = .malformed) := by
  rcases solo_bind.mp h with ⟨payload, w₁, hsend, hrest⟩ | ⟨e', hsend, he⟩
  · obtain ⟨hp, rfl⟩ := solo_send_ok hsend
    rw [World.after_read (hget_snd ..)] at hrest
    have hpay : payload = payloadOf K.jobs w.store id := (onKind_inv hp).2.symm
    cases hpayload : payload with
    | none =>
      rw [hpayload] at hrest
      cases (solo_pure.mp hrest).1
    | some x =>
      rw [hpayload] at hrest
      cases hdec : JobEnvelope.decode x with
      | some e' =>
        simp only [decoded, hdec] at hrest
        cases (show Except.error e = Except.ok _ ∧ _ from hrest).1
      | none =>
        simp only [decoded, hdec] at hrest
        obtain ⟨-, rfl⟩ : Except.error e = (Except.error .json : Except OxanaError
          (Option (String × JobEnvelope))) ∧ w' = w := hrest
        refine .inr ⟨rfl, ?_⟩
        rw [fate, ← hpay, hpayload]
        simp only [hdec]
  · rcases solo_send hsend with ⟨hr, -⟩ | ⟨t, hr, -⟩
    · cases hx : (hget K.jobs id w.store).1 with
      | ok a =>
        rw [hx] at hr
        cases hr
      | error err =>
        rw [hx] at hr
        cases hr
        cases he
        refine .inl fun hjson => ?_
        cases hjson
    · cases hr
      cases he
      refine .inl fun hjson => ?_
      cases hjson

/-- **One claim** that is dealt with alone: what becomes of it is its fate, as the payload tells it.
-/
theorem solo_resurrectOne {n : Nat} (hin : id ∈ w.store.list (K.processingQueue p))
    (h : Call.Solo allowed (resurrectOne K p id) w (.ok n) w') :
    w' = { w with store := settled K p id w.store } := by
  obtain ⟨found, w₁, hsnapshot, hrest⟩ := solo_catching.mp h
  cases found with
  | error e =>
    cases e with
    | json =>
      obtain ⟨rfl, hfate⟩ := (transitionSnapshot_error hsnapshot).resolve_left fun h => h rfl
      obtain ⟨-, rfl⟩ := solo_pure.mp hrest
      rw [settled, hfate]
    | redis => cases (solo_fail.mp hrest).1
    | jobNotFound => cases (solo_fail.mp hrest).1
    | generic => cases (solo_fail.mp hrest).1
    | config _ => cases (solo_fail.mp hrest).1
  | ok found =>
    obtain ⟨rfl, hfits, hdec, hpay⟩ := solo_transitionSnapshot hsnapshot
    obtain ⟨hok, rfl⟩ := solo_send_ok hrest
    have hexpected : payloadOf K.jobs w₁.store id =
        expectedPayload ((found.map (·.1)).getD "") := hpay.trans hdec.expected.symm
    rcases resurrectClaim_cases (s := w₁.store)
      (K.namespaceQueue ((found.map (·.2.queue)).getD ""))
      (StorageKeys.processing_ne_fixed (K := K) p).1.symm id ((found.map (·.1)).getD "")
      ((found.map (·.2.jobMeta.resurrect)).getD false) with
      ⟨m, hno⟩ | ⟨-, hstale⟩ | ⟨-, -, -, -, -, ⟨hnone, hrun⟩ | ⟨-, ⟨x, hx⟩, hagain, hrun⟩ |
        ⟨⟨x, hx⟩, hagain, hrun⟩⟩
    · rw [hno] at hok
      cases hok
    · exact absurd hexpected (hstale hin)
    · rw [World.after, hrun, settled, fate, hnone]
      rfl
    · cases found with
      | none =>
        rw [hpay] at hx
        cases hx
      | some pe =>
        have hfate := fate_of_decode hpay hdec
        have hyes : pe.2.jobMeta.resurrect = true := hagain
        rw [if_pos hyes] at hfate
        rw [World.after, hrun, settled, hfate]
        rfl
    · cases found with
      | none =>
        rw [hpay] at hx
        cases hx
      | some pe =>
        have hfate := fate_of_decode hpay hdec
        have hnot : pe.2.jobMeta.resurrect = false := hagain
        have hjobs := (StorageKeys.processing_ne_fixed (K := K) p).1
        rw [if_neg (by rw [hnot]; decide)] at hfate
        rw [World.after, hrun, settled, hfate, acknowledge]
        simp only [released]
        rw [Store.list_put_ne _ hjobs]

/-! ## The claims of one process -/

/-- Whether a claim stays where it is, since its payload cannot be read. -/
def stays (K : StorageKeys) (s : Store) (id : JobId) : Bool := fate K s id = .malformed

/-- The claims `done` of a process have been dealt with, and `rest` are left. -/
structure Handled (K : StorageKeys) (p : String) (done rest : List JobId) (s s' : Store) :
    Prop where
  /-- of the former, those stay whose payload cannot be read -/
  claims : s'.list (K.processingQueue p) = done.filter (stays K s) ++ rest
  /-- jobs that do not come back have lost their payload -/
  payload : ∀ id, payloadOf K.jobs s' id =
    if id ∈ done ∧ fate K s id = .drops then none else payloadOf K.jobs s id
  /-- the others are on their ready lists, as often as they were claimed -/
  ready : ∀ queue, K.Plain queue → ∀ id, (s'.list (K.namespaceQueue queue)).count id =
    (s.list (K.namespaceQueue queue)).count id +
      if fate K s id = .returns queue then done.count id else 0
  /-- no other key is touched -/
  untouched : ∀ k, k ≠ K.jobs → k ≠ K.processingQueue p →
    (∀ queue, K.Plain queue → k ≠ K.namespaceQueue queue) → s'.get k = s.get k

/-- The fate of a job depends on its payload only. -/
theorem fate_congr (h : payloadOf K.jobs s₁ id = payloadOf K.jobs s id) :
    fate K s₁ id = fate K s id := by
  rw [fate, h, fate]

/-- A job has no fate exactly if it has no payload. -/
theorem fate_absent_iff : fate K s id = .absent ↔ payloadOf K.jobs s id = none := by
  rw [fate]
  cases payloadOf K.jobs s id with
  | none => simp
  | some x =>
    cases hdec : JobEnvelope.decode x with
    | none => simp [hdec]
    | some e =>
      by_cases hagain : e.jobMeta.resurrect = true
      · simp [hdec, hagain]
      · simp [hdec, hagain]

/-- A job whose payload was dropped counts for nothing from then on, and the others have the fate
they had. -/
theorem fate_of_payload {P : Prop} [Decidable P]
    (h : payloadOf K.jobs s₁ id = if P ∧ fate K s id = .drops then none else
      payloadOf K.jobs s id) :
    fate K s₁ id = if P ∧ fate K s id = .drops then .absent else fate K s id := by
  split
  · next hdrops =>
    rw [if_pos hdrops] at h
    exact fate_absent_iff.mpr h
  · next hkeeps =>
    rw [if_neg hkeeps] at h
    exact fate_congr h

/-- Before the first claim is dealt with, nothing has been done. -/
theorem Handled.start (K : StorageKeys) (p : String) (s : Store) :
    Handled K p [] (s.list (K.processingQueue p)) s s where
  claims := rfl
  payload := fun id => (if_neg fun h => List.not_mem_nil h.1).symm
  ready := fun queue _ id => by simp
  untouched := fun _ _ _ _ => rfl

section Step

variable {done rest : List JobId}

/-- What a claim does to the claims, whatever else it does: it is released, or it stays if its
payload cannot be read. -/
theorem released_claims {s₂ : Store} (hs₂ : s₂.list (K.processingQueue p) =
    done.filter (stays K s) ++ id :: rest) (hne : stays K s id = false) :
    (released K p id s₂).list (K.processingQueue p) = (done ++ [id]).filter (stays K s) ++ rest := by
  have hout : id ∉ done.filter (stays K s) := by
    intro hin
    rw [(List.mem_filter.mp hin).2] at hne
    cases hne
  rw [released, Store.list_put_self, hs₂, List.erase_append_right _ hout, List.erase_cons_head,
    List.filter_append, List.filter_singleton, hne]
  simp

/-- Releasing a claim leaves the payloads alone. -/
theorem released_payload (id' : JobId) : payloadOf K.jobs (released K p id s) id' =
    payloadOf K.jobs s id' :=
  payloadOf_put_ne (StorageKeys.processing_ne_fixed (K := K) p).1.symm

theorem released_ready {queue : String} (hq : K.Plain queue) :
    (released K p id s).list (K.namespaceQueue queue) = s.list (K.namespaceQueue queue) :=
  Store.list_put_ne _ (StorageKeys.queue_ne_processing hq p)

theorem released_get {k : Key} (hk : k ≠ K.processingQueue p) :
    (released K p id s).get k = s.get k := Store.get_put_ne _ hk

/-- Who loses a payload after one more claim that takes none: those who have lost theirs before. -/
theorem drops_concat (h : fate K s id = .drops → id ∈ done) (id' : JobId) :
    (id' ∈ done ++ [id] ∧ fate K s id' = .drops) ↔ (id' ∈ done ∧ fate K s id' = .drops) := by
  rw [List.mem_append, List.mem_singleton]
  constructor
  · rintro ⟨hin | rfl, hdrops⟩
    · exact ⟨hin, hdrops⟩
    · exact ⟨h hdrops, hdrops⟩
  · rintro ⟨hin, hdrops⟩
    exact ⟨.inl hin, hdrops⟩

/-- Who is put on a list after one more claim that is not: those who have been put there before. -/
theorem returns_concat {queue : String} (h : fate K s id ≠ .returns queue) (id' : JobId) :
    (if fate K s id' = .returns queue then (done ++ [id]).count id' else 0) =
      if fate K s id' = .returns queue then done.count id' else 0 := by
  by_cases hreturns : fate K s id' = .returns queue
  · have hne : id' ≠ id := by
      rintro rfl
      exact h hreturns
    rw [if_pos hreturns, if_pos hreturns, List.count_append,
      List.count_eq_zero_of_not_mem (l := [id]) (by simpa using hne), Nat.add_zero]
  · rw [if_neg hreturns, if_neg hreturns]

/-- Unless its payload is gone, a claim has the fate that it had at first. -/
theorem Handled.fate_eq (h : Handled K p done (id :: rest) s s₁) (hcase : fate K s₁ id ≠ .absent) :
    fate K s id = fate K s₁ id := by
  have hfate := fate_of_payload (h.payload id)
  split at hfate
  · exact absurd hfate hcase
  · exact hfate.symm

/-- A claim whose payload cannot be read stays, and nothing happens to it or to any other. -/
theorem Handled.step_malformed (h : Handled K p done (id :: rest) s s₁)
    (hcase : fate K s₁ id = .malformed) :
    Handled K p (done ++ [id]) rest s (settled K p id s₁) := by
  have hmal : fate K s id = .malformed := (h.fate_eq (by rw [hcase]; rintro ⟨⟩)).trans hcase
  have hsettled : settled K p id s₁ = s₁ := by rw [settled, hcase]
  rw [hsettled]
  refine ⟨?_, fun id' => ?_, fun queue hq id' => ?_, h.untouched⟩
  · rw [h.claims, List.filter_append, List.filter_singleton, stays, hmal]
    simp
  · rw [h.payload id']
    have hnone : fate K s id = .drops → id ∈ done := fun hd => by rw [hmal] at hd; cases hd
    simp only [drops_concat hnone]
  · rw [h.ready queue hq id', returns_concat (by rw [hmal]; rintro ⟨⟩)]

/-- A claim without a payload is released. Either there was none to begin with, or it was dropped with
an earlier claim of the same job. -/
theorem Handled.step_absent (h : Handled K p done (id :: rest) s s₁)
    (hcase : fate K s₁ id = .absent) :
    Handled K p (done ++ [id]) rest s (settled K p id s₁) := by
  have hwas : fate K s id = .absent ∨ (id ∈ done ∧ fate K s id = .drops) := by
    have hfate := fate_of_payload (h.payload id)
    rw [hcase] at hfate
    split at hfate
    · next hdrops => exact .inr hdrops
    · exact .inl hfate.symm
  have hnot : stays K s id = false := by
    rcases hwas with hwas | ⟨-, hwas⟩
    · rw [stays, hwas]
      rfl
    · rw [stays, hwas]
      rfl
  have hsettled : settled K p id s₁ = released K p id s₁ := by rw [settled, hcase]
  rw [hsettled]
  refine ⟨released_claims h.claims hnot, fun id' => ?_, fun queue hq id' => ?_,
    fun k hj hp hk => (released_get hp).trans (h.untouched k hj hp hk)⟩
  · rw [released_payload, h.payload id']
    have hbefore : fate K s id = .drops → id ∈ done := fun hd =>
      hwas.elim (fun ha => by rw [ha] at hd; cases hd) fun hw => hw.1
    simp only [drops_concat hbefore]
  · have hne : fate K s id ≠ .returns queue := by
      rcases hwas with hwas | ⟨-, hwas⟩
      · rw [hwas]
        rintro ⟨⟩
      · rw [hwas]
        rintro ⟨⟩
    rw [released_ready hq, h.ready queue hq id', returns_concat hne]

/-- A job that goes back to its queue is put on the ready list, and its claim is released with that.
-/
theorem Handled.step_returns {queue : String} (h : Handled K p done (id :: rest) s s₁)
    (hplain : PlainQueues K s) (hcase : fate K s₁ id = .returns queue) :
    Handled K p (done ++ [id]) rest s (settled K p id s₁) := by
  have hreturns : fate K s id = .returns queue := (h.fate_eq (by rw [hcase]; rintro ⟨⟩)).trans hcase
  have hq := hplain id queue hreturns
  have hnot : stays K s id = false := by
    rw [stays, hreturns]
    rfl
  have hsettled : settled K p id s₁ = released K p id (s₁.put (K.namespaceQueue queue)
      (.list (id :: s₁.list (K.namespaceQueue queue)))) := by rw [settled, hcase]
  rw [hsettled]
  refine ⟨released_claims ?_ hnot, fun id' => ?_, fun queue' hq' id' => ?_, fun k hj hp hk => ?_⟩
  · rw [Store.list_put_ne _ (StorageKeys.queue_ne_processing hq p).symm]
    exact h.claims
  · rw [released_payload, payloadOf_put_ne (StorageKeys.queue_ne_fixed hq).1.symm, h.payload id']
    have hnone : fate K s id = .drops → id ∈ done := fun hd => by rw [hreturns] at hd; cases hd
    simp only [drops_concat hnone]
  · rw [released_ready hq']
    by_cases hqueue : queue' = queue
    · subst hqueue
      rw [Store.list_put_self, List.count_cons, h.ready queue' hq' id']
      by_cases hid : id' = id
      · subst hid
        rw [if_pos hreturns, if_pos hreturns, List.count_append]
        simp
        omega
      · have hne : (id == id') = false := by simpa using fun h => hid h.symm
        rw [hne, List.count_append, List.count_eq_zero_of_not_mem (l := [id]) (by simpa using hid)]
        simp
    · have hne : K.namespaceQueue queue' ≠ K.namespaceQueue queue :=
        fun heq => hqueue (StorageKeys.namespaceQueue_injective hq' hq heq)
      rw [Store.list_put_ne _ hne, h.ready queue' hq' id', returns_concat]
      rw [hreturns]
      rintro ⟨⟩
      exact hqueue rfl
  · rw [released_get hp, Store.get_put_ne _ (hk queue hq)]
    exact h.untouched k hj hp hk

/-- A job that is dropped loses its payload together with its claim. -/
theorem Handled.step_drops (h : Handled K p done (id :: rest) s s₁)
    (hcase : fate K s₁ id = .drops) :
    Handled K p (done ++ [id]) rest s (settled K p id s₁) := by
  have hdrops : fate K s id = .drops := (h.fate_eq (by rw [hcase]; rintro ⟨⟩)).trans hcase
  have hnot : stays K s id = false := by
    rw [stays, hdrops]
    rfl
  have hjobs := (StorageKeys.processing_ne_fixed (K := K) p).1
  have hsettled : settled K p id s₁ = released K p id (s₁.put K.jobs
      (.hash (unset id (s₁.hash K.jobs)))) := by rw [settled, hcase]
  rw [hsettled]
  refine ⟨released_claims ?_ hnot, fun id' => ?_, fun queue hq id' => ?_, fun k hj hp hk => ?_⟩
  · rw [Store.list_put_ne _ hjobs]
    exact h.claims
  · rw [released_payload, payloadOf, Store.hash_put_self]
    by_cases hid : id' = id
    · subst hid
      rw [lookup_unset_self, if_pos ⟨List.mem_append_right _ (List.mem_singleton.mpr rfl), hdrops⟩]
    · rw [lookup_unset_ne hid]
      refine (h.payload id').trans ?_
      simp only [List.mem_append, List.mem_singleton, hid, or_false]
  · rw [released_ready hq, Store.list_put_ne _ (StorageKeys.queue_ne_fixed hq).1,
      h.ready queue hq id', returns_concat (by rw [hdrops]; rintro ⟨⟩)]
  · rw [released_get hp, Store.get_put_ne _ hj]
    exact h.untouched k hj hp hk

/-- **One more claim**: what has been handled so far is handled with it, whatever its fate. -/
theorem Handled.step (h : Handled K p done (id :: rest) s s₁) (hplain : PlainQueues K s) :
    Handled K p (done ++ [id]) rest s (settled K p id s₁) := by
  cases hcase : fate K s₁ id with
  | malformed => exact h.step_malformed hcase
  | absent => exact h.step_absent hcase
  | returns queue => exact h.step_returns hplain hcase
  | drops => exact h.step_drops hcase

end Step

/-- All claims that are left are dealt with, one after the other, each according to its fate. -/
theorem solo_resurrectJobs {n : Nat} {done rest : List JobId} (hplain : PlainQueues K s)
    (h : Handled K p done rest s w.store)
    (hrun : Call.Solo allowed (resurrectJobs K p rest) w (.ok n) w') :
    Handled K p (done ++ rest) [] s w'.store ∧ w'.clock = w.clock := by
  induction rest generalizing done n w with
  | nil =>
    obtain ⟨-, rfl⟩ := solo_pure.mp hrun
    rw [List.append_nil]
    exact ⟨h, rfl⟩
  | cons id rest ih =>
    obtain ⟨moved, w₁, hone, hrun⟩ := solo_bind_ok hrun
    obtain ⟨count, w₂, hrest, hrun⟩ := solo_bind_ok hrun
    obtain ⟨-, rfl⟩ := solo_pure.mp hrun
    have hin : id ∈ w.store.list (K.processingQueue p) := by
      rw [h.claims]
      exact List.mem_append_right _ (List.mem_cons_self ..)
    obtain rfl := solo_resurrectOne hin hone
    obtain ⟨hhandled, hclock⟩ := ih (h.step hplain) hrest
    rw [List.append_assoc] at hhandled
    exact ⟨hhandled, hclock⟩

/-! ## The dead processes -/

/-- The claims of a process, as its processing list has them. -/
def claimsOf (K : StorageKeys) (s : Store) (p : String) : List JobId :=
  s.list (K.processingQueue p)

/-- These processes have been swept: their claims have got their fates, and their records are gone.
-/
structure Swept (K : StorageKeys) (dead : List String) (s s' : Store) : Prop where
  /-- they keep the claims whose payload cannot be read -/
  claims : ∀ p, claimsOf K s' p =
    if p ∈ dead then (claimsOf K s p).filter (stays K s) else claimsOf K s p
  /-- their jobs that do not come back have lost their payload -/
  payload : ∀ id, payloadOf K.jobs s' id =
    if (∃ p ∈ dead, id ∈ claimsOf K s p) ∧ fate K s id = .drops then none else
      payloadOf K.jobs s id
  /-- the others are on their ready lists, as often as they were claimed -/
  ready : ∀ queue, K.Plain queue → ∀ id, (s'.list (K.namespaceQueue queue)).count id =
    (s.list (K.namespaceQueue queue)).count id +
      if fate K s id = .returns queue then ∑ p ∈ dead.toFinset, (claimsOf K s p).count id else 0
  /-- those that keep nothing have lost their records -/
  records : records K s' =
    (records K s).filter fun r => ¬(r.1 ∈ dead ∧ claimsOf K s' r.1 = [])
  /-- both of them -/
  data : s'.hash K.processesData =
    (s.hash K.processesData).filter fun r => ¬(r.1 ∈ dead ∧ claimsOf K s' r.1 = [])
  /-- no other key is touched -/
  untouched : ∀ k, k ≠ K.jobs → (∀ p ∈ dead, k ≠ K.processingQueue p) →
    (∀ queue, K.Plain queue → k ≠ K.namespaceQueue queue) → k ≠ K.processes →
    k ≠ K.processesData → s'.get k = s.get k

/-- The store without the records of a process. -/
def forgotten (K : StorageKeys) (p : String) (s : Store) : Store :=
  (s.put K.processes (.zset (unset p (records K s)))).put K.processesData
    (.hash (unset p (s.hash K.processesData)))

/-- The records of a process are dropped, and nothing else. -/
theorem solo_unregister {us : List Unit}
    (h : Call.Solo allowed (pipe .unregister (unregister K p)) w (.ok us) w') :
    w.store.Fits K.processes .zset ∧ w' = { w with store := forgotten K p w.store } := by
  obtain ⟨a, as, hzrem, h₁⟩ := solo_pipe_cons h
  obtain ⟨b, bs, hhdel, h₂⟩ := solo_pipe_cons h₁
  obtain rfl := solo_pipe_nil h₂
  have hset : w.store.Fits K.processes .zset := (onKind_inv hzrem).1
  have hafter : w.after (zrem K.processes p) =
      { w with store := w.store.put K.processes (.zset (unset p (w.store.zset K.processes))) } := by
    rw [World.after, zrem_ok hset]
  have hhash : (w.after (zrem K.processes p)).store.Fits K.processesData .hash :=
    (onKind_inv hhdel).1
  refine ⟨hset, ?_⟩
  rw [World.after, hdel_ok hhash, hafter, forgotten]
  simp only [Store.hash_put_ne _ StorageKeys.processes_ne_processesData.symm]
  rfl

theorem forgotten_get {k : Key} (h₁ : k ≠ K.processes) (h₂ : k ≠ K.processesData) :
    (forgotten K p s).get k = s.get k := by
  rw [forgotten, Store.get_put_ne _ h₂, Store.get_put_ne _ h₁]

theorem forgotten_records : records K (forgotten K p s) = unset p (records K s) := by
  rw [records, forgotten, Store.zset_put_ne _ StorageKeys.processes_ne_processesData,
    Store.zset_put_self]

theorem forgotten_data :
    (forgotten K p s).hash K.processesData = unset p (s.hash K.processesData) := by
  rw [forgotten, Store.hash_put_self]

/-- Which entries are left of a list when those of one process are dropped, unless it keeps claims.
-/
theorem filter_single {β : Type} {left : List JobId} (l : List (String × β))
    (keeps : String → List JobId) (hp : keeps p = left) :
    (l.filter fun r => ¬(r.1 ∈ [p] ∧ keeps r.1 = [])) = if left = [] then unset p l else l := by
  split
  · next hnil =>
    refine List.filter_congr fun r _ => decide_eq_decide.mpr ⟨fun h heq => h ⟨?_, ?_⟩, ?_⟩
    · exact List.mem_singleton.mpr heq
    · rw [heq, hp, hnil]
    · rintro hne ⟨hin, -⟩
      exact hne (List.mem_singleton.mp hin)
  · next hsome =>
    refine List.filter_eq_self.mpr fun r _ => decide_eq_true ?_
    rintro ⟨hin, hnil⟩
    rw [List.mem_singleton.mp hin, hp] at hnil
    exact hsome hnil

/-- When the claims of a process have been dealt with, its records are dropped. -/
theorem Handled.swept (h : Handled K p (claimsOf K s p) [] s s₁)
    (hget : ∀ k, k ≠ K.processes → k ≠ K.processesData → s'.get k = s₁.get k)
    (hrecords : records K s' = if claimsOf K s₁ p = [] then unset p (records K s₁) else
      records K s₁)
    (hdata : s'.hash K.processesData = if claimsOf K s₁ p = [] then
      unset p (s₁.hash K.processesData) else s₁.hash K.processesData) :
    Swept K [p] s s' := by
  have hne := StorageKeys.records_ne_jobs (K := K)
  have hproc := StorageKeys.processing_ne_records (K := K)
  -- the loop over the claims leaves the records alone, and what follows the rest
  have hkept {k : Key} (hk : k ≠ K.jobs) (hq : ∀ q, k ≠ K.processingQueue q)
      (hqueue : ∀ queue, K.Plain queue → k ≠ K.namespaceQueue queue) : s₁.get k = s.get k :=
    h.untouched k hk (hq p) hqueue
  have hlists (q : String) : claimsOf K s' q = claimsOf K s₁ q :=
    Store.list_congr (hget _ (hproc q).1 (hproc q).2)
  have hclaims : claimsOf K s₁ p = (claimsOf K s p).filter (stays K s) :=
    h.claims.trans (List.append_nil _)
  refine ⟨fun q => ?_, fun id => ?_, fun queue hq id => ?_, ?_, ?_, fun k hj hp hk h₁ h₂ => ?_⟩
  · rw [hlists]
    by_cases hqp : q = p
    · subst hqp
      rw [if_pos (List.mem_singleton.mpr rfl), hclaims]
    · rw [if_neg fun hin => hqp (List.mem_singleton.mp hin)]
      exact Store.list_congr (h.untouched _ (StorageKeys.processing_ne_fixed q).1
        (fun heq => hqp (StorageKeys.processingQueue_injective heq))
        fun queue hq => (StorageKeys.queue_ne_processing hq q).symm)
  · rw [payloadOf, Store.hash_congr (hget _ hne.1.1.symm hne.2.1.symm)]
    refine (h.payload id).trans ?_
    simp only [List.mem_singleton, exists_eq_left]
  · rw [Store.list_congr (hget _ (StorageKeys.queue_ne_records hq).1 (StorageKeys.queue_ne_records hq).2),
      h.ready queue hq id]
    simp only [List.toFinset_cons, List.toFinset_nil, insert_empty_eq, Finset.sum_singleton]
  · rw [hrecords, filter_single (records K s) (claimsOf K s') (hlists p)]
    rw [records, records, Store.zset_congr (hkept hne.1.1 (fun q => (hproc q).1.symm)
      fun queue hq => (StorageKeys.queue_ne_records hq).1.symm)]
  · rw [hdata, filter_single (s.hash K.processesData) (claimsOf K s') (hlists p)]
    rw [Store.hash_congr (hkept hne.2.1 (fun q => (hproc q).2.symm)
      fun queue hq => (StorageKeys.queue_ne_records hq).2.symm)]
  · rw [hget k h₁ h₂]
    exact h.untouched k hj (hp p (List.mem_singleton.mpr rfl)) hk

/-- **One process** that is swept alone: its claims get their fates, and its records are dropped. -/
theorem solo_resurrectProcess (hplain : PlainQueues K w.store)
    (h : Call.Solo allowed (resurrectProcess K p) w (.ok ()) w') :
    Swept K [p] w.store w'.store ∧ w'.clock = w.clock := by
  obtain ⟨ids, w₁, hrange, h⟩ := solo_bind_ok h
  obtain ⟨hids, rfl⟩ := solo_send_ok hrange
  rw [World.after_read (lrange_snd ..)] at h
  obtain rfl : w.store.list (K.processingQueue p) = ids := (onKind_inv hids).2
  obtain ⟨moved, w₂, hjobs, h⟩ := solo_bind_ok h
  obtain ⟨hhandled, hclock⟩ := solo_resurrectJobs hplain (.start K p w.store) hjobs
  rw [List.nil_append] at hhandled
  obtain ⟨left, w₃, hlen, h⟩ := solo_bind_ok h
  obtain ⟨hleft, rfl⟩ := solo_send_ok hlen
  rw [World.after_read (llen_snd ..)] at h
  obtain rfl : (claimsOf K w₂.store p).length = left := (onKind_inv hleft).2
  split at h
  · next hnone =>
    obtain ⟨us, w₄, hunregister, h⟩ := solo_bind_ok h
    obtain ⟨-, rfl⟩ := solo_pure.mp h
    have hnil : claimsOf K w₂.store p = [] := List.length_eq_zero_iff.mp hnone
    rw [(solo_unregister hunregister).2]
    refine ⟨hhandled.swept (fun k h₁ h₂ => forgotten_get h₁ h₂) ?_ ?_, hclock⟩
    · rw [if_pos hnil, forgotten_records]
    · rw [if_pos hnil, forgotten_data]
  · next hsome =>
    obtain ⟨-, rfl⟩ := solo_pure.mp h
    have hleft : claimsOf K w'.store p ≠ [] := fun hnil => hsome (by rw [hnil]; rfl)
    exact ⟨hhandled.swept (fun _ _ _ => rfl) (if_neg hleft).symm (if_neg hleft).symm, hclock⟩

/-! ## One process after the other -/

section Compose

variable {dead : List String}

/-- Which claims stay does not change on the way from one process to the next. -/
theorem Swept.fate_eq (h : Swept K dead s s') (id : JobId) : fate K s' id =
    if (∃ p ∈ dead, id ∈ claimsOf K s p) ∧ fate K s id = .drops then .absent else fate K s id :=
  fate_of_payload (h.payload id)

theorem Swept.returns_iff (h : Swept K dead s s') {queue : String} :
    fate K s' id = .returns queue ↔ fate K s id = .returns queue := by
  rw [h.fate_eq id]
  split
  · next hdrops =>
    rw [hdrops.2]
    exact ⟨nofun, nofun⟩
  · exact Iff.rfl

theorem Swept.stays_eq (h : Swept K dead s s') : stays K s' = stays K s := by
  funext id
  rw [stays, stays, h.fate_eq id]
  split
  · next hdrops =>
    rw [hdrops.2]
    rfl
  · rfl

theorem Swept.plain (h : Swept K dead s s') (hplain : PlainQueues K s) : PlainQueues K s' :=
  fun id queue hreturns => hplain id queue (h.returns_iff.mp hreturns)

theorem Swept.nil (K : StorageKeys) (s : Store) : Swept K [] s s where
  claims := fun p => (if_neg List.not_mem_nil).symm
  payload := fun id => (if_neg fun h => h.1.elim fun _ hp => List.not_mem_nil hp.1).symm
  ready := fun queue _ id => by simp
  records := (List.filter_eq_self.mpr fun r _ => decide_eq_true fun h =>
    List.not_mem_nil h.1).symm
  data := (List.filter_eq_self.mpr fun r _ => decide_eq_true fun h => List.not_mem_nil h.1).symm
  untouched := fun _ _ _ _ _ _ => rfl

/-- A process that has been swept has nothing left to sweep. -/
theorem Swept.again (h : Swept K [p] s s₁) :
    (claimsOf K s₁ p).filter (stays K s₁) = claimsOf K s₁ p := by
  rw [h.claims p, if_pos (List.mem_singleton.mpr rfl), h.stays_eq, List.filter_filter]
  exact List.filter_congr fun id _ => Bool.and_self _

/-- Sweeping one process leaves the claims of the others alone. -/
theorem Swept.others (h : Swept K [p] s s₁) {q : String} (hq : q ≠ p) :
    claimsOf K s₁ q = claimsOf K s q := by
  rw [h.claims q, if_neg fun hin => hq (List.mem_singleton.mp hin)]

/-- A claim that does not stay is gone after the sweep. -/
theorem Swept.gone (h : Swept K [p] s s₁) (hid : stays K s id = false) :
    id ∉ claimsOf K s₁ p := by
  rw [h.claims p, if_pos (List.mem_singleton.mpr rfl)]
  intro hin
  rw [(List.mem_filter.mp hin).2] at hid
  cases hid

/-- The entries that outlive the first process and then the others are those that outlive all of
them. -/
theorem filter_both {β : Type} {l : List (String × β)} {c c' : String → List JobId}
    (hp : c' p = c p) :
    ((l.filter fun r => ¬(r.1 ∈ [p] ∧ c r.1 = [])).filter fun r =>
      ¬(r.1 ∈ dead ∧ c' r.1 = [])) = l.filter fun r => ¬(r.1 ∈ p :: dead ∧ c' r.1 = []) := by
  rw [List.filter_filter]
  refine List.filter_congr fun r _ => ?_
  rw [← Bool.decide_and, decide_eq_decide]
  simp only [List.mem_cons, List.not_mem_nil, or_false]
  constructor
  · rintro ⟨hdead, hfirst⟩ ⟨heq | hin, hnil⟩
    · rw [heq, hp] at hnil
      exact hfirst ⟨heq, by rw [heq]; exact hnil⟩
    · exact hdead ⟨hin, hnil⟩
  · intro h
    refine ⟨fun hd => h ⟨.inr hd.1, hd.2⟩, fun hf => h ⟨.inl hf.1, ?_⟩⟩
    have hnil := hf.2
    rw [hf.1] at hnil ⊢
    rw [hp]
    exact hnil

/-- **One process, and then the others** are swept as all of them together. -/
theorem Swept.cons (h : Swept K [p] s s₁) (hs : Swept K dead s₁ s') : Swept K (p :: dead) s s' := by
  have hsame : claimsOf K s' p = claimsOf K s₁ p := by
    rw [hs.claims p, h.again, ite_self]
  refine ⟨fun q => ?_, fun id => ?_, fun queue hq id => ?_, ?_, ?_, fun k hj hp hk h₁ h₂ => ?_⟩
  · by_cases hqp : q = p
    · rw [hqp, hsame, h.claims p, if_pos (List.mem_singleton.mpr rfl),
        if_pos (List.mem_cons_self ..)]
    · rw [hs.claims q, h.others hqp, h.stays_eq]
      simp only [List.mem_cons, hqp, false_or]
  · rw [hs.payload id, h.payload id, h.fate_eq id]
    simp only [List.mem_singleton, exists_eq_left]
    by_cases hdrops : fate K s id = .drops
    · by_cases hin : id ∈ claimsOf K s p
      · have hsome : ∃ q ∈ p :: dead, id ∈ claimsOf K s q := ⟨p, List.mem_cons_self .., hin⟩
        simp only [hin, hdrops, hsome, and_self, if_true, ite_self]
      · have hiff : (∃ q ∈ dead, id ∈ claimsOf K s₁ q) ↔ ∃ q ∈ p :: dead, id ∈ claimsOf K s q := by
          constructor
          · rintro ⟨q, hq, hclaim⟩
            by_cases hqp : q = p
            · subst hqp
              exact absurd hclaim (h.gone (by rw [stays, hdrops]; rfl))
            · exact ⟨q, List.mem_cons_of_mem _ hq, h.others hqp ▸ hclaim⟩
          · rintro ⟨q, hq, hclaim⟩
            rcases List.mem_cons.mp hq with rfl | hq
            · exact absurd hclaim hin
            · have hqp : q ≠ p := by
                rintro rfl
                exact hin hclaim
              exact ⟨q, hq, (h.others hqp).symm ▸ hclaim⟩
        simp only [hin, false_and, if_false, hiff]
    · simp only [hdrops, and_false, if_false]
  · rw [hs.ready queue hq id, h.ready queue hq id, Nat.add_assoc]
    simp only [h.returns_iff]
    congr 1
    by_cases hreturns : fate K s id = .returns queue
    · have hgone : (claimsOf K s₁ p).count id = 0 :=
        List.count_eq_zero_of_not_mem (h.gone (by rw [stays, hreturns]; rfl))
      simp only [if_pos hreturns, List.toFinset_cons, List.toFinset_nil, insert_empty_eq,
        Finset.sum_singleton]
      calc (claimsOf K s p).count id + ∑ q ∈ dead.toFinset, (claimsOf K s₁ q).count id
          = (claimsOf K s p).count id +
              ∑ q ∈ dead.toFinset.erase p, (claimsOf K s₁ q).count id := by
            rw [Finset.sum_erase (f := fun q => (claimsOf K s₁ q).count id) _ hgone]
        _ = (claimsOf K s p).count id +
              ∑ q ∈ dead.toFinset.erase p, (claimsOf K s q).count id := by
            congr 1
            refine Finset.sum_congr rfl fun q hq => ?_
            rw [h.others (Finset.ne_of_mem_erase hq)]
        _ = ∑ q ∈ insert p dead.toFinset, (claimsOf K s q).count id := by
            rw [← Finset.add_sum_erase _ _ (Finset.mem_insert_self p dead.toFinset),
              Finset.erase_insert_eq_erase]
    · simp only [if_neg hreturns, Nat.add_zero]
  · rw [hs.records, h.records, filter_both hsame]
  · rw [hs.data, h.data, filter_both hsame]
  · rw [hs.untouched k hj (fun q hq => hp q (List.mem_cons_of_mem _ hq)) hk h₁ h₂]
    refine h.untouched k hj (fun q hq => ?_) hk h₁ h₂
    rw [List.mem_singleton.mp hq]
    exact hp p (List.mem_cons_self ..)

end Compose

/-- All dead processes are swept, one after the other, when their sweep is alone. -/
theorem solo_resurrectProcesses {dead : List String} (hplain : PlainQueues K w.store)
    (h : Call.Solo allowed (resurrectProcesses K dead) w (.ok ()) w') :
    Swept K dead w.store w'.store ∧ w'.clock = w.clock := by
  induction dead generalizing w with
  | nil =>
    obtain ⟨-, rfl⟩ := solo_pure.mp h
    exact ⟨.nil K w'.store, rfl⟩
  | cons p dead ih =>
    obtain ⟨u, w₁, hone, hrest⟩ := solo_bind_ok h
    obtain ⟨hswept, hclock⟩ := solo_resurrectProcess hplain hone
    obtain ⟨hall, hclock'⟩ := ih (hswept.plain hplain) hrest
    exact ⟨hswept.cons hall, hclock'.trans hclock⟩

/-! ## Sweeping again -/

/-- The same store, but for what is kept of processes that have no record. The last part of a key
may be the name of such a process, a sweep then takes it for dead, and as there are no claims it
deletes what is kept of it. -/
structure Rests (K : StorageKeys) (s s' : Store) : Prop where
  /-- no key but the hash of the processes' data has changed -/
  get : ∀ k, k ≠ K.processesData → s'.get k = s.get k
  /-- what is kept of the processes that have a record is the same -/
  data : ∀ p ∈ (records K s).map (·.1),
    (s'.hash K.processesData).lookup p = (s.hash K.processesData).lookup p

theorem Rests.refl (s : Store) : Rests K s s := ⟨fun _ _ => rfl, fun _ _ => rfl⟩

theorem Rests.records (h : Rests K s s') : records K s' = records K s :=
  Store.zset_congr (h.get _ StorageKeys.processes_ne_processesData)

theorem Rests.claims (h : Rests K s s') (p : String) : claimsOf K s' p = claimsOf K s p :=
  Store.list_congr (h.get _ (StorageKeys.processing_ne_records p).2)

theorem Rests.fate (h : Rests K s s') (id : JobId) : Oxana.fate K s' id = Oxana.fate K s id := by
  have hne := StorageKeys.records_ne_jobs (K := K)
  exact fate_congr (by rw [payloadOf, Store.hash_congr (h.get _ hne.2.1.symm), payloadOf])

theorem Rests.trans (h : Rests K s s₁) (h' : Rests K s₁ s') : Rests K s s' :=
  ⟨fun k hk => (h'.get k hk).trans (h.get k hk), fun p hp =>
    (h'.data p (h.records ▸ hp)).trans (h.data p hp)⟩

/-- There is nothing to be done for the process. -/
structure Idle (K : StorageKeys) (s : Store) (p : String) : Prop where
  /-- none of its claims can be read -/
  claims : ∀ id ∈ claimsOf K s p, fate K s id = .malformed
  /-- a process without claims has no record either -/
  record : claimsOf K s p = [] → p ∉ (records K s).map (·.1)

/-- A process with nothing to sweep has nothing to sweep after a sweep that has nothing to do. -/
theorem Rests.idle (h : Rests K s s') (hp : Idle K s p) : Idle K s' p := by
  refine ⟨fun id hid => ?_, fun hnil => ?_⟩
  · rw [h.claims] at hid
    rw [h.fate]
    exact hp.claims id hid
  · rw [h.claims] at hnil
    rw [h.records]
    exact hp.record hnil

/-- Dropping records that are not there changes nothing that a sweep looks at. -/
theorem forgotten_rests (hfits : s.Fits K.processes .zset) (hp : p ∉ (records K s).map (·.1)) :
    Rests K s (forgotten K p s) := by
  have hsame : unset p (records K s) = records K s := by
    refine List.filter_eq_self.mpr fun r hr => decide_eq_true fun heq => hp ?_
    exact heq ▸ List.mem_map_of_mem hr
  refine ⟨fun k hk => ?_, fun q hq => ?_⟩
  · by_cases hset : k = K.processes
    · rw [hset, forgotten, Store.get_put_ne _ StorageKeys.processes_ne_processesData, hsame, records,
        Store.put_zset_same hfits]
    · exact forgotten_get hset hk
  · have hne : q ≠ p := by
      rintro rfl
      exact hp hq
    rw [forgotten_data, lookup_unset_ne hne]

/-- Claims that cannot be read are passed over, and nothing changes. -/
theorem solo_resurrectJobs_idle {n : Nat} {ids : List JobId}
    (hin : ∀ id ∈ ids, id ∈ claimsOf K w.store p)
    (hids : ∀ id ∈ ids, fate K w.store id = .malformed)
    (h : Call.Solo allowed (resurrectJobs K p ids) w (.ok n) w') : w' = w := by
  induction ids generalizing n with
  | nil => exact (solo_pure.mp h).2
  | cons id ids ih =>
    obtain ⟨moved, w₁, hone, h⟩ := solo_bind_ok h
    obtain ⟨count, w₂, hrest, h⟩ := solo_bind_ok h
    obtain ⟨-, rfl⟩ := solo_pure.mp h
    have hsame : w₁ = w := by
      rw [solo_resurrectOne (hin id (List.mem_cons_self ..)) hone, settled,
        hids id (List.mem_cons_self ..)]
    rw [hsame] at hrest
    exact ih (fun id' hid' => hin id' (List.mem_cons_of_mem _ hid'))
      (fun id' hid' => hids id' (List.mem_cons_of_mem _ hid')) hrest

/-- Sweeping a process with nothing to sweep changes nothing that a sweep looks at. -/
theorem solo_resurrectProcess_idle (hp : Idle K w.store p)
    (h : Call.Solo allowed (resurrectProcess K p) w (.ok ()) w') : Rests K w.store w'.store := by
  obtain ⟨ids, w₁, hrange, h⟩ := solo_bind_ok h
  obtain ⟨hids, rfl⟩ := solo_send_ok hrange
  rw [World.after_read (lrange_snd ..)] at h
  obtain rfl : claimsOf K w.store p = ids := (onKind_inv hids).2
  obtain ⟨moved, w₂, hjobs, hrest⟩ := solo_bind_ok h
  obtain rfl := solo_resurrectJobs_idle (fun _ hid => hid) hp.claims hjobs
  obtain ⟨left, w₃, hlen, h⟩ := solo_bind_ok hrest
  obtain ⟨hleft, rfl⟩ := solo_send_ok hlen
  rw [World.after_read (llen_snd ..)] at h
  obtain rfl : (claimsOf K w₂.store p).length = left := (onKind_inv hleft).2
  split at h
  · next hnone =>
    obtain ⟨us, w₄, hunregister, h⟩ := solo_bind_ok h
    obtain ⟨-, rfl⟩ := solo_pure.mp h
    obtain ⟨hfits, rfl⟩ := solo_unregister hunregister
    exact forgotten_rests hfits (hp.record (List.length_eq_zero_iff.mp hnone))
  · obtain ⟨-, rfl⟩ := solo_pure.mp h
    exact .refl _

/-- **A sweep that has nothing to do** changes nothing that a sweep looks at. -/
theorem solo_resurrectProcesses_idle {dead : List String} (hdead : ∀ p ∈ dead, Idle K w.store p)
    (h : Call.Solo allowed (resurrectProcesses K dead) w (.ok ()) w') :
    Rests K w.store w'.store := by
  induction dead generalizing w with
  | nil =>
    obtain ⟨-, rfl⟩ := solo_pure.mp h
    exact .refl _
  | cons p dead ih =>
    obtain ⟨u, w₁, hone, hrest⟩ := solo_bind_ok h
    have hfirst := solo_resurrectProcess_idle (hdead p (List.mem_cons_self ..)) hone
    exact hfirst.trans (ih (fun q hq => hfirst.idle (hdead q (List.mem_cons_of_mem _ hq))) hrest)

/-! ## The sweep and its purpose -/

section Purpose

variable (K)

/-- The sweep returns; the server has returned every processing list that it was asked for. -/
def Recovers (threshold : Nat) (w w' : World γ) : Prop :=
  ∃ keys, ScansAll (K.processingQueuePrefix ++ ":*") w keys w ∧
    Call.Solo (fun _ => True) (do
      let dead ← deadProcessIdsIn K keys.dedup threshold
      resurrectProcesses K dead) w (.ok ()) w'

/-- The process is dead: it has not been heard of for too long, or it has claims and no record. -/
def Defunct (threshold : Nat) (t : Int) (s : Store) (p : String) : Prop :=
  (∃ score, (p, score) ∈ records K s ∧ stale threshold t score = true) ∨
    (p ∉ (records K s).map (·.1) ∧ claimsOf K s p ≠ [])

/-- The sweep comes across the process: it has a record, or some key that the search returns ends
with its name. -/
def Seen (s : Store) (p : String) : Prop :=
  p ∈ (records K s).map (·.1) ∨ ∃ k, (s.get k).isSome = true ∧
    globMatch (K.processingQueuePrefix ++ ":*") k = true ∧ lastSegment k = p

/-- What is kept of a process: its last heartbeat, and what it has said of itself. -/
def recordOf (s : Store) (p : String) : Option (Int × Option String) :=
  ((records K s).lookup p).map fun score => (score, (s.hash K.processesData).lookup p)

/-- **What a sweep is for**: the claims of these processes have been recovered, and nothing else
has happened. -/
structure Recovered (ps : Finset String) (s s' : Store) : Prop where
  /-- claims whose payload cannot be read are still in place, and no others -/
  claims : ∀ p ∈ ps, claimsOf K s' p = (claimsOf K s p).filter (stays K s)
  /-- payloads are unchanged, but for those of claimed jobs that do not come back -/
  payload : ∀ id, payloadOf K.jobs s' id =
    if (∃ p ∈ ps, id ∈ claimsOf K s p) ∧ fate K s id = .drops then none else
      payloadOf K.jobs s id
  /-- those that come back are on their ready lists, once per claim -/
  ready : ∀ queue, K.Plain queue → ∀ id, (s'.list (K.namespaceQueue queue)).count id =
    (s.list (K.namespaceQueue queue)).count id +
      if fate K s id = .returns queue then ∑ p ∈ ps, (claimsOf K s p).count id else 0
  /-- nothing is kept of the processes that have no claims left -/
  forgets : ∀ p ∈ ps, claimsOf K s' p = [] →
    (records K s').lookup p = none ∧ (s'.hash K.processesData).lookup p = none
  /-- what is kept of all other processes is as it was -/
  keeps : ∀ p, p ∉ ps ∨ claimsOf K s' p ≠ [] → recordOf K s' p = recordOf K s p
  /-- the claims of the processes that are not dead are as they were -/
  others : ∀ p, p ∉ ps → claimsOf K s' p = claimsOf K s p
  /-- the jobs that wait for their time stay where they are -/
  later : s'.get K.schedule = s.get K.schedule ∧ s'.get K.retry = s.get K.retry

end Purpose

section Spec

variable {threshold : Nat} {keys : List Key} {ps : Finset String} {dead : List String}

/-- What `Recovers` describes is a run of the sweep that succeeds. -/
theorem Recovers.solo (h : Recovers K threshold w w') :
    Call.Solo (fun _ => True) (resurrect K threshold) w (.ok ()) w' := by
  obtain ⟨keys, hscan, hrun⟩ := h
  obtain ⟨dead, w₁, hdead, hrest⟩ := solo_bind_ok hrun
  obtain ⟨c, hc, hkeys⟩ := solo_ask.mp hscan.run
  have hids : Call.Solo (fun _ => True) (deadProcessIds K threshold) w (.ok dead) w₁ :=
    solo_ask.mpr ⟨c, hc, solo_bind.mpr (.inl ⟨keys, w, hkeys, hdead⟩)⟩
  exact solo_bind.mpr (.inl ⟨(), w, ⟨{}, trivial, rfl, rfl⟩,
    solo_bind.mpr (.inl ⟨dead, w₁, hids, hrest⟩)⟩)

/-- The processes that a sweep takes for dead, and what it does to them. -/
theorem Recovers.run (h : Recovers K threshold w w') :
    ∃ keys, ScansAll (K.processingQueuePrefix ++ ":*") w keys w ∧
      Call.Solo (fun _ => True) (resurrectProcesses K
        (deadAmong threshold w.clock keys.dedup (records K w.store))) w (.ok ()) w' := by
  obtain ⟨keys, hscan, hrun⟩ := h
  obtain ⟨dead, w₁, hdead, hrest⟩ := solo_bind_ok hrun
  obtain ⟨found, w₂, hrange, hdead⟩ := solo_bind_ok hdead
  obtain ⟨hfound, rfl⟩ := solo_send_ok hrange
  obtain rfl : records K w.store = found := (onKind_inv hfound).2
  rw [World.after_read (zrangeWithScores_snd ..)] at hdead
  rw [solo_now_bind] at hdead
  obtain ⟨hids, rfl⟩ := solo_pure.mp hdead
  obtain rfl := Except.ok.inj hids
  exact ⟨keys, hscan, hrest⟩

/-- Whom a sweep takes for dead: who has claims it has come across or a record, and no record that
is recent. -/
theorem mem_deadAmong_iff (hscan : ScansAll (K.processingQueuePrefix ++ ":*") w keys w') {t : Int} :
    p ∈ deadAmong threshold t keys.dedup (records K w.store) ↔
      (∃ score, (p, score) ∈ records K w.store ∧ stale threshold t score = true) ∨
        (p ∉ (records K w.store).map (·.1) ∧ Seen K w.store p) := by
  rw [deadAmong, List.mem_append, List.mem_map, List.mem_filter, List.mem_map]
  refine or_congr ⟨?_, ?_⟩ ⟨?_, ?_⟩
  · rintro ⟨⟨q, score⟩, hr, rfl⟩
    exact ⟨score, List.mem_filter.mp hr⟩
  · rintro ⟨score, hr, hstale⟩
    exact ⟨(p, score), List.mem_filter.mpr ⟨hr, hstale⟩, rfl⟩
  · rintro ⟨⟨k, hk, hlast⟩, hnone⟩
    have hfound := (hscan.mem_iff k).mp (List.mem_dedup.mp hk)
    exact ⟨of_decide_eq_true hnone, .inr ⟨k, hfound.1, hfound.2, hlast⟩⟩
  · rintro ⟨hnone, hseen⟩
    obtain ⟨k, hsome, hmatch, hlast⟩ := hseen.resolve_left hnone
    exact ⟨⟨k, List.mem_dedup.mpr ((hscan.mem_iff k).mpr ⟨hsome, hmatch⟩), hlast⟩,
      decide_eq_true hnone⟩

/-- The processes `dead` that were swept are those that the claims ask for, as far as there was
anything to do. -/
structure Matches (K : StorageKeys) (s : Store) (dead : List String) (ps : Finset String) :
    Prop where
  /-- a process that should have been swept and was not has no record, and only claims that stay
  anyway -/
  missed : ∀ p ∈ ps, p ∉ dead →
    (∀ id ∈ claimsOf K s p, stays K s id = true) ∧ claimsOf K s p ≠ []
  /-- a process that was swept without need has neither claims nor a record -/
  extra : ∀ p ∈ dead, p ∉ ps → claimsOf K s p = [] ∧ p ∉ (records K s).map (·.1)

theorem lookup_filter {β : Type} (keep : String → Bool) (l : List (String × β)) (p : String) :
    (l.filter fun r => keep r.1).lookup p = if keep p = true then l.lookup p else none := by
  induction l with
  | nil => exact (ite_self _).symm
  | cons r l ih =>
    obtain ⟨q, x⟩ := r
    by_cases hq : p = q
    · subst hq
      by_cases hkeep : keep p = true
      · simp [hkeep]
      · simp [hkeep, ih]
    · have hne : (p == q) = false := beq_eq_false_iff_ne.mpr hq
      by_cases hkeep : keep q = true
      · simp [hkeep, List.lookup_cons, hne, ih]
      · simp [hkeep, List.lookup_cons, hne, ih]

theorem lookup_eq_none {β : Type} {l : List (String × β)} (h : p ∉ l.map (·.1)) :
    l.lookup p = none := by
  rw [List.lookup_eq_none_iff]
  intro r hr
  rw [bne_iff_ne]
  rintro rfl
  exact h (List.mem_map_of_mem hr)

/-- What is left of the entries of a process after the sweep. -/
theorem lookup_left {β : Type} {l : List (String × β)} {keeps : String → List JobId} :
    (l.filter fun r => ¬(r.1 ∈ dead ∧ keeps r.1 = [])).lookup p =
      if p ∈ dead ∧ keeps p = [] then none else l.lookup p := by
  rw [lookup_filter fun q => ¬(q ∈ dead ∧ keeps q = [])]
  by_cases hgone : p ∈ dead ∧ keeps p = []
  · rw [if_pos hgone, if_neg (by simpa using hgone)]
  · rw [if_neg hgone, if_pos (decide_eq_true hgone)]

/-- A job whose claims do not stay is claimed by one of the processes that were swept exactly if it
is claimed by one of those that are dead. -/
theorem Matches.claimed_iff (h : Matches K s dead ps) (hid : stays K s id = false) :
    (∃ p ∈ dead, id ∈ claimsOf K s p) ↔ ∃ p ∈ ps, id ∈ claimsOf K s p := by
  constructor
  · rintro ⟨p, hp, hclaim⟩
    refine ⟨p, ?_, hclaim⟩
    by_contra hnot
    rw [(h.extra p hp hnot).1] at hclaim
    exact List.not_mem_nil hclaim
  · rintro ⟨p, hp, hclaim⟩
    refine ⟨p, ?_, hclaim⟩
    by_contra hnot
    rw [(h.missed p hp hnot).1 id hclaim] at hid
    cases hid

/-- The claims of a job among those swept are as many as among the dead processes. -/
theorem Matches.sum_eq (h : Matches K s dead ps) (hid : stays K s id = false) :
    ∑ p ∈ dead.toFinset, (claimsOf K s p).count id = ∑ p ∈ ps, (claimsOf K s p).count id := by
  have hdead : ∑ p ∈ dead.toFinset, (claimsOf K s p).count id =
      ∑ p ∈ dead.toFinset ∪ ps, (claimsOf K s p).count id := by
    refine Finset.sum_subset Finset.subset_union_left fun p hp hnot => ?_
    have hps := (Finset.mem_union.mp hp).resolve_left hnot
    refine List.count_eq_zero_of_not_mem fun hclaim => ?_
    rw [(h.missed p hps fun hin => hnot (List.mem_toFinset.mpr hin)).1 id hclaim] at hid
    cases hid
  have hps : ∑ p ∈ ps, (claimsOf K s p).count id =
      ∑ p ∈ dead.toFinset ∪ ps, (claimsOf K s p).count id := by
    refine Finset.sum_subset Finset.subset_union_right fun p hp hnot => ?_
    have hin := List.mem_toFinset.mp ((Finset.mem_union.mp hp).resolve_right hnot)
    rw [(h.extra p hin hnot).1]
    rfl
  rw [hdead, hps]

/-- **The sweep does what it is for**: every claim of a dead process has got its fate, and nothing
else has changed. -/
theorem Swept.recovered (hs : Swept K dead s s') (h : Matches K s dead ps) :
    Recovered K ps s s' where
  claims := fun p hp => by
    rw [hs.claims p]
    by_cases hin : p ∈ dead
    · rw [if_pos hin]
    · rw [if_neg hin, List.filter_eq_self.mpr (h.missed p hp hin).1]
  payload := fun id => by
    rw [hs.payload id]
    by_cases hdrops : fate K s id = .drops
    · have hleaves : stays K s id = false := by
        rw [stays, hdrops]
        rfl
      simp only [h.claimed_iff hleaves]
    · simp only [hdrops, and_false, if_false]
  ready := fun queue hq id => by
    rw [hs.ready queue hq id]
    by_cases hreturns : fate K s id = .returns queue
    · have hleaves : stays K s id = false := by
        rw [stays, hreturns]
        rfl
      rw [h.sum_eq hleaves]
    · rw [if_neg hreturns, if_neg hreturns]
  forgets := fun p hp hnil => by
    have hin : p ∈ dead := by
      by_contra hnot
      rw [hs.claims p, if_neg hnot] at hnil
      exact (h.missed p hp hnot).2 hnil
    rw [hs.records, hs.data, lookup_left, lookup_left]
    exact ⟨if_pos ⟨hin, hnil⟩, if_pos ⟨hin, hnil⟩⟩
  keeps := fun p hp => by
    rw [recordOf, recordOf, hs.records, hs.data, lookup_left, lookup_left]
    by_cases hgone : p ∈ dead ∧ claimsOf K s' p = []
    · have hnot := hp.resolve_right fun hne => hne hgone.2
      rw [lookup_eq_none (h.extra p hgone.1 hnot).2, ite_self]
      rfl
    · rw [if_neg hgone, if_neg hgone]
  others := fun p hp => by
    rw [hs.claims p]
    by_cases hin : p ∈ dead
    · rw [if_pos hin, (h.extra p hin hp).1]
      rfl
    · rw [if_neg hin]
  later := by
    have hne := StorageKeys.records_ne_jobs (K := K)
    have hjobs := (StorageKeys.jobs_ne_schedule (K := K)).symm
    have hretry := (StorageKeys.jobs_ne_retry (K := K)).symm
    exact ⟨hs.untouched _ hjobs
        (fun p _ => (StorageKeys.processing_ne_fixed p).2.2.1.symm)
        (fun queue hq => (StorageKeys.queue_ne_fixed hq).2.2.1.symm) hne.1.2.1.symm hne.2.2.1.symm,
      hs.untouched _ hretry
        (fun p _ => (StorageKeys.processing_ne_fixed p).2.2.2.symm)
        (fun queue hq => (StorageKeys.queue_ne_fixed hq).2.2.2.symm) hne.1.2.2.symm
        hne.2.2.2.symm⟩

/-- The sweep comes across every one of these processes that has a claim it can recover: it finds a
record of the process, or a key that is named after it. -/
def AllSeen (K : StorageKeys) (s : Store) (ps : Finset String) : Prop :=
  ∀ p ∈ ps, Seen K s p ∨ ∀ id ∈ claimsOf K s p, fate K s id = .malformed

theorem AllSeen.matches (h : AllSeen K w.store ps)
    (hps : ∀ p, p ∈ ps ↔ Defunct K threshold w.clock w.store p)
    (hscan : ScansAll (K.processingQueuePrefix ++ ":*") w keys w') :
    Matches K w.store (deadAmong threshold w.clock keys.dedup (records K w.store)) ps := by
  refine ⟨fun p hp hnot => ?_, fun p hin hnot => ?_⟩
  · rw [mem_deadAmong_iff hscan] at hnot
    rcases (hps p).mp hp with hstale | ⟨hnone, hclaims⟩
    · exact absurd (.inl hstale) hnot
    · have hmal := (h p hp).resolve_left fun hseen => hnot (.inr ⟨hnone, hseen⟩)
      exact ⟨fun id hid => decide_eq_true (hmal id hid), hclaims⟩
  · rcases (mem_deadAmong_iff hscan).mp hin with hstale | ⟨hnone, -⟩
    · exact absurd ((hps p).mpr (.inl hstale)) hnot
    · by_contra hno
      refine hnot ((hps p).mpr (.inr ⟨hnone, fun hnil => hno ⟨hnil, hnone⟩⟩))

/-- After the sweep there is nothing to be done for the processes that were dead. -/
theorem Recovered.idle (h : Recovered K ps s s') (hp : p ∈ ps) : Idle K s' p := by
  refine ⟨fun id hid => ?_, fun hnil hin => ?_⟩
  · rw [h.claims p hp] at hid
    have hmal : fate K s id = .malformed := of_decide_eq_true (List.mem_filter.mp hid).2
    have hfate := fate_of_payload (h.payload id)
    rw [hmal] at hfate
    rw [hfate]
    exact if_neg fun hdrops => nomatch hdrops.2
  · obtain ⟨r, hr, rfl⟩ := List.mem_map.mp hin
    have hnone := List.lookup_eq_none_iff.mp (h.forgets r.1 hp hnil).1 r hr
    exact absurd hnone (by simp)

/-- Those that another sweep takes for dead have nothing to be swept. -/
theorem Recovered.idle_dead (h : Recovered K ps w.store w'.store)
    (hs : Swept K dead w.store w'.store) (hclock : w'.clock = w.clock)
    (hps : ∀ p, p ∈ ps ↔ Defunct K threshold w.clock w.store p)
    (hscan : ScansAll (K.processingQueuePrefix ++ ":*") w' keys w')
    (hp : p ∈ deadAmong threshold w'.clock keys.dedup (records K w'.store)) :
    Idle K w'.store p := by
  by_cases hin : p ∈ ps
  · exact h.idle hin
  · rcases (mem_deadAmong_iff hscan).mp hp with ⟨score, hr, hstale⟩ | ⟨hnone, -⟩
    · -- it was dead before
      rw [hs.records] at hr
      rw [hclock] at hstale
      exact absurd ((hps p).mpr (.inl ⟨score, (List.mem_filter.mp hr).1, hstale⟩)) hin
    · -- it has no record, and it had none
      have hkeeps := h.keeps p (.inl hin)
      rw [recordOf, lookup_eq_none hnone] at hkeeps
      have hwas : p ∉ (records K w.store).map (·.1) := by
        rintro hmem
        obtain ⟨r, hr, rfl⟩ := List.mem_map.mp hmem
        have hno := List.lookup_eq_none_iff.mp (Option.map_eq_none_iff.mp hkeeps.symm) r hr
        exact absurd hno (by simp)
      have hnil : claimsOf K w.store p = [] := by
        by_contra hclaims
        exact hin ((hps p).mpr (.inr ⟨hwas, hclaims⟩))
      refine ⟨fun id hid => ?_, fun _ => hnone⟩
      rw [h.others p hin, hnil] at hid
      exact absurd hid List.not_mem_nil

/-- **When a sweep recovers the claims of all dead processes.** It does if it comes across each of
them, except that of those whose claims cannot be read anyway; and then it leaves nothing to do for
a second sweep. -/
theorem resurrect_recovers_iff (hplain : PlainQueues K w.store)
    (hps : ∀ p, p ∈ ps ↔ Defunct K threshold w.clock w.store p) (h : Recovers K threshold w w') :
    Call.Solo (fun _ => True) (resurrect K threshold) w (.ok ()) w' ∧
      ((Recovered K ps w.store w'.store ∧
          ∀ w'', Recovers K threshold w' w'' → Rests K w'.store w''.store) ↔
        AllSeen K w.store ps) := by
  refine ⟨h.solo, ?_⟩
  obtain ⟨keys, hscan, hrun⟩ := h.run
  obtain ⟨hswept, hclock⟩ := solo_resurrectProcesses hplain hrun
  constructor
  · rintro ⟨hrecovered, -⟩ p hp
    rw [or_iff_not_imp_left]
    intro hunseen id hid
    have hnot : p ∉ deadAmong threshold w.clock keys.dedup (records K w.store) := by
      intro hin
      rcases (mem_deadAmong_iff hscan).mp hin with ⟨score, hr, -⟩ | ⟨-, hseen⟩
      · exact hunseen (.inl (List.mem_map_of_mem hr))
      · exact hunseen hseen
    have hclaims := hrecovered.claims p hp
    rw [hswept.claims p, if_neg hnot] at hclaims
    exact of_decide_eq_true (List.filter_eq_self.mp hclaims.symm id hid)
  · intro hseen
    have hrecovered := hswept.recovered (hseen.matches hps hscan)
    refine ⟨hrecovered, fun w'' hagain => ?_⟩
    obtain ⟨keys', hscan', hrun'⟩ := hagain.run
    exact solo_resurrectProcesses_idle
      (fun p hp => hrecovered.idle_dead hswept hclock hps hscan' hp) hrun'

/-- Claims are always come across where the name of the storage means nothing else in a pattern and
the process has no colon in its name. -/
theorem seen_of_literal (hns : Literal K.nspace) (hp : ':' ∉ p.toList)
    (h : claimsOf K s p ≠ []) : Seen K s p := by
  refine .inr ⟨K.processingQueue p, ?_, ?_, ?_⟩
  · by_contra hnone
    refine h ?_
    rw [claimsOf, Store.list]
    rw [Option.not_isSome_iff_eq_none.mp hnone]
  · have hlit : Literal (K.processingQueuePrefix ++ ":") := by
      refine Literal.append (Literal.append hns ?_) ?_
      · decide +kernel
      · decide +kernel
    have hstar : (":*" : String) = ":" ++ "*" := by decide
    rw [hstar, ← String.append_assoc]
    exact globMatch_star hlit p
  · rw [lastSegment, StorageKeys.processingQueue, String.toList_append, String.toList_append,
      List.reverse_append, List.reverse_append]
    have hcolon : (":" : String).toList = [':'] := by decide
    rw [List.takeWhile_append_of_pos fun c hc => decide_eq_true ?_, hcolon]
    · simp
    · rintro rfl
      exact hp (List.mem_reverse.mp hc)

/-- So such a storage recovers all of them. -/
theorem allSeen_of_literal {t : Int} (hns : Literal K.nspace)
    (hps : ∀ p, p ∈ ps ↔ Defunct K threshold t s p) (hcolon : ∀ p ∈ ps, ':' ∉ p.toList) :
    AllSeen K s ps := by
  intro p hp
  rcases (hps p).mp hp with ⟨score, hr, -⟩ | ⟨-, hclaims⟩
  · exact .inl (.inl (List.mem_map_of_mem hr))
  · exact .inl (seen_of_literal hns (hcolon p hp) hclaims)

end Spec

/-! ## A process that has left a claim and no record -/

section Abandoned

/-- The world in which a job of the queue `mail` is claimed by a process without a record. -/
def abandoned (K : StorageKeys) : World Unit :=
  ⟨(Store.empty.put K.jobs (.hash [("b", (welcome "b").encode)])).put (K.processingQueue "h")
    (.list ["b"]), 0, ()⟩

theorem abandoned_keys {k : Key} (h : ((abandoned K).store.get k).isSome = true) :
    k ∈ [K.jobs, K.processingQueue "h"] := by
  by_contra hno
  simp only [List.mem_cons, List.not_mem_nil, or_false, not_or] at hno
  have hget : (abandoned K).store.get k = Store.empty.get k :=
    (Store.get_put_ne _ hno.2).trans (Store.get_put_ne _ hno.1)
  rw [hget] at h
  cases h

theorem abandoned_claims : claimsOf K (abandoned K).store "h" = ["b"] := Store.list_put_self _

theorem abandoned_records : records K (abandoned K).store = [] := by
  rw [records, abandoned, Store.zset_put_ne _ (StorageKeys.processing_ne_records "h").1.symm,
    Store.zset_put_ne _ StorageKeys.processes_ne_jobs]
  rfl

theorem abandoned_payload : payloadOf K.jobs (abandoned K).store id =
    if id = "b" then some (welcome "b").encode else none := by
  rw [payloadOf, abandoned, Store.hash_put_ne _ (StorageKeys.processing_ne_fixed "h").1.symm,
    Store.hash_put_self]
  by_cases hid : id = "b"
  · rw [if_pos hid, hid]
    rfl
  · rw [if_neg hid, List.lookup_cons, beq_eq_false_iff_ne.mpr hid]
    rfl

theorem abandoned_returns : fate K (abandoned K).store "b" = .returns "mail" :=
  fate_of_decode (abandoned_payload.trans (if_pos rfl)) (decode_encode _)

theorem abandoned_plain (h : K.Plain "mail") : PlainQueues K (abandoned K).store := by
  intro id queue hreturns
  by_cases hid : id = "b"
  · rw [hid, abandoned_returns] at hreturns
    cases hreturns
    exact h
  · rw [fate_absent_iff.mpr (abandoned_payload.trans (if_neg hid))] at hreturns
    cases hreturns

/-- The process of the sample is the only one that is dead. -/
theorem abandoned_defunct {threshold : Nat} (p : String) :
    p ∈ ({"h"} : Finset String) ↔ Defunct K threshold (abandoned K).clock (abandoned K).store p := by
  rw [Finset.mem_singleton, Defunct, abandoned_records]
  constructor
  · rintro rfl
    exact .inr ⟨List.not_mem_nil, by rw [abandoned_claims]; exact nofun⟩
  · rintro (⟨score, hr, -⟩ | ⟨-, hclaims⟩)
    · exact absurd hr List.not_mem_nil
    · by_contra hp
      refine hclaims ?_
      rw [claimsOf, abandoned, Store.list_put_ne _ fun heq =>
        hp (StorageKeys.processingQueue_injective heq),
        Store.list_put_ne _ (StorageKeys.processing_ne_fixed p).1]
      rfl

/-- A search of the sample that returns all the keys there are. -/
theorem abandoned_scanned (K : StorageKeys) : ScansAll (K.processingQueuePrefix ++ ":*") (abandoned K)
    ([K.jobs, K.processingQueue "h"].filter fun k =>
      ((abandoned K).store.get k).isSome ∧ globMatch (K.processingQueuePrefix ++ ":*") k)
    (abandoned K) :=
  scansAll_page _ fun _ hk _ => abandoned_keys hk

/-- The world once the claim has been released and the job is back on its ready list. -/
def handedBack (K : StorageKeys) : World Unit :=
  (abandoned K).after (resurrectClaim K.jobs (K.processingQueue "h") (K.namespaceQueue "mail") "b"
    (welcome "b").encode true)

theorem handedBack_ok :
    (resurrectClaim (StorageKeys.new "app").jobs ((StorageKeys.new "app").processingQueue "h")
      ((StorageKeys.new "app").namespaceQueue "mail") "b" (welcome "b").encode true
      (abandoned (.new "app")).store).1.toOption = some 1 ∧
    (llen ((StorageKeys.new "app").processingQueue "h") (handedBack (.new "app")).store).1.toOption =
      some 0 := by
  decide +kernel

/-- The world once the records of the process have been dropped too, if there are any. -/
def unregistered (K : StorageKeys) : World Unit :=
  ((handedBack K).after (zrem K.processes "h")).after (hdel K.processesData ["h"])

theorem unregistered_ok :
    (zrem (StorageKeys.new "app").processes "h" (handedBack (.new "app")).store).1.toOption =
      some () ∧
    (hdel (StorageKeys.new "app").processesData ["h"] ((handedBack (.new "app")).after
      (zrem (StorageKeys.new "app").processes "h")).store).1.toOption = some () := by
  decide +kernel

theorem abandoned_resurrected : Call.Solo Reliable (resurrectProcess (.new "app") "h")
    (abandoned (.new "app")) (.ok ()) (unregistered (.new "app")) := by
  have hread : Call.Solo Reliable (transitionSnapshot (.new "app") "b") (abandoned (.new "app"))
      (.ok (some ((welcome "b").encode, (welcome "b").normalize))) (abandoned (.new "app")) := by
    refine solo_send_bind.mpr ?_
    rw [World.after_read (hget_snd ..)]
    refine .inl ⟨some (welcome "b").encode, rfl, ?_⟩
    simp only [decoded]
    rw [decode_encode]
    exact ⟨rfl, rfl⟩
  have hone : Call.Solo Reliable (resurrectOne (.new "app") "h" "b") (abandoned (.new "app"))
      (.ok 1) (handedBack (.new "app")) :=
    solo_catching.mpr ⟨_, _, hread,
      solo_send_reliable.mpr ⟨congrArg replyOf (ok_of_toOption handedBack_ok.1).symm, rfl⟩⟩
  have hjobs : Call.Solo Reliable (resurrectJobs (.new "app") "h" ["b"]) (abandoned (.new "app"))
      (.ok 1) (handedBack (.new "app")) :=
    solo_bind.mpr (.inl ⟨1, _, hone, rfl, rfl⟩)
  have hunregister : Call.Solo Reliable (pipe .unregister (unregister (.new "app") "h"))
      (handedBack (.new "app")) (.ok [(), ()]) (unregistered (.new "app")) :=
    solo_pipe_reliable (ok_of_toOption unregistered_ok.1)
      (solo_pipe_reliable (ok_of_toOption unregistered_ok.2) ⟨{}, rfl, rfl, rfl⟩)
  refine solo_send_bind.mpr (.inl ⟨["b"], rfl, ?_⟩)
  rw [World.after_read (lrange_snd ..)]
  refine solo_bind.mpr (.inl ⟨1, _, hjobs, solo_send_bind.mpr (.inl ⟨0,
    ok_of_toOption handedBack_ok.2, ?_⟩)⟩)
  rw [World.after_read (llen_snd ..)]
  exact solo_bind.mpr (.inl ⟨_, _, hunregister, rfl, rfl⟩)

theorem abandoned_found {threshold : Nat} {keys : List Key} {dead : List String}
    (h : deadAmong threshold 0 keys [] = dead) :
    Call.Solo Reliable (deadProcessIdsIn K keys threshold) (abandoned K) (.ok dead)
      (abandoned K) := by
  have hfits : (abandoned K).store.Fits K.processes .zset :=
    ((Store.fits_empty _).put _ fun heq => absurd heq StorageKeys.processes_ne_jobs).put _
      fun heq => absurd heq (StorageKeys.processing_ne_records "h").1.symm
  refine solo_send_bind.mpr (.inl ⟨records K (abandoned K).store, ?_, ?_⟩)
  · rw [zrangeWithScores, onKind_ok hfits]
    rfl
  · rw [World.after_read (zrangeWithScores_snd ..), solo_now_bind, abandoned_records, ← h]
    exact ⟨rfl, rfl⟩

/-- In a storage of this name the claims of the dead process are found by the search, and the sweep
recovers them. -/
theorem abandoned_recovered : ∃ w', Recovers (.new "app") 1000000000 (abandoned (.new "app")) w' ∧
    Call.Solo (fun _ => True) (resurrect (.new "app") 1000000000) (abandoned (.new "app")) (.ok ())
      w' ∧
    ((Recovered (.new "app") {"h"} (abandoned (.new "app")).store w'.store ∧
        ∀ w'', Recovers (.new "app") 1000000000 w' w'' → Rests (.new "app") w'.store w''.store) ↔
      AllSeen (.new "app") (abandoned (.new "app")).store {"h"}) := by
  have hrun : Recovers (.new "app") 1000000000 (abandoned (.new "app"))
      (unregistered (.new "app")) := by
    refine ⟨_, abandoned_scanned _, Prog.Solo.mono (fun _ _ => trivial)
      (solo_bind.mpr (.inl ⟨["h"], _, abandoned_found ?_, ?_⟩))⟩
    · decide +kernel
    · exact solo_bind.mpr (.inl ⟨(), _, abandoned_resurrected, rfl, rfl⟩)
  exact ⟨_, hrun, resurrect_recovers_iff (abandoned_plain (by decide)) abandoned_defunct hrun⟩

/-- In a storage of this name, which means something else in a pattern, the claim of the dead
process is not found, and stays where it is. -/
theorem abandoned_missed : ∃ w' : World Unit,
    PlainQueues (.new "a[b]") (abandoned (.new "a[b]")).store ∧
    (∀ p, p ∈ ({"h"} : Finset String) ↔
      Defunct (.new "a[b]") 1000000000 (abandoned (.new "a[b]")).clock
        (abandoned (.new "a[b]")).store p) ∧
    Recovers (.new "a[b]") 1000000000 (abandoned (.new "a[b]")) w' ∧
    ¬ Recovered (.new "a[b]") {"h"} (abandoned (.new "a[b]")).store w'.store := by
  refine ⟨abandoned (.new "a[b]"), abandoned_plain (by decide), abandoned_defunct,
    ⟨_, abandoned_scanned _, Prog.Solo.mono (fun _ _ => trivial)
      (solo_bind.mpr (.inl ⟨[], _, abandoned_found ?_, rfl, rfl⟩))⟩, fun h => ?_⟩
  · decide +kernel
  · have hclaims := h.claims "h" (Finset.mem_singleton_self _)
    rw [abandoned_claims, List.filter_singleton, stays, abandoned_returns] at hclaims
    cases hclaims

end Abandoned

end Oxana
