import Oxana.ProducerCustody
import Oxana.Promotion

/-!
# Sweeps keep to the discipline

Promotions and recoveries own nothing. Their scripts compare what they are
about to move with what was read before, so what they move is a job that waits
in the set they found it in, or a claim of a process whose executions have
ended, and nobody owns these.
-/

namespace Oxana

open Redis Script Interleave Call

variable {K : StorageKeys} {U : Set JobId} {w : World Ledger}

/-- A call that owns nothing, relies on `P`, and keeps to the discipline. -/
abbrev Sweeps {α : Type} (K : StorageKeys) (U : Set JobId) (P : World Ledger → Prop)
    (Q : α → Prop) (x : Call Ledger α) : Prop :=
  Call.Keeps (custody K U) none P (fun a T => T = ∅ ∧ Q a) (· = ∅) ∅ x

theorem Custody.none_mine {o : Option String} : ∀ t ∈ (∅ : Set Custody), Custody.Mine o t :=
  fun _ h => absurd h (Set.notMem_empty _)

theorem Custody.none_held {o : Option String} : ∀ t ∈ (∅ : Set Custody),
    (custody K U).owns t w ∧ Custody.Mine o t :=
  fun _ h => absurd h (Set.notMem_empty _)

theorem transitionSnapshot_sweeps {P : World Ledger → Prop} (id : JobId) :
    Sweeps K U P Decoded (transitionSnapshot K id) := by
  refine Keeps.bind (Q := fun _ T => T = ∅) (R := (· = ∅)) ?_ ?_ fun _ h => h
  · exact .send rfl (.read Custody.none_mine (fun s => hget_snd ..) rfl fun _ _ _ _ _ _ => rfl)
  · rintro found _ rfl
    cases found with
    | none => exact .pure ⟨rfl, trivial⟩
    | some p =>
      show Sweeps K U P Decoded (decoded p >>= fun e => pure (some (p, e)))
      rcases hdec : JobEnvelope.decode p with _ | e
      · have hd : (decoded p : Call Ledger JobEnvelope) = fail .json := by
          rw [decoded, hdec]
        rw [hd]
        exact Keeps.fail (R := (· = ∅)) rfl _
      · have hd : (decoded p : Call Ledger JobEnvelope) = pure e := by
          rw [decoded, hdec]
        rw [hd]
        exact .pure ⟨rfl, hdec⟩

/-- A payload that agrees with a snapshot names the queue of the snapshot, as it is spelt there. -/
theorem queue_of_snapshot {found : Option (String × JobEnvelope)} (hfound : Decoded found)
    {p : String} {e : JobEnvelope} (hdec : JobEnvelope.decode p = some e)
    (heq : some p = expectedPayload ((found.map (·.1)).getD "")) :
    (found.map (·.2.queue)).getD "" = e.queue := by
  rcases found with _ | ⟨p', e'⟩
  · cases heq
  · have hpp : p = p' := by
      have heq' : some p = expectedPayload p' := heq
      simp only [expectedPayload] at heq'
      split at heq'
      · exact Option.some.inj heq'
      · cases heq'
    subst hpp
    have hee : some e = some e' := hdec.symm.trans hfound
    obtain rfl := Option.some.inj hee
    rfl

/-- So the queue of the snapshot is plain if the payload is a good one. -/
theorem plain_of_snapshot {found : Option (String × JobEnvelope)} (hfound : Decoded found)
    (id : JobId) {p : String} (hp : GoodPayload K id p)
    (heq : some p = expectedPayload ((found.map (·.1)).getD "")) :
    K.Plain ((found.map (·.2.queue)).getD "") := by
  obtain ⟨e, hdec, -, hplain⟩ := hp
  rw [queue_of_snapshot hfound hdec heq]
  exact hplain

/-! ## Promotion -/

/-- The sets from which jobs are promoted. -/
def Loc.Delayed (l : Loc) : Prop := l = .schedule ∨ l = .retry

theorem Loc.Delayed.proper {l : Loc} (h : l.Delayed) : l.Proper K := by
  rcases h with rfl | rfl
  · trivial
  · trivial

theorem Loc.Delayed.kind {l : Loc} (h : l.Delayed) : l.kind = .zset := by
  rcases h with rfl | rfl
  · rfl
  · rfl

theorem Loc.Delayed.ne_ready {l : Loc} (h : l.Delayed) (q : String) : l ≠ .ready q := by
  rcases h with rfl | rfl
  · exact Loc.noConfusion
  · exact Loc.noConfusion

theorem Loc.Delayed.ne_processing {l : Loc} (h : l.Delayed) (p : String) : l ≠ .processing p := by
  rcases h with rfl | rfl
  · exact Loc.noConfusion
  · exact Loc.noConfusion

/-- Who has a score in a delayed set waits there. -/
theorem StoreTyped.waits {s : Store} (hs : StoreTyped K s) {l : Loc} (hl : l.Delayed) {id : JobId}
    {score : Int} (hscore : (s.zset (l.key K)).lookup id = some score) : occ K s id l ≠ 0 := by
  have hset : s.Fits (l.key K) .zset := hl.kind ▸ hs.places l hl.proper
  rw [occ_zset hl.proper hset, hscore]
  exact Nat.one_ne_zero

/-- `promote_scheduled.lua` takes the job from the delayed set to the ready list, and changes
nothing else about it. -/
theorem Changes.promoted (id : JobId) {s : Store} (hs : StoreTyped K s) {queue : String}
    (hq : K.Plain queue) {l : Loc} (hl : l.Delayed) :
    Changes K s id (fun v => (v.join (.ready queue)).exit l)
      ((s.put (K.namespaceQueue queue) (.list (id :: s.list (K.namespaceQueue queue)))).put
        (l.key K) (.zset (unset id (s.zset (l.key K))))) := by
  have h₁ := push id (l := .ready queue) hs hq rfl
  have h₂ := unsetScore id (l := l) h₁.typed hl.proper hl.kind
  have hne : l.key K ≠ (Loc.ready queue).key K := fun hk =>
    hl.ne_ready queue (Loc.key_injective hl.proper hq hk)
  rw [Store.zset_put_ne _ hne] at h₂
  exact h₁.trans h₂

/-- `resurrect_claim.lua` takes the job from the processing list to the ready list, when it goes
back to its queue. -/
theorem Changes.recovered (id : JobId) {s : Store} (hs : StoreTyped K s) {queue : String}
    (hq : K.Plain queue) (p : String) :
    Changes K s id (fun v => (v.join (.ready queue)).leave (.processing p))
      ((s.put (K.namespaceQueue queue) (.list (id :: s.list (K.namespaceQueue queue)))).put
        (K.processingQueue p) (.list (((s.put (K.namespaceQueue queue)
          (.list (id :: s.list (K.namespaceQueue queue)))).list (K.processingQueue p)).erase
            id))) := by
  have h₁ := push id (l := .ready queue) hs hq rfl
  have h₂ := erase id (l := .processing p) h₁.typed trivial rfl
  exact h₁.trans h₂

/-- Promoting a job keeps the placement of all jobs, whoever else moves meanwhile. -/
theorem promoteOne_sweeps {P : World Ledger → Prop} {l : Loc} (hl : l.Delayed) (id : JobId)
    (score : Int) : Sweeps K U P (fun _ => True) (promoteOne K (l.key K) id score) := by
  refine (transitionSnapshot_sweeps id).catching ?_ ?_
  · rintro found _ ⟨rfl, hfound⟩
    have hplain := fun p => plain_of_snapshot (K := K) (p := p) hfound id
    refine .send rfl fun w hinv _ hT => ?_
    generalize (found.map (·.2.queue)).getD "" = queue at hplain ⊢
    rcases promoteScheduled_cases (s := w.store) K.jobs (l.key K)
      (K.namespaceQueue queue) id ((found.map (·.1)).getD "") score
      with hno | hzero | ⟨-, -, -, hscore, heq, hmove⟩
    · exact hno.sends hinv hT Custody.none_mine rfl
    · exact .nothing hinv hT Custody.none_mine rfl (by rw [hzero]) fun _ _ => ⟨rfl, trivial⟩
    · have hocc := hinv.typed.waits hl hscore
      obtain ⟨p, hv, hgood⟩ := PlacementInv.at_place hinv hocc
      have hpay : payloadOf K.jobs w.store id = some p := congrArg JobView.payload hv
      rw [hpay] at heq
      rcases hmove with ⟨hnone, -⟩ | ⟨-, -, -, hrun⟩
      · rw [hpay] at hnone
        cases hnone
      · refine ⟨∅, ?_, rfl, fun _ _ => ⟨rfl, trivial⟩⟩
        have hch := Changes.promoted id hinv.typed (hplain p hgood heq) hl
        rw [World.after, hrun]
        refine Custody.trade_unowned hinv Custody.none_held hch ?_ ?_
        · rw [hv, JobView.exit_join (hl.ne_ready _), JobView.exit_only, JobView.join_zero]
          exact .at_place hgood (hinv.issued_of_stored hv) _
        · intro t htid
          rw [← htid] at hv
          exact Custody.unowned hv fun q hq => absurd hq (hl.ne_processing q)
  · rintro e _ rfl
    cases e with
    | json => exact .pure ⟨rfl, trivial⟩
    | redis b => exact Keeps.fail (R := (· = ∅)) rfl _
    | jobNotFound => exact Keeps.fail (R := (· = ∅)) rfl _
    | generic => exact Keeps.fail (R := (· = ∅)) rfl _
    | config _ => exact Keeps.fail (R := (· = ∅)) rfl _

theorem promoteScheduledJobs_sweeps {P : World Ledger → Prop} {l : Loc} (hl : l.Delayed)
    (jobs : List (JobId × Int)) :
    Sweeps K U P (fun _ => True) (promoteScheduledJobs K (l.key K) jobs) := by
  induction jobs with
  | nil => exact .pure ⟨rfl, trivial⟩
  | cons job jobs ih =>
    refine (promoteOne_sweeps hl job.1 job.2).bind ?_ fun _ h => h
    rintro moved _ ⟨rfl, -⟩
    refine ih.bind ?_ fun _ h => h
    rintro count _ ⟨rfl, -⟩
    exact .pure ⟨rfl, trivial⟩

theorem enqueueScheduled_sweeps {P : World Ledger → Prop} {l : Loc} (hl : l.Delayed) :
    Sweeps K U P (fun _ => True) (enqueueScheduled K (l.key K)) := by
  refine Keeps.bind (R := (· = ∅)) (.now Custody.none_mine) ?_ fun _ h => h
  rintro t _ rfl
  refine Keeps.bind (R := (· = ∅)) (.connection rfl) ?_ fun _ h => h
  rintro _ _ rfl
  refine Keeps.bind (Q := fun _ T => T = ∅) (R := (· = ∅)) ?_ ?_ fun _ h => h
  · exact .send rfl (.read Custody.none_mine (fun s => zrangeByScore_snd ..) rfl
      fun _ _ _ _ _ _ => rfl)
  · rintro jobs _ rfl
    exact promoteScheduledJobs_sweeps hl jobs

/-- Retrying everything now keeps the placement of all jobs. -/
theorem retryAllNow_sweeps {P : World Ledger → Prop} :
    Sweeps K U P (fun _ => True) (retryAllNow K) := by
  refine Keeps.bind (R := (· = ∅)) (.connection rfl) ?_ fun _ h => h
  rintro _ _ rfl
  refine Keeps.bind (Q := fun _ T => T = ∅) (R := (· = ∅)) ?_ ?_ fun _ h => h
  · exact .send rfl (.read Custody.none_mine (fun s => zrangeWithScores_snd ..) rfl
      fun _ _ _ _ _ _ => rfl)
  · rintro jobs _ rfl
    exact promoteScheduledJobs_sweeps (l := .retry) (.inr rfl) jobs

/-! ## Recovery -/

/-- The executions of a process have ended, so that others may take its claims. -/
def Ended (processId : String) (w : World Ledger) : Prop := processId ∈ w.ghost.ended

/-- Dealing with one claim of an ended process keeps the placement of all jobs. -/
theorem resurrectOne_sweeps (processId : String) (id : JobId) :
    Sweeps K U (Ended processId) (fun _ => True) (resurrectOne K processId id) := by
  have hp := StorageKeys.processing_ne_fixed (K := K) processId
  refine (transitionSnapshot_sweeps id).catching ?_ ?_
  · rintro found _ ⟨rfl, hfound⟩
    have hplain := fun p => plain_of_snapshot (K := K) (p := p) hfound id
    refine .send rfl fun w hinv hended hT => ?_
    generalize (found.map (·.2.queue)).getD "" = queue at hplain ⊢
    rcases resurrectClaim_cases (s := w.store) (K.namespaceQueue queue) hp.1.symm id
      ((found.map (·.1)).getD "") ((found.map (·.2.jobMeta.resurrect)).getD false)
      with hno | ⟨hzero, -⟩ | ⟨-, -, -, hclaimed, heq, hmove⟩
    · exact hno.sends hinv hT Custody.none_mine rfl
    · exact .nothing hinv hT Custody.none_mine rfl (by rw [hzero]) fun _ _ => ⟨rfl, trivial⟩
    · have hocc : occ K w.store id (.processing processId) ≠ 0 :=
        (hinv.typed.mem_processing processId).mp hclaimed
      obtain ⟨p, hv, hgood⟩ := PlacementInv.at_place hinv hocc
      have hpay : payloadOf K.jobs w.store id = some p := congrArg JobView.payload hv
      rw [hpay] at heq
      have hnobody : ∀ t : Custody, t.id = id → ¬ (custody K U).owns t w := by
        intro t htid
        rw [← htid] at hv
        exact Custody.unowned hv fun q hq => Loc.processing.inj hq ▸ hended
      rcases hmove with ⟨hnone, -⟩ | ⟨-, -, -, hrun⟩ | ⟨-, -, hrun⟩
      · rw [hpay] at hnone
        cases hnone
      · refine ⟨∅, ?_, rfl, fun _ _ => ⟨rfl, trivial⟩⟩
        have hch := Changes.recovered id hinv.typed (hplain p hgood heq) processId
        rw [World.after, hrun]
        refine Custody.trade_unowned hinv Custody.none_held hch ?_ hnobody
        rw [hv, JobView.leave_join Loc.noConfusion, JobView.leave_only, JobView.join_zero]
        exact .at_place hgood (hinv.issued_of_stored hv) _
      · refine ⟨∅, ?_, rfl, fun _ _ => ⟨rfl, trivial⟩⟩
        rw [World.after, hrun]
        refine Custody.trade_unowned hinv Custody.none_held (.acknowledged _ hinv.typed processId) ?_
          hnobody
        rw [hv, JobView.forget_mk, JobView.leave_only]
        exact .gone
  · rintro e _ rfl
    cases e with
    | json => exact .pure ⟨rfl, trivial⟩
    | redis b => exact Keeps.fail (R := (· = ∅)) rfl _
    | jobNotFound => exact Keeps.fail (R := (· = ∅)) rfl _
    | generic => exact Keeps.fail (R := (· = ∅)) rfl _
    | config _ => exact Keeps.fail (R := (· = ∅)) rfl _

theorem resurrectJobs_sweeps (processId : String) (ids : List JobId) :
    Sweeps K U (Ended processId) (fun _ => True) (resurrectJobs K processId ids) := by
  induction ids with
  | nil => exact .pure ⟨rfl, trivial⟩
  | cons id ids ih =>
    refine (resurrectOne_sweeps processId id).bind ?_ fun _ h => h
    rintro moved _ ⟨rfl, -⟩
    refine ih.bind ?_ fun _ h => h
    rintro count _ ⟨rfl, -⟩
    exact .pure ⟨rfl, trivial⟩

theorem unregister_sweeps {P : World Ledger → Prop} (processId : String) :
    Call.Keeps (custody K U) none P (fun _ _ => True) (fun _ => True) ∅
      (pipe .unregister (unregister K processId)) := by
  refine .pipe_cons fun w hinv _ _ => ⟨∅, ?_, .pipe_cons fun w hinv _ _ => ⟨∅, ?_, .pipe_nil trivial⟩⟩
  · exact Custody.trade_foreign hinv Custody.none_held foreign_processes ⟨_, rfl⟩
  · exact Custody.trade_foreign hinv Custody.none_held foreign_processesData ⟨_, rfl⟩

/-- Resurrecting an ended process keeps the placement of all jobs. -/
theorem resurrectProcess_sweeps (processId : String) :
    Call.Keeps (custody K U) none (Ended processId) (fun _ _ => True) (fun _ => True) ∅
      (resurrectProcess K processId) := by
  refine Keeps.bind (Q := fun _ T => T = ∅) (R := fun _ => True) ?_ ?_ fun _ h => h
  · exact .send trivial (.read Custody.none_mine (fun s => lrange_snd ..) trivial
      fun _ _ _ _ _ _ => rfl)
  · rintro ids _ rfl
    refine (resurrectJobs_sweeps processId ids).bind ?_ fun _ _ => trivial
    rintro count _ ⟨rfl, -⟩
    refine Keeps.bind (Q := fun _ T => T = ∅) (R := fun _ => True) ?_ ?_ fun _ h => h
    · exact .send trivial (.read Custody.none_mine (fun s => llen_snd ..) trivial
        fun _ _ _ _ _ _ => rfl)
    · rintro left _ rfl
      split
      · exact (unregister_sweeps processId).bind (fun _ _ _ => .pure trivial) fun _ h => h
      · exact .pure trivial

end Oxana
