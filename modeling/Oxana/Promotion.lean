import Oxana.Calls
import Oxana.Transitions

/-!
# No job is promoted early

A scheduler reads which jobs are due, then each job's payload, then asks the
script to move it. Between these steps the job may have been promoted by
somebody else, executed, failed and scheduled again, or replaced on another
queue. The script compares the score and the payload with what the scheduler
has read, so that whatever it moves is due **at the instant of the move**, and
goes to the queue that the payload names at that instant.

The statement is about the traces of one call, in which nothing at all is
assumed about the world between two steps.
-/

namespace Oxana

open Redis Interleave

variable {γ : Type} {K : StorageKeys}

/-- The job `id` is moved to the ready list `k`: it was due at time `t`, and `k`
is the ready list of the queue its payload names. -/
structure DueMove (K : StorageKeys) (set k : Key) (t : Int) (s s' : Store) (id : JobId) :
    Prop where
  /-- it joins the list -/
  pushed : s'.list k = id :: s.list k
  /-- it leaves the set -/
  removed : (s'.zset set).lookup id = none
  /-- it was due -/
  due : ∃ score, (s.zset set).lookup id = some score ∧ score ≤ t
  /-- its payload names the queue -/
  named : ∃ p e, payloadOf K.jobs s id = some p ∧ JobEnvelope.decode p = some e ∧
    k = K.namespaceQueue e.queue

/-- A step that changes a list only by a due move. -/
def OnlyDue (K : StorageKeys) (set : Key) (t : Int) (_ : Request) (w w' : World γ) : Prop :=
  ∀ k, w'.store.list k ≠ w.store.list k → ∃ id, DueMove K set k t w.store w'.store id

/-- A step that leaves the store alone promotes nothing. -/
theorem onlyDue_of_eq {set : Key} {t : Int} {l : Request} {w w' : World γ}
    (h : w'.store = w.store) : OnlyDue K set t l w w' :=
  fun k hk => absurd (by rw [h]) hk

/-- The script moves a job only if it is due, and if its payload names the list it is moved to. -/
theorem promoteScheduled_onlyDue {set : Key} {id : JobId} {score t : Int} (ht : score ≤ t)
    {found : Option (String × JobEnvelope)} (hf : Decoded found) (w : World γ) :
    OnlyDue K set t .promote w (w.after (promoteScheduled K.jobs set
      (K.namespaceQueue ((found.map (·.2.queue)).getD "")) id
      ((found.map (·.1)).getD "") score)) := by
  intro k hk
  rw [World.after] at hk ⊢
  rcases promoteScheduled_cases (s := w.store) K.jobs set
    (K.namespaceQueue ((found.map (·.2.queue)).getD "")) id
    ((found.map (·.1)).getD "") score with
    ⟨m, hm⟩ | h | ⟨hj, hs, hq, hsc, hp, ⟨-, h⟩ | ⟨hqs, hqj, ⟨p, hpay⟩, h⟩⟩
  · exact absurd (by rw [hm]) hk
  · exact absurd (by rw [h]) hk
  · -- an entry without a payload is dropped
    rw [h] at hk
    by_cases hks : k = set
    · subst hks
      refine absurd ?_ hk
      rw [Store.list_of_fits hs (by decide),
        Store.list_of_fits (Store.fits_put_self _) (by simp [Value.kind])]
    · exact absurd (Store.list_put_ne _ hks) hk
  · simp only [h] at hk ⊢
    -- the payload is the one that was read
    rcases found with _ | ⟨p', e⟩
    · rw [hpay] at hp
      exact absurd hp (by simp [expectedPayload])
    · obtain rfl : p' = p := by
        rw [hpay] at hp
        simp only [Option.map_some, Option.getD_some, expectedPayload] at hp
        split at hp
        · exact (Option.some.inj hp).symm
        · cases hp
      by_cases hks : k = set
      · subst hks
        refine absurd ?_ hk
        rw [Store.list_of_fits hs (by decide),
          Store.list_of_fits (Store.fits_put_self _) (by simp [Value.kind])]
      · by_cases hkq : k = K.namespaceQueue e.queue
        · subst hkq
          refine ⟨id, ?_, by simp, ⟨score, hsc, ht⟩, ⟨p', e, hpay, hf, rfl⟩⟩
          simp [hks]
        · exact absurd (by simp [hks, hkq]) hk

/-- The request for one job that is due moves at most this job. -/
theorem promoteOne_always {E : Request → World γ → Prop} {set : Key} {score t : Int} (ht : score ≤ t)
    (id : JobId) : Call.Always E (OnlyDue K set t) (fun _ => True) (promoteOne K set id score) := by
  refine .catching (transitionSnapshot_always (fun _ _ => onlyDue_of_eq rfl) id)
    (fun found hf => .send (fun w _ => promoteScheduled_onlyDue ht hf w) fun _ _ _ _ => trivial)
    fun e => ?_
  cases e with
  | json => exact .pure trivial
  | redis _ => exact .fail _
  | jobNotFound => exact .fail _
  | generic => exact .fail _
  | config _ => exact .fail _

/-- The requests for several jobs that are due move at most these jobs. -/
theorem promoteScheduledJobs_always {E : Request → World γ → Prop} {set : Key} {t : Int}
    {jobs : List (JobId × Int)} (hjobs : ∀ p ∈ jobs, p.2 ≤ t) :
    Call.Always E (OnlyDue K set t) (fun _ => True) (promoteScheduledJobs K set jobs) := by
  induction jobs with
  | nil => exact .pure trivial
  | cons p jobs ih =>
    refine .bind (promoteOne_always (hjobs p (List.mem_cons_self ..)) p.1) fun _ _ => ?_
    refine .bind (ih fun p' hp' => hjobs p' (List.mem_cons_of_mem _ hp')) fun _ _ => ?_
    exact .pure trivial

/-- The members that a range of scores returns have scores in that range. -/
theorem le_of_zrangeByScore {set : Key} {lo hi : Int} {s : Store} {jobs : List (JobId × Int)}
    (h : (zrangeByScore set lo hi s).1 = .ok jobs) : ∀ p ∈ jobs, p.2 ≤ hi := by
  obtain ⟨-, rfl⟩ := onKind_inv h
  intro p hp
  simpa using (decide_eq_true_iff.mp (List.mem_filter.mp hp).2).2

/-- **No job is promoted early.** Whatever other clients do between its steps:
a call of `enqueue_scheduled` that has read the clock changes a list only by
moving to it a job that is due by that clock at this instant, and only the
ready list of the queue that the job's payload names at this instant. -/
theorem enqueueScheduled_never_early (K : StorageKeys) (set : Key)
    {tr : List (Prog.Event Request (World γ))}
    {q : Prog Request (World γ) Choice (Except OxanaError Nat)}
    (h : Prog.Trace (enqueueScheduled K set) tr q) {e : Prog.Event Request (World γ)}
    (he : e ∈ tr) {k : Key} (hk : e.post.store.list k ≠ e.pre.store.list k) :
    ∃ w : World γ, tr.head? = some ⟨.now, w, w⟩ ∧
      ∃ id, DueMove K set k w.clock e.pre.store e.post.store id := by
  rcases Call.trace_now h with rfl | ⟨w, tr, rfl, hrun⟩
  · exact absurd he List.not_mem_nil
  · refine ⟨w, rfl, ?_⟩
    have hrest : Call.Always (fun _ _ => True) (OnlyDue K set w.clock) (fun _ => True)
        (do
          connection
          let jobs ← send .zrange (zrangeByScore set 0 w.clock)
          promoteScheduledJobs K set jobs : Call γ Nat) := by
      refine .bind .connection fun _ _ => ?_
      refine .bind (Q := fun jobs => ∀ p ∈ jobs, p.2 ≤ w.clock) (.send ?_ ?_) fun jobs hj => ?_
      · exact fun w' _ => onlyDue_of_eq (zrangeByScore_snd ..)
      · exact fun _ _ _ hr => le_of_zrangeByScore hr
      · exact promoteScheduledJobs_always hj
    rcases List.mem_cons.mp he with rfl | he
    · exact absurd rfl hk
    · exact (hrest.trace hrun fun _ _ => trivial).1 e he k hk

/-- The job `mail` is in the schedule and has been due since time `5`; now it is
`10`. -/
def mailDue (K : StorageKeys) : World Unit where
  store := (Store.empty.put K.jobs (.hash [("a", mail.encode)])).put K.schedule (.zset [("a", 5)])
  clock := 10
  ghost := ()

/-- The message is due: the call promotes one job, and the step that does so moves it from the
schedule to the list of its queue. -/
theorem enqueueScheduled_moves_mail : ∃ tr e, ∃ w : World Unit,
    Call.Returns (enqueueScheduled (.new "") (StorageKeys.new "").schedule) tr 1 ∧ e ∈ tr ∧
      tr.head? = some ⟨.now, w, w⟩ ∧ ∃ id, DueMove (.new "") (StorageKeys.new "").schedule
        "oxanus:queue:mail" w.clock e.pre.store e.post.store id := by
  let w := mailDue (.new "")
  have hread : Call.Returns (transitionSnapshot (.new "") "a") _ (some (_, mail.normalize)) :=
    .bind (.send w (a := some mail.encode) (by decide +kernel))
      (.bind (.decoded (decode_encode mail)) (.pure _))
  obtain ⟨tr, hcall, hlast⟩ : ∃ tr, Call.Returns
      (enqueueScheduled (.new "") (StorageKeys.new "").schedule) tr 1 ∧
      (⟨.promote, w, w.after (promoteScheduled (StorageKeys.new "").jobs
        (StorageKeys.new "").schedule ((StorageKeys.new "").namespaceQueue "mail") "a"
        mail.encode 5)⟩ : Prog.Event Request (World Unit)) ∈ tr := by
    refine ⟨_, .bind (.now w) <| .bind .connection <|
      .bind (.send w (a := [("a", 5)]) (by decide +kernel)) <|
      .bind (.catching hread (.send w (a := 1) (by decide +kernel))) (.bind (.pure 0) (.pure _)), ?_⟩
    simp only [List.mem_append]
    exact .inr (.inr (.inr (.inl (.inr (List.mem_singleton_self _)))))
  exact ⟨tr, _, _, hcall, hlast, (enqueueScheduled_never_early (.new "") _ hcall hlast
    (k := "oxanus:queue:mail") (by decide +kernel)).choose_spec⟩

end Oxana
