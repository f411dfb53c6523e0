import Oxana.Dispatching
import Oxana.SavedState

/-!
# Attempts that fail

A batch is executed, its handler returns an error or panics, and one job after the other is retried
or killed. What this does to one of them does not depend on the others: they are told apart by their
ids. Whether it is retried is decided by the counter that was loaded, the counter itself is
incremented in the payload that is stored then; a handler may write that payload in between.
-/

namespace Oxana

open Redis Interleave Call

variable {γ : Type} {K : StorageKeys} {Q : Set String} {H : Handle} {id : JobId} {queue : String}
  {w w' : World γ} {allowed : Choice → Prop}

/-! ## The dead list -/

/-- Entries are put on the dead list one after the other. -/
def buryAll (limit : ℕ) (ps : List String) (l : List String) : List String :=
  ps.foldl (fun l p => bury limit p l) l

/-- Entries go to the dead list one after the other. -/
theorem buryAll_append (limit : ℕ) (ps ps' l : List String) :
    buryAll limit (ps ++ ps') l = buryAll limit ps' (buryAll limit ps l) := List.foldl_append

/-- Each of the entries is for one of these jobs. -/
def EntriesOf (es : List JobEnvelope) (ps : List String) : Prop :=
  ∀ p ∈ ps, ∃ e ∈ es, ∃ e', JobEnvelope.decode p = some e' ∧ e'.id = e.id

section Entries

variable {es es' : List JobEnvelope} {ps ps' : List String}

theorem EntriesOf.nil (es : List JobEnvelope) : EntriesOf es [] :=
  fun _ h => absurd h List.not_mem_nil

theorem EntriesOf.append (h : EntriesOf es ps) (h' : EntriesOf es ps') : EntriesOf es (ps ++ ps') :=
  fun p hp => (List.mem_append.mp hp).elim (h p) (h' p)

theorem EntriesOf.mono (h : EntriesOf es ps)
    (hsub : ∀ e ∈ es, ∃ e' ∈ es', e'.id = e.id) : EntriesOf es' ps := by
  intro p hp
  obtain ⟨e, he, e', hdec, hid⟩ := h p hp
  obtain ⟨e'', he'', hid''⟩ := hsub e he
  exact ⟨e'', he'', e', hdec, hid.trans hid''.symm⟩

/-- Jobs with other ids have no entry of this one. -/
theorem EntriesOf.not_entry (h : EntriesOf es ps) (hne : ∀ e ∈ es, e.id ≠ id) :
    ∀ p ∈ ps, ∀ e, JobEnvelope.decode p = some e → e.id ≠ id := by
  intro p hp e he hid
  obtain ⟨e', hmem, e'', hdec, hid'⟩ := h p hp
  rw [he] at hdec
  cases hdec
  exact hne e' hmem (hid'.symm.trans hid)

end Entries

/-! ## The other jobs of the batch -/

/-- The others have other ids, and are on the queues in use. -/
def Others (Q : Set String) (id : JobId) (es : List JobEnvelope) : Prop :=
  ∀ e ∈ es, e.id ≠ id ∧ e.queue ∈ Q

/-- What is done to them does not concern the job, but may put entries of theirs on the dead
list. -/
structure Aside (H : Handle) (Q : Set String) (id : JobId) (es : List JobEnvelope) (s s' : Store) :
    Prop where
  elsewhere : Elsewhere H.keys Q id s s'
  dead : ∃ ps, EntriesOf es ps ∧
    s'.list H.keys.dead = buryAll (H.deadJobLimit.getD 0) ps (s.list H.keys.dead)

section Others

variable {e : JobEnvelope} {es es' : List JobEnvelope} {s s' s'' : Store}

theorem Aside.refl (s : Store) : Aside H Q id es s s := ⟨.refl s, [], .nil es, rfl⟩

/-- What happens beside a job, and then happens beside it again, happens beside it. -/
theorem Aside.trans (h : Aside H Q id es s s') (h' : Aside H Q id es s' s'') :
    Aside H Q id es s s'' := by
  obtain ⟨ps, hps, hdead⟩ := h.dead
  obtain ⟨ps', hps', hdead'⟩ := h'.dead
  refine ⟨h.elsewhere.trans h'.elsewhere, ps ++ ps', hps.append hps', ?_⟩
  rw [buryAll_append, ← hdead, hdead']

theorem Aside.mono (h : Aside H Q id es s s') (hsub : ∀ e ∈ es, ∃ e' ∈ es', e'.id = e.id) :
    Aside H Q id es' s s' := by
  obtain ⟨ps, hps, hdead⟩ := h.dead
  exact ⟨h.elsewhere, ps, hps.mono hsub, hdead⟩

/-- A step that changes other jobs only, and no dead list, happens beside the job. -/
theorem Aside.quiet (h : Elsewhere H.keys Q id s s')
    (hdead : s'.list H.keys.dead = s.list H.keys.dead) : Aside H Q id es s s' :=
  ⟨h, [], .nil es, hdead⟩

variable (hQ : H.keys.Queues Q)

include hQ

/-- Another job is killed, and this one is where it was. -/
theorem solo_kill_aside {message : String} (hs : Sound H.keys Q w.store) (hne : e.id ≠ id)
    (hmem : e ∈ es) (hrun : Solo allowed (kill H e message) w (.ok ()) w') :
    Aside H Q id es w.store w'.store := by
  obtain ⟨-, -, -, rfl⟩ := solo_kill hrun
  refine ⟨.killed hQ hs hne.symm, [(e.withError message).encode], ?_, Store.list_put_self _⟩
  intro p hp
  obtain rfl := List.mem_singleton.mp hp
  exact ⟨e, hmem, _, decode_encode _, rfl⟩

/-- Another job is retried, and this one is where it was. -/
theorem solo_retryIn_aside {id' : JobId} {delay : UInt64} {message : String}
    (hs : Sound H.keys Q w.store) (hne : id' ≠ id)
    (hrun : Solo allowed (retryIn H id' delay message) w (.ok ()) w') :
    Aside H Q id es w.store w'.store := by
  have hproc := current_ne H
  rcases (solo_retryIn hrun).2 with ⟨-, rfl⟩ | ⟨p, e, hp, he, rfl⟩
  · have hf : w.store.Fits H.currentProcessingQueue .list := hs.processing H.processId
    rw [World.after, lremFirst_ok hf]
    exact .quiet (.erase hQ (l := .processing H.processId) hne.symm trivial rfl
      (hs.processing H.processId)) (Store.list_put_ne _ hproc.2.1.symm)
  · obtain ⟨hid, hq⟩ := hs.stored id' p e hp he
    have hne' : id ≠ (e.withRetriesIncremented message).id := fun h => hne (hid.symm.trans h.symm)
    have hq' : (e.withRetriesIncremented message).queue ∈ Q := hq
    refine .quiet (.retried hQ hs hne' hq' _) ?_
    exact ((Store.list_put_ne _ hproc.2.1.symm).trans
      (Store.list_put_ne _ StorageKeys.dead_ne_retry)).trans
        (Store.list_put_ne _ StorageKeys.jobs_ne_dead.symm)

/-- The failure of another job, whatever comes of it, happens beside this one. -/
theorem solo_handleErr_aside {message : String} {delay : UInt64} {m : UInt32}
    (hs : Sound H.keys Q w.store) (hne : e.id ≠ id) (hmem : e ∈ es)
    (hrun : Solo allowed (handleErr H message e delay m) w (.ok ()) w') :
    Aside H Q id es w.store w'.store := by
  rw [handleErr] at hrun
  split at hrun
  · exact solo_retryIn_aside hQ hs hne hrun
  · exact solo_kill_aside hQ hs hne hmem hrun

/-- The failures of other jobs happen beside this one. -/
theorem solo_handleErrs_aside {message : String} (hs : Sound H.keys Q w.store)
    (hes : ∀ e ∈ es, e.id ≠ id) (hsub : ∀ e ∈ es, e ∈ es')
    (hrun : Solo allowed (handleErrs H message es) w (.ok ()) w') :
    Aside H Q id es' w.store w'.store := by
  induction es generalizing w with
  | nil =>
    obtain ⟨-, rfl⟩ := solo_pure.mp hrun
    exact .refl _
  | cons e es ih =>
    obtain ⟨c, -, hrun⟩ := solo_ask.mp hrun
    obtain ⟨_, w₁, hone, hrest⟩ := solo_bind_ok hrun
    have hfirst : Aside H Q id es' w.store w₁.store :=
      solo_handleErr_aside hQ hs (hes e List.mem_cons_self) (hsub e List.mem_cons_self) hone
    exact hfirst.trans (ih (hfirst.elsewhere.sound hs)
      (fun e he => hes e (List.mem_cons_of_mem _ he))
      (fun e he => hsub e (List.mem_cons_of_mem _ he)) hrest)

/-- Jobs that cannot be built are killed, and this one is where it was. -/
theorem solo_killInvalid_aside {valid : List JobEnvelope} (hs : Sound H.keys Q w.store)
    (hes : ∀ e ∈ es, e.id ≠ id) (hsub : ∀ e ∈ es, e ∈ es')
    (hrun : Solo allowed (killInvalid H es) w (.ok valid) w') :
    (∀ e ∈ valid, e ∈ es) ∧ Aside H Q id es' w.store w'.store := by
  induction es generalizing w valid with
  | nil =>
    obtain ⟨hvalid, rfl⟩ := solo_pure.mp hrun
    cases hvalid
    exact ⟨fun _ h => h, .refl _⟩
  | cons e es ih =>
    have hes' : ∀ e ∈ es, e.id ≠ id := fun e he => hes e (List.mem_cons_of_mem _ he)
    have hsub' : ∀ e ∈ es, e ∈ es' := fun e he => hsub e (List.mem_cons_of_mem _ he)
    obtain ⟨c, -, hrun⟩ := solo_ask.mp hrun
    cases hinvalid : c.invalid with
    | some message =>
      rw [hinvalid] at hrun
      obtain ⟨_, w₁, hkill, hrest⟩ := solo_bind_ok hrun
      have hfirst : Aside H Q id es' w.store w₁.store :=
        solo_kill_aside hQ hs (hes e List.mem_cons_self) (hsub e List.mem_cons_self) hkill
      obtain ⟨hvalid, hrest⟩ := ih (hfirst.elsewhere.sound hs) hes' hsub' hrest
      exact ⟨fun e he => List.mem_cons_of_mem _ (hvalid e he), hfirst.trans hrest⟩
    | none =>
      rw [hinvalid] at hrun
      obtain ⟨rest, w₁, hrest, hpure⟩ := solo_bind_ok hrun
      obtain ⟨hvalid, rfl⟩ := solo_pure.mp hpure
      cases hvalid
      obtain ⟨hin, hrest⟩ := ih hs hes' hsub' hrest
      refine ⟨fun x hx => ?_, hrest⟩
      rcases List.mem_cons.mp hx with rfl | hx
      · exact List.mem_cons_self
      · exact List.mem_cons_of_mem _ (hin x hx)

end Others

/-! ## The job itself -/

section Own

variable {m : UInt32} {r : ℕ} {e : JobEnvelope} {here : Key}

/-- A state that is saved changes neither the counter nor the places, whatever becomes of the call
and whichever job it is for. -/
theorem Found.updateState {id' : JobId} {v : Json.Value} {res : Except OxanaError Unit}
    (hQ : H.keys.Queues Q) (h : Found H.keys Q id queue r here w.store)
    (hrun : Solo allowed (updateState H id' v) w res w') :
    Found H.keys Q id queue r here w'.store ∧
      w'.store.list H.keys.dead = w.store.list H.keys.dead := by
  obtain ⟨tr, htr, hch⟩ := Prog.Solo.trace hrun
  rcases updateState_saves htr hch with ⟨-, rfl⟩ | ⟨-, p, e, hp, he, hfits, rfl⟩
  · exact ⟨h, rfl⟩
  · rw [World.after, hset_ok hfits]
    refine ⟨?_, Store.list_put_ne _ StorageKeys.jobs_ne_dead.symm⟩
    obtain ⟨hid, hq⟩ := h.sound.stored id' p e hp he
    by_cases hown : id' = id
    · subst hown
      obtain ⟨p', e', hp', he', hc⟩ := h.stored
      rw [hp] at hp'
      cases hp'
      rw [he] at he'
      cases he'
      rw [hid]
      exact h.write hQ (hc.withState v)
    · have hne : id ≠ (e.withState v).id := fun h => hown (hid.symm.trans h.symm)
      exact (Elsewhere.setField hQ hne hq).found h

/-- So does the handler: whatever it does, the job is where it was, with the same counter. -/
theorem Found.runProcess {ids : List JobId} {n : ℕ} {res : Except OxanaError Unit}
    (hQ : H.keys.Queues Q) (h : Found H.keys Q id queue r here w.store)
    (hrun : Solo allowed (runProcess H ids n) w res w') :
    Found H.keys Q id queue r here w'.store ∧
      w'.store.list H.keys.dead = w.store.list H.keys.dead := by
  induction n generalizing w with
  | zero =>
    obtain ⟨-, rfl⟩ := solo_pure.mp hrun
    exact ⟨h, rfl⟩
  | succ n ih =>
    obtain ⟨c, -, hrun⟩ := solo_ask.mp hrun
    cases hid : ids[c.rounds]? with
    | none =>
      rw [hid] at hrun
      obtain ⟨-, rfl⟩ := solo_pure.mp hrun
      exact ⟨h, rfl⟩
    | some id' =>
      rw [hid] at hrun
      obtain ⟨r₁, w₁, hupdate, hrest⟩ := solo_catching.mp hrun
      obtain ⟨h₁, hdead₁⟩ := h.updateState hQ hupdate
      obtain ⟨h₂, hdead₂⟩ := ih h₁ hrest
      exact ⟨h₂, hdead₂.trans hdead₁⟩

/-- Several payloads are written, that of the job with the counter it has; the job is where it was.
-/
theorem Found.writes (hQ : H.keys.Queues Q) {s : Store} (h : Found H.keys Q id queue r here s)
    {es : List JobEnvelope}
    (hes : ∀ e ∈ es, (e.id ≠ id ∧ e.queue ∈ Q) ∨ e.Counts id queue r) :
    Found H.keys Q id queue r here (s.put H.keys.jobs (.hash
      ((es.map fun e => (e.id, e.encode)).foldl (fun m p => setField p.1 p.2 m)
        (s.hash H.keys.jobs)))) := by
  induction es generalizing s with
  | nil => exact (Elsewhere.put_jobs hQ (fun hs => hs.put_jobs hQ hs.stored) rfl).found h
  | cons e es ih =>
    have hone : Found H.keys Q id queue r here
        (s.put H.keys.jobs (.hash (setField e.id e.encode (s.hash H.keys.jobs)))) := by
      rcases hes e List.mem_cons_self with ⟨hne, hq⟩ | hc
      · exact (Elsewhere.setField hQ hne.symm hq).found h
      · rw [hc.id]
        exact h.write hQ hc
    have hrest := ih hone fun e he => hes e (List.mem_cons_of_mem _ he)
    rw [Store.put_put_self, Store.hash_put_self] at hrest
    exact hrest

/-- The attempt begins: the job is marked as started, and is where it was, with the same counter. -/
theorem Found.setStartedAtBatch {es started : List JobEnvelope}
    (hQ : H.keys.Queues Q) (h : Found H.keys Q id queue r here w.store)
    (hes : ∀ e ∈ es, (e.id ≠ id ∧ e.queue ∈ Q) ∨ e.Counts id queue r) (hne : es ≠ [])
    (hrun : Solo allowed (setStartedAtBatch H es) w (.ok started) w') :
    (∃ t : Int64, started = es.map (·.withStartedAt t)) ∧
      Found H.keys Q id queue r here w'.store ∧
      w'.store.list H.keys.dead = w.store.list H.keys.dead := by
  obtain ⟨_, w₁, hupdate, hpure⟩ := solo_bind_ok (solo_now_bind.mp hrun)
  obtain ⟨hstarted, rfl⟩ := solo_pure.mp hpure
  cases hstarted
  rw [updateJobs, if_neg fun h => hne (List.map_eq_nil_iff.mp h)] at hupdate
  obtain ⟨-, rfl⟩ := solo_send_ok (solo_connection_ok hupdate)
  refine ⟨⟨_, rfl⟩, ?_⟩
  rw [World.after, hsetMultiple, onKind_ok h.sound.jobs]
  refine ⟨h.writes hQ fun e he => ?_, Store.list_put_ne _ StorageKeys.jobs_ne_dead.symm⟩
  obtain ⟨e', he', rfl⟩ := List.mem_map.mp he
  rcases hes e' he' with hother | hc
  · exact .inl hother
  · exact .inr (hc.withStartedAt _)

/-- Where a failed attempt leaves the job: in the retry set with one more retry, or on the dead
list. -/
structure Failed (H : Handle) (Q : Set String) (id : JobId) (queue : String) (m : UInt32) (r : ℕ)
    (others : List JobEnvelope) (s s' : Store) : Prop where
  /-- it may be retried once more; what is put on the dead list is not of this job -/
  again : r < m.toNat → Found H.keys Q id queue (r + 1) H.keys.retry s' ∧
    ∃ ps, EntriesOf others ps ∧
      s'.list H.keys.dead = buryAll (H.deadJobLimit.getD 0) ps (s.list H.keys.dead)
  /-- it may not; one entry is of this job -/
  ended : m.toNat ≤ r → Vanished H.keys Q id s' ∧
    ∃ (e : JobEnvelope) (ps ps' : List String), e.Counts id queue r ∧ EntriesOf others ps ∧
      EntriesOf others ps' ∧ s'.list H.keys.dead =
        buryAll (H.deadJobLimit.getD 0) (ps ++ e.encode :: ps') (s.list H.keys.dead)

/-- What is done to the other jobs before makes no difference to a failure of this one. -/
theorem Failed.after_aside {others : List JobEnvelope} {s s₁ s' : Store}
    (h : Failed H Q id queue m r others s₁ s') (haside : Aside H Q id others s s₁) :
    Failed H Q id queue m r others s s' := by
  obtain ⟨qs, hqs, hdead⟩ := haside.dead
  refine ⟨fun hlt => ?_, fun hle => ?_⟩
  · obtain ⟨hfound, ps, hps, hdead'⟩ := h.again hlt
    refine ⟨hfound, qs ++ ps, hqs.append hps, ?_⟩
    rw [hdead', hdead, buryAll_append]
  · obtain ⟨hover, e, ps, ps', hc, hps, hps', hdead'⟩ := h.ended hle
    refine ⟨hover, e, qs ++ ps, ps', hc, hqs.append hps, hps', ?_⟩
    rw [hdead', hdead, ← buryAll_append, List.append_assoc]

/-- What is done to the other jobs afterwards makes no difference to a failure of this one either.
-/
theorem Failed.aside {others : List JobEnvelope} {s s₁ s' : Store}
    (h : Failed H Q id queue m r others s s₁) (haside : Aside H Q id others s₁ s') :
    Failed H Q id queue m r others s s' := by
  obtain ⟨qs, hqs, hdead⟩ := haside.dead
  refine ⟨fun hlt => ?_, fun hle => ?_⟩
  · obtain ⟨hfound, ps, hps, hdead'⟩ := h.again hlt
    refine ⟨haside.elsewhere.found hfound, ps ++ qs, hps.append hqs, ?_⟩
    rw [hdead, hdead', buryAll_append]
  · obtain ⟨hover, e, ps, ps', hc, hps, hps', hdead'⟩ := h.ended hle
    refine ⟨haside.elsewhere.vanished hover, e, ps, ps' ++ qs, hc, hps, hps'.append hqs, ?_⟩
    rw [hdead, hdead', ← buryAll_append, List.append_assoc, List.cons_append]

/-- `handle_err` compares the counter that was loaded; `retry_in` increments the one that is stored.
They are the same, so that a job is retried or given up as its counter says. -/
theorem Found.handleErr {message : String} {delay : UInt64} (others : List JobEnvelope)
    (hQ : H.keys.Queues Q) (h : Found H.keys Q id queue r H.currentProcessingQueue w.store)
    (he : e.Counts id queue r) (hrun : Solo allowed (handleErr H message e delay m) w (.ok ()) w') :
    Failed H Q id queue m r others w.store w'.store := by
  have hlt : e.jobMeta.retries < m ↔ r < m.toNat := by rw [UInt32.lt_iff_toNat_lt, he.retries]
  rw [Oxana.handleErr] at hrun
  split at hrun
  · next hless =>
    have hr := hlt.mp hless
    refine ⟨fun _ => ?_, fun hle => absurd hr (Nat.not_lt.mpr hle)⟩
    rw [he.id] at hrun
    rcases (solo_retryIn hrun).2 with ⟨hnone, -⟩ | ⟨p, e', hp, he', rfl⟩
    · obtain ⟨p, _, hp, -⟩ := h.stored
      rw [hp] at hnone
      cases hnone
    · obtain ⟨p', e'', hp', he'', hc⟩ := h.stored
      rw [hp] at hp'
      cases hp'
      rw [he'] at he''
      cases he''
      refine ⟨h.retried hQ rfl (hc.withRetriesIncremented hr message) (Int.natCast_nonneg _), [],
        .nil others, ?_⟩
      exact ((Store.list_put_ne _ (current_ne H).2.1.symm).trans
        (Store.list_put_ne _ StorageKeys.dead_ne_retry)).trans
          (Store.list_put_ne _ StorageKeys.jobs_ne_dead.symm)
  · next hmore =>
    have hr : ¬ r < m.toNat := fun h => hmore (hlt.mpr h)
    refine ⟨fun hlt => absurd hlt hr, fun _ => ?_⟩
    obtain ⟨-, -, -, rfl⟩ := solo_kill hrun
    exact ⟨h.killed hQ rfl (he.withError message).id, _, [], [], he.withError message,
      .nil others, .nil others, Store.list_put_self _⟩

end Own

/-! ## The attempt -/

/-- The batch `before ++ e :: after` is executed and its handler fails. The job of `e` can be built,
and may be retried `m` times; the others may be what they like. The attempt is given by its parts,
in the order of `processPending`. -/
inductive FailingAttempt (H : Handle) (m : UInt32) (before : List JobEnvelope) (e : JobEnvelope)
    (after : List JobEnvelope) (w w' : World γ) : Prop
  | fails {before' after' started₁ started₂ : List JobEnvelope} {e' : JobEnvelope}
      {resumes : Bool} {n : ℕ} {message : String} {delay : UInt64}
      {w₁ w₂ w₃ w₄ w₅ w₆ : World γ} :
      -- those that cannot be built are killed
      Solo Reliable (killInvalid H before) w (.ok before') w₁ →
      Solo Reliable (killInvalid H after) w₁ (.ok after') w₂ →
      -- the others are started
      Solo Reliable (setStartedAtBatch H (if resumes then before' ++ e :: after'
        else (before' ++ e :: after').map (·.withoutState))) w₂
          (.ok (started₁ ++ e' :: started₂)) w₃ →
      started₁.length = before'.length →
      -- the handler runs
      Solo Reliable (runProcess H ((started₁ ++ e' :: started₂).map (·.id)) n) w₃ (.ok ()) w₄ →
      -- and every job has failed
      Solo Reliable (handleErrs H message started₁) w₄ (.ok ()) w₅ →
      Solo Reliable (handleErr H message e' delay m) w₅ (.ok ()) w₆ →
      Solo Reliable (handleErrs H message started₂) w₆ (.ok ()) w' →
      FailingAttempt H m before e after w w'

section Attempt

variable {m : UInt32} {r : ℕ} {before after : List JobEnvelope} {e : JobEnvelope} {here : Key}

/-- Jobs are killed one after the other, so that a list of them can be cut. -/
theorem solo_killInvalid_append {xs ys xs' ys' : List JobEnvelope} {w₁ : World γ}
    (hxs : Solo Reliable (killInvalid H xs) w (.ok xs') w₁)
    (hys : Solo Reliable (killInvalid H ys) w₁ (.ok ys') w') :
    Solo Reliable (killInvalid H (xs ++ ys)) w (.ok (xs' ++ ys')) w' := by
  induction xs generalizing w xs' with
  | nil =>
    obtain ⟨hnil, rfl⟩ := solo_pure.mp hxs
    cases hnil
    exact hys
  | cons x xs ih =>
    obtain ⟨c, hc, hxs⟩ := solo_ask.mp hxs
    refine solo_ask.mpr ⟨c, hc, ?_⟩
    cases hinvalid : c.invalid with
    | some message =>
      rw [hinvalid] at hxs
      obtain ⟨_, w₂, hkill, hrest⟩ := solo_bind_ok hxs
      exact solo_bind.mpr (.inl ⟨(), w₂, hkill, ih hrest⟩)
    | none =>
      rw [hinvalid] at hxs
      obtain ⟨rest, w₂, hrest, hpure⟩ := solo_bind_ok hxs
      obtain ⟨hcons, rfl⟩ := solo_pure.mp hpure
      cases hcons
      exact solo_bind.mpr (.inl ⟨rest ++ ys', w', ih hrest, solo_pure.mpr ⟨rfl, rfl⟩⟩)

/-- Failures are dealt with one after the other, so that a list of them can be cut. -/
theorem solo_handleErrs_append {message : String} {xs ys : List JobEnvelope} {w₁ : World γ}
    (hxs : Solo Reliable (handleErrs H message xs) w (.ok ()) w₁)
    (hys : Solo Reliable (handleErrs H message ys) w₁ (.ok ()) w') :
    Solo Reliable (handleErrs H message (xs ++ ys)) w (.ok ()) w' := by
  induction xs generalizing w with
  | nil =>
    obtain ⟨-, rfl⟩ := solo_pure.mp hxs
    exact hys
  | cons x xs ih =>
    obtain ⟨c, hc, hxs⟩ := solo_ask.mp hxs
    obtain ⟨_, w₂, hone, hrest⟩ := solo_bind_ok hxs
    exact solo_ask.mpr ⟨c, hc, solo_bind.mpr (.inl ⟨(), w₂, hone, ih hrest⟩)⟩

/-- The parts of a failing attempt make up a run of the whole. -/
theorem FailingAttempt.run (h : FailingAttempt H m before e after w w') :
    Solo Reliable (processPending H (before ++ e :: after)) w (.ok ()) w' := by
  obtain @⟨before', after', started₁, started₂, e', resumes, n, message, delay, w₁, w₂, w₃, w₄, w₅,
    w₆, hbefore, hafter, hstart, -, hprocess, herrs₁, herr, herrs₂⟩ := h
  have hown : Solo Reliable (killInvalid H (e :: after)) w₁ (.ok (e :: after')) w₂ :=
    solo_ask.mpr ⟨{}, rfl, solo_bind.mpr (.inl ⟨after', w₂, hafter, solo_pure.mpr ⟨rfl, rfl⟩⟩)⟩
  refine solo_bind.mpr (.inl ⟨_, w₂, solo_killInvalid_append hbefore hown, ?_⟩)
  rw [runBatch, if_neg (List.append_ne_nil_of_right_ne_nil before' (List.cons_ne_nil e after'))]
  refine solo_ask.mpr ⟨{ resumes := resumes, rounds := n, result := .failed message }, rfl, ?_⟩
  refine solo_bind.mpr (.inl ⟨_, w₃, hstart, solo_bind.mpr (.inl ⟨(), w₄, hprocess, ?_⟩)⟩)
  refine solo_handleErrs_append herrs₁ (solo_ask.mpr ⟨{ delay := delay, maxRetries := m }, rfl, ?_⟩)
  exact solo_bind.mpr (.inl ⟨(), w₆, herr, herrs₂⟩)

/-- What a started batch consists of: the envelopes of the batch, marked as started, with their
states or without. -/
theorem started_eq {es started : List JobEnvelope} {resumes : Bool}
    (h : ∃ t : Int64, started =
      (if resumes then es else es.map (·.withoutState)).map (·.withStartedAt t)) :
    ∃ f : JobEnvelope → JobEnvelope, started = es.map f ∧
      ∀ e, (f e).id = e.id ∧ (f e).queue = e.queue ∧
        ∀ id queue r, e.Counts id queue r → (f e).Counts id queue r := by
  obtain ⟨t, rfl⟩ := h
  cases resumes with
  | true =>
    exact ⟨(·.withStartedAt t), rfl, fun e => ⟨rfl, rfl, fun _ _ _ h => h.withStartedAt t⟩⟩
  | false =>
    refine ⟨fun e => e.withoutState.withStartedAt t, ?_,
      fun e => ⟨rfl, rfl, fun _ _ _ h => h.withoutState.withStartedAt t⟩⟩
    rw [if_neg (by decide), List.map_map]
    rfl

/-- **A failed attempt** of a job has one of two ends: the job waits for a retry with one more
attempt counted, or it is on the dead list. -/
theorem Found.attempt (hQ : H.keys.Queues Q)
    (h : Found H.keys Q id queue r H.currentProcessingQueue w.store) (he : e.Counts id queue r)
    (hothers : Others Q id (before ++ after)) (hrun : FailingAttempt H m before e after w w') :
    Failed H Q id queue m r (before ++ after) w.store w'.store := by
  obtain @⟨before', after', started₁, started₂, e', resumes, n, message, delay, w₁, w₂, w₃, w₄, w₅,
    w₆, hbefore, hafter, hstart, hlength, hprocess, herrs₁, herr, herrs₂⟩ := hrun
  have hin₁ : ∀ x ∈ before, x ∈ before ++ after := fun x hx => List.mem_append_left _ hx
  have hin₂ : ∀ x ∈ after, x ∈ before ++ after := fun x hx => List.mem_append_right _ hx
  -- those that cannot be built
  obtain ⟨hsub₁, haside₁⟩ := solo_killInvalid_aside hQ h.sound
    (fun x hx => (hothers x (hin₁ x hx)).1) hin₁ hbefore
  have h₁ := haside₁.elsewhere.found h
  obtain ⟨hsub₂, haside₂⟩ := solo_killInvalid_aside hQ h₁.sound
    (fun x hx => (hothers x (hin₂ x hx)).1) hin₂ hafter
  have h₂ := haside₂.elsewhere.found h₁
  have hrest : ∀ x ∈ before' ++ after', x ∈ before ++ after := by
    intro x hx
    rcases List.mem_append.mp hx with hx | hx
    · exact hin₁ x (hsub₁ x hx)
    · exact hin₂ x (hsub₂ x hx)
  -- the batch is started
  have hbatch : ∀ x ∈ before' ++ e :: after', (x.id ≠ id ∧ x.queue ∈ Q) ∨ x.Counts id queue r := by
    intro x hx
    rcases List.mem_append.mp hx with hx | hx
    · exact .inl (hothers x (hrest x (List.mem_append_left _ hx)))
    · rcases List.mem_cons.mp hx with rfl | hx
      · exact .inr he
      · exact .inl (hothers x (hrest x (List.mem_append_right _ hx)))
  have hresumed : ∀ x ∈ (if resumes then before' ++ e :: after'
      else (before' ++ e :: after').map (·.withoutState)),
      (x.id ≠ id ∧ x.queue ∈ Q) ∨ x.Counts id queue r := by
    cases resumes with
    | true => exact hbatch
    | false =>
      intro x hx
      obtain ⟨y, hy, rfl⟩ := List.mem_map.mp hx
      exact (hbatch y hy).imp (fun h => h) fun h => h.withoutState
  obtain ⟨hstarted, h₃, hdead₃⟩ := h₂.setStartedAtBatch hQ hresumed (by
    cases resumes with
    | true => exact List.append_ne_nil_of_right_ne_nil _ (List.cons_ne_nil _ _)
    | false =>
      rw [if_neg (by decide), List.map_append]
      exact List.append_ne_nil_of_right_ne_nil _ (List.cons_ne_nil _ _)) hstart
  obtain ⟨f, heq, hf⟩ := started_eq hstarted
  rw [List.map_append, List.map_cons] at heq
  obtain ⟨rfl, htail⟩ := List.append_inj heq (by rw [List.length_map, hlength])
  obtain ⟨rfl, rfl⟩ := List.cons_eq_cons.mp htail
  -- the handler runs
  obtain ⟨h₄, hdead₄⟩ := h₃.runProcess hQ hprocess
  have haside₄ : Aside H Q id (before ++ after) w.store w₂.store := haside₁.trans haside₂
  -- and the jobs are handled one after the other
  have hids (xs : List JobEnvelope) (hxs : ∀ x ∈ xs, x ∈ before' ++ after') :
      ∀ x ∈ xs.map f, ∃ y ∈ before ++ after, y.id = x.id := by
    intro x hx
    obtain ⟨y, hy, rfl⟩ := List.mem_map.mp hx
    exact ⟨y, hrest y (hxs y hy), (hf y).1.symm⟩
  have hnot (xs : List JobEnvelope) (hxs : ∀ x ∈ xs, x ∈ before' ++ after') :
      ∀ x ∈ xs.map f, x.id ≠ id := by
    intro x hx
    obtain ⟨y, hy, hid⟩ := hids xs hxs x hx
    exact hid ▸ (hothers y hy).1
  have hl : ∀ x ∈ before', x ∈ before' ++ after' := fun x hx => List.mem_append_left _ hx
  have hr : ∀ x ∈ after', x ∈ before' ++ after' := fun x hx => List.mem_append_right _ hx
  have haside₅ := (solo_handleErrs_aside hQ h₄.sound (hnot before' hl) (fun _ h => h) herrs₁).mono
    (hids before' hl)
  have h₅ := haside₅.elsewhere.found h₄
  have hfailed := h₅.handleErr (before ++ after) hQ ((hf e).2.2 _ _ _ he) herr
  have hsound₆ : Sound H.keys Q w₆.store := by
    rcases Nat.lt_or_ge r m.toNat with hlt | hle
    · exact (hfailed.again hlt).1.sound
    · exact (hfailed.ended hle).1.sound
  have haside₆ := (solo_handleErrs_aside hQ hsound₆ (hnot after' hr) (fun _ h => h) herrs₂).mono
    (hids after' hr)
  have hquiet : Failed H Q id queue m r (before ++ after) w₂.store w'.store := by
    have hlate := (hfailed.after_aside haside₅).aside haside₆
    obtain ⟨hagain, hover⟩ := hlate
    rw [hdead₄, hdead₃] at hagain hover
    exact ⟨hagain, hover⟩
  exact hquiet.after_aside haside₄

/-! ### It can be made -/

/-- Nothing keeps a retry from succeeding. -/
theorem Found.retries (h : Found H.keys Q id queue r H.currentProcessingQueue w.store)
    (delay : UInt64) (message : String) :
    ∃ w', Solo Reliable (retryIn H id delay message) w (.ok ()) w' := by
  obtain ⟨p, e, hp, he, -⟩ := h.stored
  have hproc := current_ne H
  have hsnapshot : Solo Reliable (transitionSnapshot H.keys id) w (.ok (some (p, e))) w := by
    refine (solo_transitionSnapshot_reliable h.sound.jobs).mpr ⟨rfl, ?_⟩
    simp only [hp, he]
  have hfound : Solo Reliable (getJobOn H id) w (.ok (some e)) w :=
    solo_bind.mpr (.inl ⟨_, w, hsnapshot, solo_pure.mpr ⟨rfl, rfl⟩⟩)
  have hrun := retryFailed_ok StorageKeys.jobs_ne_retry hproc.1.symm hproc.2.2.2.symm
    h.sound.jobs (h.sound.delayed .retry) (h.sound.processing H.processId)
    (e.withRetriesIncremented message).id (e.withRetriesIncremented message).encode
    (retryScore w.clock delay)
  exact ⟨_, solo_connection_bind.mpr (solo_bind.mpr (.inl ⟨some e, w, hfound,
    solo_now_bind.mpr ((solo_send_run hrun).mpr ⟨rfl, rfl⟩)⟩))⟩

/-- Nothing keeps a job from being killed. -/
theorem Found.kills (h : Found H.keys Q id queue r H.currentProcessingQueue w.store)
    (e : JobEnvelope) (message : String) :
    ∃ w', Solo Reliable (kill H e message) w (.ok ()) w' := by
  have hproc := current_ne H
  have hrun := finishDead_ok StorageKeys.jobs_ne_dead hproc.1.symm hproc.2.1.symm h.sound.jobs
    h.sound.dead (h.sound.processing H.processId) (e.withError message).id
    (e.withError message).encode (H.deadJobLimit.getD 0)
  exact ⟨_, solo_connection_bind.mpr ((solo_send_run hrun).mpr ⟨rfl, rfl⟩)⟩

/-- Nothing keeps an attempt from beginning. -/
theorem Found.starts (h : Found H.keys Q id queue r here w.store) (e : JobEnvelope) :
    ∃ w', Solo Reliable (Oxana.setStartedAtBatch H [e]) w
      (.ok [e.withStartedAt (.ofInt w.clock)]) w' := by
  have hrun : hsetMultiple H.keys.jobs
      ([e.withStartedAt (.ofInt w.clock)].map fun e => (e.id, e.encode)) w.store = _ :=
    onKind_ok h.sound.jobs
  have hupdate : Solo Reliable (updateJobs H [e.withStartedAt (.ofInt w.clock)]) w (.ok ()) _ :=
    solo_connection_bind.mpr ((solo_send_run hrun).mpr ⟨rfl, rfl⟩)
  exact ⟨_, solo_now_bind.mpr (solo_bind.mpr (.inl ⟨(), _, hupdate, solo_pure.mpr ⟨rfl, rfl⟩⟩))⟩

/-- Nothing keeps an attempt from ending: there is a run of it that fails, in every state in which
the job is claimed. -/
theorem Found.attempts (hQ : H.keys.Queues Q)
    (h : Found H.keys Q id queue r H.currentProcessingQueue w.store) (he : e.Counts id queue r)
    (m : UInt32) : ∃ w' : World γ, FailingAttempt H m [] e [] w w' := by
  obtain ⟨w₁, hstart⟩ := h.starts e
  have hbatch : ∀ x ∈ [e], (x.id ≠ id ∧ x.queue ∈ Q) ∨ x.Counts id queue r := by
    intro x hx
    obtain rfl := List.mem_singleton.mp hx
    exact .inr he
  obtain ⟨-, h₁, -⟩ := h.setStartedAtBatch hQ hbatch (List.cons_ne_nil e []) hstart
  have he₁ := he.withStartedAt (.ofInt w.clock)
  have hfail : ∃ w', Solo Reliable
      (Oxana.handleErr H "" (e.withStartedAt (.ofInt w.clock)) 0 m) w₁ (.ok ()) w' := by
    rw [Oxana.handleErr]
    split
    · rw [he₁.id]
      exact h₁.retries 0 ""
    · exact h₁.kills _ ""
  obtain ⟨w', hfail⟩ := hfail
  have hnone : Solo Reliable (killInvalid H []) w (.ok []) w := solo_pure.mpr ⟨rfl, rfl⟩
  have hidle : Solo Reliable (Oxana.runProcess H ([e.withStartedAt (.ofInt w.clock)].map (·.id)) 0)
      w₁ (.ok ()) w₁ := solo_pure.mpr ⟨rfl, rfl⟩
  have hdone (w : World γ) : Solo Reliable (handleErrs H "" []) w (.ok ()) w :=
    solo_pure.mpr ⟨rfl, rfl⟩
  exact ⟨w', @FailingAttempt.fails _ H m [] e [] w w' [] [] [] [] _ true _ _ _ w w w₁ w₁ w₁ w'
    hnone hnone hstart rfl hidle (hdone w₁) hfail (hdone w')⟩

end Attempt

end Oxana
