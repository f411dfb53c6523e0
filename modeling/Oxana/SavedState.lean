import Oxana.Alone
import Oxana.Executor

/-!
# Saved states

A handler may save a state for its job while it runs. When the attempt fails, `retry_in` reads the
stored payload again and so keeps that state; `kill` writes the envelope that was loaded before the
handler ran.

`failed_state_iff` says when the difference does not show.
-/

namespace Oxana

open Redis Interleave Call

variable {γ : Type} {H : Handle} {id : JobId}

/-! ## An attempt -/

/-- The state a value becomes when the payload is read again. -/
def heldState (v : Json.Value) : Option Json.Value :=
  if v = .null then none else some (canon v)

/-- The state of a job after these values were saved, the last one last. -/
def stateAfter (started : JobEnvelope) (saved : List Json.Value) : Option Json.Value :=
  (saved.getLast?).elim started.normalize.jobMeta.state heldState

/-- The handler runs: `Handling H id w saved w'` says that from the world `w` to `w'` it saved these
values for the job, by calls of `update_state` with any of their outcomes. A call that does not get
as far as writing saves nothing; one whose write is executed has saved its value, also when the
reply is lost. In between anything may happen that does not concern the payload. -/
inductive Handling (H : Handle) (id : JobId) : World γ → List Json.Value → World γ → Prop
  | done (w : World γ) : Handling H id w [] w
  | saves {w w₁ w₂ : World γ} {v : Json.Value} {saved : List Json.Value}
      {tr : List (Prog.Event Request (World γ))} {r : Except OxanaError Unit} :
      Handling H id w saved w₁ → Prog.Trace (updateState H id v) tr (.ret r) →
      Prog.Chained w₁ tr w₂ → (∃ e ∈ tr, e.label.updates) → Handling H id w (saved ++ [v]) w₂
  | misses {w w₁ w₂ : World γ} {v : Json.Value} {saved : List Json.Value}
      {tr : List (Prog.Event Request (World γ))} {r : Except OxanaError Unit} :
      Handling H id w saved w₁ → Prog.Trace (updateState H id v) tr (.ret r) →
      Prog.Chained w₁ tr w₂ → (∀ e ∈ tr, ¬ e.label.updates) → Handling H id w saved w₂
  | elsewhere {w w₁ w₂ : World γ} {saved : List Json.Value} :
      Handling H id w saved w₁ →
      payloadOf H.keys.jobs w₂.store id = payloadOf H.keys.jobs w₁.store id →
      Handling H id w saved w₂

/-! ## What is stored -/

/-- A call of `update_state` writes nothing, or writes the payload it has read with the state. -/
theorem updateState_saves {v : Json.Value} {w w' : World γ}
    {tr : List (Prog.Event Request (World γ))}
    {q : Prog Request (World γ) Choice (Except OxanaError Unit)}
    (ht : Prog.Trace (updateState H id v) tr q) (hch : Prog.Chained w tr w') :
    ((∀ e ∈ tr, ¬ e.label.updates) ∧ w' = w) ∨
      (∃ e ∈ tr, e.label.updates) ∧ ∃ p e, payloadOf H.keys.jobs w.store id = some p ∧
        JobEnvelope.decode p = some e ∧ w.store.Fits H.keys.jobs .hash ∧
        w' = w.after (hset H.keys.jobs e.id (e.withState v).encode) := by
  -- the first part only reads
  have hreads {tr : List (Prog.Event Request (World γ))}
      {q : Prog Request (World γ) Choice (Except OxanaError (Option JobEnvelope))}
      (h : Prog.Trace (getJob H id) tr q) : ∀ e ∈ tr, e.label = .hget ∧ e.post = e.pre :=
    ((getJob_always (E := fun _ _ => True) (G := fun l w w' => l = .hget ∧ w' = w)
      (fun _ _ => ⟨rfl, rfl⟩) id).trace h fun _ _ => trivial).1
  have hnone {tr : List (Prog.Event Request (World γ))}
      (h : ∀ e ∈ tr, e.label = .hget ∧ e.post = e.pre) : ∀ e ∈ tr, ¬ e.label.updates := by
    intro e he hl
    rw [(h e he).1] at hl
    cases hl
  have hstays {tr : List (Prog.Event Request (World γ))} {w w' : World γ}
      (h : ∀ e ∈ tr, e.label = .hget ∧ e.post = e.pre) (hch : Prog.Chained w tr w') : w' = w :=
    (hch.idle fun e he => (h e he).2).1
  rcases Prog.Trace.bind_inv ht with ⟨q, hq, -⟩ | ⟨r₁, tr₁, tr₂, rfl, h₁, h₂⟩
  · exact .inl ⟨hnone (hreads hq), hstays (hreads hq) hch⟩
  · obtain ⟨w₁, hch₁, hch₂⟩ := hch.split
    obtain rfl := hstays (hreads h₁) hch₁
    -- nothing more happens
    have hends (h : tr₂ = []) : (∀ e ∈ tr₁ ++ tr₂, ¬ e.label.updates) ∧ w' = w₁ := by
      subst h
      rw [List.append_nil]
      exact ⟨hnone (hreads h₁), hch₂.symm⟩
    cases r₁ with
    | error e =>
      cases h₂
      exact .inl (hends rfl)
    | ok found =>
      obtain ⟨-, hfits, hpay⟩ := solo_getJob (Prog.solo_of_trace h₁ rfl hch₁)
      cases found with
      | none =>
        cases h₂
        exact .inl (hends rfl)
      | some e =>
        rcases trace_connection h₂ with h | h₂
        · exact .inl (hends h)
        · rcases trace_send h₂ with h | ⟨w₂, rfl⟩
          · exact .inl (hends h)
          · obtain ⟨rfl, rfl⟩ := hch₂
            obtain ⟨p, hp, he⟩ := Option.map_eq_some_iff.mp hpay
            exact .inr ⟨⟨_, List.mem_append_right _ List.mem_cons_self, rfl⟩, p, e, hp, he,
              hfits, rfl⟩

/-- The payload of the job is that of an envelope whose state is the one the handler has saved last,
or the state it started with. -/
structure Holds (H : Handle) (id : JobId) (started : JobEnvelope) (saved : List Json.Value)
    (e : JobEnvelope) (w : World γ) : Prop where
  payload : payloadOf H.keys.jobs w.store id = some e.encode
  id : e.id = id
  state : e.normalize.jobMeta.state = stateAfter started saved

/-- Whatever the handler does, the stored payload has the state that it saved last. -/
theorem Handling.holds {started : JobEnvelope} {w w' : World γ} {saved : List Json.Value}
    (h : Handling H id w saved w') (hid : started.id = id)
    (hstart : payloadOf H.keys.jobs w.store id = some started.encode) :
    ∃ e, Holds H id started saved e w' := by
  induction h with
  | done => exact ⟨started, hstart, hid, rfl⟩
  | elsewhere _ hsame ih =>
    obtain ⟨e, he⟩ := ih
    exact ⟨e, hsame.trans he.payload, he.id, he.state⟩
  | misses _ ht hch hno ih =>
    obtain ⟨e, he⟩ := ih
    rcases updateState_saves ht hch with ⟨-, rfl⟩ | ⟨⟨ev, hev, hl⟩, -⟩
    · exact ⟨e, he⟩
    · exact absurd hl (hno ev hev)
  | @saves w₁ w₂ v saved tr r _ ht hch hset ih =>
    obtain ⟨e, he⟩ := ih
    rcases updateState_saves ht hch with ⟨hno, -⟩ | ⟨-, p, e', hp, he', hfits, rfl⟩
    · obtain ⟨ev, hev, hl⟩ := hset
      exact absurd hl (hno ev hev)
    · -- what it has read is the payload with the state saved before
      rw [he.payload] at hp
      cases hp
      rw [decode_encode] at he'
      cases he'
      refine ⟨e.normalize.withState v, ?_, he.id, ?_⟩
      · rw [World.after, hset_ok hfits]
        show payloadOf H.keys.jobs (w₁.store.put _ _) id = _
        rw [payloadOf, Store.hash_put_self]
        have hkey : e.normalize.id = id := he.id
        rw [hkey]
        exact lookup_setField_self
      · rw [stateAfter, List.getLast?_concat]
        rfl

/-! ## Failing -/

/-- A payload whose envelope has this state, if it has one. -/
def HasState (payload : Option String) (state : Option Json.Value) : Prop :=
  ∃ p e, payload = some p ∧ JobEnvelope.decode p = some e ∧ e.jobMeta.state = state

theorem hasState_encode (e : JobEnvelope) (state : Option Json.Value) :
    HasState (some e.encode) state ↔ e.normalize.jobMeta.state = state := by
  constructor
  · rintro ⟨p, e', hp, he', hstate⟩
    cases hp
    rw [decode_encode] at he'
    cases he'
    exact hstate
  · exact fun hstate => ⟨_, _, rfl, decode_encode e, hstate⟩

/-- A retry keeps the state that is stored, since it reads the payload. -/
theorem retryIn_state {allowed : Choice → Prop} {started e : JobEnvelope}
    {saved : List Json.Value} {w w' : World γ} {delay : UInt64} {error : String}
    (he : Holds H id started saved e w)
    (h : Solo allowed (retryIn H id delay error) w (.ok ()) w') :
    HasState (payloadOf H.keys.jobs w'.store id) (stateAfter started saved) := by
  rcases (solo_retryIn h).2 with ⟨hnone, -⟩ | ⟨p, e', hp, he', rfl⟩
  · rw [he.payload] at hnone
    cases hnone
  · rw [he.payload] at hp
    cases hp
    rw [decode_encode] at he'
    cases he'
    have hkey : (e.normalize.withRetriesIncremented error).id = id := he.id
    have hpay : payloadOf H.keys.jobs
        (retried H (e.normalize.withRetriesIncremented error) (retryScore w.clock delay) w.store)
          id = some (e.normalize.withRetriesIncremented error).encode := by
      rw [payloadOf, retried, Store.hash_put_ne _ (current_ne H).1.symm,
        Store.hash_put_ne _ StorageKeys.jobs_ne_retry, Store.hash_put_self, hkey]
      exact lookup_setField_self
    show HasState (payloadOf H.keys.jobs (retried H _ _ w.store) id) _
    rw [hpay, hasState_encode, ← he.state]
    exact congrArg (fun e => e.jobMeta.state) e.normalize_normalize

/-- A job that is killed has the state that it was started with, since the payload is not read
again. -/
theorem kill_state {allowed : Choice → Prop} {started : JobEnvelope} {w w' : World γ}
    {error : String} (h : Solo allowed (kill H started error) w (.ok ()) w')
    (state : Option Json.Value) :
    HasState (w'.store.list H.keys.dead).head? state ↔
      started.normalize.jobMeta.state = state := by
  obtain ⟨-, -, -, rfl⟩ := solo_kill h
  have hhead : ((killed H (started.withError error) w.store).list H.keys.dead).head? =
      some (started.withError error).encode := by
    rw [killed, Store.list_put_self, bury]
    split
    next hpos =>
      obtain ⟨n, hn⟩ := Nat.exists_eq_succ_of_ne_zero (Nat.ne_of_gt hpos)
      rw [hn, List.take_succ_cons, List.head?_cons]
    next => rw [List.head?_cons]
  show HasState ((killed H _ w.store).list H.keys.dead).head? state ↔ _
  rw [hhead, hasState_encode]
  exact Iff.rfl

/-- Where a failed attempt leaves the job: in the stored payload if it is retried, otherwise at the
head of the dead list. -/
def leftPayload (H : Handle) (started : JobEnvelope) (maxRetries : UInt32) (s : Store) :
    Option String :=
  if started.jobMeta.retries < maxRetries then payloadOf H.keys.jobs s started.id
  else (s.list H.keys.dead).head?

/-- **Saved states.** An attempt starts with the payload of `started`, its handler saves some
values and fails. What `retry_in` writes has the state saved last; what `kill` writes has it if and
only if that is the state the attempt was started with. So the failed attempt leaves the state saved
last if and only if it is retried or that state is the one it was started with. -/
theorem failed_state_iff {started : JobEnvelope} {w w' : World γ} {saved : List Json.Value}
    (hstart : payloadOf H.keys.jobs w.store started.id = some started.encode)
    (h : Handling H started.id w saved w') :
    (∀ {allowed : Choice → Prop} {delay : UInt64} {error : String} {w'' : World γ},
      Solo allowed (retryIn H started.id delay error) w' (.ok ()) w'' →
      HasState (payloadOf H.keys.jobs w''.store started.id) (stateAfter started saved)) ∧
    (∀ {allowed : Choice → Prop} {error : String} {w'' : World γ},
      Solo allowed (kill H started error) w' (.ok ()) w'' →
      (HasState (w''.store.list H.keys.dead).head? (stateAfter started saved) ↔
        started.normalize.jobMeta.state = stateAfter started saved)) ∧
    (∀ {allowed : Choice → Prop} {error : String} {delay : UInt64} {maxRetries : UInt32}
      {w'' : World γ},
      Solo allowed (handleErr H error started delay maxRetries) w' (.ok ()) w'' →
      (HasState (leftPayload H started maxRetries w''.store) (stateAfter started saved) ↔
        started.jobMeta.retries < maxRetries ∨
          started.normalize.jobMeta.state = stateAfter started saved)) := by
  obtain ⟨e, he⟩ := h.holds rfl hstart
  refine ⟨fun hretry => retryIn_state he hretry, fun hkill => kill_state hkill _, ?_⟩
  intro allowed error delay maxRetries w'' hend
  rw [handleErr] at hend
  rw [leftPayload]
  by_cases hlt : started.jobMeta.retries < maxRetries
  · rw [if_pos hlt] at hend ⊢
    exact ⟨fun _ => .inl hlt, fun _ => retryIn_state he hend⟩
  · rw [if_neg hlt] at hend ⊢
    rw [kill_state hend]
    exact ⟨.inr, fun h => h.resolve_left hlt⟩

/-! ## A handler that saves a state and fails -/

/-- The storage handle of the sample. -/
def saving : Handle := ⟨.new "", "p", none⟩

/-- The world in which its job has been started. -/
def begunMail : World Unit :=
  ⟨Store.empty.put saving.keys.jobs (.hash [(mail.id, mail.encode)]), 10, ()⟩

/-- The world in which the handler has saved `true`. -/
def savedMail : World Unit :=
  begunMail.after (hset saving.keys.jobs mail.id (mail.normalize.withState (.bool true)).encode)

theorem begunMail_payload :
    payloadOf saving.keys.jobs begunMail.store mail.id = some mail.encode := by
  rw [payloadOf, begunMail, Store.hash_put_self]
  exact List.lookup_cons_self

theorem begunMail_fits : begunMail.store.Fits saving.keys.jobs .hash := Store.fits_put_self _

/-- The worker reads the job that it has begun. -/
theorem mail_loaded : Call.Returns (getJob saving mail.id) [⟨.hget, begunMail, begunMail⟩]
    (some mail.normalize) := by
  have hget : (hget saving.keys.jobs mail.id begunMail.store).1 = .ok (some mail.encode) := by
    rw [hget_run begunMail_fits, begunMail_payload]
  have hsend := Returns.send (l := .hget) begunMail hget
  rw [World.after_read (hget_snd ..)] at hsend
  have hsnapshot : Call.Returns (transitionSnapshot saving.keys mail.id)
      [⟨.hget, begunMail, begunMail⟩] (some (mail.encode, mail.normalize)) := by
    refine hsend.bind ?_
    exact (Returns.decoded (decode_encode mail)).bind (.pure _)
  exact Returns.connection.bind (hsnapshot.bind (.pure _))

/-- The call of the handler that saves the state. -/
theorem mail_saves : Handling saving mail.id begunMail [.bool true] savedMail := by
  have hwrite : Call.Returns (updateJob saving (mail.normalize.withState (.bool true)))
      [⟨.update [mail.id], begunMail, savedMail⟩] () :=
    Returns.connection.bind (Returns.send (l := .update [mail.id]) begunMail
      (congrArg Prod.fst (hset_ok begunMail_fits _ _)))
  have hdone : Handling saving mail.id begunMail [] begunMail := .done begunMail
  exact hdone.saves (mail_loaded.bind hwrite) ⟨rfl, rfl, rfl⟩
    ⟨_, List.mem_cons_of_mem _ List.mem_cons_self, rfl⟩

/-- The job is killed after its handler has failed. -/
theorem mail_killed : Solo Reliable (handleErr saving "boom" mail 0 0) savedMail (.ok ())
    { savedMail with store := killed saving (mail.withError "boom") savedMail.store } := by
  have hfits (k : Key) (kd : Kind) (hk : k ≠ saving.keys.jobs) : savedMail.store.Fits k kd := by
    rw [savedMail, World.after, hset_ok begunMail_fits]
    exact ((Store.fits_empty kd).put _ fun h => absurd h hk).put _ fun h => absurd h hk
  have hjobs : savedMail.store.Fits saving.keys.jobs .hash := by
    rw [savedMail, World.after, hset_ok begunMail_fits]
    exact Store.fits_put_self _
  have hproc := current_ne saving
  have hrun := finishDead_ok (s := savedMail.store) StorageKeys.jobs_ne_dead hproc.1.symm
    hproc.2.1.symm hjobs (hfits _ _ StorageKeys.jobs_ne_dead.symm) (hfits _ _ hproc.1)
    mail.id (mail.withError "boom").encode 0
  refine solo_connection_bind.mpr (solo_send_reliable.mpr ⟨?_, ?_⟩)
  · exact (congrArg (fun x => replyOf x.1) hrun).symm
  · exact congrArg (fun x => ({ savedMail with store := x.2 } : World Unit)) hrun.symm

/-- What `failed_state_iff` says of the sample: the dead entry has the state of the start, not the
one saved. -/
theorem mail_state :
    HasState (leftPayload saving mail 0 (killed saving (mail.withError "boom") savedMail.store))
        (stateAfter mail [.bool true]) ↔
      mail.jobMeta.retries < 0 ∨
        mail.normalize.jobMeta.state = stateAfter mail [.bool true] :=
  (failed_state_iff begunMail_payload mail_saves).2.2 mail_killed

/-- The handler saves a state and fails for the last time: the state that it has saved is not in the
entry of the dead list. -/
theorem mail_state_lost :
    Handling saving mail.id begunMail [.bool true] savedMail ∧
      Solo Reliable (handleErr saving "boom" mail 0 0) savedMail (.ok ())
        { savedMail with store := killed saving (mail.withError "boom") savedMail.store } ∧
      ¬ HasState ((killed saving (mail.withError "boom") savedMail.store).list
        saving.keys.dead).head? (stateAfter mail [.bool true]) := by
  refine ⟨mail_saves, mail_killed, fun h => ?_⟩
  have hkill : Solo Reliable (kill saving mail "boom") savedMail (.ok ()) _ := mail_killed
  exact absurd ((kill_state hkill _).mp h) (by decide)

end Oxana
