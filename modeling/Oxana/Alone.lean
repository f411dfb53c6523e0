import Oxana.Calls
import Oxana.Interleave.Solo
import Oxana.Transitions

/-!
# Calls that nobody interferes with

What a call returns and what it leaves when no other client acts in between, by the way it is put
together. What the surroundings decide is left open as far as it is allowed; `Reliable` allows
everything but faults of the connection.
-/

namespace Oxana

open Redis Interleave

variable {γ α β : Type} {allowed : Choice → Prop}

/-- The surroundings are reliable: the request is executed by the server, and its answer reaches the
client. -/
def Reliable (c : Choice) : Prop := c.delivery = .answered

namespace Call

/-- From the world `w` the call can return `r` and leave `w'`, with allowed choices of the
surroundings and no step of another client in between. -/
def Solo (allowed : Choice → Prop) (x : Call γ α) (w : World γ) (r : Except OxanaError α)
    (w' : World γ) : Prop := Prog.Solo allowed x w r w'

variable {w w' : World γ} {r : Except OxanaError β}

theorem solo_pure {b : β} : Solo allowed (pure b) w r w' ↔ r = .ok b ∧ w' = w := Iff.rfl

theorem solo_fail {e : OxanaError} : Solo allowed (fail e) w r w' ↔ r = .error e ∧ w' = w :=
  Iff.rfl

/-- A call that asks for a choice does what it does after one of the choices that are allowed. -/
theorem solo_ask {k : Choice → Call γ β} :
    Solo allowed (ask k) w r w' ↔ ∃ c, allowed c ∧ Solo allowed (k c) w r w' := Iff.rfl

/-- A call whose errors are caught runs, and what is done with its result or its error runs after
it. -/
theorem solo_catching {x : Call γ α} {f : Except OxanaError α → Call γ β} :
    Solo allowed (catching x f) w r w' ↔
      ∃ r₁ w₁, Solo allowed x w r₁ w₁ ∧ Solo allowed (f r₁) w₁ r w' := Prog.solo_bind

/-- A sequence goes on after a success and ends with an error. -/
theorem solo_bind {x : Call γ α} {f : α → Call γ β} :
    Solo allowed (x >>= f) w r w' ↔
      (∃ a w₁, Solo allowed x w (.ok a) w₁ ∧ Solo allowed (f a) w₁ r w') ∨
      ∃ e, Solo allowed x w (.error e) w' ∧ r = .error e := by
  refine Prog.solo_bind.trans ⟨?_, ?_⟩
  · rintro ⟨r₁, w₁, hx, hf⟩
    cases r₁ with
    | ok a => exact .inl ⟨a, w₁, hx, hf⟩
    | error e =>
      obtain ⟨rfl, rfl⟩ := hf
      exact .inr ⟨e, hx, rfl⟩
  · rintro (⟨a, w₁, hx, hf⟩ | ⟨e, hx, rfl⟩)
    · exact ⟨.ok a, w₁, hx, hf⟩
    · exact ⟨.error e, w', hx, rfl, rfl⟩

/-- Reading the clock returns the time and changes nothing. -/
theorem solo_now {r : Except OxanaError Int} :
    Solo allowed now w r w' ↔ r = .ok w.clock ∧ w' = w := Iff.rfl

/-- Reading the clock and going on is going on with the time. -/
theorem solo_now_bind {f : Int → Call γ β} :
    Solo allowed (now >>= f) w r w' ↔ Solo allowed (f w.clock) w r w' := by
  rw [solo_bind]
  constructor
  · rintro (⟨t, w₁, h, hf⟩ | ⟨e, h, -⟩)
    · obtain ⟨ht, rfl⟩ := solo_now.mp h
      cases ht
      exact hf
    · cases (solo_now.mp h).1
  · exact fun h => .inl ⟨w.clock, w, solo_now.mpr ⟨rfl, rfl⟩, h⟩

/-- A script runs and its reply is returned, or the connection fails before or after it, and an
error is. -/
theorem solo_send {l : Request} {x : Script β} (h : Solo allowed (send l x) w r w') :
    (r = replyOf (x w.store).1 ∧ w' = w.after x) ∨
      ∃ t, r = .error (.redis t) ∧ (w' = w ∨ w' = w.after x) := by
  obtain ⟨c, -, h⟩ := solo_ask.mp h
  cases hc : c.delivery with
  | lost =>
    rw [hc] at h
    obtain ⟨hr, hw⟩ := solo_fail.mp h
    exact .inr ⟨c.transient, hr, .inl hw⟩
  | replyLost =>
    rw [hc] at h
    obtain ⟨hr, hw⟩ : r = .error (.redis c.transient) ∧ w' = w.after x := h
    exact .inr ⟨c.transient, hr, .inr hw⟩
  | answered =>
    rw [hc] at h
    exact .inl h

/-- Without faults a script runs, and its reply is returned. -/
theorem solo_send_reliable {l : Request} {x : Script β} :
    Solo Reliable (send l x) w r w' ↔ r = replyOf (x w.store).1 ∧ w' = w.after x := by
  constructor
  · intro h
    obtain ⟨c, hc, h⟩ := solo_ask.mp h
    rw [show c.delivery = .answered from hc] at h
    exact h
  · exact fun h => solo_ask.mpr ⟨{}, rfl, h⟩

/-- Without faults a script returns what it computes and leaves the store that it computes. -/
theorem solo_send_run {l : Request} {x : Script β} {b : β} {s : Store} (h : x w.store = (.ok b, s)) :
    Solo Reliable (send l x) w r w' ↔ r = .ok b ∧ w' = { w with store := s } := by
  rw [solo_send_reliable, World.after, h]
  rfl

/-- A sequence that succeeds is one of two successes. -/
theorem solo_bind_ok {x : Call γ α} {f : α → Call γ β} {b : β}
    (h : Solo allowed (x >>= f) w (.ok b) w') :
    ∃ a w₁, Solo allowed x w (.ok a) w₁ ∧ Solo allowed (f a) w₁ (.ok b) w' := by
  rcases solo_bind.mp h with h | ⟨e, -, he⟩
  · exact h
  · cases he

/-- A script that succeeds has run, and has left the world that follows from it. -/
theorem solo_send_ok {l : Request} {x : Script β} {b : β}
    (h : Solo allowed (send l x) w (.ok b) w') :
    (x w.store).1 = .ok b ∧ w' = w.after x := by
  rcases solo_send h with ⟨hr, hw⟩ | ⟨t, hr, -⟩
  · exact ⟨replyOf_ok hr.symm, hw⟩
  · cases hr

/-- A call that only reads leaves the world as it is, and returns what is known of its results. -/
theorem solo_reads {x : Call γ α} {Q : α → Prop} {a : α}
    (hx : Call.Always (fun _ _ => True) (fun _ w w' => w' = w) Q x)
    (h : Solo allowed x w (.ok a) w') : w' = w ∧ Q a := by
  obtain ⟨tr, htr, hch⟩ := Prog.Solo.trace h
  obtain ⟨hidle, hQ⟩ := hx.trace htr fun _ _ => trivial
  exact ⟨(hch.idle hidle).1, hQ a rfl⟩

/-- Asking for a connection leaves everything as it is, whether or not there is one. -/
theorem solo_connection {r : Except OxanaError Unit} (h : Solo allowed connection w r w') :
    w' = w := by
  obtain ⟨c, -, h⟩ := solo_ask.mp h
  split at h
  · exact h.2
  · exact h.2

/-- A call that takes a connection first and succeeds is one that succeeds without that. -/
theorem solo_connection_ok {f : Unit → Call γ β} {b : β}
    (h : Solo allowed (connection >>= f) w (.ok b) w') : Solo allowed (f ()) w (.ok b) w' := by
  obtain ⟨_, w₁, hc, hf⟩ := solo_bind_ok h
  obtain rfl := solo_connection hc
  exact hf

/-- Without faults there is always a connection. -/
theorem solo_connection_reliable {r : Except OxanaError Unit} :
    Solo Reliable connection w r w' ↔ r = .ok () ∧ w' = w := by
  constructor
  · intro h
    obtain ⟨c, hc, h⟩ := solo_ask.mp h
    rw [if_pos (show c.delivery = .answered from hc)] at h
    exact h
  · exact fun h => solo_ask.mpr ⟨{}, rfl, h⟩

/-- Without faults, a call that takes a connection first does what it does after that. -/
theorem solo_connection_bind {f : Unit → Call γ β} :
    Solo Reliable (connection >>= f) w r w' ↔ Solo Reliable (f ()) w r w' := by
  rw [solo_bind]
  constructor
  · rintro (⟨_, w₁, h, hf⟩ | ⟨e, h, -⟩)
    · obtain ⟨-, rfl⟩ := solo_connection_reliable.mp h
      exact hf
    · cases (solo_connection_reliable.mp h).1
  · exact fun h => .inl ⟨(), w, solo_connection_reliable.mpr ⟨rfl, rfl⟩, h⟩

/-- Without faults, a script and what follows it: the rest goes on with the result, or ends with the
script's error. -/
theorem solo_send_bind {l : Request} {x : Script α} {f : α → Call γ β} :
    Solo Reliable (send l x >>= f) w r w' ↔
      (∃ a, (x w.store).1 = .ok a ∧ Solo Reliable (f a) (w.after x) r w') ∨
      ∃ e, (x w.store).1 = .error e ∧ r = .error (.redis false) ∧ w' = w.after x := by
  rw [solo_bind]
  constructor
  · rintro (⟨a, w₁, h, hf⟩ | ⟨e, h, hr⟩)
    · obtain ⟨ha, rfl⟩ := solo_send_reliable.mp h
      exact .inl ⟨a, Call.replyOf_ok ha.symm, hf⟩
    · obtain ⟨he, rfl⟩ := solo_send_reliable.mp h
      cases hx : (x w.store).1 with
      | ok a =>
        rw [hx] at he
        cases he
      | error e' =>
        rw [hx] at he
        cases he
        exact .inr ⟨e', rfl, hr, rfl⟩
  · rintro (⟨a, ha, hf⟩ | ⟨e, he, rfl, rfl⟩)
    · exact .inl ⟨a, w.after x, solo_send_reliable.mpr ⟨by rw [ha]; rfl, rfl⟩, hf⟩
    · exact .inr ⟨.redis false, solo_send_reliable.mpr ⟨by rw [he]; rfl, rfl⟩, rfl⟩

/-- Without faults, a read and what follows it: the key has its type, and the rest goes on with what
is there. -/
theorem solo_read_bind {α β : Type} {l : Request} {kd : Kind} {k : Key} {f : Store → α}
    {g : α → Call γ β} {r : Except OxanaError β} (hfits : w.store.Fits k kd) :
    Solo Reliable (send l (onKind kd k fun s => (f s, s)) >>= g) w r w' ↔
      Solo Reliable (g (f w.store)) w r w' := by
  rw [solo_send_bind, World.after_read (onKind_read ..), onKind_ok hfits]
  constructor
  · rintro (⟨a, ha, hg⟩ | ⟨e, he, -⟩)
    · obtain rfl := Except.ok.inj ha
      exact hg
    · cases he
  · exact fun hg => .inl ⟨_, rfl, hg⟩

end Call

/-! ## Scans -/

section Scans

open Call

variable {w w' : World γ} {pattern : String} {keys : List Key}

/-- What a scan returns was there and matches the pattern, and the scan has changed nothing. -/
theorem solo_scanKeys {n : Nat} (h : Solo allowed (scanKeys pattern n) w (.ok keys) w') :
    w' = w ∧ ∀ k ∈ keys, (w.store.get k).isSome = true ∧ globMatch pattern k = true := by
  induction n generalizing w w' keys with
  | zero => exact h.elim
  | succ n ih =>
    obtain ⟨c, -, h⟩ := solo_ask.mp h
    obtain ⟨page, w₁, hsend, h⟩ := solo_bind_ok h
    obtain ⟨hpage, rfl⟩ := solo_send_ok hsend
    have hw : w.after (scanPage pattern c.page) = w := World.after_read rfl
    rw [hw] at h
    obtain rfl := Except.ok.inj hpage
    have hin : ∀ k ∈ c.page.filter fun k => (w.store.get k).isSome ∧ globMatch pattern k,
        (w.store.get k).isSome = true ∧ globMatch pattern k = true := fun k hk =>
      decide_eq_true_iff.mp (List.mem_filter.mp hk).2
    split at h
    · obtain ⟨hkeys, rfl⟩ := solo_pure.mp h
      cases hkeys
      exact ⟨rfl, hin⟩
    · obtain ⟨more, w₂, hmore, h⟩ := solo_bind_ok h
      obtain ⟨rfl, hall⟩ := ih hmore
      obtain ⟨hkeys, rfl⟩ := solo_pure.mp h
      cases hkeys
      exact ⟨rfl, fun k hk => (List.mem_append.mp hk).elim (hin k) (hall k)⟩

/-- The scan of the keys that match a pattern, when it has returned every such key that exists; the
server may return others and repeat itself. -/
structure ScansAll (pattern : String) (w : World γ) (keys : List Key) (w' : World γ) : Prop where
  /-- it has returned these -/
  run : Solo (fun _ => True) (ask fun c => scanKeys pattern c.rounds) w (.ok keys) w'
  /-- every key that matches is among them -/
  all : ∀ k, (w.store.get k).isSome = true → globMatch pattern k = true → k ∈ keys

/-- A scan that returns everything changes nothing. -/
theorem ScansAll.same (h : ScansAll pattern w keys w') : w' = w := by
  obtain ⟨c, -, hrun⟩ := solo_ask.mp h.run
  exact (solo_scanKeys hrun).1

/-- A scan that returns everything returns the keys that are there and match, and no others. -/
theorem ScansAll.mem_iff (h : ScansAll pattern w keys w') (k : Key) :
    k ∈ keys ↔ (w.store.get k).isSome = true ∧ globMatch pattern k = true := by
  obtain ⟨c, -, hrun⟩ := solo_ask.mp h.run
  exact ⟨(solo_scanKeys hrun).2 k, fun hk => h.all k hk.1 hk.2⟩

/-- A server that sends all keys in one page answers a scan with everything. -/
theorem scansAll_page (page : List Key)
    (h : ∀ k, (w.store.get k).isSome = true → globMatch pattern k = true → k ∈ page) :
    ScansAll pattern w
      (page.filter fun k => (w.store.get k).isSome ∧ globMatch pattern k) w := by
  refine ⟨⟨{ page := page }, trivial, ?_⟩, fun k hk hm =>
    List.mem_filter.mpr ⟨h k hk hm, decide_eq_true ⟨hk, hm⟩⟩⟩
  exact ⟨{ page := page }, trivial, {}, trivial, rfl, rfl⟩

end Scans

/-! ## Storage operations -/

section Operations

open Call

variable {K : StorageKeys} {H : Handle} {w w' : World γ} {id : JobId}

/-- What a read of a payload finds is what is stored for the job, with the envelope that it decodes
to. -/
theorem solo_transitionSnapshot {found : Option (String × JobEnvelope)}
    (h : Solo allowed (transitionSnapshot K id) w (.ok found) w') :
    w' = w ∧ w.store.Fits K.jobs .hash ∧ Decoded found ∧
      payloadOf K.jobs w.store id = found.map (·.1) := by
  obtain ⟨payload, w₁, hsend, h⟩ := solo_bind_ok h
  obtain ⟨hp, rfl⟩ := solo_send_ok hsend
  have hfits : w.store.Fits K.jobs .hash := by
    by_contra hno
    rw [hget, onKind, if_neg hno] at hp
    cases hp
  rw [hget_run hfits] at hp
  rw [World.after_read (hget_snd ..)] at h
  cases hp
  cases hpay : payloadOf K.jobs w.store id with
  | none =>
    rw [hpay] at h
    obtain ⟨hf, rfl⟩ := solo_pure.mp h
    cases hf
    exact ⟨rfl, hfits, trivial, rfl⟩
  | some p =>
    rw [hpay] at h
    simp only [decoded] at h
    split at h
    next e he =>
      obtain ⟨hf, rfl⟩ : Except.ok found = .ok (some (p, e)) ∧ w' = w := h
      cases hf
      exact ⟨rfl, hfits, he, rfl⟩
    next =>
      obtain ⟨hf, -⟩ : (Except.ok found : Except OxanaError _) = .error .json ∧ w' = w := h
      cases hf

/-- What `get_job_w_conn` finds is the envelope of the stored payload, or that nothing is stored. -/
theorem solo_getJobOn {found : Option JobEnvelope}
    (h : Solo allowed (getJobOn H id) w (.ok found) w') :
    w' = w ∧ w.store.Fits H.keys.jobs .hash ∧
      (payloadOf H.keys.jobs w.store id).map JobEnvelope.decode = found.map some := by
  obtain ⟨snapshot, w₁, h, hf⟩ := solo_bind_ok h
  obtain ⟨rfl, hfits, hdec, hpay⟩ := solo_transitionSnapshot h
  obtain ⟨hfound, rfl⟩ := solo_pure.mp hf
  obtain rfl : found = snapshot.map (·.2) := Except.ok.inj hfound
  refine ⟨rfl, hfits, ?_⟩
  rw [hpay]
  cases snapshot with
  | none => rfl
  | some pe => exact congrArg some hdec

/-- What `get_job` finds is the envelope of the stored payload, or that nothing is stored. -/
theorem solo_getJob {found : Option JobEnvelope}
    (h : Solo allowed (getJob H id) w (.ok found) w') :
    w' = w ∧ w.store.Fits H.keys.jobs .hash ∧
      (payloadOf H.keys.jobs w.store id).map JobEnvelope.decode = found.map some :=
  solo_getJobOn (solo_connection_ok h)

/-- The store after a retry: the payload, the retry set and the claim are written. -/
def retried (H : Handle) (e : JobEnvelope) (score : Int) (s : Store) : Store :=
  ((s.put H.keys.jobs (.hash (setField e.id e.encode (s.hash H.keys.jobs)))).put H.keys.retry
    (.zset (setScore e.id score (s.zset H.keys.retry)))).put H.currentProcessingQueue
      (.list ((s.list H.currentProcessingQueue).erase e.id))

/-- The processing list of a handle is under none of the other keys. -/
theorem current_ne (H : Handle) : H.currentProcessingQueue ≠ H.keys.jobs ∧
    H.currentProcessingQueue ≠ H.keys.dead ∧ H.currentProcessingQueue ≠ H.keys.schedule ∧
    H.currentProcessingQueue ≠ H.keys.retry :=
  StorageKeys.processing_ne_fixed (K := H.keys) H.processId

/-- A retry that succeeds drops a claim without a payload, and otherwise stores the payload with
one more retry, due at its time. -/
theorem solo_retryIn {delay : UInt64} {error : String}
    (h : Solo allowed (retryIn H id delay error) w (.ok ()) w') :
    w.store.Fits H.keys.jobs .hash ∧
    ((payloadOf H.keys.jobs w.store id = none ∧
        w' = w.after (lremFirst H.currentProcessingQueue id)) ∨
      ∃ p e, payloadOf H.keys.jobs w.store id = some p ∧ JobEnvelope.decode p = some e ∧
        w' = { w with
          store := retried H (e.withRetriesIncremented error) (retryScore w.clock delay)
            w.store }) := by
  obtain ⟨found, w₁, h, hf⟩ := solo_bind_ok (solo_connection_ok h)
  obtain ⟨rfl, hfits, hpay⟩ := solo_getJobOn h
  refine ⟨hfits, ?_⟩
  cases found with
  | none => exact .inl ⟨Option.map_eq_none_iff.mp hpay, (solo_send_ok hf).2⟩
  | some e =>
    obtain ⟨p, hp, he⟩ := Option.map_eq_some_iff.mp hpay
    refine .inr ⟨p, e, hp, he, ?_⟩
    obtain ⟨hok, rfl⟩ := solo_send_ok (solo_now_bind.mp hf)
    have hproc := current_ne H
    rcases retryFailed_cases (s := w₁.store) StorageKeys.jobs_ne_retry hproc.1.symm
      hproc.2.2.2.symm (e.withRetriesIncremented error).id
      (e.withRetriesIncremented error).encode (retryScore w₁.clock delay) with
      ⟨m, hm⟩ | ⟨-, -, -, hrun⟩
    · rw [hm] at hok
      cases hok
    · rw [World.after, hrun]
      rfl

/-- The store after a job was killed: the dead list, the payload and the claim are written. -/
def killed (H : Handle) (e : JobEnvelope) (s : Store) : Store :=
  ((s.put H.keys.jobs (.hash (unset e.id (s.hash H.keys.jobs)))).put H.currentProcessingQueue
    (.list ((s.list H.currentProcessingQueue).erase e.id))).put H.keys.dead
      (.list (bury (H.deadJobLimit.getD 0) e.encode (s.list H.keys.dead)))

/-- A job that is killed leaves its claim and its payload, and goes to the dead list. -/
theorem solo_kill {e : JobEnvelope} {error : String}
    (h : Solo allowed (kill H e error) w (.ok ()) w') :
    w.store.Fits H.keys.jobs .hash ∧ w.store.Fits H.keys.dead .list ∧
      w.store.Fits H.currentProcessingQueue .list ∧
      w' = { w with store := killed H (e.withError error) w.store } := by
  obtain ⟨hok, rfl⟩ := solo_send_ok (solo_connection_ok h)
  have hproc := current_ne H
  rcases finishDead_cases (s := w.store) StorageKeys.jobs_ne_dead hproc.1.symm hproc.2.1.symm
    (e.withError error).id (e.withError error).encode (H.deadJobLimit.getD 0) with
    ⟨m, hm⟩ | ⟨hj, hd, hp, hrun⟩
  · rw [hm] at hok
    cases hok
  · refine ⟨hj, hd, hp, ?_⟩
    rw [World.after, hrun]
    rfl

end Operations

end Oxana
