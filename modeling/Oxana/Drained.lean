import Oxana.Discovery
import Oxana.Heartbeats

/-!
# What a drain leaves

A drain that returns has claimed every id of the queue, from the tail of the list to its head, and
it is told what became of each. Its results are compared here with the store: with the payloads
there were, with the entries it has put on the dead list, and with the claims that are left in its
processing list. Handlers may save states for their jobs, with any outcome.
-/

namespace Oxana

open Redis Interleave Call

variable {γ : Type} {allowed : Choice → Prop} {H : Handle} {K : StorageKeys} {queue : String}
  {id : JobId} {s s' s'' : Store} {w w' : World γ}

/-- Every payload that can be read is stored under the id of the job it describes. -/
def StoredUnder (K : StorageKeys) (s : Store) : Prop :=
  ∀ id p e, payloadOf K.jobs s id = some p → JobEnvelope.decode p = some e → e.id = id

/-- The entry of a job that failed: as it was loaded, with its error. -/
def FailedEntry (K : StorageKeys) (s : Store) (id : JobId) (entry : String) : Prop :=
  ∃ p e, payloadOf K.jobs s id = some p ∧ JobEnvelope.decode p = some e ∧
    ∃ error, entry = (e.withError error).encode ∨ entry = (e.withoutState.withError error).encode

/-- The ids of the jobs that have had this result. -/
def resulting (result : ProcessJobResult) (outs : List (JobId × ProcessJobResult)) : List JobId :=
  (outs.filter fun out => out.2 = result).map (·.1)

/-- The counters after these results have been counted. -/
def DrainStats.tally (stats : DrainStats) (outs : List (JobId × ProcessJobResult)) : DrainStats :=
  outs.foldl (fun stats out => stats.count out.2) stats

/-- What a handler does for its job: only its payload changes, and it stays one of the job. -/
structure Rewrites (K : StorageKeys) (id : JobId) (s s' : Store) : Prop where
  others : ∀ id', id' ≠ id → payloadOf K.jobs s' id' = payloadOf K.jobs s id'
  untouched : ∀ k, k ≠ K.jobs → s'.get k = s.get k

theorem Rewrites.refl (s : Store) : Rewrites K id s s := ⟨fun _ _ => rfl, fun _ _ => rfl⟩

/-- Two rewrites of one payload, one after the other, are one. -/
theorem Rewrites.trans (h : Rewrites K id s s') (h' : Rewrites K id s' s'') :
    Rewrites K id s s'' :=
  ⟨fun id' hne => (h'.others id' hne).trans (h.others id' hne),
    fun k hk => (h'.untouched k hk).trans (h.untouched k hk)⟩

/-- A payload that is written changes what is stored for its job and nothing else. -/
theorem Rewrites.write (payload : String) :
    Rewrites K id s (s.put K.jobs (.hash (setField id payload (s.hash K.jobs)))) where
  others id' hne := by
    rw [payloadOf, Store.hash_put_self, lookup_setField_ne hne, payloadOf]
  untouched k hk := Store.get_put_ne _ hk

/-- A payload that is written for an envelope is stored under the envelope's own id. -/
theorem Rewrites.storedUnder {e : JobEnvelope} (hs : StoredUnder K s) :
    StoredUnder K (s.put K.jobs (.hash (setField e.id e.encode (s.hash K.jobs)))) := by
  intro id p e' hp he
  rw [payloadOf, Store.hash_put_self] at hp
  by_cases hid : id = e.id
  · rw [hid, lookup_setField_self] at hp
    cases hp
    rw [decode_encode] at he
    cases he
    exact hid.symm
  · rw [lookup_setField_ne hid] at hp
    exact hs id p e' hp he

/-- A state is saved, or it is not; either way only the payload of its job has changed. -/
theorem Rewrites.updateState {v : Json.Value} {res : Except OxanaError Unit}
    (hs : StoredUnder H.keys w.store) (hrun : Solo allowed (updateState H id v) w res w') :
    Rewrites H.keys id w.store w'.store ∧ StoredUnder H.keys w'.store := by
  obtain ⟨tr, htr, hch⟩ := Prog.Solo.trace hrun
  rcases updateState_saves htr hch with ⟨-, rfl⟩ | ⟨-, p, e, hp, he, hfits, rfl⟩
  · exact ⟨.refl _, hs⟩
  · obtain rfl := hs id p e hp he
    rw [World.after, hset_ok hfits]
    exact ⟨.write _, Rewrites.storedUnder (e := e.withState v) hs⟩

/-- Whatever the handler does with its job, it only rewrites the payload. -/
theorem Rewrites.runProcess {n : ℕ} {res : Except OxanaError Unit}
    (hs : StoredUnder H.keys w.store) (hrun : Solo allowed (runProcess H [id] n) w res w') :
    Rewrites H.keys id w.store w'.store ∧ StoredUnder H.keys w'.store := by
  induction n generalizing w with
  | zero =>
    obtain ⟨-, rfl⟩ := solo_pure.mp hrun
    exact ⟨.refl _, hs⟩
  | succ n ih =>
    obtain ⟨c, -, hrun⟩ := solo_ask.mp hrun
    cases hid : [id][c.rounds]? with
    | none =>
      rw [hid] at hrun
      obtain ⟨-, rfl⟩ := solo_pure.mp hrun
      exact ⟨.refl _, hs⟩
    | some id' =>
      obtain rfl := List.mem_singleton.mp (List.mem_of_getElem? hid)
      rw [hid] at hrun
      obtain ⟨r₁, w₁, hupdate, hrest⟩ := solo_catching.mp hrun
      obtain ⟨h₁, hs₁⟩ := Rewrites.updateState hs hupdate
      obtain ⟨h₂, hs₂⟩ := ih hs₁ hrest
      exact ⟨h₁.trans h₂, hs₂⟩

/-- A job that starts over loses its state, if it has one, and nothing else. -/
theorem Rewrites.startOver {resumes : Bool} {e e' : JobEnvelope} (hs : StoredUnder H.keys w.store)
    (hrun : Solo allowed (startOver H resumes e) w (.ok e') w') :
    (e' = e ∨ e' = e.withoutState) ∧ Rewrites H.keys e.id w.store w'.store ∧
      StoredUnder H.keys w'.store := by
  rw [Oxana.startOver] at hrun
  split at hrun
  · obtain ⟨he, rfl⟩ := solo_pure.mp hrun
    cases he
    exact ⟨.inl rfl, .refl _, hs⟩
  · obtain ⟨_, w₁, hupdate, hpure⟩ := solo_bind_ok hrun
    obtain ⟨he, rfl⟩ := solo_pure.mp hpure
    cases he
    obtain ⟨hok, rfl⟩ := solo_send_ok (solo_connection_ok hupdate)
    obtain ⟨hfits, -⟩ := onKind_inv hok
    rw [World.after, hset_ok hfits]
    exact ⟨.inr rfl, .write _, Rewrites.storedUnder (e := e.withoutState) hs⟩

/-! ## One job -/

/-- What has become of the store when a claimed job has been dealt with and has had this result. -/
structure Processed (H : Handle) (id : JobId) (result : ProcessJobResult) (s s' : Store) :
    Prop where
  /-- it is missing exactly if it has no payload -/
  missing : result = .missing ↔ payloadOf H.keys.jobs s id = none
  /-- there is no payload of the job left -/
  gone : payloadOf H.keys.jobs s' id = none
  others : ∀ id', id' ≠ id → payloadOf H.keys.jobs s' id' = payloadOf H.keys.jobs s id'
  /-- the claim of the job is released, except if the job was missing -/
  claims : s'.list H.currentProcessingQueue = if result = .missing then
    s.list H.currentProcessingQueue else (s.list H.currentProcessingQueue).erase id
  /-- the entry of a job that failed is at the head of the dead list -/
  failed : result = .failed → ∃ entry, FailedEntry H.keys s id entry ∧
    s'.list H.keys.dead = bury (H.deadJobLimit.getD 0) entry (s.list H.keys.dead)
  kept : result ≠ .failed → s'.list H.keys.dead = s.list H.keys.dead
  untouched : ∀ k, k ≠ H.keys.jobs → k ≠ H.keys.dead → k ≠ H.currentProcessingQueue →
    s'.get k = s.get k

/-- What is stored stays stored under its id when payloads are only removed. -/
theorem StoredUnder.of_fewer (hs : StoredUnder K s)
    (h : ∀ id p, payloadOf K.jobs s' id = some p → payloadOf K.jobs s id = some p) :
    StoredUnder K s' := fun id p e hp he => hs id p e (h id p hp) he

/-- After a job has been dealt with, what is stored is stored under its id. -/
theorem Processed.storedUnder {result : ProcessJobResult} (h : Processed H id result s s')
    (hs : StoredUnder H.keys s) : StoredUnder H.keys s' := by
  refine hs.of_fewer fun id' p hp => ?_
  by_cases hid : id' = id
  · rw [hid, h.gone] at hp
    cases hp
  · rwa [h.others id' hid] at hp

/-- The handler has run and returned: the job is acknowledged, and has been dealt with. -/
theorem Processed.succeeded {p : String} (hp : payloadOf H.keys.jobs s id = some p)
    (hrw : Rewrites H.keys id s s') :
    Processed H id .success s (acknowledge H.keys.jobs H.currentProcessingQueue s' id) := by
  have hne := (current_ne H).1
  have hlists {k : Key} (hk : k ≠ H.keys.jobs) : s'.list k = s.list k :=
    Store.list_congr (hrw.untouched k hk)
  refine ⟨?_, ?_, fun id' hid => ?_, ?_, fun h => ?_, fun _ => ?_, fun k hj _ hproc => ?_⟩
  · rw [hp]
    exact iff_of_false (by decide) (Option.some_ne_none p)
  · rw [payloadOf, acknowledge, Store.hash_put_ne _ hne.symm, Store.hash_put_self, lookup_unset_self]
  · rw [payloadOf, acknowledge, Store.hash_put_ne _ hne.symm, Store.hash_put_self,
      lookup_unset_ne hid, ← payloadOf, hrw.others id' hid]
  · rw [if_neg (by decide), acknowledge, Store.list_put_self, hlists hne]
  · cases h
  · rw [acknowledge, Store.list_put_ne _ (current_ne H).2.1.symm,
      Store.list_put_ne _ StorageKeys.jobs_ne_dead.symm, hlists StorageKeys.jobs_ne_dead.symm]
  · rw [acknowledge, Store.get_put_ne _ hproc, Store.get_put_ne _ hj, hrw.untouched k hj]

/-- The handler has returned an error: the job is killed, and has been dealt with. -/
theorem Processed.killed {p error : String} {e e' : JobEnvelope}
    (hp : payloadOf H.keys.jobs s id = some p) (hdec : JobEnvelope.decode p = some e)
    (hid : e.id = id) (he' : e' = e ∨ e' = e.withoutState) (hrw : Rewrites H.keys id s s') :
    Processed H id .failed s (killed H (e'.withError error) s') := by
  have hne := (current_ne H).1
  have hdead := StorageKeys.jobs_ne_dead (K := H.keys)
  have hlists {k : Key} (hk : k ≠ H.keys.jobs) : s'.list k = s.list k :=
    Store.list_congr (hrw.untouched k hk)
  have hown : (e'.withError error).id = id := by
    rcases he' with rfl | rfl <;> exact hid
  refine ⟨?_, ?_, fun id' hother => ?_, ?_, fun _ => ⟨(e'.withError error).encode, ?_, ?_⟩,
    fun h => absurd rfl h, fun k hj hd hproc => ?_⟩
  · rw [hp]
    exact iff_of_false (by decide) (Option.some_ne_none p)
  · rw [payloadOf, Oxana.killed, Store.hash_put_ne _ hdead, Store.hash_put_ne _ hne.symm,
      Store.hash_put_self, hown, lookup_unset_self]
  · rw [payloadOf, Oxana.killed, Store.hash_put_ne _ hdead, Store.hash_put_ne _ hne.symm,
      Store.hash_put_self, hown, lookup_unset_ne hother, ← payloadOf, hrw.others id' hother]
  · rw [if_neg (by decide), Oxana.killed, Store.list_put_ne _ (current_ne H).2.1,
      Store.list_put_self, hown, hlists hne]
  · refine ⟨p, e, hp, hdec, error, ?_⟩
    rcases he' with rfl | rfl
    · exact .inl rfl
    · exact .inr rfl
  · rw [Oxana.killed, Store.list_put_self, hlists hdead.symm]
  · rw [Oxana.killed, Store.get_put_ne _ hd, Store.get_put_ne _ hproc, Store.get_put_ne _ hj,
      hrw.untouched k hj]

/-- What has become of the store when a drain has emptied a queue, given what became of each of its
jobs. -/
structure Drained (H : Handle) (queue : String) (outs : List (JobId × ProcessJobResult))
    (s s' : Store) : Prop where
  /-- The jobs are those of the queue, from its tail to its head. -/
  order : outs.map (·.1) = (s.list (H.keys.namespaceQueue queue)).reverse
  /-- The queue is empty. -/
  empty : s'.list (H.keys.namespaceQueue queue) = []
  /-- A job is missing exactly if it has no payload when its turn comes. -/
  missing : ∀ pre id result post, outs = pre ++ (id, result) :: post →
    (result = .missing ↔ payloadOf H.keys.jobs s id = none ∨ id ∈ pre.map (·.1))
  /-- No job of the queue has a payload any more, and all others have theirs. -/
  payloads : ∀ id, payloadOf H.keys.jobs s' id =
    if id ∈ outs.map (·.1) then none else payloadOf H.keys.jobs s id
  /-- The entries of those that failed have been put on the dead list, in their order. -/
  dead : ∃ entries, List.Forall₂ (FailedEntry H.keys s) (resulting .failed outs) entries ∧
    s'.list H.keys.dead = buryAll (H.deadJobLimit.getD 0) entries (s.list H.keys.dead)
  /-- Those that were missing are still claimed. -/
  claims : s'.list H.currentProcessingQueue =
    (resulting .missing outs).reverse ++ s.list H.currentProcessingQueue

section Cons

variable {outs : List (JobId × ProcessJobResult)} {result : ProcessJobResult} {rest : List JobId}
  {s₁ s₂ : Store}

/-- An empty queue is drained without doing anything. -/
theorem Drained.nil (h : s.list (H.keys.namespaceQueue queue) = []) : Drained H queue [] s s where
  order := by rw [h]; rfl
  empty := h
  missing pre id result post h := by
    have := congrArg List.length h
    simp at this
  payloads _ := (if_neg List.not_mem_nil).symm
  dead := ⟨[], .nil, rfl⟩
  claims := rfl

/-- The payload of a job is not touched before its turn, so that its entry on the dead list is that
of the payload it had. -/
theorem FailedEntry.of_eq {entry : String} (h : FailedEntry K s' id entry)
    (heq : payloadOf K.jobs s' id = payloadOf K.jobs s id) : FailedEntry K s id entry := by
  obtain ⟨p, e, hp, h⟩ := h
  exact ⟨p, e, heq ▸ hp, h⟩

/-- One job is dealt with, and then the others: together they make a drain of the queue. -/
theorem Drained.cons (hq : H.keys.Plain queue)
    (hready : s.list (H.keys.namespaceQueue queue) = rest ++ [id])
    (hclaim : s₁ = (s.put (H.keys.namespaceQueue queue) (.list rest)).put
      H.currentProcessingQueue (.list (id :: s.list H.currentProcessingQueue)))
    (hone : Processed H id result s₁ s₂) (hrest : Drained H queue outs s₂ s') :
    Drained H queue ((id, result) :: outs) s s' := by
  have hproc : H.keys.namespaceQueue queue ≠ H.currentProcessingQueue :=
    StorageKeys.queue_ne_processing hq H.processId
  obtain ⟨hqj, hqd, -⟩ := StorageKeys.queue_ne_fixed hq
  have hdead := StorageKeys.jobs_ne_dead (K := H.keys)
  obtain ⟨hpj, hpd, -⟩ := current_ne H
  -- the claim itself
  have hpay₁ (id' : JobId) : payloadOf H.keys.jobs s₁ id' = payloadOf H.keys.jobs s id' := by
    rw [hclaim, payloadOf, Store.hash_put_ne _ hpj.symm, Store.hash_put_ne _ hqj.symm, payloadOf]
  have hdead₁ : s₁.list H.keys.dead = s.list H.keys.dead := by
    rw [hclaim, Store.list_put_ne _ hpd.symm, Store.list_put_ne _ hqd.symm]
  have hclaims₁ : s₁.list H.currentProcessingQueue = id :: s.list H.currentProcessingQueue := by
    rw [hclaim, Store.list_put_self]
  have hready₂ : s₂.list (H.keys.namespaceQueue queue) = rest := by
    rw [Store.list_congr (hone.untouched _ hqj hqd hproc), hclaim, Store.list_put_ne _ hproc,
      Store.list_put_self]
  have hpay₂ (id' : JobId) : payloadOf H.keys.jobs s₂ id' =
      if id' = id then none else payloadOf H.keys.jobs s id' := by
    split
    · next heq => rw [heq, hone.gone]
    · next hne => rw [hone.others id' hne, hpay₁]
  refine ⟨?_, hrest.empty, ?_, fun id' => ?_, ?_, ?_⟩
  · rw [List.map_cons, hrest.order, hready₂, hready, List.reverse_append, List.reverse_singleton,
      List.singleton_append]
  · intro pre id' result' post heq
    cases pre with
    | nil =>
      obtain ⟨hfirst, -⟩ := List.cons.inj heq
      obtain ⟨rfl, rfl⟩ := Prod.mk.inj hfirst
      simp only [List.map_nil, List.not_mem_nil, or_false]
      rw [hone.missing, hpay₁]
    | cons out pre =>
      obtain ⟨rfl, hpost⟩ := List.cons.inj heq
      rw [hrest.missing pre id' result' post hpost, hpay₂, List.map_cons, List.mem_cons]
      split
      · next heq => simp [heq]
      · next hne => simp [hne]
  · rw [hrest.payloads, hpay₂, List.map_cons]
    by_cases heq : id' = id
    · simp [heq]
    · simp only [if_neg heq, List.mem_cons, or_iff_right heq]
  · obtain ⟨entries, hentries, hlist⟩ := hrest.dead
    -- those that come later had their payloads from the beginning
    have hlater : List.Forall₂ (FailedEntry H.keys s) (resulting .failed outs) entries := by
      refine hentries.imp fun id' entry h => h.of_eq ?_
      obtain ⟨p, -, hp, -⟩ := h
      rw [hpay₂] at hp ⊢
      split at hp
      · cases hp
      · next hne => rw [if_neg hne]
    by_cases hfailed : result = .failed
    · obtain ⟨entry, hentry, hbury⟩ := hone.failed hfailed
      refine ⟨entry :: entries, ?_, ?_⟩
      · rw [resulting, List.filter_cons_of_pos (by simpa using hfailed)]
        exact .cons (hentry.of_eq (hpay₁ id)) hlater
      · rw [hlist, hbury, hdead₁]
        rfl
    · refine ⟨entries, ?_, ?_⟩
      · rw [resulting, List.filter_cons_of_neg (by simpa using hfailed)]
        exact hlater
      · rw [hlist, hone.kept hfailed, hdead₁]
  · rw [hrest.claims, hone.claims, hclaims₁]
    by_cases hmissing : result = .missing
    · rw [if_pos hmissing, resulting, resulting, List.filter_cons_of_pos (by simpa using hmissing)]
      simp
    · rw [if_neg hmissing, List.erase_cons_head, resulting, resulting,
        List.filter_cons_of_neg (by simpa using hmissing)]

end Cons

/-- The keys a drain writes, except for its record. -/
def Handle.drainKeys (H : Handle) (queue : String) : List Key :=
  [H.keys.jobs, H.keys.dead, H.currentProcessingQueue, H.keys.namespaceQueue queue]

/-- A drain does not depend on keys it does not write: in a store that agrees on its keys it does
the same. -/
theorem Drained.congr {outs : List (JobId × ProcessJobResult)} {t t' : Store}
    (h : Drained H queue outs s s') (hs : ∀ k ∈ H.drainKeys queue, s.get k = t.get k)
    (hs' : ∀ k ∈ H.drainKeys queue, s'.get k = t'.get k) : Drained H queue outs t t' := by
  have hj : H.keys.jobs ∈ H.drainKeys queue := by simp [Handle.drainKeys]
  have hd : H.keys.dead ∈ H.drainKeys queue := by simp [Handle.drainKeys]
  have hp : H.currentProcessingQueue ∈ H.drainKeys queue := by simp [Handle.drainKeys]
  have hr : H.keys.namespaceQueue queue ∈ H.drainKeys queue := by simp [Handle.drainKeys]
  have hpay (id : JobId) : payloadOf H.keys.jobs s id = payloadOf H.keys.jobs t id := by
    rw [payloadOf, Store.hash_congr (hs _ hj), payloadOf]
  have hpay' (id : JobId) : payloadOf H.keys.jobs s' id = payloadOf H.keys.jobs t' id := by
    rw [payloadOf, Store.hash_congr (hs' _ hj), payloadOf]
  refine ⟨?_, ?_, fun pre id result post heq => ?_, fun id => ?_, ?_, ?_⟩
  · rw [h.order, Store.list_congr (hs _ hr)]
  · rw [← Store.list_congr (hs' _ hr), h.empty]
  · rw [h.missing pre id result post heq, hpay]
  · rw [← hpay', ← hpay, h.payloads]
  · obtain ⟨entries, hentries, hlist⟩ := h.dead
    refine ⟨entries, hentries.imp fun id entry he => he.of_eq (hpay id), ?_⟩
    rw [← Store.list_congr (hs' _ hd), ← Store.list_congr (hs _ hd), hlist]
  · rw [← Store.list_congr (hs' _ hp), ← Store.list_congr (hs _ hp), h.claims]

section System

variable {U : Set JobId}

/-- In the system every payload is stored under the id of its job. -/
theorem PlacementInv.storedUnder {w : World Ledger} (hinv : PlacementInv K U w) :
    StoredUnder K w.store := by
  intro id p e hp he
  obtain ⟨e', he', hid, -⟩ := (hinv.jobs id).good p hp
  obtain rfl := Option.some.inj (he.symm.trans he')
  exact hid

/-- In the system an id is at most once on a ready list, and if it is, it has a payload. -/
theorem PlacementInv.ready {w : World Ledger} (hinv : PlacementInv K U w) (hq : K.Plain queue) :
    (w.store.list (K.namespaceQueue queue)).Nodup ∧
      ∀ id ∈ w.store.list (K.namespaceQueue queue), payloadOf K.jobs w.store id ≠ none := by
  have hocc (id : JobId) :
      occ K w.store id (.ready queue) = (w.store.list (K.namespaceQueue queue)).count id := by
    rw [occ_of_proper (l := .ready queue) hq]
    exact occursAt_list (hinv.typed.places (.ready queue) hq)
  refine ⟨List.nodup_iff_count_le_one.mpr fun id => ?_, fun id hid => ?_⟩
  · have hone := (hinv.jobs id).once {.ready queue}
    rw [Finset.sum_singleton] at hone
    exact (hocc id).symm.le.trans hone
  · refine (hinv.jobs id).stored fun h0 => ?_
    have hzero : occ K w.store id (.ready queue) = 0 := congrFun h0 (.ready queue)
    rw [hocc, List.count_eq_zero] at hzero
    exact hzero hid

end System

end Oxana
