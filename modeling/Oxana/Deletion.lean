import Oxana.Executor
import Oxana.ProducerSteps
import Oxana.Interleave.Amid

/-!
# Claims without a payload

A claim whose payload is missing is dropped by deleting its job
(`loadPendingJob`). The read that misses the payload and the deletion are
separate requests, and the deletion goes by the id: it drops whatever is stored
for the id by then. So it releases nothing but the claim **exactly if** nobody
has enqueued the id in between (`loadPendingJob_releases_iff`).
-/

namespace Oxana

open Redis Interleave Call

variable {γ : Type} {K : StorageKeys} {H : Handle} {s : Store} {id : JobId}

/-! ## Jobs that wane -/

/-- Nothing of the job comes back: a payload that is gone stays so, and the job is at no place more
often than before. -/
def JobView.Wanes (v v' : JobView) : Prop :=
  (v.payload = none → v'.payload = none) ∧ ∀ l : Loc, v'.places l ≤ v.places l

namespace JobView

theorem Wanes.refl (v : JobView) : v.Wanes v := ⟨fun h => h, fun _ => le_refl _⟩

/-- What is no more than something that is no more than a view is no more than the view. -/
theorem Wanes.trans {v v' v'' : JobView} (h : v.Wanes v') (h' : v'.Wanes v'') : v.Wanes v'' :=
  ⟨fun hv => h'.1 (h.1 hv), fun l => (h'.2 l).trans (h.2 l)⟩

theorem wanes_forget (v : JobView) : v.Wanes v.forget := ⟨fun _ => rfl, fun _ => le_refl _⟩

theorem wanes_leave (v : JobView) (l : Loc) : v.Wanes (v.leave l) := by
  refine ⟨fun h => h, fun l' => ?_⟩
  by_cases hl : l' = l
  · subst hl
    simp [leave]
  · simp [leave, hl]

theorem wanes_exit (v : JobView) (l : Loc) : v.Wanes (v.exit l) := by
  refine ⟨fun h => h, fun l' => ?_⟩
  by_cases hl : l' = l
  · subst hl
    simp [exit]
  · simp [exit, hl]

end JobView

/-- A change of one job that takes something away leaves no more than there was of any job. -/
theorem Changes.wanes {s' : Store} {f : JobView → JobView} (h : Changes K s id f s')
    (hf : ∀ v, JobView.Wanes v (f v)) (id' : JobId) :
    (jobView K s id').Wanes (jobView K s' id') := by
  rw [h.view]
  split
  · exact hf _
  · exact .refl _

/-! ## The transaction -/

/-- The transaction of `delete_job`: the job is taken from all lists and sets, and its payload is
dropped. -/
def Handle.deletion (H : Handle) (id : JobId) (queueKeys : List Key) : Script Unit :=
  transaction ([hdel H.keys.jobs [id], zrem H.keys.schedule id, zrem H.keys.retry id,
    lremAll H.currentProcessingQueue id] ++ queueKeys.map fun k => lremAll k id)

/-- All commands of a transaction are executed, one after the other. -/
theorem transaction_snd (xs : List (Script Unit)) (s : Store) :
    (transaction xs s).2 = xs.foldl (fun s x => (x s).2) s := by
  induction xs generalizing s with
  | nil => rfl
  | cons x xs ih =>
    rw [List.foldl_cons, ← ih, transaction]
    rcases x s with ⟨_ | _, s'⟩
    · rfl
    · rfl

namespace Changes

variable (id)

/-- Dropping a payload changes one job, which is not stored any more. -/
theorem hdel (hs : StoreTyped K s) : Changes K s id JobView.forget (hdel K.jobs [id] s).2 := by
  rw [hdel_ok hs.jobs]
  exact unsetField id hs

/-- A job whose score is removed leaves the set. -/
theorem zrem {l : Loc} (hs : StoreTyped K s) (hl : l.Proper K) (hk : l.kind = .zset) :
    Changes K s id (·.exit l) (zrem (l.key K) id s).2 := by
  rw [zrem_ok (hk ▸ hs.places l hl)]
  exact unsetScore id hs hl hk

/-- A job that is removed from a list, as often as it is there, leaves it. -/
theorem lremAll {l : Loc} (hs : StoreTyped K s) (hl : l.Proper K) (hk : l.kind = .list) :
    Changes K s id (·.exit l) (lremAll (l.key K) id s).2 := by
  rw [lremAll_ok (hk ▸ hs.places l hl)]
  exact filter id hs hl hk

/-- The part of the transaction that concerns no ready list changes one job: it loses its payload
and its claim and leaves the schedule and the retry set. -/
theorem deleted (hs : StoreTyped H.keys s) :
    Changes H.keys s id
      (fun v => ((v.forget.exit .schedule).exit .retry).exit (.processing H.processId))
      (H.deletion id [] s).2 := by
  have h₁ := hdel id hs
  have h₂ := zrem id (l := .schedule) h₁.typed trivial rfl
  have h₃ := zrem id (l := .retry) h₂.typed trivial rfl
  have h₄ := lremAll id (l := .processing H.processId) h₃.typed trivial rfl
  rw [Handle.deletion, transaction_snd]
  exact ((h₁.trans h₂).trans h₃).trans h₄

end Changes

/-- Removing items from a key does nothing, or the key holds a list and this is what is left of it.
-/
theorem lremAll_cases (k : Key) (x : String) (s : Store) :
    (lremAll k x s).2 = s ∨
      s.kind k = some .list ∧
        (lremAll k x s).2 = s.put k (.list ((s.list k).filter (· ≠ x))) := by
  by_cases hk : s.Fits k .list
  · rw [lremAll_ok hk]
    rcases hk with hk | hk
    · left
      have habsent : s.get k = none := by simpa [Store.kind] using hk
      have hlist : s.list k = [] := by
        simp only [Store.list]
        rw [habsent]
      refine Store.ext fun k' => ?_
      rw [hlist]
      by_cases hk' : k' = k
      · subst hk'
        rw [Store.get_put_self, habsent]
        rfl
      · rw [Store.get_put_ne _ hk']
    · exact .inr ⟨hk, rfl⟩
  · left
    rw [lremAll, onKind, if_neg hk]

/-- Removing items from a key, whatever it is, keeps the types of all keys. -/
theorem lremAll_typed (k : Key) (x : String) (hs : StoreTyped K s) :
    StoreTyped K (lremAll k x s).2 := by
  rcases lremAll_cases k x s with h | ⟨hk, h⟩
  · rwa [h]
  · have hfits : ∀ {k' : Key} {kd : Kind}, s.Fits k' kd →
        (s.put k (.list ((s.list k).filter (· ≠ x)))).Fits k' kd := by
      intro k' kd hk'
      refine hk'.put _ fun heq => ?_
      subst heq
      rcases hk' with hnone | hsome
      · rw [hnone] at hk
        cases hk
      · exact Option.some.inj (hk.symm.trans hsome)
    rw [h]
    exact ⟨hfits hs.jobs, hfits hs.dead, fun l hl => hfits (hs.places l hl)⟩

/-- Removing items from a key, whatever it is, leaves all payloads as they are. -/
theorem payloadOf_lremAll (k : Key) (x : String) (hs : StoreTyped K s) (id : JobId) :
    payloadOf K.jobs (lremAll k x s).2 id = payloadOf K.jobs s id := by
  rcases lremAll_cases k x s with h | ⟨hk, h⟩
  · rw [h]
  · have hne : K.jobs ≠ k := by
      rintro rfl
      rcases hs.jobs with hnone | hsome
      · rw [hnone] at hk
        cases hk
      · rw [hsome] at hk
        cases hk
    rw [h, payloadOf, Store.hash_put_ne _ hne, payloadOf]

/-- Removing items from a key, whatever it is, places no job anywhere. -/
theorem occ_lremAll_le (k : Key) (x : String) (id : JobId) (l : Loc) :
    occ K (lremAll k x s).2 id l ≤ occ K s id l := by
  rcases lremAll_cases k x s with h | ⟨hk, h⟩
  · rw [h]
  · rw [h]
    by_cases hl : l.Proper K ∧ l.key K = k
    · obtain ⟨hl, rfl⟩ := hl
      rw [occ_put_self hl, occ_list hl (.inr hk)]
      exact List.Sublist.count_le id List.filter_sublist
    · rw [occ_put_of_ne]
      exact fun hl' hk' => hl ⟨hl', hk'⟩

/-- Removing items from a key, whatever it is, leaves no more than there was of any job. -/
theorem lremAll_wanes (k : Key) (x : String) (hs : StoreTyped K s) (id : JobId) :
    (jobView K s id).Wanes (jobView K (lremAll k x s).2 id) :=
  ⟨fun hp => (payloadOf_lremAll k x hs id).trans hp, fun l => occ_lremAll_le k x id l⟩

/-- Removing the items of one job from a key leaves the other jobs where they are. -/
theorem jobView_lremAll {x : String} {id : JobId} (k : Key) (hid : id ≠ x) (hs : StoreTyped K s) :
    jobView K (lremAll k x s).2 id = jobView K s id := by
  have hocc : occ K (lremAll k x s).2 id = occ K s id := by
    rcases lremAll_cases k x s with h | ⟨hk, h⟩
    · rw [h]
    · funext l
      rw [h]
      by_cases hl : l.Proper K ∧ l.key K = k
      · obtain ⟨hl, rfl⟩ := hl
        rw [occ_put_self hl, occ_list hl (.inr hk)]
        exact List.count_filter (decide_eq_true hid)
      · rw [occ_put_of_ne]
        exact fun hl' hk' => hl ⟨hl', hk'⟩
  exact congrArg₂ JobView.mk (payloadOf_lremAll k x hs id) hocc

/-- What the whole transaction does to the job, and that it does nothing to others. -/
structure Deletes (H : Handle) (id : JobId) (s s' : Store) : Prop where
  /-- the keys have their types -/
  typed : StoreTyped H.keys s'
  /-- nothing is stored for the job -/
  payload : payloadOf H.keys.jobs s' id = none
  /-- it is not in the sorted sets -/
  delayed : occ H.keys s' id .schedule = 0 ∧ occ H.keys s' id .retry = 0
  /-- nothing is gained anywhere -/
  wanes : ∀ id', (jobView H.keys s id').Wanes (jobView H.keys s' id')
  /-- nothing happens to other jobs -/
  others : ∀ id', id' ≠ id → jobView H.keys s' id' = jobView H.keys s id'

/-- The transaction deletes the job, whatever ready lists it is called with. -/
theorem deletion_deletes (id : JobId) (hs : StoreTyped H.keys s) (queueKeys : List Key) :
    Deletes H id s (H.deletion id queueKeys s).2 := by
  have hfold : (H.deletion id queueKeys s).2 =
      queueKeys.foldl (fun s k => (lremAll k id s).2) (H.deletion id [] s).2 := by
    rw [Handle.deletion, transaction_snd, List.foldl_append, List.foldl_map, ← transaction_snd]
    rfl
  have hch := Changes.deleted id hs
  have hbase : Deletes H id s (H.deletion id [] s).2 := by
    refine ⟨hch.typed, congrArg JobView.payload hch.eq, ?_, hch.wanes fun v => ?_,
      fun id' hid => hch.ne hid⟩
    · have hocc : occ H.keys (H.deletion id [] s).2 id = _ := congrArg JobView.places hch.eq
      rw [hocc]
      simp [JobView.exit]
    · exact ((v.wanes_forget.trans (JobView.wanes_exit _ _)).trans (JobView.wanes_exit _ _)).trans
        (JobView.wanes_exit _ _)
  rw [hfold]
  generalize (H.deletion id [] s).2 = s₁ at hbase
  clear hch hfold
  induction queueKeys generalizing s₁ with
  | nil => exact hbase
  | cons k ks ih =>
    have hwanes := lremAll_wanes k id hbase.typed
    refine ih _ ⟨lremAll_typed k id hbase.typed, (hwanes id).1 hbase.payload, ?_,
      fun id' => (hbase.wanes id').trans (hwanes id'),
      fun id' hid => (jobView_lremAll k hid hbase.typed).trans (hbase.others id' hid)⟩
    exact ⟨Nat.le_zero.mp (hbase.delayed.1 ▸ (hwanes id).2 .schedule),
      Nat.le_zero.mp (hbase.delayed.2 ▸ (hwanes id).2 .retry)⟩

/-- A job is looked for on the queue that its envelope names. -/
theorem rawQueue_encode (e : JobEnvelope) : rawQueue e.encode = some e.queue := by
  rw [rawQueue, JobEnvelope.encode, String.toList_ofList, Json.parse_render]
  simp [JobEnvelope.toJson, canon, canonMembers, upsert, List.lookup_cons]

/-! ## The steps of a deletion -/

section Steps

variable {tr : List (Prog.Event Request (World γ))}

/-- A step of the deletion before its transaction, which reads what it needs and changes nothing. -/
def Reading (l : Request) (w w' : World γ) : Prop := (∀ id, l ≠ .transaction id) ∧ w' = w

/-- The deletion is the last step, and it goes for ready lists only if a payload
has been found. -/
def DeletesLast (H : Handle) (id : JobId) (tr : List (Prog.Event Request (World γ))) : Prop :=
  (∀ e ∈ tr, Reading e.label e.pre e.post) ∨
    ∃ reads w queueKeys, tr = reads ++ [⟨.transaction id, w, w.after (H.deletion id queueKeys)⟩] ∧
      (∀ e ∈ reads, Reading e.label e.pre e.post) ∧
      (queueKeys ≠ [] → ∃ e ∈ reads, payloadOf H.keys.jobs e.pre.store id ≠ none)

/-- Reads in front of a deletion do not matter. -/
theorem DeletesLast.append {reads : List (Prog.Event Request (World γ))}
    (hreads : ∀ e ∈ reads, Reading e.label e.pre e.post) (h : DeletesLast H id tr) :
    DeletesLast H id (reads ++ tr) := by
  rcases h with h | ⟨reads', w, queueKeys, rfl, hreads', hkeys⟩
  · refine .inl fun e he => ?_
    rcases List.mem_append.mp he with he | he
    · exact hreads e he
    · exact h e he
  · refine .inr ⟨reads ++ reads', w, queueKeys, (List.append_assoc ..).symm, fun e he => ?_,
      fun hne => ?_⟩
    · rcases List.mem_append.mp he with he | he
      · exact hreads e he
      · exact hreads' e he
    · obtain ⟨e, he, hp⟩ := hkeys hne
      exact ⟨e, List.mem_append_right _ he, hp⟩

theorem reading_hget (w : World γ) (_ : True) : Reading .hget w w :=
  ⟨fun _ => Request.noConfusion, rfl⟩

theorem reading_scan (w : World γ) (_ : True) : Reading .scan w w :=
  ⟨fun _ => Request.noConfusion, rfl⟩

theorem payloadOf_of_hget {jobs : Key} {raw : Option String} (h : (hget jobs id s).1 = .ok raw) :
    payloadOf jobs s id = raw := by
  simp only [hget, onKind] at h
  split at h
  · exact Except.ok.inj h
  · cases h

/-- The steps of a deletion are reads, and then its transaction, if the deletion gets that far. -/
theorem deleteJob_trace {q : Prog Request (World γ) Choice (Except OxanaError Unit)}
    (h : Prog.Trace (deleteJob H id : Call γ Unit) tr q) : DeletesLast H id tr := by
  have hnil : DeletesLast H id ([] : List (Prog.Event Request (World γ))) :=
    .inl fun _ he => absurd he List.not_mem_nil
  rcases trace_connection h with rfl | h
  · exact hnil
  have hget_reads : Call.Always (fun _ _ => True) Reading (fun _ => True)
      (send .hget (hget H.keys.jobs id) : Call γ _) :=
    .read (fun s => hget_snd ..) reading_hget fun _ _ _ _ => trivial
  rcases trace_bind h with ⟨p, hp⟩ | ⟨raw, tr₁, tr₂, rfl, h₁, h₂⟩
  · exact .inl (hget_reads.trace hp fun _ _ => trivial).1
  obtain ⟨w, rfl, hraw⟩ := Returns.send_inv h₁
  have hstep : ∀ e ∈ [(⟨.hget, w, w.after (hget H.keys.jobs id)⟩ :
      Prog.Event Request (World γ))], Reading e.label e.pre e.post :=
    (hget_reads.trace h₁ fun _ _ => trivial).1
  have hkeys : Call.Always (fun _ _ => True) Reading (fun keys => raw = none → keys = [])
      (queueKeysOf H.keys raw : Call γ _) := queueKeysOf_always reading_scan raw
  rcases trace_bind h₂ with ⟨p, hp⟩ | ⟨queueKeys, tr₃, tr₄, rfl, h₃, h₄⟩
  · exact .append hstep (.inl (hkeys.trace hp fun _ _ => trivial).1)
  obtain ⟨hscan, hnone⟩ := hkeys.trace h₃ fun _ _ => trivial
  rcases trace_send h₄ with rfl | ⟨w', rfl⟩
  · exact .append hstep (.append hscan hnil)
  · refine .inr ⟨⟨.hget, w, _⟩ :: tr₃, w', queueKeys, rfl, fun e he => ?_, fun hne => ?_⟩
    · rcases List.mem_cons.mp he with rfl | he
      · exact hstep _ (List.mem_singleton_self _)
      · exact hscan e he
    · refine ⟨_, List.mem_cons_self .., fun hp => hne (hnone queueKeys rfl ?_)⟩
      rw [← payloadOf_of_hget hraw]
      exact hp

/-- The steps of loading a job are reads, and then the transaction of a deletion, if there was no
payload. -/
theorem loadPendingJob_trace
    {q : Prog Request (World γ) Choice (Except OxanaError (Option JobEnvelope))}
    (h : Prog.Trace (loadPendingJob H id : Call γ _) tr q) : DeletesLast H id tr := by
  have hfind : Call.Always (fun _ _ => True) Reading (fun _ => True)
      (getClaimedJob H id : Call γ _) := getClaimedJob_always reading_hget id
  rcases trace_bind h with ⟨p, hp⟩ | ⟨found, tr₁, tr₂, rfl, h₁, h₂⟩
  · exact .inl (hfind.trace hp fun _ _ => trivial).1
  refine .append (hfind.trace h₁ fun _ _ => trivial).1 ?_
  rcases found with _ | e
  · rcases trace_bind h₂ with ⟨p, hp⟩ | ⟨_, tr₃, tr₄, rfl, h₃, h₄⟩
    · exact deleteJob_trace hp
    · cases h₄
      rw [List.append_nil]
      exact deleteJob_trace h₃
  · cases h₂
    exact .inl fun _ he => absurd he List.not_mem_nil

end Steps

/-! ## Amid producers -/

/-- A place where jobs wait to be claimed or promoted: any place but the processing lists. -/
def Loc.Waiting (l : Loc) : Prop := ∀ p, l ≠ .processing p

/-- A store in which whatever waits is stored, and whatever is stored is the envelope of its job;
jobs without a payload may still be claimed. -/
structure Accounted (K : StorageKeys) (s : Store) : Prop where
  /-- the keys have their types -/
  typed : StoreTyped K s
  /-- what is stored are envelopes -/
  good : ∀ id p, payloadOf K.jobs s id = some p → GoodPayload K id p
  /-- what is not stored does not wait -/
  waiting : ∀ id, payloadOf K.jobs s id = none → ∀ l : Loc, l.Waiting → occ K s id l = 0

/-- Where all jobs are accounted for, every payload can be read. -/
theorem Accounted.valid (h : Accounted K s) : Valid K s := by
  intro id p hp
  obtain ⟨e, hdec, -⟩ := h.good id p hp
  rw [hdec]
  rfl

/-- Processing an envelope does nothing, or it stores and places this job. -/
theorem enqueueSpec_changes {e : JobEnvelope} (hs : StoreTyped K s)
    (hgood : ∀ p, payloadOf K.jobs s e.id = some p → ∃ e₀, JobEnvelope.decode p = some e₀ ∧
      K.Plain e₀.queue) (hq : K.Plain e.queue) (destination : JobDestination) :
    enqueueSpec K destination s e = s ∨
      ∃ f, Changes K s e.id f (enqueueSpec K destination s e) ∧
        payloadOf K.jobs (enqueueSpec K destination s e) e.id = some e.encode := by
  simp only [enqueueSpec]
  split
  · exact .inl rfl
  · have hroom : ∃ g, Changes K s e.id g (if e.replaces then displace K e s else s) := by
      split
      · rcases hp : payloadOf K.jobs s e.id with _ | p
        · refine ⟨fun v => v, ?_⟩
          rw [displace, storedQueue, hp]
          exact .refl hs
        · obtain ⟨e₀, hdec, hq₀⟩ := hgood p hp
          refine ⟨_, Changes.displaced hs hq hq₀ ?_⟩
          rw [storedQueue, hp]
          simp [hdec]
      · exact ⟨_, .refl hs⟩
    obtain ⟨g, hg⟩ := hroom
    generalize (if e.replaces then displace K e s else s) = s₀ at hg
    have h₁ := Changes.setField e.id hg.typed e.encode
    obtain ⟨f, h₂, -⟩ := Changes.placed (s := record K e s₀) h₁.typed hq destination
    refine .inr ⟨_, (hg.trans h₁).trans h₂, ?_⟩
    rw [payloadOf_placed hq, if_pos rfl]

/-- Processing an envelope leaves all jobs accounted for, and none is forgotten. -/
theorem enqueueSpec_accounted {e : JobEnvelope} (h : Accounted K s) (hq : K.Plain e.queue)
    (destination : JobDestination) :
    Accounted K (enqueueSpec K destination s e) ∧ ∀ id, payloadOf K.jobs s id ≠ none →
      payloadOf K.jobs (enqueueSpec K destination s e) id ≠ none := by
  have hgood : ∀ p, payloadOf K.jobs s e.id = some p → ∃ e₀, JobEnvelope.decode p = some e₀ ∧
      K.Plain e₀.queue := by
    intro p hp
    obtain ⟨e₀, hdec, -, hq₀⟩ := h.good e.id p hp
    exact ⟨e₀, hdec, hq₀⟩
  rcases enqueueSpec_changes h.typed hgood hq destination with hsame | ⟨f, hch, hself⟩
  · rw [hsame]
    exact ⟨h, fun _ hid => hid⟩
  · have hpay : ∀ {id}, id ≠ e.id →
        payloadOf K.jobs (enqueueSpec K destination s e) id = payloadOf K.jobs s id :=
      fun hid => congrArg JobView.payload (hch.ne hid)
    refine ⟨⟨hch.typed, fun id p hp => ?_, fun id hp l hl => ?_⟩, fun id hp => ?_⟩
    · by_cases hid : id = e.id
      · subst hid
        obtain rfl := Option.some.inj (hself.symm.trans hp)
        exact goodPayload_of_plain hq
      · exact h.good id p ((hpay hid).symm.trans hp)
    · by_cases hid : id = e.id
      · subst hid
        rw [hself] at hp
        cases hp
      · have hocc : occ K (enqueueSpec K destination s e) id = occ K s id :=
          congrArg JobView.places (hch.ne hid)
        rw [hocc]
        exact h.waiting id ((hpay hid).symm.trans hp) l hl
    · by_cases hid : id = e.id
      · subst hid
        rw [hself]
        exact Option.some_ne_none _
      · rwa [hpay hid]

/-- The steps of producers leave all jobs accounted for. -/
theorem EnqueueStep.accounted {l : Request} {w w' : World γ} (h : EnqueueStep K l w w')
    (hw : Accounted K w.store) : Accounted K w'.store :=
  h.keeps (fun destination _ _ _ hq hs => (enqueueSpec_accounted hs hq destination).1) hw

/-- A job once stored stays so, whatever producers do. -/
theorem EnqueueStep.stored {l : Request} {w w' : World γ} (h : EnqueueStep K l w w')
    (hw : Accounted K w.store ∧ payloadOf K.jobs w.store id ≠ none) :
    Accounted K w'.store ∧ payloadOf K.jobs w'.store id ≠ none := by
  refine h.keeps (I := fun s => Accounted K s ∧ payloadOf K.jobs s id ≠ none)
    (fun destination s e _ hq hs => ?_) hw
  obtain ⟨h₁, h₂⟩ := enqueueSpec_accounted hs.1 hq destination
  exact ⟨h₁, h₂ id hs.2⟩

/-- The only change between the two stores is that the caller's claims of the job are released. -/
structure ReleasesOnly (H : Handle) (id : JobId) (s s' : Store) : Prop where
  /-- the claim is released -/
  claim : occ H.keys s' id (.processing H.processId) = 0
  /-- what is stored stays -/
  payload : payloadOf H.keys.jobs s' id = payloadOf H.keys.jobs s id
  /-- where the job is otherwise, it stays -/
  places : ∀ l, l ≠ .processing H.processId → occ H.keys s' id l = occ H.keys s id l
  /-- other jobs are not touched -/
  others : ∀ id', id' ≠ id → jobView H.keys s' id' = jobView H.keys s id'

/-- The deletion of a job of which nothing is left releases its claim and does nothing else. -/
theorem deletion_releasesOnly (hs : Accounted H.keys s) (hnone : payloadOf H.keys.jobs s id = none) :
    ReleasesOnly H id s (H.deletion id [] s).2 := by
  have hch := Changes.deleted id hs.typed
  have hview := hch.eq
  have hplaces : occ H.keys (H.deletion id [] s).2 id = _ := congrArg JobView.places hview
  have hsched : occ H.keys s id .schedule = 0 := hs.waiting id hnone _ fun _ => Loc.noConfusion
  have hretry : occ H.keys s id .retry = 0 := hs.waiting id hnone _ fun _ => Loc.noConfusion
  refine ⟨?_, ?_, fun l hl => ?_, fun id' hid => hch.ne hid⟩
  · rw [hplaces]
    simp [JobView.exit]
  · rw [hnone]
    exact congrArg JobView.payload hview
  · rw [hplaces]
    simp only [JobView.exit, JobView.forget, Function.update_apply, if_neg hl]
    split_ifs with h₁ h₂
    · rw [h₁, hretry]
    · rw [h₂, hsched]
    · rfl

/-- **Dropping a claim**: amid producers of unique jobs, the deletion releases
nothing but the claim if and only if nothing is stored for the job when it is
executed. -/
theorem loadPendingJob_releases_iff {w : World Unit} {c : Pool Unit Request (World Unit) Choice}
    {p : Prog Request (World Unit) Choice (Except OxanaError (Option JobEnvelope))}
    {tr : List (Prog.Event Request (World Unit))} (hw : Accounted H.keys w.store)
    (h : Amid (Enqueues H.keys) TimePasses (loadPendingJob H id) (.idle w) tr p c)
    (e : Prog.Event Request (World Unit)) (he : e ∈ tr) (hl : e.label = .transaction id) :
    ReleasesOnly H id e.pre.store e.post.store ↔
      payloadOf H.keys.jobs e.pre.store id = none := by
  rcases loadPendingJob_trace h.trace with hreads | ⟨reads, w', queueKeys, rfl, hreads, hkeys⟩
  · exact absurd hl ((hreads e he).1 id)
  obtain rfl : e = ⟨.transaction id, w', w'.after (H.deletion id queueKeys)⟩ := by
    rcases List.mem_append.mp he with he | he
    · exact absurd hl ((hreads e he).1 id)
    · exact List.mem_singleton.mp he
  have hall := Pool.all_idle (ο := Unit) (ι := Choice) (fun _ w => Valid H.keys w.store)
    (EnqueueStep (γ := Unit) H.keys) w
  have hstay : ∀ e ∈ reads, e.post = e.pre := fun e he => (hreads e he).2
  have hacc : Accounted H.keys w'.store :=
    (producers_later (I := Accounted H.keys) (fun _ h => h.valid)
      (fun _ _ _ hI hstep => hstep.accounted hI) h hw hall hstay).1
  constructor
  · intro hrel
    rw [← hrel.payload]
    exact (deletion_deletes _ hacc.typed queueKeys).payload
  · intro hnone
    have hnil : queueKeys = [] := by
      by_contra hne
      -- a payload that a read has found would still be there
      obtain ⟨e₀, he₀, hp₀⟩ := hkeys hne
      obtain ⟨tr₁, tr₂, rfl⟩ := List.append_of_mem he₀
      rw [List.append_assoc, List.cons_append] at h
      obtain ⟨hacc₀, p₁, c₁, hc₁, hall₁, h₁⟩ := producers_later (I := Accounted H.keys)
        (fun _ h => h.valid) (fun _ _ _ hI hstep => hstep.accounted hI) h hw hall
        fun e he => hstay e (List.mem_append_left _ he)
      have hw₁ : Accounted H.keys c₁.world.store ∧
          payloadOf H.keys.jobs c₁.world.store id ≠ none := by
        rw [hc₁, hstay e₀ he₀]
        exact ⟨hacc₀, hp₀⟩
      have hstored := producers_later
        (I := fun s => Accounted H.keys s ∧ payloadOf H.keys.jobs s id ≠ none)
        (fun _ h => h.1.valid) (fun _ _ _ hI hstep => hstep.stored hI) h₁ hw₁ hall₁
        fun e he => hstay e (List.mem_append_right _ (List.mem_cons_of_mem _ he))
      exact hstored.1.2 hnone
    subst hnil
    exact deletion_releasesOnly hacc hnone

/-! ## A job enqueued anew -/

/-- Process `p` has claimed `b`, of which nothing is stored. -/
def dropped : World Unit :=
  ⟨Store.empty.put ((StorageKeys.new "").processingQueue "p") (.list ["b"]), 10, ()⟩

/-- The handle of process `p`. -/
def dropping : Handle := ⟨.new "", "p", none⟩

/-- In the world with the claim of a job that is not stored all jobs are accounted for. -/
theorem dropped_accounted : Accounted (.new "") dropped.store := by
  have hpay : ∀ id, payloadOf (StorageKeys.new "").jobs dropped.store id = none := fun _ => rfl
  refine ⟨storeTyped_empty.put_place (l := .processing "p") trivial rfl, fun id p hp => ?_,
    fun id _ l hl => ?_⟩
  · rw [hpay] at hp
    cases hp
  · have hne : l.Proper (.new "") → l.key (.new "") ≠ (StorageKeys.new "").processingQueue "p" :=
      fun hp hk => hl "p" (Loc.key_injective hp trivial
        (show l.key (.new "") = (Loc.processing "p").key (.new "") from hk))
    exact (occ_put_of_ne hne _).trans (occ_empty id l)

/-- The two reads with which the call begins find no payload: one of the worker, one of the
deletion. -/
def droppedReads : List (Prog.Event Request (World Unit)) :=
  [⟨.hget, dropped, dropped⟩, ⟨.hget, dropped, dropped⟩]

/-- What the call still has to do once its reads have found nothing: delete the job without looking
at any ready list. -/
def dropLater : Call Unit (Option JobEnvelope) := do
  send (.transaction "b") (dropping.deletion "b" [])
  pure none

/-- The reads of the call find no payload, and the transaction is left to do. -/
theorem dropped_reads : Prog.Trace (loadPendingJob dropping "b") droppedReads dropLater := by
  have hget : Call.Returns (send .hget (hget dropping.keys.jobs "b"))
      [⟨.hget, dropped, dropped⟩] none := Call.Returns.send dropped rfl
  have hsnap : Call.Returns (transitionSnapshot dropping.keys "b") [⟨.hget, dropped, dropped⟩] none :=
    hget.bind (.pure _)
  have hfind : Call.Returns (getClaimedJob dropping "b") [⟨.hget, dropped, dropped⟩] none :=
    .ask { rounds := 0 } (Call.Returns.connection.bind (hsnap.bind (.pure _)))
  have hdelete : Prog.Trace (deleteJob dropping "b") [⟨.hget, dropped, dropped⟩]
      (send (.transaction "b") (dropping.deletion "b" []) : Call Unit Unit) :=
    show Prog.Trace _ ([] ++ [_]) _ from
      Prog.Trace.bind Call.Returns.connection (Prog.Trace.bind hget (.refl _))
  exact Prog.Trace.bind hfind (hdelete.bind_left _)

/-- The transaction is executed, and the call returns nothing. -/
theorem dropped_deletes {w : World Unit} (h : (dropping.deletion "b" [] w.store).1 = .ok ()) :
    Call.Returns dropLater [⟨.transaction "b", w, w.after (dropping.deletion "b" [])⟩] none :=
  (Call.Returns.send w h).bind (.pure none)

/-- A run in which nobody interferes: the call reads, and executes its transaction. -/
theorem dropped_alone : Amid (Enqueues (.new "")) TimePasses (loadPendingJob dropping "b")
    (.idle dropped)
    (droppedReads ++ [⟨.transaction "b", dropped, dropped.after (dropping.deletion "b" [])⟩])
    (.ret (.ok none)) (.idle (dropped.after (dropping.deletion "b" []))) := by
  refine Amid.steps dropped_reads ⟨rfl, rfl, rfl⟩ ?_
  rw [← List.append_nil [_]]
  exact Amid.steps (dropped_deletes rfl) ⟨rfl, rfl⟩ (.refl _ _)

/-- A claimed job has no payload, and nobody interferes while it is loaded: the transaction releases
the claim and does nothing else. -/
theorem dropped_released : ∃ tr p c, ∃ e ∈ tr,
    Amid (Enqueues (.new "")) TimePasses (loadPendingJob dropping "b") (.idle dropped) tr p c ∧
      e.label = .transaction "b" ∧ payloadOf dropping.keys.jobs e.pre.store "b" = none ∧
      ReleasesOnly dropping "b" e.pre.store e.post.store :=
  ⟨_, _, _, _, List.mem_append_right _ (List.mem_singleton_self _), dropped_alone, rfl, rfl,
    (loadPendingJob_releases_iff dropped_accounted dropped_alone _
      (List.mem_append_right _ (List.mem_singleton_self _)) rfl).mpr rfl⟩

/-- The world once a producer has enqueued `b` anew. -/
def refilled : World Unit := dropped.after (enqueueCall (.new "") .queue [] [welcome "b"])

/-- The new job is lost: its payload is dropped by the deletion that was meant
for the old one. -/
theorem loadPendingJob_drops_enqueued : ∃ tr p c, ∃ e ∈ tr,
    Amid (Enqueues (.new "")) TimePasses (loadPendingJob dropping "b") (.idle dropped) tr p c ∧
      e.label = .transaction "b" ∧
      payloadOf dropping.keys.jobs e.pre.store "b" = some (welcome "b").encode ∧
      payloadOf dropping.keys.jobs e.post.store "b" = none ∧
      ¬ ReleasesOnly dropping "b" e.pre.store e.post.store := by
  have hpre : payloadOf dropping.keys.jobs refilled.store "b" = some (welcome "b").encode := rfl
  have hpost : payloadOf dropping.keys.jobs
      (refilled.after (dropping.deletion "b" [])).store "b" = none := rfl
  have hend : ∀ threads, Amid (Enqueues (.new "")) TimePasses dropLater ⟨refilled, threads⟩
      [⟨.transaction "b", refilled, refilled.after (dropping.deletion "b" [])⟩] (.ret (.ok none))
      ⟨refilled.after (dropping.deletion "b" []), threads⟩ := by
    intro threads
    rw [← List.append_nil [_]]
    exact Amid.steps (dropped_deletes rfl) ⟨rfl, rfl⟩ (.refl _ _)
  have hlaunch : Enqueues (.new "") dropped ()
      (Call.client (enqueue (.new "") (welcome "b"))) dropped := .enqueue rfl (by decide)
  have hclient : Prog.Trace (Call.client (enqueue (.new "") (welcome "b")))
      [⟨.hexists, dropped, dropped⟩, ⟨.enqueue ["b"], dropped, refilled⟩] (.ret ()) :=
    Prog.Trace.bind (welcome_enqueued rfl rfl) (.refl _)
  refine ⟨_, _, _, _, List.mem_append_right _ (List.mem_singleton_self _),
    Amid.steps dropped_reads ⟨rfl, rfl, rfl⟩ (.others (.launch (i := 0) rfl hlaunch)
      (Amid.others_steps (Pool.steps_of_trace (i := 0) (o := ()) rfl hclient
        ⟨rfl, rfl, rfl⟩) (hend _))), rfl, hpre, hpost, fun hrel => ?_⟩
  have := hrel.payload
  rw [hpre, hpost] at this
  cases this

end Oxana
