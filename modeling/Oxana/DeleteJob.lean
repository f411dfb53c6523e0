import Oxana.Deletion
import Oxana.ExactlyOnce

/-!
# Deleting a job while it is enqueued and promoted

`delete_job` reads the payload to learn the queue of the job, and takes the job
out of the ready list of that queue in one transaction with everything else. If
the job is moved to another queue in between, it stays on the list there, with
nothing stored for it (`deletion_incomplete`). `deleteJob_complete_iff` says
that this is all that can go wrong.
-/

namespace Oxana

open Redis Script Interleave Call

variable {γ : Type} {K : StorageKeys} {H : Handle} {s s' : Store} {id : JobId}

/-! ## What waits is stored, on the list of its queue -/

/-- What is known of a job: it waits on the list of the queue that it names, if it is stored, and
nowhere if it is not. -/
structure Queued (K : StorageKeys) (v : JobView) : Prop where
  /-- what is stored is an envelope, as envelopes are written -/
  good : ∀ p, v.payload = some p → ∃ e, JobEnvelope.decode p = some e ∧ K.Plain e.queue ∧
    rawQueue p = some e.queue
  /-- what is not stored does not wait -/
  stored : v.payload = none → ∀ l : Loc, l.Waiting → v.places l = 0
  /-- what is ready is on the list of the queue that its payload names -/
  ready : ∀ p e q, v.payload = some p → JobEnvelope.decode p = some e → q ≠ e.queue →
    v.places (.ready q) = 0

/-- Every stored payload is an envelope on a plain queue, every job waits only where its payload
says, and the keys have their types. -/
structure AllQueued (K : StorageKeys) (s : Store) : Prop where
  /-- the keys have their types -/
  typed : StoreTyped K s
  /-- the jobs -/
  jobs : ∀ id, Queued K (jobView K s id)

/-- Where this is known of all jobs, every payload can be read. -/
theorem AllQueued.valid (h : AllQueued K s) : Valid K s := by
  intro id p hp
  obtain ⟨e, hdec, -⟩ := (h.jobs id).good p hp
  rw [hdec]
  rfl

/-- If only one job is changed, and this is known of it afterwards, it is known of all jobs. -/
theorem AllQueued.change (h : AllQueued K s) {f : JobView → JobView} (hch : Changes K s id f s')
    (hid : Queued K (f (jobView K s id))) : AllQueued K s' := by
  refine ⟨hch.typed, fun id' => ?_⟩
  rw [hch.view]
  split
  · next heq =>
    rw [heq]
    exact hid
  · exact h.jobs id'

/-- It is known of all jobs of the empty store, which has none. -/
theorem allQueued_empty : AllQueued K Store.empty := by
  refine ⟨storeTyped_empty, fun id => ⟨fun p hp => ?_, fun _ l _ => occ_empty id l, ?_⟩⟩
  · cases hp
  · intro p e q hp
    cases hp

/-! ## Enqueueing and promotion keep this -/

section Keep

variable {e : JobEnvelope}

/-- Storing a job and placing it keeps this, if the job is on no ready list before. -/
theorem AllQueued.enqueued (h : AllQueued K s) (hs' : StoreTyped K s')
    (hframe : ∀ id, id ≠ e.id → jobView K s' id = jobView K s id)
    (hready : ∀ q, q ≠ e.queue → (jobView K s' e.id).places (.ready q) = 0)
    (hq : K.Plain e.queue) (destination : JobDestination) :
    AllQueued K (place K destination e (record K e s')) := by
  have h₁ := Changes.setField e.id hs' e.encode
  obtain ⟨f, h₂, hf⟩ := Changes.placed_frame (s := record K e s') h₁.typed hq destination
  have hch := h₁.trans h₂
  refine ⟨hch.typed, fun id => ?_⟩
  by_cases hid : id = e.id
  · subst hid
    obtain ⟨hpay, hplaces⟩ := hf ((jobView K s' e.id).store e.encode)
    rw [hch.eq]
    refine ⟨fun p hp => ?_, fun hp => ?_, fun p e' q hp hdec hne => ?_⟩
    · obtain rfl := Option.some.inj (hpay.symm.trans hp)
      exact ⟨e.normalize, decode_encode e, hq, rawQueue_encode e⟩
    · cases hpay.symm.trans hp
    · obtain rfl := Option.some.inj (hpay.symm.trans hp)
      obtain rfl := Option.some.inj ((decode_encode e).symm.trans hdec)
      rw [hplaces]
      · exact hready q hne
      · cases destination with
        | queue => exact fun heq => hne (Loc.ready.inj heq)
        | schedule => exact Loc.noConfusion
  · rw [hch.ne hid, hframe id hid]
    exact h.jobs id

/-- Processing one envelope of a request keeps this. -/
theorem enqueueSpec_queued (h : AllQueued K s) (hu : e.jobMeta.unique = true)
    (hq : K.Plain e.queue) (destination : JobDestination) :
    AllQueued K (enqueueSpec K destination s e) := by
  rcases hp : payloadOf K.jobs s e.id with _ | p
  · have hdis : (if e.replaces then displace K e s else s) = s := by
      have hnone : storedQueue K s e.id = none := by
        rw [storedQueue, hp]
        rfl
      split
      · rw [displace, hnone]
      · rfl
    have hskip : ¬ (e.skips && (none : Option String).isSome) = true := by simp
    rw [enqueueSpec, hp, if_neg hskip, hdis]
    refine h.enqueued h.typed (fun _ _ => rfl) (fun q _ => ?_) hq destination
    exact (h.jobs e.id).stored hp _ fun _ => Loc.noConfusion
  · simp only [enqueueSpec]
    split
    · exact h
    · next hskip =>
      have hrep : e.replaces = true := by
        simp only [JobEnvelope.skips] at hskip
        simp only [JobEnvelope.replaces]
        simpa [hu, hp] using hskip
      obtain ⟨e₀, hdec, hq₀, -⟩ := (h.jobs e.id).good p hp
      have hstored : storedQueue K s e.id = some e₀.queue := by
        rw [storedQueue, hp]
        simp [hdec]
      have hch := Changes.displaced h.typed hq hq₀ hstored
      rw [if_pos hrep]
      refine h.enqueued hch.typed (fun id hid => hch.ne hid) (fun q hne => ?_) hq destination
      rw [hch.eq]
      by_cases hold : q = e₀.queue
      · simp [JobView.exit, Function.update_apply, hold]
      · have hnot := (h.jobs e.id).ready p e₀ q hp hdec hold
        simp [JobView.exit, Function.update_apply, hnot]

/-- The script of a promotion keeps this: the job goes to the ready list of the queue that its
payload names. -/
theorem promoteScheduled_queued (h : AllQueued K s) {l : Loc} (hl : l.Delayed)
    {found : Option (String × JobEnvelope)} (hfound : Decoded found) (id : JobId) (score : Int) :
    AllQueued K (promoteScheduled K.jobs (l.key K)
      (K.namespaceQueue ((found.map (·.2.queue)).getD "")) id ((found.map (·.1)).getD "") score
      s).2 := by
  rcases promoteScheduled_cases (s := s) K.jobs (l.key K)
    (K.namespaceQueue ((found.map (·.2.queue)).getD "")) id
    ((found.map (·.1)).getD "") score with ⟨_, hx⟩ | hx | ⟨-, -, -, hscore, heq, hmove⟩
  · rw [hx]
    exact h
  · rw [hx]
    exact h
  · have hocc : (jobView K s id).places l ≠ 0 := h.typed.waits hl hscore
    rcases hpay : payloadOf K.jobs s id with _ | p
    · exact absurd ((h.jobs id).stored hpay l hl.ne_processing) hocc
    · obtain ⟨e, hdec, hq, hraw⟩ := (h.jobs id).good p hpay
      rw [hpay] at heq
      -- the payload is the one the snapshot was taken of
      have hqueue : (found.map (·.2.queue)).getD "" = e.queue := queue_of_snapshot hfound hdec heq
      rw [hqueue] at hmove ⊢
      rcases hmove with ⟨hnone, -⟩ | ⟨-, -, -, hx⟩
      · rw [hpay] at hnone
        cases hnone
      · rw [hx]
        have hch := Changes.promoted id h.typed hq hl
        refine h.change hch ⟨(h.jobs id).good, fun hnone => ?_, fun p' e' q hp' hdec' hq' => ?_⟩
        · cases hpay.symm.trans hnone
        · have hready := (h.jobs id).ready p' e' q hp' hdec' hq'
          obtain rfl := Option.some.inj (hpay.symm.trans hp')
          obtain rfl := Option.some.inj (hdec.symm.trans hdec')
          simp [JobView.exit, JobView.join, hq', (hl.ne_ready q).symm, hready]

/-- Producers of unique jobs and promotions keep this. -/
theorem allQueued_kept : OffersKeep K (AllQueued K) where
  valid _ h := h.valid
  enqueue _ _ destination h hu hq := enqueueSpec_queued h hu hq destination
  promote _ _ _ id score h hl hfound := promoteScheduled_queued h hl hfound id score

end Keep

/-! ## The transaction -/

/-- All commands of the transaction are executed, one after the other. -/
theorem deletion_snd (queueKeys : List Key) : (H.deletion id queueKeys s).2 =
    queueKeys.foldl (fun s k => (lremAll k id s).2) (H.deletion id [] s).2 := by
  rw [Handle.deletion, transaction_snd, List.foldl_append, List.foldl_map, ← transaction_snd]
  rfl

/-- The transaction changes one job, which leaves the schedule, the retry set and the ready lists it
is called with, and loses its payload and its claim. -/
theorem Changes.deletedFrom (id : JobId) (hs : StoreTyped H.keys s) (qs : List String)
    (hqs : ∀ q ∈ qs, H.keys.Plain q) :
    ∃ f, Changes H.keys s id f (H.deletion id (qs.map H.keys.namespaceQueue) s).2 ∧
      ∀ v, (f v).payload = none ∧ (f v).places .schedule = 0 ∧ (f v).places .retry = 0 ∧
        ∀ q, (f v).places (.ready q) = if q ∈ qs then 0 else v.places (.ready q) := by
  induction qs using List.reverseRecOn with
  | nil =>
    refine ⟨_, Changes.deleted id hs, fun v => ⟨rfl, ?_, ?_, fun q => ?_⟩⟩
    · simp [JobView.exit]
    · simp [JobView.exit]
    · simp [JobView.exit, JobView.forget]
  | append_singleton qs q ih =>
    obtain ⟨f, hch, hf⟩ := ih fun q' hq' => hqs q' (List.mem_append_left _ hq')
    have hq := hqs q (List.mem_append_right _ (List.mem_singleton_self _))
    have hlast := Changes.lremAll id (l := .ready q) hch.typed hq rfl
    have hsnd : (H.deletion id ((qs ++ [q]).map H.keys.namespaceQueue) s).2 =
        (Redis.lremAll ((Loc.ready q).key H.keys) id
          (H.deletion id (qs.map H.keys.namespaceQueue) s).2).2 := by
      rw [deletion_snd, List.map_append, List.foldl_append, ← deletion_snd]
      rfl
    rw [hsnd]
    refine ⟨_, hch.trans hlast, fun v => ?_⟩
    obtain ⟨hpay, hsched, hretry, hready⟩ := hf v
    refine ⟨hpay, ?_, ?_, fun q' => ?_⟩
    · simp [JobView.exit, hsched]
    · simp [JobView.exit, hretry]
    · by_cases hq' : q' = q
      · simp [JobView.exit, hq']
      · simp [JobView.exit, hq', hready]

/-! ## The steps -/

section Steps

variable {tr : List (Prog.Event Request (World γ))}

/-- The queue that is stored for a job, whether its name is plain or not. -/
def rawQueueOf (K : StorageKeys) (s : Store) (id : JobId) : Option String :=
  (payloadOf K.jobs s id).bind rawQueue

/-- A deletion reads the payload first. If that names its queue, or there is
none, the transaction follows, for the ready list of this queue. -/
theorem deleteJob_trace_named {x : Prog Request (World γ) Choice (Except OxanaError Unit)}
    (h : Prog.Trace (deleteJob H id : Call γ Unit) tr x) :
    tr = [] ∨ ∃ w tr', tr = ⟨.hget, w, w⟩ :: tr' ∧
      ((∀ p, payloadOf H.keys.jobs w.store id = some p → (rawQueue p).isSome) →
        tr' = [] ∨ ∃ w', tr' = [⟨.transaction id, w', w'.after (H.deletion id
          ((rawQueueOf H.keys w.store id).toList.map H.keys.namespaceQueue))⟩]) := by
  rcases trace_connection h with rfl | h
  · exact .inl rfl
  rcases trace_bind h with ⟨p, hp⟩ | ⟨raw, tr₁, tr₂, rfl, h₁, h₂⟩
  · rcases trace_send hp with rfl | ⟨w, rfl⟩
    · exact .inl rfl
    · rw [World.after_read (hget_snd ..)]
      exact .inr ⟨w, [], rfl, fun _ => .inl rfl⟩
  obtain ⟨w, rfl, hraw⟩ := Returns.send_inv h₁
  rw [World.after_read (hget_snd ..)]
  refine .inr ⟨w, tr₂, rfl, fun hnamed => ?_⟩
  have hpay := payloadOf_of_hget hraw
  have hkeys : (queueKeysOf H.keys raw : Call γ _) =
      pure ((rawQueueOf H.keys w.store id).toList.map H.keys.namespaceQueue) := by
    rw [rawQueueOf, hpay]
    rcases raw with _ | p
    · rfl
    · obtain ⟨q, hq⟩ := Option.isSome_iff_exists.mp (hnamed p hpay)
      simp only [queueKeysOf, hq, Option.bind_some, Option.toList_some, List.map_cons, List.map_nil]
  rw [hkeys] at h₂
  rcases trace_bind h₂ with ⟨p, hp⟩ | ⟨queueKeys, tr₃, tr₄, rfl, h₃, h₄⟩
  · cases hp
    exact .inl rfl
  · obtain ⟨rfl, rfl⟩ := Returns.pure_inv h₃
    rcases trace_send h₄ with rfl | ⟨w', rfl⟩
    · exact .inl rfl
    · exact .inr ⟨w', rfl⟩

end Steps

/-! ## Completeness -/

/-- The deletion has done what it should: nothing of the job is left but claims of it, and no other
job is touched. -/
structure Deleted (K : StorageKeys) (id : JobId) (s s' : Store) : Prop where
  /-- nothing is stored for it -/
  payload : payloadOf K.jobs s' id = none
  /-- it is on no ready list -/
  ready : ∀ q, occ K s' id (.ready q) = 0
  /-- it is in neither sorted set -/
  delayed : occ K s' id .schedule = 0 ∧ occ K s' id .retry = 0
  /-- other jobs stay as they are -/
  others : ∀ id', id' ≠ id → jobView K s' id' = jobView K s id'

/-- The transaction is complete exactly if it goes for the ready lists that the job is on. -/
theorem deletion_complete_iff (hs : StoreTyped H.keys s) (qs : List String)
    (hqs : ∀ q ∈ qs, H.keys.Plain q) :
    Deleted H.keys id s (H.deletion id (qs.map H.keys.namespaceQueue) s).2 ↔
      ∀ q, occ H.keys s id (.ready q) ≠ 0 → q ∈ qs := by
  obtain ⟨f, hch, hf⟩ := Changes.deletedFrom id hs qs hqs
  obtain ⟨hpay, hsched, hretry, hready⟩ := hf (jobView H.keys s id)
  have hplaces : occ H.keys (H.deletion id (qs.map H.keys.namespaceQueue) s).2 id =
      (f (jobView H.keys s id)).places := congrArg JobView.places hch.eq
  constructor
  · intro hdel q hq
    by_contra hnot
    have hzero := hdel.ready q
    rw [hplaces, hready, if_neg hnot] at hzero
    exact hq hzero
  · intro hall
    refine ⟨(congrArg JobView.payload hch.eq).trans hpay, fun q => ?_, ?_, fun id' hid => hch.ne hid⟩
    · rw [hplaces, hready]
      split
      · rfl
      · next hnot => exact not_not.mp fun hocc => hnot (hall q hocc)
    · rw [hplaces]
      exact ⟨hsched, hretry⟩

/-- **A deletion is complete**, amid enqueues of unique jobs and promotions, if
and only if the payload it has read names the queue whose ready list the job is
on when the transaction is executed, or the job is on no ready list then. -/
theorem deleteJob_complete_iff {w : World Unit} {c : Pool Unit Request (World Unit) Choice}
    {x : Prog Request (World Unit) Choice (Except OxanaError Unit)}
    {tr : List (Prog.Event Request (World Unit))} (hw : AllQueued H.keys w.store)
    (h : Amid (Offers H.keys) TimePasses (deleteJob H id) (.idle w) tr x c)
    (e : Prog.Event Request (World Unit)) (he : e ∈ tr) (hl : e.label = .transaction id) :
    Deleted H.keys id e.pre.store e.post.store ↔
      ∀ e₀ ∈ tr, e₀.label = .hget → ∀ q, occ H.keys e.pre.store id (.ready q) ≠ 0 →
        rawQueueOf H.keys e₀.pre.store id = some q := by
  -- the invariant holds whenever the call takes a step
  have hnext : ∀ {p : Prog Request (World Unit) Choice (Except OxanaError Unit)}
      {c₁ : Pool Unit Request (World Unit) Choice} {e' : Prog.Event Request (World Unit)}
      {tr' : List (Prog.Event Request (World Unit))},
      Amid (Offers H.keys) TimePasses p c₁ (e' :: tr') x c → AllQueued H.keys c₁.world.store →
        c₁.All (fun _ w => AllQueued H.keys w.store) (fun _ _ w' => AllQueued H.keys w'.store) →
          AllQueued H.keys e'.pre.store ∧ ∃ p₁ c₂, c₂.world = e'.post ∧
            c₂.All (fun _ w => AllQueued H.keys w.store)
              (fun _ _ w' => AllQueued H.keys w'.store) ∧
            Amid (Offers H.keys) TimePasses p₁ c₂ tr' x c := by
    intro p c₁ e' tr' hrun hworld hall
    refine Amid.next (I := fun w => AllQueued H.keys w.store) (fun _ _ hI => hI)
      (fun _ _ _ _ hG => hG) (fun w o p w' hI hstart => ?_) ?_ hrun hworld hall
    · obtain ⟨rfl, hp⟩ := allQueued_kept.offers hstart
      exact ⟨hI, hp⟩
    · rintro c w' hI ⟨t⟩
      exact hI
  rcases deleteJob_trace_named h.trace with rfl | ⟨w₀, tr', rfl, hrest⟩
  · exact absurd he List.not_mem_nil
  obtain ⟨hread, p₁, c₁, hc₁, hall₁, h₁⟩ := hnext h hw (Pool.all_idle _ _ _)
  have hnamed : ∀ p, payloadOf H.keys.jobs w₀.store id = some p → (rawQueue p).isSome := by
    intro p hp
    obtain ⟨e', -, -, hraw⟩ := (hread.jobs id).good p hp
    rw [hraw]
    rfl
  rcases hrest hnamed with rfl | ⟨w', rfl⟩
  · rw [List.mem_singleton.mp he] at hl
    cases hl
  rcases List.mem_cons.mp he with rfl | he
  · cases hl
  obtain rfl := List.mem_singleton.mp he
  obtain ⟨hpre, -⟩ := hnext h₁ (hc₁ ▸ hread) hall₁
  have hplain : ∀ q ∈ (rawQueueOf H.keys w₀.store id).toList, H.keys.Plain q := by
    intro q hq
    obtain ⟨p, hp, hraw⟩ := Option.bind_eq_some_iff.mp (Option.mem_toList.mp hq)
    obtain ⟨e', -, hplain, hraw'⟩ := (hread.jobs id).good p hp
    obtain rfl := Option.some.inj (hraw.symm.trans hraw')
    exact hplain
  refine (deletion_complete_iff hpre.typed _ hplain).trans ⟨fun hall e₀ he₀ hget q hq => ?_,
    fun hall q hq => ?_⟩
  · rcases List.mem_cons.mp he₀ with rfl | he₀
    · exact Option.mem_toList.mp (hall q hq)
    · rw [List.mem_singleton.mp he₀] at hget
      cases hget
  · exact Option.mem_toList.mpr (hall _ (List.mem_cons_self ..) rfl q hq)

/-! ## A job that is enqueued while it is deleted -/

/-- The handle of the client that deletes `b`. -/
def deleting : Handle := ⟨.new "", "p", none⟩

/-- The deletion of `b` reads the payload and has nothing but its transaction left to do. -/
theorem deleting_reads {w : World Unit} (payload : Option String) (queueKeys : List Key)
    (h : hget (StorageKeys.new "").jobs "b" w.store = (.ok payload, w.store))
    (hkeys : (queueKeysOf (.new "") payload : Call Unit _) = pure queueKeys) :
    Prog.Trace (deleteJob deleting "b") [⟨.hget, w, w⟩]
      (send (.transaction "b") (deleting.deletion "b" queueKeys) : Call Unit Unit) := by
  have hget : Call.Returns (send .hget (hget (StorageKeys.new "").jobs "b"))
      [⟨.hget, w, w⟩] payload := by
    have hsend := Call.Returns.send (l := .hget) w (congrArg Prod.fst h)
    rwa [World.after_read (hget_snd ..)] at hsend
  have hpure : Call.Returns (queueKeysOf deleting.keys payload : Call Unit _) [] queueKeys := by
    rw [show queueKeysOf deleting.keys payload = _ from hkeys]
    exact .pure queueKeys
  exact show Prog.Trace _ ([] ++ ([_] ++ ([] ++ []))) _ from Prog.Trace.bind Call.Returns.connection
    (Prog.Trace.bind hget (Prog.Trace.bind hpure (.refl _)))

/-- Wherever the message has come to, this is known of all jobs. -/
theorem welcomed_queued : AllQueued (.new "") welcomed.store := by
  obtain ⟨c, hc, hw⟩ := welcomed_reachable
  rw [← hw]
  exact allQueued_kept.reachable hc allQueued_empty

/-- The only ready list that the job can be on is that of `mail`, the queue its payload names. -/
theorem welcomed_ready (q : String) (h : occ (.new "") welcomed.store "b" (.ready q) ≠ 0) :
    q = "mail" := by
  by_contra hne
  have hpay : (jobView (.new "") welcomed.store "b").payload = some (welcome "b").encode := rfl
  exact h ((welcomed_queued.jobs "b").ready _ _ q hpay (decode_encode _) hne)

/-- The transaction deletes the job if nobody interferes: `mail` is the queue it has read, and on
its list it finds the job. -/
theorem welcomed_deleted : Deleted (.new "") "b" welcomed.store
    (welcomed.after (deleting.deletion "b" [(StorageKeys.new "").namespaceQueue "mail"])).store := by
  have hkeys : (queueKeysOf (.new "") (some (welcome "b").encode) : Call Unit _) =
      pure [(StorageKeys.new "").namespaceQueue "mail"] := by
    rw [queueKeysOf, rawQueue_encode]
    rfl
  have hreads := deleting_reads (w := welcomed) _ _ rfl hkeys
  have hdeletes : Call.Returns (send (.transaction "b")
      (deleting.deletion "b" [(StorageKeys.new "").namespaceQueue "mail"]) : Call Unit Unit)
      [⟨.transaction "b", welcomed, welcomed.after _⟩] () := .send welcomed rfl
  have hrun : Amid (Offers (.new "")) TimePasses (deleteJob deleting "b") (.idle welcomed)
      ([⟨.hget, welcomed, welcomed⟩] ++ ([⟨.transaction "b", welcomed, _⟩] ++ [])) _ _ :=
    Amid.steps hreads ⟨rfl, rfl⟩ (Amid.steps hdeletes ⟨rfl, rfl⟩ (.refl _ _))
  refine (deleteJob_complete_iff (H := deleting) welcomed_queued hrun ⟨.transaction "b", welcomed, _⟩
    (List.mem_cons_of_mem _ (List.mem_singleton_self _)) rfl).mpr fun e₀ he₀ hget q hq => ?_
  rcases List.mem_cons.mp he₀ with rfl | he₀
  · obtain rfl := welcomed_ready q hq
    have hpay : payloadOf (StorageKeys.new "").jobs welcomed.store "b" =
        some (welcome "b").encode := rfl
    rw [rawQueueOf, show payloadOf deleting.keys.jobs _ "b" = _ from hpay, Option.bind_some,
      rawQueue_encode]
    rfl
  · rw [List.mem_singleton.mp he₀] at hget
    cases hget

/-- A producer enqueues the job after the read: its id stays on the ready list
while its payload is deleted. -/
theorem deletion_incomplete : ∃ tr x c, ∃ e ∈ tr,
    Amid (Offers (.new "")) TimePasses (deleteJob deleting "b") (.idle bare) tr x c ∧
      AllQueued (.new "") bare.store ∧ e.label = .transaction "b" ∧
      payloadOf (StorageKeys.new "").jobs e.post.store "b" = none ∧
      occ (.new "") e.post.store "b" (.ready "mail") = 1 ∧
      ¬ Deleted (.new "") "b" e.pre.store e.post.store := by
  have hlaunch : Offers (.new "") bare () (Call.client (enqueue (.new "") (welcome "b"))) bare :=
    .enqueue rfl (by decide)
  have hclient : Prog.Trace (Call.client (enqueue (.new "") (welcome "b")))
      [⟨.hexists, bare, bare⟩, ⟨.enqueue ["b"], bare, welcomed⟩] (.ret ()) :=
    Prog.Trace.bind (welcome_enqueued rfl rfl) (.refl _)
  have hreads := deleting_reads (w := bare) none [] rfl rfl
  have hdeletes : Call.Returns (send (.transaction "b") (deleting.deletion "b" []) : Call Unit Unit)
      [⟨.transaction "b", welcomed, welcomed.after _⟩] () := .send welcomed rfl
  have hocc : occ (.new "") (welcomed.after (deleting.deletion "b" [])).store "b"
      (.ready "mail") = 1 := by
    decide +kernel
  refine ⟨_, _, _, ⟨.transaction "b", welcomed, _⟩, List.mem_append_right _ (List.mem_singleton_self _),
    Amid.steps hreads ⟨rfl, rfl⟩ (.others (.launch (i := 0) rfl hlaunch)
      (Amid.others_steps (Pool.steps_of_trace (i := 0) (o := ()) rfl hclient ⟨rfl, rfl, rfl⟩)
        (Amid.steps hdeletes ⟨rfl, rfl⟩ (.refl _ _)))), allQueued_empty, rfl, rfl, hocc,
    fun hdel => ?_⟩
  have hready := hdel.ready "mail"
  rw [hocc] at hready
  cases hready

end Oxana
