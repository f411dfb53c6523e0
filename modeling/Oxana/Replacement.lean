import Oxana.DeletedJobs
import Oxana.WorkerCustody

/-!
# Replacing a job somebody works on

A replacement shares its id and its payload with an attempt that is under way.
Up to the moment at which the replacement commits, the attempt and the producer
do not get in each other's way: the attempt owns its claim, the producer only
reads, and the commit takes the job away from wherever it waits. From then on
the attempt's own writes about the job are what the replacement is exposed to:
as long as there is none, whatever the worker does to other jobs of its batch,
the replacement stays stored, and waits at one place (`replacement_kept`).
-/

namespace Oxana

open Redis Script Interleave Call

variable {γ : Type} {K : StorageKeys} {U : Set JobId} {e : JobEnvelope} {s : Store}
  {destination : JobDestination}

/-- The replacement is stored, and waits where it belongs. -/
structure Replaced (K : StorageKeys) (destination : JobDestination) (e : JobEnvelope) (s : Store) :
    Prop where
  /-- the keys have their types -/
  typed : StoreTyped K s
  /-- what is stored are envelopes -/
  valid : Valid K s
  /-- the replacement is stored byte for byte -/
  payload : payloadOf K.jobs s e.id = some e.encode
  /-- the replacement waits once at its place, and nowhere else -/
  waiting : ∀ l : Loc, l.Waiting → occ K s e.id l = if l = e.loc destination then 1 else 0

/-- What holds of a job to be replaced: what is stored for it is its envelope, and if nothing is, it
waits nowhere. -/
structure Replaceable (K : StorageKeys) (id : JobId) (s : Store) : Prop where
  /-- the keys have their types -/
  typed : StoreTyped K s
  /-- what is stored are envelopes -/
  valid : Valid K s
  /-- that of the job names it -/
  good : ∀ p, payloadOf K.jobs s id = some p → GoodPayload K id p
  /-- without a payload it does not wait -/
  waiting : payloadOf K.jobs s id = none → ∀ l : Loc, l.Waiting → occ K s id l = 0

/-- Where a commit looks for the job it replaces. -/
def Displaceable (K : StorageKeys) (e : JobEnvelope) (s : Store) : Prop :=
  ∀ l : Loc, l.Waiting → occ K s e.id l ≠ 0 →
    l = .schedule ∨ l = .retry ∨ l = .ready e.queue ∨
      ∃ q, storedQueue K s e.id = some q ∧ l = .ready q

/-- Making room leaves the job waiting nowhere, so that it can be placed anew. -/
theorem displace_waiting (hs : Replaceable K e.id s) (hq : K.Plain e.queue) (hdis : Displaceable K e s) :
    ∃ g, Changes K s e.id g (displace K e s) ∧
      ∀ l : Loc, l.Waiting → (g (jobView K s e.id)).places l = 0 := by
  rcases hp : payloadOf K.jobs s e.id with _ | p
  · refine ⟨fun v => v, ?_, hs.waiting hp⟩
    rw [displace, storedQueue, hp]
    exact .refl hs.typed
  · obtain ⟨e₀, hdec, -, hq₀⟩ := hs.good p hp
    have hstored : storedQueue K s e.id = some e₀.queue := by
      rw [storedQueue, hp]
      simp [hdec]
    refine ⟨_, Changes.displaced hs.typed hq hq₀ hstored, fun l hl => ?_⟩
    by_contra hne
    simp only [JobView.exit, Function.update_apply] at hne
    split_ifs at hne with h₁ h₂ h₃ h₄
    all_goals try exact hne rfl
    rcases hdis l hl hne with hd | hd | hd | ⟨q, hq', hd⟩
    · exact h₄ hd
    · exact h₃ hd
    · exact h₁ hd
    · rw [hstored] at hq'
      exact h₂ (Option.some.inj hq' ▸ hd)

/-- **The commit**: the replacement is stored in place of the older payload, and waits at one place.
-/
theorem enqueueSpec_replaced (hs : Replaceable K e.id s) (hq : K.Plain e.queue)
    (hrep : e.replaces = true) (hdis : Displaceable K e s) (destination : JobDestination) :
    Replaced K destination e (enqueueSpec K destination s e) := by
  have hskip : ¬ (e.skips && (payloadOf K.jobs s e.id).isSome) = true := by
    simp only [JobEnvelope.replaces] at hrep
    simp only [JobEnvelope.skips]
    intro h
    simp_all
  have hspec : enqueueSpec K destination s e =
      place K destination e (record K e (displace K e s)) := by
    rw [enqueueSpec, if_neg hskip, if_pos hrep]
  have hgood : ∀ p, payloadOf K.jobs s e.id = some p → ∃ e₀, JobEnvelope.decode p = some e₀ ∧
      K.Plain e₀.queue := by
    intro p hp
    obtain ⟨e₀, hdec, -, hq₀⟩ := hs.good p hp
    exact ⟨e₀, hdec, hq₀⟩
  have hpayload : payloadOf K.jobs (enqueueSpec K destination s e) e.id = some e.encode := by
    rw [hspec, payloadOf_placed hq, if_pos rfl]
  obtain ⟨htyped, hother⟩ : StoreTyped K (enqueueSpec K destination s e) ∧ ∀ id, id ≠ e.id →
      payloadOf K.jobs (enqueueSpec K destination s e) id = payloadOf K.jobs s id := by
    rcases enqueueSpec_changes hs.typed hgood hq destination with hsame | ⟨f, hch, -⟩
    · rw [hsame]
      exact ⟨hs.typed, fun _ _ => rfl⟩
    · exact ⟨hch.typed, fun id hid => congrArg JobView.payload (hch.ne hid)⟩
  obtain ⟨g, hg, hzero⟩ := displace_waiting hs hq hdis
  have hrecord := Changes.setField e.id hg.typed e.encode
  refine ⟨htyped, fun id p hp => ?_, hpayload, fun l hl => ?_⟩
  · by_cases hid : id = e.id
    · subst hid
      obtain rfl := Option.some.inj (hpayload.symm.trans hp)
      rw [decode_encode]
      rfl
    · exact hs.valid id p ((hother id hid).symm.trans hp)
  · rw [hspec]
    cases destination with
    | queue =>
      have hch := (hg.trans hrecord).trans
        (Changes.push e.id (l := .ready e.queue) hrecord.typed hq rfl)
      have hocc : occ K (place K .queue e (record K e (displace K e s))) e.id l = _ :=
        congrFun (congrArg JobView.places hch.eq) l
      rw [hocc]
      by_cases h : l = e.loc .queue
      · rw [if_pos h, h]
        refine (Function.update_self ..).trans ?_
        exact congrArg (· + 1) (hzero (.ready e.queue) fun _ => Loc.noConfusion)
      · rw [if_neg h]
        exact (Function.update_of_ne h ..).trans (hzero l hl)
    | schedule =>
      have hch := (hg.trans hrecord).trans (Changes.setScore e.id (l := .schedule)
        hrecord.typed trivial rfl e.jobMeta.scheduledAt.toInt)
      have hocc : occ K (place K .schedule e (record K e (displace K e s))) e.id l = _ :=
        congrFun (congrArg JobView.places hch.eq) l
      rw [hocc]
      by_cases h : l = e.loc .schedule
      · rw [if_pos h, h]
        simp [JobView.enter, JobEnvelope.loc]
      · rw [if_neg h]
        exact (Function.update_of_ne h ..).trans (hzero l hl)

/-! ## After the commit -/

/-- A commit may be repeated: the job is stored and waits as before. -/
theorem Replaced.produce {l : Request} {w w' : World γ} (hw : Replaced K destination e w.store)
    (hq : K.Plain e.queue) (hrep : e.replaces = true) (h : Processes K destination [e] l w w') :
    Replaced K destination e w'.store := by
  refine h.keeps (I := Replaced K destination e) (fun s e' he' hs => ?_) hw
  obtain rfl := List.mem_singleton.mp he'
  have hready : Replaceable K e'.id s := by
    refine ⟨hs.typed, hs.valid, fun p hp => ?_, fun hp => ?_⟩
    · obtain rfl := Option.some.inj (hs.payload.symm.trans hp)
      exact goodPayload_of_plain hq
    · rw [hs.payload] at hp
      cases hp
  refine enqueueSpec_replaced hready hq hrep (fun l hl hne => ?_) destination
  rw [hs.waiting l hl] at hne
  have hloc : l = e'.loc destination := by_contra fun h => hne (if_neg h)
  cases destination with
  | queue => exact .inr (.inr (.inl hloc))
  | schedule => exact .inl hloc

/-- The request changes what is stored for this job and comes from no producer: it is a worker's
write, an acknowledgment, a death or a deletion. -/
def Request.WritesJob (l : Request) (id : JobId) : Prop :=
  l.Stores id ∨ (∃ ids, l = .finishSuccess ids ∧ id ∈ ids) ∨ l = .finishDead id ∨
    l = .transaction id

/-- What a step does that is no write about the job. -/
structure PassesBy (H : Handle) (id : JobId) (s s' : Store) : Prop where
  /-- the keys have their types -/
  typed : StoreTyped H.keys s'
  /-- what is stored for the job stays -/
  payload : payloadOf H.keys.jobs s' id = payloadOf H.keys.jobs s id
  /-- the job goes on waiting where it has been waiting -/
  waiting : ∀ l : Loc, l.Waiting → occ H.keys s' id l = occ H.keys s id l

/-- A step that leaves the payload and the places of a job as they are passes it by. -/
theorem PassesBy.of_view {H : Handle} {id : JobId} {s' : Store} (htyped : StoreTyped H.keys s')
    (h : jobView H.keys s' id = jobView H.keys s id) : PassesBy H id s s' :=
  ⟨htyped, congrArg JobView.payload h, fun l _ => congrArg (fun v => v.places l) h⟩

/-- Reads, the release of a claim, and writes about other jobs pass the job by. -/
theorem WorkStep.passesBy {H : Handle} {l : Request} {w w' : World γ} {id : JobId}
    (h : WorkStep H l w w') (hs : StoreTyped H.keys w.store) (hl : ¬ l.WritesJob id) :
    PassesBy H id w.store w'.store := by
  have hp := StorageKeys.processing_ne_fixed (K := H.keys) H.processId
  have hupdate (es : List JobEnvelope) (hid : id ∉ es.map (·.id)) :
      PassesBy H id w.store (w.store.put H.keys.jobs (.hash
        ((es.map fun e => (e.id, e.encode)).foldl (fun m p => setField p.1 p.2 m)
          (w.store.hash H.keys.jobs)))) := by
    refine .of_view (hs.put_jobs _) ?_
    have hfields : id ∉ (es.map fun e => (e.id, e.encode)).map (·.1) := by
      rwa [List.map_map]
    rw [jobView_put_jobs, lookup_foldl_setField hfields]
    rfl
  cases h with
  | reads => exact .of_view hs rfl
  | keeps e =>
    rw [World.after, hset_ok hs.jobs]
    exact hupdate [e] fun hid => hl (.inl (.inl ⟨_, rfl, hid⟩))
  | starts es =>
    rw [World.after, hsetMultiple, onKind_ok hs.jobs]
    exact hupdate es fun hid => hl (.inl (.inl ⟨_, rfl, hid⟩))
  | releases id' =>
    have hch := Changes.erase id' (l := .processing H.processId) hs trivial rfl
    have hfits : w.store.Fits (H.keys.processingQueue H.processId) .list :=
      hs.places (.processing H.processId) trivial
    rw [World.after, Handle.currentProcessingQueue, lremFirst_ok hfits]
    by_cases hid : id = id'
    · subst hid
      refine ⟨hch.typed, congrArg JobView.payload hch.eq, fun l hwait => ?_⟩
      refine (congrArg (fun v => v.places l) hch.eq).trans ?_
      exact Function.update_of_ne (hwait _) ..
    · exact .of_view hch.typed (hch.ne hid)
  | retries e score =>
    have hid : id ≠ e.id := fun hid => hl (.inl (.inr (congrArg Request.retryFailed hid.symm)))
    rw [World.after, Handle.currentProcessingQueue]
    rcases retryFailed_cases (s := w.store) StorageKeys.jobs_ne_retry hp.1.symm hp.2.2.2.symm
      e.id e.encode score with ⟨m, hm⟩ | ⟨-, -, -, hrun⟩
    · rw [hm]
      exact .of_view hs rfl
    · have hch := Changes.retried e.id hs H.processId e.encode score
      rw [hrun]
      exact .of_view hch.typed (hch.ne hid)
  | finishes ids =>
    have hid : id ∉ ids := fun hid => hl (.inr (.inl ⟨ids, rfl, hid⟩))
    rw [World.after, Handle.currentProcessingQueue]
    rcases finishSuccess_cases (s := w.store) hp.1.symm ids with ⟨m, hm⟩ | ⟨-, -, hrun⟩
    · rw [hm]
      exact .of_view hs rfl
    · have hack := acknowledges_all hs H.processId ids
      rw [hrun]
      exact .of_view hack.typed (hack.others id hid)
  | kills e =>
    have hid : id ≠ e.id := fun hid => hl (.inr (.inr (.inl (congrArg Request.finishDead hid.symm))))
    rw [World.after, Handle.currentProcessingQueue]
    rcases finishDead_cases (s := w.store) StorageKeys.jobs_ne_dead hp.1.symm hp.2.1.symm e.id
      e.encode (H.deadJobLimit.getD 0) with ⟨m, hm⟩ | ⟨-, -, -, hrun⟩
    · rw [hm]
      exact .of_view hs rfl
    · have hch := Changes.buried e.id hs H.processId
      rw [hrun]
      exact .of_view (hch _).typed ((hch _).ne hid)
  | deletes id' queueKeys =>
    have hid : id ≠ id' :=
      fun hid => hl (.inr (.inr (.inr (congrArg Request.transaction hid.symm))))
    have hdel := deletion_deletes id' hs queueKeys
    exact .of_view hdel.typed (hdel.others id hid)

/-- A change of one job that stores nothing but an envelope leaves envelopes only. -/
theorem Changes.valid {id : JobId} {f : JobView → JobView} {s' : Store} (h : Changes K s id f s')
    (hf : ∀ v p, (f v).payload = some p → v.payload = some p ∨ ∃ e : JobEnvelope, p = e.encode)
    (hv : Valid K s) : Valid K s' := by
  intro id' p hp
  by_cases hid : id' = id
  · subst hid
    have hpay : payloadOf K.jobs s' id' = (f (jobView K s id')).payload :=
      congrArg JobView.payload h.eq
    rcases hf _ p (hpay.symm.trans hp) with hold | ⟨e, rfl⟩
    · exact hv id' p hold
    · rw [decode_encode]
      rfl
  · have hpay : payloadOf K.jobs s' id' = payloadOf K.jobs s id' :=
      congrArg JobView.payload (h.ne hid)
    exact hv id' p (hpay.symm.trans hp)

/-- Storing envelopes, one after the other, leaves envelopes only. -/
theorem valid_updated (es : List JobEnvelope) (hs : StoreTyped K s) (hv : Valid K s) :
    Valid K (s.put K.jobs (.hash ((es.map fun e => (e.id, e.encode)).foldl
      (fun m p => setField p.1 p.2 m) (s.hash K.jobs)))) := by
  induction es generalizing s with
  | nil =>
    intro id p hp
    rw [payloadOf, Store.hash_put_self] at hp
    exact hv id p hp
  | cons e es ih =>
    have hch := Changes.setField e.id hs e.encode
    have hrest := ih hch.typed (hch.valid (fun _ p hp => .inr ⟨e, (Option.some.inj hp).symm⟩) hv)
    rwa [Store.put_put_self, Store.hash_put_self] at hrest

/-- Acknowledging jobs stores nothing, so it leaves envelopes only. -/
theorem valid_acknowledged (p : String) (ids : List JobId) (hs : StoreTyped K s)
    (hv : Valid K s) : Valid K (ids.foldl (acknowledge K.jobs (K.processingQueue p)) s) := by
  induction ids generalizing s with
  | nil => exact hv
  | cons id ids ih =>
    have hch := Changes.acknowledged id hs p
    refine ih hch.typed (hch.valid (fun _ _ hp => ?_) hv)
    cases hp

/-- What a worker stores are envelopes, whatever step it takes. -/
theorem WorkStep.valid {H : Handle} {l : Request} {w w' : World γ} (h : WorkStep H l w w')
    (hs : StoreTyped H.keys w.store) (hv : Valid H.keys w.store) : Valid H.keys w'.store := by
  have hp := StorageKeys.processing_ne_fixed (K := H.keys) H.processId
  cases h with
  | reads => exact hv
  | keeps e =>
    rw [World.after, hset_ok hs.jobs]
    exact valid_updated [e] hs hv
  | starts es =>
    rw [World.after, hsetMultiple, onKind_ok hs.jobs]
    exact valid_updated es hs hv
  | releases id =>
    have hfits : w.store.Fits (H.keys.processingQueue H.processId) .list :=
      hs.places (.processing H.processId) trivial
    have hch := Changes.erase id (l := .processing H.processId) hs trivial rfl
    rw [World.after, Handle.currentProcessingQueue, lremFirst_ok hfits]
    exact hch.valid (fun _ _ hp => .inl hp) hv
  | retries e score =>
    rw [World.after, Handle.currentProcessingQueue]
    rcases retryFailed_cases (s := w.store) StorageKeys.jobs_ne_retry hp.1.symm hp.2.2.2.symm
      e.id e.encode score with ⟨m, hm⟩ | ⟨-, -, -, hrun⟩
    · rw [hm]
      exact hv
    · rw [hrun]
      exact (Changes.retried e.id hs H.processId e.encode score).valid
        (fun _ p hp => .inr ⟨e, (Option.some.inj hp).symm⟩) hv
  | finishes ids =>
    rw [World.after, Handle.currentProcessingQueue]
    rcases finishSuccess_cases (s := w.store) hp.1.symm ids with ⟨m, hm⟩ | ⟨-, -, hrun⟩
    · rw [hm]
      exact hv
    · rw [hrun]
      exact valid_acknowledged H.processId ids hs hv
  | kills e =>
    rw [World.after, Handle.currentProcessingQueue]
    rcases finishDead_cases (s := w.store) StorageKeys.jobs_ne_dead hp.1.symm hp.2.1.symm e.id
      e.encode (H.deadJobLimit.getD 0) with ⟨m, hm⟩ | ⟨-, -, -, hrun⟩
    · rw [hm]
      exact hv
    · rw [hrun]
      refine (Changes.buried e.id hs H.processId _).valid (fun _ _ hp => ?_) hv
      cases hp
  | deletes id queueKeys =>
    have hdel := deletion_deletes id hs queueKeys
    intro id' p hp
    by_cases hid : id' = id
    · subst hid
      rw [World.after, hdel.payload] at hp
      cases hp
    · have hpay : payloadOf H.keys.jobs (H.deletion id queueKeys w.store).2 id' =
          payloadOf H.keys.jobs w.store id' := congrArg JobView.payload (hdel.others id' hid)
      exact hv id' p (hpay.symm.trans hp)

/-- Whatever the worker does to other jobs does not matter to a job that has been replaced. -/
theorem Replaced.work {H : Handle} {l : Request} {w w' : World γ}
    (hw : Replaced H.keys destination e w.store) (h : WorkStep H l w w')
    (hl : ¬ l.WritesJob e.id) : Replaced H.keys destination e w'.store := by
  have hpasses := h.passesBy hw.typed hl
  exact ⟨hpasses.typed, h.valid hw.typed hw.valid, hpasses.payload.trans hw.payload,
    fun l hwait => (hpasses.waiting l hwait).trans (hw.waiting l hwait)⟩

/-! ## Until the commit -/

/-- At the moment of the commit the job may wait for a retry, and it waits nowhere else. -/
theorem PlacementInv.displaceable {w : World Ledger} (hinv : PlacementInv K U w)
    (hun : Unqueued K e.id w.store) :
    Replaceable K e.id w.store ∧ Displaceable K e w.store := by
  refine ⟨⟨hinv.typed, hinv.valid, (hinv.jobs e.id).good, fun hp l _ => ?_⟩, fun l hl hne => ?_⟩
  · by_contra hne
    exact (hinv.jobs e.id).stored (fun h => hne (congrFun h l)) hp
  · exact .inr (.inl (by_contra fun h => hne (hun.unqueued l hl h)))

/-- **No replacement is lost**: a producer replaces a job that a live process
has claimed. From the moment of the commit on, as long as the older attempt
writes nothing more about the job, the replacement is stored byte for byte and
waits at exactly one place. -/
theorem replacement_kept {p : String} {d : Option Nat} {ids : List JobId} {w w' : World Ledger}
    {x : Prog Request (World Ledger) Choice (Except OxanaError JobId)}
    {x' : Prog Request (World Ledger) Choice (Except OxanaError Unit)}
    {tr tr' : List (Side × Prog.Event Request (World Ledger))}
    {ev : Prog.Event Request (World Ledger)} (hq : K.Plain e.queue) (hrep : e.replaces = true)
    (hinv : PlacementInv K U w) (hlive : p ∉ w.ghost.ended) (hnd : ids.Nodup) (hid : e.id ∈ ids)
    (hclaims : ∀ id ∈ ids, occ K w.store id (.processing p) ≠ 0)
    (h : Run (enqueueOne K e destination) (workOn ⟨K, p, d⟩ ids) w (tr ++ (.left, ev) :: tr')
      x x' w')
    (hcommit : ev.post.store = enqueueSpec K destination ev.pre.store e)
    (hquiet : ∀ ev', (.right, ev') ∈ tr' → ¬ ev'.label.WritesJob e.id) :
    payloadOf K.jobs w'.store e.id = some e.encode ∧ ∀ l : Loc, l.Waiting →
      occ K w'.store e.id l = if l = e.loc destination then 1 else 0 := by
  have hu : e.jobMeta.unique = true := by
    simp only [JobEnvelope.replaces] at hrep
    exact (Bool.and_eq_true _ _ ▸ hrep).1
  have hproduce : Prog.Always (fun _ w => Valid K w.store) (Processes K destination [e])
      (fun _ => True) (enqueueOne K e destination : Call Ledger JobId) :=
    (enqueueOne_places hu destination).steps fun _ _ h => h
  have hwork : Prog.Always (fun _ _ => True) (WorkStep ⟨K, p, d⟩) (fun _ => True)
      (workOn ⟨K, p, d⟩ ids : Call Ledger Unit) := (workOn_steps ids).steps fun _ _ h => h
  obtain ⟨x₁, x₁', w₁, h₁, h₂⟩ := h.split
  -- the steps of the producer before the commit are reads
  have hreads : ∀ e', (.left, e') ∈ tr → ReadsOnly K e' := by
    have hlast := enqueueOne_writesLast hu h.trace_left
    have hlefts : Run.lefts (tr ++ (.left, ev) :: tr') =
        Run.lefts tr ++ ev :: Run.lefts tr' := by
      simp [Run.lefts]
    intro e' he'
    refine hlast e' ?_
    rw [hlefts, List.dropLast_append_of_ne_nil (List.cons_ne_nil _ _)]
    exact List.mem_append_left _ (Run.mem_lefts.mpr he')
  -- so everybody keeps to the discipline until then
  have hown : ∀ t ∈ (Handle.mk K p d).claims ids, (custody K U).owns t w := by
    rintro t ⟨id, hid, rfl⟩
    exact ⟨hlive, hclaims id hid⟩
  have hkeeps : Works ⟨K, p, d⟩ U (fun _ _ => True) (fun _ => True)
      ((Handle.mk K p d).claims ids) (workOn ⟨K, p, d⟩ ids) := workOn_works hnd
  obtain ⟨hinv₁, hinvs⟩ := h₁.safe (D := custody K U) hinv
    (fun s s' hmoves hl => hmoves.2 p rfl hl) hlive hown hkeeps
    fun e' he' hI => hreads e' he' hI.valid
  -- and the job comes to wait nowhere, except for a retry
  have hun : Unqueued K e.id w.store := by
    obtain ⟨_, hview, -⟩ := hinv.at_place (hclaims e.id hid)
    have hocc : occ K w.store e.id = only (.processing p) := congrArg JobView.places hview
    exact ⟨hinv.typed, fun l hl _ => by rw [hocc]; exact only_ne (hl p)⟩
  obtain ⟨hun₁, -, hx₁'⟩ := h₁.always (I := fun w => Unqueued K e.id w.store) hun
    (fun _ _ _ => trivial) (fun _ _ _ => trivial) (Prog.always_true (E := fun _ _ => True) _) hwork
    (fun e' he' hI _ => by rwa [hreads e' he' (hinvs _ he').valid])
    fun _ _ hI hstep => hI.step hstep
  have hx₁ : Prog.Always (fun _ w => Valid K w.store) (Processes K destination [e]) (fun _ => True)
      x₁ := hproduce.residual h₁.trace_left fun e' he' => (hinvs _ (Run.mem_lefts.mp he')).valid
  obtain ⟨hpre, -, x₂, x₂', h₃, hx₂, hx₂'⟩ := h₂.next_left hx₁ hx₁' hinv₁.valid
  have hdone : Replaced K destination e ev.post.store := by
    obtain ⟨hacc, hdis⟩ := hinv₁.displaceable hun₁
    rw [hcommit, hpre]
    exact enqueueSpec_replaced hacc hq hrep hdis destination
  obtain ⟨hw', -⟩ := h₃.always (I := fun w => Replaced K destination e w.store) hdone
    (fun _ _ hI => hI.valid) (fun _ _ _ => trivial) hx₂ hx₂'
    (fun _ _ hI hstep => hI.produce hq hrep hstep)
    fun ev' he' hI hstep => hI.work hstep (hquiet ev' he')
  exact ⟨hw'.payload, hw'.waiting⟩

/-- A worker that gives up its job takes along whatever is stored for it, the replacement as well.
-/
theorem kill_forgets {H : Handle} {w : World γ} (hs : StoreTyped H.keys w.store) (e : JobEnvelope)
    (error : String) : ∃ w' : World γ, payloadOf H.keys.jobs w'.store e.id = none ∧
      Call.Returns (kill H e error) [⟨.finishDead e.id, w, w'⟩] () := by
  have hp := StorageKeys.processing_ne_fixed (K := H.keys) H.processId
  have hok := finishDead_ok StorageKeys.jobs_ne_dead hp.1.symm hp.2.1.symm hs.jobs hs.dead
    (hs.places (.processing H.processId) trivial) e.id (e.withError error).encode
    (H.deadJobLimit.getD 0)
  have hch := Changes.buried e.id hs H.processId
    (bury (H.deadJobLimit.getD 0) (e.withError error).encode (w.store.list H.keys.dead))
  refine ⟨w.after (finishDead H.keys.jobs H.keys.dead H.currentProcessingQueue e.id
    (e.withError error).encode (H.deadJobLimit.getD 0)), ?_,
    Call.Returns.connection.bind (.send w (congrArg Prod.fst hok))⟩
  rw [World.after, Handle.currentProcessingQueue, hok]
  exact congrArg JobView.payload hch.eq

/-! ## A job replaced under its worker -/

/-- The world in which process `q` has claimed `b`. -/
def worked : World Ledger := ⟨held.store, 10, ⟨∅, ∅, 0⟩⟩

/-- The envelope that replaces `b`. -/
def renewal : JobEnvelope :=
  .new "" 3 5 "mail" ⟨"Welcome", .null, some "b", .replace, true, none⟩

/-- What its producer remembers of the stored payload. -/
def noted : EnqueueSnapshot :=
  ⟨"\x7b\"id\":\"b\",\"job\":\x7b\"name\":\"Welcome\",\"args\":null\x7d,\"queue\":\"mail\"",
    "mail", .initial⟩

/-- The world once the replacement has been committed. -/
def renewed : World Ledger :=
  worked.after (enqueueCall (.new "") .queue [("b", some noted)] [renewal])

theorem noted_parsed : EnqueueSnapshot.parse (welcome "b").encode = some noted := by
  decide +kernel

theorem plain_mail : (StorageKeys.new "").Plain "mail" := by
  decide +kernel

theorem worked_inv : PlacementInv (.new "") {"b"} worked := by
  refine ⟨held_typed, fun id => ?_⟩
  show JobOk _ _ _ id (jobView (.new "") held.store id)
  rw [held_view]
  by_cases h : id = "b"
  · rw [if_pos h, h]
    refine .at_place (goodPayload_of_plain (e := welcome "b") plain_mail) ?_ _
    exact fun h => absurd (Set.mem_singleton "b") h
  · rw [if_neg h]
    exact .gone

/-- The call of the script commits the replacement of the held job. -/
theorem renewal_commits : ∃ outcomes,
    enqueueCall (.new "") .queue [("b", some noted)] [renewal] held.store =
      (.ok ⟨[], outcomes⟩, enqueueSpec (.new "") .queue held.store renewal) := by
  have hof : Snapshots.Of ["b"] [("b", some noted)] := by
    refine ⟨List.nodup_singleton _, fun id => Iff.rfl, fun id sn hsn => ?_⟩
    obtain ⟨-, hsn'⟩ := Prod.mk.inj (List.mem_singleton.mp hsn)
    exact ⟨_, noted_parsed.trans hsn'.symm⟩
  have hreply : (enqueueCall (.new "") .queue [("b", some noted)] [renewal]
      held.store).1.toOption.map (·.changed) = some [] := by
    decide +kernel
  have hval : Valid (.new "") held.store := worked_inv.valid
  rcases enqueueCall_refines (K := .new "") .queue hof
    (show Covered _ [renewal] from ⟨fun _ => List.mem_singleton.mpr rfl, trivial⟩) hval with ⟨m, hno⟩ | ⟨hne, hrun⟩ | h
  · rw [hno] at hreply
    cases hreply
  · rw [hrun] at hreply
    simp only [Except.toOption, Option.map_some, Option.some.injEq] at hreply
    exact absurd hreply hne
  · exact h

theorem renewed_store : renewed.store = enqueueSpec (.new "") .queue worked.store renewal := by
  obtain ⟨_, hcall⟩ := renewal_commits
  rw [renewed, World.after, show worked.store = held.store from rfl, hcall]

theorem renewed_replaced : Replaced (.new "") .queue renewal renewed.store := by
  obtain ⟨hacc, hdis⟩ := worked_inv.displaceable (e := renewal)
    ⟨held_typed, fun l hl _ => by
      have hocc : occ (.new "") worked.store renewal.id = only (.processing "q") := held_claimed
      rw [hocc]
      exact only_ne (hl "q")⟩
  rw [renewed_store]
  exact enqueueSpec_replaced hacc plain_mail (by decide) hdis .queue

/-- The steps of the producer of the replacement: it reads a snapshot, and then commits. -/
theorem renewal_returns : Call.Returns (enqueueOne (.new "") renewal .queue)
    [⟨.hmget, worked, worked⟩, ⟨.enqueue ["b"], worked, renewed⟩] "b" := by
  obtain ⟨outcomes, hcall⟩ := renewal_commits
  have hmget : Call.Returns (send .hmget (hmget (StorageKeys.new "").jobs ["b"]))
      [⟨.hmget, worked, worked⟩] [some (welcome "b").encode] := Call.Returns.send worked rfl
  have hsnap : Call.Returns (snapshotOf (some (welcome "b").encode) : Call Ledger _) []
      (some noted) := by
    simp only [snapshotOf, noted_parsed]
    exact .pure _
  have hread : Call.Returns (readSnapshots (.new "") ["b"]) [⟨.hmget, worked, worked⟩]
      [("b", some noted)] := hmget.bind (hsnap.bind (.pure _))
  have hloop : Call.Returns (enqueuePending (.new "") .queue [("b", some noted)] [renewal])
      [⟨.enqueue ["b"], worked, renewed⟩] _ :=
    .ask Call.fine ((Call.Returns.send worked (congrArg Prod.fst hcall)).bind (.pure _))
  have hnone : Call.Returns (readExisting (.new "") [] : Call Ledger _) [] [] := .pure _
  have hunique : Call.Returns (enqueueUnique (.new "") .queue [renewal])
      [⟨.hmget, worked, worked⟩, ⟨.enqueue ["b"], worked, renewed⟩] _ :=
    Call.Returns.bind hread (Call.Returns.bind hnone hloop)
  have hchunk : ∃ new, Call.Returns (enqueueChunk (.new "") [renewal] .queue [])
      [⟨.hmget, worked, worked⟩, ⟨.enqueue ["b"], worked, renewed⟩] new := by
    simp only [enqueueChunk]
    rw [if_neg (by decide)]
    exact ⟨_, hunique.bind (.pure _)⟩
  obtain ⟨_, hchunk⟩ := hchunk
  exact Call.Returns.connection.bind (hchunk.bind (.pure _))

/-- The producer replaces `b` while a worker has claimed it and writes nothing more about it: the
replacement is stored, and waits at one place. -/
theorem renewal_kept : renewed.store = enqueueSpec (.new "") .queue worked.store renewal ∧
    payloadOf (StorageKeys.new "").jobs renewed.store "b" = some renewal.encode ∧
      ∀ l : Loc, l.Waiting → occ (.new "") renewed.store "b" l =
        if l = .ready "mail" then 1 else 0 := by
  refine ⟨renewed_store, ?_⟩
  have hrun : Run (enqueueOne (.new "") renewal .queue) (workOn ⟨.new "", "q", none⟩ ["b"]) worked
      ([(.left, ⟨.hmget, worked, worked⟩)] ++ (.left, ⟨.enqueue ["b"], worked, renewed⟩) :: []) _ _
      renewed :=
    Run.of_left renewal_returns ⟨rfl, rfl, rfl⟩ _
  exact replacement_kept (e := renewal) (U := {"b"}) plain_mail (by decide) worked_inv
    (Set.notMem_empty _) (List.nodup_singleton _) (List.mem_singleton.mpr rfl)
    (by
      intro id hid
      rw [List.mem_singleton.mp hid, show worked.store = held.store from rfl,
        show renewal.id = "b" from rfl, held_claimed]
      simp [only])
    hrun renewed_store
    fun _ h => absurd h List.not_mem_nil

/-- The job is replaced while its worker is about to give it up, and the replacement is lost with
it. -/
theorem replacement_lost : ∃ tr e tr' x x', ∃ w' : World Ledger,
    Run (enqueueOne (.new "") renewal .queue) (workOn holder ["b"]) worked
        (tr ++ (.left, e) :: tr') x x' w' ∧
      e.post.store = enqueueSpec (.new "") .queue e.pre.store renewal ∧
      payloadOf (StorageKeys.new "").jobs e.post.store "b" = some renewal.encode ∧
      payloadOf (StorageKeys.new "").jobs w'.store "b" = none := by
  obtain ⟨w', hgone, hkill⟩ := kill_forgets (H := holder) renewed_replaced.typed
    (welcome "b").normalize "unknown"
  have hinvalid : Call.Returns (killInvalid holder [(welcome "b").normalize])
      [⟨.finishDead "b", renewed, w'⟩] [] :=
    .ask { invalid := some "unknown" } (hkill.bind (.pure _))
  have hgiven : Prog.Trace (processPending holder [(welcome "b").normalize])
      [⟨.finishDead "b", renewed, w'⟩] (runBatch holder []) := Prog.Trace.bind hinvalid (.refl _)
  have h₁ := Run.of_right (held_loaded (w := worked) rfl) (s := worked) ⟨rfl, rfl⟩
    (enqueueOne (.new "") renewal .queue)
  have h₂ := Run.of_left renewal_returns (s := worked) ⟨rfl, rfl, rfl⟩
    (processPending holder [(welcome "b").normalize])
  have h₃ := Run.of_right hgiven (s := renewed) ⟨rfl, rfl⟩
    (.ret (.ok "b") : Prog Request (World Ledger) Choice (Except OxanaError JobId))
  exact ⟨[(.right, ⟨.hget, worked, worked⟩), (.left, ⟨.hmget, worked, worked⟩)],
    ⟨.enqueue ["b"], worked, renewed⟩, _, _, _, w', h₁.append (h₂.append h₃), renewed_store,
    renewed_replaced.payload, hgone⟩

end Oxana
