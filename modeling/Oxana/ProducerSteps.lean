import Oxana.ProducerCustody
import Oxana.Interleave.Amid

/-!
# What producers of unique jobs do

Said once: a step of a producer whose jobs are all unique either leaves the
world alone, or processes some of its envelopes one after the other, by the
rules of `enqueueSpec` (`Places`). What a producer keeps is then a question
about `enqueueSpec` only (`Processes.keeps`).
-/

namespace Oxana

open Redis Script Interleave Call

variable {γ : Type} {K : StorageKeys}

/-- What a step of a producer does to the world: it reads, or it enqueues by the specification. -/
inductive Processes (K : StorageKeys) (destination : JobDestination) (es : List JobEnvelope) :
    Request → World γ → World γ → Prop where
  /-- it only reads -/
  | reads {l : Request} {w : World γ} : Processes K destination es l w w
  /-- it processes some of the envelopes -/
  | commits {w : World γ} {ids : List JobId} {es' : List JobEnvelope} : (∀ e ∈ es', e ∈ es) →
      Processes K destination es (.enqueue ids) w
        { w with store := es'.foldl (enqueueSpec K destination) w.store }

variable {destination : JobDestination} {es : List JobEnvelope} {l : Request} {w w' : World γ}

/-- What placing an envelope by its specification keeps, such a step of a producer keeps. -/
theorem Processes.keeps {I : Store → Prop} (h : Processes K destination es l w w')
    (hI : ∀ s, ∀ e ∈ es, I s → I (enqueueSpec K destination s e)) (hw : I w.store) :
    I w'.store := by
  cases h with
  | reads => exact hw
  | @commits _ _ es' hsub =>
    show I (es'.foldl (enqueueSpec K destination) w.store)
    generalize w.store = s at hw
    induction es' generalizing s with
    | nil => exact hw
    | cons e es' ih =>
      exact ih (fun e' he => hsub e' (List.mem_cons_of_mem _ he)) _
        (hI s e (hsub e (List.mem_cons_self ..)) hw)

/-- Every step of the call is of this form, as long as what is stored are
envelopes. -/
abbrev Places {α : Type} (K : StorageKeys) (destination : JobDestination) (es : List JobEnvelope)
    (Q : α → Prop) (x : Call γ α) : Prop :=
  Call.Always (fun _ w => Valid K w.store) (Processes K destination es) Q x

theorem Places.subset {α : Type} {es' : List JobEnvelope} {x : Call γ α} {Q : α → Prop}
    (h : Places K destination es' Q x) (hsub : ∀ e ∈ es', e ∈ es) :
    Places K destination es Q x := by
  refine Always.weaken h (fun _ _ hw => hw) fun l w w' _ hstep => ?_
  cases hstep with
  | reads => exact .reads
  | commits hes => exact .commits fun e he => hsub e (hes e he)

section Reads

variable {E : Request → World γ → Prop} {G : Request → World γ → World γ → Prop}

/-- Reading snapshots is made of reads only, and what is read are snapshots of the ids asked for. -/
theorem readSnapshots_always (hG : ∀ l w, E l w → G l w w) {ids : List JobId} (hnd : ids.Nodup) :
    Call.Always E G (·.Of ids) (readSnapshots K ids) := by
  by_cases hids : ids = []
  · subst hids
    exact .pure snapshotsOf_nil
  · have hunfold : (readSnapshots K ids : Call γ Snapshots) =
        (send .hmget (hmget K.jobs ids) >>= fun payloads => addSnapshots (ids.zip payloads) []) := by
      rw [readSnapshots, if_neg hids]
    have hall : Call.Always E G (·.Of ids)
        (send .hmget (hmget K.jobs ids) >>= fun payloads => addSnapshots (ids.zip payloads) []) := by
      refine Always.bind (Q := fun payloads =>
        ∃ w : World γ, (hmget K.jobs ids w.store).1 = .ok payloads) ?_ ?_
      · exact .read (fun s => hmget_snd ..) (hG .hmget) fun w a _ ha => ⟨w, ha⟩
      · rintro payloads ⟨w, hw⟩
        rcases addSnapshots_cases (γ := γ) (ids.zip payloads) [] with ⟨m, hm⟩ | hm
        · rw [hm]
          refine .pure ?_
          have hadd : Call.Returns (addSnapshots (ids.zip payloads) [] : Call γ _) [] m := by
            rw [hm]
            exact .pure m
          have hret := (Call.Returns.send (l := .hmget) w hw).bind
            (f := fun payloads => addSnapshots (ids.zip payloads) []) hadd
          rw [← hunfold] at hret
          exact (readSnapshots_inv hnd hret).1
        · rw [hm]
          exact .fail _
    rw [hunfold]
    exact hall

theorem readExisting_always (hG : ∀ l w, E l w → G l w w) (ids : List JobId) :
    Call.Always E G (fun _ => True) (readExisting K ids) := by
  simp only [readExisting]
  split
  · exact .pure trivial
  · refine Always.bind (Always.pipe (Q := fun _ _ => True) (fun x hx w hw => ?_)
      fun _ _ _ _ _ _ => trivial) fun _ _ => .pure trivial
    obtain ⟨id, -, rfl⟩ := List.mem_map.mp hx
    rw [World.after_read (hexists_snd ..)]
    exact hG _ w hw

end Reads

/-- The script processes all the envelopes that it is called with, or none of them. -/
theorem enqueueLoop_places {R : List JobId}
    {pending : List JobEnvelope} (hcov : Covered (· ∈ R) pending) {m : Snapshots} (hm : m.Of R)
    (n : Nat) :
    Places (γ := γ) K destination pending (fun _ => True) (enqueueLoop K destination pending n m) := by
  induction n generalizing m with
  | zero => exact .hang
  | succ n ih =>
    refine Always.bind (Q := fun reply =>
      ∃ s, (enqueueCall K destination m pending s).1 = .ok reply) ?_ ?_
    · refine .send (fun w hw => ?_) fun w a _ ha => ⟨w.store, ha⟩
      simp only [World.after]
      rcases enqueueCall_refines destination hm hcov hw with ⟨_, hx⟩ | ⟨-, hx⟩ | ⟨_, hx⟩
      · rw [hx]
        exact .reads
      · rw [hx]
        exact .reads
      · rw [hx]
        exact .commits fun _ he => he
    · rintro reply ⟨s, hreply⟩
      split
      · exact .pure trivial
      · rcases addSnapshots_cases (γ := γ) reply.changed m with ⟨m', hm'⟩ | hm'
        · rw [hm']
          have hadd : Call.Returns (addSnapshots reply.changed m : Call γ _) [] m' := by
            rw [hm']
            exact .pure m'
          exact ih (hm.refresh hcov hreply hadd).2
        · rw [hm']
          exact .fail _

theorem enqueueUnique_places (pending : List JobEnvelope) :
    Places (γ := γ) K destination pending (fun _ => True) (enqueueUnique K destination pending) := by
  simp only [enqueueUnique]
  split
  · exact .pure trivial
  · refine (readSnapshots_always (fun _ _ _ => .reads) (nodup_replacementIds pending []).1).bind
      fun m hm => ?_
    refine (readExisting_always (fun _ _ _ => .reads) (skipIds pending m)).bind fun existing _ => ?_
    simp only [enqueuePending]
    split
    · exact .pure trivial
    · refine .ask fun c => (enqueueLoop_places ?_ hm _).subset fun e he => (List.mem_filter.mp he).1
      refine (covered_replacementIds _ pending []).mono fun id h => ?_
      exact h.resolve_right List.not_mem_nil

theorem enqueueChunk_places (hes : ∀ e ∈ es, e.jobMeta.unique = true) (written : List JobId) :
    Places (γ := γ) K destination es (fun _ => True) (enqueueChunk K es destination written) := by
  simp only [enqueueChunk]
  split
  · next hord =>
    -- no envelope is ordinary, so the pipeline is empty
    have hnil : es = [] := by
      rcases es with _ | ⟨e, es⟩
      · rfl
      · have h := List.all_eq_true.mp hord e (List.mem_cons_self ..)
        rw [hes e (List.mem_cons_self ..)] at h
        cases h
    subst hnil
    exact (Always.pipe (Q := fun _ _ => True) (fun _ h => absurd h List.not_mem_nil)
      fun _ h => absurd h List.not_mem_nil).bind fun _ _ => .pure trivial
  · exact ((enqueueUnique_places _).subset fun e he => mem_of_mem_pendingOf he).bind
      fun _ _ => .pure trivial

theorem enqueueOne_places {e : JobEnvelope} (hu : e.jobMeta.unique = true)
    (destination : JobDestination) :
    Places (γ := γ) K destination [e] (fun _ => True) (enqueueOne K e destination) := by
  refine Always.connection.bind fun _ _ => (enqueueChunk_places (fun e' he => ?_) []).bind
    fun _ _ => .pure trivial
  rw [List.mem_singleton.mp he]
  exact hu

theorem enqueueChunks_places {cs : List (List JobEnvelope)}
    (hcs : ∀ c ∈ cs, ∀ e ∈ c, e ∈ es) (hes : ∀ e ∈ es, e.jobMeta.unique = true)
    (written : List JobId) :
    Places (γ := γ) K destination es (fun _ => True) (enqueueChunks K destination cs written) := by
  induction cs generalizing written with
  | nil => exact .pure trivial
  | cons c cs ih =>
    have hc : ∀ e ∈ c, e ∈ es := hcs c (List.mem_cons_self ..)
    refine ((enqueueChunk_places (fun e he => hes e (hc e he)) written).subset hc).bind
      fun written' _ => ?_
    exact ih (fun c' hc' => hcs c' (List.mem_cons_of_mem _ hc')) written'

/-- Enqueueing a list of unique jobs only places envelopes of this list. -/
theorem enqueueList_places (hes : ∀ e ∈ es, e.jobMeta.unique = true) :
    Places (γ := γ) K .queue es (fun _ => True) (enqueueList K es) := by
  simp only [enqueueList]
  split
  · exact .pure trivial
  · refine Always.connection.bind fun _ _ => (enqueueChunks_places (fun c hc e he => ?_) hes []).bind
      fun _ _ => .pure trivial
    rw [← flatten_enqueueListChunks es]
    exact List.mem_flatten.mpr ⟨c, hc, he⟩

/-! ## The last step -/

section Last

variable {tr : List (Prog.Event Request (World γ))}

/-- A step that reads, as long as what is stored are envelopes. -/
def ReadsOnly (K : StorageKeys) (e : Prog.Event Request (World γ)) : Prop :=
  Valid K e.pre.store → e.post = e.pre

/-- All steps of a trace but the last one only read. -/
def WritesLast (K : StorageKeys) (tr : List (Prog.Event Request (World γ))) : Prop :=
  ∀ e ∈ tr.dropLast, ReadsOnly K e

/-- Reads before a trace that writes last do not change that it does. -/
theorem WritesLast.append {reads : List (Prog.Event Request (World γ))}
    (hreads : ∀ e ∈ reads, ReadsOnly K e) (h : WritesLast K tr) : WritesLast K (reads ++ tr) := by
  intro e he
  by_cases htr : tr = []
  · rw [htr, List.append_nil] at he
    exact hreads e (List.mem_of_mem_dropLast he)
  · rw [List.dropLast_append_of_ne_nil htr] at he
    rcases List.mem_append.mp he with he | he
    · exact hreads e he
    · exact h e he

theorem writesLast_nil : WritesLast K ([] : List (Prog.Event Request (World γ))) :=
  fun _ he => absurd he List.not_mem_nil

/-- A call that reads first, and then writes last, writes last. -/
theorem WritesLast.bind_reads {α β : Type} {x : Call γ α} {f : α → Call γ β} {Q : α → Prop}
    {q : Prog Request (World γ) Choice (Except OxanaError β)}
    (h : Prog.Trace (x >>= f : Call γ β) tr q)
    (hx : Call.Always (fun _ _ => True) (fun _ w w' => w' = w) Q x)
    (hf : ∀ a tr', Q a → Prog.Trace (f a) tr' q → WritesLast K tr') : WritesLast K tr := by
  rcases trace_bind h with ⟨p, hp⟩ | ⟨a, tr₁, tr₂, rfl, h₁, h₂⟩
  · have hreads := (hx.trace hp fun _ _ => trivial).1
    exact fun e he _ => hreads e (List.mem_of_mem_dropLast he)
  · obtain ⟨hreads, hQ⟩ := hx.trace h₁ fun _ _ => trivial
    exact .append (fun e he _ => hreads e he) (hf a tr₂ (hQ a rfl) h₂)

/-- A call after which nothing follows but a value writes last if the call does. -/
theorem WritesLast.bind_pure {α β : Type} {x : Call γ α} {f : α → β}
    {q : Prog Request (World γ) Choice (Except OxanaError β)}
    (h : Prog.Trace (x >>= fun a => pure (f a) : Call γ β) tr q)
    (hx : ∀ tr p, Prog.Trace x tr p → WritesLast K tr) : WritesLast K tr := by
  rcases trace_bind h with ⟨p, hp⟩ | ⟨a, tr₁, tr₂, rfl, h₁, h₂⟩
  · exact hx tr p hp
  · cases h₂
    rw [List.append_nil]
    exact hx tr₁ _ h₁

/-- The loop of the sender reads snapshots and calls the script, and what is written is written by
the last call. -/
theorem enqueueLoop_writesLast {R : List JobId} {pending : List JobEnvelope}
    (hcov : Covered (· ∈ R) pending) {m : Snapshots} (hm : m.Of R) {n : Nat}
    {q : Prog Request (World γ) Choice (Except OxanaError (List JobId))}
    (h : Prog.Trace (enqueueLoop K destination pending n m : Call γ _) tr q) : WritesLast K tr := by
  induction n generalizing m tr with
  | zero =>
    cases h
    exact writesLast_nil
  | succ n ih =>
    rcases trace_bind h with ⟨p, hp⟩ | ⟨reply, tr₁, tr₂, rfl, h₁, h₂⟩
    · rcases trace_send hp with rfl | ⟨w, rfl⟩
      · exact writesLast_nil
      · exact fun e he => absurd he List.not_mem_nil
    obtain ⟨w, rfl, hreply⟩ := Returns.send_inv h₁
    by_cases hch : reply.changed = []
    · rw [if_pos hch] at h₂
      cases h₂
      exact fun e he => absurd he List.not_mem_nil
    · rw [if_neg hch] at h₂
      refine .append (fun e he hval => ?_) ?_
      · -- a call that reports changes has not written
        obtain rfl := List.mem_singleton.mp he
        rcases enqueueCall_refines destination hm hcov hval with ⟨_, hx⟩ | ⟨-, hx⟩ | ⟨_, hx⟩
        · exact World.after_read (by rw [hx])
        · exact World.after_read (by rw [hx])
        · rw [hx] at hreply
          exact absurd (Except.ok.inj hreply ▸ rfl) hch
      · rcases addSnapshots_cases (γ := γ) reply.changed m with ⟨m', hm'⟩ | hm'
        · rw [hm'] at h₂
          have hadd : Call.Returns (addSnapshots reply.changed m : Call γ _) [] m' := by
            rw [hm']
            exact .pure m'
          exact ih (hm.refresh hcov hreply hadd).2 h₂
        · rw [hm'] at h₂
          cases h₂
          exact writesLast_nil

/-- Enqueueing a unique job writes once, at the end of all its steps. -/
theorem enqueueOne_writesLast {e : JobEnvelope} (hu : e.jobMeta.unique = true)
    {q : Prog Request (World γ) Choice (Except OxanaError JobId)}
    (h : Prog.Trace (enqueueOne K e destination : Call γ JobId) tr q) : WritesLast K tr := by
  rcases trace_connection h with rfl | h
  · exact writesLast_nil
  refine .bind_pure h fun tr p h => ?_
  have hchunk : (enqueueChunk K [e] destination [] : Call γ (List JobId)) =
      (enqueueUnique K destination (pendingOf [] [e] []) >>= fun new => pure (new ++ [])) := by
    simp only [enqueueChunk]
    rw [if_neg (by simp [hu])]
  rw [hchunk] at h
  refine .bind_pure h fun tr p h => ?_
  simp only [enqueueUnique] at h
  split at h
  · cases h
    exact writesLast_nil
  refine .bind_reads h (readSnapshots_always (G := fun _ w w' => w' = w) (fun _ _ _ => rfl)
    (nodup_replacementIds _ []).1) fun m tr hm h => ?_
  refine .bind_reads h (readExisting_always (G := fun _ w w' => w' = w) (fun _ _ _ => rfl) _)
    fun existing tr _ h => ?_
  simp only [enqueuePending] at h
  split at h
  · cases h
    exact writesLast_nil
  · cases h with
    | refl => exact writesLast_nil
    | ask h =>
      refine enqueueLoop_writesLast ?_ hm h
      exact (covered_replacementIds _ _ []).mono fun id h => h.resolve_right List.not_mem_nil

end Last

/-! ## One envelope -/

section Envelope

variable {s : Store} {e : JobEnvelope}

/-- Making room for a job takes it from its old place, and changes nothing of another job. -/
theorem Changes.displaced (hs : StoreTyped K s) {old : String} (hq : K.Plain e.queue)
    (hold : K.Plain old) (hstored : storedQueue K s e.id = some old) :
    Changes K s e.id
      (fun v => (((v.exit .schedule).exit .retry).exit (.ready old)).exit (.ready e.queue))
      (displace K e s) := by
  have h₁ := Changes.unsetScore e.id (l := .schedule) hs trivial rfl
  have h₂ := Changes.unsetScore e.id (l := .retry) h₁.typed trivial rfl
  have h₃ := Changes.filter e.id (l := .ready old) h₂.typed hold rfl
  have h₄ := Changes.filter e.id (l := .ready e.queue) h₃.typed hq rfl
  rw [displace, hstored]
  exact ((h₁.trans h₂).trans h₃).trans h₄

/-- What is stored for each job once an envelope is placed: its own payload, and for others what was
there. -/
theorem payloadOf_placed (hq : K.Plain e.queue) (destination : JobDestination) (id : JobId) :
    payloadOf K.jobs (place K destination e (record K e s)) id =
      if id = e.id then some e.encode else payloadOf K.jobs s id := by
  have hplace : payloadOf K.jobs (place K destination e (record K e s)) id =
      payloadOf K.jobs (record K e s) id := by
    cases destination with
    | queue => exact payloadOf_put_ne (StorageKeys.queue_ne_fixed hq).1.symm
    | schedule => exact payloadOf_put_ne StorageKeys.jobs_ne_schedule
  rw [hplace, payloadOf_record]

end Envelope

/-! ## Producers at work -/

/-- Clients that are producers of unique jobs on plain queues, whatever their strategy, for one job
or for a list. -/
inductive Enqueues (K : StorageKeys) :
    World Unit → Unit → Prog Request (World Unit) Choice Unit → World Unit → Prop
  /-- `enqueue` -/
  | enqueue {w : World Unit} {e : JobEnvelope} : e.jobMeta.unique = true → K.Plain e.queue →
      Enqueues K w () (Call.client (enqueue K e)) w
  /-- `enqueue_at` -/
  | enqueueAt {w : World Unit} {e : JobEnvelope} : e.jobMeta.unique = true → K.Plain e.queue →
      Enqueues K w () (Call.client (enqueueAt K e)) w
  /-- `enqueue_list` -/
  | enqueueList {w : World Unit} {es : List JobEnvelope} :
      (∀ e ∈ es, e.jobMeta.unique = true ∧ K.Plain e.queue) →
      Enqueues K w () (Call.client (enqueueList K es)) w

/-- Time passes, and nothing else happens. -/
inductive TimePasses : Pool Unit Request (World Unit) Choice → World Unit → Prop
  /-- the clock is set -/
  | clock {c : Pool Unit Request (World Unit) Choice} (t : Int) :
      TimePasses c { c.world with clock := t }

/-- A step of some producer of unique jobs. -/
def EnqueueStep (K : StorageKeys) (l : Request) (w w' : World γ) : Prop :=
  ∃ destination, ∃ es : List JobEnvelope, (∀ e ∈ es, e.jobMeta.unique = true ∧ K.Plain e.queue) ∧
    Processes K destination es l w w'

/-- What placing an envelope keeps, the steps of producers of unique jobs keep. -/
theorem EnqueueStep.keeps {I : Store → Prop} (h : EnqueueStep K l w w')
    (hI : ∀ destination s e, e.jobMeta.unique = true → K.Plain e.queue → I s →
      I (enqueueSpec K destination s e)) (hw : I w.store) : I w'.store := by
  obtain ⟨destination, es, hes, hstep⟩ := h
  exact hstep.keeps (fun s e he => hI destination s e (hes e he).1 (hes e he).2) hw

/-- Every step of the call is one of a producer of unique jobs. -/
abbrev Enqueuing {α : Type} (K : StorageKeys) (x : Call γ α) : Prop :=
  Call.Always (fun _ w => Valid K w.store) (EnqueueStep K) (fun _ => True) x

theorem Places.enqueuing {α : Type} {x : Call γ α} (h : Places K destination es (fun _ => True) x)
    (hes : ∀ e ∈ es, e.jobMeta.unique = true ∧ K.Plain e.queue) : Enqueuing K x :=
  Always.weaken h (fun _ _ hw => hw) fun _ _ _ _ hstep => ⟨destination, es, hes, hstep⟩

theorem enqueueOne_enqueuing {e : JobEnvelope} (hu : e.jobMeta.unique = true)
    (hq : K.Plain e.queue) (destination : JobDestination) :
    Enqueuing (γ := γ) K (enqueueOne K e destination) := by
  refine (enqueueOne_places hu destination).enqueuing fun e' he => ?_
  rw [List.mem_singleton.mp he]
  exact ⟨hu, hq⟩

theorem enqueueAt_enqueuing {e : JobEnvelope} (hu : e.jobMeta.unique = true)
    (hq : K.Plain e.queue) : Enqueuing (γ := γ) K (enqueueAt K e) := by
  refine (Always.now (Q := fun _ => True) (fun w _ => ?_) fun _ _ => trivial).bind fun t _ => ?_
  · exact ⟨.queue, [], fun _ h => absurd h List.not_mem_nil, .reads⟩
  · split
    · exact enqueueOne_enqueuing hu hq .queue
    · exact enqueueOne_enqueuing hu hq .schedule

theorem enqueues_enqueuing {w w' : World Unit} {o : Unit}
    {p : Prog Request (World Unit) Choice Unit} (h : Enqueues K w o p w') : w' = w ∧
      Prog.Always (fun _ w => Valid K w.store) (EnqueueStep K) (fun _ => True) p := by
  have hclient : ∀ {α : Type} {x : Call Unit α}, Enqueuing K x →
      Prog.Always (fun _ w => Valid K w.store) (EnqueueStep K) (fun _ => True) (Call.client x) :=
    fun h => Prog.Always.bind h fun _ _ => trivial
  cases h with
  | enqueue hu hq => exact ⟨rfl, hclient (enqueueOne_enqueuing hu hq .queue)⟩
  | enqueueAt hu hq => exact ⟨rfl, hclient (enqueueAt_enqueuing hu hq)⟩
  | enqueueList hes =>
    exact ⟨rfl, hclient ((enqueueList_places fun e he => (hes e he).1).enqueuing hes)⟩

/-- Amid producers, what their steps keep stays true while a call only reads. -/
theorem producers_later {α : Type} {p p' : Prog Request (World Unit) Choice α}
    {c c' : Pool Unit Request (World Unit) Choice} {tr tr' : List (Prog.Event Request (World Unit))}
    {e : Prog.Event Request (World Unit)} {I : Store → Prop} (hvalid : ∀ s, I s → Valid K s)
    (hkeep : ∀ l (w w' : World Unit), I w.store → EnqueueStep K l w w' → I w'.store)
    (h : Amid (Enqueues K) TimePasses p c (tr ++ e :: tr') p' c') (hw : I c.world.store)
    (hc : c.All (fun _ w => Valid K w.store) (EnqueueStep K)) (htr : ∀ e ∈ tr, e.post = e.pre) :
    I e.pre.store ∧ ∃ p₁ c₁, c₁.world = e.post ∧
      c₁.All (fun _ w => Valid K w.store) (EnqueueStep K) ∧
      Amid (Enqueues K) TimePasses p₁ c₁ tr' p' c' := by
  refine Amid.later (I := fun w => I w.store) (fun _ w hI => hvalid w.store hI)
    (fun l w w' hI hstep => hkeep l w w' hI hstep) (fun w o p w' hI hstart => ?_) ?_ h hw hc
    fun e he hI => ?_
  · obtain ⟨rfl, hp⟩ := enqueues_enqueuing hstart
    exact ⟨hI, hp⟩
  · rintro c w' hI ⟨t⟩
    exact hI
  · rw [htr e he]
    exact hI

/-- The steps of enqueueing the sample job where it is not stored. -/
theorem welcome_enqueued {w : World Unit}
    (hfound : (hexists (StorageKeys.new "").jobs "b" w.store).1 = .ok false)
    (hcall : (enqueueCall (.new "") .queue [] [welcome "b"] w.store).1 = .ok ⟨[], [.enqueued]⟩) :
    Call.Returns (enqueue (.new "") (welcome "b")) [⟨.hexists, w, w⟩,
      ⟨.enqueue ["b"], w, w.after (enqueueCall (.new "") .queue [] [welcome "b"])⟩] "b" := by
  have hpipe := Call.Returns.pipe_cons (l := .hexists) w hfound .pipe_nil
  rw [World.after_read (hexists_snd ..)] at hpipe
  have hlook : Call.Returns (readExisting (.new "") ["b"]) [⟨.hexists, w, w⟩] [] :=
    hpipe.bind (.pure _)
  have hloop : Call.Returns (enqueuePending (.new "") .queue [] [welcome "b"])
      [⟨.enqueue ["b"], w, w.after (enqueueCall (.new "") .queue [] [welcome "b"])⟩] ["b"] :=
    .ask Call.fine ((Call.Returns.send w hcall).bind (.pure _))
  have hunique : Call.Returns (enqueueUnique (.new "") .queue [welcome "b"]) _ ["b"] :=
    Call.Returns.pure_bind (hlook.bind hloop)
  have hchunk : Call.Returns (enqueueChunk (.new "") [welcome "b"] .queue []) [⟨.hexists, w, w⟩,
      ⟨.enqueue ["b"], w, w.after (enqueueCall (.new "") .queue [] [welcome "b"])⟩] ["b"] := by
    simp only [enqueueChunk]
    rw [if_neg (by decide)]
    exact hunique.bind (.pure _)
  exact Call.Returns.connection.bind (hchunk.bind (.pure _))

end Oxana
