import Oxana.Deletion
import Oxana.ExactlyOnce

/-!
# Wiping a queue while it is filled

`wipe_queue` lists the ids that are ready, drops their payloads and deletes the
list, in three steps. What is pushed between the first and the last of them
leaves the list with its payload still stored, and is nowhere then
(`wipe_orphans`). `wipeQueue_clean_iff` says when this does not happen.
-/

namespace Oxana

open Redis Script Interleave Call

variable {γ : Type} {K : StorageKeys} {queue : String} {s s' : Store}

/-- `wipe_queue`: the ids of the list are read, their payloads dropped, and the list deleted. -/
def wipeQueue (K : StorageKeys) (queue : String) : Call γ Unit := do
  connection
  let jobIds ← send .lrange (lrange (K.namespaceQueue queue))
  if jobIds ≠ [] then do
    let _ ← pipelined [(.hdel, hdel K.jobs jobIds), (.del, del (K.namespaceQueue queue))]
    pure ()
  else send .del (del (K.namespaceQueue queue))

/-! ## What its steps do -/

section Steps

variable {tr : List (Prog.Event Request (World γ))}

/-- The steps of the call: it lists the ids, drops their payloads if there are
any, and deletes the list. -/
theorem wipeQueue_trace {x : Prog Request (World γ) Choice (Except OxanaError Unit)}
    (h : Prog.Trace (wipeQueue K queue : Call γ Unit) tr x) :
    tr = [] ∨ ∃ w tr', tr = ⟨.lrange, w, w⟩ :: tr' ∧ (tr' = [] ∨
      (w.store.list (K.namespaceQueue queue) = [] ∧
        ∃ w', tr' = [⟨.del, w', w'.after (del (K.namespaceQueue queue))⟩]) ∨
      ∃ w' rest, tr' = ⟨.hdel, w', w'.after (hdel K.jobs
          (w.store.list (K.namespaceQueue queue)))⟩ :: rest ∧
        (rest = [] ∨ ∃ w'', rest = [⟨.del, w'', w''.after (del (K.namespaceQueue queue))⟩])) := by
  rcases trace_connection h with rfl | h
  · exact .inl rfl
  rcases trace_bind h with ⟨p, hp⟩ | ⟨jobIds, tr₁, tr₂, rfl, h₁, h₂⟩
  · rcases trace_send hp with rfl | ⟨w, rfl⟩
    · exact .inl rfl
    · rw [World.after_read (lrange_snd ..)]
      exact .inr ⟨w, [], rfl, .inl rfl⟩
  obtain ⟨w, rfl, hreply⟩ := Returns.send_inv h₁
  obtain ⟨-, rfl⟩ := onKind_inv hreply
  rw [World.after_read (lrange_snd ..)]
  refine .inr ⟨w, tr₂, rfl, ?_⟩
  split at h₂
  · have hpipe : ∃ p, Prog.Trace (pipelined [(.hdel, hdel K.jobs (w.store.list
        (K.namespaceQueue queue))), (.del, del (K.namespaceQueue queue))] : Call γ _) tr₂ p := by
      rcases trace_bind h₂ with ⟨p, hp⟩ | ⟨_, tr₃, tr₄, rfl, h₃, h₄⟩
      · exact ⟨p, hp⟩
      · cases h₄
        rw [List.append_nil]
        exact ⟨_, h₃⟩
    obtain ⟨p, hp⟩ := hpipe
    have hevents := trace_pipelined hp
    rcases tr₂ with _ | ⟨_, tr₂⟩
    · exact .inl rfl
    · obtain ⟨⟨w', rfl⟩, hrest⟩ := List.forall₂_cons.mp hevents
      refine .inr (.inr ⟨w', tr₂, rfl, ?_⟩)
      rcases tr₂ with _ | ⟨_, tr₂⟩
      · exact .inl rfl
      · obtain ⟨⟨w'', rfl⟩, hnone⟩ := List.forall₂_cons.mp hrest
        rw [List.take_nil, List.forall₂_nil_left_iff] at hnone
        rw [hnone]
        exact .inr ⟨w'', rfl⟩
  · next hnil =>
    rcases trace_send h₂ with rfl | ⟨w', rfl⟩
    · exact .inl rfl
    · exact .inr (.inl ⟨not_not.mp hnil, w', rfl⟩)

end Steps

/-! ## Producers -/

/-- What is stored are envelopes for plain queues, and the keys have their types. -/
structure Readable (K : StorageKeys) (s : Store) : Prop where
  /-- the keys have their types -/
  typed : StoreTyped K s
  /-- they can be read, and name a queue -/
  good : ∀ id p, payloadOf K.jobs s id = some p → ∃ e, JobEnvelope.decode p = some e ∧
    K.Plain e.queue

/-- Except for some ids, what is stored stays so, and what comes to the ready
list is stored. -/
def Supplied (K : StorageKeys) (queue : String) (L : List JobId) (s s' : Store) : Prop :=
  ∀ id, id ∉ L → (payloadOf K.jobs s id ≠ none → payloadOf K.jobs s' id ≠ none) ∧
    (id ∈ s'.list (K.namespaceQueue queue) →
      id ∈ s.list (K.namespaceQueue queue) ∨ payloadOf K.jobs s' id ≠ none)

variable {L : List JobId} {id : JobId}

theorem Supplied.refl (s : Store) : Supplied K queue L s s := fun _ _ => ⟨fun h => h, .inl⟩

theorem Supplied.trans {s'' : Store} (h : Supplied K queue L s s')
    (h' : Supplied K queue L s' s'') : Supplied K queue L s s'' := by
  intro id hid
  refine ⟨fun hp => (h' id hid).1 ((h id hid).1 hp), fun hmem => ?_⟩
  rcases (h' id hid).2 hmem with hmem' | hp
  · rcases (h id hid).2 hmem' with hmem'' | hp
    · exact .inl hmem''
    · exact .inr ((h' id hid).1 hp)
  · exact .inr hp

/-- A change of one job that is stored afterwards supplies the queue, if anything. -/
theorem Changes.supplied (hs : StoreTyped K s) (hq : K.Plain queue) {f : JobView → JobView}
    (hch : Changes K s id f s') (hid : id ∉ L → payloadOf K.jobs s' id ≠ none) :
    Supplied K queue L s s' := by
  intro id' hid'
  by_cases heq : id' = id
  · subst heq
    exact ⟨fun _ => hid hid', fun _ => .inr (hid hid')⟩
  · have hview := hch.ne heq
    have hocc : occ K s' id' = occ K s id' := congrArg JobView.places hview
    have hpay : payloadOf K.jobs s' id' = payloadOf K.jobs s id' := congrArg JobView.payload hview
    refine ⟨fun hp => hpay ▸ hp, fun hmem => .inl ?_⟩
    rw [hch.typed.mem_ready hq, hocc] at hmem
    exact (hs.mem_ready hq).mpr hmem

/-- A change of one job leaves envelopes if it leaves one for that job. -/
theorem Readable.change (h : Readable K s) {f : JobView → JobView} (hch : Changes K s id f s')
    (hid : ∀ p, payloadOf K.jobs s' id = some p → ∃ e, JobEnvelope.decode p = some e ∧
      K.Plain e.queue) : Readable K s' := by
  refine ⟨hch.typed, fun id' p hp => ?_⟩
  by_cases heq : id' = id
  · subst heq
    exact hid p hp
  · have hpay : payloadOf K.jobs s' id' = payloadOf K.jobs s id' :=
      congrArg JobView.payload (hch.ne heq)
    exact h.good id' p (hpay.symm.trans hp)

theorem Readable.valid (h : Readable K s) : Valid K s := by
  intro id p hp
  obtain ⟨e, hdec, -⟩ := h.good id p hp
  rw [hdec]
  rfl

/-- The call supplies the ready list, and relies on the world not to lose what
it has stored. -/
abbrev Supplies (K : StorageKeys) (queue : String) (L : List JobId) {α : Type} (w : World γ)
    (x : Prog Request (World γ) Choice α) : Prop :=
  Prog.Extends (fun w => Readable K w.store) (fun w w' => Supplied K queue L w.store w'.store) w x

theorem Supplies.bind {α β : Type} {w : World γ} {x : Call γ α} {f : α → Call γ β}
    (hx : Supplies K queue L w x)
    (hf : ∀ a w', Supplied K queue L w.store w'.store → Supplies K queue L w' (f a)) :
    Supplies K queue L w (x >>= f : Call γ β) := by
  refine Prog.Extends.bind (fun _ => .refl _) (fun _ _ _ h h' => h.trans h') hx fun r w' hw' => ?_
  cases r with
  | ok a => exact hf a w' hw'
  | error e => trivial

theorem Supplies.connection (w : World γ) : Supplies K queue L w connection := by
  intro c
  by_cases hc : c.delivery = .answered
  · simp only [if_pos hc]
    trivial
  · simp only [if_neg hc]
    trivial

/-- A command of a pipeline supplies the queue, and so does the rest of it. -/
theorem Supplies.pipe_cons {α : Type} {l : Request} {x : Script α} {xs : List (Script α)}
    {w : World γ} (h : ∀ w' : World γ, Readable K w'.store → Supplied K queue L w.store w'.store →
      (Readable K (w'.after x).store ∧ Supplied K queue L w'.store (w'.after x).store) ∧
        Supplies K queue L (w'.after x) (pipe l xs : Call γ _)) :
    Supplies K queue L w (pipe l (x :: xs) : Call γ _) := by
  have hgo : Supplies K queue L w (execute l x fun r => catching (pipe l xs) fun rs =>
      Prog.ret (joinReplies r rs) : Call γ (List α)) := by
    intro w' hvalid hgrows
    obtain ⟨hstep, hrest⟩ := h w' hvalid hgrows
    exact ⟨hstep, Prog.Extends.bind (fun _ => .refl _) (fun _ _ _ h h' => h.trans h') hrest
      fun _ _ _ => trivial⟩
  intro c
  rcases hc : c.delivery with _ | _ | _
  · simp only [hc]
    trivial
  · simp only [hc]
    exact hgo
  · simp only [hc]
    exact hgo

/-- Steps that place envelopes by their specification supply the queue, whatever they find. -/
theorem Supplies.of_places {α : Type} {destination : JobDestination} {es : List JobEnvelope}
    {Q : α → Prop} {x : Call γ α} (hq : K.Plain queue) (h : Places K destination es Q x)
    (hes : ∀ e ∈ es, K.Plain e.queue) (w : World γ) : Supplies K queue L w x := by
  refine Prog.Always.extends (Call.Always.weaken h (fun _ w hw => hw.valid)
    fun _ w₁ w₂ hw hstep => ?_) w
  refine hstep.keeps (I := fun s => Readable K s ∧ Supplied K queue L w₁.store s)
    (fun s e he hs => ?_) ⟨hw, .refl _⟩
  rcases enqueueSpec_changes hs.1.typed (hs.1.good e.id) (hes e he) destination with
    hsame | ⟨f, hch, hself⟩
  · rwa [hsame]
  · refine ⟨hs.1.change hch fun p hp => ?_, hs.2.trans (hch.supplied hs.1.typed hq fun _ => ?_)⟩
    · obtain rfl := Option.some.inj (hself.symm.trans hp)
      exact ⟨e.normalize, decode_encode e, hes e he⟩
    · rw [hself]
      exact Option.some_ne_none _

/-- The writes for an ordinary job are two: it is stored, and then placed. -/
theorem ordinaryWrites_eq {e : JobEnvelope} (destination : JobDestination)
    (hq : K.Plain e.queue) :
    ∃ x, ordinaryWrites K destination e = [hset K.jobs e.id e.encode, x] ∧
      ∀ s, StoreTyped K s → (x s).2 = place K destination e s := by
  cases destination with
  | queue =>
    refine ⟨lpush (K.namespaceQueue e.queue) e.id, rfl, fun s hs => ?_⟩
    exact congrArg Prod.snd (lpush_ok (hs.places (.ready e.queue) hq) e.id)
  | schedule =>
    refine ⟨zadd K.schedule e.jobMeta.scheduledAt.toInt e.id, rfl, fun s hs => ?_⟩
    exact congrArg Prod.snd (zadd_ok (hs.places .schedule trivial) _ e.id)

/-- The pipeline of ordinary jobs relies on what it has stored itself. -/
theorem ordinaryWrites_supplies (hq : K.Plain queue) (destination : JobDestination)
    {es : List JobEnvelope} (hes : ∀ e ∈ es, K.Plain e.queue) (w : World γ) :
    Supplies K queue L w
      (pipe .hset (es.flatMap (ordinaryWrites K destination)) : Call γ (List Unit)) := by
  induction es generalizing w with
  | nil =>
    intro c
    rcases hc : c.delivery with _ | _ | _ <;> simp only [hc] <;> trivial
  | cons e es ih =>
    have hplain := hes e (List.mem_cons_self ..)
    obtain ⟨x, hwrites, hx⟩ := ordinaryWrites_eq (K := K) destination hplain
    rw [List.flatMap_cons, hwrites]
    refine .pipe_cons fun w₁ hw₁ _ => ?_
    have hset : (w₁.after (hset K.jobs e.id e.encode)).store = record K e w₁.store := by
      rw [World.after, hset_ok hw₁.typed.jobs]
      rfl
    have hch₁ := Changes.setField e.id hw₁.typed e.encode
    have hstored : payloadOf K.jobs (record K e w₁.store) e.id = some e.encode := by
      rw [payloadOf_record, if_pos rfl]
    refine ⟨?_, .pipe_cons fun w₂ hw₂ hgrown => ?_⟩
    · rw [hset]
      refine ⟨hw₁.change hch₁ fun p hp => ?_, hch₁.supplied hw₁.typed hq fun _ => ?_⟩
      · obtain rfl := Option.some.inj (hstored.symm.trans hp)
        exact ⟨e.normalize, decode_encode e, hplain⟩
      · show payloadOf K.jobs (record K e w₁.store) e.id ≠ none
        rw [hstored]
        exact Option.some_ne_none _
    · rw [hset] at hgrown
      have hplace : (w₂.after x).store = place K destination e w₂.store := hx w₂.store hw₂.typed
      obtain ⟨f, hch₂, hf⟩ := Changes.placed_frame hw₂.typed hplain destination
      have hpay : payloadOf K.jobs (place K destination e w₂.store) e.id =
          payloadOf K.jobs w₂.store e.id := (congrArg JobView.payload hch₂.eq).trans (hf _).1
      refine ⟨?_, ih (fun e' he' => hes e' (List.mem_cons_of_mem _ he')) _⟩
      rw [hplace]
      refine ⟨hw₂.change hch₂ fun p hp => hw₂.good e.id p (hpay.symm.trans hp),
        hch₂.supplied hw₂.typed hq fun hid => ?_⟩
      -- the pipeline has stored the payload before
      rw [hpay]
      refine (hgrown e.id hid).1 ?_
      rw [hstored]
      exact Option.some_ne_none _

theorem enqueueChunk_supplies (hq : K.Plain queue) (destination : JobDestination)
    {es : List JobEnvelope} (hes : ∀ e ∈ es, K.Plain e.queue) (written : List JobId) (w : World γ) :
    Supplies K queue L w (enqueueChunk K es destination written : Call γ (List JobId)) := by
  simp only [enqueueChunk]
  split
  · exact (ordinaryWrites_supplies hq destination hes w).bind fun _ _ _ => trivial
  · exact (Supplies.of_places hq ((enqueueUnique_places _).subset fun e he => mem_of_mem_pendingOf he)
      hes w).bind fun _ _ _ => trivial

theorem enqueueOne_supplies (hq : K.Plain queue) {e : JobEnvelope} (he : K.Plain e.queue)
    (destination : JobDestination) (w : World γ) :
    Supplies K queue L w (enqueueOne K e destination : Call γ JobId) := by
  refine (Supplies.connection w).bind fun _ w' _ =>
    (enqueueChunk_supplies hq destination (fun e' he' => ?_) [] w').bind fun _ _ _ => trivial
  rw [List.mem_singleton.mp he']
  exact he

theorem enqueueChunks_supplies (hq : K.Plain queue) (destination : JobDestination)
    {cs : List (List JobEnvelope)} (hcs : ∀ c ∈ cs, ∀ e ∈ c, K.Plain e.queue)
    (written : List JobId) (w : World γ) :
    Supplies K queue L w (enqueueChunks K destination cs written : Call γ Unit) := by
  induction cs generalizing written w with
  | nil => trivial
  | cons c cs ih =>
    refine (enqueueChunk_supplies hq destination (hcs c (List.mem_cons_self ..)) written w).bind
      fun written' w' _ => ?_
    exact ih (fun c' hc' => hcs c' (List.mem_cons_of_mem _ hc')) written' w'

/-- Clients that are producers of ordinary or of unique jobs on plain queues, which may enqueue at
any time. -/
inductive Enqueuers (K : StorageKeys) :
    World Unit → Unit → Prog Request (World Unit) Choice Unit → World Unit → Prop
  /-- `enqueue` -/
  | enqueue {w : World Unit} {e : JobEnvelope} : K.Plain e.queue →
      Enqueuers K w () (Call.client (enqueue K e)) w
  /-- `enqueue_at` -/
  | enqueueAt {w : World Unit} {e : JobEnvelope} : K.Plain e.queue →
      Enqueuers K w () (Call.client (enqueueAt K e)) w
  /-- `try_enqueue` -/
  | tryEnqueue {w : World Unit} {e : JobEnvelope} : K.Plain e.queue →
      Enqueuers K w () (Call.client (tryEnqueue K e)) w
  /-- `enqueue_list` -/
  | enqueueList {w : World Unit} {es : List JobEnvelope} : (∀ e ∈ es, K.Plain e.queue) →
      Enqueuers K w () (Call.client (enqueueList K es)) w

/-- Every producer supplies the queue, whatever it enqueues. -/
theorem enqueuers_supply (hq : K.Plain queue) {w w' : World Unit} {o : Unit}
    {p : Prog Request (World Unit) Choice Unit} (h : Enqueuers K w o p w') :
    w' = w ∧ Supplies K queue L w p := by
  have hclient : ∀ {α : Type} {x : Call Unit α}, Supplies K queue L w x →
      Supplies K queue L w (Call.client x) :=
    fun hx => Prog.Extends.bind (fun _ => .refl _) (fun _ _ _ h h' => h.trans h') hx
      fun _ _ _ => trivial
  cases h with
  | enqueue he => exact ⟨rfl, hclient (enqueueOne_supplies hq he .queue w)⟩
  | @enqueueAt e he =>
    refine ⟨rfl, hclient ?_⟩
    intro w' hw' _
    refine ⟨⟨hw', .refl _⟩, ?_⟩
    have hrest : ∀ t : Int, Supplies K queue L w' (if e.jobMeta.scheduledAt.toInt ≤ t
        then enqueue K e else enqueueOne K e .schedule : Call Unit JobId) := by
      intro t
      split
      · exact enqueueOne_supplies hq he .queue w'
      · exact enqueueOne_supplies hq he .schedule w'
    exact hrest w'.clock
  | tryEnqueue he =>
    refine ⟨rfl, hclient ((Supplies.connection w).bind fun _ w' _ =>
      (enqueueChunk_supplies hq .queue (fun e' he' => ?_) [] w').bind fun _ _ _ => trivial)⟩
    rw [List.mem_singleton.mp he']
    exact he
  | @enqueueList es hes =>
    refine ⟨rfl, hclient ?_⟩
    simp only [enqueueList]
    split
    · trivial
    · refine (Supplies.connection w).bind fun _ w' _ =>
        (enqueueChunks_supplies hq .queue (fun c hc e he => hes e ?_) [] w').bind
          fun _ _ _ => trivial
      rw [← flatten_enqueueListChunks es]
      exact List.mem_flatten.mpr ⟨c, hc, he⟩

/-- A move of the system supplies the queue, whoever makes it. -/
theorem enqueuers_step (hq : K.Plain queue) {c c' : Pool Unit Request (World Unit) Choice}
    (h : Pool.Step (Enqueuers K) TimePasses c c')
    (hc : c.Extending (fun w => Readable K w.store)
      fun w w' => Supplied K queue L w.store w'.store) :
    c'.Extending (fun w => Readable K w.store) (fun w w' => Supplied K queue L w.store w'.store) ∧
      Supplied K queue L c.world.store c'.world.store := by
  refine h.extends (fun _ => .refl _) (fun _ _ _ h h' => h.trans h') (fun w o p w' hw hstart => ?_)
    ?_ hc
  · obtain ⟨rfl, hp⟩ := enqueuers_supply hq hstart
    exact ⟨hw, .refl _, hp⟩
  · rintro c w' hw ⟨t⟩
    exact ⟨hw, .refl _⟩

/-! ## Orphans -/

/-- The step takes a job off the ready list of the queue, and its payload stays stored. -/
def Orphans (K : StorageKeys) (queue : String) (e : Prog.Event Request (World γ)) (id : JobId) :
    Prop :=
  id ∈ e.pre.store.list (K.namespaceQueue queue) ∧
    id ∉ e.post.store.list (K.namespaceQueue queue) ∧ payloadOf K.jobs e.post.store id ≠ none

/-- The step that lists the ids leaves no orphan, since it changes nothing. -/
theorem not_orphans_lrange (w : World γ) (id : JobId) : ¬ Orphans K queue ⟨.lrange, w, w⟩ id :=
  fun h => h.2.1 h.1

/-- The payloads of the listed ids are dropped, and nothing else changes. -/
structure Unstored (K : StorageKeys) (queue : String) (L : List JobId) (s s' : Store) : Prop where
  /-- what is stored are envelopes -/
  readable : Readable K s'
  /-- these are gone -/
  gone : ∀ id ∈ L, payloadOf K.jobs s' id = none
  /-- the others are not -/
  others : ∀ id, id ∉ L → payloadOf K.jobs s' id = payloadOf K.jobs s id
  /-- the list stays -/
  list : s'.list (K.namespaceQueue queue) = s.list (K.namespaceQueue queue)

theorem hdel_unstored (hs : Readable K s) (hq : K.Plain queue) (L : List JobId) :
    Unstored K queue L s (hdel K.jobs L s).2 := by
  have hrun : (hdel K.jobs L s).2 =
      s.put K.jobs (.hash (L.foldl (fun m f => unset f m) (s.hash K.jobs))) :=
    congrArg Prod.snd (onKind_ok hs.typed.jobs)
  have hpay : ∀ id, payloadOf K.jobs (hdel K.jobs L s).2 id =
      (L.foldl (fun m f => unset f m) (s.hash K.jobs)).lookup id := by
    intro id
    rw [hrun, payloadOf, Store.hash_put_self]
  have hothers : ∀ id, id ∉ L →
      payloadOf K.jobs (hdel K.jobs L s).2 id = payloadOf K.jobs s id := by
    intro id hid
    rw [hpay, lookup_foldl_unset hid, payloadOf]
  refine ⟨⟨?_, fun id p hp => ?_⟩, fun id hid => ?_, hothers, ?_⟩
  · rw [hrun]
    exact hs.typed.put_jobs _
  · by_cases hid : id ∈ L
    · rw [hpay, lookup_foldl_unset_mem hid] at hp
      cases hp
    · exact hs.good id p ((hothers id hid).symm.trans hp)
  · rw [hpay, lookup_foldl_unset_mem hid]
  · rw [hrun, Store.list_put_ne _ (StorageKeys.queue_ne_fixed hq).1]

theorem Unstored.supplied (h : Unstored K queue L s s') : Supplied K queue L s s' := by
  intro id hid
  rw [h.others id hid, h.list]
  exact ⟨fun hp => hp, .inl⟩

/-- The step that drops the payloads leaves no orphan: all the ids stay on the list for now. -/
theorem Unstored.not_orphans {w w' : World γ} (h : Unstored K queue L w.store w'.store)
    (l : Request) (id : JobId) : ¬ Orphans K queue ⟨l, w, w'⟩ id :=
  fun horphan => horphan.2.1 (h.list ▸ horphan.1)

/-- The list is deleted, and every other key is what it was. -/
theorem del_list (hq : K.Plain queue) (w : World γ) :
    (w.after (del (K.namespaceQueue queue))).store.list (K.namespaceQueue queue) = [] ∧
      ∀ id, payloadOf K.jobs (w.after (del (K.namespaceQueue queue))).store id =
        payloadOf K.jobs w.store id := by
  have hdrop : (w.after (del (K.namespaceQueue queue))).store =
      w.store.put (K.namespaceQueue queue) (.list []) := Store.drop_eq_put
  rw [hdrop]
  exact ⟨Store.list_put_self _, fun id => payloadOf_put_ne (StorageKeys.queue_ne_fixed hq).1.symm⟩

/-- The deletion of the list leaves no orphan exactly if no job on the list is stored at that time.
-/
theorem not_orphans_del_iff (hq : K.Plain queue) (w : World γ) :
    (∀ id, ¬ Orphans K queue ⟨.del, w, w.after (del (K.namespaceQueue queue))⟩ id) ↔
      ∀ id ∈ w.store.list (K.namespaceQueue queue), payloadOf K.jobs w.store id = none := by
  obtain ⟨hlist, hpay⟩ := del_list hq w
  refine forall_congr' fun id => ?_
  rw [Orphans, hlist, hpay]
  simp

section Wipe

variable {c c' : Pool Unit Request (World Unit) Choice}

/-- The system as the call meets it: `L` has been listed. -/
structure Filling (K : StorageKeys) (queue : String) (L : List JobId)
    (c : Pool Unit Request (World Unit) Choice) : Prop where
  /-- the producers -/
  supply : c.Extending (fun w => Readable K w.store)
    fun w w' => Supplied K queue L w.store w'.store
  /-- what has come since is stored -/
  stored : ∀ id, id ∉ L → id ∈ c.world.store.list (K.namespaceQueue queue) →
    payloadOf K.jobs c.world.store id ≠ none

/-- Every move of the system keeps what is known while the queue is wiped. -/
theorem Filling.step (hq : K.Plain queue) (h : Filling K queue L c)
    (hs : Pool.Step (Enqueuers K) TimePasses c c') : Filling K queue L c' := by
  obtain ⟨hsupply, hgrown⟩ := enqueuers_step hq hs h.supply
  refine ⟨hsupply, fun id hid hmem => ?_⟩
  rcases (hgrown id hid).2 hmem with hmem' | hp
  · exact (hgrown id hid).1 (h.stored id hid hmem')
  · exact hp

/-- The payloads of the listed ids are dropped, and what is known of the queue is known of them. -/
theorem Filling.unstored (h : Filling K queue L c) (w' : World Unit)
    (hw' : Unstored K queue L c.world.store w'.store) : Filling K queue L ⟨w', c.threads⟩ := by
  refine ⟨h.supply.grown (fun _ _ _ h h' => h.trans h') hw'.readable hw'.supplied,
    fun id hid hmem => ?_⟩
  rw [hw'.others id hid]
  exact h.stored id hid (hw'.list ▸ hmem)

variable {w w₀ : World Unit} {x : Prog Request (World Unit) Choice (Except OxanaError Unit)}
  {tr : List (Prog.Event Request (World Unit))}

/-- What the steps after the first one meet, whatever the producers have done meanwhile. -/
theorem wipeQueue_meets (hq : K.Plain queue) (hw : Readable K w.store)
    (h : Amid (Enqueuers K) TimePasses (wipeQueue K queue) (.idle w) (⟨.lrange, w₀, w₀⟩ :: tr) x c) :
    ∃ p threads, Filling K queue (w₀.store.list (K.namespaceQueue queue)) ⟨w₀, threads⟩ ∧
      Amid (Enqueuers K) TimePasses p ⟨w₀, threads⟩ tr x c := by
  obtain ⟨p, threads, hsupply, hrest⟩ := h.meets
    (P := fun c => c.Extending (fun w => Readable K w.store) fun w w' =>
      Supplied K queue (w₀.store.list (K.namespaceQueue queue)) w.store w'.store)
    (fun c c₁ hc hs => (enqueuers_step hq hs hc).1) (Pool.extending_idle hw)
  exact ⟨p, threads, ⟨hsupply, fun id hid hmem => absurd hmem hid⟩, hrest⟩

/-- Nothing has been listed: whatever is on the list has come since, and is stored. -/
theorem Filling.unlisted_iff (h : Filling K queue [] c) :
    (∀ id ∈ c.world.store.list (K.namespaceQueue queue),
        payloadOf K.jobs c.world.store id = none) ↔
      ∀ id ∈ c.world.store.list (K.namespaceQueue queue), id ∈ ([] : List JobId) := by
  constructor
  · intro hnone id hmem
    exact absurd (hnone id hmem) (h.stored id List.not_mem_nil hmem)
  · intro hlisted id hmem
    exact absurd (hlisted id hmem) List.not_mem_nil

/-- The payloads of the listed ids have been dropped, with `s` as the result. What is on the list now
has no payload exactly if it had been listed, and nothing has been stored for it since. -/
theorem Filling.dropped_iff (h : Filling K queue L c) (hs : ∀ id ∈ L, payloadOf K.jobs s id = none) :
    (∀ id ∈ c.world.store.list (K.namespaceQueue queue),
        payloadOf K.jobs c.world.store id = none) ↔
      ∀ id ∈ c.world.store.list (K.namespaceQueue queue),
        id ∈ L ∧ payloadOf K.jobs c.world.store id = payloadOf K.jobs s id := by
  constructor
  · intro hnone id hmem
    have hlisted : id ∈ L := by
      by_contra hid
      exact h.stored id hid hmem (hnone id hmem)
    exact ⟨hlisted, (hnone id hmem).trans (hs id hlisted).symm⟩
  · intro hsame id hmem
    obtain ⟨hlisted, heq⟩ := hsame id hmem
    exact heq.trans (hs id hlisted)

/-- **A wipe leaves no orphan**, amid producers of ordinary and unique jobs, if
and only if, when the list is deleted, it holds no other ids than those that
have been listed, and nothing has been stored for these since their payloads
were dropped. -/
theorem wipeQueue_clean_iff (hq : K.Plain queue) (hw : Readable K w.store)
    (h : Amid (Enqueuers K) TimePasses (wipeQueue K queue) (.idle w) tr x c) :
    (∀ e ∈ tr, ∀ id, ¬ Orphans K queue e id) ↔
      ∀ d ∈ tr, d.label = .del → ∀ id ∈ d.pre.store.list (K.namespaceQueue queue),
        (∀ l ∈ tr, l.label = .lrange → id ∈ l.pre.store.list (K.namespaceQueue queue)) ∧
        ∀ e ∈ tr, e.label = .hdel →
          payloadOf K.jobs d.pre.store id = payloadOf K.jobs e.post.store id := by
  rcases wipeQueue_trace h.trace with rfl | ⟨w₀, tr', rfl, htr⟩
  · simp
  obtain ⟨p, threads, hfill, hrest⟩ := wipeQueue_meets hq hw h
  rcases htr with rfl | ⟨hnil, w', rfl⟩ | ⟨w', rest, rfl, hlast⟩
  · -- only the list has been read
    simp [not_orphans_lrange]
  · -- nothing has been listed
    obtain ⟨p₁, threads₁, hfill₁, -⟩ := hrest.meets (fun c c₁ hc hs => hc.step hq hs) hfill
    have hiff := (hnil ▸ hfill₁).unlisted_iff
    simp only [List.forall_mem_cons, not_orphans_lrange, not_orphans_del_iff hq, hnil]
    simpa using hiff
  · obtain ⟨p₁, threads₁, hfill₁, hrest₁⟩ := hrest.meets (fun c c₁ hc hs => hc.step hq hs) hfill
    have hunstored := hdel_unstored hfill₁.supply.world hq (w₀.store.list (K.namespaceQueue queue))
    have hdrop : ∀ id, ¬ Orphans K queue ⟨.hdel, w', w'.after (Redis.hdel K.jobs
        (w₀.store.list (K.namespaceQueue queue)))⟩ id := fun id => hunstored.not_orphans .hdel id
    rcases hlast with rfl | ⟨w'', rfl⟩
    · -- the list is not deleted
      simp [not_orphans_lrange, hdrop]
    · obtain ⟨p₂, threads₂, hfill₂, -⟩ := hrest₁.meets (fun c c₁ hc hs => hc.step hq hs)
        (hfill₁.unstored (w'.after _) hunstored)
      have hiff := hfill₂.dropped_iff (s := (w'.after (Redis.hdel K.jobs
        (w₀.store.list (K.namespaceQueue queue)))).store) hunstored.gone
      simp only [List.forall_mem_cons, not_orphans_lrange, hdrop, not_orphans_del_iff hq]
      simpa using hiff

end Wipe

/-! ## A queue that is filled while it is wiped -/

theorem HomeInv.readable (h : HomeInv K s) : Readable K s := by
  refine ⟨h.typed, fun id p hp => ?_⟩
  obtain ⟨e, l, hdec, -, hq, -⟩ := h.stored hp
  exact ⟨e, hdec, hq⟩

theorem welcomed_readable : Readable (.new "") welcomed.store := by
  obtain ⟨c, hc, hw⟩ := welcomed_reachable
  rw [← hw]
  exact (homeInv_kept.reachable hc homeInv_empty).readable

/-- The list is read, and the ids are those that are on it. -/
theorem wipe_reads {w : World Unit} (jobIds : List JobId)
    (h : lrange ((StorageKeys.new "").namespaceQueue "mail") w.store = (.ok jobIds, w.store)) :
    Prog.Trace (wipeQueue (.new "") "mail") [⟨.lrange, w, w⟩]
      (if jobIds ≠ [] then do
          let _ ← pipelined [(.hdel, hdel (StorageKeys.new "").jobs jobIds),
            (.del, del ((StorageKeys.new "").namespaceQueue "mail"))]
          pure ()
        else send .del (del ((StorageKeys.new "").namespaceQueue "mail")) : Call Unit Unit) := by
  have hsend := Call.Returns.send (l := .lrange) w (congrArg Prod.fst h)
  rw [World.after_read (lrange_snd ..)] at hsend
  exact show Prog.Trace _ ([] ++ ([_] ++ [])) _ from
    Prog.Trace.bind Call.Returns.connection (Prog.Trace.bind hsend (.refl _))

/-- The world in which `b` is gone, when nobody has interfered. -/
def emptied : World Unit := welcomed.after (hdel (StorageKeys.new "").jobs ["b"])

/-- Nobody interferes: the job on the list loses its payload and then its place, and no step leaves
it on the list without a payload. -/
theorem wipe_clean : ∃ tr x c, Amid (Enqueuers (.new "")) TimePasses (wipeQueue (.new "") "mail")
      (.idle welcomed) tr x c ∧ tr.length = 3 ∧
      ∀ e ∈ tr, ∀ id, ¬ Orphans (.new "") "mail" e id := by
  have hreads := wipe_reads (w := welcomed) ["b"] rfl
  rw [if_pos (by simp)] at hreads
  have hdels : Call.Returns (do
      let _ ← pipelined [(.hdel, hdel (StorageKeys.new "").jobs ["b"]),
        (.del, del ((StorageKeys.new "").namespaceQueue "mail"))]
      pure () : Call Unit Unit)
      [⟨.hdel, welcomed, emptied⟩, ⟨.del, emptied, emptied.after _⟩] () :=
    (Call.Returns.pipelined_cons welcomed rfl
      (.pipelined_cons emptied rfl .pipelined_nil)).bind (.pure ())
  have hrun : Amid (Enqueuers (.new "")) TimePasses (wipeQueue (.new "") "mail") (.idle welcomed)
      ([⟨.lrange, welcomed, welcomed⟩] ++ ([⟨.hdel, welcomed, emptied⟩,
        ⟨.del, emptied, emptied.after _⟩] ++ [])) _ _ :=
    Amid.steps hreads ⟨rfl, rfl⟩ (Amid.steps hdels ⟨rfl, rfl, rfl⟩ (.refl _ _))
  refine ⟨_, _, _, hrun, rfl, (wipeQueue_clean_iff (by decide) welcomed_readable hrun).mpr
    fun d hd hl id hmem => ?_⟩
  rcases List.mem_cons.mp hd with rfl | hd
  · cases hl
  rcases List.mem_cons.mp hd with rfl | hd
  · cases hl
  obtain rfl := List.mem_singleton.mp hd
  refine ⟨fun l hl₁ hl₂ => ?_, fun e he hl => ?_⟩
  · rcases List.mem_cons.mp hl₁ with rfl | hl₁
    · exact hmem
    rcases List.mem_cons.mp hl₁ with rfl | hl₁
    · cases hl₂
    · rw [List.mem_singleton.mp hl₁] at hl₂
      cases hl₂
  · rcases List.mem_cons.mp he with rfl | he
    · cases hl
    rcases List.mem_cons.mp he with rfl | he
    · rfl
    · rw [List.mem_singleton.mp he] at hl
      cases hl

/-- The queue is empty when it is listed. Then `b` is enqueued, and taken off
again with the list. -/
theorem wipe_orphans : ∃ tr x c, ∃ e ∈ tr,
    Amid (Enqueuers (.new "")) TimePasses (wipeQueue (.new "") "mail") (.idle bare) tr x c ∧
      Readable (.new "") bare.store ∧ Orphans (.new "") "mail" e "b" := by
  have hlaunch : Enqueuers (.new "") bare () (Call.client (enqueue (.new "") (welcome "b"))) bare :=
    .enqueue (by decide)
  have hclient : Prog.Trace (Call.client (enqueue (.new "") (welcome "b")))
      [⟨.hexists, bare, bare⟩, ⟨.enqueue ["b"], bare, welcomed⟩] (.ret ()) :=
    Prog.Trace.bind (welcome_enqueued rfl rfl) (.refl _)
  have hreads := wipe_reads (w := bare) [] rfl
  rw [if_neg (by simp)] at hreads
  have hdels : Call.Returns (send .del (del ((StorageKeys.new "").namespaceQueue "mail")) :
      Call Unit Unit) [⟨.del, welcomed, welcomed.after _⟩] () := .send welcomed rfl
  refine ⟨_, _, _, ⟨.del, welcomed, _⟩, List.mem_append_right _ (List.mem_singleton_self _),
    Amid.steps hreads ⟨rfl, rfl⟩ (.others (.launch (i := 0) rfl hlaunch)
      (Amid.others_steps (Pool.steps_of_trace (i := 0) (o := ()) rfl hclient ⟨rfl, rfl, rfl⟩)
        (Amid.steps hdels ⟨rfl, rfl⟩ (.refl _ _)))), ⟨storeTyped_empty, fun _ _ hp => by cases hp⟩,
    by decide +kernel, by decide +kernel, by decide +kernel⟩

end Oxana
