import Oxana.ProducerCustody
import Oxana.Deletion

/-!
# Two ways to enqueue ordinary jobs

A chunk without unique jobs is not enqueued by the script but by a pipeline of
plain commands, which are executed to the end whatever becomes of the earlier
ones. As long as all keys are usable the two do the same. Where a key is not,
the script refuses the whole chunk, while the pipeline still makes all writes
that it can.

`enqueueChunk_agrees_iff` says exactly when the two agree all the same. Stores
are compared as clients see them (`Store.Same`).
-/

namespace Oxana

open Redis Script Interleave Call

variable {γ : Type} {K : StorageKeys} {destination : JobDestination} {s : Store}
  {es : List JobEnvelope} {e : JobEnvelope}

/-- The key of the list or of the set where an envelope is placed. -/
abbrev JobEnvelope.placeKey (e : JobEnvelope) (K : StorageKeys) (destination : JobDestination) :
    Key := (e.loc destination).key K

/-- All keys of a chunk are usable: they are absent or have their types, and no
destination is the jobs hash. -/
structure Usable (K : StorageKeys) (destination : JobDestination) (s : Store)
    (es : List JobEnvelope) : Prop where
  /-- the jobs hash -/
  jobs : s.Fits K.jobs .hash
  /-- the destinations -/
  places : ∀ e ∈ es, e.placeKey K destination ≠ K.jobs ∧
    s.Fits (e.placeKey K destination) (e.loc destination).kind

/-- All envelopes are stored and placed, one after the other. -/
def enqueueAll (K : StorageKeys) (destination : JobDestination) (es : List JobEnvelope)
    (s : Store) : Store :=
  es.foldl (fun s e => place K destination e (record K e s)) s

/-- The types that the keys of a chunk are expected to have. -/
def chunkTyping (K : StorageKeys) (destination : JobDestination) (es : List JobEnvelope) :
    Typing := fun k kd =>
  (k = K.jobs ∧ kd = .hash) ∨ ∃ e ∈ es, k = e.placeKey K destination ∧ kd = (e.loc destination).kind

/-- Delayed jobs are kept in a sorted set, and ready ones in lists. -/
theorem loc_kind (e : JobEnvelope) (destination : JobDestination) : (e.loc destination).kind =
    if destination = .schedule then .zset else .list := by
  cases destination with
  | queue => rfl
  | schedule => rfl

/-- Where a chunk can be written, no key is needed as two types. -/
theorem Usable.consistent (h : Usable K destination s es) :
    (chunkTyping K destination es).Consistent := by
  rintro k kd kd' (⟨rfl, rfl⟩ | ⟨e, he, rfl, rfl⟩) (⟨hk, rfl⟩ | ⟨e', he', hk, rfl⟩)
  · rfl
  · exact absurd hk.symm (h.places e' he').1
  · exact absurd hk (h.places e he).1
  · rw [loc_kind, loc_kind]

/-- Where a chunk can be written, the keys have the types that it needs. -/
theorem Usable.typed (h : Usable K destination s es) :
    Script.Typed (chunkTyping K destination es) s := by
  rintro k kd (⟨rfl, rfl⟩ | ⟨e, he, rfl, rfl⟩)
  · exact h.jobs
  · exact (h.places e he).2

theorem chunkTyping_keys (h : (chunkTyping K destination es).Consistent) (he : e ∈ es) :
    Keys K (chunkTyping K destination es) destination e := by
  refine ⟨h, .inl ⟨rfl, rfl⟩, ?_⟩
  cases destination with
  | queue => exact .inr ⟨e, he, rfl, rfl⟩
  | schedule => exact .inr ⟨e, he, rfl, rfl⟩

/-! ## The script -/

section ScriptPath

/-- Every write of the plan of an ordinary chunk replaces nothing, and is for the ready list of an
envelope of the chunk. -/
theorem planFor_ordinary (hes : ∀ e ∈ es, e.jobMeta.unique = false) (v : View) :
    ∀ w ∈ planFor K v es, w.replacing = false ∧
      ∃ e ∈ es, w.newQueue = some (K.namespaceQueue e.queue) := by
  induction es generalizing v with
  | nil => exact fun _ h => absurd h List.not_mem_nil
  | cons e es ih =>
    have hord := hes e (List.mem_cons_self ..)
    have hskips : e.skips = false := by simp [JobEnvelope.skips, hord]
    have hrep : e.replaces = false := by simp [JobEnvelope.replaces, hord]
    intro w hw
    rw [planFor, hskips, Bool.false_and, if_neg Bool.false_ne_true] at hw
    rcases List.mem_cons.mp hw with rfl | hw
    · exact ⟨by simp [writeFor, hrep], e, List.mem_cons_self .., rfl⟩
    · obtain ⟨h₁, e', he', h₂⟩ := ih (fun e' he' => hes e' (List.mem_cons_of_mem _ he')) _ w hw
      exact ⟨h₁, e', List.mem_cons_of_mem _ he', h₂⟩

/-- Each envelope of an ordinary chunk is in its plan, so that it is written. -/
theorem exists_planFor (hes : ∀ e ∈ es, e.jobMeta.unique = false) (v : View) :
    ∀ e ∈ es, ∃ w ∈ planFor K v es, w.newQueue = some (K.namespaceQueue e.queue) := by
  induction es generalizing v with
  | nil => exact fun _ h => absurd h List.not_mem_nil
  | cons e es ih =>
    have hskips : e.skips = false := by
      simp [JobEnvelope.skips, hes e (List.mem_cons_self ..)]
    intro e' he'
    rw [planFor, hskips, Bool.false_and, if_neg Bool.false_ne_true]
    rcases List.mem_cons.mp he' with rfl | he'
    · exact ⟨_, List.mem_cons_self .., rfl⟩
    · obtain ⟨w, hw, hnew⟩ := ih (fun e' he' => hes e' (List.mem_cons_of_mem _ he')) (v.write K e)
        e' he'
      exact ⟨w, List.mem_cons_of_mem _ hw, hnew⟩

/-- The writes of an ordinary chunk store and place its envelopes, one after the other. -/
theorem commit_ordinary {Γ : Typing} (hs : Script.Typed Γ s)
    (hes : ∀ e ∈ es, e.jobMeta.unique = false ∧ Keys K Γ destination e) (v : View) :
    forEach (planFor K v es) (commitWrite K.jobs K.schedule K.retry (destination = .schedule)) s =
      (.ok (), enqueueAll K destination es s) := by
  induction es generalizing s v with
  | nil => rfl
  | cons e es ih =>
    obtain ⟨hord, hkeys⟩ := hes e (List.mem_cons_self ..)
    have hskips : e.skips = false := by simp [JobEnvelope.skips, hord]
    have hrep : e.replaces = false := by simp [JobEnvelope.replaces, hord]
    have hone : commitWrite K.jobs K.schedule K.retry (destination = .schedule)
        (writeFor K v e) s = (.ok (), place K destination e (record K e s)) := by
      have hnot : (writeFor K v e).replacing = false := by simp [writeFor, hrep]
      simp only [commitWrite]
      rw [hnot, if_neg Bool.false_ne_true]
      exact place_run hkeys hs
    have hs' : Script.Typed Γ (place K destination e (record K e s)) := by
      have hplace := hkeys.place
      cases destination with
      | queue => exact (hs.put hkeys.consistent hkeys.jobs).put hkeys.consistent hplace
      | schedule => exact (hs.put hkeys.consistent hkeys.jobs).put hkeys.consistent hplace
    rw [planFor, hskips, Bool.false_and, if_neg Bool.false_ne_true, forEach, bind_ok hone]
    exact ih hs' (fun e' he' => hes e' (List.mem_cons_of_mem _ he')) _

/-- An ordinary chunk needs no snapshots, since it replaces nothing. -/
theorem ordinary_covered (hes : ∀ e ∈ es, e.jobMeta.unique = false) (c : JobId → Prop) :
    Covered c es :=
  covered_nil (fun e he => by simp [JobEnvelope.replaces, hes e he]) c

/-- Where all keys are usable, the script stores and places all envelopes of an ordinary chunk. -/
theorem enqueueCall_usable (hes : ∀ e ∈ es, e.jobMeta.unique = false)
    (h : Usable K destination s es) : ∃ outcomes,
      enqueueCall K destination [] es s = (.ok ⟨[], outcomes⟩, enqueueAll K destination es s) := by
  have hΓ := h.consistent
  obtain ⟨types, hrun, htypes⟩ := demandType_ok hΓ h.typed [] (k := K.jobs)
    (fun _ _ h => nomatch h) (.inl ⟨rfl, rfl⟩)
  have hsnapshots : SnapshotsAgree K es [] s := fun _ h => absurd h List.not_mem_nil
  have hnd : (([] : Snapshots).map (·.1)).Nodup := List.nodup_nil
  have hagree := trustingView_agrees hnd hsnapshots
  have hplan := planInputs_run (declaredQueues es []) h.jobs
    (fun e he => mem_declared_pending he) hagree (ordinary_covered hes _)
  generalize trustingView K es [] s = v at hplan
  have hpre : ∃ types', preflight K.schedule K.retry (destination = .schedule)
      (planFor K v es) types s = (.ok types', s) := by
    refine preflight_ok hΓ h.typed keyed_of_planFor (fun w hw => ?_) htypes
    obtain ⟨hnot, e, he, hnew⟩ := planFor_ordinary hes v w hw
    refine ⟨?_, fun hrep => absurd hrep (by simp [hnot])⟩
    cases destination with
    | queue =>
      rintro k hk
      rw [hnew] at hk
      cases hk
      exact .inr ⟨e, he, rfl, rfl⟩
    | schedule => exact .inr ⟨e, he, rfl, rfl⟩
  obtain ⟨types', hpre⟩ := hpre
  have hcommit := commit_ordinary h.typed
    (fun e he => ⟨hes e he, chunkTyping_keys hΓ he⟩) v
  refine ⟨outcomesFor K v es, ?_⟩
  have hwrites : enqueueWrites (K.jobs :: K.schedule :: K.retry ::
      (declaredQueues es []).map K.namespaceQueue) K.jobs K.schedule K.retry
      (destination = .schedule) (es.map (inputArg (declaredQueues es []))) types
      (learned K es [] s) s = (.ok ⟨[], outcomesFor K v es⟩, enqueueAll K destination es s) := by
    rw [enqueueWrites, bind_ok hplan, bind_ok hpre, bind_ok hcommit]
    rfl
  simp only [enqueueCall, enqueueScript]
  rw [bind_ok hrun]
  exact hwrites

/-- Where some key is not usable, the script refuses the chunk and writes nothing. -/
theorem enqueueCall_unusable (hes : ∀ e ∈ es, e.jobMeta.unique = false)
    (h : ¬ Usable K destination s es) : Refused (enqueueCall K destination [] es) s := by
  have hnd : (([] : Snapshots).map (·.1)).Nodup := List.nodup_nil
  have hagree := fun h : SnapshotsAgree K es [] s => trustingView_agrees hnd h
  rcases enqueueCall_cases destination (ordinary_covered hes _) hagree
    with hno | ⟨hne, -⟩ | ⟨-, hjobs, Γ, hready, -⟩
  · exact hno
  · exact absurd rfl hne
  · refine absurd ⟨hjobs, fun e he => ?_⟩ h
    obtain ⟨w, hw, hnew⟩ := exists_planFor hes _ e he
    have hplace := (hready.writes w hw).place
    have hΓ : Γ (e.placeKey K destination) (e.loc destination).kind := by
      cases destination with
      | queue => exact hplace _ hnew
      | schedule => exact hplace
    refine ⟨fun hk => ?_, hready.typed _ _ hΓ⟩
    rw [hk] at hΓ
    have hkind := hready.consistent _ _ _ hΓ hready.jobs
    cases destination with
    | queue => cases hkind
    | schedule => cases hkind

end ScriptPath

/-! ## The pipeline -/

section PipelinePath

/-- What becomes of a command: it writes if its key has the type for it, and otherwise leaves the
store alone. -/
theorem onKind_snd {α : Type} (kd : Kind) (k : Key) (f : Store → α × Store) (s : Store) :
    (onKind kd k f s).2 = if s.Fits k kd then (f s).2 else s := by
  simp only [onKind]
  split
  · rfl
  · rfl

/-- A pipeline that nothing comes between has the effect of a transaction. -/
theorem pipe_alone {l : Request} (xs : List (Script Unit)) (w : World γ) :
    ∃ r, Prog.alone Call.fine (pipe l xs : Call γ (List Unit)) w =
        some (r, w.after (transaction xs)) ∧
      (r.isOk ↔ (transaction xs w.store).1.isOk) := by
  induction xs generalizing w with
  | nil => exact ⟨.ok [], rfl, Iff.rfl⟩
  | cons x xs ih =>
    obtain ⟨r, hr, hok⟩ := ih (w.after x)
    have hrest : Prog.alone Call.fine (pipe l (x :: xs) : Call γ (List Unit)) w =
        some (joinReplies (replyOf (x w.store).1) r, (w.after x).after (transaction xs)) :=
      Prog.alone_bind hr _
    have hafter : (w.after x).after (transaction xs) = w.after (transaction (x :: xs)) := by
      have h₁ := transaction_snd xs (x w.store).2
      have h₂ := transaction_snd (x :: xs) w.store
      show { w with store := (transaction xs (x w.store).2).2 } =
        { w with store := (transaction (x :: xs) w.store).2 }
      rw [h₁, h₂]
      rfl
    refine ⟨_, hrest.trans (by rw [hafter]), ?_⟩
    replace hok : r.isOk ↔ (transaction xs (x w.store).2).1.isOk := hok
    rw [transaction]
    rcases hx : x w.store with ⟨_ | _, s'⟩
    · simp [replyOf, joinReplies, Except.isOk, Except.toBool]
    · rw [hx] at hok
      rcases r with _ | _
      · simpa [replyOf, joinReplies, Except.isOk, Except.toBool] using hok
      · simpa [replyOf, joinReplies, Except.isOk, Except.toBool] using hok

/-- What the pipeline does for one envelope, each command as far as it can. -/
def attempt (K : StorageKeys) (destination : JobDestination) (s : Store) (e : JobEnvelope) :
    Store :=
  (ordinaryWrites K destination e).foldl (fun s x => (x s).2) s

/-- The commands of an ordinary chunk, envelope by envelope. -/
abbrev chunkWrites (K : StorageKeys) (destination : JobDestination) (es : List JobEnvelope) :
    List (Script Unit) := es.flatMap (ordinaryWrites K destination)

/-- The pipeline of a chunk is an attempt to store and place its envelopes, one after the other. -/
theorem chunkWrites_snd (es : List JobEnvelope) (s : Store) :
    (transaction (chunkWrites K destination es) s).2 = es.foldl (attempt K destination) s := by
  rw [transaction_snd, List.foldl_flatMap]
  rfl

/-- A transaction has no error if its first command has none and the rest has none. -/
theorem transaction_isOk_cons (x : Script Unit) (xs : List (Script Unit)) (s : Store) :
    (transaction (x :: xs) s).1.isOk ↔
      (x s).1.isOk ∧ (transaction xs (x s).2).1.isOk := by
  rw [transaction]
  rcases x s with ⟨_ | _, s'⟩
  · simp [Except.isOk, Except.toBool]
  · simp [Except.isOk, Except.toBool]

theorem onKind_isOk {α : Type} {kd : Kind} {k : Key} {f : Store → α × Store} {s : Store} :
    (onKind kd k f s).1.isOk ↔ s.Fits k kd := by
  simp only [onKind]
  split
  · next h => simp [Except.isOk, Except.toBool, h]
  · next h => simp [Except.isOk, Except.toBool, h]

/-- The second command of an envelope, which places it. -/
def placeCommand (K : StorageKeys) (destination : JobDestination) (e : JobEnvelope) : Script Unit :=
  match destination with
  | .queue => lpush (K.namespaceQueue e.queue) e.id
  | .schedule => zadd K.schedule e.jobMeta.scheduledAt.toInt e.id

theorem placeCommand_isOk : (placeCommand K destination e s).1.isOk ↔
    s.Fits (e.placeKey K destination) (e.loc destination).kind := by
  cases destination with
  | queue => exact onKind_isOk
  | schedule => exact onKind_isOk

theorem placeCommand_snd : (placeCommand K destination e s).2 =
    if s.Fits (e.placeKey K destination) (e.loc destination).kind then place K destination e s
    else s := by
  cases destination with
  | queue => exact onKind_snd ..
  | schedule => exact onKind_snd ..

theorem hset_snd : (hset K.jobs e.id e.encode s).2 =
    if s.Fits K.jobs .hash then record K e s else s := onKind_snd ..

/-- An attempt for an envelope is two commands: the payload, and then the place. -/
theorem attempt_eq : attempt K destination s e =
    (placeCommand K destination e (hset K.jobs e.id e.encode s).2).2 := by
  cases destination with
  | queue => rfl
  | schedule => rfl

/-- The pipeline succeeds if each of its commands meets a key that it can use. -/
theorem chunkWrites_isOk_cons : (transaction (chunkWrites K destination (e :: es)) s).1.isOk ↔
    s.Fits K.jobs .hash ∧
      (record K e s).Fits (e.placeKey K destination) (e.loc destination).kind ∧
      (transaction (chunkWrites K destination es) (attempt K destination s e)).1.isOk := by
  have hcons : chunkWrites K destination (e :: es) = hset K.jobs e.id e.encode ::
      placeCommand K destination e :: chunkWrites K destination es := by
    cases destination with
    | queue => rfl
    | schedule => rfl
  rw [hcons, transaction_isOk_cons, transaction_isOk_cons, placeCommand_isOk, ← attempt_eq,
    hset_snd]
  have hjobs : (hset K.jobs e.id e.encode s).1.isOk ↔ s.Fits K.jobs .hash := onKind_isOk
  rw [hjobs]
  refine and_congr_right fun hj => ?_
  rw [if_pos hj]

/-- The hash of the payloads is there once an envelope is stored. -/
theorem kind_record : (record K e s).kind K.jobs = some .hash := by
  have hlive : (Value.hash (setField e.id e.encode (s.hash K.jobs))).Live := List.cons_ne_nil _ _
  exact Store.kind_put_self hlive

theorem record_not_fits {kd : Kind} (hkd : kd ≠ .hash) : ¬ (record K e s).Fits K.jobs kd := by
  rintro (h | h)
  · rw [kind_record] at h
    cases h
  · rw [kind_record] at h
    exact hkd (Option.some.inj h).symm

theorem loc_kind_ne_hash (e : JobEnvelope) (destination : JobDestination) :
    (e.loc destination).kind ≠ .hash := by
  cases destination with
  | queue => exact Kind.noConfusion
  | schedule => exact Kind.noConfusion

/-- The first command of an envelope leaves the keys of the second one alone. -/
theorem fits_record_iff {k : Key} {kd : Kind} (hk : k ≠ K.jobs) :
    (record K e s).Fits k kd ↔ s.Fits k kd := by
  rw [Store.Fits, Store.Fits, record, Store.kind_put_ne _ hk]

theorem fits_place_iff {k : Key} {kd : Kind} (hk : k ≠ e.placeKey K destination) :
    (place K destination e s).Fits k kd ↔ s.Fits k kd := by
  have hkind : (place K destination e s).kind k = s.kind k := by
    cases destination with
    | queue => exact Store.kind_put_ne _ hk
    | schedule => exact Store.kind_put_ne _ hk
  rw [Store.Fits, Store.Fits, hkind]

/-- **A pipeline that succeeds** has met usable keys only, from the first command to the last. -/
theorem usable_of_isOk (hne : es ≠ [])
    (h : (transaction (chunkWrites K destination es) s).1.isOk) : Usable K destination s es := by
  have hall : ∀ e ∈ es, s.Fits K.jobs .hash ∧ e.placeKey K destination ≠ K.jobs ∧
      s.Fits (e.placeKey K destination) (e.loc destination).kind := by
    clear hne
    induction es generalizing s with
    | nil => exact fun _ h => absurd h List.not_mem_nil
    | cons e es ih =>
      obtain ⟨hjobs, hplace, hrest⟩ := chunkWrites_isOk_cons.mp h
      have hnot : e.placeKey K destination ≠ K.jobs := by
        intro hk
        rw [hk] at hplace
        exact record_not_fits (loc_kind_ne_hash e destination) hplace
      have hfits := (fits_record_iff hnot).mp hplace
      intro e' he'
      rcases List.mem_cons.mp he' with rfl | he'
      · exact ⟨hjobs, hnot, hfits⟩
      · obtain ⟨-, hnot', hfits'⟩ := ih hrest e' he'
        refine ⟨hjobs, hnot', ?_⟩
        by_cases hk : e'.placeKey K destination = e.placeKey K destination
        · rw [hk, loc_kind, ← loc_kind e]
          exact hfits
        · rw [attempt_eq, hset_snd, if_pos hjobs, placeCommand_snd, if_pos hplace,
            fits_place_iff hk, fits_record_iff hnot'] at hfits'
          exact hfits'
  obtain ⟨e, he⟩ := List.exists_mem_of_ne_nil es hne
  exact ⟨(hall e he).1, fun e he => (hall e he).2⟩

/-- **With usable keys** the pipeline stores and places all envelopes, as the script does. -/
theorem chunkWrites_usable (h : Usable K destination s es) :
    (transaction (chunkWrites K destination es) s).1.isOk ∧
      es.foldl (attempt K destination) s = enqueueAll K destination es s := by
  induction es generalizing s with
  | nil => exact ⟨rfl, rfl⟩
  | cons e es ih =>
    obtain ⟨hnot, hfits⟩ := h.places e (List.mem_cons_self ..)
    have hplace := (fits_record_iff (e := e) hnot).mpr hfits
    have hattempt : attempt K destination s e = place K destination e (record K e s) := by
      rw [attempt_eq, hset_snd, if_pos h.jobs, placeCommand_snd, if_pos hplace]
    have hnext : Usable K destination (attempt K destination s e) es := by
      rw [hattempt]
      refine ⟨?_, fun e' he' => ?_⟩
      · exact (fits_place_iff hnot.symm).mpr (.inr kind_record)
      · obtain ⟨hnot', hfits'⟩ := h.places e' (List.mem_cons_of_mem _ he')
        refine ⟨hnot', ?_⟩
        by_cases hk : e'.placeKey K destination = e.placeKey K destination
        · rw [hk, loc_kind, ← loc_kind e]
          cases destination with
          | queue => exact Store.fits_put_self _
          | schedule => exact Store.fits_put_self _
        · rw [fits_place_iff hk, fits_record_iff hnot']
          exact hfits'
    obtain ⟨hok, hstore⟩ := ih hnext
    refine ⟨chunkWrites_isOk_cons.mpr ⟨h.jobs, hplace, hok⟩, ?_⟩
    show es.foldl (attempt K destination) (attempt K destination s e) =
      enqueueAll K destination es (place K destination e (record K e s))
    rw [hstore, hattempt]

end PipelinePath

/-! ## What a failed pipeline leaves behind -/

section Leftovers

/-- The last envelope of a list that has an id. -/
def lastOf (id : JobId) : List JobEnvelope → Option JobEnvelope
  | [] => none
  | e :: es => (lastOf id es).or (if id = e.id then some e else none)

theorem lastOf_isSome (he : e ∈ es) : ∃ e', lastOf e.id es = some e' := by
  induction es with
  | nil => exact absurd he List.not_mem_nil
  | cons e₀ es ih =>
    rw [lastOf]
    rcases List.mem_cons.mp he with rfl | he
    · rcases lastOf e.id es with _ | e'
      · exact ⟨e, by simp⟩
      · exact ⟨e', rfl⟩
    · obtain ⟨e', h⟩ := ih he
      exact ⟨e', by rw [h, Option.some_or]⟩

/-- The last one to write under an id determines what is read there after all have written. -/
theorem lookup_foldl_last {β : Type} {σ : Type} {step : σ → JobEnvelope → σ}
    (read : σ → JobId → Option β) (val : JobEnvelope → β) {I : σ → Prop}
    (hI : ∀ s e, I s → I (step s e) ∧
      ∀ id, read (step s e) id = if id = e.id then some (val e) else read s id)
    {s : σ} (hs : I s) (id : JobId) :
    read (es.foldl step s) id = ((lastOf id es).map val).or (read s id) := by
  induction es generalizing s with
  | nil => rfl
  | cons e es ih =>
    obtain ⟨hs', hread⟩ := hI s e hs
    rw [List.foldl_cons, ih hs', hread, lastOf]
    rcases lastOf id es with _ | e'
    · by_cases h : id = e.id
      · simp [h]
      · simp [h]
    · rfl

/-- Nothing that the pipeline can write makes a difference: each of its writes fails, or writes what
is there already. -/
structure Untouched (K : StorageKeys) (destination : JobDestination) (s : Store)
    (es : List JobEnvelope) : Prop where
  /-- if the jobs hash is usable, it has the payloads -/
  payloads : s.Fits K.jobs .hash → ∀ id e, lastOf id es = some e →
    payloadOf K.jobs s id = some e.encode
  /-- no ready list is usable -/
  lists : destination = .queue → ∀ e ∈ es, ¬ s.Fits (K.namespaceQueue e.queue) .list
  /-- if the schedule is usable, it has the jobs at their times -/
  scores : destination = .schedule → s.Fits K.schedule .zset → ∀ id e, lastOf id es = some e →
    (s.zset K.schedule).lookup id = some e.jobMeta.scheduledAt.toInt

/-- The first command of an envelope, if the hash of the payloads is usable: it stays usable, and
the payload is stored. -/
theorem attempt_of_jobs (h : s.Fits K.jobs .hash) :
    (attempt K destination s e).Fits K.jobs .hash ∧ ∀ id,
      payloadOf K.jobs (attempt K destination s e) id =
        if id = e.id then some e.encode else payloadOf K.jobs s id := by
  rw [attempt_eq, hset_snd, if_pos h, placeCommand_snd]
  split
  · next hplace =>
    have hne : K.jobs ≠ e.placeKey K destination := by
      intro hk
      rw [← hk] at hplace
      exact record_not_fits (loc_kind_ne_hash e destination) hplace
    have hpay : ∀ id, payloadOf K.jobs (place K destination e (record K e s)) id =
        payloadOf K.jobs (record K e s) id := by
      intro id
      cases destination with
      | queue => exact congrArg (List.lookup id) (Store.hash_put_ne _ hne)
      | schedule => exact congrArg (List.lookup id) (Store.hash_put_ne _ hne)
    exact ⟨(fits_place_iff hne).mpr (.inr kind_record),
      fun id => (hpay id).trans (payloadOf_record id)⟩
  · exact ⟨.inr kind_record, payloadOf_record⟩

/-- A list that is usable stays usable, and an attempt puts the id on it if the list is the one of
its queue. -/
theorem attempt_list {k : Key} (h : s.Fits k .list) (hj : k = K.jobs → ¬ s.Fits K.jobs .hash) :
    ((attempt K .queue s e).Fits k .list ∧
      (k = K.jobs → ¬ (attempt K .queue s e).Fits K.jobs .hash)) ∧
    (attempt K .queue s e).list k =
      if K.namespaceQueue e.queue = k then e.id :: s.list k else s.list k := by
  -- the first command does not touch the list
  obtain ⟨s', hs', hkind, hlist⟩ : ∃ s', (hset K.jobs e.id e.encode s).2 = s' ∧
      s'.kind k = s.kind k ∧ s'.list k = s.list k := by
    refine ⟨_, hset_snd, ?_⟩
    split
    · next hjobs =>
      have hne : k ≠ K.jobs := fun hk => hj hk hjobs
      exact ⟨Store.kind_put_ne _ hne, Store.list_put_ne _ hne⟩
    · exact ⟨rfl, rfl⟩
  have hfits : s'.Fits k .list := by
    rw [Store.Fits, hkind]
    exact h
  have hj' : k = K.jobs → ¬ s'.Fits K.jobs .hash := by
    intro hk
    rw [Store.Fits, ← hk, hkind]
    rw [← hk] at hj
    exact hj rfl
  have hplace : (placeCommand K .queue e s').2 =
      if s'.Fits (K.namespaceQueue e.queue) .list then place K .queue e s' else s' :=
    placeCommand_snd
  rw [attempt_eq, hs', hplace, ← hlist]
  by_cases hq : K.namespaceQueue e.queue = k
  · subst hq
    rw [if_pos hfits, if_pos rfl]
    refine ⟨⟨Store.fits_put_self _, fun hk hno => ?_⟩, Store.list_put_self _⟩
    have hlive : (Value.list (e.id :: s'.list (K.namespaceQueue e.queue))).Live :=
      List.cons_ne_nil _ _
    rw [← hk, Store.Fits, place, Store.kind_put_self hlive] at hno
    rcases hno with hno | hno
    · cases hno
    · cases hno
  · have hne : k ≠ e.placeKey K .queue := Ne.symm hq
    rw [if_neg hq]
    split
    · refine ⟨⟨(fits_place_iff hne).mpr hfits, fun hk => ?_⟩, Store.list_put_ne _ hne⟩
      rw [hk] at hne
      rw [fits_place_iff hne]
      exact hj' hk
    · exact ⟨⟨hfits, hj'⟩, rfl⟩

/-- After all attempts a usable list is longer by as many ids as there were envelopes for its queue.
-/
theorem foldl_attempt_list (es : List JobEnvelope) {k : Key} (h : s.Fits k .list)
    (hj : k = K.jobs → ¬ s.Fits K.jobs .hash) :
    ((es.foldl (attempt K .queue) s).list k).length =
      es.countP (fun e => K.namespaceQueue e.queue = k) + (s.list k).length := by
  induction es generalizing s with
  | nil => simp
  | cons e es ih =>
    obtain ⟨⟨h', hj'⟩, hlist⟩ := attempt_list (e := e) h hj
    rw [List.foldl_cons, ih h' hj', hlist, List.countP_cons]
    by_cases hq : K.namespaceQueue e.queue = k
    · simp [hq]
      omega
    · simp [hq]

/-- The second command of a delayed envelope, if the schedule is usable: it stays usable, and the
score is set. -/
theorem attempt_schedule (h : s.Fits K.schedule .zset) :
    (attempt K .schedule s e).Fits K.schedule .zset ∧ ∀ id,
      ((attempt K .schedule s e).zset K.schedule).lookup id =
        if id = e.id then some e.jobMeta.scheduledAt.toInt
        else (s.zset K.schedule).lookup id := by
  obtain ⟨s', hs', hkind, hzset⟩ : ∃ s', (hset K.jobs e.id e.encode s).2 = s' ∧
      s'.kind K.schedule = s.kind K.schedule ∧ s'.zset K.schedule = s.zset K.schedule := by
    refine ⟨_, hset_snd, ?_⟩
    split
    · exact ⟨Store.kind_put_ne _ StorageKeys.jobs_ne_schedule.symm,
        Store.zset_put_ne _ StorageKeys.jobs_ne_schedule.symm⟩
    · exact ⟨rfl, rfl⟩
  have hfits : s'.Fits K.schedule .zset := by
    rw [Store.Fits, hkind]
    exact h
  have hplace : (placeCommand K .schedule e s').2 = place K .schedule e s' :=
    placeCommand_snd.trans (if_pos hfits)
  rw [attempt_eq, hs', hplace]
  refine ⟨Store.fits_put_self _, fun id => ?_⟩
  rw [place, Store.zset_put_self, hzset]
  by_cases hid : id = e.id
  · rw [if_pos hid, hid, lookup_setScore_self]
  · rw [if_neg hid, lookup_setScore_ne hid]

/-- When only the hash of the payloads is usable, the pipeline changes nothing but this hash. -/
theorem foldl_attempt_jobs (hjobs : s.kind K.jobs = some .hash)
    (hno : ∀ e ∈ es, e.placeKey K destination ≠ K.jobs →
      ¬ s.Fits (e.placeKey K destination) (e.loc destination).kind) :
    es.foldl (attempt K destination) s = s ∨ ∃ m, m ≠ [] ∧
      es.foldl (attempt K destination) s = s.put K.jobs (.hash m) := by
  induction es generalizing s with
  | nil => exact .inl rfl
  | cons e es ih =>
    have hrefused : ¬ (record K e s).Fits (e.placeKey K destination) (e.loc destination).kind := by
      by_cases hk : e.placeKey K destination = K.jobs
      · rw [hk]
        exact record_not_fits (loc_kind_ne_hash e destination)
      · rw [fits_record_iff hk]
        exact hno e (List.mem_cons_self ..) hk
    have hone : attempt K destination s e = record K e s := by
      rw [attempt_eq, hset_snd, if_pos (.inr hjobs), placeCommand_snd, if_neg hrefused]
    have hno' : ∀ e' ∈ es, e'.placeKey K destination ≠ K.jobs →
        ¬ (record K e s).Fits (e'.placeKey K destination) (e'.loc destination).kind := by
      intro e' he' hk
      rw [fits_record_iff hk]
      exact hno e' (List.mem_cons_of_mem _ he') hk
    rw [List.foldl_cons, hone]
    rcases ih kind_record hno' with h | ⟨m, hm, h⟩
    · exact .inr ⟨_, List.cons_ne_nil _ _, h⟩
    · exact .inr ⟨m, hm, h.trans (Store.put_put_self _ _)⟩

/-- When only the schedule is usable, the pipeline changes nothing but the schedule. -/
theorem foldl_attempt_scores (es : List JobEnvelope) (hjobs : ¬ s.Fits K.jobs .hash)
    (hs : s.kind K.schedule = some .zset) :
    es.foldl (attempt K .schedule) s = s ∨ ∃ z, z ≠ [] ∧
      es.foldl (attempt K .schedule) s = s.put K.schedule (.zset z) := by
  induction es generalizing s with
  | nil => exact .inl rfl
  | cons e es ih =>
    have hone : attempt K .schedule s e = place K .schedule e s := by
      rw [attempt_eq, hset_snd, if_neg hjobs]
      exact placeCommand_snd.trans (if_pos (.inr hs))
    have hne : K.jobs ≠ e.placeKey K .schedule := StorageKeys.jobs_ne_schedule
    have hjobs' : ¬ (place K .schedule e s).Fits K.jobs .hash := by
      rw [fits_place_iff hne]
      exact hjobs
    have hlive : setScore e.id e.jobMeta.scheduledAt.toInt (s.zset K.schedule) ≠ [] := by
      intro h
      have hself : (setScore e.id e.jobMeta.scheduledAt.toInt (s.zset K.schedule)).lookup e.id =
          some e.jobMeta.scheduledAt.toInt := lookup_setScore_self
      rw [h] at hself
      cases hself
    rw [List.foldl_cons, hone]
    rcases ih hjobs' (Store.kind_put_self hlive) with h | ⟨z, hz, h⟩
    · exact .inr ⟨_, hlive, h⟩
    · exact .inr ⟨z, hz, h.trans (Store.put_put_self _ _)⟩

/-- When nothing is usable, no command is accepted and nothing changes. -/
theorem foldl_attempt_refused (hjobs : ¬ s.Fits K.jobs .hash)
    (hno : ∀ e ∈ es, ¬ s.Fits (e.placeKey K destination) (e.loc destination).kind) :
    es.foldl (attempt K destination) s = s := by
  induction es with
  | nil => rfl
  | cons e es ih =>
    have hone : attempt K destination s e = s := by
      rw [attempt_eq, hset_snd, if_neg hjobs, placeCommand_snd,
        if_neg (hno e (List.mem_cons_self ..))]
    rw [List.foldl_cons, hone]
    exact ih fun e' he' => hno e' (List.mem_cons_of_mem _ he')

/-- The payloads that a pipeline leaves in a usable hash are those of the last writers. -/
theorem payloadOf_foldl_attempt (destination : JobDestination) (es : List JobEnvelope)
    (h : s.Fits K.jobs .hash) (id : JobId) :
    payloadOf K.jobs (es.foldl (attempt K destination) s) id =
      ((lastOf id es).map JobEnvelope.encode).or (payloadOf K.jobs s id) :=
  lookup_foldl_last (payloadOf K.jobs) JobEnvelope.encode (I := fun s => s.Fits K.jobs .hash)
    (fun _ _ h => attempt_of_jobs h) h id

/-- The scores that a pipeline leaves in a usable schedule are those of the last writers. -/
theorem score_foldl_attempt (es : List JobEnvelope) (h : s.Fits K.schedule .zset) (id : JobId) :
    ((es.foldl (attempt K .schedule) s).zset K.schedule).lookup id =
      ((lastOf id es).map fun e => e.jobMeta.scheduledAt.toInt).or
        ((s.zset K.schedule).lookup id) :=
  lookup_foldl_last (fun (s : Store) (id : JobId) => (s.zset K.schedule).lookup id)
    (fun e => e.jobMeta.scheduledAt.toInt) (I := fun s : Store => s.Fits K.schedule .zset) (fun _ _ h => attempt_schedule h) h id

/-- A key that a payload is read from is there, and is a hash. -/
theorem kind_of_payload {p : String} {id : JobId} (h : s.Fits K.jobs .hash)
    (hp : payloadOf K.jobs s id = some p) : s.kind K.jobs = some .hash := by
  rcases h with h | h
  · rw [payloadOf, Store.hash_of_absent (by simpa [Store.kind] using h)] at hp
    cases hp
  · exact h

theorem kind_of_score {t : Int} {id : JobId} (h : s.Fits K.schedule .zset)
    (ht : (s.zset K.schedule).lookup id = some t) : s.kind K.schedule = some .zset := by
  rcases h with h | h
  · rw [Store.zset_of_absent (by simpa [Store.kind] using h)] at ht
    cases ht
  · exact h

/-- Overwriting with what the last writers left changes nothing, if that was there before. -/
theorem or_last {β : Type} {id : JobId} {val : JobEnvelope → β} {old : Option β}
    (h : ∀ e, lastOf id es = some e → old = some (val e)) :
    ((lastOf id es).map val).or old = old := by
  rcases hl : lastOf id es with _ | e
  · rfl
  · rw [h e hl]
    rfl

/-- **A pipeline with an unusable key** changes nothing if all that it writes is there already. -/
theorem Untouched.same (h : Untouched K destination s es) (hne : es ≠ [])
    (hbad : ¬ Usable K destination s es) : (es.foldl (attempt K destination) s).Same s := by
  obtain ⟨e₀, he₀⟩ := List.exists_mem_of_ne_nil es hne
  obtain ⟨e₁, hlast⟩ := lastOf_isSome he₀
  by_cases hjobs : s.Fits K.jobs .hash
  · have hkind := kind_of_payload hjobs (h.payloads hjobs _ _ hlast)
    have hno : ∀ e ∈ es, e.placeKey K destination ≠ K.jobs →
        ¬ s.Fits (e.placeKey K destination) (e.loc destination).kind := by
      intro e he hk hfits
      cases destination with
      | queue => exact h.lists rfl e he hfits
      | schedule =>
        exact hbad ⟨hjobs, fun _ _ => ⟨StorageKeys.jobs_ne_schedule.symm, hfits⟩⟩
    rcases foldl_attempt_jobs hkind hno with hrun | ⟨m, hm, hrun⟩
    · rw [hrun]
      exact .refl s
    · rw [hrun]
      refine Store.same_put_hash hkind hm fun id => ?_
      have hpay := payloadOf_foldl_attempt destination es hjobs id
      rw [hrun, payloadOf, Store.hash_put_self, or_last (h.payloads hjobs id)] at hpay
      exact hpay
  · cases destination with
    | queue =>
      have hrun : es.foldl (attempt K .queue) s = s := foldl_attempt_refused hjobs (h.lists rfl)
      rw [hrun]
      exact .refl s
    | schedule =>
      by_cases hfits : s.Fits K.schedule .zset
      · have hkind := kind_of_score hfits (h.scores rfl hfits _ _ hlast)
        rcases foldl_attempt_scores es hjobs hkind with hrun | ⟨z, hz, hrun⟩
        · rw [hrun]
          exact .refl s
        · rw [hrun]
          refine Store.same_put_zset hkind hz fun id => ?_
          have hscore := score_foldl_attempt es hfits id
          rw [hrun, Store.zset_put_self, or_last (h.scores rfl hfits id)] at hscore
          exact hscore
      · have hrun : es.foldl (attempt K .schedule) s = s :=
          foldl_attempt_refused hjobs fun _ _ => hfits
        rw [hrun]
        exact .refl s

/-- **Conversely**, if the pipeline has changed nothing, then all that it wrote was there before. -/
theorem Untouched.of_same (h : (es.foldl (attempt K destination) s).Same s) :
    Untouched K destination s es := by
  have hpay : s.Fits K.jobs .hash → ∀ id e, lastOf id es = some e →
      payloadOf K.jobs s id = some e.encode := by
    intro hjobs id e hlast
    have hsame : payloadOf K.jobs (es.foldl (attempt K destination) s) id =
        payloadOf K.jobs s id := h.hash K.jobs id
    rw [← hsame, payloadOf_foldl_attempt _ _ hjobs, hlast]
    rfl
  refine ⟨hpay, fun hd e he hfits => ?_, fun hd hfits id e hlast => ?_⟩
  · -- a list that takes an entry grows
    subst hd
    have hj : K.namespaceQueue e.queue = K.jobs → ¬ s.Fits K.jobs .hash := by
      intro hk hjobs
      obtain ⟨e', hlast⟩ := lastOf_isSome he
      have hkind := kind_of_payload hjobs (hpay hjobs _ _ hlast)
      rw [Store.Fits, hk, hkind] at hfits
      rcases hfits with hfits | hfits
      · cases hfits
      · cases hfits
    have hlen := foldl_attempt_list es hfits hj
    have hpos : 0 < es.countP (fun e' => K.namespaceQueue e'.queue = K.namespaceQueue e.queue) :=
      List.countP_pos_iff.mpr ⟨e, he, by simp⟩
    rw [h.list] at hlen
    omega
  · subst hd
    rw [← h.zset, score_foldl_attempt _ hfits, hlast]
    rfl

end Leftovers

/-! ## The comparison -/

section Comparison

variable {written : List JobId} {w : World γ}

/-- Alone, the pipeline of an ordinary chunk has the effect of its attempts, and its error if one is
refused. -/
theorem enqueueChunk_alone (K : StorageKeys) (destination : JobDestination) (written : List JobId)
    (w : World γ) (hes : ∀ e ∈ es, e.jobMeta.unique = false) :
    ∃ r, Prog.alone Call.fine (enqueueChunk K es destination written) w =
        some (r, { w with store := es.foldl (attempt K destination) w.store }) ∧
      (r.isOk ↔ (transaction (chunkWrites K destination es) w.store).1.isOk) := by
  have hall : (es.all fun e => !e.jobMeta.unique) = true := by
    rw [List.all_eq_true]
    intro e he
    rw [hes e he]
    rfl
  obtain ⟨r, hr, hok⟩ := pipe_alone (l := .hset) (chunkWrites K destination es) w
  have hstore : w.after (transaction (chunkWrites K destination es)) =
      { w with store := es.foldl (attempt K destination) w.store } := by
    rw [← chunkWrites_snd]
    rfl
  rw [hstore] at hr
  refine ⟨r.map fun _ => written, ?_, ?_⟩
  · rw [enqueueChunk, if_pos hall]
    refine (Prog.alone_bind hr _).trans ?_
    rcases r with _ | _
    · rfl
    · rfl
  · rw [← hok]
    rcases r with _ | _
    · rfl
    · rfl

/-- The pipeline, when it is alone, and the script succeed in the same cases and leave stores with
the same contents. -/
def Agrees (K : StorageKeys) (destination : JobDestination) (es : List JobEnvelope)
    (written : List JobId) (w : World γ) : Prop :=
  ∃ r w', Prog.alone Call.fine (enqueueChunk K es destination written) w = some (r, w') ∧
    (r.isOk ↔ (enqueueCall K destination [] es w.store).1.isOk) ∧
    w'.store.Same (enqueueCall K destination [] es w.store).2

/-- With usable keys the two ways to enqueue an ordinary chunk agree. -/
theorem agrees_of_usable (hes : ∀ e ∈ es, e.jobMeta.unique = false)
    (h : Usable K destination w.store es) : Agrees K destination es written w := by
  obtain ⟨r, hrun, hok⟩ := enqueueChunk_alone K destination written w hes
  obtain ⟨outcomes, hscript⟩ := enqueueCall_usable hes h
  obtain ⟨hpipe, hstore⟩ := chunkWrites_usable h
  refine ⟨r, _, hrun, ?_, ?_⟩
  · rw [hok, hscript]
    exact ⟨fun _ => rfl, fun _ => hpipe⟩
  · rw [hscript]
    show Store.Same (es.foldl (attempt K destination) w.store) _
    rw [hstore]
    exact .refl _

/-- With an unusable key the two ways to enqueue agree exactly if the pipeline writes nothing that
is not there already. -/
theorem agrees_of_unusable_iff (hes : ∀ e ∈ es, e.jobMeta.unique = false)
    (h : ¬ Usable K destination w.store es) : Agrees K destination es written w ↔
      es ≠ [] ∧ Untouched K destination w.store es := by
  obtain ⟨r, hrun, hok⟩ := enqueueChunk_alone K destination written w hes
  obtain ⟨m, hscript⟩ := enqueueCall_unusable hes h
  constructor
  · rintro ⟨r', w', hrun', hok', hsame⟩
    obtain ⟨rfl, rfl⟩ := Prod.mk.inj (Option.some.inj (hrun.symm.trans hrun'))
    rw [hscript] at hok' hsame
    refine ⟨?_, Untouched.of_same hsame⟩
    rintro rfl
    exact Bool.false_ne_true (hok'.mp (hok.mpr rfl))
  · rintro ⟨hne, hun⟩
    refine ⟨r, _, hrun, ?_, ?_⟩
    · rw [hok, hscript]
      exact ⟨fun hp => absurd (usable_of_isOk hne hp) h, fun hno => absurd hno Bool.false_ne_true⟩
    · rw [hscript]
      exact hun.same hne h

/-- **The two ways to enqueue ordinary jobs agree** if all keys are usable, and
otherwise only if the pipeline writes nothing that is not there already. -/
theorem enqueueChunk_agrees_iff (hes : ∀ e ∈ es, e.jobMeta.unique = false) :
    Agrees K destination es written w ↔
      Usable K destination w.store es ∨ es ≠ [] ∧ Untouched K destination w.store es := by
  by_cases h : Usable K destination w.store es
  · exact ⟨fun _ => .inl h, fun _ => agrees_of_usable hes h⟩
  · rw [agrees_of_unusable_iff hes h]
    exact ⟨.inr, fun hor => hor.resolve_left h⟩

/-- A string where the queue of `mail` should be. -/
def blocked : World Unit :=
  ⟨Store.empty.put ((StorageKeys.new "").namespaceQueue mail.queue) (.string "x"), 0, ()⟩

/-- In an empty store every key is usable, so the pipeline and the script enqueue the message alike.
-/
theorem mail_agrees : Agrees (.new "") .queue [mail] [] (⟨Store.empty, 0, ()⟩ : World Unit) :=
  (enqueueChunk_agrees_iff (fun e he => by rw [List.mem_singleton.mp he]; rfl)).mpr
    (.inl ⟨Store.fits_empty _, fun e he => by
      rw [List.mem_singleton.mp he]; exact ⟨by decide +kernel, Store.fits_empty _⟩⟩)

/-- The ready list is of another type: the pipeline fails and has stored a payload, which the script
does not. -/
theorem mail_disagrees : ¬ Agrees (.new "") .queue [mail] [] blocked ∧
    (∃ r w', Prog.alone Call.fine (enqueueChunk (.new "") [mail] .queue []) blocked =
      some (r, w') ∧ r.isOk = false ∧
      payloadOf (StorageKeys.new "").jobs w'.store mail.id = some mail.encode) ∧
    Refused (enqueueCall (.new "") .queue [] [mail]) blocked.store := by
  have hes : ∀ e ∈ [mail], e.jobMeta.unique = false :=
    fun e he => by rw [List.mem_singleton.mp he]; rfl
  have hbad : ¬ Usable (.new "") .queue blocked.store [mail] := fun h =>
    absurd (h.places mail (List.mem_singleton_self _)).2 (by decide +kernel)
  have hjobs : blocked.store.Fits (StorageKeys.new "").jobs .hash := by decide +kernel
  have hlast : lastOf mail.id [mail] = some mail := rfl
  refine ⟨fun h => ?_, ?_, enqueueCall_unusable hes hbad⟩
  · have hpay := ((agrees_of_unusable_iff hes hbad).mp h).2.payloads hjobs _ _ hlast
    cases hpay
  · obtain ⟨r, hrun, hok⟩ := enqueueChunk_alone (.new "") .queue [] blocked hes
    refine ⟨r, _, hrun, ?_, ?_⟩
    · rw [Bool.eq_false_iff]
      exact fun h => hbad (usable_of_isOk (List.cons_ne_nil _ _) (hok.mp h))
    · rw [payloadOf_foldl_attempt _ _ hjobs, hlast]
      rfl

end Comparison

end Oxana
