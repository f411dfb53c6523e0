import Oxana.Custody
import Oxana.EnqueueChunk

/-!
# Producers keep to the discipline

A producer owns its ordinary jobs until they are placed. A chunk of ordinary
jobs is a pipeline in which each job is stored by one command and placed by the
next (`fresh`, then `staged`); in a chunk with unique jobs the script does both
at once. Nobody needs to own a unique job: the script writes it only if it is
not stored, and then it is nowhere.
-/

namespace Oxana

open Redis Script Interleave Call

variable {K : StorageKeys} {U : Set JobId} {w : World Ledger}

/-- The place that an envelope goes to. -/
def JobEnvelope.loc (e : JobEnvelope) : JobDestination → Loc
  | .queue => .ready e.queue
  | .schedule => .schedule

/-- The ids of the ordinary envelopes, which are not unique. -/
def ordinaryIds (es : List JobEnvelope) : List JobId :=
  (es.filter fun e => !e.jobMeta.unique).map (·.id)

/-- What a producer may enqueue: unique jobs skip, and ordinary ones do not take
their ids. -/
structure Enqueueable (K : StorageKeys) (U : Set JobId) (e : JobEnvelope) : Prop where
  /-- the queue has a plain name -/
  plain : K.Plain e.queue
  /-- ordinary ids are not unique ids -/
  ordinary : e.jobMeta.unique = false → e.id ∉ U
  /-- unique ids are -/
  unique : e.jobMeta.unique = true → e.id ∈ U
  /-- unique jobs skip -/
  skips : e.jobMeta.unique = true → e.skips = true

/-- Jobs that have been handed out and are not stored yet. -/
def Custody.freshes (ids : List JobId) : Set Custody := {t | ∃ id ∈ ids, t = .fresh id}

/-- One that is stored, and others that are not. -/
def Custody.staging (id : JobId) (ids : List JobId) : Set Custody :=
  {t | t = .staged id ∨ t ∈ Custody.freshes ids}

/-- The tokens of jobs that have just been made belong to nobody but their producer. -/
theorem Custody.freshes_mine {ids : List JobId} : ∀ t ∈ Custody.freshes ids, Custody.Mine none t := by
  rintro t ⟨id, -, rfl⟩
  rfl

/-- The tokens of jobs that are being stored belong to nobody but their producer. -/
theorem Custody.staging_mine {id : JobId} {ids : List JobId} :
    ∀ t ∈ Custody.staging id ids, Custody.Mine none t := by
  rintro t (rfl | ht)
  · rfl
  · exact Custody.freshes_mine t ht

/-- Placing an envelope changes the place of its own job only. -/
theorem Changes.placed {s : Store} (hs : StoreTyped K s) {e : JobEnvelope} (hq : K.Plain e.queue)
    (destination : JobDestination) :
    ∃ f, Changes K s e.id f (place K destination e s) ∧
      ∀ p, f ⟨p, 0⟩ = ⟨p, only (e.loc destination)⟩ := by
  cases destination with
  | queue =>
    exact ⟨_, Changes.push _ (l := .ready e.queue) hs hq rfl, fun _ => JobView.join_zero⟩
  | schedule =>
    exact ⟨_, Changes.setScore _ (l := .schedule) hs trivial rfl _, fun _ => JobView.enter_zero⟩

/-- Placing a job changes one of its places, and leaves the others as they were. -/
theorem Changes.placed_frame {s : Store} (hs : StoreTyped K s) {e : JobEnvelope}
    (hq : K.Plain e.queue) (destination : JobDestination) :
    ∃ f, Changes K s e.id f (place K destination e s) ∧
      ∀ v, (f v).payload = v.payload ∧ ∀ l, l ≠ e.loc destination → (f v).places l = v.places l := by
  cases destination with
  | queue =>
    exact ⟨_, Changes.push _ (l := .ready e.queue) hs hq rfl,
      fun v => ⟨rfl, fun l hl => Function.update_of_ne hl ..⟩⟩
  | schedule =>
    exact ⟨_, Changes.setScore _ (l := .schedule) hs trivial rfl _,
      fun v => ⟨rfl, fun l hl => Function.update_of_ne hl ..⟩⟩

/-- The payload of an envelope for a plain queue can be decoded again, under the id of the envelope.
-/
theorem goodPayload_of_plain {e : JobEnvelope} (hq : K.Plain e.queue) :
    GoodPayload K e.id e.encode :=
  ⟨e.normalize, decode_encode e, rfl, hq⟩

/-! ## Pipelines -/

section Pipelines

variable {e : JobEnvelope} {ids : List JobId}

/-- A job that has just been made is stored: its token says that its payload is there. -/
theorem Custody.trade_record (hinv : PlacementInv K U w) (hq : K.Plain e.queue)
    (hnd : (e.id :: ids).Nodup)
    (hT : ∀ t ∈ Custody.freshes (e.id :: ids), (custody K U).owns t w) :
    (custody K U).Trades none (Custody.freshes (e.id :: ids)) (Custody.staging e.id ids) w
      { w with store := record K e w.store } := by
  obtain ⟨hU, hissued, hview⟩ := hT (.fresh e.id) ⟨e.id, List.mem_cons_self .., rfl⟩
  replace hview : jobView K w.store e.id = ⟨none, 0⟩ := hview
  refine Custody.trade_one hinv (fun t ht => ⟨hT t ht, Custody.freshes_mine t ht⟩)
    (.setField _ hinv.typed e.encode) ?_ ?_ ?_ ?_
  · rw [hview]
    exact .stored_only (goodPayload_of_plain hq) fun _ => hissued
  · -- only its fresh token can hold of a job that is not there
    intro t htid hown
    have h : t.Holds U w.ghost (jobView K w.store t.id) := hown
    rw [htid, hview] at h
    cases t with
    | claim p id => exact absurd rfl h.2
    | fresh id => exact ⟨id, htid ▸ List.mem_cons_self .., rfl⟩
    | staged id => exact absurd rfl h.2.2
  · rintro t (rfl | ⟨id, hid, rfl⟩) hne
    · exact absurd rfl hne
    · exact ⟨id, List.mem_cons_of_mem _ hid, rfl⟩
  · rintro t (rfl | ⟨id, hid, rfl⟩) htid
    · rw [hview]
      refine ⟨⟨hU, rfl, Option.some_ne_none _⟩, rfl, fun _ hown => ?_⟩
      have h : (Custody.staged e.id).Holds U w.ghost (jobView K w.store e.id) := hown
      rw [hview] at h
      exact h.2.2 rfl
    · exact absurd (htid ▸ hid) (List.nodup_cons.mp hnd).1

/-- A job that has been stored is placed: its token is given up, since from now on the job belongs
to its place. -/
theorem Custody.trade_place (hinv : PlacementInv K U w) (hq : K.Plain e.queue)
    (hnd : (e.id :: ids).Nodup) (hT : ∀ t ∈ Custody.staging e.id ids, (custody K U).owns t w)
    (destination : JobDestination) :
    (custody K U).Trades none (Custody.staging e.id ids) (Custody.freshes ids) w
      { w with store := place K destination e w.store } := by
  obtain ⟨hU, hplaces, hpay⟩ := hT (.staged e.id) (.inl rfl)
  obtain ⟨p, hp⟩ := Option.ne_none_iff_exists'.mp hpay
  have hview : jobView K w.store e.id = ⟨some p, 0⟩ := by
    rw [← hp]
    exact congrArg (JobView.mk _) hplaces
  obtain ⟨f, hch, hf⟩ := Changes.placed hinv.typed hq destination
  refine Custody.trade_one hinv (fun t ht => ⟨hT t ht, Custody.staging_mine t ht⟩) hch ?_ ?_ ?_ ?_
  · rw [hview, hf]
    exact .at_place ((hinv.jobs e.id).good p hp) (hinv.issued_of_stored hview) _
  · intro t htid hown
    have h : t.Holds U w.ghost (jobView K w.store t.id) := hown
    rw [htid, hview] at h
    cases t with
    | claim p id => exact absurd rfl h.2
    | fresh id => exact absurd (congrArg JobView.payload h.2.2) (Option.some_ne_none p)
    | staged id => exact .inl (congrArg Custody.staged htid)
  · exact fun t ht _ => .inr ht
  · rintro t ⟨id, hid, rfl⟩ htid
    exact absurd (htid ▸ hid) (List.nodup_cons.mp hnd).1

/-- A call of a producer keeps to the discipline, and begins with its fresh jobs. -/
abbrev Produces {α : Type} (K : StorageKeys) (U : Set JobId) (Q : α → Set Custody → Prop)
    (T : Set Custody) (x : Call Ledger α) : Prop :=
  Call.Keeps (custody K U) none (fun _ => True) Q (fun _ => True) T x

theorem ordinaryIds_cons (e : JobEnvelope) (es : List JobEnvelope) :
    ordinaryIds (e :: es) =
      if e.jobMeta.unique then ordinaryIds es else e.id :: ordinaryIds es := by
  simp only [ordinaryIds]
  cases he : e.jobMeta.unique
  · rw [List.filter_cons_of_pos (by simp [he])]
    rfl
  · rw [List.filter_cons_of_neg (by simp [he])]
    rfl

/-- The pipeline of a chunk of ordinary jobs stores and places each of them, token by token. -/
theorem ordinaryWrites_produces {es : List JobEnvelope} (destination : JobDestination)
    (hes : ∀ e ∈ es, e.jobMeta.unique = false ∧ K.Plain e.queue)
    (hnd : (ordinaryIds es ++ ids).Nodup) :
    Produces K U (fun _ T => T = Custody.freshes ids) (Custody.freshes (ordinaryIds es ++ ids))
      (pipe .hset (es.flatMap (ordinaryWrites K destination))) := by
  induction es with
  | nil => exact .pipe_nil rfl
  | cons e es ih =>
    obtain ⟨hord, hq⟩ := hes e (List.mem_cons_self ..)
    rw [ordinaryIds_cons, hord] at hnd ⊢
    replace hnd : (e.id :: (ordinaryIds es ++ ids)).Nodup := hnd
    have hrest := ih (fun e' he => hes e' (List.mem_cons_of_mem _ he)) (List.nodup_cons.mp hnd).2
    refine .pipe_cons fun w hinv _ hT => ⟨Custody.staging e.id (ordinaryIds es ++ ids), ?_, ?_⟩
    · rw [World.after, hset_ok hinv.typed.jobs]
      exact Custody.trade_record hinv hq hnd hT
    · refine .pipe_cons fun w hinv _ hT => ⟨_, ?_, hrest⟩
      cases destination with
      | queue =>
        have hf : w.store.Fits (K.namespaceQueue e.queue) .list :=
          hinv.typed.places (.ready e.queue) hq
        show (custody K U).Trades none _ _ w (w.after (lpush (K.namespaceQueue e.queue) e.id))
        rw [World.after, lpush_ok hf]
        exact Custody.trade_place hinv hq hnd hT .queue
      | schedule =>
        have hf : w.store.Fits K.schedule .zset := hinv.typed.places .schedule trivial
        show (custody K U).Trades none _ _ w
          (w.after (zadd K.schedule e.jobMeta.scheduledAt.toInt e.id))
        rw [World.after, zadd_ok hf]
        exact Custody.trade_place hinv hq hnd hT .schedule

end Pipelines

/-! ## Script calls -/

section Calls

variable {e : JobEnvelope} {es : List JobEnvelope} {ids : List JobId}

theorem PlacementInv.valid (hinv : PlacementInv K U w) : Valid K w.store := by
  intro id p hp
  obtain ⟨e, he, -⟩ := (hinv.jobs id).good p hp
  rw [he]
  rfl

theorem JobEnvelope.not_replaces (h : e.jobMeta.unique = true → e.skips = true) :
    e.replaces = false := by
  simp only [JobEnvelope.replaces]
  simp only [JobEnvelope.skips] at h
  cases hu : e.jobMeta.unique
  · rfl
  · simpa [hu] using h

/-- A job that is nowhere is stored and placed in one step. -/
theorem Changes.enqueued {s : Store} (hs : StoreTyped K s) (hq : K.Plain e.queue)
    (destination : JobDestination) :
    ∃ f, Changes K s e.id f (place K destination e (record K e s)) ∧
      ∀ p, f ⟨p, 0⟩ = ⟨some e.encode, only (e.loc destination)⟩ := by
  have h₁ := Changes.setField e.id hs e.encode
  obtain ⟨f, h₂, hf⟩ := Changes.placed (s := record K e s) h₁.typed hq destination
  exact ⟨_, h₁.trans h₂, fun p => hf _⟩

/-- One envelope of a call of the script is stored and placed, or skipped, and its token is given
up. -/
theorem enqueueSpec_trades (hinv : PlacementInv K U w) (he : Enqueueable K U e)
    (hnd : (ordinaryIds (e :: es) ++ ids).Nodup)
    (hT : ∀ t ∈ Custody.freshes (ordinaryIds (e :: es) ++ ids), (custody K U).owns t w)
    (destination : JobDestination) :
    (custody K U).Trades none (Custody.freshes (ordinaryIds (e :: es) ++ ids))
      (Custody.freshes (ordinaryIds es ++ ids)) w
      { w with store := enqueueSpec K destination w.store e } := by
  have hmine : ∀ t ∈ Custody.freshes (ordinaryIds (e :: es) ++ ids),
      (custody K U).owns t w ∧ Custody.Mine none t :=
    fun t ht => ⟨hT t ht, Custody.freshes_mine t ht⟩
  obtain ⟨f, hch, hf⟩ := Changes.enqueued hinv.typed he.plain destination
  have hrep : e.replaces = false := JobEnvelope.not_replaces he.skips
  rw [ordinaryIds_cons] at hnd hT hmine ⊢
  cases hu : e.jobMeta.unique with
  | true =>
    simp only [hu, if_true] at hnd hT hmine ⊢
    simp only [enqueueSpec]
    rw [he.skips hu, hrep]
    rcases hp : payloadOf K.jobs w.store e.id with _ | p
    · -- a unique job that is not stored is nowhere, and nobody owns it
      have hplaces : (jobView K w.store e.id).places = 0 :=
        by_contra fun h => (hinv.jobs e.id).stored h hp
      have hview : jobView K w.store e.id = ⟨none, 0⟩ := by
        rw [← hp]
        exact congrArg (JobView.mk _) hplaces
      refine Custody.trade_unowned hinv hmine hch ?_ ?_
      · rw [hview, hf]
        exact .at_place (goodPayload_of_plain he.plain) (fun h => absurd (he.unique hu) h) _
      · intro t htid hown
        have h : t.Holds U w.ghost (jobView K w.store t.id) := hown
        have hUt : t.id ∈ U := htid ▸ he.unique hu
        rw [htid, hview] at h
        cases t with
        | claim p id => exact absurd rfl h.2
        | fresh id => exact h.1 hUt
        | staged id => exact h.1 hUt
    · exact .refl hinv hT Custody.freshes_mine
  | false =>
    have hskips : e.skips = false := by
      simp only [JobEnvelope.skips]
      rw [hu]
      rfl
    simp only [hu, Bool.false_eq_true, if_false, List.cons_append] at hnd hT hmine ⊢
    simp only [enqueueSpec]
    rw [hskips, hrep]
    obtain ⟨hU, hissued, hview⟩ := hT (.fresh e.id) ⟨e.id, List.mem_cons_self .., rfl⟩
    replace hview : jobView K w.store e.id = ⟨none, 0⟩ := hview
    refine Custody.trade_one hinv hmine hch ?_ ?_ ?_ ?_
    · rw [hview, hf]
      exact .at_place (goodPayload_of_plain he.plain) (fun _ => hissued) _
    · intro t htid hown
      have h : t.Holds U w.ghost (jobView K w.store t.id) := hown
      rw [htid, hview] at h
      cases t with
      | claim p id => exact absurd rfl h.2
      | fresh id => exact ⟨id, htid ▸ List.mem_cons_self .., rfl⟩
      | staged id => exact absurd rfl h.2.2
    · rintro t ⟨id, hid, rfl⟩ -
      exact ⟨id, List.mem_cons_of_mem _ hid, rfl⟩
    · rintro t ⟨id, hid, rfl⟩ htid
      exact absurd (htid ▸ hid) (List.nodup_cons.mp hnd).1

/-- All envelopes of a call of the script are stored and placed, or skipped, one after the other. -/
theorem enqueueSpecs_trade (hinv : PlacementInv K U w) (hes : ∀ e ∈ es, Enqueueable K U e)
    (hnd : (ordinaryIds es ++ ids).Nodup)
    (hT : ∀ t ∈ Custody.freshes (ordinaryIds es ++ ids), (custody K U).owns t w)
    (destination : JobDestination) :
    (custody K U).Trades none (Custody.freshes (ordinaryIds es ++ ids)) (Custody.freshes ids) w
      { w with store := es.foldl (enqueueSpec K destination) w.store } := by
  induction es generalizing w with
  | nil => exact .refl hinv hT Custody.freshes_mine
  | cons e es ih =>
    have h₁ := enqueueSpec_trades hinv (hes e (List.mem_cons_self ..)) hnd hT destination
    have hnd' : (ordinaryIds es ++ ids).Nodup := by
      rw [ordinaryIds_cons] at hnd
      split at hnd
      · exact hnd
      · exact (List.nodup_cons.mp hnd).2
    exact h₁.trans (ih h₁.inv (fun e' he => hes e' (List.mem_cons_of_mem _ he)) hnd' h₁.owns)

/-- A call without replacements needs no snapshots. -/
theorem covered_nil (hes : ∀ e ∈ es, e.replaces = false) (c : JobId → Prop) : Covered c es := by
  induction es generalizing c with
  | nil => trivial
  | cons e es ih =>
    refine ⟨fun h => ?_, ih (fun e' he => hes e' (List.mem_cons_of_mem _ he)) _⟩
    rw [hes e (List.mem_cons_self ..)] at h
    cases h

theorem replacementIds_nil (hes : ∀ e ∈ es, e.replaces = false) (overwritten : List JobId) :
    replacementIds es overwritten = [] := by
  induction es generalizing overwritten with
  | nil => rfl
  | cons e es ih =>
    have hrest := fun o => ih (fun e' he => hes e' (List.mem_cons_of_mem _ he)) o
    rw [replacementIds]
    split
    · next h =>
      have hord : e.jobMeta.unique = false := by
        have hrep := hes e (List.mem_cons_self ..)
        have huncond := h.1
        simp only [JobEnvelope.replaces] at hrep
        simp only [JobEnvelope.unconditional] at huncond
        cases hu : e.jobMeta.unique <;> simp_all
      rw [hord, if_neg Bool.false_ne_true]
      exact hrest _
    · exact hrest _

theorem snapshotsOf_nil : Snapshots.Of [] [] :=
  ⟨List.nodup_nil, fun _ => Iff.rfl, fun _ _ h => absurd h List.not_mem_nil⟩

/-- Without replacements the script commits at its first call, whatever the snapshots. -/
theorem enqueuePending_produces (hes : ∀ e ∈ es, Enqueueable K U e)
    (hnd : (ordinaryIds es ++ ids).Nodup) (destination : JobDestination) :
    Produces K U (fun _ T => T = Custody.freshes ids) (Custody.freshes (ordinaryIds es ++ ids))
      (enqueuePending K destination [] es) := by
  simp only [enqueuePending]
  split
  · next h =>
    subst h
    exact .pure rfl
  · refine .ask fun c => ?_
    rcases c.rounds with _ | n
    · exact .hang
    · refine Keeps.bind (Q := fun reply T => reply.changed = [] ∧ T = Custody.freshes ids)
        (R := fun _ => True) ?_ ?_ fun _ h => h
      · refine .send trivial fun w hinv _ hT => ?_
        have hrep : ∀ e ∈ es, e.replaces = false :=
          fun e he => JobEnvelope.not_replaces (hes e he).skips
        rcases enqueueCall_refines destination snapshotsOf_nil (covered_nil hrep _)
          (PlacementInv.valid hinv) with hno | ⟨hne, -⟩ | ⟨outcomes, hrun⟩
        · exact hno.sends hinv hT Custody.freshes_mine trivial
        · exact absurd rfl hne
        · refine ⟨Custody.freshes ids, ?_, trivial, fun a ha => ?_⟩
          · rw [World.after, hrun]
            exact enqueueSpecs_trade hinv hes hnd hT destination
          · rw [hrun] at ha
            obtain rfl := Except.ok.inj ha
            exact ⟨rfl, rfl⟩
      · rintro reply _ ⟨hch, rfl⟩
        rw [if_pos hch]
        exact .pure rfl

end Calls

/-! ## Requests -/

section Requests

variable {es : List JobEnvelope} {ids : List JobId}

/-- Only envelopes that may be skipped are left out of a chunk, so its ordinary jobs are all there.
-/
theorem ordinaryIds_pendingOf (written seen : List JobId) :
    ordinaryIds (pendingOf written es seen) = ordinaryIds es := by
  induction es generalizing seen with
  | nil => rfl
  | cons e es ih =>
    rw [pendingOf, ordinaryIds_cons]
    split
    · next h =>
      have hu : e.jobMeta.unique = true := (Bool.and_eq_true_iff.mp h.1).1
      rw [hu, if_pos rfl, ih]
    · rw [ordinaryIds_cons, ih]

theorem ordinaryIds_dropExisting (existing : List JobId) :
    ordinaryIds (dropExisting existing es) = ordinaryIds es := by
  induction es with
  | nil => rfl
  | cons e es ih =>
    by_cases h : e.skips ∧ e.id ∈ existing
    · have hu : e.jobMeta.unique = true := (Bool.and_eq_true_iff.mp h.1).1
      rw [dropExisting_cons_drop h, ordinaryIds_cons, hu, if_pos rfl, ih]
    · rw [dropExisting_cons_keep h, ordinaryIds_cons, ordinaryIds_cons, ih]

theorem mem_of_mem_pendingOf {written seen : List JobId} {e : JobEnvelope}
    (h : e ∈ pendingOf written es seen) : e ∈ es := by
  induction es generalizing seen with
  | nil => exact h
  | cons e' es ih =>
    rw [pendingOf] at h
    split at h
    · exact List.mem_cons_of_mem _ (ih h)
    · rcases List.mem_cons.mp h with rfl | h
      · exact List.mem_cons_self ..
      · exact List.mem_cons_of_mem _ (ih h)

/-- Enqueueing the unique jobs of a chunk keeps the placement of all jobs. -/
theorem enqueueUnique_produces (hes : ∀ e ∈ es, Enqueueable K U e)
    (hnd : (ordinaryIds es ++ ids).Nodup) (destination : JobDestination) :
    Produces K U (fun _ T => T = Custody.freshes ids) (Custody.freshes (ordinaryIds es ++ ids))
      (enqueueUnique K destination es) := by
  have hrep : ∀ e ∈ es, e.replaces = false :=
    fun e he => JobEnvelope.not_replaces (hes e he).skips
  simp only [enqueueUnique]
  split
  · next h =>
    subst h
    exact .pure rfl
  · rw [replacementIds_nil hrep]
    refine Keeps.bind (Q := fun m T => m = [] ∧ T = Custody.freshes (ordinaryIds es ++ ids))
      (R := fun _ => True) (.pure ⟨rfl, rfl⟩) ?_ fun _ h => h
    rintro _ _ ⟨rfl, rfl⟩
    refine Keeps.bind (Q := fun _ T => T = Custody.freshes (ordinaryIds es ++ ids))
      (R := fun _ => True) ?_ ?_ fun _ h => h
    · simp only [readExisting]
      split
      · exact .pure rfl
      · refine Keeps.bind (Q := fun _ T => T = Custody.freshes (ordinaryIds es ++ ids))
          (R := fun _ => True) (.pipe_read Custody.freshes_mine ?_) ?_ fun _ h => h
        · intro x hx s
          obtain ⟨id, -, rfl⟩ := List.mem_map.mp hx
          exact hexists_snd ..
        · rintro _ _ rfl
          exact .pure rfl
    · rintro existing _ rfl
      rw [← ordinaryIds_dropExisting (snapshotSkips es [] ++ existing)] at hnd ⊢
      exact enqueuePending_produces (fun e he => hes e (List.mem_filter.mp he).1) hnd destination

/-- Enqueueing a chunk, ordinary jobs and unique ones, keeps the placement of all jobs. -/
theorem enqueueChunk_produces (hes : ∀ e ∈ es, Enqueueable K U e)
    (hnd : (ordinaryIds es ++ ids).Nodup) (destination : JobDestination) (written : List JobId) :
    Produces K U (fun _ T => T = Custody.freshes ids) (Custody.freshes (ordinaryIds es ++ ids))
      (enqueueChunk K es destination written) := by
  simp only [enqueueChunk]
  split
  · next h =>
    have hord : ∀ e ∈ es, e.jobMeta.unique = false ∧ K.Plain e.queue := by
      intro e he
      have := List.all_eq_true.mp h e he
      exact ⟨by simpa using this, (hes e he).plain⟩
    refine (ordinaryWrites_produces destination hord hnd).bind ?_ fun _ h => h
    rintro _ _ rfl
    exact .pure rfl
  · rw [← ordinaryIds_pendingOf written []] at hnd ⊢
    have hpending : ∀ e ∈ pendingOf written es [], Enqueueable K U e :=
      fun e he => hes e (mem_of_mem_pendingOf he)
    refine (enqueueUnique_produces hpending hnd destination).bind ?_ fun _ h => h
    rintro _ _ rfl
    exact .pure rfl

theorem enqueueOne_produces {e : JobEnvelope} (he : Enqueueable K U e)
    (destination : JobDestination) :
    Produces K U (fun _ _ => True) (Custody.freshes (ordinaryIds [e])) (enqueueOne K e destination)
    := by
  have hes : ∀ e' ∈ [e], Enqueueable K U e' := fun e' h => List.mem_singleton.mp h ▸ he
  have hnd : (ordinaryIds [e] ++ []).Nodup := by
    rw [ordinaryIds_cons]
    split <;> simp [ordinaryIds]
  have hchunk := enqueueChunk_produces hes hnd destination []
  rw [List.append_nil] at hchunk
  refine Keeps.bind (R := fun _ => True) (.connection trivial) ?_ fun _ h => h
  rintro _ _ rfl
  exact hchunk.bind (fun _ _ _ => .pure trivial) fun _ h => h

theorem enqueueAt_produces {e : JobEnvelope} (he : Enqueueable K U e) :
    Produces K U (fun _ _ => True) (Custody.freshes (ordinaryIds [e])) (enqueueAt K e) := by
  refine Keeps.bind (R := fun _ => True) (.now Custody.freshes_mine) ?_ fun _ h => h
  rintro t _ rfl
  split
  · exact enqueueOne_produces he .queue
  · exact enqueueOne_produces he .schedule

theorem ordinaryIds_append (es es' : List JobEnvelope) :
    ordinaryIds (es ++ es') = ordinaryIds es ++ ordinaryIds es' := by
  rw [ordinaryIds, List.filter_append, List.map_append]
  rfl

theorem enqueueChunks_produces {cs : List (List JobEnvelope)} (destination : JobDestination)
    (hes : ∀ c ∈ cs, ∀ e ∈ c, Enqueueable K U e) (hnd : (ordinaryIds cs.flatten).Nodup)
    (written : List JobId) :
    Produces K U (fun _ _ => True) (Custody.freshes (ordinaryIds cs.flatten))
      (enqueueChunks K destination cs written) := by
  induction cs generalizing written with
  | nil => exact .pure trivial
  | cons c cs ih =>
    rw [List.flatten_cons, ordinaryIds_append] at hnd ⊢
    have hchunk := enqueueChunk_produces (hes c (List.mem_cons_self ..)) hnd destination written
    refine hchunk.bind ?_ fun _ h => h
    rintro written' _ rfl
    exact ih (fun c' hc => hes c' (List.mem_cons_of_mem _ hc)) (List.nodup_append.mp hnd).2.1 _

theorem flatten_enqueueListChunks (es : List JobEnvelope) :
    (enqueueListChunks es).flatten = es := flatten_toChunks 100 es

/-- Enqueueing a list of jobs keeps the placement of all jobs, if the ids of the ordinary ones are
new and different. -/
theorem enqueueList_produces (hes : ∀ e ∈ es, Enqueueable K U e) (hnd : (ordinaryIds es).Nodup) :
    Produces K U (fun _ _ => True) (Custody.freshes (ordinaryIds es)) (enqueueList K es) := by
  simp only [enqueueList]
  split
  · exact .pure trivial
  · refine Keeps.bind (R := fun _ => True) (.connection trivial) ?_ fun _ h => h
    rintro _ _ rfl
    have hflat := flatten_enqueueListChunks es
    rw [← hflat] at hnd
    have hchunks : Produces K U (fun _ _ => True) (Custody.freshes (ordinaryIds es))
        (enqueueChunks K .queue (enqueueListChunks es) []) := by
      have hall : ∀ c ∈ enqueueListChunks es, ∀ e ∈ c, Enqueueable K U e := by
        intro c hc e he
        refine hes e ?_
        rw [← hflat]
        exact List.mem_flatten.mpr ⟨c, hc, he⟩
      have h := enqueueChunks_produces .queue hall hnd []
      rwa [hflat] at h
    exact hchunks.bind (fun _ _ _ => .pure trivial) fun _ h => h

end Requests

end Oxana
