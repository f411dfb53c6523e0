import Oxana.WorkerSteps
import Oxana.Interleave.Pair

/-!
# Deleting a job somebody works on

A worker goes on with the envelope it has loaded, so a job that is deleted
meanwhile comes back when the worker writes the envelope once more: when it
starts the job, keeps a state for it or schedules a retry. As long as none of
these follows the deletion, the job stays deleted (`deleted_stays_deleted`):
acknowledgments and releases bring nothing back.
-/

namespace Oxana

open Redis Script Interleave Call

variable {γ : Type} {K : StorageKeys} {p p' : String} {d d' : Option Nat} {id : JobId}
  {ids : List JobId}

/-- The job waits on no ready list and not in the schedule; it may be in the retry set, and it may
be claimed. -/
structure Unqueued (K : StorageKeys) (id : JobId) (s : Store) : Prop where
  /-- the keys have their types -/
  typed : StoreTyped K s
  /-- not on ready lists nor in the schedule -/
  unqueued : ∀ l : Loc, l.Waiting → l ≠ .retry → occ K s id l = 0

/-- The job is deleted: it has no payload and waits nowhere, so that at most claims of it are left.
-/
structure Gone (K : StorageKeys) (id : JobId) (s : Store) : Prop where
  /-- the keys have their types -/
  typed : StoreTyped K s
  /-- nothing is stored -/
  payload : payloadOf K.jobs s id = none
  /-- it waits nowhere -/
  waiting : ∀ l : Loc, l.Waiting → occ K s id l = 0

/-- The steps of a worker put the job on no ready list. -/
theorem Unqueued.step {H : Handle} {l : Request} {w w' : World γ} (hw : Unqueued H.keys id w.store)
    (h : WorkStep H l w w') : Unqueued H.keys id w'.store := by
  have hdoes := h.does hw.typed
  refine ⟨hdoes.typed, fun l hl hne => Nat.le_zero.mp ?_⟩
  rw [← hw.unqueued l hl hne]
  exact hdoes.stays id l hl hne

/-- Once the job is gone, the steps of a worker that do not store it leave it gone. -/
theorem Gone.step {H : Handle} {l : Request} {w w' : World γ} (hw : Gone H.keys id w.store)
    (h : WorkStep H l w w') (hl : ¬ l.Stores id) : Gone H.keys id w'.store := by
  have hdoes := h.does hw.typed
  have hwanes := hdoes.wanes id hl
  refine ⟨hdoes.typed, hwanes.1 hw.payload, fun l hl => Nat.le_zero.mp ?_⟩
  rw [← hw.waiting l hl]
  exact hwanes.2 l

/-- The steps of a deletion store nothing. -/
theorem DeleteStep.not_stores {H : Handle} {l : Request} {w w' : World γ}
    (h : DeleteStep H id' l w w') : ¬ l.Stores id := by
  cases h with
  | reads hl =>
    rcases hl with rfl | rfl | rfl
    all_goals
      rintro (⟨ids, h, -⟩ | h)
      all_goals cases h
  | deletes queueKeys =>
    rintro (⟨ids, h, -⟩ | h)
    all_goals cases h

/-- The transaction leaves nothing of a job that is on no ready list. -/
theorem Unqueued.deleted {H : Handle} {s : Store} (hs : Unqueued H.keys id s)
    (queueKeys : List Key) : Gone H.keys id (H.deletion id queueKeys s).2 := by
  have hdel := deletion_deletes id hs.typed queueKeys
  refine ⟨hdel.typed, hdel.payload, fun l hl => ?_⟩
  by_cases hne : l = .retry
  · rw [hne]
    exact hdel.delayed.2
  · refine Nat.le_zero.mp ?_
    rw [← hs.unqueued l hl hne]
    exact (hdel.wanes id).2 l

/-- **Deleted for good**: a client deletes a job that a worker has claimed. From
the moment of the deletion on, as long as the worker stores no payload for it, none is
stored for the job and the job waits nowhere. -/
theorem deleted_stays_deleted {w w' : World γ}
    {x x' : Prog Request (World γ) Choice (Except OxanaError Unit)}
    {tr tr' : List (Side × Prog.Event Request (World γ))} {e : Prog.Event Request (World γ)}
    (htyped : StoreTyped K w.store) (hclaimed : occ K w.store id = only (.processing p'))
    (h : Run (deleteJob ⟨K, p, d⟩ id) (workOn ⟨K, p', d'⟩ ids) w (tr ++ (.left, e) :: tr') x x' w')
    (hcommit : e.label = .transaction id)
    (hquiet : ∀ e', (.right, e') ∈ tr' → ¬ e'.label.Stores id) :
    payloadOf K.jobs w'.store id = none ∧ ∀ l : Loc, l.Waiting → occ K w'.store id l = 0 := by
  obtain ⟨x₁, x₁', w₁, h₁, h₂⟩ := h.split
  have hw : Unqueued K id w.store := by
    refine ⟨htyped, fun l hl _ => ?_⟩
    rw [hclaimed]
    exact only_ne (hl p')
  have hdelete : Prog.Always (fun _ _ => True) (DeleteStep ⟨K, p, d⟩ id) (fun _ => True)
      (deleteJob ⟨K, p, d⟩ id : Call γ Unit) := (deleteJob_steps id).steps fun _ _ h => h
  have hwork : Prog.Always (fun _ _ => True) (WorkStep ⟨K, p', d'⟩) (fun _ => True)
      (workOn ⟨K, p', d'⟩ ids : Call γ Unit) := (workOn_steps ids).steps fun _ _ h => h
  -- before the deletion the worker brings the job to no ready list
  obtain ⟨hw₁, hx₁, hx₁'⟩ := h₁.always (I := fun w => Unqueued K id w.store) hw
    (fun _ _ _ => trivial) (fun _ _ _ => trivial) hdelete hwork
    (fun _ _ hI hstep => hI.step hstep.workStep) fun _ _ hI hstep => hI.step hstep
  obtain ⟨hpre, hstep, x₂, x₂', h₃, hx₂, hx₂'⟩ := h₂.next_left hx₁ hx₁' trivial
  have hgone : Gone K id e.post.store := by
    rw [hcommit, hpre] at hstep
    generalize e.post = w₂ at hstep
    cases hstep with
    | reads hl => rcases hl with hl | hl | hl <;> cases hl
    | deletes queueKeys => exact Unqueued.deleted (H := ⟨K, p, d⟩) hw₁ queueKeys
  -- and afterwards nothing comes back
  obtain ⟨hw', -⟩ := h₃.always (I := fun w => Gone K id w.store) hgone
    (fun _ _ _ => trivial) (fun _ _ _ => trivial) hx₂ hx₂'
    (fun _ _ hI hstep => hI.step hstep.workStep hstep.not_stores)
    fun e' he' hI hstep => hI.step hstep (hquiet e' he')
  exact ⟨hw'.payload, hw'.waiting⟩

/-! ## A job deleted under its worker -/

/-- The world in which process `q` has claimed `b`. -/
def held : World Unit :=
  ⟨(Store.empty.put (StorageKeys.new "").jobs (.hash [("b", (welcome "b").encode)])).put
    ((StorageKeys.new "").processingQueue "q") (.list ["b"]), 10, ()⟩

/-- The transaction with which process `p` deletes `b`. -/
def removal : Script Unit := dropping.deletion "b" [(StorageKeys.new "").namespaceQueue "mail"]

/-- All keys of the world in which the job is claimed have their types. -/
theorem held_typed : StoreTyped (.new "") held.store :=
  (storeTyped_empty.put_jobs _).put_place (l := .processing "q") trivial rfl

theorem held_view (id : JobId) : jobView (.new "") held.store id =
    if id = "b" then ⟨some (welcome "b").encode, only (.processing "q")⟩ else ⟨none, 0⟩ := by
  have hview := jobView_put_place (K := .new "") id (l := .processing "q")
    (s := Store.empty.put (StorageKeys.new "").jobs (.hash [("b", (welcome "b").encode)]))
    trivial (.list ["b"])
  have hempty : occ (.new "") (Store.empty.put (StorageKeys.new "").jobs
      (.hash [("b", (welcome "b").encode)])) id = 0 := by
    funext l
    exact (occ_put_of_ne (fun hl => Loc.key_ne_jobs hl) _).trans (occ_empty _ l)
  rw [hempty, payloadOf, Store.hash_put_self] at hview
  refine hview.trans ?_
  by_cases h : id = "b"
  · subst h
    rw [if_pos rfl]
    exact congrArg (JobView.mk _) (update_zero_one _)
  · have hlookup : List.lookup id [("b", (welcome "b").encode)] = none := by
      simp [List.lookup_cons, beq_false_of_ne h]
    have hcount : occursIn id (.list ["b"]) = 0 := List.count_eq_zero.mpr (by simpa using h)
    rw [if_neg h, hlookup, hcount]
    exact congrArg (JobView.mk _) (Function.update_eq_self _ _)

/-- The job is claimed by `q`, and nowhere else. -/
theorem held_claimed : occ (.new "") held.store "b" = only (.processing "q") :=
  congrArg JobView.places (held_view "b")

/-- A client of another process deletes the job: it reads the payload and executes the transaction.
-/
theorem held_deleted : Call.Returns (deleteJob dropping "b")
    [⟨.hget, held, held⟩, ⟨.transaction "b", held, held.after removal⟩] () := by
  have hget : Call.Returns (send .hget (hget dropping.keys.jobs "b"))
      [⟨.hget, held, held⟩] (some (welcome "b").encode) := Call.Returns.send held rfl
  have hkeys : Call.Returns (queueKeysOf dropping.keys (some (welcome "b").encode) : Call Unit _)
      [] [(StorageKeys.new "").namespaceQueue "mail"] := by
    rw [queueKeysOf, rawQueue_encode]
    exact .pure _
  exact Call.Returns.connection.bind (hget.bind (hkeys.bind (.send held rfl)))

/-- The job has been deleted while a process holds it; its worker writes nothing about it, so it
stays deleted. -/
theorem held_stays_deleted : ∃ w' : World Unit, w' = held.after removal ∧
    payloadOf (StorageKeys.new "").jobs w'.store "b" = none ∧
      ∀ l : Loc, l.Waiting → occ (.new "") w'.store "b" l = 0 :=
  have hrun : Run (deleteJob dropping "b") (workOn ⟨.new "", "q", none⟩ ["b"]) held
      ([(.left, ⟨.hget, held, held⟩)] ++
        (.left, ⟨.transaction "b", held, held.after removal⟩) :: []) _ _ (held.after removal) :=
    Run.of_left held_deleted ⟨rfl, rfl, rfl⟩ _
  ⟨_, rfl, deleted_stays_deleted held_typed held_claimed hrun rfl
    fun _ h => absurd h List.not_mem_nil⟩

/-- The handle of process `q`, whose worker has claimed `b`. -/
def holder : Handle := ⟨.new "", "q", none⟩

/-- The job as the worker of process `q` starts it. -/
def begun : JobEnvelope := (welcome "b").normalize.withStartedAt (Int64.ofInt 10)

/-- The world once the worker has started the deleted job. -/
def revived : World Unit :=
  (held.after removal).after (hsetMultiple (StorageKeys.new "").jobs [(begun.id, begun.encode)])

/-- The worker has loaded the job that it has claimed. -/
theorem held_loaded {w : World γ} (hw : w.store = held.store) :
    Prog.Trace (workOn holder ["b"]) [⟨.hget, w, w⟩]
      (processPending holder [(welcome "b").normalize]) := by
  have hget : Call.Returns (send .hget (hget holder.keys.jobs "b")) [⟨.hget, w, w⟩]
      (some (welcome "b").encode) := by
    have hsend := Call.Returns.send (l := .hget) (x := hget holder.keys.jobs "b") w
      (a := some (welcome "b").encode) (by rw [hw]; rfl)
    rwa [World.after_read (hget_snd ..)] at hsend
  have hsnap : Call.Returns (transitionSnapshot holder.keys "b") [⟨.hget, w, w⟩]
      (some ((welcome "b").encode, (welcome "b").normalize)) :=
    hget.bind ((Call.Returns.decoded (decode_encode _)).bind (.pure _))
  have hfind : Call.Returns (getClaimedJob holder "b") [⟨.hget, w, w⟩]
      (some (welcome "b").normalize) :=
    .ask { rounds := 0 } (Call.Returns.connection.bind (hsnap.bind (.pure _)))
  have hone : Call.Returns (loadPendingJob holder "b") [⟨.hget, w, w⟩]
      (some (welcome "b").normalize) := hfind.bind (.pure _)
  have hrest : Call.Returns (loadPendingJobs holder [] : Call γ _) [] [] := .pure _
  have hload : Call.Returns (loadPendingJobs holder ["b"]) [⟨.hget, w, w⟩]
      [(welcome "b").normalize] := hone.bind (hrest.bind (.pure _))
  exact Prog.Trace.bind hload (.refl _)

/-- The worker marks the job as started after it has been deleted, and so stores it again. -/
theorem held_started : ∃ x, Prog.Trace (processPending holder [(welcome "b").normalize])
    [⟨.now, held.after removal, held.after removal⟩,
      ⟨.update ["b"], held.after removal, revived⟩] x := by
  have hvalid : Call.Returns (killInvalid holder [(welcome "b").normalize] : Call Unit _) []
      [(welcome "b").normalize] := .ask Call.fine (Call.Returns.bind (.pure _) (.pure _))
  have hupdate : Call.Returns (updateJobs holder [begun])
      [⟨.update ["b"], held.after removal, revived⟩] () :=
    Call.Returns.connection.bind (.send (held.after removal) rfl)
  have hstart : Call.Returns (setStartedAtBatch holder [(welcome "b").normalize]) _ [begun] :=
    (Call.Returns.now (held.after removal)).bind (hupdate.bind (.pure _))
  exact ⟨_, Prog.Trace.bind hvalid (Prog.Trace.ask (i := Call.fine)
    (Prog.Trace.bind hstart (.refl _)))⟩

/-- The job is deleted while its worker is about to start it: the worker stores it again, and it
comes back. -/
theorem deleted_comes_back : ∃ tr e tr' x x', ∃ w' : World Unit,
    Run (deleteJob dropping "b") (workOn holder ["b"]) held (tr ++ (.left, e) :: tr') x x' w' ∧
      e.label = .transaction "b" ∧ payloadOf (StorageKeys.new "").jobs e.post.store "b" = none ∧
      payloadOf (StorageKeys.new "").jobs w'.store "b" = some begun.encode := by
  obtain ⟨x', hx'⟩ := held_started
  have h₁ := Run.of_right (held_loaded rfl) (s := held) ⟨rfl, rfl⟩ (deleteJob dropping "b")
  have h₂ := Run.of_left held_deleted (s := held) ⟨rfl, rfl, rfl⟩
    (processPending holder [(welcome "b").normalize])
  have h₃ := Run.of_right hx' (s := held.after removal) ⟨rfl, rfl, rfl⟩
    (.ret (.ok ()) : Prog Request (World Unit) Choice (Except OxanaError Unit))
  exact ⟨[(.right, ⟨.hget, held, held⟩), (.left, ⟨.hget, held, held⟩)],
    ⟨.transaction "b", held, held.after removal⟩, _, _, _, _, h₁.append (h₂.append h₃), rfl, rfl, rfl⟩

end Oxana
