import Oxana.Executor
import Oxana.Resumption
import Oxana.SavedState

/-!
# Progress

A handler that works through a sequence saves how far it has come: whenever it asks for the next
item, the one before is completed, and the number of completed items is saved in the state of the
job. The next attempt reads it again and goes on from there.

`ProgressStep` is the life of such a job, from attempt to attempt. It is a `Resumption.Run`
(`Progresses`), and so nothing is skipped (`progress_resumes`).
-/

namespace Oxana

open Redis Interleave Call

/-- How far a job has come, and how far it has to go. -/
structure JobProgress where
  /-- behind so many items -/
  cursor : Int64
  /-- of so many -/
  total : Int64
  /-- what else there is to say -/
  note : Option String

namespace JobProgress

/-- The progress as it is saved in the state of the job. -/
def toJson (p : JobProgress) : Json.Value :=
  .obj ([("cursor", .int p.cursor.toInt), ("total", .int p.total.toInt)] ++
    member? "note" (p.note.map .str))

/-- `JobProgressRepr`: an object, an array with or without a note, or the cursor alone. -/
def ofJson : Json.Value → Option JobProgress
  | .obj ms => do
    let cursor ← required ms "cursor" decodeInt64
    let total ← withDefault ms "total" decodeInt64 0
    let note ← withDefault ms "note" (decodeOption decodeString) none
    pure ⟨cursor, total, note⟩
  | .arr [cursor, total, note] => do
    pure ⟨← decodeInt64 cursor, ← decodeInt64 total, ← decodeOption decodeString note⟩
  | .arr [cursor, total] => do pure ⟨← decodeInt64 cursor, ← decodeInt64 total, none⟩
  | v => do pure ⟨← decodeInt64 v, 0, none⟩

theorem canon_toJson (p : JobProgress) : canon p.toJson = p.toJson := by
  obtain ⟨cursor, total, _ | note⟩ := p
  · rfl
  · rfl

/-- Progress is read back from the state that it is written as. -/
theorem ofJson_toJson (p : JobProgress) : ofJson p.toJson = some p := by
  obtain ⟨cursor, total, _ | note⟩ := p
  · simp [toJson, ofJson, required, withDefault, fieldOf, member?, decodeInt64_int]
  · simp [toJson, ofJson, required, withDefault, fieldOf, member?, decodeInt64_int, decodeOption,
      decodeString]

end JobProgress

/-- A `JobProgressIterator`: the rest of `iter.enumerate().skip(cursor)` and what was handed out
last. -/
structure JobProgressIterator (α : Type) where
  /-- the items still to come, with their indices -/
  iter : List (α × ℕ)
  /-- the index of the item that is worked on -/
  currentIndex : Option ℕ
  /-- how many items there are -/
  total : ℕ

section Operations

variable {γ α : Type} (H : Handle) (id : JobId)

/-- `update_progress`: the progress is saved as the state of the job. -/
def updateProgress (p : JobProgress) : Call γ Unit := updateState H id p.toJson

/-- The progress that a state stands for, or an error of the decoder. -/
def progressOf : Option Json.Value → Call γ (Option JobProgress)
  | none => pure none
  | some state => match JobProgress.ofJson state with
    | some p => pure (some p)
    | none => fail .json

/-- `progress`: the progress that is stored for the job. -/
def progress : Call γ (Option JobProgress) := do
  let job ← getJob H id
  progressOf (job.bind (·.jobMeta.state))

namespace JobProgressIterator

/-- `usize::try_from(progress.cursor.max(0))`: the number of completed items. -/
def cursorOf (p : Option JobProgress) : ℕ :=
  (p.map fun p => (max p.cursor.toInt 0).toNat).getD 0

/-- `JobProgressIterator::new`; the hint is the least and, if there is one, the largest number of
items. -/
def new (items : List α) (hint : ℕ × Option ℕ) : Call γ (JobProgressIterator α) := do
  let p ← progress H id
  pure ⟨items.zipIdx.drop (cursorOf p), none, hint.2.getD hint.1⟩

/-- `i64::try_from`: a number as it can be saved. -/
def i64TryFrom (n : ℕ) : Option Int64 := if n < 2 ^ 63 then some (Int64.ofNat n) else none

/-- `mark_current_completed`; it fails for numbers that are too large. -/
def markCurrentCompleted (it : JobProgressIterator α) : Call γ (JobProgressIterator α) :=
  match it.currentIndex with
  | none => pure it
  | some index => match i64TryFrom (index + 1), i64TryFrom it.total with
    | some cursor, some total => do
      updateProgress H id ⟨cursor, total, none⟩
      pure { it with currentIndex := none }
    | _, _ => fail .generic

/-- `self.iter.next()`: the next item, without saving anything. -/
def advance (it : JobProgressIterator α) : Option α × JobProgressIterator α :=
  match it.iter with
  | [] => (none, it)
  | (value, index) :: rest =>
    (some value, { it with iter := rest, currentIndex := some index })

/-- `next`: the item before is marked as completed; an error ends the attempt. -/
def next (it : JobProgressIterator α) : Call γ (Option α × JobProgressIterator α) := do
  let it ← it.markCurrentCompleted H id
  pure it.advance

end JobProgressIterator

end Operations

/-! ## The stored cursor -/

/-- Behind how many items an envelope stands; `none` if its state is no progress. -/
def JobEnvelope.cursor (e : JobEnvelope) : Option ℕ :=
  match e.jobMeta.state with
  | none => some 0
  | some state => (JobProgress.ofJson state).map fun p => JobProgressIterator.cursorOf (some p)

/-- Behind how many items the stored payload stands. -/
def storedCursor (K : StorageKeys) (id : JobId) (s : Store) : Option ℕ :=
  (payloadOf K.jobs s id).bind fun p => (JobEnvelope.decode p).bind (·.cursor)

/-- A payload is an envelope of the job, behind so many items. -/
def PayloadAt (id : JobId) (c : ℕ) (payload : Option String) : Prop :=
  ∃ e : JobEnvelope, payload = some e.encode ∧ e.id = id ∧ e.normalize.cursor = some c

/-- What is stored for the job has this cursor. -/
def Tracks (K : StorageKeys) (id : JobId) (c : ℕ) (s : Store) : Prop :=
  PayloadAt id c (payloadOf K.jobs s id)

/-- The envelope has this cursor when it is read. -/
def Stands (id : JobId) (c : ℕ) (e : JobEnvelope) : Prop :=
  e.id = id ∧ e.cursor = some c ∧ e.normalize.cursor = some c

section Stored

variable {γ α : Type} {K : StorageKeys} {H : Handle} {id : JobId} {c : ℕ} {s s' : Store}
  {w w' : World γ} {allowed : Choice → Prop}

/-- While the progress of a job is tracked, its cursor can be read from the store. -/
theorem Tracks.storedCursor (h : Tracks K id c s) : storedCursor K id s = some c := by
  obtain ⟨e, hp, -, hc⟩ := h
  rw [Oxana.storedCursor, hp, Option.bind_some, decode_encode, Option.bind_some, hc]

/-- Writes that leave the payload of the job alone leave its progress alone. -/
theorem Tracks.congr (h : Tracks K id c s) (hsame : payloadOf K.jobs s' id = payloadOf K.jobs s id) :
    Tracks K id c s' := by
  obtain ⟨e, hp, he⟩ := h
  exact ⟨e, hsame.trans hp, he⟩

/-- Any read of the job finds its progress, and changes nothing. -/
theorem getJobOn_tracks (hK : H.keys = K) :
    Call.Always (fun _ w => Tracks K id c w.store) (fun _ w w' => w' = w)
      (fun found => ∃ e, found = some e ∧ Stands id c e) (getJobOn H id : Call γ _) := by
  subst hK
  have hread : Call.Always (fun _ (w : World γ) => Tracks H.keys id c w.store)
      (fun _ w w' => w' = w) (PayloadAt id c) (send .hget (hget H.keys.jobs id)) := by
    refine .read (fun s => hget_snd ..) (fun _ _ => rfl) fun w payload hw hpayload => ?_
    obtain ⟨-, rfl⟩ := onKind_inv hpayload
    exact hw
  have hsnapshot : Call.Always (fun _ (w : World γ) => Tracks H.keys id c w.store)
      (fun _ w w' => w' = w) (fun found => ∃ p e, found = some (p, e) ∧ Stands id c e)
      (transitionSnapshot H.keys id) := by
    refine hread.bind fun payload ⟨e, hp, hid, hc⟩ => ?_
    simp only [hp, decoded, decode_encode]
    exact .pure ⟨_, e.normalize, rfl, hid, hc, by rw [JobEnvelope.normalize_normalize, hc]⟩
  refine hsnapshot.bind fun found hfound => ?_
  obtain ⟨p, e, rfl, he⟩ := hfound
  exact .pure ⟨e, rfl, he⟩

theorem getJob_tracks (hK : H.keys = K) :
    Call.Always (fun _ w => Tracks K id c w.store) (fun _ w w' => w' = w)
      (fun found => ∃ e, found = some e ∧ Stands id c e) (getJob H id : Call γ _) :=
  Always.connection.bind fun _ _ => getJobOn_tracks hK

theorem getClaimedJob_tracks (hK : H.keys = K) :
    Call.Always (fun _ w => Tracks K id c w.store) (fun _ w w' => w' = w)
      (fun found => ∃ e, found = some e ∧ Stands id c e) (getClaimedJob H id : Call γ _) := by
  refine .ask fun choice => ?_
  induction choice.rounds with
  | zero => exact getJob_tracks hK
  | succ n ih =>
    refine (getJob_tracks hK).catching (fun e he => .pure he) fun e => ?_
    split
    · next h => cases h
    · exact ih
    · exact .fail _

/-- A new attempt begins behind the items that have been completed, wherever the last attempt was
interrupted. -/
theorem new_tracks (hK : H.keys = K) (items : List α) (hint : ℕ × Option ℕ) :
    Call.Always (fun _ w => Tracks K id c w.store) (fun _ w w' => w' = w)
      (fun it => it.iter = items.zipIdx.drop c ∧ it.currentIndex = none)
      (JobProgressIterator.new H id items hint : Call γ _) := by
  have hprogress : Call.Always (fun _ (w : World γ) => Tracks K id c w.store)
      (fun _ w w' => w' = w) (fun p => JobProgressIterator.cursorOf p = c) (progress H id) := by
    refine (getJob_tracks hK).bind fun found hfound => ?_
    obtain ⟨e, rfl, -, hc, -⟩ := hfound
    rw [JobEnvelope.cursor] at hc
    rw [Option.bind_some]
    split at hc
    · next h =>
      cases hc
      rw [h]
      exact .pure rfl
    · next state h =>
      obtain ⟨p, hp, hpc⟩ := Option.map_eq_some_iff.mp hc
      simp only [h, progressOf, hp]
      exact .pure hpc
  refine hprogress.bind fun p hp => .pure ⟨?_, rfl⟩
  rw [hp]

/-- Writing an envelope of the job, and maybe others, keeps its progress if the envelope has it. -/
theorem Tracks.put_fields (h : Tracks K id c s) {fvs : List (String × String)}
    (hfvs : ∀ p ∈ fvs, p.1 = id → PayloadAt id c (some p.2)) :
    Tracks K id c (s.put K.jobs (.hash (fvs.foldl (fun m p => setField p.1 p.2 m)
      (s.hash K.jobs)))) := by
  rw [Tracks, payloadOf, Store.hash_put_self]
  have hstart : PayloadAt id c ((s.hash K.jobs).lookup id) := h
  generalize s.hash K.jobs = m at hstart
  induction fvs generalizing m with
  | nil => exact hstart
  | cons p fvs ih =>
    refine ih (fun q hq => hfvs q (List.mem_cons_of_mem p hq)) _ ?_
    by_cases hp : id = p.1
    · rw [hp, lookup_setField_self, ← hp]
      exact hfvs p List.mem_cons_self hp.symm
    · rw [lookup_setField_ne hp]
      exact hstart

/-- Setting the start of a batch keeps the progress of its jobs. -/
theorem setStartedAtBatch_tracks (hK : H.keys = K) {es : List JobEnvelope}
    (hes : ∀ e ∈ es, e.id = id → e.normalize.cursor = some c) :
    Call.Always (fun _ w => Tracks K id c w.store) (fun _ _ w' => Tracks K id c w'.store)
      (fun _ => True) (setStartedAtBatch H es : Call γ _) := by
  subst hK
  refine (Always.now (Q := fun _ => True) (fun w hw => hw) fun _ _ => trivial).bind fun t _ => ?_
  refine Always.bind (Q := fun _ => True) ?_ fun _ _ => .pure trivial
  rw [updateJobs]
  split
  · exact .pure trivial
  · refine Always.connection.bind fun _ _ => .send (fun w hw => ?_) fun _ _ _ _ => trivial
    rw [World.after, hsetMultiple, onKind]
    split
    · refine hw.put_fields fun p hp hid => ?_
      obtain ⟨e', he', rfl⟩ := List.mem_map.mp hp
      obtain ⟨e, he, rfl⟩ := List.mem_map.mp he'
      exact ⟨_, rfl, hid, hes e he hid⟩
    · exact hw

/-- A retry keeps the state, so it keeps the progress of the job. -/
theorem retryIn_tracks (hK : H.keys = K) (delay : UInt64) (error : String) :
    Call.Always (fun _ w => Tracks K id c w.store) (fun _ _ w' => Tracks K id c w'.store)
      (fun _ => True) (retryIn H id delay error : Call γ _) := by
  subst hK
  refine Always.connection.bind fun _ _ => ((getJobOn_tracks rfl).weaken (fun _ _ hw => hw)
    fun _ w w' hw hsame => hsame ▸ hw).bind fun found hfound => ?_
  obtain ⟨e, rfl, hid, -, hc⟩ := hfound
  refine (Always.now (Q := fun _ => True) (fun w hw => hw) fun _ _ => trivial).bind fun t _ =>
    .send (fun w hw => ?_) fun _ _ _ _ => trivial
  have hproc := current_ne H
  rcases retryFailed_cases (s := w.store) StorageKeys.jobs_ne_retry hproc.1.symm
    hproc.2.2.2.symm (e.withRetriesIncremented error).id (e.withRetriesIncremented error).encode
    (retryScore t delay) with ⟨m, hm⟩ | ⟨-, -, -, hrun⟩
  · rw [World.after, hm]
    exact hw
  · rw [World.after, hrun]
    refine ⟨e.withRetriesIncremented error, ?_, hid, hc⟩
    show payloadOf H.keys.jobs (Store.put _ _ _) id = _
    rw [payloadOf, Store.hash_put_ne _ hproc.1.symm, Store.hash_put_ne _ StorageKeys.jobs_ne_retry,
      Store.hash_put_self, ← hid]
    exact lookup_setField_self

/-! ## Asking for the next item -/

/-- The call has written a payload in this trace. -/
def saves (tr : List (Prog.Event Request (World γ))) : Bool := tr.any fun e => e.label.updates

theorem saves_iff {tr : List (Prog.Event Request (World γ))} :
    saves tr = true ↔ ∃ e ∈ tr, e.label.updates := by
  simp [saves]

/-- An update of the state that returns has written. -/
theorem updateState_returns {v : Json.Value} {tr : List (Prog.Event Request (World γ))}
    (h : Returns (updateState H id v) tr ()) : saves tr = true := by
  obtain ⟨found, tr₁, tr₂, rfl, -, hupdate⟩ := h.bind_inv
  cases found with
  | none => exact hupdate.fail_inv.elim
  | some e =>
    obtain ⟨w, rfl, -⟩ := hupdate.connection_inv.send_inv
    exact saves_iff.mpr ⟨_, List.mem_append_right _ List.mem_cons_self, rfl⟩

/-- An envelope with progress written into its state has the cursor of that progress. -/
theorem cursor_withState (e : JobEnvelope) {n : ℕ} {total : Int64} (hn : n < 2 ^ 63) :
    (e.withState (JobProgress.toJson ⟨Int64.ofNat n, total, none⟩)).normalize.cursor = some n := by
  have hstate : (e.withState (JobProgress.toJson
      ⟨Int64.ofNat n, total, none⟩)).normalize.jobMeta.state =
        some (JobProgress.toJson ⟨Int64.ofNat n, total, none⟩) :=
    congrArg some (JobProgress.canon_toJson _)
  have hcursor : (Int64.ofNat n).toInt = n := Int64.toInt_ofNat_of_lt hn
  rw [JobEnvelope.cursor, hstate]
  simp only [JobProgress.ofJson_toJson, Option.map_some, JobProgressIterator.cursorOf, hcursor,
    Option.getD_some]
  congr 1
  omega

/-- What becomes of the item that is worked on: if the mark returns, the progress has it, and if
not, the progress has it or not. -/
theorem markCurrentCompleted_tracks {it : JobProgressIterator α}
    {tr : List (Prog.Event Request (World γ))}
    {q : Prog Request (World γ) Choice (Except OxanaError (JobProgressIterator α))}
    (ht : Prog.Trace (it.markCurrentCompleted H id) tr q) (hch : Prog.Chained w tr w')
    (hw : Tracks H.keys id c w.store) (hcur : ∀ i, it.currentIndex = some i → i = c) :
    (saves tr = false ∧ w' = w ∧
      ∀ it', q = .ret (.ok it') → it.currentIndex = none ∧ it' = it) ∨
    (saves tr = true ∧ it.currentIndex = some c ∧ Tracks H.keys id (c + 1) w'.store ∧
      ∀ it', q = .ret (.ok it') → it' = { it with currentIndex := none }) := by
  rw [JobProgressIterator.markCurrentCompleted] at ht
  split at ht
  · next hnone =>
    cases ht
    obtain rfl : w = w' := hch
    refine .inl ⟨rfl, rfl, ?_⟩
    rintro it' ⟨⟩
    exact ⟨hnone, rfl⟩
  · next i hi =>
    obtain rfl := hcur i hi
    split at ht
    · next cursor total hcursor htotal =>
      obtain ⟨p, hp, hret⟩ := trace_bind_pure ht
      rcases updateState_saves hp hch with ⟨hno, rfl⟩ | ⟨hsaves, p, e, hpay, he, hfits, rfl⟩
      · refine .inl ⟨?_, rfl, fun it' hq => ?_⟩
        · rw [Bool.eq_false_iff]
          intro h
          obtain ⟨ev, hev, hl⟩ := saves_iff.mp h
          exact hno ev hev hl
        · obtain ⟨u, rfl, -⟩ := hret it' hq
          obtain ⟨ev, hev, hl⟩ := saves_iff.mp (updateState_returns hp)
          exact absurd hl (hno ev hev)
      · refine .inr ⟨saves_iff.mpr hsaves, hi, ?_, fun it' hq => ?_⟩
        · obtain ⟨e₀, hpay', hid, -⟩ := hw
          obtain rfl := Option.some.inj (hpay.symm.trans hpay')
          rw [decode_encode] at he
          cases he
          obtain ⟨hlt, rfl⟩ : i + 1 < 2 ^ 63 ∧ Int64.ofNat (i + 1) = cursor := by
            rw [JobProgressIterator.i64TryFrom] at hcursor
            split at hcursor
            · next hlt => exact ⟨hlt, Option.some.inj hcursor⟩
            · cases hcursor
          refine ⟨e₀.normalize.withState (JobProgress.toJson ⟨Int64.ofNat (i + 1), total, none⟩),
            ?_, hid, cursor_withState e₀.normalize hlt⟩
          rw [World.after, hset_ok hfits]
          show payloadOf H.keys.jobs (w.store.put _ _) id = _
          rw [payloadOf, Store.hash_put_self, JobEnvelope.normalize_id, hid]
          exact lookup_setField_self
        · obtain ⟨u, -, hit⟩ := hret it' hq
          exact hit
    · cases ht
      obtain rfl : w = w' := hch
      refine .inl ⟨rfl, rfl, fun it' hq => ?_⟩
      cases hq

end Stored

/-! ## From attempt to attempt -/

open Resumption

/-- A job between and in its attempts, with all that has happened. -/
structure ProgressRun (γ α : Type) where
  /-- the world -/
  world : World γ
  /-- the iterator of the attempt that is going on -/
  attempt : Option (JobProgressIterator α)
  /-- the oldest event first -/
  history : List (Event α)

section Run

variable {γ α : Type} {K : StorageKeys} {id : JobId} {items : List α}

/-- The item that is worked on is completed when that is saved. -/
def completedBy (it : JobProgressIterator α) (tr : List (Prog.Event Request (World γ))) :
    List (Event α) :=
  if saves tr then it.currentIndex.toList.map .completes else []

/-- The life of a job whose handler works through the items. Handles are those of any processes; a
call that writes may fail, with or without an effect. -/
inductive ProgressStep (K : StorageKeys) (id : JobId) (items : List α) :
    ProgressRun γ α → ProgressRun γ α → Prop
  /-- What does not concern the payload: other jobs, time, claims, promotions, resurrections. -/
  | elsewhere {w w' : World γ} {attempt : Option (JobProgressIterator α)} {h : List (Event α)} :
      payloadOf K.jobs w'.store id = payloadOf K.jobs w.store id →
      ProgressStep K id items ⟨w, attempt, h⟩ ⟨w', attempt, h⟩
  /-- The job is loaded, and its start marked, maybe with that of other jobs. -/
  | starts {H : Handle} {w w₁ w₂ w' : World γ} {h : List (Event α)} {e : JobEnvelope}
      {es : List JobEnvelope} {r : Except OxanaError (List JobEnvelope)} : H.keys = K →
      Solo (fun _ => True) (getClaimedJob H id) w (.ok (some e)) w₁ →
      payloadOf K.jobs w₂.store id = payloadOf K.jobs w₁.store id →
      (∀ e' ∈ es, e'.id = id → e' = e) →
      Solo (fun _ => True) (setStartedAtBatch H es) w₂ r w' →
      ProgressStep K id items ⟨w, none, h⟩ ⟨w', none, h⟩
  /-- It is to be retried. -/
  | retries {H : Handle} {w w' : World γ} {h : List (Event α)} {r : Except OxanaError Unit}
      (delay : UInt64) (error : String) : H.keys = K →
      Solo (fun _ => True) (retryIn H id delay error) w r w' →
      ProgressStep K id items ⟨w, none, h⟩ ⟨w', none, h⟩
  /-- The handler begins to iterate; what is stored says where. -/
  | begins {H : Handle} {w w' : World γ} {h : List (Event α)} {it : JobProgressIterator α} {c : ℕ}
      (hint : ℕ × Option ℕ) : H.keys = K →
      Solo (fun _ => True) (JobProgressIterator.new H id items hint) w (.ok it) w' →
      storedCursor K id w.store = some c →
      ProgressStep K id items ⟨w, none, h⟩ ⟨w', some it, h ++ [.begins c]⟩
  /-- The handler asks for an item and gets one; what it has completed on the way is recorded. -/
  | yields {H : Handle} {w w' : World γ} {h : List (Event α)} {it it' : JobProgressIterator α}
      {tr : List (Prog.Event Request (World γ))} {v : α} {i : ℕ} : H.keys = K →
      Prog.Trace (it.next H id) tr (.ret (.ok (some v, it'))) → Prog.Chained w tr w' →
      it'.currentIndex = some i →
      ProgressStep K id items ⟨w, some it, h⟩ ⟨w', some it', h ++ completedBy it tr ++ [.yields v i]⟩
  /-- The handler asks for an item and there is none left. -/
  | ends {H : Handle} {w w' : World γ} {h : List (Event α)} {it it' : JobProgressIterator α}
      {tr : List (Prog.Event Request (World γ))} : H.keys = K →
      Prog.Trace (it.next H id) tr (.ret (.ok (none, it'))) → Prog.Chained w tr w' →
      ProgressStep K id items ⟨w, some it, h⟩ ⟨w', none, h ++ completedBy it tr ++ [.reachesEnd]⟩
  /-- The attempt is interrupted: in the handler, or anywhere while it asks for an item, by an error
  or for good. -/
  | stops {H : Handle} {w w' : World γ} {h : List (Event α)} {it : JobProgressIterator α}
      {tr : List (Prog.Event Request (World γ))}
      {q : Prog Request (World γ) Choice (Except OxanaError (Option α × JobProgressIterator α))} :
      H.keys = K → Prog.Trace (it.next H id) tr q → Prog.Chained w tr w' →
      ProgressStep K id items ⟨w, some it, h⟩ ⟨w', none, h ++ completedBy it tr ++ [.stops]⟩

/-- The iterator of an attempt that stands at this position. -/
def AttemptAt (items : List α) (c : ℕ) : Position → Option (JobProgressIterator α) → Prop
  | .idle, attempt => attempt = none
  | .between, attempt => ∃ it, attempt = some it ∧ it.currentIndex = none ∧
      it.iter = items.zipIdx.drop c
  | .within, attempt => ∃ it, attempt = some it ∧ it.currentIndex = some c ∧
      it.iter = items.zipIdx.drop (c + 1)

/-- What has happened is a run, and store and iterator are where it says. -/
def Progresses (K : StorageKeys) (id : JobId) (items : List α) (r : ProgressRun γ α) : Prop :=
  ∃ c p, Run items r.history c p ∧ Tracks K id c r.world.store ∧ AttemptAt items c p r.attempt

/-- What is known when an item has been asked for, before it is handed out: it is the one behind the
cursor. -/
theorem next_progresses {H : Handle} {w w' : World γ} {h : List (Event α)}
    {it : JobProgressIterator α} {tr : List (Prog.Event Request (World γ))}
    {q : Prog Request (World γ) Choice (Except OxanaError (Option α × JobProgressIterator α))}
    (hp : Progresses H.keys id items ⟨w, some it, h⟩)
    (ht : Prog.Trace (it.next H id) tr q) (hch : Prog.Chained w tr w') :
    ∃ c p, Run items (h ++ completedBy it tr) c p ∧ p ≠ .idle ∧ Tracks H.keys id c w'.store ∧
      ∀ next it', q = .ret (.ok (next, it')) → p = .between ∧
        ∃ it₁ : JobProgressIterator α, it₁.iter = items.zipIdx.drop c ∧
          (next, it') = it₁.advance := by
  obtain ⟨c, p, hrun, htracks, hat⟩ := hp
  have hnot : p ≠ .idle := by
    rintro rfl
    cases hat
  have hcur : ∀ i, it.currentIndex = some i → i = c := by
    intro i hi
    cases p with
    | idle => exact absurd rfl hnot
    | between =>
      obtain ⟨_, ⟨⟩, hnone, -⟩ := hat
      rw [hnone] at hi
      cases hi
    | within =>
      obtain ⟨_, ⟨⟩, hsome, -⟩ := hat
      exact Option.some.inj (hi.symm.trans hsome)
  obtain ⟨q', hmark, hret⟩ := trace_bind_pure ht
  rcases markCurrentCompleted_tracks hmark hch htracks hcur with
    ⟨hsaves, rfl, hmarked⟩ | ⟨hsaves, hsome, htracks, hmarked⟩
  · refine ⟨c, p, ?_, hnot, htracks, fun next it' hq => ?_⟩
    · rw [completedBy, hsaves]
      simpa using hrun
    · obtain ⟨it₁, hq', hadvance⟩ := hret _ hq
      obtain ⟨hnone, rfl⟩ := hmarked it₁ hq'
      cases p with
      | idle => exact absurd rfl hnot
      | between =>
        obtain ⟨_, ⟨⟩, -, hiter⟩ := hat
        exact ⟨rfl, it₁, hiter, hadvance⟩
      | within =>
        obtain ⟨_, ⟨⟩, hsome, -⟩ := hat
        rw [hnone] at hsome
        cases hsome
  · cases p with
    | idle => exact absurd rfl hnot
    | between =>
      obtain ⟨_, ⟨⟩, hnone, -⟩ := hat
      rw [hnone] at hsome
      cases hsome
    | within =>
      obtain ⟨_, ⟨⟩, -, hiter⟩ := hat
      refine ⟨c + 1, .between, ?_, nofun, htracks, fun next it' hq => ⟨rfl, ?_⟩⟩
      · rw [completedBy, hsaves, if_pos rfl, hsome]
        exact hrun.next .completes
      · obtain ⟨it₁, hq', hadvance⟩ := hret _ hq
        obtain rfl := hmarked it₁ hq'
        exact ⟨{ it with currentIndex := none }, hiter, hadvance⟩

/-- **One step** of the job's life, whatever it is, keeps what is known about its progress. -/
theorem ProgressStep.progresses {r r' : ProgressRun γ α} (h : ProgressStep K id items r r')
    (hr : Progresses K id items r) : Progresses K id items r' := by
  cases h with
  | elsewhere hsame =>
    obtain ⟨c, p, hrun, htracks, hat⟩ := hr
    exact ⟨c, p, hrun, htracks.congr hsame, hat⟩
  | @starts H w w₁ w₂ w' h e es _ hK hload hsame hes hstart =>
    obtain ⟨c, p, hrun, htracks, hat⟩ := hr
    obtain ⟨rfl, hfound⟩ := Prog.Solo.reads (I := fun w : World γ => Tracks K id c w.store) hload
      (getClaimedJob_tracks hK) htracks
    obtain ⟨e', he', hid, -, hc⟩ := hfound _ rfl
    obtain rfl := Option.some.inj he'
    have hbefore : Tracks K id c w₂.store := htracks.congr hsame
    have hkeeps := setStartedAtBatch_tracks (γ := γ) (c := c) hK fun e' he' hid =>
      (hes e' he' hid ▸ hc : e'.normalize.cursor = some c)
    exact ⟨c, p, hrun, (Prog.Solo.keeps (I := fun w : World γ => Tracks K id c w.store) hstart
      hkeeps hbefore).1, hat⟩
  | retries delay error hK hretry =>
    obtain ⟨c, p, hrun, htracks, hat⟩ := hr
    exact ⟨c, p, hrun, (Prog.Solo.keeps (I := fun w : World γ => Tracks K id c w.store) hretry
      (retryIn_tracks hK delay error) htracks).1, hat⟩
  | @begins H w w' h it c' hint hK hnew hcursor =>
    obtain ⟨c, p, hrun, htracks, hat⟩ := hr
    obtain rfl : c' = c := Option.some.inj (hcursor.symm.trans htracks.storedCursor)
    obtain rfl : p = .idle := by
      cases p with
      | idle => rfl
      | between =>
        obtain ⟨_, ⟨⟩, -⟩ := hat
      | within =>
        obtain ⟨_, ⟨⟩, -⟩ := hat
    obtain ⟨rfl, hit⟩ := Prog.Solo.reads (I := fun w : World γ => Tracks K id c' w.store) hnew
      (new_tracks hK items hint) htracks
    obtain ⟨hiter, hnone⟩ := hit it rfl
    exact ⟨c', .between, hrun.next .begins, htracks, it, rfl, hnone, hiter⟩
  | @yields H w w' h it it' tr v i hK ht hch hi =>
    subst hK
    obtain ⟨c, p, hrun, -, htracks, hret⟩ := next_progresses hr ht hch
    obtain ⟨rfl, it₁, hiter, hadvance⟩ := hret _ _ rfl
    rw [JobProgressIterator.advance] at hadvance
    split at hadvance
    · cases hadvance
    · next value index rest hcons =>
      cases hadvance
      cases hi
      rw [hcons] at hiter
      have hhead : (items.zipIdx.drop c)[0]? = some (v, i) := by rw [← hiter]; rfl
      rw [List.getElem?_drop, List.getElem?_zipIdx] at hhead
      obtain ⟨v', hv, hpair⟩ := Option.map_eq_some_iff.mp hhead
      obtain ⟨rfl, rfl⟩ : v' = v ∧ c = i := by simpa using hpair
      refine ⟨c, .within, hrun.next (.yields (by simpa using hv)), htracks, _, rfl, rfl, ?_⟩
      rw [← List.drop_drop, ← hiter]
      rfl
  | @ends H w w' h it it' tr hK ht hch =>
    subst hK
    obtain ⟨c, p, hrun, -, htracks, hret⟩ := next_progresses hr ht hch
    obtain ⟨rfl, it₁, hiter, hadvance⟩ := hret _ _ rfl
    rw [JobProgressIterator.advance] at hadvance
    split at hadvance
    · next hnil =>
      rw [hnil] at hiter
      have hle : items.length ≤ c := by
        simpa using List.drop_eq_nil_iff.mp hiter.symm
      exact ⟨c, .idle, hrun.next (.reachesEnd hle), htracks, rfl⟩
    · cases hadvance
  | @stops H w w' h it tr q hK ht hch =>
    subst hK
    obtain ⟨c, p, hrun, hnot, htracks, -⟩ := next_progresses hr ht hch
    exact ⟨c, .idle, hrun.next (.stops hnot), htracks, rfl⟩

/-- Any number of steps of the job's life keep what is known about its progress. -/
theorem progresses_of_steps {r r' : ProgressRun γ α}
    (h : Relation.ReflTransGen (ProgressStep K id items) r r') (hr : Progresses K id items r) :
    Progresses K id items r' := by
  induction h with
  | refl => exact hr
  | tail _ hstep ih => exact hstep.progresses ih

/-- What has happened stays in the history, at its beginning. -/
theorem history_of_steps {r r' : ProgressRun γ α}
    (h : Relation.ReflTransGen (ProgressStep K id items) r r') : r.history <+: r'.history := by
  induction h with
  | refl => exact List.prefix_rfl
  | tail _ hstep ih =>
    refine ih.trans ?_
    cases hstep with
    | elsewhere => exact List.prefix_rfl
    | starts => exact List.prefix_rfl
    | retries => exact List.prefix_rfl
    | begins => exact List.prefix_append _ _
    | yields =>
      rw [List.append_assoc]
      exact List.prefix_append _ _
    | ends =>
      rw [List.append_assoc]
      exact List.prefix_append _ _
    | stops =>
      rw [List.append_assoc]
      exact List.prefix_append _ _

/-- **Nothing is skipped.** From when a job without progress is stored, through any number of
attempts that work through the same items and are interrupted anywhere: an attempt hands out the
items behind the stored cursor, in order; when one reaches the end, every item has been handed out;
one that is handed out again had not been completed, and an attempt was interrupted in between; and
the stored cursor is the number of completed items and never decreases. -/
theorem progress_resumes {e : JobEnvelope} (hid : e.id = id) {w : World γ}
    (hstored : payloadOf K.jobs w.store id = some e.encode) (hstart : e.normalize.cursor = some 0)
    {r r' : ProgressRun γ α} (hr : Relation.ReflTransGen (ProgressStep K id items) ⟨w, none, []⟩ r)
    (hr' : Relation.ReflTransGen (ProgressStep K id items) r r') :
    (∀ a c b d, r'.history = a ++ .begins c :: b ++ d → (∀ c', .begins c' ∉ b) →
      yielded b <+: items.zipIdx.drop c) ∧
    (∀ a b, r'.history = a ++ .reachesEnd :: b → ∀ i v, items[i]? = some v →
      (v, i) ∈ yielded a) ∧
    (∀ a b d v v' i, r'.history = a ++ .yields v i :: b ++ .yields v' i :: d →
      .stops ∈ b ∧ .completes i ∉ a ++ b) ∧
    ∃ c c', storedCursor K id r.world.store = some c ∧
      storedCursor K id r'.world.store = some c' ∧ c ≤ c' ∧
      completed r'.history = List.range c' := by
  have hp : Progresses K id items r :=
    progresses_of_steps hr ⟨0, .idle, .fresh, ⟨e, hstored, hid, hstart⟩, rfl⟩
  obtain ⟨c', p', hrun', htracks', -⟩ := progresses_of_steps hr' hp
  obtain ⟨c, p, hrun, htracks, -⟩ := hp
  refine ⟨fun a s b d => hrun'.in_order, fun a b h i v => hrun'.all_yielded h,
    fun a b d v v' i => hrun'.again, c, c', htracks.storedCursor, htracks'.storedCursor, ?_,
    hrun'.completed⟩
  obtain ⟨b, hb⟩ := history_of_steps hr'
  exact hrun.grows (hb ▸ hrun')

end Run

/-! ## A first item -/

/-- The handler has begun with two items, none of them processed yet. -/
def firstItems : JobProgressIterator String := ⟨[("x", 0), ("y", 1)], none, 2⟩

theorem mail_begins : Solo (fun _ => True)
    (JobProgressIterator.new saving mail.id ["x", "y"] (2, some 2)) begunMail (.ok firstItems)
    begunMail := by
  have hnew : Returns (JobProgressIterator.new saving mail.id ["x", "y"] (2, some 2))
      [⟨.hget, begunMail, begunMail⟩] firstItems := by
    have hprogress : Returns (progress saving mail.id) [⟨.hget, begunMail, begunMail⟩] none :=
      mail_loaded.bind (.pure none)
    exact hprogress.bind (.pure _)
  exact Prog.solo_of_trace hnew rfl ⟨rfl, rfl⟩

/-- An attempt that has completed the first item is interrupted, and the next one begins with the
second. -/
theorem mail_resumes : ∃ r : ProgressRun Unit String,
    Relation.ReflTransGen (ProgressStep saving.keys mail.id ["x", "y"]) ⟨begunMail, none, []⟩ r ∧
    yielded r.history = [("x", 0)] ∧
    ∃ c c', storedCursor saving.keys mail.id begunMail.store = some c ∧
      storedCursor saving.keys mail.id r.world.store = some c' ∧ c ≤ c' ∧
      completed r.history = List.range c' := by
  have hcursor : storedCursor saving.keys mail.id begunMail.store = some 0 := by
    rw [storedCursor, begunMail_payload, Option.bind_some, decode_encode]
    rfl
  have hrun : Relation.ReflTransGen (ProgressStep saving.keys mail.id ["x", "y"])
      ⟨begunMail, none, []⟩ ⟨begunMail, none, _⟩ :=
    ((Relation.ReflTransGen.single (.begins (2, some 2) rfl mail_begins hcursor)).tail
      (.yields (v := "x") (i := 0) rfl (.refl _) rfl rfl)).tail (.stops rfl (.refl _) rfl)
  exact ⟨_, hrun, rfl, (progress_resumes (e := mail) rfl begunMail_payload rfl .refl hrun).2.2.2⟩

end Oxana
