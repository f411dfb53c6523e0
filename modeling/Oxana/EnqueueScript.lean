import Oxana.Request
import Oxana.Transitions

/-!
# What `enqueue.lua` plans

Until it commits, the script only reads. This module says what it has found out
by then: which snapshots changed (`checkSnapshots_run`) and, if none did, the
writes it is going to make (`planInputs_run`).

The plan is stated without the script's tables. All that matters about the
stored jobs is a `View`: for each id, the ready list its job belongs to, if it
is stored at all. `planFor` goes through the envelopes with a view that it
updates on each write; the script does the same with what it knows, as long as
it is told the ready list of every id it is going to replace (`Covered`).
-/

namespace Oxana

open Redis Script

/-! ## Snapshots -/

/-- The snapshots that do not agree with what is stored. -/
def changedOf (jobs : Key) (s : Store) (as : List SnapshotArg) : List (JobId × Option String) :=
  (as.filter fun a => !a.agrees (payloadOf jobs s a.id)).map fun a => (a.id, payloadOf jobs s a.id)

/-- What the script learns from a snapshot: the queue, if the payload passes the comparison. -/
def learn (keys : List Key) (jobs : Key) (s : Store) (known : Known) (a : SnapshotArg) : Known :=
  ⟨Function.update known.present a.id (some (payloadOf jobs s a.id).isSome),
    Function.update known.queueKeys a.id (keyAt keys a.oldKey)⟩

/-- The check of the snapshots returns those that are stale, and learns from all others. -/
theorem checkSnapshots_run (keys : List Key) {jobs : Key} {s : Store} (h : s.Fits jobs .hash)
    (as : List SnapshotArg) (known : Known) :
    checkSnapshots keys jobs as known s =
      (.ok (changedOf jobs s as, as.foldl (learn keys jobs s) known), s) := by
  induction as generalizing known with
  | nil => rfl
  | cons a as ih =>
    rw [checkSnapshots, bind_ok (hget_run h a.id), bind_ok (ih _)]
    by_cases ha : a.agrees (payloadOf jobs s a.id)
    · simp [changedOf, ha, learn]
    · simp [changedOf, ha, learn]

/-- What is known about an id no snapshot is about is what was known before. -/
theorem learn_of_notMem {keys : List Key} {jobs : Key} {s : Store} {as : List SnapshotArg}
    {id : JobId} (h : id ∉ as.map (·.id)) (known : Known) :
    (as.foldl (learn keys jobs s) known).present id = known.present id ∧
      (as.foldl (learn keys jobs s) known).queueKeys id = known.queueKeys id := by
  induction as generalizing known with
  | nil => exact ⟨rfl, rfl⟩
  | cons a as ih =>
    rw [List.map_cons, List.mem_cons, not_or] at h
    obtain ⟨h₁, h₂⟩ := ih h.2 (learn keys jobs s known a)
    rw [List.foldl_cons, h₁, h₂]
    simp [learn, h.1]

/-- What is known about an id a snapshot is about is what the snapshot says. -/
theorem learn_of_mem (keys : List Key) (jobs : Key) {s : Store} {as : List SnapshotArg}
    {a : SnapshotArg} (ha : a ∈ as) (hnd : (as.map (·.id)).Nodup) (known : Known) :
    (as.foldl (learn keys jobs s) known).present a.id =
        some (payloadOf jobs s a.id).isSome ∧
      (as.foldl (learn keys jobs s) known).queueKeys a.id = keyAt keys a.oldKey := by
  induction as generalizing known with
  | nil => exact absurd ha List.not_mem_nil
  | cons b as ih =>
    rw [List.map_cons, List.nodup_cons] at hnd
    rcases List.mem_cons.mp ha with rfl | ha
    · obtain ⟨h₁, h₂⟩ := learn_of_notMem hnd.1 (learn keys jobs s known a)
      rw [List.foldl_cons, h₁, h₂]
      simp [learn]
    · exact ih ha hnd.2 _

/-! ## Plans -/

/-- What the script knows of the stored jobs: for each stored id the ready list of its job, and
nothing for the others. -/
abbrev View := JobId → Option Key

/-- The write of an envelope that is not skipped. -/
def writeFor (K : StorageKeys) (v : View) (e : JobEnvelope) : Write where
  id := e.id
  payload := e.encode
  score := e.jobMeta.scheduledAt.toInt
  oldQueue := if e.replaces then v e.id else none
  newQueue := some (K.namespaceQueue e.queue)
  replacing := e.replaces && (v e.id).isSome

/-- The view of the script once an envelope has been written. -/
def View.write (K : StorageKeys) (v : View) (e : JobEnvelope) : View :=
  Function.update v e.id (some (K.namespaceQueue e.queue))

/-- The writes that the script plans for a list of envelopes. -/
def planFor (K : StorageKeys) : View → List JobEnvelope → List Write
  | _, [] => []
  | v, e :: es =>
    if e.skips && (v e.id).isSome then planFor K v es
    else writeFor K v e :: planFor K (v.write K e) es

/-- The outcomes that the script reports for a list of envelopes. -/
def outcomesFor (K : StorageKeys) : View → List JobEnvelope → List Outcome
  | _, [] => []
  | v, e :: es =>
    if e.skips && (v e.id).isSome then .skipped :: outcomesFor K v es
    else (if e.replaces && (v e.id).isSome then .replaced else .enqueued) ::
      outcomesFor K (v.write K e) es

/-- Every replacement is of an id in `c`, or follows an unconditional write of
the same id. -/
def Covered : (JobId → Prop) → List JobEnvelope → Prop
  | _, [] => True
  | c, e :: es =>
    (e.replaces → c e.id) ∧ Covered (fun id => c id ∨ (e.unconditional ∧ id = e.id)) es

theorem Covered.mono {c c' : JobId → Prop} {es : List JobEnvelope} (h : Covered c es)
    (hc : ∀ id, c id → c' id) : Covered c' es := by
  induction es generalizing c c' with
  | nil => trivial
  | cons e es ih =>
    refine ⟨fun he => hc _ (h.1 he), ih h.2 fun id hid => ?_⟩
    rcases hid with hid | hid
    · exact .inl (hc id hid)
    · exact .inr hid

/-- The script knows what the view says: about all ids whether they are stored,
about those in `c` also the ready list. -/
structure Known.Agrees (known : Known) (jobs : Key) (s : Store) (v : View) (c : JobId → Prop) :
    Prop where
  /-- what it knows is right -/
  present : ∀ id b, known.present id = some b → b = (v id).isSome
  /-- what it does not know, it can look up in the hash of jobs -/
  absent : ∀ id, known.present id = none → (v id).isSome = (payloadOf jobs s id).isSome
  /-- the ready lists -/
  queue : ∀ id, c id → known.queueKeys id = v id ∨ v id = none

variable {K : StorageKeys} {s : Store} {v : View} {c : JobId → Prop}

/-- A job is to be skipped in a conflict exactly if its envelope says so. -/
theorem conflict_skip_iff (e : JobEnvelope) : e.conflict = .skip ↔ e.skips = true := by
  simp only [JobEnvelope.conflict, JobEnvelope.skips]
  cases e.jobMeta.unique <;> by_cases h : e.jobMeta.onConflict = some .replace <;> simp [h]

/-- A job replaces another one in a conflict exactly if its envelope says so. -/
theorem conflict_replace_iff (e : JobEnvelope) : e.conflict = .replace ↔ e.replaces = true := by
  simp only [JobEnvelope.conflict, JobEnvelope.replaces]
  cases e.jobMeta.unique <;> by_cases h : e.jobMeta.onConflict = some .replace <;> simp [h]

/-- A job takes its chances in a conflict exactly if its envelope says neither. -/
theorem conflict_default_iff (e : JobEnvelope) :
    e.conflict = .default ↔ e.skips = false ∧ e.replaces = false := by
  simp only [JobEnvelope.conflict, JobEnvelope.replaces, JobEnvelope.skips]
  cases e.jobMeta.unique <;> by_cases h : e.jobMeta.onConflict = some .replace <;> simp [h]

theorem unconditional_of_skips {e : JobEnvelope} (h : e.skips = true) :
    e.unconditional = false := by
  simp only [JobEnvelope.skips] at h
  simp only [JobEnvelope.unconditional]
  simp_all

/-- What the script takes for stored agrees with the view, or it has not looked because the envelope
is that of an ordinary job. -/
def Knows (v : View) (e : JobEnvelope) (stored : Option Bool) : Prop :=
  stored = some (v e.id).isSome ∨ (stored = none ∧ e.conflict = .default)

/-- Whether a job is stored is known or looked up, and the answer is right. -/
theorem storedBefore_run (queues : List String) {known : Known}
    (hk : known.Agrees K.jobs s v c) (hj : s.Fits K.jobs .hash) (e : JobEnvelope) :
    ∃ stored, storedBefore K.jobs (inputArg queues e) known s = (.ok stored, s) ∧
      Knows v e stored := by
  simp only [storedBefore]
  rcases hp : known.present e.id with _ | b
  · have hp' : known.present (inputArg queues e).id = none := hp
    by_cases hd : (inputArg queues e).conflict = .default
    · exact ⟨none, by simp only [hp', if_pos hd, pure_apply], .inr ⟨rfl, hd⟩⟩
    · refine ⟨some (v e.id).isSome, ?_, .inl rfl⟩
      simp only [hp', if_neg hd]
      rw [hk.absent e.id hp]
      exact bind_ok (f := fun b => pure (some b)) (hexists_run hj e.id)
  · refine ⟨some b, by simp [inputArg, hp], .inl ?_⟩
    rw [hk.present e.id b hp]

/-- Remembering an answer adds nothing that the view does not say. -/
theorem Known.Agrees.record {known : Known} (hk : known.Agrees K.jobs s v c) {e : JobEnvelope}
    {stored : Option Bool} (h : Knows v e stored) :
    (known.record e.id stored).Agrees K.jobs s v c := by
  rcases h with rfl | ⟨rfl, -⟩
  · refine ⟨fun id b hb => ?_, fun id hb => ?_, hk.queue⟩
    · by_cases hid : id = e.id
      · subst hid
        simp only [Known.record, Function.update_self, Option.some.injEq] at hb
        exact hb.symm
      · simp only [Known.record, Function.update_of_ne hid] at hb
        exact hk.present id b hb
    · by_cases hid : id = e.id
      · subst hid
        simp only [Known.record, Function.update_self] at hb
        cases hb
      · simp only [Known.record, Function.update_of_ne hid] at hb
        exact hk.absent id hb
  · exact hk

/-- After a write the script knows all about the id that it has written. -/
theorem Known.Agrees.write {known : Known} (hk : known.Agrees K.jobs s v c) (e : JobEnvelope) :
    Known.Agrees ⟨Function.update known.present e.id (some true),
        Function.update known.queueKeys e.id (some (K.namespaceQueue e.queue))⟩ K.jobs s
      (v.write K e) fun id => c id ∨ (e.unconditional ∧ id = e.id) := by
  refine ⟨fun id b hb => ?_, fun id hb => ?_, fun id hc => ?_⟩
  · by_cases hid : id = e.id
    · subst hid
      simp only [Function.update_self, Option.some.injEq] at hb
      simp [View.write, ← hb]
    · simp only [Function.update_of_ne hid] at hb
      simpa [View.write, hid] using hk.present id b hb
  · by_cases hid : id = e.id
    · subst hid
      simp at hb
    · simp only [Function.update_of_ne hid] at hb
      simpa [View.write, hid] using hk.absent id hb
  · by_cases hid : id = e.id
    · subst hid
      simp [View.write]
    · rcases hc with hc | ⟨-, hc⟩
      · simpa [View.write, hid] using hk.queue id hc
      · exact absurd hc hid

/-- A known presence decides whether a Skip envelope is skipped. -/
theorem Knows.skip_iff {e : JobEnvelope} {stored : Option Bool} (h : Knows v e stored) :
    (e.conflict = .skip ∧ stored = some true) ↔ (e.skips && (v e.id).isSome) = true := by
  rw [conflict_skip_iff, Bool.and_eq_true]
  rcases h with rfl | ⟨rfl, hd⟩
  · rw [Option.some.injEq]
  · simp [((conflict_default_iff e).mp hd).1]

/-- A known presence decides whether an envelope replaces what is stored. -/
theorem Knows.replace_iff {e : JobEnvelope} {stored : Option Bool} (h : Knows v e stored) :
    (e.conflict = .replace ∧ stored = some true) ↔ (e.replaces && (v e.id).isSome) = true := by
  rw [conflict_replace_iff, Bool.and_eq_true]
  rcases h with rfl | ⟨rfl, hd⟩
  · rw [Option.some.injEq]
  · simp [((conflict_default_iff e).mp hd).2]

/-- Planning one envelope: it is skipped, or written as the view says. -/
theorem planWith_eq (queues : List String) {known : Known} (hk : known.Agrees K.jobs s v c)
    {e : JobEnvelope} {stored : Option Bool} (h : Knows v e stored) (hc : e.replaces → c e.id) :
    planWith (some (K.namespaceQueue e.queue)) (inputArg queues e) stored known =
      if e.skips && (v e.id).isSome then (none, .skipped, known)
      else (some (writeFor K v e),
        if e.replaces && (v e.id).isSome then .replaced else .enqueued,
        ⟨Function.update known.present e.id (some true),
          Function.update known.queueKeys e.id (some (K.namespaceQueue e.queue))⟩) := by
  have hskip := h.skip_iff
  have hrep := h.replace_iff
  simp only [planWith]
  by_cases h₁ : (e.skips && (v e.id).isSome) = true
  · rw [if_pos (show (inputArg queues e).conflict = .skip ∧ stored = some true from hskip.mpr h₁),
      if_pos h₁]
  · rw [if_neg (show ¬ ((inputArg queues e).conflict = .skip ∧ stored = some true) from
      fun h' => h₁ (hskip.mp h')), if_neg h₁]
    by_cases h₂ : (e.replaces && (v e.id).isSome) = true
    · have hd : decide ((inputArg queues e).conflict = .replace ∧ stored = some true) = true :=
        decide_eq_true (hrep.mpr h₂)
      obtain ⟨hr, hv⟩ := Bool.and_eq_true_iff.mp h₂
      -- the ready list the script was told is the view's
      have hq : known.queueKeys e.id = v e.id := by
        rcases hk.queue e.id (hc hr) with hq | hq
        · exact hq
        · rw [hq] at hv
          cases hv
      simp only [hd, if_true, h₂]
      simp [writeFor, inputArg, hr, hv, hq]
    · have hd : decide ((inputArg queues e).conflict = .replace ∧ stored = some true) = false :=
        decide_eq_false fun h' => h₂ (hrep.mp h')
      have hold : (if e.replaces = true then v e.id else none) = none := by
        split
        · next hr => simpa [hr] using h₂
        · rfl
      simp only [hd, h₂]
      simp [writeFor, inputArg, hold, Bool.eq_false_iff.mpr h₂]

/-- **The plan**: the script's tables give the writes that the view gives, one for each envelope
that is not skipped. -/
theorem planInputs_run (queues : List String) (hj : s.Fits K.jobs .hash)
    {es : List JobEnvelope} (hq : ∀ e ∈ es, e.queue ∈ queues) {known : Known}
    (hk : known.Agrees K.jobs s v c) (hc : Covered c es) :
    planInputs (K.jobs :: K.schedule :: K.retry :: queues.map K.namespaceQueue) K.jobs
        (es.map (inputArg queues)) known s =
      (.ok (planFor K v es, outcomesFor K v es), s) := by
  induction es generalizing known v c with
  | nil => rfl
  | cons e es ih =>
    obtain ⟨stored, hrun, hknows⟩ := storedBefore_run queues hk hj e
    have hkey := keyAt_queueIndex K (hq e (List.mem_cons_self ..))
    have hplan := planWith_eq queues (hk.record hknows) hknows hc.1
    have hes : ∀ e ∈ es, e.queue ∈ queues := fun e' he => hq e' (List.mem_cons_of_mem _ he)
    have hone : planInput (K.jobs :: K.schedule :: K.retry :: queues.map K.namespaceQueue) K.jobs
        (inputArg queues e) known s = (.ok (planWith (some (K.namespaceQueue e.queue))
          (inputArg queues e) stored (known.record e.id stored)), s) := by
      rw [planInput, bind_ok hrun, pure_apply]
      simp only [inputArg] at hkey ⊢
      rw [hkey]
    rw [List.map_cons, planInputs, bind_ok hone, hplan, planFor, outcomesFor]
    by_cases h₁ : (e.skips && (v e.id).isSome) = true
    · rw [if_pos h₁, if_pos h₁, if_pos h₁]
      have := ih hes (hk.record hknows) (hc.2.mono fun id h => by
        rcases h with h | ⟨hu, -⟩
        · exact h
        · rw [unconditional_of_skips (Bool.and_eq_true_iff.mp h₁).1] at hu
          cases hu)
      simp only [bind_ok this]
      rfl
    · rw [if_neg h₁, if_neg h₁, if_neg h₁]
      simp only [bind_ok (ih hes ((hk.record hknows).write e) hc.2)]
      rfl

/-! ## Snapshots cover replacements -/

/-- The ids a producer takes snapshots of cover its replacements, whatever Skip
envelopes it drops afterwards. -/
theorem covered_replacementIds (existing : List JobId) (es : List JobEnvelope)
    (overwritten : List JobId) :
    Covered (fun id => id ∈ replacementIds es overwritten ∨ id ∈ overwritten)
      (dropExisting existing es) := by
  induction es generalizing overwritten with
  | nil => trivial
  | cons e es ih =>
    by_cases hdrop : e.skips ∧ e.id ∈ existing
    · have hu := unconditional_of_skips hdrop.1
      have hr : replacementIds (e :: es) overwritten = replacementIds es overwritten := by
        simp [replacementIds, hu]
      rw [dropExisting_cons_drop hdrop, hr]
      exact ih overwritten
    · rw [dropExisting_cons_keep hdrop]
      by_cases hu : e.unconditional ∧ e.id ∉ overwritten
      · refine ⟨fun hrep => .inl ?_, (ih (e.id :: overwritten)).mono fun id h => ?_⟩
        · have hunique : e.jobMeta.unique = true := by
            simp only [JobEnvelope.replaces] at hrep
            simp_all
          simp [replacementIds, hu, hunique]
        · rcases h with h | h
          · left; left
            rw [replacementIds, if_pos hu]
            split
            · exact List.mem_cons_of_mem _ h
            · exact h
          · rcases List.mem_cons.mp h with rfl | h
            · exact .inr ⟨hu.1, rfl⟩
            · exact .inl (.inr h)
      · have hr : replacementIds (e :: es) overwritten = replacementIds es overwritten := by
          rw [replacementIds, if_neg hu]
        rw [hr]
        refine ⟨fun hrep => .inr ?_, (ih overwritten).mono fun id h => .inl h⟩
        have : e.unconditional = true := by
          simp only [JobEnvelope.replaces] at hrep
          simp only [JobEnvelope.unconditional]
          simp_all
        by_contra hno
        exact hu ⟨this, hno⟩

/-- Each id is taken once. -/
theorem nodup_replacementIds (es : List JobEnvelope) (overwritten : List JobId) :
    (replacementIds es overwritten).Nodup ∧
      ∀ id ∈ replacementIds es overwritten, id ∉ overwritten := by
  induction es generalizing overwritten with
  | nil => exact ⟨List.nodup_nil, fun _ h => absurd h List.not_mem_nil⟩
  | cons e es ih =>
    rw [replacementIds]
    obtain ⟨h₁, h₂⟩ := ih (e.id :: overwritten)
    have hsub : ∀ id ∈ replacementIds es (e.id :: overwritten), id ∉ overwritten :=
      fun id hid hmem => h₂ id hid (List.mem_cons_of_mem _ hmem)
    split
    · next hu =>
      split
      · refine ⟨List.nodup_cons.mpr ⟨fun h => h₂ e.id h (List.mem_cons_self ..), h₁⟩, ?_⟩
        intro id hid
        rcases List.mem_cons.mp hid with rfl | hid
        · exact hu.2
        · exact hsub id hid
      · exact ⟨h₁, hsub⟩
    · exact ih overwritten

/-! ## A call -/

/-- The snapshot arguments of a call, in the order of the envelopes. -/
def snapshotArgs (pending : List JobEnvelope) (snapshots : Snapshots) : List SnapshotArg :=
  snapshots.map fun p => snapshotArg (declaredQueues pending snapshots) p.1 p.2

/-- The keys of a call: those of the storage, and the queues of its envelopes and snapshots. -/
def callKeys (K : StorageKeys) (pending : List JobEnvelope) (snapshots : Snapshots) : List Key :=
  K.jobs :: K.schedule :: K.retry :: (declaredQueues pending snapshots).map K.namespaceQueue

/-- What the script knows once it has validated the snapshots. -/
def learned (K : StorageKeys) (pending : List JobEnvelope) (snapshots : Snapshots) (s : Store) :
    Known :=
  (snapshotArgs pending snapshots).foldl (learn (callKeys K pending snapshots) K.jobs s)
    ⟨fun _ => none, fun _ => none⟩

theorem snapshotArgs_ids (pending : List JobEnvelope) (snapshots : Snapshots) :
    (snapshotArgs pending snapshots).map (·.id) = snapshots.map (·.1) := by
  rw [snapshotArgs, List.map_map]
  refine List.map_congr_left fun p _ => ?_
  rcases p with ⟨id, _ | sn⟩ <;> rfl

/-- What is known about an id without a snapshot: nothing. -/
theorem learned_absent {pending : List JobEnvelope} {snapshots : Snapshots} {id : JobId}
    (h : id ∉ snapshots.map (·.1)) :
    (learned K pending snapshots s).present id = none := by
  rw [← snapshotArgs_ids pending] at h
  exact (learn_of_notMem h _).1

/-- What is known about an id with a snapshot is what the snapshot says. -/
theorem learned_present (pending : List JobEnvelope) {snapshots : Snapshots}
    (hnd : (snapshots.map (·.1)).Nodup) {id : JobId} {sn : Option EnqueueSnapshot}
    (h : (id, sn) ∈ snapshots) :
    (learned K pending snapshots s).present id = some (payloadOf K.jobs s id).isSome ∧
      ∀ sn', sn = some sn' →
        (learned K pending snapshots s).queueKeys id = some (K.namespaceQueue sn'.queue) := by
  have hmem : snapshotArg (declaredQueues pending snapshots) id sn ∈
      snapshotArgs pending snapshots := List.mem_map.mpr ⟨(id, sn), h, rfl⟩
  have hid : (snapshotArg (declaredQueues pending snapshots) id sn).id = id := by
    cases sn <;> rfl
  rw [← snapshotArgs_ids pending] at hnd
  obtain ⟨h₁, h₂⟩ := learn_of_mem (callKeys K pending snapshots) K.jobs (s := s)
    hmem hnd ⟨fun _ => none, fun _ => none⟩
  rw [hid] at h₁ h₂
  refine ⟨h₁, ?_⟩
  rintro sn' rfl
  exact h₂.trans (keyAt_queueIndex K (mem_declared_snapshot h))

/-- All snapshots agree with what is stored when the script runs. -/
def SnapshotsAgree (K : StorageKeys) (pending : List JobEnvelope) (snapshots : Snapshots)
    (s : Store) : Prop :=
  ∀ a ∈ snapshotArgs pending snapshots, a.agrees (payloadOf K.jobs s a.id)

/-- No snapshot is stale exactly if all of them agree with what is stored. -/
theorem changedOf_eq_nil {jobs : Key} {as : List SnapshotArg} :
    changedOf jobs s as = [] ↔ ∀ a ∈ as, a.agrees (payloadOf jobs s a.id) := by
  rw [changedOf, List.map_eq_nil_iff, List.filter_eq_nil_iff]
  simp

end Oxana
