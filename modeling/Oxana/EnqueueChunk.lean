import Oxana.EnqueueSpec
import Oxana.Calls

/-!
# Enqueueing a chunk

A producer leaves out some envelopes of a chunk, reads what it needs to know
about the others, and calls the script until nothing it has read has changed.
`enqueueChunk_refines` is the result about all of it: the call that commits
processes the envelopes of the chunk one after the other, as `enqueueSpec` says,
against the store it meets.

All but some Skip envelopes, to be precise: those the producer has found stored
when it looked, and those this request has written before. They are left out
for good, even if the job is gone by the time the script runs
(`enqueueChunk_leaves_out`).
-/

namespace Oxana

open Redis Script Interleave

variable {γ : Type} {K : StorageKeys}

/-! ## Snapshots -/

/-- The ids that snapshots have been taken of. -/
def Snapshots.ids (m : Snapshots) : List JobId := m.map (·.1)

/-- A snapshot that is inserted replaces that of its id, or goes to the end. -/
theorem Snapshots.ids_insert (m : Snapshots) (id : JobId) (sn : Option EnqueueSnapshot) :
    (m.insert id sn).ids = if id ∈ m.ids then m.ids else m.ids ++ [id] := by
  induction m with
  | nil => rfl
  | cons p m ih =>
    obtain ⟨id', sn'⟩ := p
    simp only [Snapshots.insert]
    by_cases h : id' = id
    · subst h
      simp [ids]
    · have hne : id ≠ id' := fun h' => h h'.symm
      rw [if_neg h]
      have : Snapshots.ids ((id', sn') :: Snapshots.insert m id sn) =
          id' :: (Snapshots.insert m id sn).ids := rfl
      rw [this, ih]
      by_cases hm : id ∈ Snapshots.ids m
      · have : id ∈ Snapshots.ids ((id', sn') :: m) := List.mem_cons_of_mem _ hm
        rw [if_pos hm, if_pos this]
        rfl
      · have : id ∉ Snapshots.ids ((id', sn') :: m) := List.not_mem_cons_of_ne_of_not_mem hne hm
        rw [if_neg hm, if_neg this]
        rfl

/-- The snapshots after an insertion are the new one and some of those before. -/
theorem Snapshots.mem_insert {m : Snapshots} {id : JobId} {sn : Option EnqueueSnapshot}
    {p : JobId × Option EnqueueSnapshot} (h : p ∈ m.insert id sn) : p = (id, sn) ∨ p ∈ m := by
  induction m with
  | nil => exact .inl (List.mem_singleton.mp h)
  | cons q m ih =>
    obtain ⟨id', sn'⟩ := q
    simp only [Snapshots.insert] at h
    split at h
    · rcases List.mem_cons.mp h with h | h
      · exact .inl h
      · exact .inr (List.mem_cons_of_mem _ h)
    · rcases List.mem_cons.mp h with h | h
      · exact .inr (h ▸ List.mem_cons_self ..)
      · rcases ih h with h | h
        · exact .inl h
        · exact .inr (List.mem_cons_of_mem _ h)

/-- Snapshots of the ids `R`, one for each, each either of a payload that was read or of nothing. -/
structure Snapshots.Of (R : List JobId) (m : Snapshots) : Prop where
  /-- one each -/
  nodup : m.ids.Nodup
  /-- of the ids `R` -/
  ids : ∀ id, id ∈ m.ids ↔ id ∈ R
  /-- of some payload -/
  parsed : ∀ id sn, (id, some sn) ∈ m → ∃ p, EnqueueSnapshot.parse p = some sn

/-- A snapshot is made without a step, from the payload that was read. -/
theorem snapshotOf_inv {p : Option String} {sn : Option EnqueueSnapshot}
    {tr : List (Prog.Event Request (World γ))} (h : Call.Returns (snapshotOf p) tr sn) :
    tr = [] ∧ ∀ sn', sn = some sn' → ∃ p', p = some p' ∧ EnqueueSnapshot.parse p' = some sn' := by
  simp only [snapshotOf] at h
  split at h
  · obtain ⟨rfl, rfl⟩ := h.pure_inv
    exact ⟨rfl, fun _ h => nomatch h⟩
  · next p' =>
    split at h
    · next sn' hsn =>
      obtain ⟨rfl, rfl⟩ := h.pure_inv
      refine ⟨rfl, ?_⟩
      rintro _ ⟨⟩
      exact ⟨p', rfl, hsn⟩
    · exact h.fail_inv.elim

/-- What is added to the snapshots: those of the payloads that were read. -/
theorem addSnapshots_inv {ps : List (JobId × Option String)} {m m' : Snapshots}
    {tr : List (Prog.Event Request (World γ))} (h : Call.Returns (addSnapshots ps m) tr m') :
    tr = [] ∧ (m.ids.Nodup → m'.ids.Nodup) ∧
      (∀ id, id ∈ m'.ids ↔ id ∈ m.ids ∨ id ∈ ps.map (·.1)) ∧
      ∀ id sn, (id, some sn) ∈ m' → (id, some sn) ∈ m ∨
        ∃ p, (id, some p) ∈ ps ∧ EnqueueSnapshot.parse p = some sn := by
  induction ps generalizing m tr with
  | nil =>
    obtain ⟨rfl, rfl⟩ := h.pure_inv
    exact ⟨rfl, fun h => h, fun id => by simp, fun id sn h => .inl h⟩
  | cons q ps ih =>
    obtain ⟨id₀, p₀⟩ := q
    obtain ⟨sn₀, tr₁, tr₂, rfl, h₁, h₂⟩ := h.bind_inv
    obtain ⟨rfl, hsn⟩ := snapshotOf_inv h₁
    obtain ⟨rfl, hnd, hids, hmem⟩ := ih h₂
    refine ⟨rfl, fun hm => hnd ?_, fun id => ?_, fun id sn hin => ?_⟩
    · rw [Snapshots.ids_insert]
      split
      · exact hm
      · next hnew =>
        exact List.nodup_append.mpr ⟨hm, List.nodup_singleton _, by
          rintro a ha b hb rfl
          exact hnew (List.mem_singleton.mp hb ▸ ha)⟩
    · rw [hids, Snapshots.ids_insert]
      split
      · next hold =>
        simp only [List.map_cons, List.mem_cons]
        refine ⟨fun h => h.imp_right .inr, ?_⟩
        rintro (h | rfl | h)
        · exact .inl h
        · exact .inl hold
        · exact .inr h
      · simp [or_assoc]
    · rcases hmem id sn hin with hin | ⟨p, hp, hparse⟩
      · rcases Snapshots.mem_insert hin with heq | hin
        · obtain ⟨rfl, rfl⟩ := Prod.mk.inj heq.symm
          obtain ⟨p, rfl, hparse⟩ := hsn sn rfl
          exact .inr ⟨p, List.mem_cons_self .., hparse⟩
        · exact .inl hin
      · exact .inr ⟨p, List.mem_cons_of_mem _ hp, hparse⟩

/-- Snapshots are parsed without a step, or the call ends with an error. -/
theorem addSnapshots_cases (ps : List (JobId × Option String)) (m : Snapshots) :
    (∃ m', (addSnapshots ps m : Call γ Snapshots) = pure m') ∨
      (addSnapshots ps m : Call γ Snapshots) = Call.fail .json := by
  induction ps generalizing m with
  | nil => exact .inl ⟨m, rfl⟩
  | cons q ps ih =>
    obtain ⟨id, p⟩ := q
    cases p with
    | none => exact ih (m.insert id none)
    | some p =>
      rcases hp : EnqueueSnapshot.parse p with _ | sn
      · right
        show ((snapshotOf (some p) : Call γ _) >>= fun s => addSnapshots ps (m.insert id s)) = _
        rw [snapshotOf, hp]
        rfl
      · have : (addSnapshots ((id, some p) :: ps) m : Call γ Snapshots) =
            addSnapshots ps (m.insert id (some sn)) := by
          show ((snapshotOf (some p) : Call γ _) >>= fun s => addSnapshots ps (m.insert id s)) = _
          rw [snapshotOf, hp]
          rfl
        rw [this]
        exact ih _

/-! ## The reads -/

/-- One of the reads of the call, of the payload or of its presence, has found the job stored when
it was made. -/
def FoundStored (K : StorageKeys) (tr : List (Prog.Event Request (World γ))) (id : JobId) : Prop :=
  ∃ e ∈ tr, (e.label = .hmget ∨ e.label = .hexists) ∧ (payloadOf K.jobs e.pre.store id).isSome

theorem FoundStored.mono {tr tr' : List (Prog.Event Request (World γ))} {id : JobId}
    (h : FoundStored K tr id) (hsub : ∀ e ∈ tr, e ∈ tr') : FoundStored K tr' id := by
  obtain ⟨e, he, hl⟩ := h
  exact ⟨e, hsub e he, hl⟩

/-- The snapshots that are read are about the ids asked for, and what they show was found stored. -/
theorem readSnapshots_inv {ids : List JobId} (hnd : ids.Nodup) {m : Snapshots}
    {tr : List (Prog.Event Request (World γ))} (h : Call.Returns (readSnapshots K ids) tr m) :
    m.Of ids ∧ (∀ id sn, (id, some sn) ∈ m → FoundStored K tr id) ∧
      ∀ e ∈ tr, ¬ e.label.submits := by
  simp only [readSnapshots] at h
  split at h
  · next hnil =>
    obtain ⟨rfl, rfl⟩ := h.pure_inv
    subst hnil
    exact ⟨⟨List.nodup_nil, fun id => Iff.rfl, fun _ _ h => absurd h List.not_mem_nil⟩,
      fun _ _ h => absurd h List.not_mem_nil, fun _ h => absurd h List.not_mem_nil⟩
  · obtain ⟨payloads, tr₁, tr₂, rfl, h₁, h₂⟩ := h.bind_inv
    obtain ⟨w, rfl, hreply⟩ := h₁.send_inv
    obtain ⟨-, rfl⟩ := onKind_inv hreply
    obtain ⟨rfl, hnodup, hids, hmem⟩ := addSnapshots_inv h₂
    have hzip : ∀ id p, (id, p) ∈ ids.zip (ids.map fun f => (w.store.hash K.jobs).lookup f) →
        payloadOf K.jobs w.store id = p := by
      have hall : List.Forall₂ (fun id p => payloadOf K.jobs w.store id = p) ids
          (ids.map fun f => (w.store.hash K.jobs).lookup f) :=
        List.forall₂_map_right_iff.mpr (List.forall₂_same.mpr fun _ _ => rfl)
      exact fun id p hp => List.forall₂_zip hall hp
    refine ⟨⟨hnodup List.nodup_nil, fun id => ?_, fun id sn hin => ?_⟩, fun id sn hin => ?_, ?_⟩
    · rw [hids, List.map_fst_zip (by simp)]
      exact ⟨fun h => h.resolve_left List.not_mem_nil, .inr⟩
    · obtain ⟨p, -, hparse⟩ := (hmem id sn hin).resolve_left List.not_mem_nil
      exact ⟨p, hparse⟩
    · obtain ⟨p, hp, -⟩ := (hmem id sn hin).resolve_left List.not_mem_nil
      refine ⟨_, List.mem_append_left _ (List.mem_singleton_self _), .inl rfl, ?_⟩
      rw [hzip id (some p) hp]
      rfl
    · simp [Request.submits]

/-- The ids that are found to exist were found stored, and finding them is no call of the script. -/
theorem readExisting_inv {ids found : List JobId} {tr : List (Prog.Event Request (World γ))}
    (h : Call.Returns (readExisting K ids) tr found) :
    (∀ id ∈ found, FoundStored K tr id) ∧ ∀ e ∈ tr, ¬ e.label.submits := by
  simp only [readExisting] at h
  split at h
  · obtain ⟨rfl, rfl⟩ := h.pure_inv
    exact ⟨fun _ h => absurd h List.not_mem_nil, fun _ h => absurd h List.not_mem_nil⟩
  · obtain ⟨bs, tr₁, tr₂, rfl, h₁, h₂⟩ := h.bind_inv
    obtain ⟨rfl, rfl⟩ := h₂.pure_inv
    have hall := h₁.pipe_inv
    refine ⟨fun id hid => ?_, fun e he => ?_⟩
    · obtain ⟨⟨id, b⟩, hmem, rfl⟩ := List.mem_map.mp hid
      obtain ⟨hzip, hb⟩ := List.mem_filter.mp hmem
      rw [List.forall₂_map_left_iff] at hall
      obtain ⟨e, he, hl, -, hreply⟩ := List.forall₂_zip hall hzip
      obtain ⟨-, hval⟩ := onKind_inv hreply
      exact ⟨e, List.mem_append_left _ he, .inr hl, hval.trans hb⟩
    · rw [List.append_nil] at he
      rw [h₁.pipe_label e he]
      decide

/-! ## The script calls -/

/-- A call that commits: nothing has changed, and these are the outcomes. -/
def Commits (K : StorageKeys) (destination : JobDestination) (R : List JobId)
    (pending : List JobEnvelope) (e : Prog.Event Request (World γ)) : Prop :=
  e.label.submits ∧ ∃ m : Snapshots, m.Of R ∧ ∃ outcomes,
    enqueueCall K destination m pending e.pre.store = (.ok ⟨[], outcomes⟩, e.post.store)

/-- A stale call returns ids of its snapshots, and so these are all there is after the next round of
parsing. -/
theorem Snapshots.Of.refresh {destination : JobDestination} {R : List JobId}
    {pending : List JobEnvelope} (hcov : Covered (· ∈ R) pending) {m m' : Snapshots}
    (hm : m.Of R) {s : Store} {reply : EnqueueReply}
    (hreply : (enqueueCall K destination m pending s).1 = .ok reply)
    {tr : List (Prog.Event Request (World γ))}
    (h : Call.Returns (addSnapshots reply.changed m) tr m') : tr = [] ∧ m'.Of R := by
  obtain ⟨rfl, hnd, hids, hmem⟩ := addSnapshots_inv h
  have hsub : ∀ id ∈ reply.changed.map (·.1), id ∈ m.ids := by
    have hcov' : Covered (fun id => id ∈ m.ids) pending :=
      hcov.mono fun id h => (hm.ids id).mpr h
    rcases enqueueCall_cases destination hcov' (trustingView_agrees (s := s) hm.nodup)
      with ⟨msg, hx⟩ | ⟨-, hx⟩ | ⟨-, -, Γ, hready, hx⟩
    · rw [hx] at hreply
      cases hreply
    · rw [hx] at hreply
      obtain rfl := Except.ok.inj hreply
      intro id hid
      rw [changedOf, List.map_map, List.mem_map] at hid
      obtain ⟨a, ha, rfl⟩ := hid
      rw [Snapshots.ids, ← snapshotArgs_ids pending]
      exact List.mem_map_of_mem (List.mem_filter.mp ha).1
    · obtain ⟨_, s', hs'⟩ := hready.total.run hready.typed
      rw [hx, bind_ok hs'] at hreply
      obtain rfl := Except.ok.inj hreply
      exact fun id hid => absurd hid List.not_mem_nil
  refine ⟨rfl, hnd hm.nodup, fun id => ?_, fun id sn hin => ?_⟩
  · rw [hids, ← hm.ids id]
    exact ⟨fun h => h.elim (fun h => h) (hsub id), .inl⟩
  · rcases hmem id sn hin with hin | ⟨p, -, hparse⟩
    · exact hm.parsed id sn hin
    · exact ⟨p, hparse⟩

/-- The loop ends with a call that commits; the calls before it were stale and changed nothing. -/
theorem enqueueLoop_inv {destination : JobDestination} {R : List JobId}
    {pending : List JobEnvelope} (hcov : Covered (· ∈ R) pending) {n : Nat} {m : Snapshots}
    (hm : m.Of R) {written : List JobId} {tr : List (Prog.Event Request (World γ))}
    (h : Call.Returns (enqueueLoop K destination pending n m) tr written) :
    ∃ tr₀ e, tr = tr₀ ++ [e] ∧ Commits K destination R pending e := by
  induction n generalizing m tr with
  | zero => exact h.hang_inv.elim
  | succ n ih =>
    obtain ⟨reply, tr₁, tr₂, rfl, h₁, h₂⟩ := h.bind_inv
    obtain ⟨w, rfl, hreply⟩ := h₁.send_inv
    have hrun : enqueueCall K destination m pending w.store =
        (.ok reply, (w.after (enqueueCall K destination m pending)).store) :=
      Prod.ext hreply rfl
    by_cases hch : reply.changed = []
    · rw [if_pos hch] at h₂
      obtain ⟨rfl, -⟩ := h₂.pure_inv
      obtain ⟨changed, outcomes⟩ := reply
      obtain rfl : changed = [] := hch
      exact ⟨[], _, rfl, rfl, m, hm, outcomes, hrun⟩
    · rw [if_neg hch] at h₂
      obtain ⟨m', tr₃, tr₄, rfl, h₃, h₄⟩ := h₂.bind_inv
      obtain ⟨rfl, hm'⟩ := hm.refresh hcov hreply h₃
      obtain ⟨tr₀, e, rfl, hc⟩ := ih hm' h₄
      exact ⟨_ :: tr₀, e, rfl, hc⟩

/-- **One call**: it is refused, or some snapshot is stale, or it processes its envelopes one after
the other. -/
theorem enqueueCall_refines (destination : JobDestination) {R : List JobId} {m : Snapshots}
    (hm : m.Of R) {pending : List JobEnvelope} (hcov : Covered (· ∈ R) pending) {s : Store}
    (hval : Valid K s) :
    Refused (enqueueCall K destination m pending) s ∨
    (changedOf K.jobs s (snapshotArgs pending m) ≠ [] ∧
      enqueueCall K destination m pending s =
        (.ok ⟨changedOf K.jobs s (snapshotArgs pending m), []⟩, s)) ∨
    ∃ outcomes, enqueueCall K destination m pending s =
      (.ok ⟨[], outcomes⟩, pending.foldl (enqueueSpec K destination) s) := by
  have hcov' : Covered (fun id => id ∈ m.ids) pending := hcov.mono fun id h => (hm.ids id).mpr h
  rcases enqueueCall_cases destination hcov' (viewOf_agrees hval hm.nodup hm.parsed)
    with hno | hstale | ⟨-, -, Γ, hready, hx⟩
  · exact .inl hno
  · exact .inr (.inl hstale)
  · have hfold := commit_refines hready.consistent hready.jobs hready.typed (fun _ => rfl) hval
      hready.writes
    exact .inr (.inr ⟨_, by rw [hx, bind_ok hfold]; rfl⟩)

/-- What a committing call does to the store is what its envelopes mean; those for which nothing is
planned do not matter. -/
theorem Commits.refines {destination : JobDestination} {R : List JobId}
    {pending es : List JobEnvelope} {e : Prog.Event Request (World γ)}
    (h : Commits K destination R pending e) (hcov : Covered (· ∈ R) pending)
    (hval : Valid K e.pre.store)
    (hplan : planFor K (viewOf K e.pre.store) pending = planFor K (viewOf K e.pre.store) es) :
    e.post.store = es.foldl (enqueueSpec K destination) e.pre.store := by
  obtain ⟨-, m, hm, outcomes, hrun⟩ := h
  have hcov' : Covered (fun id => id ∈ m.ids) pending := hcov.mono fun id h => (hm.ids id).mpr h
  rcases enqueueCall_cases destination hcov' (viewOf_agrees hval hm.nodup hm.parsed)
    with ⟨msg, hx⟩ | ⟨hne, hx⟩ | ⟨-, -, Γ, hready, hx⟩
  · rw [hrun] at hx
    cases hx
  · rw [hrun] at hx
    have := Except.ok.inj (Prod.mk.inj hx).1
    injection this with hch
    exact absurd hch.symm hne
  · rw [hplan] at hready hx
    have hfold := commit_refines hready.consistent hready.jobs hready.typed (fun _ => rfl) hval
      hready.writes
    rw [hx, bind_ok hfold] at hrun
    exact (Prod.mk.inj hrun).2.symm

/-! ## The whole chunk -/

/-- A Skip envelope that is left out: this request has written the id before, or
has found it stored. -/
def leftOut (written found : List JobId) (e : JobEnvelope) : Bool :=
  e.skips && (decide (e.id ∈ written) || decide (e.id ∈ found))

/-- A Skip envelope whose id occurs earlier in the chunk would have been skipped by the script, so
that nothing is lost with it. -/
theorem planFor_pendingOf {written found : List JobId} {v : View} {es : List JobEnvelope}
    {seen : List JobId} (hseen : ∀ id ∈ seen, id ∈ found ∨ (v id).isSome) :
    planFor K v (dropExisting found (pendingOf written es seen)) =
      planFor K v (es.filter fun e => !leftOut written found e) := by
  induction es generalizing v seen with
  | nil => rfl
  | cons e es ih =>
    by_cases hout : leftOut written found e
    · -- left out by the statement
      rw [List.filter_cons_of_neg (by simp [hout])]
      obtain ⟨hskip, hin⟩ := Bool.and_eq_true_iff.mp hout
      rw [Bool.or_eq_true, decide_eq_true_iff, decide_eq_true_iff] at hin
      by_cases hdrop : e.id ∈ written ∨ e.id ∈ seen
      · rw [pendingOf, if_pos ⟨hskip, hdrop⟩]
        exact ih hseen
      · have hfound : e.id ∈ found := hin.resolve_left fun h => hdrop (.inl h)
        rw [pendingOf, if_neg fun h => hdrop h.2, dropExisting_cons_drop ⟨hskip, hfound⟩]
        refine ih fun id hid => ?_
        rcases List.mem_cons.mp hid with rfl | hid
        · exact .inl hfound
        · exact hseen id hid
    · rw [List.filter_cons_of_pos (by simp [hout])]
      by_cases hdrop : e.skips ∧ (e.id ∈ written ∨ e.id ∈ seen)
      · -- it occurred before, so the script would have skipped it
        rw [pendingOf, if_pos hdrop, planFor, if_pos, ih hseen]
        obtain ⟨hskip, hin⟩ := hdrop
        have hnot : e.id ∉ written ∧ e.id ∉ found := by simpa [leftOut, hskip] using hout
        rw [hskip, Bool.true_and]
        exact (hseen e.id (hin.resolve_left hnot.1)).resolve_left hnot.2
      · have hkeep : ¬ (e.skips ∧ e.id ∈ found) := by
          rintro ⟨hs, hf⟩
          exact hout (by simp [leftOut, hs, hf])
        rw [pendingOf, if_neg hdrop, dropExisting_cons_keep hkeep, planFor, planFor]
        have hstored : ∀ v' : View, (v' e.id).isSome → (∀ id, (v id).isSome → (v' id).isSome) →
            ∀ id ∈ e.id :: seen, id ∈ found ∨ (v' id).isSome := by
          intro v' he hmono id hid
          rcases List.mem_cons.mp hid with rfl | hid
          · exact .inr he
          · exact (hseen id hid).imp_right (hmono id)
        split
        · next hsk =>
          exact ih (hstored v (Bool.and_eq_true_iff.mp hsk).2 fun _ h => h)
        · congr 1
          refine ih (hstored _ (by simp [View.write]) fun id h => ?_)
          by_cases hid : id = e.id
          · simp [View.write, hid]
          · simpa [View.write, hid] using h

/-- The ids of snapshots that show a job were found stored. -/
theorem snapshotSkips_found {pending : List JobEnvelope} {m : Snapshots}
    {tr : List (Prog.Event Request (World γ))}
    (h : ∀ id sn, (id, some sn) ∈ m → FoundStored K tr id) :
    ∀ id ∈ snapshotSkips pending m, FoundStored K tr id := by
  intro id hid
  obtain ⟨e, he, rfl⟩ := List.mem_map.mp hid
  have hsome : ((m.lookup e.id).join).isSome :=
    (decide_eq_true_iff.mp (List.mem_filter.mp he).2).2
  obtain ⟨sn, hsn⟩ := Option.isSome_iff_exists.mp hsome
  refine h e.id sn ?_
  rcases hl : m.lookup e.id with _ | o
  · rw [hl] at hsn
    cases hsn
  · rw [hl] at hsn
    obtain rfl : o = some sn := hsn
    obtain ⟨l₁, l₂, rfl, -⟩ := List.lookup_eq_some_iff.mp hl
    exact List.mem_append_right _ (List.mem_cons_self ..)

/-- What is left of a chunk is submitted, and committed by the last call of the script. -/
theorem enqueuePending_inv {destination : JobDestination} {R : List JobId}
    {pending : List JobEnvelope} (hcov : Covered (· ∈ R) pending) {m : Snapshots} (hm : m.Of R)
    {written : List JobId} {tr : List (Prog.Event Request (World γ))}
    (h : Call.Returns (enqueuePending K destination m pending) tr written) :
    tr = [] ∨ ∃ tr₀ e, tr = tr₀ ++ [e] ∧ Commits K destination R pending e := by
  simp only [enqueuePending] at h
  split at h
  · exact .inl h.pure_inv.1
  · obtain ⟨c, h⟩ := h.ask_inv
    exact .inr (enqueueLoop_inv hcov hm h)

/-- **Refinement.** Whatever other clients do meanwhile: when the last request
of a call that returns was the script, it has processed the envelopes of the
chunk one by one, against the store it met, except for Skip envelopes whose id
this request had written before or had found stored. -/
theorem enqueueChunk_refines (K : StorageKeys) (destination : JobDestination)
    {envelopes : List JobEnvelope} {written written' : List JobId}
    {tr : List (Prog.Event Request (World γ))} {e : Prog.Event Request (World γ)}
    (h : Call.Returns (enqueueChunk K envelopes destination written) (tr ++ [e]) written')
    (he : e.label.submits) (hval : Valid K e.pre.store) :
    ∃ found : List JobId, (∀ id ∈ found, FoundStored K tr id) ∧
      e.post.store = (envelopes.filter fun x => !leftOut written found x).foldl
        (enqueueSpec K destination) e.pre.store := by
  have hmem : e ∈ tr ++ [e] := List.mem_append_right _ (List.mem_singleton_self _)
  simp only [enqueueChunk] at h
  split at h
  · -- ordinary jobs are written without the script
    obtain ⟨_, tr₁, tr₂, htr, h₁, h₂⟩ := h.bind_inv
    obtain ⟨rfl, -⟩ := h₂.pure_inv
    rw [htr, List.append_nil] at hmem
    rw [h₁.pipe_label e hmem] at he
    cases he
  · obtain ⟨new, tr₁, tr₂, htr, h₁, h₂⟩ := h.bind_inv
    obtain ⟨rfl, -⟩ := h₂.pure_inv
    rw [List.append_nil] at htr
    subst htr
    simp only [enqueueUnique] at h₁
    split at h₁
    · exact absurd h₁.pure_inv.1 (by simp)
    · obtain ⟨m, tr₁, tr₂, htr, hread, h₃⟩ := h₁.bind_inv
      obtain ⟨existing, tr₃, tr₄, rfl, hexist, h₄⟩ := h₃.bind_inv
      obtain ⟨hm, hfound, hl₁⟩ := readSnapshots_inv (nodup_replacementIds _ []).1 hread
      obtain ⟨hfound', hl₃⟩ := readExisting_inv hexist
      have hcov : Covered (· ∈ replacementIds (pendingOf written envelopes []) [])
          (dropExisting (snapshotSkips (pendingOf written envelopes []) m ++ existing)
            (pendingOf written envelopes [])) :=
        (covered_replacementIds _ _ []).mono fun id h => h.resolve_right List.not_mem_nil
      rcases enqueuePending_inv hcov hm h₄ with rfl | ⟨tr₅, e', rfl, hc⟩
      · -- the script was not called
        rw [htr, List.append_nil] at hmem
        rcases List.mem_append.mp hmem with hmem | hmem
        · exact absurd he (hl₁ e hmem)
        · exact absurd he (hl₃ e hmem)
      · rw [← List.append_assoc, ← List.append_assoc] at htr
        obtain ⟨rfl, hee⟩ := List.append_inj' htr rfl
        obtain rfl := List.singleton_inj.mp hee
        refine ⟨_, fun id hid => ?_, hc.refines hcov hval (planFor_pendingOf
          fun _ h => absurd h List.not_mem_nil)⟩
        rcases List.mem_append.mp hid with hid | hid
        · exact (snapshotSkips_found hfound id hid).mono fun e he =>
            List.mem_append_left _ (List.mem_append_left _ he)
        · exact (hfound' id hid).mono fun e he =>
            List.mem_append_left _ (List.mem_append_right _ he)

/-- A unique job that is not to be replaced, under some id. -/
def welcome (id : JobId) : JobEnvelope :=
  .new "" 3 5 "mail" ⟨"Welcome", .null, some id, .skip, true, none⟩

/-- A world in which one payload is stored and no job has a place. -/
def holding (K : StorageKeys) (e : JobEnvelope) : World Unit :=
  ⟨Store.empty.put K.jobs (.hash [(e.id, e.encode)]), 10, ()⟩

/-- A world in which nothing is stored. -/
def bare : World Unit := ⟨Store.empty, 10, ()⟩

/-- The jobs `a` and `b` are enqueued. When the producer looks, `a` is stored and `b` is not. -/
def welcomeReads : List (Prog.Event Request (World Unit)) :=
  [⟨.hexists, holding (.new "") (welcome "a"), (holding (.new "") (welcome "a")).after
      (hexists (StorageKeys.new "").jobs "a")⟩,
    ⟨.hexists, bare, bare.after (hexists (StorageKeys.new "").jobs "b")⟩]

/-- When the script runs, `a` has been finished; only `b` is submitted to it. -/
def welcomeCall : Prog.Event Request (World Unit) :=
  ⟨.enqueue ["b"], bare, bare.after (enqueueCall (.new "") .queue [] [welcome "b"])⟩

/-- A chunk of two jobs is enqueued, of which the first was found stored. -/
theorem welcomes_return : Call.Returns (enqueueChunk (.new "") [welcome "a", welcome "b"] .queue [])
    (welcomeReads ++ [welcomeCall]) ["b"] := by
  have hpending : pendingOf [] [welcome "a", welcome "b"] [] = [welcome "a", welcome "b"] := rfl
  have hpipe : Call.Returns (pipe .hexists (["a", "b"].map (hexists (StorageKeys.new "").jobs)))
      welcomeReads [true, false] :=
    .pipe_cons _ rfl (.pipe_cons _ rfl .pipe_nil)
  have hexisting : Call.Returns (readExisting (.new "") ["a", "b"]) welcomeReads ["a"] :=
    hpipe.bind (.pure _)
  have hcall : Call.Returns (enqueuePending (.new "") .queue [] [welcome "b"]) [welcomeCall]
      ["b"] := by
    refine .ask Call.fine ?_
    exact (Call.Returns.send bare (a := ⟨[], [.enqueued]⟩) rfl).bind (.pure _)
  have hunique : Call.Returns (enqueueUnique (.new "") .queue [welcome "a", welcome "b"])
      (welcomeReads ++ [welcomeCall]) ["b"] :=
    Call.Returns.pure_bind (hexisting.bind hcall)
  simp only [enqueueChunk]
  rw [if_neg (by decide), hpending]
  exact hunique.bind (.pure _)

theorem nothing_stored (K : StorageKeys) : Valid K bare.store := by
  intro id p h
  simp [bare, payloadOf, Store.hash, Store.empty] at h

/-- A chunk of two unique jobs, one of which a read has found stored: the call of the script leaves
that one out, and does what the specification says for the other. -/
theorem enqueueChunk_skips_found : ∃ found : List JobId,
    (∀ id ∈ found, FoundStored (.new "") welcomeReads id) ∧ welcomeCall.post.store =
      ([welcome "a", welcome "b"].filter fun x => !leftOut [] found x).foldl
        (enqueueSpec (.new "") .queue) welcomeCall.pre.store :=
  enqueueChunk_refines (.new "") .queue welcomes_return rfl (nothing_stored _)

/-- **Not all envelopes are processed against that store**: `a` is not stored
when the script runs, and still it is not written. -/
theorem enqueueChunk_leaves_out : ∃ tr, Call.Returns (enqueueChunk (.new "")
    [welcome "a", welcome "b"] .queue []) (tr ++ [welcomeCall]) ["b"] ∧
      Valid (.new "") welcomeCall.pre.store ∧
      welcomeCall.post.store ≠ [welcome "a", welcome "b"].foldl
        (enqueueSpec (.new "") .queue) welcomeCall.pre.store := by
  refine ⟨welcomeReads, welcomes_return, nothing_stored _, fun heq => ?_⟩
  have hnone : payloadOf (StorageKeys.new "").jobs welcomeCall.post.store "a" = none := by
    decide +kernel
  have hsome : (payloadOf (StorageKeys.new "").jobs ([welcome "a", welcome "b"].foldl
      (enqueueSpec (.new "") .queue) welcomeCall.pre.store) "a").isSome := by
    decide +kernel
  rw [← heq, hnone] at hsome
  cases hsome

end Oxana
