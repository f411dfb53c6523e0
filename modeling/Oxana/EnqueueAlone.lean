import Oxana.Alone
import Oxana.ProducerSteps

/-!
# Enqueueing one job when nobody interferes

A job that is not skipped is stored and put on its ready list, and no other job is touched
(`Enqueued`). Nothing is assumed about what else is stored: queues may be named after any key.
-/

namespace Oxana

open Redis Script Interleave Call

variable {γ : Type} {K : StorageKeys} {e : JobEnvelope} {s s' s'' : Store} {id : JobId} {k : Key}

/-! ## Leaving the other jobs alone -/

/-- All payloads stay, and no list changes but for this job, which lists may lose and do not gain.
-/
structure Leaves (K : StorageKeys) (id : JobId) (s s' : Store) : Prop where
  /-- the payloads -/
  payload : ∀ id', payloadOf K.jobs s' id' = payloadOf K.jobs s id'
  /-- the other jobs -/
  others : ∀ k, (s'.list k).filter (· ≠ id) = (s.list k).filter (· ≠ id)
  /-- the job is nowhere new -/
  only : ∀ k, id ∈ s'.list k → id ∈ s.list k

theorem Leaves.refl : Leaves K id s s := ⟨fun _ => rfl, fun _ => rfl, fun _ h => h⟩

/-- What makes room in two ways, one after the other, makes room. -/
theorem Leaves.trans (h : Leaves K id s s') (h' : Leaves K id s' s'') : Leaves K id s s'' :=
  ⟨fun i => (h'.payload i).trans (h.payload i), fun k => (h'.others k).trans (h.others k),
    fun k hk => h.only k (h'.only k hk)⟩

/-- A write to a sorted set touches no list. -/
theorem list_put_zset (h : s.Fits k .zset) (z : List (String × Int)) (k' : Key) :
    (s.put k (.zset z)).list k' = s.list k' := by
  by_cases hk : k' = k
  · subst hk
    rw [Store.list_of_fits h (by decide),
      Store.list_of_fits (Store.fits_put_self (s := s) (.zset z)) (nofun : Kind.zset ≠ .list)]
  · exact Store.list_put_ne _ hk

/-- A job that leaves a sorted set is removed there, and nothing else happens. -/
theorem Leaves.set (hk : K.jobs ≠ k) (h : s.Fits k .zset) : Leaves K id s (leaveSet k id s) :=
  ⟨fun _ => payloadOf_put_ne hk, fun k' => by rw [leaveSet, list_put_zset h],
    fun k' hid => by rwa [leaveSet, list_put_zset h] at hid⟩

/-- A job that leaves a list is removed there, and nothing else happens. -/
theorem Leaves.list (hk : K.jobs ≠ k) : Leaves K id s (leaveList k id s) := by
  refine ⟨fun _ => payloadOf_put_ne hk, fun k' => ?_, fun k' hid => ?_⟩
  · rw [leaveList]
    by_cases hk' : k' = k
    · subst hk'
      rw [Store.list_put_self, List.filter_filter]
      simp only [Bool.and_self]
    · rw [Store.list_put_ne _ hk']
  · rw [leaveList] at hid
    by_cases hk' : k' = k
    · subst hk'
      rw [Store.list_put_self] at hid
      exact (List.mem_filter.mp hid).1
    · rwa [Store.list_put_ne _ hk'] at hid

/-! ## The job -/

/-- The job is stored and on its ready list, and no other is touched. -/
structure Enqueued (K : StorageKeys) (e : JobEnvelope) (s s' : Store) : Prop where
  /-- its payload is stored -/
  payload : ∀ id, payloadOf K.jobs s' id =
    if id = e.id then some e.encode else payloadOf K.jobs s id
  /-- it is on the ready list -/
  ready : ∃ l, s'.list (K.namespaceQueue e.queue) = e.id :: l
  /-- the other jobs -/
  others : ∀ k, (s'.list k).filter (· ≠ e.id) = (s.list k).filter (· ≠ e.id)
  /-- the job is nowhere else new -/
  only : ∀ k, e.id ∈ s'.list k → e.id ∈ s.list k ∨ k = K.namespaceQueue e.queue

/-- Storing a job and putting it on its list is what enqueueing it comes to. -/
theorem Enqueued.place (hfits : s.Fits K.jobs .hash) (hk : K.jobs ≠ K.namespaceQueue e.queue)
    (h : Leaves K e.id s'' s) : Enqueued K e s'' (place K .queue e (record K e s)) := by
  have hlist (k : Key) : (record K e s).list k = s.list k := by
    by_cases hkj : k = K.jobs
    · subst hkj
      rw [Store.list_of_fits hfits (by decide), record, Store.list_of_fits
        (Store.fits_put_self (s := s) (.hash _)) (show Kind.hash ≠ .list by decide)]
    · exact Store.list_put_ne _ hkj
  refine ⟨fun id => ?_, ⟨_, Store.list_put_self _⟩, fun k => ?_, fun k hid => ?_⟩
  · rw [Oxana.place, payloadOf_put_ne hk, payloadOf_record, h.payload]
  · rw [Oxana.place, ← h.others]
    by_cases hkq : k = K.namespaceQueue e.queue
    · subst hkq
      rw [Store.list_put_self, hlist, List.filter_cons_of_neg (by simp)]
    · rw [Store.list_put_ne _ hkq, hlist]
  · rw [Oxana.place] at hid
    by_cases hkq : k = K.namespaceQueue e.queue
    · exact .inr hkq
    · rw [Store.list_put_ne _ hkq, hlist] at hid
      exact .inl (h.only k hid)

/-- What the script commits for a job that is not skipped: it is stored and on its list. -/
theorem commitWrite_enqueued {Γ : Typing} {v : View} (hΓ : Γ.Consistent) (hs : Script.Typed Γ s)
    (hj : Γ K.jobs .hash) (ht : (writeFor K v e).Typed Γ K.schedule K.retry false)
    (hrun : commitWrite K.jobs K.schedule K.retry false (writeFor K v e) s = (.ok (), s')) :
    Enqueued K e s s' := by
  have hk : Keys K Γ .queue e := ⟨hΓ, hj, ht.place _ rfl⟩
  have hne {k : Key} {kd : Kind} (hkd : kd ≠ .hash) (h : Γ k kd) : K.jobs ≠ k := by
    rintro rfl
    exact hkd (hΓ _ _ _ h hj)
  -- storing and placing, after the job has left its places
  have hplace {s₁ : Store} (hs₁ : Script.Typed Γ s₁) (hleaves : Leaves K e.id s s₁)
      (h : (do
        hset K.jobs e.id e.encode
        if decide (JobDestination.queue = .schedule) = true then
          zadd K.schedule e.jobMeta.scheduledAt.toInt e.id
        else onKey (some (K.namespaceQueue e.queue)) fun k => lpush k e.id : Script Unit) s₁ =
          (.ok (), s')) : Enqueued K e s s' := by
    rw [place_run hk hs₁] at h
    obtain rfl := (Prod.mk.inj h).2
    exact Enqueued.place (hs₁ _ _ hj) (hne (by decide) hk.place) hleaves
  simp only [commitWrite] at hrun
  by_cases hr : (writeFor K v e).replacing
  · obtain ⟨h₁, h₂, h₃, h₄⟩ := ht.remove hr
    obtain ⟨old, hold⟩ := (writeFor_keyed (K := K) v e).2 hr
    simp only [if_pos hr] at hrun
    have hs₁ : Script.Typed Γ (leaveSet K.schedule e.id s) := hs.put hΓ h₁
    have hs₂ : Script.Typed Γ (leaveSet K.retry e.id (leaveSet K.schedule e.id s)) := hs₁.put hΓ h₂
    have hs₃ : Script.Typed Γ (leaveList old e.id (leaveSet K.retry e.id
        (leaveSet K.schedule e.id s))) := hs₂.put hΓ (h₃ _ hold)
    have hleaves : Leaves K e.id s (leaveList old e.id (leaveSet K.retry e.id
        (leaveSet K.schedule e.id s))) :=
      ((Leaves.set (hne (by decide) h₁) (hs _ _ h₁)).trans
        (.set (hne (by decide) h₂) (hs₁ _ _ h₂))).trans (.list (hne (by decide) (h₃ _ hold)))
    rw [bind_ok (zrem_ok (hs _ _ h₁) _)] at hrun
    have hrun₁ := (bind_ok (zrem_ok (hs₁ _ _ h₂) _)).symm.trans hrun
    rw [hold] at hrun₁
    have hrun₂ := (bind_ok (lremAll_ok (hs₂ _ _ (h₃ _ hold)) _)).symm.trans hrun₁
    split at hrun₂
    · have hrun₃ := (bind_ok (lremAll_ok (hs₃ _ _ (h₄ _ rfl)) _)).symm.trans hrun₂
      exact hplace (hs₃.put hΓ (h₄ _ rfl))
        (hleaves.trans (.list (hne (by decide) (h₄ _ rfl)))) hrun₃
    · exact hplace hs₃ hleaves hrun₂
  · simp only [if_neg hr] at hrun
    exact hplace hs .refl hrun

/-- What a call does to the store. A Skip job that is stored is left alone. -/
inductive Submitted (K : StorageKeys) (e : JobEnvelope) (s s' : Store) : Prop
  /-- it is there -/
  | skips : e.skips = true → (payloadOf K.jobs s e.id).isSome = true → s' = s → Submitted K e s s'
  /-- it is written -/
  | writes : ¬(e.skips = true ∧ (payloadOf K.jobs s e.id).isSome = true) → Enqueued K e s s' →
    Submitted K e s s'

/-! ## The call of the script -/

/-- The script submits the job itself, or nothing if the job was found stored; or it is refused. -/
theorem enqueueCall_submitted {R : List JobId} {m : Snapshots} (hm : m.Of R)
    (hcov : Covered (· ∈ R) [e]) :
    Refused (enqueueCall K .queue m [e]) s ∨
    (changedOf K.jobs s (snapshotArgs [e] m) ≠ [] ∧ enqueueCall K .queue m [e] s =
      (.ok ⟨changedOf K.jobs s (snapshotArgs [e] m), []⟩, s)) ∨
    ∃ outcome s', enqueueCall K .queue m [e] s = (.ok ⟨[], [outcome]⟩, s') ∧ Submitted K e s s' ∧
      (outcome = .skipped ↔ e.skips = true ∧ (payloadOf K.jobs s e.id).isSome = true) := by
  have hcov' : Covered (fun id => id ∈ m.ids) [e] := hcov.mono fun id h => (hm.ids id).mpr h
  rcases enqueueCall_cases .queue hcov' (trustingView_agrees (s := s) hm.nodup) with
    hno | hstale | ⟨-, -, Γ, hready, hrun⟩
  · exact .inl hno
  · exact .inr (.inl hstale)
  · refine .inr (.inr ?_)
    have hsome : (trustingView K [e] m s e.id).isSome = (payloadOf K.jobs s e.id).isSome := by
      rw [trustingView]
      split
      · next h => rw [h]; rfl
      · next h => simpa using h
    generalize trustingView K [e] m s = v at hsome hready hrun
    simp only [planFor, outcomesFor, hsome] at hready hrun
    by_cases hskip : (e.skips && (payloadOf K.jobs s e.id).isSome) = true
    · simp only [if_pos hskip] at hrun
      have hand := Bool.and_eq_true_iff.mp hskip
      exact ⟨.skipped, s, hrun.trans rfl, .skips hand.1 hand.2 rfl, fun _ => hand, fun _ => rfl⟩
    · simp only [if_neg hskip] at hrun hready
      have hand : ¬(e.skips = true ∧ (payloadOf K.jobs s e.id).isSome = true) := fun h =>
        hskip (Bool.and_eq_true_iff.mpr h)
      have ht := hready.writes _ (List.mem_singleton_self _)
      obtain ⟨_, s', hs'⟩ := (commitWrite_total hready.consistent hready.jobs
        (writeFor_keyed v e) ht).run hready.typed
      have hwrites := commitWrite_enqueued hready.consistent hready.typed hready.jobs ht hs'
      refine ⟨_, s', hrun.trans (bind_ok (bind_ok hs')), .writes hand hwrites, fun h => ?_,
        fun h => absurd h hand⟩
      split at h
      · cases h
      · cases h

/-! ## The call of the storage -/

section Solo

variable {allowed : Choice → Prop} {w w' : World γ} {written : List JobId}

/-- The script has submitted the job, and its id is reported as written exactly if the job is unique
and was not skipped. -/
structure SubmittedAs (K : StorageKeys) (e : JobEnvelope) (written : List JobId)
    (s s' : Store) : Prop where
  /-- what it has done -/
  submitted : Submitted K e s s'
  /-- what the caller is told -/
  written : e.id ∈ written ↔ e.jobMeta.unique = true ∧
    ¬(e.skips = true ∧ (payloadOf K.jobs s e.id).isSome = true)

/-- Nothing was stored in between, so that the first call of the script commits. -/
theorem solo_enqueueLoop {R : List JobId} {m : Snapshots} (hm : m.Of R) (hcov : Covered (· ∈ R) [e])
    {n : Nat} (h : Call.Solo allowed (enqueueLoop K .queue [e] n m) w (.ok written) w') :
    SubmittedAs K e written w.store w'.store := by
  induction n generalizing m w with
  | zero => exact h.elim
  | succ n ih =>
    obtain ⟨reply, w₁, hsend, hrest⟩ := solo_bind_ok h
    obtain ⟨hreply, rfl⟩ := solo_send_ok hsend
    rcases enqueueCall_submitted (s := w.store) hm hcov with ⟨msg, hno⟩ | ⟨hne, hstale⟩ |
        ⟨outcome, s', hrun, hsub, hskip⟩
    · rw [hno] at hreply
      cases hreply
    · rw [hstale] at hreply
      obtain rfl := Except.ok.inj hreply
      rw [if_neg hne] at hrest
      obtain ⟨m', w₂, hadd, hloop⟩ := solo_bind_ok hrest
      obtain ⟨tr, htr, hch⟩ := Prog.Solo.trace hadd
      obtain ⟨rfl, hm'⟩ := hm.refresh hcov (congrArg Prod.fst hstale) htr
      obtain rfl : w.after (enqueueCall K .queue m [e]) = w₂ := hch
      rw [World.after_read (by rw [hstale])] at hloop
      exact ih hm' hloop
    · rw [hrun] at hreply
      obtain rfl := Except.ok.inj hreply
      rw [if_pos rfl] at hrest
      obtain ⟨hwritten, rfl⟩ := solo_pure.mp hrest
      cases hwritten
      rw [World.after, hrun]
      refine ⟨hsub, ?_⟩
      rw [← hskip]
      by_cases hskipped : outcome = .skipped
      · simp [writtenOf, hskipped]
      · by_cases hu : e.jobMeta.unique = true
        · simp [writtenOf, hskipped, hu]
        · simp [writtenOf, hu]

/-- Alone, what the reads have found stored is stored. -/
theorem FoundStored.alone {tr : List (Prog.Event Request (World γ))} (h : FoundStored K tr id)
    (hch : Prog.Chained w tr w') (hidle : ∀ e ∈ tr, e.post = e.pre) :
    (payloadOf K.jobs w.store id).isSome = true := by
  obtain ⟨e, he, -, hstored⟩ := h
  rwa [(hch.idle hidle).2 e he] at hstored

/-- A unique job that is submitted alone is written, or it is left out if it was found stored. -/
theorem solo_enqueueUnique
    (h : Call.Solo allowed (enqueueUnique K .queue (pendingOf [] [e] [])) w (.ok written) w') :
    SubmittedAs K e written w.store w'.store := by
  have hpending : pendingOf [] [e] [] = [e] := by simp [pendingOf]
  rw [hpending, enqueueUnique, if_neg (by simp)] at h
  -- the reads
  obtain ⟨m, w₁, hread, h₁⟩ := solo_bind_ok h
  obtain ⟨trm, htrm, hchm⟩ := Prog.Solo.trace hread
  have hreads := readSnapshots_always (K := K) (E := fun _ _ => True)
    (G := fun _ (w w' : World γ) => w' = w) (fun _ _ _ => rfl) (nodup_replacementIds [e] []).1
  have hfound (id : JobId) (hid : id ∈ snapshotSkips [e] m) :=
    (snapshotSkips_found (readSnapshots_inv (nodup_replacementIds [e] []).1 htrm).2.1 id hid).alone
      hchm (hreads.trace htrm fun _ _ => trivial).1
  obtain ⟨rfl, hm⟩ := solo_reads hreads hread
  obtain ⟨existing, w₂, hexists, h₂⟩ := solo_bind_ok h₁
  obtain ⟨trx, htrx, hchx⟩ := Prog.Solo.trace hexists
  have hreads := readExisting_always (K := K) (E := fun _ _ => True)
    (G := fun _ (w w' : World γ) => w' = w) (fun _ _ _ => rfl) (skipIds [e] m)
  have hfound' (id : JobId) (hid : id ∈ existing) :=
    ((readExisting_inv htrx).1 id hid).alone hchx (hreads.trace htrx fun _ _ => trivial).1
  obtain ⟨rfl, -⟩ := solo_reads hreads hexists
  -- what is left to do
  by_cases hdrop : e.skips ∧ e.id ∈ snapshotSkips [e] m ++ existing
  · rw [dropExisting_cons_drop hdrop, enqueuePending, if_pos (by rfl)] at h₂
    obtain ⟨hwritten, rfl⟩ := solo_pure.mp h₂
    cases hwritten
    have hstored := (List.mem_append.mp hdrop.2).elim (hfound e.id) (hfound' e.id)
    exact ⟨.skips hdrop.1 hstored rfl, fun hin => absurd hin List.not_mem_nil,
      fun hw => absurd ⟨hdrop.1, hstored⟩ hw.2⟩
  · rw [dropExisting_cons_keep hdrop, enqueuePending, if_neg (by simp)] at h₂
    obtain ⟨c, -, h₃⟩ := solo_ask.mp h₂
    refine solo_enqueueLoop hm ?_ h₃
    have hcov := covered_replacementIds [] [e] []
    rw [dropExisting_cons_keep (fun h => absurd h.2 List.not_mem_nil)] at hcov
    exact hcov.mono fun id hid => hid.resolve_right List.not_mem_nil

/-- A pipeline that is answered has executed its first command, and then the others. -/
theorem solo_pipe_cons {α : Type} {l : Request} {x : Script α} {xs : List (Script α)} {as : List α}
    (h : Call.Solo allowed (pipe l (x :: xs)) w (.ok as) w') :
    ∃ a as', (x w.store).1 = .ok a ∧ Call.Solo allowed (pipe l xs) (w.after x) (.ok as') w' := by
  obtain ⟨c, -, h⟩ := solo_ask.mp h
  have hboth (h : Call.Solo allowed (execute l x fun r => catching (pipe l xs) fun rs =>
      Prog.ret (joinReplies r rs)) w (.ok as) w') :
      ∃ a as', (x w.store).1 = .ok a ∧ Call.Solo allowed (pipe l xs) (w.after x) (.ok as') w' := by
    obtain ⟨rs, w₁, hpipe, hjoin⟩ := solo_catching.mp h
    obtain ⟨hjoin, rfl⟩ : Except.ok as = joinReplies (replyOf (x w.store).1) rs ∧ w' = w₁ := hjoin
    cases hx : (x w.store).1 with
    | error err =>
      rw [hx] at hjoin
      cases hjoin
    | ok a =>
      rw [hx] at hjoin
      cases rs with
      | error err => cases hjoin
      | ok as' => exact ⟨a, as', rfl, hpipe⟩
  split at h
  · cases (solo_fail.mp h).1
  · exact hboth h

/-- Without faults the commands of a pipeline are executed, one after the other. -/
theorem solo_pipe_reliable {α : Type} {l : Request} {x : Script α} {xs : List (Script α)} {a : α}
    {as : List α} (hx : (x w.store).1 = .ok a)
    (h : Call.Solo Reliable (pipe l xs) (w.after x) (.ok as) w') :
    Call.Solo Reliable (pipe l (x :: xs)) w (.ok (a :: as)) w' := by
  refine ⟨{}, rfl, solo_catching.mpr ⟨.ok as, w', h, ?_, rfl⟩⟩
  rw [hx]
  rfl

theorem solo_pipe_nil {α : Type} {l : Request} {as : List α}
    (h : Call.Solo allowed (pipe l ([] : List (Script α))) w (.ok as) w') : w' = w := by
  obtain ⟨c, -, h⟩ := solo_ask.mp h
  split at h
  · exact (solo_pure.mp h).2
  · cases (solo_fail.mp h).1

/-- **One job**: a chunk of a single envelope writes it, or it is a Skip envelope of a job that is
stored. -/
theorem solo_enqueueChunk
    (h : Call.Solo allowed (enqueueChunk K [e] .queue []) w (.ok written) w') :
    SubmittedAs K e written w.store w'.store := by
  rw [enqueueChunk] at h
  by_cases hu : e.jobMeta.unique = true
  · rw [if_neg (by simp [hu])] at h
    obtain ⟨new, w₁, hunique, hret⟩ := solo_bind_ok h
    obtain ⟨hwritten, rfl⟩ := solo_pure.mp hret
    cases hwritten
    rw [List.append_nil]
    exact solo_enqueueUnique hunique
  · rw [if_pos (by simp [hu])] at h
    obtain ⟨rs, w₁, hpipe, hret⟩ := solo_bind_ok h
    obtain ⟨hwritten, rfl⟩ := solo_pure.mp hret
    cases hwritten
    obtain ⟨_, _, hstore, hpipe₁⟩ := solo_pipe_cons hpipe
    obtain ⟨_, _, hpush, hpipe₂⟩ := solo_pipe_cons hpipe₁
    obtain rfl := solo_pipe_nil hpipe₂
    obtain ⟨hj, -⟩ := onKind_inv hstore
    have hrun : (w.after (hset K.jobs e.id e.encode)).store = record K e w.store := by
      rw [World.after, hset_ok hj]
      rfl
    rw [hrun] at hpush
    obtain ⟨hq, -⟩ := onKind_inv hpush
    have hne : K.jobs ≠ K.namespaceQueue e.queue := by
      intro hk
      rw [← hk, record] at hq
      have hkind : (w.store.put K.jobs (.hash (setField e.id e.encode
          (w.store.hash K.jobs)))).kind K.jobs = some .hash :=
        Store.kind_put_self (by simp [Value.Live, setField])
      rcases hq with hq | hq
      · rw [hkind] at hq
        cases hq
      · rw [hkind] at hq
        cases hq
    have hplace : ((w.after (hset K.jobs e.id e.encode)).after
        (lpush (K.namespaceQueue e.queue) e.id)).store = place K .queue e (record K e w.store) := by
      rw [World.after, hrun, lpush_ok hq]
      rfl
    have hskip : ¬(e.skips = true ∧ (payloadOf K.jobs w.store e.id).isSome = true) := by
      intro hand
      exact hu (by simpa [JobEnvelope.skips] using And.left (Bool.and_eq_true_iff.mp hand.1))
    refine ⟨.writes hskip ?_, fun hin => absurd hin List.not_mem_nil, fun hw => absurd hw.1 hu⟩
    rw [hplace]
    exact Enqueued.place hj hne .refl

/-- `enqueue`, alone: the job is submitted, and its id is returned either way. -/
theorem solo_enqueue (h : Call.Solo allowed (enqueue K e) w (.ok id) w') :
    Submitted K e w.store w'.store := by
  obtain ⟨written, w₁, hchunk, hret⟩ := solo_bind_ok (solo_connection_ok h)
  obtain ⟨-, rfl⟩ := solo_pure.mp hret
  exact (solo_enqueueChunk hchunk).submitted

/-- The caller of `try_enqueue` is told whether the job was written: an id is returned only if it
was. -/
theorem solo_tryEnqueue (h : Call.Solo allowed (tryEnqueue K e) w (.ok (some id)) w') :
    id = e.id ∧ Enqueued K e w.store w'.store := by
  obtain ⟨written, w₁, hchunk, hret⟩ := solo_bind_ok (solo_connection_ok h)
  obtain ⟨hid, rfl⟩ := solo_pure.mp hret
  obtain ⟨hsub, hwritten⟩ := solo_enqueueChunk hchunk
  have hsome := Except.ok.inj hid
  split at hsome
  · next hcond =>
    refine ⟨Option.some.inj hsome, ?_⟩
    cases hsub with
    | writes _ henqueued => exact henqueued
    | skips hskip hstored _ =>
      exfalso
      have hu : e.jobMeta.unique = true := And.left (Bool.and_eq_true_iff.mp hskip)
      have hin : e.id ∈ written := by simpa [hu] using hcond
      exact (hwritten.mp hin).2 ⟨hskip, hstored⟩
  · cases hsome

/-! ### Runs that there are -/

/-- An ordinary job is written if the keys have their types. -/
theorem solo_enqueueChunk_ordinary (hu : e.jobMeta.unique = false)
    (hj : w.store.Fits K.jobs .hash) (hq : w.store.Fits (K.namespaceQueue e.queue) .list)
    (hne : K.jobs ≠ K.namespaceQueue e.queue) :
    Call.Solo Reliable (enqueueChunk K [e] .queue []) w (.ok [])
      { w with store := place K .queue e (record K e w.store) } := by
  have hrecord : w.after (hset K.jobs e.id e.encode) = { w with store := record K e w.store } := by
    rw [World.after, hset_ok hj]
    rfl
  have hpush := lpush_ok (Store.Fits.put hq (.hash (setField e.id e.encode (w.store.hash K.jobs)))
    fun hk => absurd hk.symm hne) e.id
  have hplace : World.after { w with store := record K e w.store }
      (lpush (K.namespaceQueue e.queue) e.id) =
        { w with store := place K .queue e (record K e w.store) } := by
    rw [World.after, record, hpush]
    rfl
  have hpipe : Call.Solo Reliable
      (pipe .hset ([e].flatMap (ordinaryWrites K .queue)) : Call γ (List Unit)) w (.ok [(), ()])
      { w with store := place K .queue e (record K e w.store) } := by
    refine solo_pipe_reliable (congrArg Prod.fst (hset_ok hj e.id e.encode)) ?_
    rw [hrecord]
    refine solo_pipe_reliable (congrArg Prod.fst hpush) ?_
    rw [show World.after { w with store := record K e w.store } _ = _ from hplace]
    exact ⟨{}, rfl, rfl, rfl⟩
  rw [enqueueChunk, if_pos (by simp [hu])]
  exact solo_bind.mpr (.inl ⟨_, _, hpipe, rfl, rfl⟩)

/-- `try_enqueue` of an ordinary job writes it and returns its id, without faults and if the keys
have their types. -/
theorem solo_tryEnqueue_ordinary (hu : e.jobMeta.unique = false) (hj : w.store.Fits K.jobs .hash)
    (hq : w.store.Fits (K.namespaceQueue e.queue) .list)
    (hne : K.jobs ≠ K.namespaceQueue e.queue) :
    Call.Solo Reliable (tryEnqueue K e) w (.ok (some e.id))
      { w with store := place K .queue e (record K e w.store) } := by
  refine solo_connection_bind.mpr (solo_bind.mpr (.inl
    ⟨_, _, solo_enqueueChunk_ordinary hu hj hq hne, ?_⟩))
  rw [if_pos (by simp [hu])]
  exact solo_pure.mpr ⟨rfl, rfl⟩

/-- `enqueue` of an ordinary job writes it and returns its id, without faults and if the keys have
their types. -/
theorem solo_enqueue_ordinary (hu : e.jobMeta.unique = false) (hj : w.store.Fits K.jobs .hash)
    (hq : w.store.Fits (K.namespaceQueue e.queue) .list)
    (hne : K.jobs ≠ K.namespaceQueue e.queue) :
    Call.Solo Reliable (enqueue K e) w (.ok e.id)
      { w with store := place K .queue e (record K e w.store) } :=
  solo_connection_bind.mpr (solo_bind.mpr (.inl
    ⟨_, _, solo_enqueueChunk_ordinary hu hj hq hne, solo_pure.mpr ⟨rfl, rfl⟩⟩))

/-- A unique job that skips is found stored, and the caller of `enqueue` is not told. -/
theorem solo_enqueue_skips (hs : e.skips = true) (hj : w.store.Fits K.jobs .hash)
    (hstored : (payloadOf K.jobs w.store e.id).isSome = true) :
    Call.Solo Reliable (enqueue K e) w (.ok e.id) w := by
  have hu : e.jobMeta.unique = true := And.left (Bool.and_eq_true_iff.mp hs)
  have hfound : hexists K.jobs e.id w.store = (.ok true, w.store) := by
    refine (onKind_ok hj).trans ?_
    rw [← hstored]
    rfl
  have hread : Call.Solo Reliable (readExisting K (skipIds [e] [])) w (.ok [e.id]) w := by
    have hids : skipIds [e] [] = [e.id] := by simp [skipIds, hs]
    rw [hids, readExisting, if_neg (List.cons_ne_nil _ _)]
    refine solo_bind.mpr (.inl ⟨[true], w, ?_, rfl, rfl⟩)
    refine solo_pipe_reliable (congrArg Prod.fst hfound) ?_
    rw [World.after_read (congrArg Prod.snd hfound)]
    exact ⟨{}, rfl, rfl, rfl⟩
  have hunique : Call.Solo Reliable (enqueueUnique K .queue (pendingOf [] [e] [])) w (.ok []) w := by
    have hpending : pendingOf [] [e] [] = [e] := by simp [pendingOf]
    have hcond : ¬(e.unconditional = true ∧ e.id ∉ ([] : List JobId)) := by
      have hskips : ¬e.unconditional = true := by simpa [JobEnvelope.unconditional, hu] using
        (Bool.and_eq_true_iff.mp hs).2
      exact fun h => hskips h.1
    have hreplaced : replacementIds [e] [] = [] := by
      rw [replacementIds, if_neg hcond, replacementIds]
    rw [hpending, enqueueUnique, if_neg (List.cons_ne_nil _ _), hreplaced]
    refine solo_bind.mpr (.inl ⟨[], w, ⟨rfl, rfl⟩, solo_bind.mpr (.inl ⟨_, _, hread, ?_⟩)⟩)
    rw [dropExisting_cons_drop ⟨hs, List.mem_append_right _ (List.mem_singleton.mpr rfl)⟩]
    exact solo_pure.mpr ⟨rfl, rfl⟩
  refine solo_connection_bind.mpr (solo_bind.mpr (.inl ⟨[], w, ?_, solo_pure.mpr ⟨rfl, rfl⟩⟩))
  rw [enqueueChunk, if_neg (by simp [hu])]
  exact solo_bind.mpr (.inl ⟨_, _, hunique, solo_pure.mpr ⟨rfl, rfl⟩⟩)

end Solo

end Oxana
