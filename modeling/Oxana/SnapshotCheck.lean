import Oxana.EnqueueChunk
import Oxana.Redis.Utf8

/-!
# What the server makes of snapshots

`enqueue.lua` compares bytes: a payload passes if it is, ends with or begins with what the snapshot
holds (`EnqueueSnapshot.passes`). A payload that passes has the queue of the snapshot, a snapshot
passes for the payload it was taken of, and so a call whose snapshots were stale commits once it is
repeated with new ones (`snapshots_sound`).
-/

namespace Oxana

open Redis Script Interleave Json

/-! ## The comparison -/

/-- `string.sub(s, -n)`; an offset of zero is the beginning -/
def subFromEnd (n : Nat) (bs : List UInt8) : List UInt8 :=
  if n = 0 then bs else bs.drop (bs.length - n)

/-- `string.sub(s, 1, n)`: the first bytes of a text. -/
def subFromStart (n : Nat) (bs : List UInt8) : List UInt8 := bs.take n

/-- The comparison with a payload, on its bytes. -/
def EnqueueSnapshot.passes (s : EnqueueSnapshot) (payload : String) : Bool :=
  let expected := bytes s.expected
  let actual := match s.comparison with
    | .exact => bytes payload
    | .suffix => subFromEnd expected.length (bytes payload)
    | .initial => subFromStart expected.length (bytes payload)
  actual == expected

/-- The last bytes of a text are these exactly if the text ends with them. -/
theorem subFromEnd_eq_iff {a b : List UInt8} (ha : a ≠ []) :
    subFromEnd a.length b = a ↔ a <:+ b := by
  rw [subFromEnd, if_neg (by simpa using ha)]
  constructor
  · intro h
    rw [← h]
    exact List.drop_suffix ..
  · rintro ⟨c, rfl⟩
    rw [List.length_append, Nat.add_sub_cancel, List.drop_left]

/-- The first bytes of a text are these exactly if the text begins with them. -/
theorem subFromStart_eq_iff {a b : List UInt8} : subFromStart a.length b = a ↔ a <+: b := by
  rw [subFromStart]
  constructor
  · intro h
    rw [← h]
    exact List.take_prefix ..
  · rintro ⟨c, rfl⟩
    exact List.take_left

/-- A snapshot holds some text, so that the comparison of the script is not one of nothing. -/
theorem EnqueueSnapshot.expected_ne_nil {p : String} {s : EnqueueSnapshot}
    (hs : EnqueueSnapshot.parse p = some s) (hc : s.comparison = .suffix) :
    bytes s.expected ≠ [] := by
  rcases EnqueueSnapshot.parse_cases hs with ⟨hc', -⟩ | ⟨o, ⟨hc', -⟩ | ⟨-, hex⟩⟩
  · rw [hc] at hc'
    cases hc'
  · rw [hc] at hc'
    cases hc'
  · obtain ⟨t, w, -, -, -, hend⟩ := o.ending
    intro hnil
    have hempty : s.expected = "" := bytes_injective (hnil.trans (by rfl))
    rw [hend, hempty] at hex
    cases hex

/-- Comparing bytes, as the script does, is comparing texts. -/
theorem EnqueueSnapshot.passes_iff {p p' : String} {s : EnqueueSnapshot}
    (hs : EnqueueSnapshot.parse p = some s) : s.passes p' = true ↔ s.matches p' = true := by
  simp only [EnqueueSnapshot.passes, EnqueueSnapshot.matches]
  rcases hc : s.comparison with _ | _ | _
  · simp only [beq_iff_eq, decide_eq_true_eq]
    exact bytes_injective.eq_iff
  · simp only [beq_iff_eq, List.isSuffixOf_iff_suffix]
    rw [subFromEnd_eq_iff (EnqueueSnapshot.expected_ne_nil hs hc), suffix_of_bytes]
  · simp only [beq_iff_eq, List.isPrefixOf_iff_prefix]
    rw [subFromStart_eq_iff, prefix_of_bytes]

/-- The snapshot is one of this payload, as far as it shows. -/
def Shows : Option EnqueueSnapshot → Option String → Prop
  | none, payload => payload = none
  | some _, none => False
  | some sn, some p => sn.matches p = true

/-- The script performs the comparison of the snapshot with the payload that is stored. -/
theorem snapshotArg_agrees (queues : List String) (id : JobId) (sn : Option EnqueueSnapshot)
    (payload : Option String) :
    (snapshotArg queues id sn).agrees payload = true ↔ Shows sn payload := by
  cases sn with
  | none => exact Option.isNone_iff_eq_none
  | some sn =>
    obtain ⟨expected, queue, comparison⟩ := sn
    cases payload with
    | none => exact iff_of_false nofun fun h => h
    | some p => cases comparison <;> exact Iff.rfl

/-! ## A call that is repeated -/

section Repeated

variable {γ : Type} {K : StorageKeys} {destination : JobDestination} {pending : List JobEnvelope}
  {m m' : Snapshots} {s : Store}

/-- All snapshots agree with the store exactly if each of them shows what is stored. -/
theorem snapshotsAgree_iff :
    SnapshotsAgree K pending m s ↔ ∀ id sn, (id, sn) ∈ m → Shows sn (payloadOf K.jobs s id) := by
  have harg (id : JobId) (sn : Option EnqueueSnapshot) :
      (snapshotArg (declaredQueues pending m) id sn).id = id := by cases sn <;> rfl
  constructor
  · intro h id sn hin
    have hagrees := h _ (List.mem_map.mpr ⟨(id, sn), hin, rfl⟩)
    rw [harg] at hagrees
    exact (snapshotArg_agrees ..).mp hagrees
  · rintro h a ha
    obtain ⟨⟨id, sn⟩, hin, rfl⟩ := List.mem_map.mp ha
    rw [harg]
    exact (snapshotArg_agrees ..).mpr (h id sn hin)

/-- An insertion replaces the snapshot of its id, and no other. -/
theorem Snapshots.mem_insert_nodup {id id' : JobId} {sn sn' : Option EnqueueSnapshot}
    (hnd : m.ids.Nodup) (h : (id', sn') ∈ m.insert id sn) :
    (id' = id ∧ sn' = sn) ∨ (id' ≠ id ∧ (id', sn') ∈ m) := by
  induction m with
  | nil =>
    obtain ⟨rfl, rfl⟩ := Prod.mk.inj (List.mem_singleton.mp h)
    exact .inl ⟨rfl, rfl⟩
  | cons q m ih =>
    obtain ⟨id₁, sn₁⟩ := q
    obtain ⟨hnew, hnd⟩ := List.nodup_cons.mp hnd
    rw [Snapshots.insert] at h
    split at h
    · next heq =>
      subst heq
      rcases List.mem_cons.mp h with h | h
      · obtain ⟨rfl, rfl⟩ := Prod.mk.inj h
        exact .inl ⟨rfl, rfl⟩
      · have hid : id' ∈ Snapshots.ids m := List.mem_map_of_mem (f := Prod.fst) h
        refine .inr ⟨?_, List.mem_cons_of_mem _ h⟩
        rintro rfl
        exact hnew hid
    · next hne =>
      rcases List.mem_cons.mp h with h | h
      · obtain ⟨rfl, rfl⟩ := Prod.mk.inj h
        exact .inr ⟨hne, List.mem_cons_self ..⟩
      · rcases ih hnd h with h | ⟨hne', h⟩
        · exact .inl h
        · exact .inr ⟨hne', List.mem_cons_of_mem _ h⟩

/-- A snapshot shows the payload that it was taken of. -/
theorem snapshotOf_shows {payload : Option String} {sn : Option EnqueueSnapshot}
    {tr : List (Prog.Event Request (World γ))} (h : Call.Returns (snapshotOf payload) tr sn) :
    tr = [] ∧ Shows sn payload := by
  simp only [snapshotOf] at h
  split at h
  · obtain ⟨rfl, rfl⟩ := h.pure_inv
    exact ⟨rfl, rfl⟩
  · next p =>
    split at h
    · next sn' hsn =>
      obtain ⟨rfl, rfl⟩ := h.pure_inv
      exact ⟨rfl, EnqueueSnapshot.matches_self hsn⟩
    · exact h.fail_inv.elim

/-- Once the payloads that have changed are parsed, all snapshots show what the script has seen. -/
theorem addSnapshots_shows {current : JobId → Option String} {ps : List (JobId × Option String)}
    {tr : List (Prog.Event Request (World γ))} (h : Call.Returns (addSnapshots ps m) tr m')
    (hnd : m.ids.Nodup) (hps : ∀ q ∈ ps, q.2 = current q.1)
    (hm : ∀ id sn, (id, sn) ∈ m → id ∉ ps.map Prod.fst → Shows sn (current id)) :
    ∀ id sn, (id, sn) ∈ m' → Shows sn (current id) := by
  induction ps generalizing m tr with
  | nil =>
    obtain ⟨rfl, rfl⟩ := h.pure_inv
    exact fun id sn hin => hm id sn hin List.not_mem_nil
  | cons q ps ih =>
    obtain ⟨id₀, p₀⟩ := q
    obtain ⟨sn₀, tr₁, tr₂, rfl, h₁, h₂⟩ := h.bind_inv
    obtain ⟨rfl, hshows⟩ := snapshotOf_shows h₁
    have hcurrent : p₀ = current id₀ := hps _ (List.mem_cons_self ..)
    refine ih h₂ ?_ (fun q hq => hps q (List.mem_cons_of_mem _ hq)) fun id sn hin hnot => ?_
    · rw [Snapshots.ids_insert]
      split
      · exact hnd
      · next hnew => exact List.concat_eq_append ▸ hnd.concat hnew
    · rcases Snapshots.mem_insert_nodup hnd hin with ⟨rfl, rfl⟩ | ⟨hne, hin⟩
      · exact hcurrent ▸ hshows
      · refine hm id sn hin fun hmem => ?_
        rcases List.mem_cons.mp hmem with rfl | hmem
        · exact hne rfl
        · exact hnot hmem

/-- The snapshots of the next call show what the script has seen. -/
theorem refreshed_agree {tr : List (Prog.Event Request (World γ))} (hnd : m.ids.Nodup)
    (h : Call.Returns (addSnapshots (changedOf K.jobs s (snapshotArgs pending m)) m) tr m') :
    SnapshotsAgree K pending m' s := by
  refine snapshotsAgree_iff.mpr (addSnapshots_shows h hnd ?_ fun id sn hin hnot => ?_)
  · intro q hq
    obtain ⟨a, -, rfl⟩ := List.mem_map.mp hq
    rfl
  · -- a snapshot that is not among the changed ones has passed
    have hid : (snapshotArg (declaredQueues pending m) id sn).id = id := by cases sn <;> rfl
    by_contra hno
    refine hnot (List.mem_map.mpr ⟨(id, payloadOf K.jobs s id), List.mem_map.mpr
      ⟨snapshotArg (declaredQueues pending m) id sn, List.mem_filter.mpr ⟨List.mem_map.mpr
        ⟨(id, sn), hin, rfl⟩, ?_⟩, by rw [hid]⟩, rfl⟩)
    rw [hid, Bool.not_eq_true', ← Bool.not_eq_true, snapshotArg_agrees]
    exact hno

/-- The keys that a call of the script is given have the types it needs, and no ready list among
them is one of the other keys. -/
structure KeysFit (K : StorageKeys) (pending : List JobEnvelope) (m : Snapshots) (s : Store) :
    Prop where
  /-- the jobs hash -/
  jobs : s.Fits K.jobs .hash
  /-- the scheduled jobs -/
  schedule : s.Fits K.schedule .zset
  /-- the retries -/
  retry : s.Fits K.retry .zset
  /-- the ready lists, and none of them is one of those -/
  queues : ∀ q ∈ declaredQueues pending m, s.Fits (K.namespaceQueue q) .list ∧
    K.namespaceQueue q ∉ [K.jobs, K.schedule, K.retry]

/-- The types that the keys of a call are expected to have. -/
def callTyping (K : StorageKeys) (pending : List JobEnvelope) (m : Snapshots) : Typing :=
  fun k kd => (k = K.jobs ∧ kd = .hash) ∨ ((k = K.schedule ∨ k = K.retry) ∧ kd = .zset) ∨
    ∃ q ∈ declaredQueues pending m, k = K.namespaceQueue q ∧ kd = .list

theorem KeysFit.consistent (h : KeysFit K pending m s) : (callTyping K pending m).Consistent := by
  have hqueue {q : String} (hq : q ∈ declaredQueues pending m) :
      K.namespaceQueue q ≠ K.jobs ∧ K.namespaceQueue q ≠ K.schedule ∧
        K.namespaceQueue q ≠ K.retry := by
    simpa using (h.queues q hq).2
  have hjobs := StorageKeys.jobs_ne_schedule (K := K)
  have hjobs' := StorageKeys.jobs_ne_retry (K := K)
  rintro k kd kd' (⟨rfl, rfl⟩ | ⟨rfl | rfl, rfl⟩ | ⟨q, hq, rfl, rfl⟩)
    (⟨hk, rfl⟩ | ⟨hk, rfl⟩ | ⟨q', hq', hk, rfl⟩) <;> grind

theorem KeysFit.typed (h : KeysFit K pending m s) :
    Script.Typed (callTyping K pending m) s := by
  rintro k kd (⟨rfl, rfl⟩ | ⟨rfl | rfl, rfl⟩ | ⟨q, hq, rfl, rfl⟩)
  · exact h.jobs
  · exact h.schedule
  · exact h.retry
  · exact (h.queues q hq).1

/-- A plan touches no other keys than those that the call has checked. -/
theorem planFor_typed {Γ : Typing} {scheduled : Bool} {c : JobId → Prop} {v : View}
    {es : List JobEnvelope} (hschedule : Γ K.schedule .zset) (hretry : Γ K.retry .zset)
    (hes : ∀ e ∈ es, Γ (K.namespaceQueue e.queue) .list) (hcov : Covered c es)
    (hv : ∀ id, c id → ∀ k, v id = some k → Γ k .list) :
    ∀ w ∈ planFor K v es, w.Typed Γ K.schedule K.retry scheduled := by
  induction es generalizing c v with
  | nil => exact fun _ h => absurd h List.not_mem_nil
  | cons e es ih =>
    obtain ⟨hfirst, hcov⟩ := hcov
    have hqueue := hes e (List.mem_cons_self ..)
    have hrest := fun e' he' => hes e' (List.mem_cons_of_mem e he')
    rw [planFor]
    split
    · next hskip =>
      -- nothing is written, so nothing more is covered
      have hcond := unconditional_of_skips (Bool.and_eq_true_iff.mp hskip).1
      refine ih hrest (hcov.mono fun id hid => ?_) hv
      exact hid.elim (fun h => h) fun h => absurd h.1 (by simp [hcond])
    · intro w hw
      rcases List.mem_cons.mp hw with rfl | hw
      · have hnew : ∀ k, (writeFor K v e).newQueue = some k → Γ k .list := by
          rintro k hk
          cases hk
          exact hqueue
        refine ⟨?_, fun hr => ⟨hschedule, hretry, fun k hk => ?_, hnew⟩⟩
        · cases scheduled with
          | true => exact hschedule
          | false => exact hnew
        · have hrep : e.replaces = true := (Bool.and_eq_true_iff.mp hr).1
          rw [writeFor, if_pos hrep] at hk
          exact hv e.id (hfirst hrep) k hk
      · refine ih hrest hcov (fun id hid k hk => ?_) w hw
        by_cases heq : id = e.id
        · subst heq
          rw [View.write, Function.update_self] at hk
          cases hk
          exact hqueue
        · rw [View.write, Function.update_of_ne heq] at hk
          exact hv id (hid.resolve_right fun h => heq h.2) k hk

/-- **A call commits** if its snapshots show what is stored and its keys have the right types. -/
theorem enqueueCall_commits (hnd : m.ids.Nodup) (hcov : Covered (· ∈ m.ids) pending)
    (hagree : SnapshotsAgree K pending m s) (hkeys : KeysFit K pending m s) :
    ∃ outcomes s', enqueueCall K destination m pending s = (.ok ⟨[], outcomes⟩, s') := by
  have hΓ := hkeys.consistent
  have hs := hkeys.typed
  obtain ⟨types, hrun, htypes⟩ := demandType_ok hΓ hs [] (k := K.jobs) (fun _ _ h => nomatch h)
    (.inl ⟨rfl, rfl⟩)
  have hsnap := checkSnapshots_run (callKeys K pending m) hkeys.jobs (snapshotArgs pending m)
    ⟨fun _ => none, fun _ => none⟩
  rw [changedOf_eq_nil.mpr hagree] at hsnap
  have hview := trustingView_agrees hnd hagree
  have hplan := planInputs_run (declaredQueues pending m) hkeys.jobs
    (fun e he => mem_declared_pending he) hview hcov
  -- the ready lists of the view are those of the snapshots
  have hlists : ∀ id, id ∈ m.ids → ∀ k, trustingView K pending m s id = some k →
      callTyping K pending m k .list := by
    intro id hid k hk
    obtain ⟨⟨id, sn⟩, hin, rfl⟩ := List.mem_map.mp hid
    have hshows := snapshotsAgree_iff.mp hagree id sn hin
    rw [trustingView] at hk
    split at hk
    · next hstored =>
      cases sn with
      | none =>
        rw [show payloadOf K.jobs s id = none from hshows] at hstored
        cases hstored
      | some sn =>
        rw [(learned_present pending hnd hin).2 sn rfl] at hk
        cases hk
        exact .inr (.inr ⟨_, mem_declared_snapshot hin, rfl, rfl⟩)
    · cases hk
  generalize trustingView K pending m s = v at hview hplan hlists
  have htyped : ∀ w ∈ planFor K v pending, w.Typed (callTyping K pending m) K.schedule K.retry
      (decide (destination = .schedule)) := planFor_typed
    (.inr (.inl ⟨.inl rfl, rfl⟩)) (.inr (.inl ⟨.inr rfl, rfl⟩))
    (fun e he => .inr (.inr ⟨_, mem_declared_pending he, rfl, rfl⟩)) hcov hlists
  obtain ⟨types', hpre⟩ := preflight_ok hΓ hs keyed_of_planFor htyped htypes
  have hready : Ready K (destination = .schedule) (planFor K v pending) (callTyping K pending m) s :=
    ⟨hΓ, hs, .inl ⟨rfl, rfl⟩, htyped⟩
  obtain ⟨_, s', hcommit⟩ := hready.total.run hs
  refine ⟨outcomesFor K v pending, s', ?_⟩
  have hwrites : enqueueWrites (callKeys K pending m) K.jobs K.schedule K.retry
      (destination = .schedule) (pending.map (inputArg (declaredQueues pending m))) types
      (learned K pending m s) s = (.ok ⟨[], outcomesFor K v pending⟩, s') := by
    rw [enqueueWrites, callKeys, bind_ok hplan, bind_ok hpre, bind_ok hcommit]
    rfl
  simp only [enqueueCall, enqueueScript]
  rw [bind_ok hrun]
  refine (bind_ok hsnap).trans ?_
  rw [if_neg (by simp)]
  exact hwrites

/-- **A stale call commits when it is repeated** with the payloads it has returned. -/
theorem repeated_commits {R : List JobId} {reply : EnqueueReply}
    {tr : List (Prog.Event Request (World γ))} (hm : m.Of R) (hcov : Covered (· ∈ R) pending)
    (hreply : (enqueueCall K destination m pending s).1 = .ok reply) (hstale : reply.changed ≠ [])
    (h : Call.Returns (addSnapshots reply.changed m) tr m') :
    (KeysFit K pending m' s → ∃ outcomes s',
      enqueueCall K destination m' pending s = (.ok ⟨[], outcomes⟩, s')) ∧
    ∀ reply', (enqueueCall K destination m' pending s).1 = .ok reply' → reply'.changed = [] := by
  have hm' : m'.Of R := (hm.refresh hcov hreply h).2
  have hcovers {m : Snapshots} (hm : m.Of R) : Covered (· ∈ m.ids) pending :=
    hcov.mono fun id hid => (hm.ids id).mpr hid
  have hchanged : reply.changed = changedOf K.jobs s (snapshotArgs pending m) := by
    rcases enqueueCall_cases destination (hcovers hm) (trustingView_agrees (s := s) hm.nodup)
      with ⟨msg, hx⟩ | ⟨-, hx⟩ | ⟨-, -, Γ, hready, hx⟩
    · rw [hx] at hreply
      cases hreply
    · rw [hx] at hreply
      cases hreply
      rfl
    · obtain ⟨_, s', hs'⟩ := hready.total.run hready.typed
      rw [hx, bind_ok hs'] at hreply
      cases hreply
      exact absurd rfl hstale
  rw [hchanged] at h
  have hagree : SnapshotsAgree K pending m' s := refreshed_agree hm.nodup h
  refine ⟨enqueueCall_commits hm'.nodup (hcovers hm') hagree, fun reply' hreply' => ?_⟩
  rcases enqueueCall_cases destination (hcovers hm') (trustingView_agrees (s := s) hm'.nodup)
    with ⟨msg, hx⟩ | ⟨hne, -⟩ | ⟨-, -, Γ, hready, hx⟩
  · rw [hx] at hreply'
    cases hreply'
  · exact absurd (changedOf_eq_nil.mpr hagree) hne
  · obtain ⟨_, s', hs'⟩ := hready.total.run hready.typed
    rw [hx, bind_ok hs'] at hreply'
    cases hreply'
    rfl

end Repeated

/-! ## Soundness -/

/-- A member whose key no other member has is the one that is found. -/
theorem locate_of_mem {k : String} {fs : List Field} {f : Field} (hnd : (fs.map Field.key).Nodup)
    (hf : f ∈ fs) (hk : f.key = k) : ∃ fs₁, locate k fs = some (fs₁, f) := by
  have hfilter : (fs.filter fun f => decide (f.key = k)) = [f] := by
    obtain ⟨fs₁, fs₂, rfl⟩ := List.append_of_mem hf
    rw [List.map_append, List.map_cons, List.nodup_append, List.nodup_cons] at hnd
    obtain ⟨-, ⟨hafter, -⟩, hbefore⟩ := hnd
    have hnone {gs : List Field} (hgs : ∀ g ∈ gs, g.key ≠ k) :
        (gs.filter fun f => decide (f.key = k)) = [] :=
      List.filter_eq_nil_iff.mpr fun g hg => by simpa using hgs g hg
    rw [List.filter_append, List.filter_cons_of_pos (by simpa using hk), hnone, hnone]
    · rfl
    · rintro g hg rfl
      exact hafter (hk ▸ List.mem_map_of_mem hg)
    · rintro g hg rfl
      exact hbefore _ (List.mem_map_of_mem hg) _ (List.mem_cons_self ..) hk.symm
  exact ⟨_, by rw [locate, hfilter]⟩

/-- **Partial comparison is sound.** An object without repeated keys that passes the comparison with
a snapshot has one queue, and it is that of the snapshot; the payload the snapshot was taken of
passes; and a call that found snapshots stale, and is repeated with the payloads it has returned
while the store stays as it is, finds none stale: it commits, if its keys have the right types. -/
theorem snapshots_sound {γ : Type} {p : String} {sn : EnqueueSnapshot}
    (hs : EnqueueSnapshot.parse p = some sn) :
    (∀ (p' : String) (fs : List Field), rootFields p'.toList = some fs →
      (fs.map Field.key).Nodup → sn.passes p' = true →
        ∃ fs₁ f, locate "queue" fs = some (fs₁, f) ∧ f.value = .str sn.queue) ∧
    sn.passes p = true ∧
    ∀ (K : StorageKeys) (destination : JobDestination) (R : List JobId)
      (pending : List JobEnvelope) (m m' : Snapshots) (s : Store) (reply : EnqueueReply)
      (tr : List (Prog.Event Request (World γ))), m.Of R → Covered (· ∈ R) pending →
      (enqueueCall K destination m pending s).1 = .ok reply → reply.changed ≠ [] →
      Call.Returns (addSnapshots reply.changed m) tr m' →
        (KeysFit K pending m' s → ∃ outcomes s',
          enqueueCall K destination m' pending s = (.ok ⟨[], outcomes⟩, s')) ∧
        ∀ reply', (enqueueCall K destination m' pending s).1 = .ok reply' →
          reply'.changed = [] := by
  refine ⟨fun p' fs hfs hnd hpasses => ?_, ?_, ?_⟩
  · have hmatches := (EnqueueSnapshot.passes_iff hs).mp hpasses
    obtain ⟨f, hf, hkey, hval⟩ := EnqueueSnapshot.member_of_matches hs hmatches hfs
    obtain ⟨fs₁, hloc⟩ := locate_of_mem hnd hf hkey
    exact ⟨fs₁, f, hloc, hval⟩
  · exact (EnqueueSnapshot.passes_iff hs).mpr (EnqueueSnapshot.matches_self hs)
  · exact fun K destination R pending m m' s reply tr hm hcov hreply hstale h =>
      repeated_commits hm hcov hreply hstale h

/-- Whatever a handler keeps: the beginning is compared, and that the job has got a state with the
text of another queue in it does not matter. -/
theorem mail_snapshot_sound : ∃ sn fs fs₁ f, EnqueueSnapshot.parse mail.encode = some sn ∧
    sn.comparison = .initial ∧ sn.passes mail.encode = true ∧
    rootFields (mail.withState (.str ",\"queue\":\"other\"")).encode.toList = some fs ∧
    locate "queue" fs = some (fs₁, f) ∧ f.value = .str sn.queue := by
  have hparse : (EnqueueSnapshot.parse mail.encode).any (fun sn =>
      sn.comparison = .initial ∧
        sn.passes (mail.withState (.str ",\"queue\":\"other\"")).encode) = true := by
    decide +kernel
  have hroot : (rootFields (mail.withState (.str ",\"queue\":\"other\"")).encode.toList).any
      (fun fs => (fs.map Field.key).Nodup) = true := by
    decide +kernel
  obtain ⟨sn, hsn, hcond⟩ := (Option.any_eq_true _ _).mp hparse
  obtain ⟨fs, hfs, hnd⟩ := (Option.any_eq_true _ _).mp hroot
  obtain ⟨hinitial, hpasses⟩ := of_decide_eq_true hcond
  obtain ⟨hsound, hself, -⟩ := snapshots_sound (γ := Unit) hsn
  obtain ⟨fs₁, f, hloc, hval⟩ := hsound _ fs hfs (of_decide_eq_true hnd) hpasses
  exact ⟨sn, fs, fs₁, f, hsn, hinitial, hself, hfs, hloc, hval⟩

end Oxana
