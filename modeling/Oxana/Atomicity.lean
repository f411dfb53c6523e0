import Oxana.EnqueueScript
import Mathlib.Data.List.Nodup

/-!
# Scripts change everything or nothing

The server does not undo the writes of a script that fails halfway. The scripts
work around it by checking types first, and the question is whether their
checks cover every later command: under aliasing (a queue may be named after
any key of the storage), and although a write may create a key or delete it by
emptying it.

`Invocation` collects the calls the storage makes, `invocation_atomic` says
that each of them either succeeds or returns its own error reply without having
changed anything. For the scripts with fixed keys this can be read off what
they do. `enqueue.lua` records the types it has asked for, so its own table is
a consistent typing of all keys it is going to touch, and no write of a chunk
changes the kind of a key.
-/

namespace Oxana

open Redis Script

variable {K : StorageKeys}

/-! ## The type checks of `enqueue.lua` -/

/-- The typing a script has established by asking. -/
def Types.typing (types : Types) : Typing := fun k kd => types.lookup k = some kd

/-- The types that have been checked so far never ask for two kinds under one key. -/
theorem Types.typing_consistent (types : Types) : types.typing.Consistent :=
  fun _ _ _ h h' => Option.some.inj (h.symm.trans h')

/-- What further questions do to the table: answers stay, and the new ones are
right. -/
structure Types.Extends (s : Store) (types types' : Types) : Prop where
  /-- answers stay -/
  keeps : ∀ k kd, types.typing k kd → types'.typing k kd
  /-- new ones are right -/
  right : Typed types.typing s → Typed types'.typing s

theorem Types.Extends.refl (s : Store) (types : Types) : Types.Extends s types types :=
  ⟨fun _ _ h => h, fun h => h⟩

theorem Types.Extends.trans {s : Store} {t₁ t₂ t₃ : Types} (h : Types.Extends s t₁ t₂)
    (h' : Types.Extends s t₂ t₃) : Types.Extends s t₁ t₃ :=
  ⟨fun k kd hk => h'.keeps k kd (h.keeps k kd hk), fun ht => h'.right (h.right ht)⟩

/-- A demand is met by what is stored or by what has been checked before, and from then on it is
among the checked ones; nothing is written. -/
theorem demandType_checks (types : Types) (k : Key) (kd : Kind) (s : Store) :
    Checks (demandType types (some k) kd) s fun types' =>
      Types.Extends s types types' ∧ types'.typing k kd := by
  unfold demandType requireType
  rcases hl : types.lookup k with _ | kd'
  · have htype : type k s = (.ok (s.kind k), s) := rfl
    by_cases hfit : s.Fits k kd
    · have hok : s.kind k = none ∨ s.kind k = some kd := hfit
      refine .inl ⟨(k, kd) :: types, ?_, ⟨?_, ?_⟩, ?_⟩
      · simp only [hl]
        rw [bind_apply, bind_ok htype]
        simp [if_pos hok]
      · intro k' kd' h
        have hne : k' ≠ k := by
          rintro rfl
          rw [Types.typing, hl] at h
          cases h
        rw [Types.typing, List.lookup_cons, beq_eq_false_iff_ne.mpr hne]
        exact h
      · intro ht k' kd' h
        rw [Types.typing, List.lookup_cons] at h
        rcases hk : k' == k with _ | _
        · rw [hk] at h
          exact ht k' kd' h
        · rw [hk] at h
          obtain rfl := Option.some.inj h
          rw [beq_iff_eq.mp hk]
          exact hfit
      · simp [Types.typing]
    · have hbad : ¬ (s.kind k = none ∨ s.kind k = some kd) := hfit
      right
      simp only [hl]
      rw [bind_apply, bind_ok htype]
      simp [if_neg hbad, enqueueWrongType]
  · simp only [hl]
    by_cases hk : kd' = kd
    · subst hk
      exact .inl ⟨types, by simp, .refl s types, hl⟩
    · right
      simp [hk, enqueueWrongType]

/-- A planned write whose keys the script can name before it writes: the new ready list, and the old
one if the job is replaced. -/
def Write.Keyed (w : Write) : Prop :=
  (∃ k, w.newQueue = some k) ∧ (w.replacing → ∃ k, w.oldQueue = some k)

/-- The keys that a planned write touches have the types that its commands need, according to the
typing `Γ`. -/
structure Write.Typed (Γ : Typing) (schedule retry : Key) (scheduled : Bool) (w : Write) :
    Prop where
  /-- the destination -/
  place : if scheduled then Γ schedule .zset else ∀ k, w.newQueue = some k → Γ k .list
  /-- where a replaced job may be -/
  remove : w.replacing → Γ schedule .zset ∧ Γ retry .zset ∧
    (∀ k, w.oldQueue = some k → Γ k .list) ∧ ∀ k, w.newQueue = some k → Γ k .list

theorem Write.Typed.mono {Γ Γ' : Typing} (hΓ : ∀ k kd, Γ k kd → Γ' k kd) {schedule retry : Key}
    {scheduled : Bool} {w : Write} (h : w.Typed Γ schedule retry scheduled) :
    w.Typed Γ' schedule retry scheduled := by
  refine ⟨?_, fun hr => ?_⟩
  · have := h.place
    cases scheduled with
    | true => exact hΓ _ _ this
    | false => exact fun k hk => hΓ _ _ (this k hk)
  · obtain ⟨h₁, h₂, h₃, h₄⟩ := h.remove hr
    exact ⟨hΓ _ _ h₁, hΓ _ _ h₂, fun k hk => hΓ _ _ (h₃ k hk), fun k hk => hΓ _ _ (h₄ k hk)⟩

/-- The types of all keys of a write are checked before it, and nothing is written. -/
theorem preflightWrite_checks {schedule retry : Key} {scheduled : Bool} {w : Write}
    (hw : w.Keyed) (types : Types) (s : Store) :
    Checks (preflightWrite schedule retry scheduled w types) s fun types' =>
      Types.Extends s types types' ∧ w.Typed types'.typing schedule retry scheduled := by
  obtain ⟨⟨n, hn⟩, hold⟩ := hw
  -- the destination
  have hfirst : Checks (preflightPlace schedule scheduled w types) s fun t =>
      Types.Extends s types t ∧
        if scheduled then t.typing schedule .zset
        else ∀ k, w.newQueue = some k → t.typing k .list := by
    simp only [preflightPlace]
    cases scheduled with
    | true => exact demandType_checks types schedule .zset s
    | false =>
      rw [hn]
      rcases demandType_checks types n .list s with ⟨t, ht, he, hk⟩ | hm
      · refine .inl ⟨t, ht, he, ?_⟩
        rintro k ⟨⟩
        exact hk
      · exact .inr hm
  refine hfirst.bind fun t ⟨hext, hplace⟩ => ?_
  by_cases hr : w.replacing
  · obtain ⟨o, ho⟩ := hold hr
    rw [if_pos hr, ho, hn]
    refine (demandType_checks t schedule .zset s).bind fun t₁ ⟨e₁, k₁⟩ => ?_
    refine (demandType_checks t₁ retry .zset s).bind fun t₂ ⟨e₂, k₂⟩ => ?_
    refine (demandType_checks t₂ o .list s).bind fun t₃ ⟨e₃, k₃⟩ => ?_
    rcases demandType_checks t₃ n .list s with ⟨t₄, h₄, e₄, k₄⟩ | hm
    · have hall := e₁.trans (e₂.trans (e₃.trans e₄))
      refine .inl ⟨t₄, h₄, hext.trans hall, ?_, fun _ => ⟨?_, ?_, ?_, ?_⟩⟩
      · cases scheduled with
        | true => exact hall.keeps _ _ hplace
        | false => exact fun k hk => hall.keeps _ _ (hplace k hk)
      · exact (e₂.trans (e₃.trans e₄)).keeps _ _ k₁
      · exact (e₃.trans e₄).keeps _ _ k₂
      · rintro k hk
        rw [ho] at hk
        cases hk
        exact e₄.keeps _ _ k₃
      · rintro k hk
        rw [hn] at hk
        cases hk
        exact k₄
    · exact .inr hm
  · rw [if_neg hr]
    exact .ret ⟨hext, hplace, fun h => absurd h hr⟩

/-- The types of all keys of a plan are checked before its first write, and nothing is written. -/
theorem preflight_checks (schedule retry : Key) (scheduled : Bool) {ws : List Write}
    (hws : ∀ w ∈ ws, w.Keyed) (types : Types) (s : Store) :
    Checks (preflight schedule retry scheduled ws types) s fun types' =>
      Types.Extends s types types' ∧ ∀ w ∈ ws, w.Typed types'.typing schedule retry scheduled := by
  induction ws generalizing types with
  | nil => exact .ret ⟨.refl s types, fun _ h => absurd h List.not_mem_nil⟩
  | cons w ws ih =>
    refine (preflightWrite_checks (hws w (List.mem_cons_self ..)) types s).bind
      fun t ⟨hext, hw⟩ => ?_
    rcases ih (fun w hw => hws w (List.mem_cons_of_mem _ hw)) t with ⟨t', ht', he, hall⟩ | hm
    · refine .inl ⟨t', ht', hext.trans he, fun w' hw' => ?_⟩
      rcases List.mem_cons.mp hw' with rfl | hw'
      · exact hw.mono he.keeps
      · exact hall w' hw'
    · exact .inr hm

/-- A demand that agrees with the types of the store is met. -/
theorem demandType_ok {Γ : Typing} (hΓ : Γ.Consistent) (hs : Script.Typed Γ s) (types : Types)
    (ht : ∀ k kd, types.typing k kd → Γ k kd) {k : Key} {kd : Kind} (hk : Γ k kd) :
    ∃ types', demandType types (some k) kd s = (.ok types', s) ∧
      ∀ k kd, types'.typing k kd → Γ k kd := by
  unfold demandType requireType
  rcases hl : types.lookup k with _ | kd'
  · have htype : type k s = (.ok (s.kind k), s) := rfl
    have hok : s.kind k = none ∨ s.kind k = some kd := hs k kd hk
    refine ⟨(k, kd) :: types, ?_, fun k' kd' h => ?_⟩
    · simp only [hl]
      rw [bind_apply, bind_ok htype]
      simp [if_pos hok]
    · rw [Types.typing, List.lookup_cons] at h
      rcases hk' : k' == k with _ | _
      · rw [hk'] at h
        exact ht k' kd' h
      · rw [hk'] at h
        rw [beq_iff_eq.mp hk', ← Option.some.inj h]
        exact hk
  · obtain rfl : kd' = kd := hΓ k kd' kd (ht k kd' hl) hk
    exact ⟨types, by simp [hl], ht⟩

/-- All demands of a plan are met if they agree with the types of the store. -/
theorem preflight_ok {Γ : Typing} {s : Store} (hΓ : Γ.Consistent) (hs : Script.Typed Γ s)
    {schedule retry : Key} {scheduled : Bool} {ws : List Write} (hkeyed : ∀ w ∈ ws, w.Keyed)
    (hws : ∀ w ∈ ws, w.Typed Γ schedule retry scheduled) {types : Types}
    (ht : ∀ k kd, types.typing k kd → Γ k kd) :
    ∃ types', preflight schedule retry scheduled ws types s = (.ok types', s) := by
  induction ws generalizing types with
  | nil => exact ⟨types, rfl⟩
  | cons w ws ih =>
    obtain ⟨⟨n, hn⟩, hold⟩ := hkeyed w (List.mem_cons_self ..)
    obtain ⟨hplace, hremove⟩ := hws w (List.mem_cons_self ..)
    have hfirst : ∃ types', preflightPlace schedule scheduled w types s = (.ok types', s) ∧
        ∀ k kd, types'.typing k kd → Γ k kd := by
      simp only [preflightPlace]
      cases scheduled with
      | true => exact demandType_ok hΓ hs _ ht hplace
      | false =>
        rw [hn]
        exact demandType_ok hΓ hs _ ht (hplace n hn)
    obtain ⟨types₁, hrun₁, ht₁⟩ := hfirst
    have hone : ∃ types', preflightWrite schedule retry scheduled w types s = (.ok types', s) ∧
        ∀ k kd, types'.typing k kd → Γ k kd := by
      rw [preflightWrite, bind_ok hrun₁]
      by_cases hr : w.replacing
      · obtain ⟨o, ho⟩ := hold hr
        obtain ⟨h₁, h₂, h₃, h₄⟩ := hremove hr
        obtain ⟨types₂, hrun₂, ht₂⟩ := demandType_ok hΓ hs _ ht₁ h₁
        obtain ⟨types₃, hrun₃, ht₃⟩ := demandType_ok hΓ hs _ ht₂ h₂
        obtain ⟨types₄, hrun₄, ht₄⟩ := demandType_ok hΓ hs _ ht₃ (h₃ o ho)
        obtain ⟨types₅, hrun₅, ht₅⟩ := demandType_ok hΓ hs _ ht₄ (h₄ n hn)
        rw [if_pos hr, ho, hn, bind_ok hrun₂, bind_ok hrun₃, bind_ok hrun₄]
        exact ⟨types₅, hrun₅, ht₅⟩
      · rw [if_neg hr]
        exact ⟨types₁, rfl, ht₁⟩
    obtain ⟨types₂, hrun₂, ht₂⟩ := hone
    obtain ⟨types₃, hrest⟩ := ih (fun w' hw' => hkeyed w' (List.mem_cons_of_mem _ hw'))
      (fun w' hw' => hws w' (List.mem_cons_of_mem _ hw')) ht₂
    exact ⟨types₃, by rw [preflight, bind_ok hrun₂, hrest]⟩

/-- A command succeeds on a key that the script can name, if it does on every such key. -/
theorem Total.onKey {P : Store → Prop} {key : Option Key} {x : Key → Script Unit}
    (hk : ∃ k, key = some k) (hx : ∀ k, key = some k → Total P (x k) fun _ => P) :
    Total P (onKey key x) fun _ => P := by
  obtain ⟨k, rfl⟩ := hk
  exact hx k rfl

/-- **No write of a checked plan fails**, and none changes the kind of a key. -/
theorem commitWrite_total {Γ : Typing} (hΓ : Γ.Consistent) {jobs schedule retry : Key}
    {scheduled : Bool} (hj : Γ jobs .hash) {w : Write} (hw : w.Keyed)
    (ht : w.Typed Γ schedule retry scheduled) :
    Total (Script.Typed Γ) (commitWrite jobs schedule retry scheduled w) fun _ =>
      Script.Typed Γ := by
  have hplace : Total (Script.Typed Γ) (do
      hset jobs w.id w.payload
      if scheduled then zadd schedule w.score w.id
      else onKey w.newQueue fun k => lpush k w.id) fun _ => Script.Typed Γ := by
    refine .bind (Total.hset hΓ hj w.id w.payload) fun _ => ?_
    have hp := ht.place
    cases scheduled with
    | true => exact Total.zadd hΓ hp w.score w.id
    | false => exact Total.onKey hw.1 fun k hk => Total.lpush hΓ (hp k hk) w.id
  simp only [commitWrite]
  by_cases hr : w.replacing
  · obtain ⟨h₁, h₂, h₃, h₄⟩ := ht.remove hr
    simp only [if_pos hr]
    refine .bind (Total.zrem hΓ h₁ w.id) fun _ => .bind (Total.zrem hΓ h₂ w.id) fun _ =>
      .bind (Total.onKey (hw.2 hr) fun k hk => Total.lremAll hΓ (h₃ k hk) w.id) fun _ => ?_
    split
    · exact .bind (Total.onKey hw.1 fun k hk => Total.lremAll hΓ (h₄ k hk) w.id) fun _ => hplace
    · exact hplace
  · simp only [if_neg hr]
    exact hplace

/-! ## A call of `enqueue.lua` -/

theorem writeFor_keyed (v : View) (e : JobEnvelope) : (writeFor K v e).Keyed := by
  refine ⟨⟨_, rfl⟩, fun hr => ?_⟩
  obtain ⟨h₁, h₂⟩ := Bool.and_eq_true_iff.mp hr
  obtain ⟨k, hk⟩ := Option.isSome_iff_exists.mp h₂
  exact ⟨k, by rw [writeFor, if_pos h₁, hk]⟩

/-- Every planned write can name its keys. -/
theorem keyed_of_planFor {v : View} {es : List JobEnvelope} : ∀ w ∈ planFor K v es, w.Keyed := by
  induction es generalizing v with
  | nil => exact fun _ h => absurd h List.not_mem_nil
  | cons e es ih =>
    intro w hw
    rw [planFor] at hw
    split at hw
    · exact ih w hw
    · rcases List.mem_cons.mp hw with rfl | hw
      · exact writeFor_keyed v e
      · exact ih w hw

/-- A typing that holds of the store and under which all writes of a plan can be made, so that none
of them fails halfway. -/
structure Ready (K : StorageKeys) (scheduled : Bool) (ws : List Write) (Γ : Typing) (s : Store) :
    Prop where
  /-- no key has two kinds -/
  consistent : Γ.Consistent
  /-- the store is as expected -/
  typed : Script.Typed Γ s
  /-- the jobs hash -/
  jobs : Γ K.jobs .hash
  /-- the keys of all writes -/
  writes : ∀ w ∈ ws, w.Typed Γ K.schedule K.retry scheduled

/-- **What a call does.** It is refused; or some snapshot is stale and it
returns what is stored instead; or it makes the writes of the plan, with all
types checked. -/
theorem enqueueCall_cases (destination : JobDestination) {snapshots : Snapshots}
    {pending : List JobEnvelope} {s : Store} {v : View}
    (hcov : Covered (fun id => id ∈ snapshots.map (·.1)) pending)
    (hv : SnapshotsAgree K pending snapshots s →
      (learned K pending snapshots s).Agrees K.jobs s v fun id => id ∈ snapshots.map (·.1)) :
    Refused (enqueueCall K destination snapshots pending) s ∨
    (changedOf K.jobs s (snapshotArgs pending snapshots) ≠ [] ∧
      enqueueCall K destination snapshots pending s =
        (.ok ⟨changedOf K.jobs s (snapshotArgs pending snapshots), []⟩, s)) ∨
    (SnapshotsAgree K pending snapshots s ∧ s.Fits K.jobs .hash ∧
      ∃ Γ, Ready K (destination = .schedule) (planFor K v pending) Γ s ∧
        enqueueCall K destination snapshots pending s =
          (do
            forEach (planFor K v pending)
              (commitWrite K.jobs K.schedule K.retry (destination = .schedule))
            return ⟨[], outcomesFor K v pending⟩ : Script EnqueueReply) s) := by
  rcases demandType_checks [] K.jobs .hash s with ⟨types, hrun, hext, hjobs⟩ | ⟨m, hm⟩
  · have htyped : Script.Typed types.typing s := hext.right fun _ _ h => nomatch h
    have hj : s.Fits K.jobs .hash := htyped _ _ hjobs
    have hsnap := checkSnapshots_run (callKeys K pending snapshots) hj
      (snapshotArgs pending snapshots) ⟨fun _ => none, fun _ => none⟩
    have hcall : enqueueCall K destination snapshots pending s =
        (if changedOf K.jobs s (snapshotArgs pending snapshots) ≠ [] then
          pure ⟨changedOf K.jobs s (snapshotArgs pending snapshots), []⟩
        else enqueueWrites (callKeys K pending snapshots) K.jobs K.schedule K.retry
          (destination = .schedule) (pending.map (inputArg (declaredQueues pending snapshots)))
          types (learned K pending snapshots s)) s :=
      (bind_ok hrun).trans (bind_ok hsnap)
    rw [hcall]
    by_cases hch : changedOf K.jobs s (snapshotArgs pending snapshots) = []
    · have hagree : SnapshotsAgree K pending snapshots s := changedOf_eq_nil.mp hch
      have hplan := planInputs_run (declaredQueues pending snapshots) hj
        (fun e he => mem_declared_pending he) (hv hagree) hcov
      rw [if_neg (not_not.mpr hch)]
      have hwrites : enqueueWrites (callKeys K pending snapshots) K.jobs K.schedule K.retry
          (destination = .schedule) (pending.map (inputArg (declaredQueues pending snapshots)))
          types (learned K pending snapshots s) s =
            (do
              let _ ← preflight K.schedule K.retry (destination = .schedule)
                (planFor K v pending) types
              forEach (planFor K v pending)
                (commitWrite K.jobs K.schedule K.retry (destination = .schedule))
              pure ⟨[], outcomesFor K v pending⟩ : Script EnqueueReply) s := bind_ok hplan
      rcases preflight_checks K.schedule K.retry (destination = .schedule) keyed_of_planFor types s with
        ⟨types', hpre, hext', hall⟩ | ⟨m, hm⟩
      · refine .inr (.inr ⟨hagree, hj, types'.typing,
          ⟨types'.typing_consistent, hext'.right htyped, hext'.keeps _ _ hjobs, hall⟩, ?_⟩)
        rw [hwrites, bind_ok hpre]
      · exact .inl ⟨m, by rw [hcall, if_neg (not_not.mpr hch), hwrites, bind_apply, hm]⟩
    · rw [if_pos hch]
      exact .inr (.inl ⟨hch, rfl⟩)
  · refine .inl ⟨m, ?_⟩
    simp only [enqueueCall, enqueueScript]
    rw [bind_apply, hm]

/-- Once everything is ready for a plan, all of its writes succeed. -/
theorem Ready.total {scheduled : Bool} {v : View} {es : List JobEnvelope} {Γ : Typing}
    {s : Store} (h : Ready K scheduled (planFor K v es) Γ s) :
    Total (Script.Typed Γ) (forEach (planFor K v es)
      (commitWrite K.jobs K.schedule K.retry scheduled)) fun _ => Script.Typed Γ :=
  .forEach fun w hw => commitWrite_total h.consistent h.jobs (keyed_of_planFor w hw) (h.writes w hw)

/-- The view of a script that takes its snapshots at their word. -/
def trustingView (K : StorageKeys) (pending : List JobEnvelope) (snapshots : Snapshots)
    (s : Store) : View := fun id =>
  if (payloadOf K.jobs s id).isSome then
    some (((learned K pending snapshots s).queueKeys id).getD "")
  else none

/-- What the script takes a snapshot's word for is so, if the snapshots agree with the store. -/
theorem trustingView_agrees {pending : List JobEnvelope} {snapshots : Snapshots} {s : Store}
    (hnd : (snapshots.map (·.1)).Nodup) (hagree : SnapshotsAgree K pending snapshots s) :
    (learned K pending snapshots s).Agrees K.jobs s (trustingView K pending snapshots s)
      fun id => id ∈ snapshots.map (·.1) := by
  have hsome : ∀ id, (trustingView K pending snapshots s id).isSome =
      (payloadOf K.jobs s id).isSome := by
    intro id
    rw [trustingView]
    split
    · next h => simp [h]
    · next h => simpa using h
  refine ⟨fun id b hb => ?_, fun id _ => hsome id, fun id hid => ?_⟩
  · by_cases hid : id ∈ snapshots.map (·.1)
    · obtain ⟨⟨id, sn⟩, hmem, rfl⟩ := List.mem_map.mp hid
      rw [(learned_present _ hnd hmem).1] at hb
      rw [hsome]
      exact (Option.some.inj hb).symm
    · rw [learned_absent hid] at hb
      cases hb
  · obtain ⟨⟨id, sn⟩, hmem, rfl⟩ := List.mem_map.mp hid
    rcases sn with _ | sn
    · -- an id that is still absent
      right
      have := hagree _ (List.mem_map.mpr ⟨(id, none), hmem, rfl⟩)
      have hnone : payloadOf K.jobs s id = none := by
        simpa [SnapshotArg.agrees, snapshotArg] using this
      simp [trustingView, hnone]
    · have hq := (learned_present (K := K) (s := s) pending hnd hmem).2 sn rfl
      rcases hp : payloadOf K.jobs s id with _ | p
      · exact .inr (by simp [trustingView, hp])
      · exact .inl (by simp [trustingView, hp, hq])

/-! ## All calls -/

/-- The two sorted sets in which a job waits for its time, before its first attempt and before the
next. -/
inductive DelayedSet where
  /-- for its time -/
  | schedule
  /-- for its next attempt -/
  | retry
  deriving DecidableEq, Repr

/-- The key of the sorted set. -/
def DelayedSet.key (K : StorageKeys) : DelayedSet → Key
  | .schedule => K.schedule
  | .retry => K.retry

/-- The calls of scripts that the storage makes, with everything their callers can choose; the keys
and arguments of the script follow from it. -/
inductive Invocation where
  /-- a chunk of envelopes; `written` and `existing` are the ids the producer
  leaves out, `stored` is what it has read -/
  | enqueue (destination : JobDestination) (envelopes : List JobEnvelope)
      (written existing : List JobId) (stored : JobId → Option EnqueueSnapshot)
  /-- a job that is due -/
  | promote (set : DelayedSet) (queue : String) (id : JobId) (payload : String) (score : Int)
  /-- a claim of a dead process -/
  | resurrect (processId queue : String) (id : JobId) (payload : String) (again : Bool)
  /-- a failed attempt -/
  | retry (processId : String) (id : JobId) (payload : String) (score : Int)
  /-- finished jobs -/
  | success (processId : String) (ids : List JobId)
  /-- a job given up -/
  | dead (processId : String) (id : JobId) (payload : String) (limit : Nat)

/-- The script whose reply is forgotten. -/
def quiet {α : Type} (x : Script α) : Script Unit := x >>= fun _ => pure ()

/-- The script a call runs, with its keys and arguments. -/
def Invocation.script (K : StorageKeys) : Invocation → Script Unit
  | .enqueue destination envelopes written existing stored =>
    let pending := pendingOf written envelopes []
    quiet (enqueueCall K destination ((replacementIds pending []).map fun id => (id, stored id))
      (dropExisting existing pending))
  | .promote set queue id payload score =>
    quiet (promoteScheduled K.jobs (set.key K) (K.namespaceQueue queue) id payload score)
  | .resurrect processId queue id payload again =>
    quiet (resurrectClaim K.jobs (K.processingQueue processId) (K.namespaceQueue queue) id payload
      again)
  | .retry processId id payload score =>
    retryFailed K.jobs K.retry (K.processingQueue processId) id payload score
  | .success processId ids => finishSuccess K.jobs (K.processingQueue processId) ids
  | .dead processId id payload limit =>
    finishDead K.jobs K.dead (K.processingQueue processId) id payload limit

theorem Atomic.quiet {α : Type} {x : Script α} (h : Atomic x) : Atomic (Oxana.quiet x) := by
  intro s
  rcases h s with ⟨a, s', hx⟩ | ⟨m, hx⟩
  · exact .inl ⟨(), s', by rw [Oxana.quiet, bind_ok hx, pure_apply]⟩
  · exact .inr ⟨m, by rw [Oxana.quiet, bind_apply, hx]⟩

/-- A call of the enqueue script succeeds, or it ends with an error and no key has changed. -/
theorem enqueueCall_atomic (destination : JobDestination) {snapshots : Snapshots}
    {pending : List JobEnvelope} (hnd : (snapshots.map (·.1)).Nodup)
    (hcov : Covered (fun id => id ∈ snapshots.map (·.1)) pending) :
    Atomic (enqueueCall K destination snapshots pending) := by
  intro s
  rcases enqueueCall_cases destination hcov (trustingView_agrees (s := s) hnd) with
    h | ⟨-, h⟩ | ⟨-, -, Γ, hready, h⟩
  · exact .inr h
  · exact .inl ⟨_, _, h⟩
  · left
    obtain ⟨_, s', hs'⟩ := hready.total.run hready.typed
    exact ⟨_, s', h.trans (bind_ok hs')⟩

/-- A promotion succeeds, or it ends with an error and no key has changed. -/
theorem promoteScheduled_atomic (jobs set queue : Key) (id : JobId) (payload : String)
    (score : Int) : Atomic (promoteScheduled jobs set queue id payload score) := by
  intro s
  rcases promoteScheduled_cases jobs set queue id payload score with
    h | h | ⟨-, -, -, -, -, ⟨-, h⟩ | ⟨-, -, -, h⟩⟩
  · exact .inr h
  · exact .inl ⟨_, _, h⟩
  · exact .inl ⟨_, _, h⟩
  · exact .inl ⟨_, _, h⟩

/-- The release of a claim succeeds, or it ends with an error and no key has changed. -/
theorem resurrectClaim_atomic {jobs processing : Key} (hjp : jobs ≠ processing) (queue : Key)
    (id : JobId) (payload : String) (resurrect : Bool) :
    Atomic (resurrectClaim jobs processing queue id payload resurrect) := by
  intro s
  rcases resurrectClaim_cases queue hjp id payload resurrect with
    h | ⟨h, -⟩ | ⟨-, -, -, -, -, ⟨-, h⟩ | ⟨-, -, -, h⟩ | ⟨-, -, h⟩⟩
  · exact .inr h
  · exact .inl ⟨_, _, h⟩
  · exact .inl ⟨_, _, h⟩
  · exact .inl ⟨_, _, h⟩
  · exact .inl ⟨_, _, h⟩

/-- **Atomicity.** Whatever is stored under whatever key: a script call of the
storage succeeds, or it returns an error reply of its own and no key has
changed. In particular no command of its writes fails on a type. -/
theorem invocation_atomic (K : StorageKeys) (i : Invocation) (s : Store) :
    (∃ s', i.script K s = (.ok (), s')) ∨ ∃ m, i.script K s = (.error (.reply m), s) := by
  have hproc := StorageKeys.processing_ne_fixed (K := K)
  have hatomic : Atomic (i.script K) := by
    cases i with
    | enqueue destination envelopes written existing stored =>
      refine Atomic.quiet (enqueueCall_atomic destination ?_ ?_)
      · simpa [Function.comp_def] using (nodup_replacementIds (pendingOf written envelopes []) []).1
      · exact (covered_replacementIds existing (pendingOf written envelopes []) []).mono
          fun id h => by simpa [Function.comp_def] using h
    | promote set queue id payload score => 
      exact Atomic.quiet (promoteScheduled_atomic _ _ _ _ _ _)
    | resurrect processId queue id payload again =>
      exact Atomic.quiet (resurrectClaim_atomic (hproc processId).1.symm _ _ _ _)
    | retry processId id payload score =>
      intro s
      rcases retryFailed_cases (s := s) (K.jobs_ne_retry) (hproc processId).1.symm
        (hproc processId).2.2.2.symm id payload score with h | ⟨-, -, -, h⟩
      · exact .inr h
      · exact .inl ⟨_, _, h⟩
    | success processId ids =>
      intro s
      rcases finishSuccess_cases (s := s) (hproc processId).1.symm ids with h | ⟨-, -, h⟩
      · exact .inr h
      · exact .inl ⟨_, _, h⟩
    | dead processId id payload limit =>
      intro s
      rcases finishDead_cases (s := s) (K.jobs_ne_dead) (hproc processId).1.symm (hproc processId).2.1.symm
        id payload limit with h | ⟨-, -, -, h⟩
      · exact .inr h
      · exact .inl ⟨_, _, h⟩
  rcases hatomic s with ⟨⟨⟩, s', h⟩ | h
  · exact .inl ⟨s', h⟩
  · exact .inr h

end Oxana
