import Oxana.EnqueueAlone

/-!
# Reviving dead jobs

`revive_all_dead` takes the whole dead list, enqueues its entries one after the other, and puts back
what is left when one of them is refused. Entries that cannot be read are passed over, and a job
that is stored already is not enqueued again; both count for nothing afterwards, because the list
they were in is dropped. `revives_conserved_iff` says when no entry is lost.
-/

namespace Oxana

open Redis Interleave Call

variable {γ : Type}

/-! ## The operation -/

/-- The script that takes the dead list, if there is one. -/
def claimDead (dead claimKey : Key) : Script Bool := fun s =>
  match s.get dead with
  | none => (.ok false, s)
  | some v => (.ok true, (s.drop dead).put claimKey v)

/-- `RPUSH` of several items, which are appended in their order. -/
def rpush (k : Key) (items : List String) : Script Unit :=
  onKind .list k fun s => ((), s.put k (.list (s.list k ++ items)))

section Operation

variable (K : StorageKeys) (claimKey : Key)

/-- `restore_claimed_dead_entries`: what is left is put back, and the claim is over. -/
def restoreClaimedDeadEntries (entries : List String) : Call γ Unit := do
  connection
  if entries = [] then send .del (del claimKey)
  else do
    let _ ← pipelined [(.rpush, rpush K.dead entries), (.del, del claimKey)]
    pure ()

/-- The loop over the entries: each is decoded and enqueued, up to the first error. -/
def reviveEntries : List String → Nat → Call γ Nat
  | [], revivedCount => pure revivedCount
  | entry :: entries, revivedCount =>
    match JobEnvelope.decode entry with
    | none => reviveEntries entries revivedCount
    | some job => catching (enqueue K job) fun
      | .ok _ => reviveEntries entries (revivedCount + 1)
      | .error error =>
        catching (restoreClaimedDeadEntries K claimKey (entry :: entries)) fun _ => fail error

/-- `revive_all_dead`, with a fresh key for its claim. -/
def reviveAllDead : Call γ Nat := do
  connection
  let claimed ← send .eval (claimDead K.dead claimKey)
  if claimed then do
    let entries ← send .lrange (lrange claimKey)
    let revivedCount ← reviveEntries K claimKey entries 0
    connection
    send .del (del claimKey)
    pure revivedCount
  else pure 0

end Operation

/-- The key under which a claim keeps the list. -/
def claimKeyOf (K : StorageKeys) (uuid : String) : Key := K.dead ++ ":reviving:" ++ uuid

/-! ## Runs in which an enqueue may be refused -/

variable {K : StorageKeys} {claimKey : Key} {w w' : World γ} {entries done back : List String}
  {refusal : Option OxanaError}

/-- `Replays K entries w done back refusal w'`: the loop has come through the entries `done`; the
next one was refused without an effect, and `back` is it and the rest. -/
inductive Replays (K : StorageKeys) :
    List String → World γ → List String → List String → Option OxanaError → World γ → Prop
  | finishes (w : World γ) : Replays K [] w [] [] none w
  | passes {w w' : World γ} {x : String} {entries done back : List String}
      {refusal : Option OxanaError} : JobEnvelope.decode x = none →
      Replays K entries w done back refusal w' →
      Replays K (x :: entries) w (x :: done) back refusal w'
  | revives {w w₁ w' : World γ} {x : String} {entries done back : List String}
      {refusal : Option OxanaError} {e : JobEnvelope} {id : JobId} :
      JobEnvelope.decode x = some e →
      Call.Solo (fun _ => True) (enqueue K e) w (.ok id) w₁ →
      Replays K entries w₁ done back refusal w' →
      Replays K (x :: entries) w (x :: done) back refusal w'
  | refuses {w : World γ} {x : String} {entries : List String} {e : JobEnvelope}
      {error : OxanaError} : JobEnvelope.decode x = some e →
      Call.Solo (fun _ => True) (enqueue K e) w (.error error) w →
      Replays K (x :: entries) w [] (x :: entries) (some error) w

/-- How many of the entries can be read. -/
def readable (entries : List String) : Nat :=
  entries.countP fun x => (JobEnvelope.decode x).isSome

/-- A call of `revive_all_dead` with which nobody interferes; its requests succeed, except for those
that enqueue, one of which may be refused. -/
inductive Revives (K : StorageKeys) (claimKey : Key) :
    World γ → List String → List String → Except OxanaError Nat → World γ → Prop
  /-- there is no dead list -/
  | nothing {w : World γ} : w.store.get K.dead = none → Revives K claimKey w [] [] (.ok 0) w
  /-- all entries are enqueued or passed over -/
  | all {w w₁ : World γ} {entries : List String} : w.store.get K.dead = some (.list entries) →
      Replays K entries (w.after (claimDead K.dead claimKey)) entries [] none w₁ →
      Revives K claimKey w entries [] (.ok (readable entries)) (w₁.after (del claimKey))
  /-- one is refused, and what is left is put back -/
  | stops {w w₁ : World γ} {entries done back : List String} {error : OxanaError} :
      w.store.get K.dead = some (.list entries) →
      Replays K entries (w.after (claimDead K.dead claimKey)) done back (some error) w₁ →
      (rpush K.dead back w₁.store).1 = .ok () →
      Revives K claimKey w done back (.error error)
        ((w₁.after (rpush K.dead back)).after (del claimKey))

/-! ## They are runs of the call -/

/-- What happens with some answers allowed happens with all answers allowed. -/
theorem solo_any {α : Type} {x : Call γ α} {r : Except OxanaError α} {allowed : Choice → Prop}
    (h : Call.Solo allowed x w r w') : Call.Solo (fun _ => True) x w r w' :=
  Prog.Solo.mono (fun _ _ => trivial) h

variable (claimKey) in
/-- The loop comes to its end when no entry is refused. -/
theorem Replays.solo_ok (h : Replays K entries w done back refusal w') (hr : refusal = none)
    (n : Nat) : Call.Solo (fun _ => True) (reviveEntries K claimKey entries n) w
      (.ok (n + readable entries)) w' := by
  induction h generalizing n with
  | finishes w => exact ⟨rfl, rfl⟩
  | @passes w w' x entries done back refusal hdec _ ih =>
    have hcount : readable (x :: entries) = readable entries := by simp [readable, hdec]
    rw [reviveEntries, hcount]
    simp only [hdec]
    exact ih hr n
  | @revives w w₁ w' x entries done back refusal e id hdec henq _ ih =>
    have hcount : n + readable (x :: entries) = n + 1 + readable entries := by
      simp [readable, hdec]
      omega
    rw [reviveEntries, hcount]
    simp only [hdec]
    exact solo_catching.mpr ⟨.ok id, w₁, henq, ih hr (n + 1)⟩
  | refuses => cases hr

/-- The loop stops at the entry that is refused, and puts back this entry and those after it. -/
theorem Replays.solo_error {error : OxanaError} {w₂ : World γ}
    (h : Replays K entries w done back refusal w') (hr : refusal = some error)
    (hrestore : Call.Solo (fun _ => True) (restoreClaimedDeadEntries K claimKey back) w' (.ok ())
      w₂) (n : Nat) :
    Call.Solo (fun _ => True) (reviveEntries K claimKey entries n) w (.error error) w₂ := by
  induction h generalizing n with
  | finishes w => cases hr
  | @passes w w' x entries done back refusal hdec _ ih =>
    rw [reviveEntries]
    simp only [hdec]
    exact ih hr hrestore n
  | @revives w w₁ w' x entries done back refusal e id hdec henq _ ih =>
    rw [reviveEntries]
    simp only [hdec]
    exact solo_catching.mpr ⟨.ok id, w₁, henq, ih hr hrestore (n + 1)⟩
  | @refuses w x entries e error' hdec henq =>
    obtain rfl := Option.some.inj hr
    rw [reviveEntries]
    simp only [hdec]
    exact solo_catching.mpr ⟨.error error', w, henq,
      solo_catching.mpr ⟨.ok (), w₂, hrestore, rfl, rfl⟩⟩

/-- When an entry is refused there is something to put back. -/
theorem Replays.back_ne_nil (h : Replays K entries w done back refusal w')
    (hr : refusal ≠ none) : back ≠ [] := by
  induction h with
  | finishes w => exact absurd rfl hr
  | passes _ _ ih => exact ih hr
  | revives _ _ _ ih => exact ih hr
  | refuses => exact List.cons_ne_nil _ _

/-- What the loop has come through and what it puts back are the entries. -/
theorem Replays.split (h : Replays K entries w done back refusal w') : entries = done ++ back := by
  induction h with
  | finishes => rfl
  | refuses => rfl
  | passes _ _ ih => exact congrArg (List.cons _) ih
  | revives _ _ _ ih => exact congrArg (List.cons _) ih

/-- A pipeline of two commands that are executed, one after the other. -/
theorem solo_pipelined_two {α : Type} {x y : Request × Script α} {a b : α}
    (hx : (x.2 w.store).1 = .ok a) (hy : (y.2 (w.after x.2).store).1 = .ok b) :
    Call.Solo Reliable (pipelined [x, y]) w (.ok [a, b]) ((w.after x.2).after y.2) := by
  refine ⟨{}, rfl, solo_catching.mpr ⟨.ok [b], (w.after x.2).after y.2, ?_, ?_, rfl⟩⟩
  · refine ⟨{}, rfl, solo_catching.mpr ⟨.ok [], (w.after x.2).after y.2, ⟨{}, rfl, rfl, rfl⟩, ?_,
      rfl⟩⟩
    rw [hy]
    rfl
  · rw [hx]
    rfl

/-- Entries that are put back are appended to the dead list, and the claim is deleted. -/
theorem solo_restore (hback : back ≠ []) (hpush : (rpush K.dead back w.store).1 = .ok ()) :
    Call.Solo (fun _ => True) (restoreClaimedDeadEntries K claimKey back) w (.ok ())
      ((w.after (rpush K.dead back)).after (del claimKey)) := by
  refine solo_any (solo_connection_bind.mpr ?_)
  rw [if_neg hback]
  exact solo_bind.mpr (.inl ⟨_, _, solo_pipelined_two (x := (.rpush, rpush K.dead back))
    (y := (.del, del claimKey)) hpush rfl, solo_pure.mpr ⟨rfl, rfl⟩⟩)

/-- The call takes the list under a key of its own and reads it there. -/
theorem solo_claimed {r : Except OxanaError Nat} (h : w.store.get K.dead = some (.list entries))
    (hloop : Call.Solo (fun _ => True) (do
      let revivedCount ← reviveEntries K claimKey entries 0
      connection
      send .del (del claimKey)
      pure revivedCount) (w.after (claimDead K.dead claimKey)) r w') :
    Call.Solo (fun _ => True) (reviveAllDead K claimKey) w r w' := by
  have hclaim : claimDead K.dead claimKey w.store =
      (.ok true, (w.store.drop K.dead).put claimKey (.list entries)) := by
    rw [claimDead, h]
  have hstore : (w.after (claimDead K.dead claimKey)).store =
      (w.store.drop K.dead).put claimKey (.list entries) := by rw [World.after, hclaim]
  have hfits : ((w.store.drop K.dead).put claimKey (.list entries)).Fits claimKey .list :=
    Store.fits_put_self (.list entries)
  have hread : lrange claimKey ((w.store.drop K.dead).put claimKey (.list entries)) =
      (.ok entries, _) := (onKind_ok hfits).trans (by rw [Store.list_put_self])
  have hsame : (w.after (claimDead K.dead claimKey)).after (lrange claimKey) =
      w.after (claimDead K.dead claimKey) := World.after_read (lrange_snd ..)
  refine solo_bind.mpr (.inl ⟨(), w, ⟨{}, trivial, rfl, rfl⟩, solo_bind.mpr (.inl
    ⟨true, _, ⟨{}, trivial, ?_, rfl⟩, ?_⟩)⟩)
  · rw [hclaim]
    rfl
  · rw [if_pos rfl]
    refine solo_bind.mpr (.inl ⟨entries, _, ⟨{}, trivial, ?_, hsame.symm⟩, hloop⟩)
    rw [hstore, hread]
    rfl

/-- What `Revives` describes is a run of the call. -/
theorem Revives.solo {r : Except OxanaError Nat} (h : Revives K claimKey w done back r w') :
    Call.Solo (fun _ => True) (reviveAllDead K claimKey) w r w' := by
  cases h with
  | nothing hnone =>
    have hclaim : claimDead K.dead claimKey w.store = (.ok false, w.store) := by
      rw [claimDead, hnone]
    refine solo_bind.mpr (.inl ⟨(), w, ⟨{}, trivial, rfl, rfl⟩, solo_bind.mpr (.inl
      ⟨false, w, ⟨{}, trivial, ?_, (World.after_read (by rw [hclaim])).symm⟩, rfl, rfl⟩)⟩)
    rw [hclaim]
    rfl
  | all hlist hreplays =>
    have hloop := hreplays.solo_ok claimKey rfl 0
    rw [Nat.zero_add] at hloop
    exact solo_claimed hlist (solo_bind.mpr (.inl ⟨_, _, hloop, solo_any (solo_connection_bind.mpr
      (solo_bind.mpr (.inl ⟨(), _, solo_send_reliable.mpr ⟨rfl, rfl⟩, rfl, rfl⟩)))⟩))
  | stops hlist hreplays hpush =>
    exact solo_claimed hlist (solo_bind.mpr (.inr ⟨_, hreplays.solo_error rfl
      (solo_restore (hreplays.back_ne_nil (by simp)) hpush) 0, rfl⟩))

/-- A loop that succeeds has come to its end, and none of its entries was refused. -/
theorem replays_of_ok {allowed : Choice → Prop} {n m : Nat}
    (h : Call.Solo allowed (reviveEntries K claimKey entries n) w (.ok m) w') :
    Replays K entries w entries [] none w' ∧ m = n + readable entries := by
  induction entries generalizing w n with
  | nil =>
    obtain ⟨hm, rfl⟩ := solo_pure.mp h
    cases hm
    exact ⟨.finishes w', rfl⟩
  | cons x entries ih =>
    rw [reviveEntries] at h
    cases hdec : JobEnvelope.decode x with
    | none =>
      simp only [hdec] at h
      have hcount : readable (x :: entries) = readable entries := by simp [readable, hdec]
      rw [hcount]
      exact ⟨.passes hdec (ih h).1, (ih h).2⟩
    | some e =>
      simp only [hdec] at h
      have hcount : readable (x :: entries) = readable entries + 1 := by simp [readable, hdec]
      obtain ⟨r, w₁, henq, hrest⟩ := solo_catching.mp h
      cases r with
      | ok id =>
        obtain ⟨hreplays, hm⟩ := ih hrest
        exact ⟨.revives hdec (solo_any henq) hreplays, by omega⟩
      | error error =>
        obtain ⟨r', w₂, -, hfail⟩ := solo_catching.mp hrest
        cases (solo_fail.mp hfail).1

/-- These are all the runs of the call that succeed. -/
theorem revives_of_ok {allowed : Choice → Prop} {n : Nat}
    (h : Call.Solo allowed (reviveAllDead K claimKey) w (.ok n) w') :
    ∃ entries, Revives K claimKey w entries [] (.ok n) w' := by
  obtain ⟨claimed, w₁, hclaim, h₁⟩ := solo_bind_ok (solo_connection_ok h)
  obtain ⟨hclaimed, rfl⟩ := solo_send_ok hclaim
  cases hget : w.store.get K.dead with
  | none =>
    have hrun : claimDead K.dead claimKey w.store = (.ok false, w.store) := by
      rw [claimDead, hget]
    rw [hrun] at hclaimed
    cases hclaimed
    obtain ⟨hn, rfl⟩ := solo_pure.mp h₁
    cases hn
    rw [World.after_read (by rw [hrun])]
    exact ⟨[], .nothing hget⟩
  | some v =>
    have hrun : claimDead K.dead claimKey w.store =
        (.ok true, (w.store.drop K.dead).put claimKey v) := by rw [claimDead, hget]
    rw [hrun] at hclaimed
    cases hclaimed
    rw [if_pos rfl] at h₁
    obtain ⟨entries, w₂, hrange, h₂⟩ := solo_bind_ok h₁
    obtain ⟨hentries, rfl⟩ := solo_send_ok hrange
    rw [World.after_read (lrange_snd ..)] at h₂
    obtain ⟨m, w₃, hloop, h₃⟩ := solo_bind_ok h₂
    obtain ⟨hreplays, rfl⟩ := replays_of_ok hloop
    obtain ⟨_, w₄, hdel, h₄⟩ := solo_bind_ok (solo_connection_ok h₃)
    obtain ⟨-, rfl⟩ := solo_send_ok hdel
    obtain ⟨hn, rfl⟩ := solo_pure.mp h₄
    cases hn
    refine ⟨entries, ?_⟩
    rw [Nat.zero_add]
    refine .all ?_ hreplays
    -- the range could be read, so it was a list
    obtain ⟨hfits, hlist⟩ := onKind_inv hentries
    rw [World.after, hrun] at hfits hlist
    rcases hfits with hkind | hkind
    · rw [Store.kind_put_self (w.store.live hget)] at hkind
      cases hkind
    · rw [Store.kind_put_self (w.store.live hget)] at hkind
      cases v with
      | list l =>
        rw [Store.list_put_self] at hlist
        rw [hget, show l = entries from hlist]
      | string text => cases hkind
      | hash fields => cases hkind
      | zset members => cases hkind

/-! ## What the loop does to a job -/

/-- A job and where it is, as far as the entries of a dead list go. -/
structure SameJob (K : StorageKeys) (id : JobId) (s s' : Store) : Prop where
  /-- its payload -/
  payload : payloadOf K.jobs s' id = payloadOf K.jobs s id
  /-- the lists it is in -/
  lists : ∀ k, id ∈ s'.list k ↔ id ∈ s.list k

/-- The job waits as it should: what is stored for it is this envelope, and its id is on the ready
list of its queue. -/
structure Waits (K : StorageKeys) (e : JobEnvelope) (s : Store) : Prop where
  /-- its payload -/
  payload : payloadOf K.jobs s e.id = some e.encode
  /-- its list -/
  ready : e.id ∈ s.list (K.namespaceQueue e.queue)

/-- Enqueueing a job leaves the other jobs as they are. -/
theorem Enqueued.sameJob {e : JobEnvelope} {s s' : Store} (h : Enqueued K e s s') {id : JobId}
    (hid : id ≠ e.id) : SameJob K id s s' := by
  refine ⟨(h.payload id).trans (if_neg hid), fun k => ?_⟩
  have hmem (l : List JobId) : id ∈ l ↔ id ∈ l.filter (· ≠ e.id) := by simp [hid]
  rw [hmem (s'.list k), h.others k, ← hmem]

/-- A job that has been enqueued waits. -/
theorem Enqueued.waits {e : JobEnvelope} {s s' : Store} (h : Enqueued K e s s') :
    Waits K e s' := by
  obtain ⟨l, hl⟩ := h.ready
  exact ⟨(h.payload e.id).trans (if_pos rfl), hl ▸ List.mem_cons_self ..⟩

theorem SameJob.trans {id : JobId} {s s' s'' : Store} (h : SameJob K id s s')
    (h' : SameJob K id s' s'') : SameJob K id s s'' :=
  ⟨h'.payload.trans h.payload, fun k => (h'.lists k).trans (h.lists k)⟩

/-- A job that waits goes on waiting while nothing is done to it. -/
theorem Waits.sameJob {e : JobEnvelope} {s s' : Store} (h : Waits K e s)
    (hsame : SameJob K e.id s s') : Waits K e s' :=
  ⟨hsame.payload.trans h.payload, (hsame.lists _).mpr h.ready⟩

/-- The job would not be enqueued, since it is skipped. -/
def Stays (K : StorageKeys) (e : JobEnvelope) (s : Store) : Prop :=
  e.skips = true ∧ (payloadOf K.jobs s e.id).isSome = true

/-- **A job of which the loop meets one envelope only**, if any: it is written once it is met,
unless it is one that stays as it is. -/
theorem Replays.job (h : Replays K entries w done back refusal w') {e : JobEnvelope}
    (hone : ∀ x ∈ done, ∀ e', JobEnvelope.decode x = some e' → e'.id = e.id → e' = e) :
    (Waits K e w'.store ∧ (∃ x ∈ done, JobEnvelope.decode x = some e) ∧ ¬Stays K e w.store) ∨
      (SameJob K e.id w.store w'.store ∧
        ((∃ x ∈ done, JobEnvelope.decode x = some e) → Stays K e w.store)) := by
  induction h with
  | finishes w => exact .inr ⟨⟨rfl, fun _ => Iff.rfl⟩, fun ⟨_, hx, _⟩ => absurd hx List.not_mem_nil⟩
  | refuses => exact .inr ⟨⟨rfl, fun _ => Iff.rfl⟩, fun ⟨_, hx, _⟩ => absurd hx List.not_mem_nil⟩
  | @passes w w' x entries done back refusal hdec _ ih =>
    have hmet : (∃ y ∈ x :: done, JobEnvelope.decode y = some e) ↔
        ∃ y ∈ done, JobEnvelope.decode y = some e := by
      simp [hdec]
    rw [hmet]
    exact ih fun y hy => hone y (List.mem_cons_of_mem _ hy)
  | @revives w w₁ w' x entries done back refusal e₁ id hdec henq _ ih =>
    have ih := ih fun y hy => hone y (List.mem_cons_of_mem _ hy)
    have hmet : (∃ y ∈ x :: done, JobEnvelope.decode y = some e) ↔
        e₁ = e ∨ ∃ y ∈ done, JobEnvelope.decode y = some e := by
      simp [hdec]
    rw [hmet]
    cases solo_enqueue henq with
    | skips hskips hstored hsame =>
      -- nothing is written, so only a job that stays can be the one that is met
      rw [hsame] at ih
      rcases ih with ⟨hwaits, hx, hstays⟩ | ⟨hjob, hstays⟩
      · exact .inl ⟨hwaits, .inr hx, hstays⟩
      · refine .inr ⟨hjob, ?_⟩
        rintro (rfl | hx)
        · exact ⟨hskips, hstored⟩
        · exact hstays hx
    | writes hnew hwritten =>
      by_cases hid : e.id = e₁.id
      · -- it is this job, and it waits from here on
        obtain rfl := hone x (List.mem_cons_self ..) e₁ hdec hid.symm
        refine .inl ⟨?_, .inl rfl, hnew⟩
        rcases ih with ⟨hwaits, -, -⟩ | ⟨hjob, -⟩
        · exact hwaits
        · exact hwritten.waits.sameJob hjob
      · have hframe : SameJob K e.id w.store w₁.store := hwritten.sameJob hid
        have hstays : Stays K e w₁.store ↔ Stays K e w.store := by
          rw [Stays, Stays, hframe.payload]
        rw [hstays] at ih
        have hother : e₁ ≠ e := fun h => hid (h ▸ rfl)
        rcases ih with ⟨hwaits, hx, hnot⟩ | ⟨hjob, hx⟩
        · exact .inl ⟨hwaits, .inr hx, hnot⟩
        · exact .inr ⟨hframe.trans hjob, fun h => hx (h.resolve_left hother)⟩

/-- A job is on a list after the loop only if it was before, or if the loop has put it there. -/
theorem Replays.only (h : Replays K entries w done back refusal w') {k : Key} {id : JobId}
    (hid : id ∈ w'.store.list k) : id ∈ w.store.list k ∨
      ∃ x ∈ done, ∃ e, JobEnvelope.decode x = some e ∧ e.id = id ∧ K.namespaceQueue e.queue = k := by
  induction h with
  | finishes => exact .inl hid
  | refuses => exact .inl hid
  | passes _ _ ih =>
    rcases ih hid with hin | ⟨y, hy, hplaced⟩
    · exact .inl hin
    · exact .inr ⟨y, List.mem_cons_of_mem _ hy, hplaced⟩
  | @revives w w₁ w' x entries done back refusal e id' hdec henq _ ih =>
    rcases ih hid with hin | ⟨y, hy, hplaced⟩
    · cases solo_enqueue henq with
      | skips _ _ hsame => exact .inl (hsame ▸ hin)
      | writes _ hwritten =>
        by_cases hsame : id = e.id
        · subst hsame
          rcases hwritten.only k hin with hin' | hk
          · exact .inl hin'
          · exact .inr ⟨x, List.mem_cons_self .., e, hdec, rfl, hk.symm⟩
        · exact .inl (((hwritten.sameJob hsame).lists k).mp hin)
    · exact .inr ⟨y, List.mem_cons_of_mem _ hy, hplaced⟩

/-! ## Conservation -/

/-- The entry is stored with its own text, and its job is on its queue. -/
def placed (K : StorageKeys) (s : Store) (x : String) : Bool :=
  match JobEnvelope.decode x with
  | none => false
  | some e => payloadOf K.jobs s e.id == some x && (s.list (K.namespaceQueue e.queue)).contains e.id

/-- Nothing of the dead list is lost or doubled: every entry is placed or still dead, never both,
and those placed are counted. -/
structure Conserved (K : StorageKeys) (entries : List String) (r : Except OxanaError Nat)
    (s' : Store) : Prop where
  /-- an entry that is not placed is in the dead list, as often as it was -/
  kept : ∀ x ∈ entries, placed K s' x = true ∨ entries.count x ≤ (s'.list K.dead).count x
  /-- an entry that is placed is not in the dead list -/
  apart : ∀ x ∈ entries, placed K s' x = true → x ∉ s'.list K.dead
  /-- the entries that are placed are counted -/
  counts : ∀ n, r = .ok n → n = entries.countP (placed K s')

/-- What the entries have to be like for all of them to be conserved; each condition excludes one
way of losing or doubling an entry. -/
structure Harmless (K : StorageKeys) (s : Store) (done back : List String) : Prop where
  /-- the ones that are replayed can be read -/
  decodes : ∀ x ∈ done, (JobEnvelope.decode x).isSome = true
  /-- no two of them are about the same job -/
  alike : ∀ x ∈ done, ∀ y ∈ done, ∀ e e' : JobEnvelope, JobEnvelope.decode x = some e →
    JobEnvelope.decode y = some e' → e.id = e'.id → x = y
  /-- one that is not enqueued, as its job is stored already, is what is stored, and waits -/
  stays : ∀ x ∈ done, ∀ e, JobEnvelope.decode x = some e → Stays K e s → placed K s x = true
  /-- the others are spelt as they will be stored -/
  spelt : ∀ x ∈ done, ∀ e, JobEnvelope.decode x = some e → ¬Stays K e s → e.encode = x
  /-- an entry that is put back is not one of those before it -/
  fresh : ∀ y ∈ back, y ∉ done
  /-- it is not stored as it is already, unless its job is replaced -/
  waiting : ∀ y ∈ back, ∀ e, JobEnvelope.decode y = some e → placed K s y = true →
    ∃ x ∈ done, ∃ e', JobEnvelope.decode x = some e' ∧ e'.id = e.id

/-- The key of the claim is not the ready list of a queue, and where a ready list is the dead list
itself, no id that is enqueued there is spelt like an entry. -/
structure Separate (K : StorageKeys) (claimKey : Key) (entries : List String) : Prop where
  /-- the key is fresh -/
  claim : ∀ x ∈ entries, ∀ e, JobEnvelope.decode x = some e → K.namespaceQueue e.queue ≠ claimKey
  /-- entries and ids of jobs are different things -/
  dead : ∀ x ∈ entries, ∀ e, JobEnvelope.decode x = some e → K.namespaceQueue e.queue = K.dead →
    e.id ∉ entries

theorem placed_iff {s : Store} {x : String} : placed K s x = true ↔
    ∃ e, JobEnvelope.decode x = some e ∧ payloadOf K.jobs s e.id = some x ∧
      e.id ∈ s.list (K.namespaceQueue e.queue) := by
  rw [placed]
  cases JobEnvelope.decode x with
  | none => simp
  | some e => simp

/-- Two stores that agree about the job of an entry agree whether the entry is placed. -/
theorem placed_congr {s s' : Store} {x : String}
    (h : ∀ e, JobEnvelope.decode x = some e → payloadOf K.jobs s' e.id = payloadOf K.jobs s e.id ∧
      (e.id ∈ s'.list (K.namespaceQueue e.queue) ↔ e.id ∈ s.list (K.namespaceQueue e.queue))) :
    placed K s' x = true ↔ placed K s x = true := by
  rw [placed_iff, placed_iff]
  constructor
  · rintro ⟨e, hdec, hpayload, hin⟩
    exact ⟨e, hdec, (h e hdec).1 ▸ hpayload, (h e hdec).2.mp hin⟩
  · rintro ⟨e, hdec, hpayload, hin⟩
    exact ⟨e, hdec, (h e hdec).1.symm ▸ hpayload, (h e hdec).2.mpr hin⟩

theorem SameJob.placed {s s' : Store} {x : String} {e : JobEnvelope}
    (h : SameJob K e.id s s') (hdec : JobEnvelope.decode x = some e) :
    placed K s' x = true ↔ placed K s x = true :=
  placed_congr fun e' hdec' => by
    obtain rfl := Option.some.inj (hdec.symm.trans hdec')
    exact ⟨h.payload, h.lists _⟩

/-- The loop places all the entries that it comes through, and none that it puts back, exactly if
the entries are harmless. -/
theorem Replays.all_placed_iff (h : Replays K entries w done back refusal w') :
    ((∀ x ∈ done, placed K w'.store x = true) ∧ ∀ y ∈ back, placed K w'.store y ≠ true) ↔
      Harmless K w.store done back := by
  -- what the loop does to a job that is met in one envelope only
  have hone : (∀ x ∈ done, ∀ y ∈ done, ∀ e e' : JobEnvelope, JobEnvelope.decode x = some e →
      JobEnvelope.decode y = some e' → e.id = e'.id → x = y) → ∀ x ∈ done, ∀ e,
      JobEnvelope.decode x = some e →
        (Waits K e w'.store ∧ ¬Stays K e w.store) ∨
          (SameJob K e.id w.store w'.store ∧ Stays K e w.store) := by
    intro halike x hx e hdec
    have hmet : ∃ x ∈ done, JobEnvelope.decode x = some e := ⟨x, hx, hdec⟩
    have hsame : ∀ x' ∈ done, ∀ e', JobEnvelope.decode x' = some e' → e'.id = e.id → e' = e := by
      intro x' hx' e' hdec' hid
      rw [halike x' hx' x hx e' e hdec' hdec hid, hdec] at hdec'
      exact (Option.some.inj hdec').symm
    rcases h.job hsame with ⟨hwaits, -, hnot⟩ | ⟨hjob, hstays⟩
    · exact .inl ⟨hwaits, hnot⟩
    · exact .inr ⟨hjob, hstays hmet⟩
  -- and to a job that is not met
  have hnone : ∀ e : JobEnvelope, (¬∃ x ∈ done, ∃ e', JobEnvelope.decode x = some e' ∧ e'.id = e.id) →
      SameJob K e.id w.store w'.store := by
    intro e hunmet
    have hsame : ∀ x ∈ done, ∀ e', JobEnvelope.decode x = some e' → e'.id = e.id → e' = e :=
      fun x hx e' hdec hid => absurd ⟨x, hx, e', hdec, hid⟩ hunmet
    rcases h.job hsame with ⟨-, ⟨x, hx, hdec⟩, -⟩ | ⟨hjob, -⟩
    · exact absurd ⟨x, hx, e, hdec, rfl⟩ hunmet
    · exact hjob
  constructor
  · rintro ⟨hdone, hback⟩
    have halike : ∀ x ∈ done, ∀ y ∈ done, ∀ e e' : JobEnvelope, JobEnvelope.decode x = some e →
        JobEnvelope.decode y = some e' → e.id = e'.id → x = y := by
      intro x hx y hy e e' hdec hdec' hid
      obtain ⟨e₁, hdec₁, hpayload₁, -⟩ := placed_iff.mp (hdone x hx)
      obtain ⟨e₂, hdec₂, hpayload₂, -⟩ := placed_iff.mp (hdone y hy)
      obtain rfl := Option.some.inj (hdec.symm.trans hdec₁)
      obtain rfl := Option.some.inj (hdec'.symm.trans hdec₂)
      rw [hid, hpayload₂] at hpayload₁
      exact (Option.some.inj hpayload₁).symm
    refine ⟨?_, halike, ?_, ?_, ?_, ?_⟩
    · intro x hx
      obtain ⟨e, hdec, -⟩ := placed_iff.mp (hdone x hx)
      rw [hdec]
      rfl
    · intro x hx e hdec hstays
      rcases hone halike x hx e hdec with ⟨-, hnot⟩ | ⟨hjob, -⟩
      · exact absurd hstays hnot
      · exact (hjob.placed hdec).mp (hdone x hx)
    · intro x hx e hdec hnot
      rcases hone halike x hx e hdec with ⟨hwaits, -⟩ | ⟨-, hstays⟩
      · obtain ⟨e', hdec', hpayload, -⟩ := placed_iff.mp (hdone x hx)
        obtain rfl := Option.some.inj (hdec.symm.trans hdec')
        rw [hwaits.payload] at hpayload
        exact Option.some.inj hpayload
      · exact absurd hstays hnot
    · exact fun y hy hin => hback y hy (hdone y hin)
    · intro y hy e hdec hplaced
      by_contra hunmet
      exact hback y hy (((hnone e hunmet).placed hdec).mpr hplaced)
  · intro hh
    have hdone : ∀ x ∈ done, placed K w'.store x = true := by
      intro x hx
      obtain ⟨e, hdec⟩ := Option.isSome_iff_exists.mp (hh.decodes x hx)
      rcases hone hh.alike x hx e hdec with ⟨hwaits, hnot⟩ | ⟨hjob, hstays⟩
      · have hspelt := hh.spelt x hx e hdec hnot
        exact placed_iff.mpr ⟨e, hdec, hspelt ▸ hwaits.payload, hwaits.ready⟩
      · exact (hjob.placed hdec).mpr (hh.stays x hx e hdec hstays)
    refine ⟨hdone, fun y hy hplaced => ?_⟩
    obtain ⟨e, hdec, hpayload, -⟩ := placed_iff.mp hplaced
    by_cases hmet : ∃ x ∈ done, ∃ e', JobEnvelope.decode x = some e' ∧ e'.id = e.id
    · -- the job is stored as the entry that was replayed, so that is this one
      obtain ⟨x, hx, e', hdec', hid⟩ := hmet
      obtain ⟨e'', hdec'', hpayload', -⟩ := placed_iff.mp (hdone x hx)
      obtain rfl := Option.some.inj (hdec'.symm.trans hdec'')
      rw [hid, hpayload] at hpayload'
      obtain rfl := Option.some.inj hpayload'
      exact hh.fresh y hy hx
    · exact hmet (hh.waiting y hy e hdec (((hnone e hmet).placed hdec).mp hplaced))

/-! ## Taking the list and putting back the rest -/

theorem claimKeyOf_ne (K : StorageKeys) (uuid : String) :
    K.jobs ≠ claimKeyOf K uuid ∧ K.dead ≠ claimKeyOf K uuid := by
  have hne (t : String) (ht : t.toList ≠ ":dead".toList ++ (":reviving:".toList ++ uuid.toList)) :
      K.nspace ++ t ≠ claimKeyOf K uuid := by
    intro heq
    have hlist := congrArg String.toList heq
    rw [claimKeyOf, StorageKeys.dead] at hlist
    simp only [String.toList_append, List.append_assoc] at hlist
    exact ht (List.append_cancel_left hlist)
  refine ⟨hne _ fun h => ?_, hne _ fun h => ?_⟩
  · cases h
  · cases h

/-- A change of the dead list and of the list of the claim, and of nothing else. -/
structure Shelves (K : StorageKeys) (claimKey : Key) (s s' : Store) : Prop where
  /-- the payloads -/
  payload : ∀ id, payloadOf K.jobs s' id = payloadOf K.jobs s id
  /-- the other lists -/
  lists : ∀ k, k ≠ K.dead → k ≠ claimKey → s'.list k = s.list k

theorem shelves_put {s : Store} {k : Key} (v : Value) (hk : k = K.dead ∨ k = claimKey)
    (hne : K.jobs ≠ claimKey) : Shelves K claimKey s (s.put k v) := by
  have hjobs : K.jobs ≠ k := by
    rcases hk with rfl | rfl
    · exact StorageKeys.jobs_ne_dead
    · exact hne
  refine ⟨fun _ => payloadOf_put_ne hjobs, fun k' hdead hclaim => Store.list_put_ne _ ?_⟩
  rcases hk with rfl | rfl
  · exact hdead
  · exact hclaim

theorem Shelves.trans {s s' s'' : Store} (h : Shelves K claimKey s s')
    (h' : Shelves K claimKey s' s'') : Shelves K claimKey s s'' :=
  ⟨fun id => (h'.payload id).trans (h.payload id),
    fun k hd hc => (h'.lists k hd hc).trans (h.lists k hd hc)⟩

/-- The store after the claim: the dead list is under the key of the claim. -/
theorem claimed_store (h : w.store.get K.dead = some (.list entries)) :
    (w.after (claimDead K.dead claimKey)).store =
      (w.store.put K.dead (.list [])).put claimKey (.list entries) := by
  rw [World.after, claimDead, h, Store.drop_eq_put]

/-- An entry is placed if it was, whatever becomes of the dead list and of the claim. -/
theorem Shelves.placed_iff {s s' : Store} (h : Shelves K claimKey s s') {x : String}
    {entries : List String} (hx : x ∈ entries) (hsep : Separate K claimKey entries)
    (hdead : ∀ y, y ∉ entries → (y ∈ s'.list K.dead ↔ y ∈ s.list K.dead)) :
    placed K s' x = true ↔ placed K s x = true := by
  refine placed_congr fun e hdec => ⟨h.payload e.id, ?_⟩
  by_cases hq : K.namespaceQueue e.queue = K.dead
  · rw [hq]
    exact hdead e.id (hsep.dead x hx e hdec hq)
  · rw [h.lists _ hq (hsep.claim x hx e hdec)]

/-- When the dead list was empty before the loop, none of the entries is on it afterwards. -/
theorem Replays.not_dead (h : Replays K entries w done back refusal w') {x : String}
    (hx : x ∈ done ++ back) (hsep : Separate K claimKey (done ++ back))
    (hempty : w.store.list K.dead = []) : x ∉ w'.store.list K.dead := by
  intro hin
  rcases h.only hin with hold | ⟨y, hy, e, hdec, rfl, hq⟩
  · rw [hempty] at hold
    exact List.not_mem_nil hold
  · exact hsep.dead y (List.mem_append_left _ hy) e hdec hq hx

/-- Entries are conserved exactly if those that the loop has come through are placed and those that
are put back are not. -/
theorem conserved_congr {s s' : Store} {r : Except OxanaError Nat}
    (hplaced : ∀ x ∈ done ++ back, (placed K s' x = true ↔ placed K s x = true))
    (hdead : ∀ x ∈ done ++ back, (s'.list K.dead).count x = back.count x)
    (hr : ∀ n, r = .ok n → back = [] ∧ n = readable done) :
    Conserved K (done ++ back) r s' ↔
      (∀ x ∈ done, placed K s x = true) ∧ ∀ y ∈ back, placed K s y ≠ true := by
  have hin : ∀ x ∈ done ++ back, (x ∈ s'.list K.dead ↔ x ∈ back) := by
    intro x hx
    rw [← List.count_pos_iff, hdead x hx, List.count_pos_iff]
  constructor
  · intro h
    refine ⟨fun x hx => ?_, fun y hy hplaced' => ?_⟩
    · have hx' := List.mem_append_left back hx
      rcases h.kept x hx' with hplaced' | hcount
      · exact (hplaced x hx').mp hplaced'
      · rw [hdead x hx', List.count_append] at hcount
        have hpos := List.count_pos_iff.mpr hx
        omega
    · have hy' := List.mem_append_right done hy
      exact h.apart y hy' ((hplaced y hy').mpr hplaced') ((hin y hy').mpr hy)
  · rintro ⟨hdone, hback⟩
    refine ⟨fun x hx => ?_, fun x hx hplaced' hdead' => ?_, fun n hn => ?_⟩
    · by_cases hmem : x ∈ done
      · exact .inl ((hplaced x hx).mpr (hdone x hmem))
      · refine .inr ?_
        rw [hdead x hx, List.count_append, List.count_eq_zero_of_not_mem hmem, Nat.zero_add]
    · exact hback x ((hin x hx).mp hdead') ((hplaced x hx).mp hplaced')
    · obtain ⟨rfl, rfl⟩ := hr n hn
      rw [List.append_nil] at hplaced ⊢
      refine List.countP_congr fun x hx => ?_
      have hx' : placed K s' x = true := (hplaced x hx).mpr (hdone x hx)
      obtain ⟨e, hdec, -⟩ := Oxana.placed_iff.mp hx'
      rw [hx', hdec]
      exact Iff.rfl

/-- Whether entries are harmless depends on the jobs of these entries only. -/
theorem Harmless.congr {s s' : Store} (h : Harmless K s done back)
    (hplaced : ∀ x ∈ done ++ back, (placed K s' x = true ↔ placed K s x = true))
    (hpayload : ∀ id, payloadOf K.jobs s' id = payloadOf K.jobs s id) :
    Harmless K s' done back := by
  have hstays (e : JobEnvelope) : Stays K e s' ↔ Stays K e s := by
    rw [Stays, Stays, hpayload]
  exact {
    decodes := h.decodes
    alike := h.alike
    stays := fun x hx e hdec hs => (hplaced x (List.mem_append_left _ hx)).mpr
      (h.stays x hx e hdec ((hstays e).mp hs))
    spelt := fun x hx e hdec hs => h.spelt x hx e hdec fun h' => hs ((hstays e).mpr h')
    fresh := h.fresh
    waiting := fun y hy e hdec hy' => h.waiting y hy e hdec
      ((hplaced y (List.mem_append_right _ hy)).mp hy') }

/-- Claiming the list changes nothing but the dead list and the claim. -/
theorem claimed_shelves (h : w.store.get K.dead = some (.list entries))
    (hne : K.jobs ≠ claimKey ∧ K.dead ≠ claimKey) :
    Shelves K claimKey w.store (w.after (claimDead K.dead claimKey)).store ∧
      (w.after (claimDead K.dead claimKey)).store.list K.dead = [] := by
  rw [claimed_store h]
  refine ⟨(shelves_put _ (.inl rfl) hne.1).trans (shelves_put _ (.inr rfl) hne.1), ?_⟩
  rw [Store.list_put_ne _ hne.2, Store.list_put_self]

/-- Putting back what is left changes nothing but the dead list and the claim. -/
theorem restored_shelves {w₁ : World γ} (hpush : (rpush K.dead back w₁.store).1 = .ok ())
    (hne : K.jobs ≠ claimKey ∧ K.dead ≠ claimKey) :
    Shelves K claimKey w₁.store ((w₁.after (rpush K.dead back)).after (del claimKey)).store ∧
      ((w₁.after (rpush K.dead back)).after (del claimKey)).store.list K.dead =
        w₁.store.list K.dead ++ back := by
  have hfits : w₁.store.Fits K.dead .list := (onKind_inv hpush).1
  have hstore : ((w₁.after (rpush K.dead back)).after (del claimKey)).store =
      (w₁.store.put K.dead (.list (w₁.store.list K.dead ++ back))).put claimKey (.list []) := by
    rw [World.after, World.after, rpush, onKind_ok hfits]
    exact Store.drop_eq_put
  rw [hstore]
  refine ⟨(shelves_put _ (.inl rfl) hne.1).trans (shelves_put _ (.inr rfl) hne.1), ?_⟩
  rw [Store.list_put_ne _ hne.2, Store.list_put_self]

/-- **Reviving dead jobs conserves them exactly if the entries are harmless**: the ones that are
replayed can be read, are about different jobs, and are spelt the way a job is stored; a job that is
stored already, and not enqueued again for that, is what its entry says and waits on its queue. -/
theorem revives_conserved_iff {uuid : String} {r : Except OxanaError Nat}
    (h : Revives K (claimKeyOf K uuid) w done back r w')
    (hsep : Separate K (claimKeyOf K uuid) (done ++ back)) :
    Call.Solo (fun _ => True) (reviveAllDead K (claimKeyOf K uuid)) w r w' ∧
      (Conserved K (done ++ back) r w'.store ↔ Harmless K w.store done back) := by
  refine ⟨h.solo, ?_⟩
  have hne := claimKeyOf_ne K uuid
  -- between the claim and the end of it there is the loop
  have hloop {w₁ : World γ} {refusal : Option OxanaError}
      (hlist : w.store.get K.dead = some (.list (done ++ back)))
      (hreplays : Replays K (done ++ back) (w.after (claimDead K.dead (claimKeyOf K uuid))) done back
        refusal w₁)
      (hend : Shelves K (claimKeyOf K uuid) w₁.store w'.store)
      (hdead : w'.store.list K.dead = w₁.store.list K.dead ++ back)
      (hr : ∀ n, r = .ok n → back = [] ∧ n = readable done) :
      Conserved K (done ++ back) r w'.store ↔ Harmless K w.store done back := by
    obtain ⟨hstart, hempty⟩ := claimed_shelves hlist hne
    have hbefore : w.store.list K.dead = done ++ back := by rw [Store.list, hlist]
    have hnot : ∀ x ∈ done ++ back, x ∉ w₁.store.list K.dead :=
      fun x hx => hreplays.not_dead hx hsep hempty
    have hshelved : ∀ x ∈ done ++ back,
        (placed K (w.after (claimDead K.dead (claimKeyOf K uuid))).store x = true ↔
          placed K w.store x = true) := by
      refine fun x hx => hstart.placed_iff hx hsep fun y hy => ?_
      rw [hempty, hbefore]
      exact iff_of_false List.not_mem_nil hy
    rw [conserved_congr (s := w₁.store), hreplays.all_placed_iff]
    · exact ⟨fun h => h.congr (fun x hx => (hshelved x hx).symm) fun id => (hstart.payload id).symm,
        fun h => h.congr hshelved hstart.payload⟩
    · refine fun x hx => hend.placed_iff hx hsep fun y hy => ?_
      rw [hdead, List.mem_append]
      exact or_iff_left fun hin => hy (List.mem_append_right _ hin)
    · intro x hx
      rw [hdead, List.count_append, List.count_eq_zero_of_not_mem (hnot x hx), Nat.zero_add]
    · exact hr
  cases h with
  | nothing hnone =>
    refine iff_of_true ⟨?_, ?_, ?_⟩ ⟨?_, ?_, ?_, ?_, ?_, ?_⟩
    all_goals simp
  | @all w₁ _ hlist hreplays =>
    have hsame : done = done ++ [] := (List.append_nil _).symm
    have hdel : (w₁.after (del (claimKeyOf K uuid))).store =
        w₁.store.put (claimKeyOf K uuid) (.list []) := Store.drop_eq_put
    refine hloop (by rwa [← hsame]) (by rwa [← hsame]) ?_ ?_ ?_
    · rw [hdel]
      exact shelves_put _ (.inr rfl) hne.1
    · rw [hdel, Store.list_put_ne _ hne.2, List.append_nil]
    · intro n hn
      cases hn
      exact ⟨rfl, rfl⟩
  | stops hlist hreplays hpush =>
    obtain ⟨hshelves, hdead⟩ := restored_shelves hpush hne
    obtain rfl := hreplays.split
    refine hloop hlist hreplays hshelves hdead fun n hn => ?_
    cases hn

/-! ## Two dead lists -/

section Runs

/-- A dead job of the sample, ordinary or unique. -/
def deadLetter (unique : Bool) : JobEnvelope :=
  .new "a" 3 5 "mail" ⟨"Letter", .null, if unique then some "a" else none, .skip, true, none⟩

theorem deadLetter_decodes (unique : Bool) :
    JobEnvelope.decode (deadLetter unique).encode = some (deadLetter unique) := by
  rw [decode_encode]
  cases unique <;> rfl

/-- The claim of a list moves it to the key of the claim, whole. -/
theorem claimDead_put (K : StorageKeys) (claimKey : Key) (s : Store) (entries : List String)
    (hne : entries ≠ []) :
    (s.put K.dead (.list entries)).get K.dead = some (.list entries) ∧
      (⟨s.put K.dead (.list entries), 0, ()⟩ : World Unit).after (claimDead K.dead claimKey) =
        ⟨(s.put K.dead (.list [])).put claimKey (.list entries), 0, ()⟩ := by
  have hget : (s.put K.dead (.list entries)).get K.dead = some (.list entries) := by
    rw [Store.get_put_self]
    exact if_pos hne
  refine ⟨hget, ?_⟩
  rw [World.after, claimDead, hget, Store.drop_eq_put, Store.put_put_self]

/-- Ordinary jobs that are dead, with these ids. -/
def deadLetters (ids : List JobId) : List String :=
  ids.map fun id => JobEnvelope.encode { deadLetter false with id }

theorem deadLetters_decode (id : JobId) : JobEnvelope.decode
    (JobEnvelope.encode { deadLetter false with id }) = some { deadLetter false with id } := by
  rw [decode_encode]
  rfl

/-- Of three entries the first is enqueued, the second is refused, as no connection can be had, and is
put back with the third. -/
theorem deadLetter_revived : ∃ w' : World Unit,
    Call.Solo (fun _ => True) (reviveAllDead (.new "app") (claimKeyOf (.new "app") "u"))
      ⟨Store.empty.put (StorageKeys.new "app").dead (.list (deadLetters ["a", "b", "c"])), 0, ()⟩
      (.error (.redis true)) w' ∧
    (Conserved (.new "app") (deadLetters ["a"] ++ deadLetters ["b", "c"]) (.error (.redis true))
        w'.store ↔
      Harmless (.new "app")
        (Store.empty.put (StorageKeys.new "app").dead (.list (deadLetters ["a", "b", "c"])))
        (deadLetters ["a"]) (deadLetters ["b", "c"])) := by
  obtain ⟨hget, hclaimed⟩ := claimDead_put (.new "app") (claimKeyOf (.new "app") "u") Store.empty
    (deadLetters ["a", "b", "c"]) (List.cons_ne_nil _ _)
  have henqueue := solo_any (solo_enqueue_ordinary (K := .new "app")
    (e := { deadLetter false with id := "a" })
    (w := (⟨(Store.empty.put (StorageKeys.new "app").dead (.list [])).put
      (claimKeyOf (.new "app") "u") (.list (deadLetters ["a", "b", "c"])), 0, ()⟩ : World Unit))
    rfl (.inl (by decide +kernel)) (.inl (by decide +kernel)) (by decide))
  have hrefused (w : World Unit) : Call.Solo (fun _ => True)
      (enqueue (.new "app") { deadLetter false with id := "b" }) w (.error (.redis true)) w :=
    ⟨{ delivery := .lost, transient := true }, trivial, rfl, rfl⟩
  have hreplays := Replays.revives (deadLetters_decode "a") henqueue
    (@Replays.refuses _ _ _ _ (deadLetters ["c"]) _ _ (deadLetters_decode "b") (hrefused _))
  rw [← hclaimed] at hreplays
  have hrevives := Revives.stops hget hreplays (by decide +kernel)
  have hdecodes {x : String} {e : JobEnvelope} (hx : x ∈ deadLetters ["a"] ++ deadLetters ["b", "c"])
      (hdec : JobEnvelope.decode x = some e) : ∃ id, e = { deadLetter false with id } := by
    rw [deadLetters, deadLetters, ← List.map_append] at hx
    obtain ⟨id, -, rfl⟩ := List.mem_map.mp hx
    exact ⟨id, Option.some.inj (hdec.symm.trans (deadLetters_decode id))⟩
  refine ⟨_, revives_conserved_iff hrevives ⟨?_, ?_⟩⟩
  · intro x hx e hdec
    obtain ⟨id, rfl⟩ := hdecodes hx hdec
    show (StorageKeys.new "app").namespaceQueue (deadLetter false).queue ≠ _
    decide
  · intro x hx e hdec hq
    obtain ⟨id, rfl⟩ := hdecodes hx hdec
    replace hq : (StorageKeys.new "app").namespaceQueue (deadLetter false).queue = _ := hq
    exact absurd hq (by decide)

/-- An entry that cannot be read, and one of a unique job. -/
def lostLetters : List String := ["\x7b\x7d", (deadLetter true).encode]

/-- A store in which the id of the unique one is taken. -/
def takenStore : Store := record (.new "app") (deadLetter false) Store.empty

/-- Whoever has claimed these entries has this store. -/
def claimedLetters : World Unit :=
  ⟨(takenStore.put (StorageKeys.new "app").dead (.list [])).put (claimKeyOf (.new "app") "u")
    (.list lostLetters), 0, ()⟩

/-- An entry that cannot be read is dropped, and so is a unique job whose id is taken, which is
counted as revived. -/
theorem lostLetters_lost : ∃ w' : World Unit,
    Call.Solo (fun _ => True) (reviveAllDead (.new "app") (claimKeyOf (.new "app") "u"))
      ⟨takenStore.put (StorageKeys.new "app").dead (.list lostLetters), 0, ()⟩ (.ok 1) w' ∧
    (∀ x ∈ lostLetters, placed (.new "app") w'.store x = false ∧
      x ∉ w'.store.list (StorageKeys.new "app").dead) ∧
    ¬Conserved (.new "app") lostLetters (.ok 1) w'.store := by
  have hno : JobEnvelope.decode "\x7b\x7d" = none := Option.isNone_iff_eq_none.mp (by decide +kernel)
  have hcount : readable lostLetters = 1 := by
    rw [readable, lostLetters, List.countP_cons_of_neg (by simp [hno]), List.countP_singleton,
      deadLetter_decodes]
    rfl
  have henqueue : Call.Solo (fun _ => True) (enqueue (.new "app") (deadLetter true)) claimedLetters
      (.ok (deadLetter true).id) claimedLetters :=
    solo_any (solo_enqueue_skips rfl (.inr (by decide +kernel)) (by decide +kernel))
  obtain ⟨hget, hclaimed⟩ := claimDead_put (.new "app") (claimKeyOf (.new "app") "u") takenStore
    lostLetters (List.cons_ne_nil _ _)
  have hrevives : Revives (.new "app") (claimKeyOf (.new "app") "u")
      (⟨takenStore.put (StorageKeys.new "app").dead (.list lostLetters), 0, ()⟩ : World Unit)
      lostLetters [] (.ok (readable lostLetters)) (claimedLetters.after (del (claimKeyOf (.new "app") "u"))) := by
    refine .all hget ?_
    rw [hclaimed]
    exact .passes hno (.revives (deadLetter_decodes true) henqueue (.finishes _))
  have hlost : ∀ x ∈ lostLetters,
      placed (.new "app") (claimedLetters.after (del (claimKeyOf (.new "app") "u"))).store x =
        false ∧
      x ∉ (claimedLetters.after (del (claimKeyOf (.new "app") "u"))).store.list
        (StorageKeys.new "app").dead := by
    decide +kernel
  refine ⟨_, hcount ▸ hrevives.solo, hlost, fun h => ?_⟩
  have hfirst := hlost "\x7b\x7d" (List.mem_cons_self ..)
  rcases h.kept "\x7b\x7d" (List.mem_cons_self ..) with hplaced | hkept
  · rw [hfirst.1] at hplaced
    cases hplaced
  · have hpos : 0 < lostLetters.count "\x7b\x7d" := List.count_pos_iff.mpr (List.mem_cons_self ..)
    exact hfirst.2 (List.count_pos_iff.mp (Nat.lt_of_lt_of_le hpos hkept))

end Runs

end Oxana
