import Oxana.Cron
import Oxana.AtMostOnce
import Oxana.WorkerSteps

/-!
# Counting executions

The executions of a job are counted where its handler is called, in a component
of the world that no client can see (`Ledger.begun`). The custody of jobs is
refined by the count: a token is marked once the execution of its job has begun.

What a client has to establish beyond custody is then one thing about its steps,
that none of them gives a place to a job whose execution has begun (`Settled`).
`Safe.tallied` puts the two together.
-/

namespace Oxana

open Redis Script Interleave Call

/-! ## Workers that count -/

/-- The ledger once the handler has been called for these jobs. -/
def Ledger.begin (g : Ledger) (ids : List JobId) : Ledger :=
  { g with begun := fun id => g.begun id + ids.count id }

/-- Count the executions that begin, which the code does not do. -/
def noteBegun (ids : List JobId) : Call Ledger Unit :=
  Prog.act .wait (fun w => { w with ghost := w.ghost.begin ids }) fun _ => Prog.ret (.ok ())

section Noting

variable {γ : Type} (H : Handle) (note : List JobId → Call γ Unit)

/-- `run_batch`, with a note before the handler is called -/
def runBatchNoting (envelopes : List JobEnvelope) : Call γ Unit :=
  if envelopes = [] then pure ()
  else ask fun c => do
    let started ← setStartedAtBatch H
      (if c.resumes then envelopes else envelopes.map (·.withoutState))
    note (started.map (·.id))
    runProcess H (started.map (·.id)) c.rounds
    finishBatchResult H c.result started

/-- A worker that notes which jobs it begins. -/
def workerNoting (queues : List String) : Call γ Unit :=
  ask fun c => do
    let envelopes ← gather H queues c.rounds [] []
    let valid ← killInvalid H envelopes
    runBatchNoting H note valid

/-- A worker that notes nothing about the jobs it begins is the worker itself. -/
theorem workerNoting_silent (queues : List String) :
    workerNoting H (fun _ => pure () : List JobId → Call γ Unit) queues = worker H queues := rfl

end Noting

/-! ## The discipline -/

variable {K : StorageKeys} {w w' : World Ledger} {o : Option String} {T T' : Set Custody}
  {B : Set JobId}

/-- The invariant of the world with counts: every job is in order, and has begun only where it may.
-/
structure Tallied (K : StorageKeys) (w : World Ledger) : Prop where
  /-- every job is at most at one place -/
  placed : PlacementInv K Set.univ w
  /-- no job is executed twice -/
  once : ∀ id, w.ghost.begun id ≤ 1
  /-- a job whose execution has begun does not wait for one -/
  claimed : ∀ id, w.ghost.begun id ≠ 0 → ∀ l, (jobView K w.store id).places l ≠ 0 →
    ∃ p, l = .processing p

/-- Custody of jobs, with a mark that says whether they have begun. -/
def tallying (K : StorageKeys) :
    Discipline (Option String) (World Ledger) (Custody × Bool) where
  inv := Tallied K
  owns t w := (custody K Set.univ).owns t.1 w ∧ (t.2 = true ↔ w.ghost.begun t.1.id ≠ 0)
  mine o t := Custody.Mine o t.1
  moves := (custody K Set.univ).moves
  moves_refl := (custody K Set.univ).moves_refl
  moves_trans := (custody K Set.univ).moves_trans

/-- The tokens `T`, each marked by whether its job is in `B`. -/
def marked (B : Set JobId) (T : Set Custody) : Set (Custody × Bool) :=
  {t | t.1 ∈ T ∧ (t.2 = true ↔ t.1.id ∈ B)}

/-- A step after which no job whose execution has begun is at a place where it was not before; what
is known beyond the store stays. -/
def Settled (K : StorageKeys) (w w' : World Ledger) : Prop :=
  w'.ghost = w.ghost ∧ ∀ id, w.ghost.begun id ≠ 0 → ∀ l,
    (jobView K w'.store id).places l ≠ 0 → (jobView K w.store id).places l ≠ 0

/-- Whoever holds a token holds it with the right mark: begun if the execution of its job has begun,
and fresh otherwise. -/
theorem mem_marked_of_owns (hT : ∀ t ∈ marked B T, (tallying K).owns t w) {t : Custody × Bool}
    (ht : t.1 ∈ T) (hown : (tallying K).owns t w) : t ∈ marked B T := by
  classical
  have hmark := (hT (t.1, decide (t.1.id ∈ B)) ⟨ht, decide_eq_true_iff⟩).2
  exact ⟨ht, hown.2.trans (hmark.symm.trans decide_eq_true_iff)⟩

/-- A token that was nobody's before is of a job whose execution has not begun. -/
theorem Settled.fresh (hs : Settled K w w') {t : Custody} (hnew : ¬ (custody K Set.univ).owns t w)
    (hown : (custody K Set.univ).owns t w') : w.ghost.begun t.id = 0 := by
  by_contra hbegun
  have h : t.Holds Set.univ w'.ghost (jobView K w'.store t.id) := hown
  rw [hs.1] at h
  cases t with
  | claim p id => exact hnew ⟨h.1, hs.2 id hbegun _ h.2⟩
  | fresh id => exact h.1 trivial
  | staged id => exact h.1 trivial

/-- **One step**: a trade by a step that leaves begun jobs alone is a trade of marked tokens, since
no mark changes. -/
theorem Settled.trades (hs : Settled K w w') (hinv : Tallied K w)
    (hT : ∀ t ∈ marked B T, (tallying K).owns t w)
    (htr : (custody K Set.univ).Trades o T T' w w') :
    ∃ B' ⊆ B, (tallying K).Trades o (marked B T) (marked B' T') w w' := by
  classical
  refine ⟨{id ∈ B | ∃ t ∈ T, t ∈ T' ∧ t.id = id}, fun _ h => h.1, ?_, htr.moves, ?_, ?_, ?_, ?_⟩
  · refine ⟨htr.inv, fun id => ?_, fun id hbegun l hl => ?_⟩
    · rw [hs.1]
      exact hinv.once id
    · rw [hs.1] at hbegun
      exact hinv.claimed id hbegun l (hs.2 id hbegun l hl)
  · intro t ht hown
    have hnot : t.1 ∉ T := fun hmem => ht (mem_marked_of_owns hT hmem hown)
    refine ⟨htr.frame t.1 hnot hown.1, ?_⟩
    rw [hs.1]
    exact hown.2
  · rintro ⟨t, b⟩ ⟨ht, hb⟩
    refine ⟨htr.owns t ht, ?_⟩
    show b = true ↔ w'.ghost.begun t.id ≠ 0
    rw [hs.1]
    refine hb.trans ?_
    have hheld : ∀ t' ∈ T, (t'.id ∈ B ↔ w.ghost.begun t'.id ≠ 0) := fun t' ht' =>
      decide_eq_true_iff.symm.trans (hT (t', decide (t'.id ∈ B)) ⟨ht', decide_eq_true_iff⟩).2
    by_cases hmem : t ∈ T
    · exact ⟨fun h => (hheld t hmem).mp h.1, fun h => ⟨(hheld t hmem).mpr h, t, hmem, ht, rfl⟩⟩
    · -- a new token, of a job that has not begun
      have hzero := hs.fresh (htr.fresh t ht hmem) (htr.owns t ht)
      refine ⟨?_, fun h => absurd hzero h⟩
      rintro ⟨hB, t', ht', -, hid⟩
      rw [← hid] at hB hzero ⊢
      exact (hheld t' ht').mp hB
  · rintro t ⟨ht, -⟩
    exact htr.mine t.1 ht
  · rintro t ⟨ht, -⟩ hnot hown
    have hmem : t.1 ∉ T := fun hmem => hnot (mem_marked_of_owns hT hmem hown)
    exact htr.fresh t.1 ht hmem hown.1

/-- What is left of the tokens, with no new marks. -/
def Remains {α : Type} (B : Set JobId) (Q : α → Set Custody → Prop) (a : α)
    (M : Set (Custody × Bool)) : Prop :=
  ∃ B' ⊆ B, ∃ T, M = marked B' T ∧ Q a T

/-- **Whole programs**: custody, and steps that leave begun jobs alone as long as they meet `G`,
together give custody of marked tokens. -/
theorem Safe.tallied {α : Type} {G : Request → World Ledger → Prop} {P : World Ledger → Prop}
    {Q : α → Set Custody → Prop} {p : Prog Request (World Ledger) Choice α}
    (hp : (custody K Set.univ).Safe o P Q T p)
    (ha : Prog.Always (fun l w => Tallied K w ∧ G l w) (fun _ => Settled K) (fun _ => True) p) :
    (tallying K).Safe o P (Remains B Q) (marked B T) (p.heeding G) := by
  induction p generalizing T B with
  | ret a => exact ⟨B, subset_rfl, T, rfl, hp⟩
  | halt => trivial
  | act l f k ih =>
    refine Discipline.Safe.heeding_act fun w hinv hP hT hG => ?_
    have hcustody : ∀ t ∈ T, (custody K Set.univ).owns t w := by
      classical
      exact fun t ht => (hT (t, decide (t.id ∈ B)) ⟨ht, decide_eq_true_iff⟩).1
    obtain ⟨T', htr, hk⟩ := hp w hinv.placed hP hcustody
    obtain ⟨hsettled, hrest⟩ := ha w ⟨hinv, hG⟩
    obtain ⟨B', hB', htr'⟩ := hsettled.trades hinv hT htr
    refine ⟨marked B' T', htr', (ih w hk hrest).mono ?_⟩
    rintro a M ⟨B'', hB'', hM⟩
    exact ⟨B'', hB''.trans hB', hM⟩
  | ask k ih => exact fun i => ih i (hp i) (ha i)

/-- A call that is held back before a step that would not meet `G`. -/
noncomputable def Call.heeding {α : Type} (G : Request → World Ledger → Prop) (x : Call Ledger α) :
    Call Ledger α :=
  Prog.heeding G x

/-- The same for calls, which may return something or fail. -/
theorem Call.Keeps.tallied {α : Type} {G : Request → World Ledger → Prop}
    {P : World Ledger → Prop} {Q : α → Set Custody → Prop} {R : Set Custody → Prop}
    {x : Call Ledger α} (hx : Call.Keeps (custody K Set.univ) o P Q R T x)
    (ha : Call.Always (fun l w => Tallied K w ∧ G l w) (fun _ => Settled K) (fun _ => True) x) :
    Call.Keeps (tallying K) o P (Remains B Q) (fun _ => True) (marked B T)
      (Call.heeding G x) := by
  have hsafe := Safe.tallied (B := B) (G := G) hx (ha.steps fun _ _ h => h)
  refine Discipline.Safe.mono hsafe ?_
  rintro (e | a) M ⟨B', hB', T', hM, hQ⟩
  · trivial
  · exact ⟨B', hB', T', hM, hQ⟩

theorem Call.heeding_true {α : Type} (x : Call Ledger α) : Call.heeding (fun _ _ => True) x = x :=
  Prog.heeding_true x

theorem marked_empty (B : Set JobId) : marked B ∅ = ∅ :=
  Set.eq_empty_of_forall_notMem fun _ h => h.1

/-! ## The beginning of an execution -/

/-- A worker may begin the jobs that it has claimed, once each: the marks of their tokens change,
and no other. -/
theorem begin_trades {p : String} {ids : List JobId} (hinv : Tallied K w) (hnd : ids.Nodup)
    (hT : ∀ t ∈ marked ∅ (Custody.claims p ids), (tallying K).owns t w) :
    (tallying K).Trades (some p) (marked ∅ (Custody.claims p ids))
      (marked {id | id ∈ ids} (Custody.claims p ids)) w
      { w with ghost := w.ghost.begin ids } := by
  -- a claimed job is on the processing list, and it has not begun
  have hclaim : ∀ id ∈ ids, (custody K Set.univ).owns (.claim p id) w ∧
      w.ghost.begun id = 0 := by
    intro id hid
    obtain ⟨hown, hmark⟩ := hT (.claim p id, false) ⟨⟨id, hid, rfl⟩, by simp⟩
    replace hmark : false = true ↔ w.ghost.begun id ≠ 0 := hmark
    exact ⟨hown, by simpa using hmark⟩
  have hview : ∀ id ∈ ids, ∃ pay, jobView K w.store id = ⟨some pay, only (.processing p)⟩ := by
    intro id hid
    have hocc : occ K w.store id (.processing p) ≠ 0 := (hclaim id hid).1.2
    obtain ⟨pay, hv, -⟩ := hinv.placed.at_place hocc
    exact ⟨pay, hv⟩
  have hcount : ∀ id ∈ ids, (w.ghost.begin ids).begun id = 1 := by
    intro id hid
    show w.ghost.begun id + ids.count id = 1
    rw [(hclaim id hid).2, List.count_eq_one_of_mem hnd hid]
  have hother : ∀ id ∉ ids, (w.ghost.begin ids).begun id = w.ghost.begun id := by
    intro id hid
    show w.ghost.begun id + ids.count id = w.ghost.begun id
    rw [List.count_eq_zero_of_not_mem hid, Nat.add_zero]
  refine ⟨⟨⟨hinv.placed.typed, hinv.placed.jobs⟩, fun id => ?_, fun id hbegun l hl => ?_⟩,
    fun o => ⟨Set.Subset.rfl, fun _ _ h => h⟩, ?_, ?_, ?_, ?_⟩
  · by_cases hid : id ∈ ids
    · exact (hcount id hid).le
    · exact (hother id hid).le.trans (hinv.once id)
  · by_cases hid : id ∈ ids
    · obtain ⟨pay, hv⟩ := hview id hid
      replace hl : (jobView K w.store id).places l ≠ 0 := hl
      rw [hv] at hl
      exact ⟨p, by_contra fun hne => hl (only_ne hne)⟩
    · exact hinv.claimed id (by rwa [hother id hid] at hbegun) l hl
  · rintro ⟨t, b⟩ ht ⟨hown, hmark⟩
    replace hmark : b = true ↔ w.ghost.begun t.id ≠ 0 := hmark
    by_cases hid : t.id ∈ ids
    · -- all tokens of these jobs are in our hands
      obtain ⟨pay, hv⟩ := hview t.id hid
      obtain ⟨q, hq, ht', -⟩ := Custody.of_only hv hown
      obtain rfl : p = q := Loc.processing.inj hq
      refine absurd ⟨⟨t.id, hid, ht'⟩, hmark.trans ?_⟩ ht
      simp [(hclaim _ hid).2]
    · refine ⟨hown, ?_⟩
      show b = true ↔ (w.ghost.begin ids).begun t.id ≠ 0
      rw [hmark, hother t.id hid]
  · rintro ⟨t, b⟩ ⟨⟨id, hid, rfl⟩, hb⟩
    refine ⟨(hclaim id hid).1, ?_⟩
    show b = true ↔ (w.ghost.begin ids).begun id ≠ 0
    rw [hcount id hid]
    exact hb.trans ⟨fun _ => Nat.one_ne_zero, fun _ => hid⟩
  · rintro ⟨t, b⟩ ⟨⟨id, hid, rfl⟩, -⟩
    rfl
  · rintro ⟨t, b⟩ ⟨⟨id, hid, rfl⟩, hb⟩ - ⟨-, hmark⟩
    replace hmark : b = true ↔ w.ghost.begun id ≠ 0 := hmark
    exact hmark.mp (hb.mpr hid) (hclaim id hid).2

/-! ## Steps that leave begun jobs alone -/

/-- A job that waits somewhere, and is not on a processing list, has not begun. -/
theorem Tallied.waiting (hinv : Tallied K w) {id : JobId} {l : Loc} (hl : ∀ p, l ≠ .processing p)
    (hocc : (jobView K w.store id).places l ≠ 0) : w.ghost.begun id = 0 := by
  by_contra hbegun
  obtain ⟨p, hp⟩ := hinv.claimed id hbegun l hocc
  exact hl p hp

/-- Changing one job that has not begun, and nothing else, leaves begun jobs alone. -/
theorem Changes.settled {s' : Store} {id : JobId} {f : JobView → JobView}
    (hch : Changes K w.store id f s') (hid : w.ghost.begun id = 0) :
    Settled K w { w with store := s' } := by
  refine ⟨rfl, fun id' hbegun l hl => ?_⟩
  have hne : id' ≠ id := fun h => hbegun (h ▸ hid)
  rwa [hch.ne hne] at hl

theorem Settled.refl : Settled K w w := ⟨rfl, fun _ _ _ h => h⟩

/-- The steps of workers leave begun jobs alone, as long as no attempt fails. -/
theorem WorkStep.settled {H : Handle} {l : Request} (h : WorkStep H l w w')
    (hs : StoreTyped H.keys w.store) (hl : ∀ id, l ≠ .retryFailed id) : Settled H.keys w w' := by
  have hdoes := h.does hs
  have hghost : w'.ghost = w.ghost := by
    cases h <;> rfl
  refine ⟨hghost, fun id _ loc hloc => ?_⟩
  by_cases hstores : l.Stores id
  · rcases hstores with ⟨ids, rfl, -⟩ | rfl
    · -- a payload is stored, nothing is moved
      cases h with
      | reads => exact hloc
      | keeps e =>
        rw [World.after, hset_ok hs.jobs, jobView_put_jobs] at hloc
        exact hloc
      | starts es =>
        rw [World.after, hsetMultiple, onKind_ok hs.jobs, jobView_put_jobs] at hloc
        exact hloc
    · exact absurd rfl (hl id)
  · have hle := (hdoes.wanes id hstores).2 loc
    omega

/-- Claiming a job that waits leaves begun jobs alone, since a waiting job has not begun. -/
theorem lmove_settled {H : Handle} {queue : String} (hinv : Tallied H.keys w)
    (hq : H.keys.Plain queue) : Settled H.keys w
      (w.after (lmove (H.keys.namespaceQueue queue) H.currentProcessingQueue)) := by
  have htyped := hinv.placed.typed
  rw [World.after]
  rcases lmove_cases (H.keys.namespaceQueue queue) H.currentProcessingQueue w.store
    with ⟨hsame, -⟩ | ⟨id, hlast, hrun⟩
  · rw [hsame]
    exact .refl
  · have hch := Changes.claimed htyped hq H.processId hlast
    have hocc : occ H.keys w.store id (.ready queue) ≠ 0 :=
      (htyped.mem_ready hq).mp (List.mem_of_getLast? hlast)
    rw [hrun]
    exact hch.settled (hinv.waiting (fun _ => Loc.noConfusion) hocc)

/-- Promoting a job that waits leaves begun jobs alone, since a delayed job has not begun. -/
theorem promoteScheduled_settled {l : Loc} (hinv : Tallied K w) (hl : l.Delayed)
    {found : Option (String × JobEnvelope)} (hfound : Decoded found) (id : JobId) (score : Int) :
    Settled K w (w.after (promoteScheduled K.jobs (l.key K)
      (K.namespaceQueue ((found.map (·.2.queue)).getD "")) id ((found.map (·.1)).getD "")
      score)) := by
  have htyped := hinv.placed.typed
  have hplain := fun p => plain_of_snapshot (K := K) (p := p) hfound id
  rw [World.after]
  generalize (found.map (·.2.queue)).getD "" = queue at hplain ⊢
  rcases promoteScheduled_cases (s := w.store) K.jobs (l.key K)
    (K.namespaceQueue queue) id ((found.map (·.1)).getD "") score
    with ⟨_, hx⟩ | hx | ⟨-, -, -, hscore, heq, hmove⟩
  · rw [hx]
    exact .refl
  · rw [hx]
    exact .refl
  · have hocc := htyped.waits hl hscore
    have hzero := hinv.waiting (fun p => hl.ne_processing p) hocc
    obtain ⟨p, hv, hgood⟩ := hinv.placed.at_place hocc
    have hpay : payloadOf K.jobs w.store id = some p := congrArg JobView.payload hv
    rw [hpay] at heq
    rcases hmove with ⟨hnone, -⟩ | ⟨-, -, -, hrun⟩
    · rw [hpay] at hnone
      cases hnone
    · have hch := Changes.promoted id htyped (hplain p hgood heq) hl
      rw [hrun]
      exact hch.settled hzero

end Oxana
