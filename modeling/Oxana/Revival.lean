import Oxana.Sweep

/-!
# Processes that come back

A sweep reads the heartbeats, takes the claims of the silent processes, checks
that nothing is left, and drops their records. A process that comes back in the
meantime is not noticed: its record is dropped with the heartbeat it has just
sent, and with the claim it has just made. Where neither happens, only the
records of dead processes are dropped (`unregistered_dead`).
-/

namespace Oxana

open Redis Interleave Call

variable {γ : Type} {K : StorageKeys} {dead : List String} {p q : String}
  {tr : List (Prog.Event Request (World γ))}

/-! ## What a sweep does to records -/

/-- The heartbeat of a process, as its record has it. -/
def heartbeat (K : StorageKeys) (p : String) (s : Store) : Option Int := (records K s).lookup p

/-- The step drops the record of the process. -/
def Drops (K : StorageKeys) (p : String) (e : Prog.Event Request (World γ)) : Prop :=
  heartbeat K p e.pre.store ≠ none ∧ heartbeat K p e.post.store = none

theorem records_put_ne {s : Store} {k : Key} (hk : K.processes ≠ k) (v : Value) :
    records K (s.put k v) = records K s := Store.zset_put_ne v hk

/-- A list takes no record's place, so writing one leaves the records alone. -/
theorem records_put_list {s : Store} {k : Key} (hk : s.Fits k .list) (l : List String) :
    records K (s.put k (.list l)) = records K s := by
  by_cases h : K.processes = k
  · subst h
    have hput := Store.zset_of_fits (Store.fits_put_self (s := s) (k := K.processes) (.list l))
      fun h => nomatch h
    rw [records, records, hput, Store.zset_of_fits hk (by decide)]
  · exact records_put_ne h _

/-- Dealing with a claim leaves the records alone. -/
theorem resurrectClaim_records (queue : Key) (id : JobId) (payload : String) (again : Bool)
    (s : Store) : records K
      (resurrectClaim K.jobs (K.processingQueue q) queue id payload again s).2 = records K s := by
  have hproc : K.processes ≠ K.processingQueue q := (StorageKeys.processing_ne_records q).1.symm
  rcases resurrectClaim_cases (s := s) queue
    (StorageKeys.processing_ne_fixed (K := K) q).1.symm id payload again with
    ⟨m, h⟩ | ⟨h, -⟩ | ⟨-, -, hfits, -, -, ⟨-, h⟩ | ⟨-, -, -, h⟩ | ⟨-, -, h⟩⟩
  · rw [h]
  · rw [h]
  · rw [h]
    exact records_put_ne hproc _
  · rw [h]
    exact (records_put_ne hproc _).trans (records_put_list hfits _)
  · rw [h]
    exact (records_put_ne hproc _).trans (records_put_ne StorageKeys.processes_ne_jobs _)

theorem hdel_records (s : Store) : records K (hdel K.processesData [q] s).2 = records K s := by
  simp only [hdel, onKind]
  split
  · exact records_put_ne StorageKeys.processes_ne_processesData _
  · rfl

/-- Dropping the record of one process leaves the heartbeats of the others alone. -/
theorem zrem_heartbeat_ne (h : p ≠ q) (s : Store) :
    heartbeat K p (zrem K.processes q s).2 = heartbeat K p s := by
  simp only [zrem, onKind]
  split
  · rw [heartbeat, heartbeat, records, Store.zset_put_self, lookup_unset_ne h, records]
  · rfl

/-- A sweep renews no heartbeat, and drops those of dead processes only. -/
theorem SweepStep.heartbeat_cases {l : Request} {w w' : World γ} (h : SweepStep K dead l w w') :
    heartbeat K p w'.store = heartbeat K p w.store ∨
      (heartbeat K p w'.store = none ∧ p ∈ dead) := by
  cases h with
  | reads => exact .inl rfl
  | resurrects _ queue id payload again =>
    exact .inl (congrArg (List.lookup p) (resurrectClaim_records _ _ _ _ _))
  | @unregisters w q hq x hx =>
    simp only [unregister, List.mem_cons, List.not_mem_nil, or_false] at hx
    rcases hx with rfl | rfl
    · by_cases hpq : p = q
      · subst hpq
        simp only [World.after, zrem, onKind]
        split
        · refine .inr ⟨?_, hq⟩
          rw [heartbeat, records, Store.zset_put_self]
          exact lookup_unset_self
        · exact .inl rfl
      · exact .inl (zrem_heartbeat_ne hpq _)
    · exact .inl (congrArg (List.lookup p) (hdel_records _))

theorem SweepStep.not_zrange {l : Request} {w w' : World γ} (h : SweepStep K dead l w w') :
    l ≠ .zrange := by
  cases h with
  | reads hl => rcases hl with rfl | rfl | rfl <;> decide
  | resurrects => decide
  | unregisters => decide

theorem SweepStep.llen {l : Request} {w w' : World γ} (h : SweepStep K dead l w w')
    (hl : l = .llen) : w' = w := by
  cases h with
  | reads => rfl
  | resurrects => cases hl
  | unregisters => cases hl

/-- What a sweep does to a heartbeat, and to the clock. -/
def Aging (K : StorageKeys) (p : String) (w w' : World γ) : Prop :=
  (heartbeat K p w'.store = heartbeat K p w.store ∨ heartbeat K p w'.store = none) ∧
    w.clock ≤ w'.clock

/-- Throughout a sweep the heartbeat of a process is what it was, or it is dropped. -/
theorem resurrect_aging {E : Request → World γ → Prop} (threshold : Nat) :
    Call.Always E (fun _ => Aging K p) (fun _ => True) (resurrect K threshold) := by
  refine Always.connection.bind fun _ _ => ?_
  refine ((deadProcessIds_found threshold).weaken (fun _ _ h => h) fun _ w w' _ hsame =>
    hsame ▸ ⟨.inl rfl, le_refl _⟩).bind fun dead _ => ?_
  have hsteps : Call.Always E (SweepStep K dead) (fun _ => True)
      (resurrectProcesses K dead : Call γ Unit) := resurrectProcesses_steps fun _ h => h
  refine hsteps.weaken (fun _ _ h => h) ?_
  intro _ w w' _ hstep
  refine ⟨hstep.heartbeat_cases.imp_right And.left, ?_⟩
  cases hstep with
  | reads => exact le_refl _
  | resurrects => exact le_refl _
  | unregisters => exact le_refl _

/-! ## When a record is dropped -/

/-- Records are dropped right after the processing list has been found empty. -/
def DropsChecked (K : StorageKeys) (p : String) (tr : List (Prog.Event Request (World γ))) : Prop :=
  ∀ a e b, tr = a ++ e :: b → Drops K p e → ∃ a' check, a = a' ++ [check] ∧
    check.label = .llen ∧ check.pre.store.list (K.processingQueue p) = []

theorem DropsChecked.append {tr' : List (Prog.Event Request (World γ))}
    (h : DropsChecked K p tr) (h' : DropsChecked K p tr') : DropsChecked K p (tr ++ tr') := by
  intro a e b heq hdrops
  rcases List.append_eq_append_iff.mp heq.symm with ⟨c, hc, hb⟩ | ⟨c, hc, hb⟩
  · rcases c with _ | ⟨e', c⟩
    · obtain ⟨a', check, ha, hcheck⟩ := h' [] e b hb.symm hdrops
      simp at ha
    · obtain ⟨rfl, -⟩ := List.cons.inj hb
      exact h a e c hc hdrops
  · obtain ⟨a', check, rfl, hcheck⟩ := h' c e b hb hdrops
    exact ⟨tr ++ a', check, by rw [hc, List.append_assoc], hcheck⟩

/-- Where nothing is dropped, nothing is dropped without a check. -/
theorem dropsChecked_of_none (h : ∀ e ∈ tr, ¬ Drops K p e) : DropsChecked K p tr := by
  rintro a e b rfl hdrops
  exact absurd hdrops (h e (List.mem_append_right _ (List.mem_cons_self ..)))

/-- The two commands with which a process is unregistered, after the check that has found its list
empty. -/
theorem unregister_dropsChecked {check : Prog.Event Request (World γ)}
    {x : Prog Request (World γ) Choice (Except OxanaError (List Unit))}
    (h : Prog.Trace (pipe .unregister (unregister K q) : Call γ (List Unit)) tr x)
    (hlabel : check.label = .llen) (hkept : ¬ Drops K p check)
    (hempty : check.pre.store.list (K.processingQueue q) = []) :
    DropsChecked K p (check :: tr) := by
  have hevents := trace_pipe h
  have hhdel : ∀ w : World γ, ¬ Drops K p
      ⟨.unregister, w, w.after (hdel K.processesData [q])⟩ := by
    rintro w ⟨hpre, hpost⟩
    exact hpre ((congrArg (List.lookup p) (hdel_records w.store)).symm.trans hpost)
  intro a e b heq hdrops
  rcases a with _ | ⟨c, a⟩
  · obtain ⟨rfl, -⟩ := List.cons.inj heq
    exact absurd hdrops hkept
  obtain ⟨rfl, rfl⟩ := List.cons.inj heq
  rcases a with _ | ⟨c', a⟩
  · -- the first command drops the record of `q`, and nobody else's
    obtain ⟨w, rfl⟩ : ∃ w, e = ⟨.unregister, w, w.after (zrem K.processes q)⟩ := by
      cases hevents with
      | cons he _ => exact he
    have hpq : p = q := by
      by_contra hne
      exact hdrops.1 ((zrem_heartbeat_ne hne w.store).symm.trans hdrops.2)
    subst hpq
    exact ⟨[], check, rfl, hlabel, hempty⟩
  · -- the second drops none
    exfalso
    cases hevents with
    | cons _ hrest =>
      rcases a with _ | ⟨c'', a⟩
      · cases hrest with
        | cons he _ =>
          obtain ⟨w, rfl⟩ := he
          exact hhdel w hdrops
      · cases hrest with
        | cons _ hrest => simpa using hrest.length_eq

/-- The step does not drop the record of the process. -/
def Keeping (K : StorageKeys) (p : String) (l : Request) (w w' : World γ) : Prop :=
  ¬ Drops K p ⟨l, w, w'⟩

theorem keeping_refl (l : Request) (w : World γ) : Keeping K p l w w := fun h => h.1 h.2

theorem dropsChecked_of_keeping {α : Type} {Q : α → Prop} {y : Call γ α}
    {x : Prog Request (World γ) Choice (Except OxanaError α)} (h : Prog.Trace y tr x)
    (hy : Call.Always (fun _ _ => True) (Keeping K p) Q y) : DropsChecked K p tr :=
  dropsChecked_of_none fun e he => (hy.trace h fun _ _ => trivial).1 e he

theorem resurrectJobs_keeping (ids : List JobId) :
    Call.Always (fun _ _ => True) (Keeping K p) (fun _ => True)
      (resurrectJobs K q ids : Call γ Nat) := by
  refine resurrectJobs_always (fun w _ => keeping_refl _ w) (fun w queue id payload again _ => ?_) ids
  rintro ⟨hpre, hpost⟩
  exact hpre ((congrArg (List.lookup p) (resurrectClaim_records _ _ _ _ _)).symm.trans hpost)

/-- Resurrecting a process drops its record only after its list has been found empty. -/
theorem resurrectProcess_dropsChecked
    {x : Prog Request (World γ) Choice (Except OxanaError Unit)}
    (h : Prog.Trace (resurrectProcess K q : Call γ Unit) tr x) : DropsChecked K p tr := by
  have hlrange : Call.Always (fun _ _ => True) (Keeping K p) (fun _ => True)
      (send .lrange (lrange (K.processingQueue q)) : Call γ _) :=
    .read (fun s => lrange_snd ..) (fun w _ => keeping_refl _ w) fun _ _ _ _ => trivial
  have hllen : Call.Always (fun _ _ => True) (Keeping K p) (fun _ => True)
      (send .llen (llen (K.processingQueue q)) : Call γ _) :=
    .read (fun s => llen_snd ..) (fun w _ => keeping_refl _ w) fun _ _ _ _ => trivial
  rcases trace_bind h with ⟨y, hy⟩ | ⟨ids, tr₁, tr₂, rfl, h₁, h₂⟩
  · exact dropsChecked_of_keeping hy hlrange
  refine (dropsChecked_of_keeping h₁ hlrange).append ?_
  rcases trace_bind h₂ with ⟨y, hy⟩ | ⟨_, tr₃, tr₄, rfl, h₃, h₄⟩
  · exact dropsChecked_of_keeping hy (resurrectJobs_keeping ids)
  refine (dropsChecked_of_keeping h₃ (resurrectJobs_keeping ids)).append ?_
  rcases trace_bind h₄ with ⟨y, hy⟩ | ⟨left, tr₅, tr₆, rfl, h₅, h₆⟩
  · exact dropsChecked_of_keeping hy hllen
  obtain ⟨w, rfl, hleft⟩ := Returns.send_inv h₅
  by_cases hzero : left = 0
  · rw [if_pos hzero] at h₆
    have hempty : w.store.list (K.processingQueue q) = [] := by
      obtain ⟨-, hlen⟩ := onKind_inv hleft
      exact List.length_eq_zero_iff.mp (hlen.trans hzero)
    have hkept : ¬ Drops K p ⟨.llen, w, w.after (llen (K.processingQueue q))⟩ :=
      (hllen.trace h₅ fun _ _ => trivial).1 _ (List.mem_singleton.mpr rfl)
    rcases trace_bind h₆ with ⟨y, hy⟩ | ⟨_, tr₇, tr₈, rfl, h₇, h₈⟩
    · exact unregister_dropsChecked hy rfl hkept hempty
    · cases h₈
      rw [List.append_nil]
      exact unregister_dropsChecked h₇ rfl hkept hempty
  · rw [if_neg hzero] at h₆
    cases h₆
    rw [List.append_nil]
    exact dropsChecked_of_keeping h₅ hllen

/-- Resurrecting several processes drops the record of each only after its list has been found
empty. -/
theorem resurrectProcesses_dropsChecked {ps : List String}
    {x : Prog Request (World γ) Choice (Except OxanaError Unit)}
    (h : Prog.Trace (resurrectProcesses K ps : Call γ Unit) tr x) : DropsChecked K p tr := by
  induction ps generalizing tr with
  | nil =>
    cases h
    exact dropsChecked_of_none fun _ he => absurd he List.not_mem_nil
  | cons q ps ih =>
    rcases trace_bind h with ⟨y, hy⟩ | ⟨_, tr₁, tr₂, rfl, h₁, h₂⟩
    · exact resurrectProcess_dropsChecked hy
    · exact (resurrectProcess_dropsChecked h₁).append (ih h₂)

/-- The steps of looking for dead processes: the scan, then the records, then the clock. -/
theorem deadProcessIds_trace {threshold : Nat}
    (h : Call.Returns (deadProcessIds K threshold : Call γ _) tr dead) :
    ∃ scans read clock queues, tr = scans ++ [read, clock] ∧ (∀ e ∈ scans, e.label = .scan) ∧
      read.label = .zrange ∧ clock.label = .now ∧
      dead = deadAmong threshold clock.pre.clock queues (records K read.pre.store) := by
  obtain ⟨c, h⟩ := h.ask_inv
  obtain ⟨queues, scans, tr₁, rfl, h₁, h₂⟩ := h.bind_inv
  have hscans : ∀ e ∈ scans, e.label = .scan :=
    ((scanKeys_always (E := fun _ _ => True) (G := fun l _ _ => l = .scan)
      (fun _ _ => rfl) _ _).trace h₁ fun _ _ => trivial).1
  obtain ⟨rs, tr₂, tr₃, rfl, h₃, h₄⟩ := h₂.bind_inv
  obtain ⟨w, rfl, hrs⟩ := h₃.send_inv
  obtain ⟨-, hrs⟩ := onKind_inv hrs
  obtain ⟨t, tr₄, tr₅, rfl, h₅, h₆⟩ := h₄.bind_inv
  obtain ⟨rfl, rfl⟩ := h₆.pure_inv
  cases h₅ with
  | @act _ _ _ w' _ _ h₇ =>
    cases h₇
    exact ⟨scans, _, _, queues.dedup, rfl, hscans, rfl, rfl, by rw [← hrs]; rfl⟩

/-- **When a sweep drops a record**: it has read the record or its absence, it
has read the clock, and it has just found the processing list empty. -/
theorem resurrect_drops {threshold : Nat} {a b : List (Prog.Event Request (World γ))}
    {e : Prog.Event Request (World γ)}
    {x : Prog Request (World γ) Choice (Except OxanaError Unit)}
    (h : Prog.Trace (resurrect K threshold : Call γ Unit) (a ++ e :: b) x) (hdrops : Drops K p e) :
    ∃ scans read clock a' check queues, a = scans ++ read :: clock :: (a' ++ [check]) ∧
      (∀ e ∈ scans, e.label ≠ .zrange) ∧ (∀ e ∈ clock :: a', e.label ≠ .zrange) ∧
      read.label = .zrange ∧ check.post = check.pre ∧
      check.pre.store.list (K.processingQueue p) = [] ∧
      p ∈ deadAmong threshold clock.pre.clock queues (records K read.pre.store) := by
  have hfind : Call.Always (fun _ _ => True) (Keeping K p) _
      (deadProcessIds K threshold : Call γ (List String)) :=
    (deadProcessIds_found threshold).weaken (fun _ _ h => h) fun l w w' _ hsame => by
      rw [hsame]
      exact keeping_refl l w
  rcases trace_connection h with hnil | h
  · simp at hnil
  rcases trace_bind h with ⟨y, hy⟩ | ⟨dead, tr₁, tr₂, htr, h₁, h₂⟩
  · exact absurd hdrops ((hfind.trace hy fun _ _ => trivial).1 e (by simp))
  have hbefore : ∀ e' ∈ tr₁, ¬ Drops K p e' := (hfind.trace h₁ fun _ _ => trivial).1
  obtain ⟨scans, read, clock, queues, rfl, hscans, hread, hclock, hdead⟩ := deadProcessIds_trace h₁
  obtain ⟨c, rfl, rfl⟩ : ∃ c, a = (scans ++ [read, clock]) ++ c ∧ tr₂ = c ++ e :: b := by
    rcases List.append_eq_append_iff.mp htr with ⟨c, hc, hb⟩ | ⟨c, hc, hb⟩
    · rcases c with _ | ⟨e', c⟩
      · exact ⟨[], by simpa using hc.symm, hb.symm⟩
      · obtain ⟨rfl, -⟩ := List.cons.inj hb
        exact absurd hdrops (hbefore e (hc ▸ by simp))
    · exact ⟨c, hc, hb⟩
  have hsteps : ∀ e' ∈ c ++ e :: b, SweepStep K dead e'.label e'.pre e'.post :=
    ((resurrectProcesses_steps (E := fun _ _ => True) fun _ h => h).trace h₂ fun _ _ => trivial).1
  obtain ⟨a', check, rfl, hlabel, hempty⟩ := resurrectProcesses_dropsChecked h₂ c e b rfl hdrops
  refine ⟨scans, read, clock, a', check, queues, by simp, fun e' he' => ?_, fun e' he' => ?_, hread,
    (hsteps check (by simp)).llen hlabel, hempty, ?_⟩
  · rw [hscans e' he']
    decide
  · rcases List.mem_cons.mp he' with rfl | he'
    · rw [hclock]
      decide
    · exact (hsteps e' (by simp [he'])).not_zrange
  · rw [← hdead]
    rcases (hsteps e (by simp)).heartbeat_cases (p := p) with heq | ⟨-, hmem⟩
    · exact absurd (heq.symm.trans hdrops.2) hdrops.1
    · exact hmem

/-! ## The process meanwhile -/

variable {H : Handle} {record queue : String}

/-- What the steps of a living process do to the world. -/
inductive LiveStep (H : Handle) (record queue : String) : Request → World γ → World γ → Prop
  /-- it looks at the clock -/
  | now {w : World γ} : LiveStep H record queue .now w w
  /-- it sends a heartbeat, which renews the time in the record of the process -/
  | beats {w : World γ} (score : Int) :
      LiveStep H record queue .ping w (w.after (zadd H.keys.processes score H.processId))
  /-- it writes down what is known of the process -/
  | reports {w : World γ} :
      LiveStep H record queue .ping w (w.after (hset H.keys.processesData H.processId record))
  /-- it claims a job -/
  | claims {w : World γ} : LiveStep H record queue .lmove w
      (w.after (lmove (H.keys.namespaceQueue queue) H.currentProcessingQueue))
  /-- it waits for the next heartbeat -/
  | waits {w : World γ} (delay : UInt64) :
      LiveStep H record queue .wait w { w with clock := w.clock + delay.toNat }

/-- The steps of a live process are heartbeats, claims, looks at the clock, and nothing else about
the sweep. -/
theorem live_steps (n : Nat) : Call.Always (fun _ _ => True) (LiveStep H record queue)
    (fun _ => True) (live H record queue n : Call γ Unit) := by
  induction n with
  | zero => exact .pure trivial
  | succ n ih =>
    have hping : Call.Always (fun _ _ => True) (LiveStep H record queue) (fun _ => True)
        (ping H record : Call γ Unit) := by
      refine Always.connection.bind fun _ _ => ?_
      refine (Always.now (Q := fun _ => True) (fun _ _ => .now) fun _ _ => trivial).bind
        fun t _ => ?_
      refine (Always.pipe (Q := fun _ _ => True) (fun x hx w _ => ?_)
        fun _ _ _ _ _ _ => trivial).bind fun _ _ => .pure trivial
      simp only [List.mem_cons, List.not_mem_nil, or_false] at hx
      rcases hx with rfl | rfl
      · exact .beats _
      · exact .reports
    have hclaim : Call.Always (fun _ _ => True) (LiveStep H record queue) (fun _ => True)
        (dequeue H queue : Call γ _) :=
      Always.connection.bind fun _ _ => .send (fun _ _ => .claims) fun _ _ _ _ => trivial
    have hwait : ∀ delay, Call.Always (fun _ _ => True) (LiveStep H record queue) (fun _ => True)
        (wait delay : Call γ Unit) := fun delay w _ => ⟨.waits delay, fun _ _ => trivial⟩
    refine .ask fun c => ?_
    split
    · exact hping.catching (fun _ _ => ih) fun _ => ih
    · exact hclaim.catching (fun _ _ => ih) fun _ => ih
    · exact (hwait _).catching (fun _ _ => ih) fun _ => ih

/-- Of the steps of a live process only a heartbeat renews its record. -/
theorem LiveStep.heartbeat_eq {l : Request} {w w' : World γ} (h : LiveStep H record queue l w w')
    (hl : l ≠ .ping) : heartbeat H.keys p w'.store = heartbeat H.keys p w.store := by
  cases h with
  | now => rfl
  | beats => exact absurd rfl hl
  | reports => exact absurd rfl hl
  | waits => rfl
  | @claims w =>
    have hproc : H.keys.processes ≠ H.currentProcessingQueue :=
      (StorageKeys.processing_ne_records H.processId).1.symm
    rw [World.after]
    rcases lmove_cases (H.keys.namespaceQueue queue) H.currentProcessingQueue w.store with
      ⟨hsame, -⟩ | ⟨x, hx, hmove⟩
    · rw [hsame]
    · have hfits : w.store.Fits (H.keys.namespaceQueue queue) .list :=
        Store.fits_of_list_ne_nil fun hnil => by simp [hnil] at hx
      rw [hmove]
      exact congrArg (List.lookup p)
        ((records_put_ne hproc _).trans (records_put_list hfits _))

/-- Of the steps of a live process only a claim puts something on its processing list. -/
theorem LiveStep.list_eq {l : Request} {w w' : World γ} (h : LiveStep H record queue l w w')
    (hl : l ≠ .lmove) : w'.store.list H.currentProcessingQueue =
      w.store.list H.currentProcessingQueue := by
  have hne := StorageKeys.processing_ne_records (K := H.keys) H.processId
  cases h with
  | now => rfl
  | beats score =>
    simp only [World.after, zadd, onKind]
    split
    · exact Store.list_put_ne _ hne.1
    · rfl
  | reports =>
    simp only [World.after, hset, onKind]
    split
    · exact Store.list_put_ne _ hne.2
    · rfl
  | waits => rfl
  | claims => exact absurd rfl hl

theorem LiveStep.clock_le {l : Request} {w w' : World γ} (h : LiveStep H record queue l w w') :
    w.clock ≤ w'.clock := by
  cases h with
  | now => exact le_refl _
  | beats => exact le_refl _
  | reports => exact le_refl _
  | claims => exact le_refl _
  | waits delay => exact Int.le_add_of_nonneg_right (Int.natCast_nonneg _)

/-! ## Who is unregistered -/

/-- A record that is stale stays stale as time goes on. -/
theorem stale_mono {threshold : Nat} {t t' score : Int} (h : stale threshold t score = true)
    (ht : t ≤ t') : stale threshold t' score = true := by
  have hmillis : millis t ≤ millis t' := Int.ediv_le_ediv (by decide) ht
  have hold := of_decide_eq_true h
  refine decide_eq_true ?_
  omega

/-- The only read of the records splits the steps of a sweep in one way. -/
theorem split_unique {α : Type} {P : α → Prop} {a b c d : List α} {x y : α}
    (h : a ++ x :: b = c ++ y :: d) (hx : P x) (hc : ∀ e ∈ c, ¬ P e) (hd : ∀ e ∈ d, ¬ P e) :
    x = y ∧ b = d := by
  rcases List.append_eq_append_iff.mp h with ⟨t, hct, hxt⟩ | ⟨t, hat, hyt⟩
  · rcases t with _ | ⟨z, t⟩
    · exact List.cons.inj hxt
    · obtain ⟨rfl, -⟩ := List.cons.inj hxt
      exact absurd hx (hc x (hct ▸ by simp))
  · rcases t with _ | ⟨z, t⟩
    · exact ⟨(List.cons.inj hyt).1.symm, (List.cons.inj hyt).2.symm⟩
    · obtain ⟨-, rfl⟩ := List.cons.inj hyt
      exact absurd hx (hd x (by simp))

/-- A process that was found dead, and whose record was there, had a record as old as the threshold.
-/
theorem stale_of_dead {threshold : Nat} {t score : Int} {queues : List Key} {s : Store}
    (hmembers : ((records K s).map (·.1)).Nodup) (hscore : heartbeat K p s = some score)
    (hp : p ∈ deadAmong threshold t queues (records K s)) : stale threshold t score = true := by
  have hmem : (p, score) ∈ records K s := by
    obtain ⟨l₁, l₂, hl, -⟩ := List.lookup_eq_some_iff.mp hscore
    rw [hl]
    simp
  rcases List.mem_append.mp hp with hp | hp
  · obtain ⟨r, hr, hrp⟩ := List.mem_map.mp hp
    obtain ⟨hr, hstale⟩ := List.mem_filter.mp hr
    have hsame : r = (p, score) := List.inj_on_of_nodup_map hmembers hr hmem hrp
    rwa [hsame] at hstale
  · obtain ⟨-, hnot⟩ := List.mem_filter.mp hp
    exact absurd (List.mem_map_of_mem hmem) (of_decide_eq_true hnot)

variable {w w' : World γ} {x : Prog Request (World γ) Choice (Except OxanaError Unit)}
  {x' : Prog Request (World γ) Choice (Except OxanaError Unit)}

/-- **Only dead processes are unregistered**, as long as the process does not
ping between the read of the records and the removal of its own, nor claim a
job after its processing list has been found empty: at the removal the record
is too old, and there is no claim. -/
theorem unregistered_dead {threshold n : Nat} {tr tr₁ tr₂ tr₃ : List (Side × Prog.Event Request (World γ))}
    {read check removal : Prog.Event Request (World γ)} {score : Int}
    (h : Run (resurrect H.keys threshold) (live H record queue n) w (tr ++ (.left, read) ::
      (tr₁ ++ (.left, check) :: (tr₂ ++ (.left, removal) :: tr₃))) x x' w')
    (hread : read.label = .zrange)
    (hmembers : ((records H.keys read.pre.store).map (·.1)).Nodup)
    (hnext : ∀ e, (.left, e) ∉ tr₂)
    (hpings : ∀ e, (.right, e) ∈ tr₁ ++ tr₂ → e.label ≠ .ping)
    (hclaims : ∀ e, (.right, e) ∈ tr₂ → e.label ≠ .lmove)
    (hscore : heartbeat H.keys H.processId removal.pre.store = some score)
    (hgone : heartbeat H.keys H.processId removal.post.store = none) :
    stale threshold removal.pre.clock score = true ∧
      removal.pre.store.list H.currentProcessingQueue = [] := by
  have hdrops : Drops H.keys H.processId removal :=
    ⟨by rw [hscore]; exact Option.some_ne_none _, hgone⟩
  -- what the sweep has read before
  have htrace := h.trace_left
  have hnone : Run.lefts tr₂ = [] :=
    List.eq_nil_iff_forall_not_mem.mpr fun e he => hnext e (Run.mem_lefts.mp he)
  have hlefts : Run.lefts (tr ++ (.left, read) ::
      (tr₁ ++ (.left, check) :: (tr₂ ++ (.left, removal) :: tr₃))) =
        (Run.lefts tr ++ read :: (Run.lefts tr₁ ++ [check])) ++ removal :: Run.lefts tr₃ := by
    simp [hnone]
  rw [hlefts] at htrace
  obtain ⟨scans, read', clock, a', check', queues, ha, hscans, hrest, -, hstay, hempty, hdead⟩ :=
    resurrect_drops htrace hdrops
  have hsplit : (Run.lefts tr ++ read :: Run.lefts tr₁) ++ [check] =
      (scans ++ read' :: clock :: a') ++ [check'] := by simpa using ha
  obtain ⟨hreads, hchecks⟩ := List.append_inj' hsplit rfl
  obtain rfl : check = check' := by simpa using hchecks
  obtain ⟨rfl, hafter⟩ := split_unique (P := fun e => e.label = .zrange) hreads hread hscans hrest
  have hclock : (.left, clock) ∈ tr₁ := Run.mem_lefts.mp (hafter ▸ List.mem_cons_self ..)
  -- what the process may have done since
  have hp : Prog.Always (fun _ _ => True) (fun _ => Aging H.keys H.processId) (fun _ => True)
      (resurrect H.keys threshold : Call γ Unit) := (resurrect_aging threshold).steps fun _ _ h => h
  have hq : Prog.Always (fun _ _ => True) (LiveStep H record queue) (fun _ => True)
      (live H record queue n : Call γ Unit) := (live_steps n).steps fun _ _ h => h
  obtain ⟨x₁, x₁', w₁, h₁, h₂⟩ := h.split
  obtain ⟨-, hx₁, hx₁'⟩ := h₁.always (I := fun _ => True) trivial (fun _ _ _ => trivial)
    (fun _ _ _ => trivial) hp hq (fun _ _ _ _ => trivial) fun _ _ _ _ => trivial
  obtain ⟨-, hstep, x₂, x₂', h₃, hx₂, hx₂'⟩ := h₂.next_left hx₁ hx₁' trivial
  have hassoc : tr₁ ++ (.left, check) :: (tr₂ ++ (.left, removal) :: tr₃) =
      (tr₁ ++ (.left, check) :: tr₂) ++ (.left, removal) :: tr₃ := by simp
  rw [hassoc] at h₃
  obtain ⟨x₃, x₃', w₃, h₄, h₅⟩ := h₃.split
  obtain ⟨hbeat, hx₃, hx₃'⟩ := h₄.always (I := fun w =>
      heartbeat H.keys H.processId w.store = heartbeat H.keys H.processId read.post.store ∨
        heartbeat H.keys H.processId w.store = none) (.inl rfl) (fun _ _ _ => trivial)
    (fun _ _ _ => trivial) hx₂ hx₂'
    (fun e _ hI hG => hG.1.elim (fun heq => heq ▸ hI) .inr)
    fun e he hI hG => by
      rw [hG.heartbeat_eq (hpings e (by simpa using he))]
      exact hI
  obtain ⟨hpre, -⟩ := h₅.next_left hx₃ hx₃' trivial
  rw [← hpre, hscore] at hbeat
  have hscore' : heartbeat H.keys H.processId read.pre.store = some score := by
    rcases hbeat with hbeat | hbeat
    · rcases hstep.1 with heq | heq
      · exact heq.symm.trans hbeat.symm
      · rw [heq] at hbeat
        cases hbeat
    · cases hbeat
  have htime : clock.pre.clock ≤ removal.pre.clock := by
    rw [hpre]
    exact h₄.since (I := fun w => clock.pre.clock ≤ w.clock) (e := (.left, clock))
      (List.mem_append_left _ hclock) (le_refl _) hx₂ hx₂'
      (fun _ _ _ hG hI => le_trans hI hG.2) fun _ _ _ hG hI => le_trans hI hG.clock_le
  refine ⟨stale_mono (stale_of_dead hmembers hscore' hdead) htime, ?_⟩
  -- and since the processing list was found empty
  obtain ⟨x₄, x₄', w₄, h₆, h₇⟩ := h₄.split
  obtain ⟨-, hx₄, hx₄'⟩ := h₆.always (I := fun _ => True) trivial (fun _ _ _ => trivial)
    (fun _ _ _ => trivial) hx₂ hx₂' (fun _ _ _ _ => trivial) fun _ _ _ _ => trivial
  obtain ⟨-, -, x₅, x₅', h₈, hx₅, hx₅'⟩ := h₇.next_left hx₄ hx₄' trivial
  have hlist : check.post.store.list H.currentProcessingQueue = [] := by
    rw [hstay]
    exact hempty
  obtain ⟨hlist', -⟩ := h₈.always (I := fun w => w.store.list H.currentProcessingQueue = []) hlist
    (fun _ _ _ => trivial) (fun _ _ _ => trivial) hx₅ hx₅'
    (fun e he _ _ => absurd he (hnext e)) fun e he hI hG => by
      rw [hG.list_eq (hclaims e he)]
      exact hI
  rw [hpre]
  exact hlist'

/-! ## A process that comes back in time -/

/-- The sleeping process sends its heartbeat in time. -/
def awake : World Unit :=
  (silent.after (zadd sleeper.keys.processes 10000 sleeper.processId)).after
    (hset sleeper.keys.processesData sleeper.processId "")

/-- The steps of the sweep once it has found the sample process dead. -/
theorem sleeper_dropped {w : World Unit}
    (hlist : (lrange ((StorageKeys.new "").processingQueue "h-1-a") w.store).1 = .ok [])
    (hlen : (llen ((StorageKeys.new "").processingQueue "h-1-a") w.store).1 = .ok 0) :
    ∃ x, Prog.Trace (resurrectProcesses (.new "") ["h-1-a"]) [⟨.lrange, w, w⟩, ⟨.llen, w, w⟩,
      ⟨.unregister, w, w.after (zrem (StorageKeys.new "").processes "h-1-a")⟩] x := by
  have hids : Call.Returns (send .lrange (lrange ((StorageKeys.new "").processingQueue "h-1-a")))
      [⟨.lrange, w, w⟩] [] := by
    have hsend := Call.Returns.send (l := .lrange) w hlist
    rwa [World.after_read (lrange_snd ..)] at hsend
  have hleft : Call.Returns (send .llen (llen ((StorageKeys.new "").processingQueue "h-1-a")))
      [⟨.llen, w, w⟩] 0 := by
    have hsend := Call.Returns.send (l := .llen) w hlen
    rwa [World.after_read (llen_snd ..)] at hsend
  have hpipe : ∃ x, Prog.Trace (pipe .unregister (unregister (.new "") "h-1-a"))
      [⟨.unregister, w, w.after (zrem (StorageKeys.new "").processes "h-1-a")⟩] x :=
    ⟨_, Prog.Trace.ask (i := Call.fine) (Prog.Trace.act (.refl _))⟩
  obtain ⟨x, hx⟩ := hpipe
  have hprocess : ∃ x, Prog.Trace (resurrectProcess (.new "") "h-1-a") [⟨.lrange, w, w⟩,
      ⟨.llen, w, w⟩, ⟨.unregister, w, w.after (zrem (StorageKeys.new "").processes "h-1-a")⟩] x :=
    ⟨_, Prog.Trace.bind hids (Prog.Trace.bind hleft (hx.bind_left _))⟩
  obtain ⟨x, hx⟩ := hprocess
  exact ⟨_, hx.bind_left _⟩

theorem sleeper_swept : Prog.Trace (resurrect (.new "") 1000000000)
    [⟨.scan, silent, silent⟩, ⟨.zrange, silent, silent⟩, ⟨.now, silent, silent⟩]
    (resurrectProcesses (.new "") ["h-1-a"]) :=
  Prog.Trace.bind Call.Returns.connection (Prog.Trace.bind sleeper_found (.refl _))

/-- The process has been silent for longer than the threshold, and neither pings nor claims while it
is swept: it is unregistered as a dead one. -/
theorem silent_unregistered : heartbeat (.new "") "h-1-a" silent.store = some 0 ∧
    stale 1000000000 silent.clock 0 = true ∧
      silent.store.list ((StorageKeys.new "").processingQueue "h-1-a") = [] := by
  obtain ⟨x, hx⟩ := sleeper_dropped (w := silent) rfl rfl
  have h₁ := Run.of_left sleeper_swept (s := silent) ⟨rfl, rfl, rfl, rfl⟩
    (live sleeper "" "mail" 0 : Call Unit Unit)
  have h₂ := Run.of_left hx (s := silent) ⟨rfl, rfl, rfl, rfl⟩
    (live sleeper "" "mail" 0 : Call Unit Unit)
  refine ⟨rfl, ?_⟩
  have hrun : Run (resurrect sleeper.keys 1000000000) (live sleeper "" "mail" 0) silent
      ([(.left, ⟨.scan, silent, silent⟩)] ++ (.left, ⟨.zrange, silent, silent⟩) ::
        ([(.left, ⟨.now, silent, silent⟩), (.left, ⟨.lrange, silent, silent⟩)] ++
          (.left, ⟨.llen, silent, silent⟩) :: ([] ++ (.left, ⟨.unregister, silent,
            silent.after (zrem (StorageKeys.new "").processes "h-1-a")⟩) :: []))) _ _ _ :=
    h₁.append h₂
  exact unregistered_dead (H := sleeper) hrun rfl (by decide)
    (fun _ h => absurd h List.not_mem_nil)
    (fun e he => by simp at he) (fun _ h => absurd h List.not_mem_nil) rfl rfl

/-- The sample process pings while it is swept, and is unregistered in spite of its new heartbeat.
-/
theorem unregistered_alive : ∃ tr e tr' x x', ∃ w' : World Unit,
    Run (resurrect (.new "") 1000000000) (live sleeper "" "mail" 1) silent (tr ++ (.left, e) :: tr')
        x x' w' ∧
      heartbeat (.new "") "h-1-a" e.pre.store = some 10000 ∧
      stale 1000000000 e.pre.clock 10000 = false ∧
      heartbeat (.new "") "h-1-a" e.post.store = none := by
  have hping : Call.Returns (ping sleeper "") [⟨.now, silent, silent⟩,
      ⟨.ping, silent, silent.after (zadd sleeper.keys.processes 10000 sleeper.processId)⟩,
      ⟨.ping, silent.after (zadd sleeper.keys.processes 10000 sleeper.processId), awake⟩] () :=
    Call.Returns.connection.bind ((Call.Returns.now silent).bind
      (Call.Returns.bind (.pipe_cons silent rfl (.pipe_cons _ rfl .pipe_nil)) (.pure _)))
  have hlive : Prog.Trace (live sleeper "" "mail" 1) [⟨.now, silent, silent⟩,
      ⟨.ping, silent, silent.after (zadd sleeper.keys.processes 10000 sleeper.processId)⟩,
      ⟨.ping, silent.after (zadd sleeper.keys.processes 10000 sleeper.processId), awake⟩]
      (live sleeper "" "mail" 0) := by
    refine Prog.Trace.ask (i := { rounds := 0 }) ?_
    exact Prog.Trace.bind hping (.refl _)
  obtain ⟨x, hx⟩ := sleeper_dropped (w := awake) rfl rfl
  have h₁ := Run.of_left sleeper_swept (s := silent) ⟨rfl, rfl, rfl, rfl⟩
    (live sleeper "" "mail" 1 : Call Unit Unit)
  have h₂ := Run.of_right hlive (s := silent) ⟨rfl, rfl, rfl, rfl⟩
    (resurrectProcesses (.new "") ["h-1-a"])
  have h₃ := Run.of_left hx (s := awake) ⟨rfl, rfl, rfl, rfl⟩
    (live sleeper "" "mail" 0 : Call Unit Unit)
  exact ⟨[(.left, ⟨.scan, silent, silent⟩), (.left, ⟨.zrange, silent, silent⟩),
      (.left, ⟨.now, silent, silent⟩), (.right, ⟨.now, silent, silent⟩),
      (.right, ⟨.ping, silent, silent.after (zadd sleeper.keys.processes 10000 sleeper.processId)⟩),
      (.right, ⟨.ping, silent.after (zadd sleeper.keys.processes 10000 sleeper.processId), awake⟩),
      (.left, ⟨.lrange, awake, awake⟩), (.left, ⟨.llen, awake, awake⟩)],
    ⟨.unregister, awake, awake.after (zrem (StorageKeys.new "").processes "h-1-a")⟩, [], _, _, _,
    h₁.append (h₂.append h₃), rfl, by decide, rfl⟩

end Oxana
