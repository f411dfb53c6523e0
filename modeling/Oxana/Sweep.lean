import Oxana.Processes
import Oxana.EnqueueChunk
import Oxana.Interleave.Pair

/-!
# Whom a sweep spares

A sweep takes claims from a process for one of two reasons: the heartbeat it
has read is too old, or it has seen a processing list and then found no record
of the process. Since a process registers before it claims and the records are
read after the lists, the second reason does not apply to a process that has
made no claim by then and was not registered either (`resurrect_spares`).
-/

namespace Oxana

open Redis Interleave Call

variable {γ : Type} {K : StorageKeys} {E : Request → World γ → Prop} {dead : List String}
  {p : String}

/-- The records of the processes: each with the time of its last heartbeat. -/
def records (K : StorageKeys) (s : Store) : List (String × Int) := s.zset K.processes

/-- The claims of the process that there were are still there, in the same order; there may be new
ones before them. -/
def Spares (K : StorageKeys) (p : String) (s s' : Store) : Prop :=
  s.list (K.processingQueue p) <:+ s'.list (K.processingQueue p)

theorem Spares.refl (s : Store) : Spares K p s s := List.suffix_refl _

theorem Spares.of_eq {s s' : Store}
    (h : s'.list (K.processingQueue p) = s.list (K.processingQueue p)) : Spares K p s s' :=
  ⟨[], h.symm⟩

/-- A write to another key spares the claims of the process. -/
theorem Spares.put {s : Store} {k : Key} (hk : K.processingQueue p ≠ k) (v : Value) :
    Spares K p s (s.put k v) :=
  .of_eq (Store.list_put_ne _ hk)

/-- Another process's claim goes to a ready list, which may be any list but the claims of this one.
-/
theorem resurrectClaim_spares {q : String} (hq : q ≠ p) (queue : Key) (id : JobId)
    (payload : String) (again : Bool) (s : Store) :
    Spares K p s (resurrectClaim K.jobs (K.processingQueue q) queue id payload again s).2 := by
  have hproc : K.processingQueue p ≠ K.processingQueue q :=
    fun h => hq (StorageKeys.processingQueue_injective h).symm
  have hjobs : K.processingQueue p ≠ K.jobs := (StorageKeys.processing_ne_fixed p).1
  rcases resurrectClaim_cases (s := s) queue
    (StorageKeys.processing_ne_fixed (K := K) q).1.symm id payload again with
    ⟨m, h⟩ | ⟨h, -⟩ | ⟨-, -, -, -, -, ⟨-, h⟩ | ⟨-, -, -, h⟩ | ⟨-, -, h⟩⟩
  · rw [h]
    exact .refl s
  · rw [h]
    exact .refl s
  · rw [h]
    exact .put hproc _
  · rw [h, Spares, Store.list_put_ne _ hproc]
    by_cases hk : K.processingQueue p = queue
    · rw [← hk, Store.list_put_self]
      exact List.suffix_cons ..
    · exact Spares.put hk _
  · rw [h, acknowledge, Spares, Store.list_put_ne _ hproc]
    exact Spares.put hjobs _

/-- Unregistering another process spares the claims of this one. -/
theorem unregister_spares {q : String} {x : Script Unit} (hx : x ∈ unregister K q) (s : Store) :
    Spares K p s (x s).2 := by
  have hne := StorageKeys.processing_ne_records (K := K) p
  simp only [unregister, List.mem_cons, List.not_mem_nil, or_false] at hx
  rcases hx with rfl | rfl
  · simp only [zrem, onKind]
    split
    · exact .put hne.1 _
    · exact .refl s
  · simp only [hdel, onKind]
    split
    · exact .put hne.2 _
    · exact .refl s

/-- The steps of a sweep spare the claims of whoever is not swept. -/
theorem SweepStep.spares {l : Request} {w w' : World γ} (h : SweepStep K dead l w w')
    (hp : p ∉ dead) : Spares K p w.store w'.store := by
  cases h with
  | reads => exact .refl _
  | @resurrects _ q hq queue id payload again =>
    have hne : q ≠ p := fun h => hp (h ▸ hq)
    exact resurrectClaim_spares hne _ _ _ _ _
  | unregisters _ hx => exact unregister_spares hx _

/-! ## Who is swept -/

/-- The process has made no claim yet: no key at all ends with its name. -/
def Unclaimed (p : String) (s : Store) : Prop := ∀ k, (s.get k).isSome → lastSegment k ≠ p

/-- No processing list names the process: no key that a sweep's scan asks for ends with its name. -/
def Unlisted (K : StorageKeys) (p : String) (s : Store) : Prop := ∀ k, (s.get k).isSome →
  globMatch (K.processingQueuePrefix ++ ":*") k = true → lastSegment k ≠ p

/-- A process without claims is without claims after a write to a key that is not its own. -/
theorem Unclaimed.put {s : Store} {k : Key} (h : Unclaimed p s) (hk : lastSegment k ≠ p)
    (v : Value) : Unclaimed p (s.put k v) := by
  intro k' hsome
  by_cases hkk : k' = k
  · exact hkk ▸ hk
  · rw [Store.get_put_ne _ hkk] at hsome
    exact h k' hsome

/-- The process has a record, and at this time no record of it is older than the threshold allows.
-/
def Heard (K : StorageKeys) (threshold : Nat) (p : String) (s : Store) (t : Int) : Prop :=
  p ∈ (records K s).map (·.1) ∧ ∀ score, (p, score) ∈ records K s → stale threshold t score = false

/-- A process whose record is recent is not taken for dead. -/
theorem not_dead_of_heard {threshold : Nat} {s : Store} {t : Int} (h : Heard K threshold p s t)
    (queues : List Key) : p ∉ deadAmong threshold t queues (records K s) := by
  intro hmem
  rcases List.mem_append.mp hmem with hmem | hmem
  · obtain ⟨r, hr, rfl⟩ := List.mem_map.mp hmem
    obtain ⟨hr, hstale⟩ := List.mem_filter.mp hr
    rw [h.2 r.2 hr] at hstale
    cases hstale
  · obtain ⟨-, hnot⟩ := List.mem_filter.mp hmem
    exact of_decide_eq_true hnot h.1

/-- A process that has neither a record nor a key that was scanned is not taken for dead. -/
theorem not_dead_of_unseen {threshold : Nat} {s : Store} {t : Int} {queues : List Key}
    (h : p ∉ (records K s).map (·.1)) (hqueues : ∀ k ∈ queues, lastSegment k ≠ p) :
    p ∉ deadAmong threshold t queues (records K s) := by
  intro hmem
  rcases List.mem_append.mp hmem with hmem | hmem
  · obtain ⟨r, hr, rfl⟩ := List.mem_map.mp hmem
    exact h (List.mem_map_of_mem (List.mem_filter.mp hr).1)
  · obtain ⟨hmem, -⟩ := List.mem_filter.mp hmem
    obtain ⟨k, hk, rfl⟩ := List.mem_map.mp hmem
    exact hqueues k hk rfl

/-- Every key that a scan returns was there when its page was read, and matches the pattern. -/
theorem scanKeys_found {G : Request → World γ → World γ → Prop} (hG : ∀ w, E .scan w → G .scan w w)
    (pattern : String) (n : Nat) :
    Call.Always E G (fun keys => ∀ k ∈ keys, ∃ w, E .scan w ∧ (w.store.get k).isSome ∧
      globMatch pattern k = true) (scanKeys pattern n : Call γ (List Key)) := by
  induction n with
  | zero => exact .hang
  | succ n ih =>
    refine .ask fun c => (Always.read (Q := fun keys => ∀ k ∈ keys, ∃ w : World γ, E .scan w ∧
      (w.store.get k).isSome ∧ globMatch pattern k = true) (fun _ => rfl) hG ?_).bind
        fun keys hkeys => ?_
    · rintro w keys hw hkeys k hk
      obtain rfl := Except.ok.inj hkeys
      exact ⟨w, hw, of_decide_eq_true (List.mem_filter.mp hk).2⟩
    · split
      · exact .pure hkeys
      · refine ih.bind fun more hmore => .pure fun k hk => ?_
        exact (List.mem_append.mp hk).elim (hkeys k) (hmore k)

/-- Where the list of dead processes comes from: the keys that were scanned, the records and the
clock. -/
theorem deadProcessIds_found (threshold : Nat) :
    Call.Always E (fun _ w w' => w' = w) (fun dead => ∃ w w' queues,
      E .zrange w ∧ E .now w' ∧ (∀ k ∈ queues, ∃ w, E .scan w ∧ (w.store.get k).isSome ∧
          globMatch (K.processingQueuePrefix ++ ":*") k = true) ∧
        dead = deadAmong threshold w'.clock queues (records K w.store))
      (deadProcessIds K threshold : Call γ (List String)) := by
  refine .ask fun c => (scanKeys_found (fun _ _ => rfl) _ _).bind fun queues hqueues => ?_
  refine (Always.read (Q := fun rs => ∃ w : World γ, E .zrange w ∧ rs = records K w.store)
    (fun s => zrangeWithScores_snd ..) (fun _ _ => rfl) ?_).bind fun rs hrs => ?_
  · intro w rs hw hrs
    obtain ⟨-, h⟩ := onKind_inv hrs
    exact ⟨w, hw, h.symm⟩
  · obtain ⟨w, hw, rfl⟩ := hrs
    refine (Always.now (Q := fun t => ∃ w : World γ, E .now w ∧ t = w.clock) (fun _ _ => rfl)
      fun w hw => ⟨w, hw, rfl⟩).bind fun t ht => ?_
    obtain ⟨w', hw', rfl⟩ := ht
    exact .pure ⟨w, w', _, hw, hw', fun k hk => hqueues k (List.mem_dedup.mp hk), rfl⟩

/-- **A sweep spares live processes**, whatever else happens meanwhile: no claim
of a process is moved or dropped by a sweep that finds its record, and finds it
recent enough, nor by one that finds no record when the process has not made a
claim before. -/
theorem resurrect_spares {threshold : Nat} {tr : List (Prog.Event Request (World γ))}
    {x : Prog Request (World γ) Choice (Except OxanaError Unit)}
    (h : Prog.Trace (resurrect K threshold : Call γ Unit) tr x)
    (hlive : ∀ read ∈ tr, read.label = .zrange →
      (∀ clock ∈ tr, clock.label = .now →
        Heard K threshold p read.pre.store clock.pre.clock) ∨
      (p ∉ (records K read.pre.store).map (·.1) ∧
        ∀ e ∈ tr, e.label = .scan → Unlisted K p e.pre.store)) :
    ∀ e ∈ tr, Spares K p e.pre.store e.post.store := by
  let E : Request → World γ → Prop := fun l w => ∃ e ∈ tr, e.label = l ∧ e.pre = w
  have hfind : Call.Always E (fun _ w w' => Spares K p w.store w'.store) _
      (deadProcessIds K threshold) := (deadProcessIds_found threshold).weaken (fun _ _ h => h)
    fun _ w w' _ hsame => hsame ▸ .refl _
  have hspares : Call.Always E (fun _ w w' => Spares K p w.store w'.store) (fun _ => True)
      (resurrect K threshold) := by
    refine Always.connection.bind fun _ _ => hfind.bind ?_
    rintro dead ⟨w, w', queues, ⟨read, hread, hlabel, rfl⟩, ⟨clock, hclock, hlabel', rfl⟩,
      hqueues, rfl⟩
    have hp : p ∉ deadAmong threshold clock.pre.clock queues (records K read.pre.store) := by
      rcases hlive read hread hlabel with hheard | ⟨hnone, hunlisted⟩
      · exact not_dead_of_heard (hheard clock hclock hlabel') queues
      · refine not_dead_of_unseen hnone fun k hk => ?_
        obtain ⟨_, ⟨e, he, hscan, rfl⟩, hsome, hmatch⟩ := hqueues k hk
        exact hunlisted e he hscan k hsome hmatch
    exact (resurrectProcesses_steps fun _ hq => hq).weaken (fun _ _ h => h)
      fun _ _ _ _ hstep => hstep.spares hp
  exact (Always.trace hspares h fun e he => ⟨e, he, rfl, rfl⟩).1

/-! ## A process that fell silent before its first claim -/

/-- The world in which job `b` is ready. -/
def ready : World Unit :=
  ⟨(Store.empty.put (StorageKeys.new "").jobs (.hash [("b", (welcome "b").encode)])).put
    ((StorageKeys.new "").namespaceQueue "mail") (.list ["b"]), 0, ()⟩

/-- The process of the sample. -/
def sleeper : Handle := ⟨.new "", "h-1-a", none⟩

/-- The process registers: its record is as new as can be. -/
def registered : World Unit :=
  (ready.after (zadd sleeper.keys.processes 0 sleeper.processId)).after
    (hset sleeper.keys.processesData sleeper.processId "")

/-- Ten seconds have passed in which nothing has been heard of the process. -/
def silent : World Unit := { registered with clock := 10000000 }

/-- The world in which the silent process has claimed a job. -/
def busy : World Unit :=
  silent.after (lmove (sleeper.keys.namespaceQueue "mail") sleeper.currentProcessingQueue)

/-- A sweep takes the claim from the silent process and gives the job back. -/
def robbed : World Unit :=
  busy.after (resurrectClaim sleeper.keys.jobs (sleeper.keys.processingQueue "h-1-a")
    (sleeper.keys.namespaceQueue "mail") "b" (welcome "b").encode true)

theorem sleeper_registers : Prog.Trace (live sleeper "" "mail" 3)
    [⟨.now, ready, ready⟩,
      ⟨.ping, ready, ready.after (zadd sleeper.keys.processes 0 sleeper.processId)⟩,
      ⟨.ping, ready.after (zadd sleeper.keys.processes 0 sleeper.processId), registered⟩,
      ⟨.wait, registered, silent⟩] (live sleeper "" "mail" 1) := by
  have hping : Call.Returns (ping sleeper "") [⟨.now, ready, ready⟩,
      ⟨.ping, ready, ready.after (zadd sleeper.keys.processes 0 sleeper.processId)⟩,
      ⟨.ping, ready.after (zadd sleeper.keys.processes 0 sleeper.processId), registered⟩] () :=
    Call.Returns.connection.bind ((Call.Returns.now ready).bind
      (Call.Returns.bind (.pipe_cons ready rfl (.pipe_cons _ rfl .pipe_nil)) (.pure _)))
  refine Prog.Trace.ask (i := { rounds := 0 }) ?_
  refine Prog.Trace.bind hping ?_
  refine Prog.Trace.ask (i := { rounds := 2, delay := 10000000 }) ?_
  exact Prog.Trace.act (.refl _)

theorem sleeper_claims : Prog.Trace (live sleeper "" "mail" 1) [⟨.lmove, silent, busy⟩]
    (live sleeper "" "mail" 0 : Call Unit Unit) := by
  have hclaim : Call.Returns (dequeue sleeper "mail") [⟨.lmove, silent, busy⟩] (some "b") :=
    Call.Returns.connection.bind (.send silent rfl)
  refine Prog.Trace.ask (i := { rounds := 1 }) ?_
  exact Prog.Trace.bind hclaim (.refl _)

theorem silent_unclaimed : Unclaimed "h-1-a" silent.store := by
  have hempty : Unclaimed "h-1-a" Store.empty := fun _ h => nomatch h
  have hready := (hempty.put (k := (StorageKeys.new "").jobs) (by decide)
    (.hash [("b", (welcome "b").encode)])).put (k := (StorageKeys.new "").namespaceQueue "mail")
    (by decide) (.list ["b"])
  exact (hready.put (k := (StorageKeys.new "").processes) (by decide)
    (.zset [("h-1-a", 0)])).put (k := (StorageKeys.new "").processesData) (by decide)
    (.hash [("h-1-a", "")])

/-- A sweep that comes while the heartbeat of the process is recent does not take it for dead, and
its claim is where it was. -/
theorem registered_spared : ∃ x, Prog.Trace (resurrect (.new "") 1000000000 : Call Unit Unit)
    [⟨.scan, registered, registered⟩, ⟨.zrange, registered, registered⟩,
      ⟨.now, registered, registered⟩] x ∧
    ∀ e ∈ ([⟨.scan, registered, registered⟩, ⟨.zrange, registered, registered⟩,
      ⟨.now, registered, registered⟩] : List (Prog.Event Request (World Unit))),
      Spares (.new "") "h-1-a" e.pre.store e.post.store := by
  have hscan : Call.Returns (scanKeys ((StorageKeys.new "").processingQueuePrefix ++ ":*") 1)
      [⟨.scan, registered, registered⟩] [] :=
    .ask {} ((Call.Returns.send registered rfl).bind (.pure _))
  have hread : Call.Returns (send .zrange (zrangeWithScores (StorageKeys.new "").processes))
      [⟨.zrange, registered, registered⟩] [("h-1-a", 0)] := Call.Returns.send registered rfl
  have hin : Call.Returns (deadProcessIdsIn (.new "") [] 1000000000)
      [⟨.zrange, registered, registered⟩, ⟨.now, registered, registered⟩] [] :=
    hread.bind ((Call.Returns.now registered).bind (.pure _))
  have hfind : Call.Returns (deadProcessIds (.new "") 1000000000)
      [⟨.scan, registered, registered⟩, ⟨.zrange, registered, registered⟩,
        ⟨.now, registered, registered⟩] [] := .ask {} (hscan.bind hin)
  have htrace : Prog.Trace (resurrect (.new "") 1000000000 : Call Unit Unit)
      [⟨.scan, registered, registered⟩, ⟨.zrange, registered, registered⟩,
        ⟨.now, registered, registered⟩] (.ret (.ok ())) :=
    Prog.Trace.bind Call.Returns.connection (Prog.Trace.bind hfind (.refl _))
  refine ⟨_, htrace, resurrect_spares htrace fun read hmem _ => .inl fun clock hclock _ => ?_⟩
  have hheard : Heard (.new "") 1000000000 "h-1-a" registered.store registered.clock := by
    refine ⟨by decide, fun score hscore => ?_⟩
    have hrecords : records (.new "") registered.store = [("h-1-a", 0)] := rfl
    rw [hrecords] at hscore
    obtain ⟨-, rfl⟩ := Prod.mk.inj (List.mem_singleton.mp hscore)
    decide
  have hpre : ∀ e ∈ ([⟨.scan, registered, registered⟩, ⟨.zrange, registered, registered⟩,
      ⟨.now, registered, registered⟩] : List (Prog.Event Request (World Unit))),
      e.pre = registered := by
    simp
  rw [hpre read hmem, hpre clock hclock]
  exact hheard

theorem sleeper_found : Call.Returns (deadProcessIds (.new "") 1000000000)
    [⟨.scan, silent, silent⟩, ⟨.zrange, silent, silent⟩, ⟨.now, silent, silent⟩] ["h-1-a"] := by
  have hscan : Call.Returns (scanKeys ((StorageKeys.new "").processingQueuePrefix ++ ":*") 1)
      [⟨.scan, silent, silent⟩] [] := .ask {} ((Call.Returns.send silent rfl).bind (.pure _))
  have hread : Call.Returns (send .zrange (zrangeWithScores (StorageKeys.new "").processes))
      [⟨.zrange, silent, silent⟩] [("h-1-a", 0)] := Call.Returns.send silent rfl
  have hin : Call.Returns (deadProcessIdsIn (.new "") [] 1000000000)
      [⟨.zrange, silent, silent⟩, ⟨.now, silent, silent⟩] ["h-1-a"] :=
    hread.bind ((Call.Returns.now silent).bind (.pure _))
  exact .ask {} (hscan.bind hin)

theorem robbed_claim : (resurrectClaim sleeper.keys.jobs (sleeper.keys.processingQueue "h-1-a")
    (sleeper.keys.namespaceQueue "mail") "b" (welcome "b").encode true busy.store).1.toOption =
      some 1 ∧ robbed.store.list (sleeper.keys.processingQueue "h-1-a") = [] := by
  decide +kernel

theorem sleeper_robbed : ∃ x, Prog.Trace (resurrectProcesses (.new "") ["h-1-a"])
    [⟨.lrange, busy, busy⟩, ⟨.hget, busy, busy⟩, ⟨.resurrect, busy, robbed⟩] x := by
  have hids : Call.Returns (send .lrange (lrange ((StorageKeys.new "").processingQueue "h-1-a")))
      [⟨.lrange, busy, busy⟩] ["b"] := Call.Returns.send busy rfl
  have hget : Call.Returns (send .hget (hget (StorageKeys.new "").jobs "b"))
      [⟨.hget, busy, busy⟩] (some (welcome "b").encode) := Call.Returns.send busy rfl
  have hsnap : Call.Returns (transitionSnapshot (.new "") "b") [⟨.hget, busy, busy⟩]
      (some ((welcome "b").encode, (welcome "b").normalize)) :=
    hget.bind ((Call.Returns.decoded (decode_encode _)).bind (.pure _))
  have hone : Call.Returns (resurrectOne (.new "") "h-1-a" "b")
      [⟨.hget, busy, busy⟩, ⟨.resurrect, busy, robbed⟩] 1 :=
    hsnap.catching (.send busy (ok_of_toOption robbed_claim.1))
  have hjobs : Call.Returns (resurrectJobs (.new "") "h-1-a" ["b"])
      [⟨.hget, busy, busy⟩, ⟨.resurrect, busy, robbed⟩] 1 :=
    hone.bind (Call.Returns.pure_bind (a := 0) (.pure _))
  have hprocess : ∃ x, Prog.Trace (resurrectProcess (.new "") "h-1-a")
      [⟨.lrange, busy, busy⟩, ⟨.hget, busy, busy⟩, ⟨.resurrect, busy, robbed⟩] x :=
    ⟨_, Prog.Trace.bind hids (Prog.Trace.bind hjobs (.refl _))⟩
  obtain ⟨x, hx⟩ := hprocess
  exact ⟨_, hx.bind_left _⟩

/-- The process has made no claim when its record is read, and then loses its
first claim to the sweep. -/
theorem resurrect_takes_first_claim : ∃ tr x x', ∃ w' : World Unit,
    Run (resurrect (.new "") 1000000000) (live sleeper "" "mail" 3) ready tr x x' w' ∧
      (∀ e, (.left, e) ∈ tr → e.label = .scan ∨ e.label = .zrange →
        Unclaimed "h-1-a" e.pre.store) ∧
      ∃ e, (.left, e) ∈ tr ∧ ¬ Spares (.new "") "h-1-a" e.pre.store e.post.store := by
  obtain ⟨x, hx⟩ := sleeper_robbed
  have hsweep : Prog.Trace (resurrect (.new "") 1000000000)
      [⟨.scan, silent, silent⟩, ⟨.zrange, silent, silent⟩, ⟨.now, silent, silent⟩]
      (resurrectProcesses (.new "") ["h-1-a"]) :=
    Prog.Trace.bind Call.Returns.connection (Prog.Trace.bind sleeper_found (.refl _))
  have h₁ := Run.of_right sleeper_registers (s := ready) ⟨rfl, rfl, rfl, rfl, rfl⟩
    (resurrect (.new "") 1000000000)
  have h₂ := Run.of_left hsweep (s := silent) ⟨rfl, rfl, rfl, rfl⟩
    (live sleeper "" "mail" 1)
  have h₃ := Run.of_right sleeper_claims (s := silent) ⟨rfl, rfl⟩
    (resurrectProcesses (.new "") ["h-1-a"])
  have h₄ := Run.of_left hx (s := busy) ⟨rfl, rfl, rfl, rfl⟩ (live sleeper "" "mail" 0)
  refine ⟨_, _, _, _, h₁.append (h₂.append (h₃.append h₄)), ?_, ⟨.resurrect, busy, robbed⟩, ?_, ?_⟩
  · intro e he hl
    have hpre : e.pre = silent := by
      simp only [List.map_cons, List.map_nil, List.mem_append, List.mem_cons, Prod.mk.injEq,
        reduceCtorEq, false_and, true_and, List.not_mem_nil, or_false, false_or] at he
      rcases he with (rfl | rfl | rfl) | rfl | rfl | rfl
      all_goals first | rfl | exact absurd hl (by decide)
    rw [hpre]
    exact silent_unclaimed
  · simp
  · intro hspares
    have hlist : busy.store.list ((StorageKeys.new "").processingQueue "h-1-a") = ["b"] := rfl
    rw [Spares, hlist] at hspares
    exact List.cons_ne_nil _ _ (List.suffix_nil.mp (robbed_claim.2 ▸ hspares))

end Oxana
