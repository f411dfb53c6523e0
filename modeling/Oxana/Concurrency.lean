import Oxana.Alone
import Oxana.QueueSettings

/-!
# Changing the concurrency and nothing else

What `set_queue_concurrency` leaves when no other client writes. The concurrency the workers compute
is the one that was set, and queues that do not inherit from the queue are as before. The state is
kept exactly as `only_concurrency_iff` says: a sub-queue with nothing stored has the state of its
base queue, and loses it when a configuration of its own is stored.
-/

namespace Oxana

open Redis Interleave Call

variable {γ : Type} {K : StorageKeys} {q : QueueConfig} {queueKey : String}
  {concurrency : UInt64} {allowed : Choice → Prop} {w w' : World γ}

/-! ## What is stored then -/

/-- Reading a configuration returns what is stored for the queue, and changes nothing. -/
theorem solo_readQueueConfig {l : Request} {queue : String} {c : Option QueueRuntimeConfig}
    (h : Call.Solo allowed (readQueueConfig K l queue) w (.ok c) w') :
    w' = w ∧ storedConfigs K w.store queue = c := by
  obtain ⟨tr, htr, hch⟩ := Prog.Solo.trace h
  obtain ⟨e, rfl, -, hr⟩ := readQueueConfig_returns htr
  obtain ⟨rfl, rfl⟩ := hch
  exact ⟨hr.post, hr.stored⟩

/-- Writing a configuration changes what is stored for this queue, and for no other. -/
theorem solo_setQueueConfig {queue : String} {config : QueueRuntimeConfig}
    (h : Call.Solo allowed (setQueueConfig K queue config) w (.ok ()) w') (queue' : String) :
    storedConfigs K w'.store queue' =
      if queue' = queue then some config else storedConfigs K w.store queue' := by
  obtain ⟨tr, htr, hch⟩ := Prog.Solo.trace h
  obtain ⟨e, rfl, hw⟩ := setQueueConfig_returns htr
  obtain ⟨rfl, rfl⟩ := hch
  exact hw.stored queue'

/-- Reading the concurrency the queue inherits: it is that of its base queue, and nothing is
changed. -/
theorem solo_runtimeConcurrencyResetDefault {n : UInt64}
    (h : Call.Solo allowed (runtimeConcurrencyResetDefault K queueKey q) w (.ok n) w') :
    w' = w ∧ n = inheritedConcurrency (storedConfigs K w.store) queueKey q := by
  obtain ⟨tr, htr, hch⟩ := Prog.Solo.trace h
  obtain ⟨hidle, hn⟩ := runtimeConcurrencyResetDefault_returns htr
  obtain ⟨rfl, hpre⟩ := hch.idle fun e he => (hidle e he).1
  exact ⟨rfl, hn _ fun e he _ _ => by rw [hpre e he]⟩

/-- What is stored for a queue after its concurrency was set. -/
def concurrencySet (inherited concurrency : UInt64) (config : Option QueueRuntimeConfig) :
    Option QueueRuntimeConfig :=
  if concurrency = inherited ∧ config = none then none
  else some (withConcurrency inherited concurrency config)

/-- **What the call changes**: the text that is stored for the queue. Queues with a fixed
concurrency are refused. -/
theorem solo_setQueueConcurrency
    (h : Call.Solo allowed (setQueueConcurrency K queueKey q concurrency) w (.ok ()) w') :
    q.concurrency.isDynamic = true ∧ ∀ queue, storedConfigs K w'.store queue =
      if queue = queueKey then concurrencySet
        (inheritedConcurrency (storedConfigs K w.store) queueKey q) concurrency
        (storedConfigs K w.store queueKey)
      else storedConfigs K w.store queue := by
  obtain ⟨_, w₁, hvalid, hrest⟩ := solo_bind_ok h
  rw [validateDynamicConcurrency] at hvalid
  split at hvalid
  case isFalse => cases (solo_fail.mp hvalid).1
  case isTrue hdyn =>
  refine ⟨hdyn, ?_⟩
  obtain ⟨-, rfl⟩ := solo_pure.mp hvalid
  obtain ⟨n, w₂, hdefault, hset⟩ := solo_bind_ok hrest
  obtain ⟨rfl, rfl⟩ := solo_runtimeConcurrencyResetDefault hdefault
  obtain ⟨c, w₃, hread, hwrite⟩ := solo_bind_ok hset
  obtain ⟨rfl, rfl⟩ := solo_readQueueConfig hread
  rw [concurrencySet]
  split at hwrite
  · next hno =>
    obtain ⟨-, rfl⟩ := solo_pure.mp hwrite
    intro queue
    rw [if_pos hno]
    split
    · next hq => rw [hq, hno.2]
    · rfl
  · next hno =>
    rw [if_neg hno]
    exact solo_setQueueConfig hwrite

/-- Whether there is anything to write: the concurrency that is stored leads to the one that was
asked for. -/
theorem concurrencySet_getD (inherited : UInt64) (config : Option QueueRuntimeConfig) :
    ((concurrencySet inherited concurrency config).getD {}).concurrency.getD inherited =
      concurrency := by
  rw [concurrencySet]
  split
  · next hno => exact hno.1.symm
  · exact withConcurrency_getD config

/-! ## It succeeds -/

/-- The hash of the configurations has its type, and whatever is stored in it can be read as a
configuration. -/
structure ReadableConfigs (K : StorageKeys) (s : Store) : Prop where
  /-- the key has its type -/
  fits : s.Fits K.queueConfigs .hash
  /-- each text is a configuration -/
  decodes : ∀ queue text, (s.hash K.queueConfigs).lookup queue = some text →
    QueueRuntimeConfig.decode text ≠ none

/-- An empty store has only configurations that can be read. -/
theorem ReadableConfigs.empty : ReadableConfigs K Store.empty :=
  ⟨Store.fits_empty _, fun _ _ h => nomatch h⟩

/-- If all configurations can be read they still can be after one has been written, and writing it
succeeds. -/
theorem ReadableConfigs.write (h : ReadableConfigs K w.store) (queue : String) (config : QueueRuntimeConfig) :
    Call.Solo Reliable (setQueueConfig K queue config) w (.ok ())
        (w.after (hset K.queueConfigs queue config.encode)) ∧
      ReadableConfigs K (w.after (hset K.queueConfigs queue config.encode)).store := by
  have hset := hset_ok h.fits queue config.encode
  refine ⟨solo_connection_bind.mpr (solo_send_reliable.mpr ⟨by rw [hset]; rfl, rfl⟩), ?_, ?_⟩
  · rw [World.after, hset]
    exact Store.fits_put_self _
  · intro queue' text
    rw [World.after, hset, Store.hash_put_self]
    by_cases hq : queue' = queue
    · rw [hq, lookup_setField_self]
      rintro ⟨⟩
      rw [QueueRuntimeConfig.decode_encode]
      exact Option.some_ne_none _
    · rw [lookup_setField_ne hq]
      exact h.decodes queue' text

/-- If all configurations can be read, a read succeeds with what is stored. -/
theorem ReadableConfigs.read (h : ReadableConfigs K w.store) (l : Request) (queue : String) :
    Call.Solo Reliable (readQueueConfig K l queue) w
      (.ok (storedConfigs K w.store queue)) w := by
  refine solo_connection_bind.mpr (solo_send_bind.mpr (.inl
    ⟨_, congrArg Prod.fst (hget_ok h.fits queue), ?_⟩))
  rw [World.after_read (hget_snd ..), storedConfigs]
  cases htext : (w.store.hash K.queueConfigs).lookup queue with
  | none => exact solo_pure.mpr ⟨rfl, rfl⟩
  | some text =>
    cases hdec : QueueRuntimeConfig.decode text with
    | none => exact absurd hdec (h.decodes queue text htext)
    | some config =>
      rw [parsedConfig, hdec, Option.bind_some, hdec]
      exact solo_pure.mpr ⟨rfl, rfl⟩

/-- If all configurations can be read, setting the concurrency of a dynamic queue succeeds. -/
theorem ReadableConfigs.setQueueConcurrency (h : ReadableConfigs K w.store) (hdyn : q.concurrency.isDynamic = true)
    (queueKey : String) (concurrency : UInt64) : ∃ w', Call.Solo Reliable
      (Oxana.setQueueConcurrency K queueKey q concurrency) w (.ok ()) w' := by
  have hdefault : ∃ n, Call.Solo Reliable (runtimeConcurrencyResetDefault K queueKey q) w
      (.ok n) w := by
    rw [runtimeConcurrencyResetDefault]
    cases q.kind with
    | static key => exact ⟨_, solo_pure.mpr ⟨rfl, rfl⟩⟩
    | dynamic pre =>
      dsimp only
      by_cases hk : queueKey = pre
      · exact ⟨_, by
          rw [if_pos hk]
          exact solo_pure.mpr ⟨rfl, rfl⟩⟩
      · exact ⟨_, by
          rw [if_neg hk]
          exact solo_bind.mpr (.inl ⟨_, w, h.read .hgetBase pre, solo_pure.mpr ⟨rfl, rfl⟩⟩)⟩
  obtain ⟨n, hdefault⟩ := hdefault
  have hset : ∃ w', Call.Solo Reliable
      (if concurrency = n ∧ storedConfigs K w.store queueKey = none then pure ()
        else setQueueConfig K queueKey { (storedConfigs K w.store queueKey).getD {} with
          concurrency := if concurrency ≠ n then some concurrency else none }) w (.ok ()) w' := by
    split
    · exact ⟨w, solo_pure.mpr ⟨rfl, rfl⟩⟩
    · exact ⟨_, (h.write queueKey _).1⟩
  obtain ⟨w', hset⟩ := hset
  refine ⟨w', solo_bind.mpr (.inl ⟨(), w, ?_, solo_bind.mpr (.inl ⟨n, w, hdefault,
    solo_bind.mpr (.inl ⟨_, w, h.read .hget queueKey, hset⟩)⟩)⟩)⟩
  rw [validateDynamicConcurrency, if_pos hdyn]
  exact solo_pure.mpr ⟨rfl, rfl⟩

/-! ## What the workers go by -/

/-- A change of the stored configurations that the workers see as one of the concurrency of a
queue. -/
structure OnlyConcurrency (q : QueueConfig) (queueKey : String) (concurrency : UInt64)
    (before after : StoredConfigs) : Prop where
  /-- it is the new one -/
  concurrency : (q.workerConfig after queueKey).concurrency = some concurrency
  /-- jobs are processed if they were -/
  state : (q.workerConfig after queueKey).state = (q.workerConfig before queueKey).state
  /-- other queues are as before, unless it is their base queue -/
  others : ∀ (q' : QueueConfig) (queueKey' : String), queueKey' ≠ queueKey →
    q'.keyOrPrefix ≠ queueKey → q'.workerConfig after queueKey' = q'.workerConfig before queueKey'

/-- What is stored for a queue and for its base queue decides how its workers are configured. -/
theorem workerConfig_congr {before after : StoredConfigs} (hown : after queueKey = before queueKey)
    (hbase : after q.keyOrPrefix = before q.keyOrPrefix) :
    q.workerConfig after queueKey = q.workerConfig before queueKey := by
  simp only [QueueConfig.workerConfig, runtimeQueueConfig, queueConfigOrDefault, hown, hbase]

/-- The state of a queue after its concurrency was set. It is the state it had, or, when nothing was
stored for it and something is now, active. -/
theorem workerConfig_state_set {before after : StoredConfigs} {inherited : UInt64}
    (h : ∀ queue, after queue =
      if queue = queueKey then concurrencySet inherited concurrency (before queueKey)
      else before queue) :
    (q.workerConfig after queueKey).state =
      if before queueKey = none ∧ concurrency ≠ inherited then .active
      else (q.workerConfig before queueKey).state := by
  have hown : after queueKey = concurrencySet inherited concurrency (before queueKey) :=
    (h queueKey).trans (if_pos rfl)
  cases hbefore : before queueKey with
  | some config =>
    rw [hbefore, concurrencySet, if_neg (fun hno => nomatch hno.2)] at hown
    rw [if_neg (fun hno => nomatch hno.1), workerConfig_state hown, workerConfig_state hbefore]
    rfl
  | none =>
    rw [hbefore, concurrencySet] at hown
    by_cases hc : concurrency = inherited
    · rw [if_pos ⟨hc, rfl⟩] at hown
      have hsame (queue : String) : after queue = before queue := by
        by_cases hq : queue = queueKey
        · rw [hq, hown, hbefore]
        · rw [h, if_neg hq]
      rw [if_neg fun hno => hno.2 hc, workerConfig_congr (hsame _) (hsame _)]
    · rw [if_neg fun hno => hc hno.1] at hown
      rw [if_pos ⟨rfl, hc⟩, workerConfig_state hown]
      rfl

/-- **The concurrency and nothing else** is changed exactly if a configuration of the queue was
stored, the concurrency is the one it inherits, so that nothing is stored, or the queue was
active. -/
theorem only_concurrency_iff (hkey : ∀ key, q.kind = .static key → queueKey = key)
    (h : Call.Solo allowed (setQueueConcurrency K queueKey q concurrency) w (.ok ()) w') :
    OnlyConcurrency q queueKey concurrency (storedConfigs K w.store) (storedConfigs K w'.store) ↔
      storedConfigs K w.store queueKey ≠ none ∨
      concurrency = inheritedConcurrency (storedConfigs K w.store) queueKey q ∨
      (q.workerConfig (storedConfigs K w.store) queueKey).state = .active := by
  obtain ⟨hdyn, hstored⟩ := solo_setQueueConcurrency h
  have hstate := workerConfig_state_set (q := q) hstored
  constructor
  · intro honly
    by_contra! hno
    rw [honly.state, if_pos ⟨hno.1, hno.2.1⟩] at hstate
    exact hno.2.2 hstate
  · intro hcond
    refine ⟨?_, hstate.trans ?_, fun q' queueKey' hne hbase => ?_⟩
    · have hinherited : inheritedConcurrency (storedConfigs K w'.store) queueKey q =
          inheritedConcurrency (storedConfigs K w.store) queueKey q :=
        inheritedConcurrency_congr fun queue hne => (hstored queue).trans (if_neg hne)
      rw [workerConfig_concurrency hdyn hkey, hinherited, hstored queueKey, if_pos rfl,
        concurrencySet_getD]
    · split
      · next hno =>
        rcases hcond with hsome | hsame | hactive
        · exact absurd hno.1 hsome
        · exact absurd hsame hno.2
        · exact hactive.symm
      · rfl
    · exact workerConfig_congr ((hstored queueKey').trans (if_neg hne))
        ((hstored q'.keyOrPrefix).trans (if_neg hbase))

/-! ## A sub-queue -/

/-- A queue for each tenant, with a concurrency that can be changed. -/
def tenantQueue : QueueConfig := ⟨.dynamic "tenant", .dynamic 2⟩

/-- All instances of the queue are active, and only the concurrency of the one that was changed is
another. -/
theorem tenant_resized : ∃ w' : World Unit,
    Call.Solo Reliable (setQueueConcurrency (.new "") "tenant#a" tenantQueue 5)
      ⟨Store.empty, 0, ()⟩ (.ok ()) w' ∧
    (OnlyConcurrency tenantQueue "tenant#a" 5 (storedConfigs (.new "") Store.empty)
        (storedConfigs (.new "") w'.store) ↔
      storedConfigs (.new "") Store.empty "tenant#a" ≠ none ∨
      5 = inheritedConcurrency (storedConfigs (.new "") Store.empty) "tenant#a" tenantQueue ∨
      (tenantQueue.workerConfig (storedConfigs (.new "") Store.empty) "tenant#a").state =
        .active) := by
  have hempty : ReadableConfigs (.new "") (⟨Store.empty, 0, ()⟩ : World Unit).store := ReadableConfigs.empty
  obtain ⟨w', h⟩ := hempty.setQueueConcurrency
    (show tenantQueue.concurrency.isDynamic = true from rfl) "tenant#a" 5
  exact ⟨w', h, only_concurrency_iff (fun key hkey => by cases hkey) h⟩

/-- All instances of the queue are paused, and then the concurrency of one is changed, which sets
this one going again. -/
theorem tenant_resumed : ∃ w w' : World Unit,
    Call.Solo Reliable (setQueueConcurrency (.new "") "tenant#a" tenantQueue 5) w (.ok ()) w' ∧
    tenantQueue.workerConfig (storedConfigs (.new "") w.store) "tenant#a" = ⟨some 2, .paused⟩ ∧
    (tenantQueue.workerConfig (storedConfigs (.new "") w'.store) "tenant#a").state = .active ∧
    ¬OnlyConcurrency tenantQueue "tenant#a" 5 (storedConfigs (.new "") w.store)
      (storedConfigs (.new "") w'.store) := by
  have hempty : ReadableConfigs (.new "") (⟨Store.empty, 0, ()⟩ : World Unit).store := ReadableConfigs.empty
  obtain ⟨w, hwrite, hw⟩ : ∃ w : World Unit, Call.Solo Reliable
      (setQueueConfig (.new "") "tenant" ⟨none, .paused⟩) ⟨Store.empty, 0, ()⟩ (.ok ()) w ∧
      ReadableConfigs (.new "") w.store := ⟨_, hempty.write "tenant" ⟨none, .paused⟩⟩
  obtain ⟨w', h⟩ := hw.setQueueConcurrency (show tenantQueue.concurrency.isDynamic = true from rfl)
    "tenant#a" 5
  have hstored := solo_setQueueConfig hwrite
  have hown := (hstored "tenant#a").trans (if_neg (by decide))
  have hbase := (hstored "tenant").trans (if_pos rfl)
  have hbefore : tenantQueue.workerConfig (storedConfigs (.new "") w.store) "tenant#a" =
      ⟨some 2, .paused⟩ := by
    rw [QueueConfig.workerConfig, runtimeQueueConfig, if_neg (by decide), queueConfigOrDefault,
      hown, queueConfigOrDefault, show tenantQueue.keyOrPrefix = "tenant" from rfl, hbase]
    rfl
  have hafter := workerConfig_state_set (q := tenantQueue) (solo_setQueueConcurrency h).2
  have hinherited : inheritedConcurrency (storedConfigs (.new "") w.store) "tenant#a" tenantQueue =
      2 := by
    rw [inheritedConcurrency]
    simp only [tenantQueue, queueConfigOrDefault, hbase]
    rfl
  rw [if_pos ⟨hown, by rw [hinherited]; decide⟩] at hafter
  refine ⟨_, w', h, hbefore, hafter, fun honly => ?_⟩
  have hstate := honly.state
  rw [hafter, hbefore] at hstate
  cases hstate

end Oxana
