import Mathlib.Data.List.Nodup
import Oxana.QueueConfig

/-!
# Two views of a queue's configuration

The workers of a queue compute its configuration from the registration of the
queue and what is stored for it and for its base queue. The dashboard knows the
registrations only from the catalog, finds the base queue by cutting the name
at the first `#`, and looks up all stored configurations at once. Both arrive
at the same configuration (`dashboard_agrees`).
-/

namespace Oxana

/-- The configurations that are stored for the queues. -/
abbrev StoredConfigs := String → Option QueueRuntimeConfig

/-! ## The workers -/

/-- `queue_config_or_default`: what is stored for a queue, with the default where it says nothing.
-/
def queueConfigOrDefault (stored : StoredConfigs) (queue : String)
    (defaultConfig : QueueRuntimeConfig) : QueueRuntimeConfig :=
  ((stored queue).map (·.withDefaults defaultConfig)).getD defaultConfig

/-- `runtime_queue_config`: what a queue goes by, from what is stored for it and for its base. -/
def runtimeQueueConfig (stored : StoredConfigs) (queueKey baseQueueKey : String)
    (defaultRuntimeConfig : QueueRuntimeConfig) : QueueRuntimeConfig :=
  if queueKey = baseQueueKey then queueConfigOrDefault stored queueKey defaultRuntimeConfig
  else queueConfigOrDefault stored queueKey
    (queueConfigOrDefault stored baseQueueKey defaultRuntimeConfig)

/-- What the workers of a registered queue go by, as in `run_queue_watcher`. -/
def QueueConfig.workerConfig (q : QueueConfig) (stored : StoredConfigs) (queueKey : String) :
    QueueRuntimeConfig :=
  q.concurrency.effectiveRuntimeConfig
    (runtimeQueueConfig stored queueKey q.keyOrPrefix q.concurrency.storedRuntimeDefault)

/-! ## The dashboard -/

/-- `QueueInfo`: a queue as the dashboard knows it. -/
structure QueueInfo where
  /-- the key, or the prefix of a dynamic queue -/
  key : String
  /-- whether there are sub-queues -/
  dynamic : Bool
  /-- the registered concurrency -/
  concurrency : UInt64
  /-- whether it can be changed -/
  dynamicConcurrency : Bool
  deriving DecidableEq, Repr

/-- A queue as the catalog has it, from its configuration. -/
def QueueConfig.info (q : QueueConfig) : QueueInfo where
  key := q.keyOrPrefix
  dynamic := match q.kind with
    | .static _ => false
    | .dynamic _ => true
  concurrency := q.concurrency.defaultConcurrency
  dynamicConcurrency := q.concurrency.isDynamic

/-- The queues of `catalog_with_queues`, sorted by key. -/
def catalog (queues : List QueueConfig) : List QueueInfo :=
  (queues.map (·.info)).mergeSort fun a b => decide (a.key ≤ b.key)

/-- `base_queue_key`: what stands before the mark of an instance. -/
def baseQueueKey (queueKey : String) : String :=
  String.ofList (queueKey.toList.takeWhile (· ≠ '#'))

variable (queues : List QueueInfo)

/-- The entry of the catalog for a queue, or for the base of an instance. -/
def catalogEntry (queueKey : String) : Option QueueInfo :=
  queues.find? fun queue => queue.key = baseQueueKey queueKey

/-- `queue_uses_dynamic_concurrency`: whether the entry says that it can be changed. -/
def queueUsesDynamicConcurrency (queueKey : String) : Bool :=
  (catalogEntry queues queueKey).any (·.dynamicConcurrency)

/-- `default_queue_runtime_config`: what the entry says, or the default if there is none. -/
def defaultQueueRuntimeConfig (queueKey : String) : QueueRuntimeConfig :=
  ((catalogEntry queues queueKey).map fun queue => QueueRuntimeConfig.new queue.concurrency).getD
    (.new 1)

/-- `merge_queue_runtime_config`: what is stored, made complete by the default. -/
def mergeQueueRuntimeConfig (queueKey : String) (config defaultConfig : QueueRuntimeConfig) :
    QueueRuntimeConfig :=
  (if !queueUsesDynamicConcurrency queues queueKey then { config with concurrency := none }
    else config).withDefaults defaultConfig

/-- `queue_runtime_config_from_map`: what the dashboard shows for a queue. -/
def queueRuntimeConfigFromMap (stored : StoredConfigs) (queueKey : String) : QueueRuntimeConfig :=
  let baseKey := baseQueueKey queueKey
  let baseDefault := defaultQueueRuntimeConfig queues baseKey
  let baseConfig :=
    ((stored baseKey).map fun c => mergeQueueRuntimeConfig queues baseKey c baseDefault).getD
      baseDefault
  if queueKey = baseKey then baseConfig
  else ((stored queueKey).map fun c => mergeQueueRuntimeConfig queues queueKey c baseConfig).getD
    baseConfig

/-! ## Names -/

/-- The queue of the configuration serves the key, as itself or as one of its instances. -/
def QueueConfig.Serves (q : QueueConfig) (queueKey : String) : Prop :=
  match q.kind with
  | .static key => queueKey = key
  | .dynamic pre => ∃ suffix, queueKey = pre ++ "#" ++ suffix

variable {q : QueueConfig} {queueKey : String}

/-- A name without `#` is its own base. -/
theorem baseQueueKey_of_plain (h : '#' ∉ queueKey.toList) : baseQueueKey queueKey = queueKey := by
  have htake : queueKey.toList.takeWhile (· ≠ '#') = queueKey.toList := by
    refine List.takeWhile_eq_self_iff.mpr fun c hc => ?_
    have hne : c ≠ '#' := fun hc' => h (hc' ▸ hc)
    simpa using hne
  rw [baseQueueKey, htake, String.ofList_toList]

/-- The base of a sub-queue is its prefix, the name before the first `#`. -/
theorem baseQueueKey_of_suffix {pre : String} (h : '#' ∉ pre.toList) (suffix : String) :
    baseQueueKey (pre ++ "#" ++ suffix) = pre := by
  have hpre : ∀ c ∈ pre.toList, decide (c ≠ '#') = true := by
    intro c hc
    have hne : c ≠ '#' := fun hc' => h (hc' ▸ hc)
    simpa using hne
  have htake : (pre ++ "#" ++ suffix).toList.takeWhile (· ≠ '#') = pre.toList := by
    rw [String.toList_append, String.toList_append, List.append_assoc,
      List.takeWhile_append_of_pos hpre]
    simp
  rw [baseQueueKey, htake, String.ofList_toList]

/-- A key that is served by a queue is the key of the queue, or has that as its base. -/
theorem QueueConfig.Serves.base (h : q.Serves queueKey) (hq : '#' ∉ q.keyOrPrefix.toList) :
    baseQueueKey queueKey = q.keyOrPrefix := by
  obtain ⟨kind, concurrency⟩ := q
  cases kind with
  | static key =>
    obtain rfl : queueKey = key := h
    exact baseQueueKey_of_plain hq
  | dynamic pre =>
    obtain ⟨suffix, rfl⟩ := h
    exact baseQueueKey_of_suffix hq suffix

/-! ## Agreement -/

variable {queues : List QueueConfig}

/-- A queue of the catalog is found under the base of every key that it serves. -/
theorem catalogEntry_of_mem (hnd : (queues.map (·.keyOrPrefix)).Nodup) (hq : q ∈ queues)
    (hbase : baseQueueKey queueKey = q.keyOrPrefix) :
    catalogEntry (catalog queues) queueKey = some q.info := by
  have hmem : q.info ∈ catalog queues :=
    List.mem_mergeSort.mpr (List.mem_map.mpr ⟨q, hq, rfl⟩)
  rcases hfind : catalogEntry (catalog queues) queueKey with _ | i
  · have hno := List.find?_eq_none.mp hfind q.info hmem
    exact absurd hbase.symm fun hkey => hno (decide_eq_true hkey)
  · have hi := List.mem_mergeSort.mp (List.mem_of_find?_eq_some hfind)
    obtain ⟨q', hq', rfl⟩ := List.mem_map.mp hi
    have hkey : q'.keyOrPrefix = q.keyOrPrefix := by
      have := List.find?_some hfind
      exact (of_decide_eq_true this).trans hbase
    rw [List.inj_on_of_nodup_map hnd hq' hq hkey]

/-- What the dashboard makes of a stored configuration of the queue. -/
def QueueConfig.merge (q : QueueConfig) (config defaultConfig : QueueRuntimeConfig) :
    QueueRuntimeConfig :=
  (if !q.concurrency.isDynamic then { config with concurrency := none }
    else config).withDefaults defaultConfig

/-- The dashboard's configuration of a key, with the catalog's entry of the queue that serves it. -/
theorem queueRuntimeConfigFromMap_eq {stored : StoredConfigs}
    (hnd : (queues.map (·.keyOrPrefix)).Nodup) (hq : q ∈ queues)
    (hplain : '#' ∉ q.keyOrPrefix.toList) (h : q.Serves queueKey) :
    queueRuntimeConfigFromMap (catalog queues) stored queueKey =
      let baseDefault := QueueRuntimeConfig.new q.concurrency.defaultConcurrency
      let baseConfig := ((stored q.keyOrPrefix).map (q.merge · baseDefault)).getD baseDefault
      if queueKey = q.keyOrPrefix then baseConfig
      else ((stored queueKey).map (q.merge · baseConfig)).getD baseConfig := by
  have hkey := catalogEntry_of_mem hnd hq (h.base hplain)
  have hbase := catalogEntry_of_mem hnd hq (baseQueueKey_of_plain hplain)
  simp only [queueRuntimeConfigFromMap, mergeQueueRuntimeConfig, queueUsesDynamicConcurrency,
    defaultQueueRuntimeConfig, h.base hplain, hkey, hbase]
  rfl

/-- The defaults of the dashboard and of the workers agree. -/
theorem effective_default (q : QueueConfig) :
    q.concurrency.effectiveRuntimeConfig q.concurrency.storedRuntimeDefault =
      .new q.concurrency.defaultConcurrency := by
  obtain ⟨kind, concurrency⟩ := q
  cases concurrency with
  | fixed n => rfl
  | dynamic n => rfl

/-- One level of inheritance: if the two sides agree on what is inherited, they
agree on what is made of a stored configuration. -/
theorem effective_withDefaults {inherited shown : QueueRuntimeConfig}
    (h : q.concurrency.effectiveRuntimeConfig inherited = shown) (config : QueueRuntimeConfig) :
    q.concurrency.effectiveRuntimeConfig (config.withDefaults inherited) =
      q.merge config shown := by
  obtain ⟨kind, concurrency⟩ := q
  subst h
  cases concurrency with
  | fixed n => rfl
  | dynamic n =>
    obtain ⟨own, state⟩ := config
    cases own with
    | none => rfl
    | some m => rfl

/-- If the two sides agree on what is inherited, they agree on what comes of a stored configuration.
-/
theorem effective_stored (stored : StoredConfigs) {inherited shown : QueueRuntimeConfig}
    (h : q.concurrency.effectiveRuntimeConfig inherited = shown) (queue : String) :
    q.concurrency.effectiveRuntimeConfig (queueConfigOrDefault stored queue inherited) =
      ((stored queue).map (q.merge · shown)).getD shown := by
  rw [queueConfigOrDefault]
  cases stored queue with
  | none => exact h
  | some config => exact effective_withDefaults h config

/-- **The dashboard and the workers agree** on the configuration of every key
that a registered queue serves, whatever is stored for it and its base queue. -/
theorem dashboard_agrees (stored : StoredConfigs) (hnd : (queues.map (·.keyOrPrefix)).Nodup)
    (hplain : ∀ q ∈ queues, '#' ∉ q.keyOrPrefix.toList) (hq : q ∈ queues)
    (h : q.Serves queueKey) :
    queueRuntimeConfigFromMap (catalog queues) stored queueKey =
      q.workerConfig stored queueKey := by
  have hbase := effective_stored stored (effective_default q) q.keyOrPrefix
  rw [queueRuntimeConfigFromMap_eq hnd hq (hplain q hq) h, QueueConfig.workerConfig,
    runtimeQueueConfig]
  by_cases hkey : queueKey = q.keyOrPrefix
  · simp only [if_pos hkey]
    rw [hkey]
    exact hbase.symm
  · simp only [if_neg hkey]
    exact (effective_stored stored hbase queueKey).symm

/-- A sub-queue that is paused, with the concurrency of its base queue: the dashboard shows what the
worker goes by. -/
theorem tenant_agrees : queueRuntimeConfigFromMap
    (catalog [⟨.static "mail", .fixed 2⟩, ⟨.dynamic "tenant", .dynamic 3⟩])
    (fun k => if k = "tenant" then some ⟨some 5, .active⟩
      else if k = "tenant#a" then some ⟨none, .paused⟩ else none) "tenant#a" = ⟨some 5, .paused⟩ :=
  (dashboard_agrees (q := ⟨.dynamic "tenant", .dynamic 3⟩) _ (by decide) (by decide) (by decide)
    ⟨"a", by decide⟩).trans (by decide)

end Oxana
