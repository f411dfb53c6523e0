import Oxana.MetricsExact

/-!
# One worker's metrics, alone and among all

A query over all workers reads the whole hash of every minute and decodes each
field. A query about one worker reads seven fields of it by name. The decoder
accepts more than these seven: a worker's name may be followed by a queue, as
older versions wrote it, and its length may be spelled in several ways. What
such a field holds is counted by the first query and missed by the second.

The two agree exactly when nothing of that can be seen (`detail_agrees_iff`).
-/

namespace Oxana

open Redis

/-! ## What a hash holds for a worker -/

/-- The fields that are read as a worker's counter without being written for
it. -/
def isAlias (i : MetricIdentity) (k : JobMetric) (field : String) : Bool :=
  decide (splitMetricField field = some (i, k)) && decide (field ≠ i.metricField k.name)

/-- The field written for a worker's counter, as it counts. -/
def ownAmount (i : MetricIdentity) (k : JobMetric) (h : List (String × Int)) : ℕ :=
  ((h.lookup (i.metricField k.name)).getD 0).toNat

/-- The other fields read as that counter, as they count. -/
def aliasAmount (i : MetricIdentity) (k : JobMetric) (h : List (String × Int)) : ℕ :=
  (h.map fun e => if isAlias i k e.1 then e.2.toNat else 0).sum

/-- The fields written for a worker, as far as they are there. -/
def ownFields (i : MetricIdentity) (h : List (String × Int)) : List (String × Int) :=
  JobMetric.all.filterMap fun k =>
    (h.lookup (i.metricField k.name)).map fun v => (i.metricField k.name, v)

/-- The seven fields of a worker are read one by one. -/
theorem addedUp_ownFields (i : MetricIdentity) (k : JobMetric) (h : List (String × Int)) :
    addedUp k (hashSamples (some i) (ownFields i h)) = ownAmount i k h := by
  rw [ownFields, addedUp_fields i k _ (by decide), if_pos k.mem_all]
  rfl

/-- The sum over one field is what the field holds. -/
theorem sum_lookup {h : List (String × Int)} (hn : (h.map Prod.fst).Nodup) (f : String) :
    (h.map fun e => if e.1 = f then e.2.toNat else 0).sum = ((h.lookup f).getD 0).toNat := by
  induction h with
  | nil => rfl
  | cons e h ih =>
    obtain ⟨g, v⟩ := e
    rw [List.map_cons, List.nodup_cons] at hn
    rw [List.map_cons, List.sum_cons, ih hn.2]
    by_cases hg : g = f
    · subst hg
      have hnone : h.lookup g = none := by
        rw [List.lookup_eq_none_iff]
        intro e he
        have hmem : e.1 ∈ h.map Prod.fst := List.mem_map_of_mem he
        simpa using fun heq : g = e.1 => hn.1 (heq ▸ hmem)
      simp [hnone]
    · have hf : (f == g) = false := by simpa using fun heq => hg heq.symm
      simp [hg, List.lookup_cons, hf]

/-- Decoding everything, a worker's counter is its own field and the others that are read as it. -/
theorem addedUp_ofWorker {h : List (String × Int)} (hn : (h.map Prod.fst).Nodup)
    (i : MetricIdentity) (k : JobMetric) :
    addedUp k (ofWorker i (hashSamples none h)) = ownAmount i k h + aliasAmount i k h := by
  have hfield : ∀ e : String × Int,
      (if (splitMetricField e.1).any (fun x => decide (x.1 = i) && x.2 = k) then e.2.toNat else 0) =
        (if e.1 = i.metricField k.name then e.2.toNat else 0) +
          if isAlias i k e.1 then e.2.toNat else 0 := by
    intro e
    by_cases hown : e.1 = i.metricField k.name
    · simp [hown, isAlias, splitMetricField_metricField]
    · have hany : (splitMetricField e.1).any (fun x => decide (x.1 = i) && x.2 = k) =
          decide (splitMetricField e.1 = some (i, k)) := by
        cases splitMetricField e.1 with
        | none => simp
        | some x => simp [Prod.ext_iff]
      simp [hown, isAlias, hany]
  have hsum := addedUp_hashSamples (fun j => decide (j = i)) k h
  simp only [hfield] at hsum
  rw [List.sum_map_add, sum_lookup hn] at hsum
  exact hsum

/-! ## What can be seen -/

/-- The counters of executions, which are shown only where there are any. -/
def JobMetric.ofExecutions : JobMetric → Bool
  | .successfulExecutions | .failedExecutions | .panickedExecutions => true
  | _ => false

/-- The executions shown are the jobs: there are none of their own, or they are
the same. -/
def ShownByJobs (c : JobMetric → ℕ) : Prop :=
  (c .successfulExecutions + c .failedExecutions + c .panickedExecutions) % 2 ^ 64 = 0 ∨
    c .successfulExecutions = c .processedJobs - c .failedJobs ∧
      c .failedExecutions = c .failedJobs ∧ c .panickedExecutions = c .panickedJobs

/-- Counters as a `u64` has them, saturated. -/
def saturated (c : JobMetric → ℕ) (k : JobMetric) : ℕ := min (c k) u64Max

/-- Nothing is seen of an addition: it adds nothing, or a counter is full, or it
is to executions and the jobs are shown in their place before and after. -/
structure Unseen (own extra : JobMetric → ℕ) : Prop where
  /-- jobs and durations are always shown -/
  jobs : ∀ k, k.ofExecutions = false → extra k = 0 ∨ u64Max ≤ own k
  /-- executions are shown where there are any -/
  executions : (∀ k, k.ofExecutions = true → extra k = 0 ∨ u64Max ≤ own k) ∨
    ShownByJobs (saturated own) ∧ ShownByJobs (saturated fun k => own k + extra k)

theorem unseen_zero {own extra : JobMetric → ℕ} (h : ∀ k, extra k = 0) : Unseen own extra :=
  ⟨fun k _ => .inl (h k), .inl fun k _ => .inl (h k)⟩

theorem forall_jobs {P : JobMetric → Prop} : (∀ k, k.ofExecutions = false → P k) ↔
    P .processedJobs ∧ P .failedJobs ∧ P .panickedJobs ∧ P .executionMs := by
  constructor
  · intro h
    exact ⟨h _ rfl, h _ rfl, h _ rfl, h _ rfl⟩
  · rintro ⟨hp, hf, hpn, hms⟩ k hk
    cases k <;> first | assumption | cases hk

theorem forall_executions {P : JobMetric → Prop} : (∀ k, k.ofExecutions = true → P k) ↔
    P .successfulExecutions ∧ P .failedExecutions ∧ P .panickedExecutions := by
  constructor
  · intro h
    exact ⟨h _ rfl, h _ rfl, h _ rfl⟩
  · rintro ⟨hs, hf, hpn⟩ k hk
    cases k <;> first | assumption | cases hk

/-- Two records are shown alike exactly if these counters of them are the same. -/
theorem finalize_eq_iff (a b : JobMetric → ℕ) :
    (JobMetricsTotals.ofCounts a).finalize = (JobMetricsTotals.ofCounts b).finalize ↔
      (∀ k, k.ofExecutions = false → a k = b k) ∧
        ((∀ k, k.ofExecutions = true → a k = b k) ∨ ShownByJobs a ∧ ShownByJobs b) := by
  rw [forall_jobs, forall_executions]
  by_cases ha : (a .successfulExecutions + a .failedExecutions + a .panickedExecutions) % 2 ^ 64 = 0
  all_goals
    by_cases hb :
        (b .successfulExecutions + b .failedExecutions + b .panickedExecutions) % 2 ^ 64 = 0
    all_goals
      simp only [JobMetricsTotals.finalize, JobMetricsTotals.ofCounts, ShownByJobs, ha, hb, if_true,
        if_false, JobMetricsTotals.mk.injEq, true_or, true_and, and_true, or_true, false_or]
      omega

/-- When an addition to a record is not seen: it adds nothing, or the largest number is reached
without it, or the fallback for old records hides it. -/
theorem finalize_add_iff (own extra : JobMetric → ℕ) :
    (JobMetricsTotals.ofCounts (saturated own)).finalize =
        (JobMetricsTotals.ofCounts (saturated fun k => own k + extra k)).finalize ↔
      Unseen own extra := by
  have hsame : ∀ k, saturated own k = saturated (fun k => own k + extra k) k ↔
      extra k = 0 ∨ u64Max ≤ own k := by
    intro k
    simp only [saturated]
    omega
  rw [finalize_eq_iff]
  simp only [hsame]
  exact ⟨fun h => ⟨h.1, h.2⟩, fun h => ⟨h.jobs, h.executions⟩⟩

/-! ## Windows -/

/-- Nothing that aliases hold of a worker is seen, in any minute of a window or
over it as a whole. -/
structure AliasesUnseen (minutes : List Int) (H : Int → List (String × Int))
    (i : MetricIdentity) : Prop where
  /-- minute by minute -/
  points : ∀ m ∈ minutes, Unseen (ownAmount i · (H m)) (aliasAmount i · (H m))
  /-- over the window -/
  totals : Unseen (fun k => (minutes.map fun m => ownAmount i k (H m)).sum)
    fun k => (minutes.map fun m => aliasAmount i k (H m)).sum

section

variable {minutes : List Int} {H : Int → List (String × Int)}

variable (minutes H) in
theorem addedUp_window_own (i : MetricIdentity) (k : JobMetric) :
    addedUp k (windowSamples minutes (fun m => ownFields i (H m)) (some i)) =
      (minutes.map fun m => ownAmount i k (H m)).sum := by
  rw [windowSamples, addedUp, sum_flatMap_map]
  exact congrArg List.sum (List.map_congr_left fun m _ => addedUp_ownFields i k (H m))

theorem addedUp_window_all (hn : ∀ m, ((H m).map Prod.fst).Nodup) (i : MetricIdentity)
    (k : JobMetric) : addedUp k (ofWorker i (windowSamples minutes H none)) =
      (minutes.map fun m => ownAmount i k (H m)).sum +
        (minutes.map fun m => aliasAmount i k (H m)).sum := by
  rw [windowSamples, ofWorker, List.filter_flatMap, addedUp, sum_flatMap_map, ← List.sum_map_add]
  exact congrArg List.sum (List.map_congr_left fun m _ => addedUp_ofWorker (hn m) i k)

/-- The seven fields show what all fields show exactly when aliases are not seen. -/
theorem ownFields_iff (hn : ∀ m, ((H m).map Prod.fst).Nodup) (i : MetricIdentity) :
    ((counters (windowSamples minutes (fun m => ownFields i (H m)) (some i))).finalize =
        (summaryOf minutes H none i).totals ∧
      (minutes.map fun m => pointOf m (hashSamples (some i) (ownFields i (H m)))) =
        (summaryOf minutes H none i).series) ↔ AliasesUnseen minutes H i := by
  have hcounters : ∀ xs : List Sample,
      counters xs = JobMetricsTotals.ofCounts (saturated fun k => addedUp k xs) := fun _ => rfl
  have htotals := finalize_add_iff (fun k => (minutes.map fun m => ownAmount i k (H m)).sum)
    fun k => (minutes.map fun m => aliasAmount i k (H m)).sum
  have hpoint : ∀ m, pointOf m (hashSamples (some i) (ownFields i (H m))) =
      pointOf m (ofWorker i (hashSamples none (H m))) ↔
        Unseen (ownAmount i · (H m)) (aliasAmount i · (H m)) := by
    intro m
    rw [← finalize_add_iff]
    simp only [pointOf, JobMetricsPoint.mk.injEq, and_true, hcounters, addedUp_ownFields,
      addedUp_ofWorker (hn m)]
  simp only [summaryOf, List.map_inj_left, hpoint]
  rw [hcounters, hcounters]
  simp only [addedUp_window_own, addedUp_window_all hn, htotals]
  exact ⟨fun h => ⟨h.2, h.1⟩, fun h => ⟨h.totals, h.points⟩⟩

/-- A worker without samples shows nothing but zeros. -/
theorem summaryOf_nothing {i : MetricIdentity}
    (h : i ∉ (windowSamples minutes H none).map Prod.fst) :
    summaryOf minutes H none i = ⟨i, {}, emptySeries minutes⟩ := by
  have hnil : ∀ xs : List Sample, i ∉ xs.map Prod.fst → ofWorker i xs = [] := by
    intro xs hxs
    rw [ofWorker, List.filter_eq_nil_iff]
    intro x hx hxi
    exact hxs (List.mem_map.mpr ⟨x, hx, by simpa using hxi⟩)
  have hminute : ∀ m ∈ minutes, ofWorker i (hashSamples none (H m)) = [] := by
    intro m hm
    apply hnil
    intro hi
    obtain ⟨x, hx, rfl⟩ := List.mem_map.mp hi
    exact h (List.mem_map_of_mem (List.mem_flatMap.mpr ⟨m, hm, hx⟩))
  have hseries : (minutes.map fun m => pointOf m (ofWorker i (hashSamples none (H m)))) =
      emptySeries minutes := List.map_congr_left fun m hm => by rw [hminute m hm]; rfl
  rw [summaryOf, hnil _ h, hseries]
  rfl

/-- A worker is found among the workers of a window exactly if it has a sample there. -/
theorem find_summary {ids : List MetricIdentity} (i : MetricIdentity) :
    (((ids.map (summaryOf minutes H none)).mergeSort fun a b => (summaryCmp a b).isLE).find?
      fun w => w.identity = i) = if i ∈ ids then some (summaryOf minutes H none i) else none := by
  have hmem : ∀ w, w ∈ ((ids.map (summaryOf minutes H none)).mergeSort
      fun a b => (summaryCmp a b).isLE) ↔ ∃ j ∈ ids, summaryOf minutes H none j = w := by
    intro w
    rw [(List.mergeSort_perm _ _).mem_iff, List.mem_map]
  cases hfind : (((ids.map (summaryOf minutes H none)).mergeSort
      fun a b => (summaryCmp a b).isLE).find? fun w => w.identity = i) with
  | none =>
    rw [List.find?_eq_none] at hfind
    have hi : i ∉ ids := fun hi => hfind _ ((hmem _).mpr ⟨i, hi, rfl⟩) (by simp [summaryOf])
    rw [if_neg hi]
  | some w =>
    obtain ⟨j, hj, rfl⟩ := (hmem w).mp (List.mem_of_find?_eq_some hfind)
    have hfound := List.find?_some hfind
    obtain rfl : j = i := of_decide_eq_true hfound
    rw [if_pos hj]

end

/-! ## The two queries -/

/-- What a query about one worker shows is what a query over all workers shows
of it, or nothing if it is not among them. -/
def JobMetricsDetail.Agrees (d : JobMetricsDetail) (o : JobMetricsSnapshot) : Prop :=
  match o.workers.find? fun w => w.identity = d.identity with
  | some w => d.totals = w.totals ∧ d.series = w.series
  | none => d.totals = {} ∧ ∀ p ∈ d.series, p.toJobMetricsTotals = {}

section

variable {K : StorageKeys} {now : Int} {s : CounterStore} {i : MetricIdentity} {query : ℕ}
  {it it' : Iteration} {o : JobMetricsSnapshot} {d : JobMetricsDetail}

/-- The counters stored for a minute, none if there are none left. -/
def minuteFields (K : StorageKeys) (now : Int) (s : CounterStore) (m : Int) :
    List (String × Int) := (CounterStore.hgetall now (K.metricsCounterKey m) s).getD []

theorem nodup_minuteFields (m : Int) : ((minuteFields K now s m).map Prod.fst).Nodup := by
  rw [minuteFields, CounterStore.hgetall]
  cases CounterStore.fieldsOf (CounterStore.live now s (K.metricsCounterKey m)) with
  | none => exact List.nodup_nil
  | some t => exact t.nodup

/-- What a list of reads answers is answered read by read. -/
theorem eq_of_mapM {α β : Type} {f : α → Option β} {l : List α} {ys : List β} (b : β)
    (h : l.mapM f = some ys) : ys = l.map fun a => (f a).getD b := by
  induction l generalizing ys with
  | nil => simpa using h.symm
  | cons a l ih =>
    rw [List.mapM_cons] at h
    obtain ⟨y, hy, h⟩ := Option.bind_eq_some_iff.mp h
    obtain ⟨ys', hys, h⟩ := Option.bind_eq_some_iff.mp h
    obtain rfl : y :: ys' = ys := Option.some.inj h
    rw [List.map_cons, ← ih hys, hy, Option.getD_some]

/-- Reading the seven fields of a minute is reading its hash and keeping these fields. -/
theorem metricsCounterHashFor_eq (m : Int) : metricsCounterHashFor K now i s m =
    (CounterStore.hgetall now (K.metricsCounterKey m) s).map (ownFields i) := by
  rw [metricsCounterHashFor]
  simp only [CounterStore.hget, CounterStore.hgetall]
  cases CounterStore.fieldsOf (CounterStore.live now s (K.metricsCounterKey m)) with
  | none => rfl
  | some t => rfl

/-- What a query over all workers answers of each of the workers. -/
theorem workers_of_jobMetrics (h : jobMetrics K it now query s = some o) :
    o.workers = (((windowSamples (metricMinutes (now / 1000) query) (minuteFields K now s)
      none).map Prod.fst).dedup.map (summaryOf (metricMinutes (now / 1000) query)
        (minuteFields K now s) none)).mergeSort fun a b => (summaryCmp a b).isLE := by
  obtain ⟨hashes, hread, h⟩ := Option.bind_eq_some_iff.mp h
  obtain rfl := eq_of_mapM [] hread
  obtain rfl := Option.some.inj h
  have haggregate := aggregateCounterHashes_eq (metricMinutes (now / 1000) query)
    (minuteFields K now s) none it (List.nodup_dedup _) fun j => List.mem_dedup
  exact congrArg JobMetricsAggregation.workers haggregate

/-- What a query about one worker answers of its totals. -/
theorem detail_of_jobMetricsFor (h : jobMetricsFor K it now i query s = some d) :
    d.identity = i ∧
      d.totals = (counters (windowSamples (metricMinutes (now / 1000) query)
        (fun m => ownFields i (minuteFields K now s m)) (some i))).finalize ∧
      d.series = (metricMinutes (now / 1000) query).map fun m =>
        pointOf m (hashSamples (some i) (ownFields i (minuteFields K now s m))) := by
  obtain ⟨hashes, hread, h⟩ := Option.bind_eq_some_iff.mp h
  obtain ⟨histogram, -, h⟩ := Option.bind_eq_some_iff.mp h
  obtain rfl := eq_of_mapM [] hread
  obtain rfl := Option.some.inj h
  have hown : (metricMinutes (now / 1000) query).map
      (fun m => (metricsCounterHashFor K now i s m).getD []) =
        (metricMinutes (now / 1000) query).map fun m => ownFields i (minuteFields K now s m) := by
    apply List.map_congr_left
    intro m _
    rw [metricsCounterHashFor_eq, minuteFields]
    cases CounterStore.hgetall now (K.metricsCounterKey m) s with
    | none => simp [ownFields]
    | some h => rfl
  have haggregate := aggregateCounterHashes_eq (metricMinutes (now / 1000) query)
    (fun m => ownFields i (minuteFields K now s m)) (some i) it (List.nodup_dedup _)
    fun j => List.mem_dedup
  rw [← hown] at haggregate
  exact ⟨rfl, congrArg JobMetricsAggregation.totals haggregate,
    congrArg JobMetricsAggregation.series haggregate⟩

/-- **The two queries agree exactly when aliases are not seen.** Take any stored
counters, any worker and any window, and let both queries answer at one instant,
whatever the orders in which they iterate hash maps. -/
theorem detail_agrees_iff (ho : jobMetrics K it now query s = some o)
    (hd : jobMetricsFor K it' now i query s = some d) :
    d.Agrees o ↔ AliasesUnseen (metricMinutes (now / 1000) query) (minuteFields K now s) i := by
  obtain ⟨hi, htotals, hseries⟩ := detail_of_jobMetricsFor hd
  rw [← ownFields_iff nodup_minuteFields, ← htotals, ← hseries, JobMetricsDetail.Agrees, hi,
    workers_of_jobMetrics ho, find_summary]
  by_cases hmem : i ∈ ((windowSamples (metricMinutes (now / 1000) query) (minuteFields K now s)
      none).map Prod.fst).dedup
  · rw [if_pos hmem]
  · rw [if_neg hmem, summaryOf_nothing (mt List.mem_dedup.mpr hmem)]
    simp only [and_congr_right_iff]
    rintro -
    rw [hseries, emptySeries, List.map_inj_left]
    simp [pointOf]

end

/-- The worker of the sample. -/
def sampleWorker : MetricIdentity := ⟨"Worker", by decide⟩

/-- One minute in which a field of the worker and one that names a queue as well
hold counts. -/
def legacyCounters (own legacy : Int) : CounterStore := fun k =>
  if k = (StorageKeys.new "").metricsCounterKey 0 then
    some ⟨.fields ⟨[("6:Worker|p", own), ("6:Workerdefault|p", legacy)], by simp⟩, none⟩
  else none

/-- A field under the name of a worker and a queue that holds nothing to be counted is not missed:
both queries agree. -/
theorem legacyCounters_agree : ∃ o d,
    jobMetrics (StorageKeys.new "") .plain 0 1 (legacyCounters 2 (-1)) = some o ∧
      jobMetricsFor (StorageKeys.new "") .plain 0 sampleWorker 1 (legacyCounters 2 (-1)) =
        some d ∧ d.Agrees o := by
  obtain ⟨o, ho⟩ := Option.isSome_iff_exists.mp (by decide +kernel :
    (jobMetrics (StorageKeys.new "") .plain 0 1 (legacyCounters 2 (-1))).isSome = true)
  obtain ⟨d, hd⟩ := Option.isSome_iff_exists.mp (by decide +kernel :
    (jobMetricsFor (StorageKeys.new "") .plain 0 sampleWorker 1 (legacyCounters 2 (-1))).isSome =
      true)
  have hnone : ∀ k, aliasAmount sampleWorker k
      (minuteFields (StorageKeys.new "") 0 (legacyCounters 2 (-1)) 0) = 0 := by
    intro k
    cases k <;> decide +kernel
  have hminutes : metricMinutes (0 / 1000) 1 = [0] := by decide
  refine ⟨o, d, ho, hd, (detail_agrees_iff ho hd).mpr ⟨?_, ?_⟩⟩
  · intro m hm
    rw [hminutes, List.mem_singleton] at hm
    exact unseen_zero (hm ▸ hnone)
  · apply unseen_zero
    intro k
    rw [hminutes, List.map_singleton, List.sum_singleton, hnone k]

/-- A count under the name of a worker and a queue is shown among all workers
and missed for the worker alone. -/
theorem legacyCounters_disagree : ∃ o d,
    jobMetrics (StorageKeys.new "") .plain 0 1 (legacyCounters 2 1) = some o ∧
      jobMetricsFor (StorageKeys.new "") .plain 0 sampleWorker 1 (legacyCounters 2 1) = some d ∧
      ¬ d.Agrees o := by
  have hshown : ((jobMetrics (StorageKeys.new "") .plain 0 1 (legacyCounters 2 1)).map fun o =>
      (o.workers.find? fun w => w.identity = sampleWorker).map fun w => w.totals.processed) =
        some (some 3) := by decide +kernel
  have hmissed : ((jobMetricsFor (StorageKeys.new "") .plain 0 sampleWorker 1
      (legacyCounters 2 1)).map fun d => (d.identity, d.totals.processed)) =
        some (sampleWorker, 2) := by decide +kernel
  obtain ⟨o, ho, hw⟩ := Option.map_eq_some_iff.mp hshown
  obtain ⟨d, hd, heq⟩ := Option.map_eq_some_iff.mp hmissed
  obtain ⟨w, hfind, hthree⟩ := Option.map_eq_some_iff.mp hw
  obtain ⟨hi, htwo⟩ := Prod.mk.inj heq
  refine ⟨o, d, ho, hd, ?_⟩
  rw [JobMetricsDetail.Agrees, hi, hfind]
  rintro ⟨htotals, -⟩
  rw [htotals, hthree] at htwo
  exact absurd htwo (by decide)

end Oxana
