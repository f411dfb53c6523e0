import Mathlib.Data.List.Dedup
import Oxana.MetricsRuns

/-!
# Metrics are exact end to end

What a query reads back is, counter by counter, the sum over the results of its
window that were flushed. The hash of a minute holds the increments of its
flushes, these are sums over results, aggregation adds the fields up, and under
the limits of the integer types nothing saturates.
-/

namespace Oxana

open Redis CounterStore

/-! ## The exact answer -/

/-- All eight counters of the totals. -/
def JobMetricsTotals.counters : List (JobMetricsTotals → ℕ) :=
  [processed, succeeded, failed, panicked, successfulExecutions, failedExecutions,
    panickedExecutions, executionMs]

/-- The sums over some results, as totals. -/
def exactTotals (rs : List WorkerResult) : JobMetricsTotals :=
  { JobMetricsTotals.ofCounts (fun k => total (·.amount k) rs) with
    succeeded := total (·.succeededJobs) rs }

/-- The results of one worker, with their minutes. -/
def resultsOf (i : MetricIdentity) (rs : List (Int × WorkerResult)) : List (Int × WorkerResult) :=
  rs.filter fun r => r.2.identity = i

/-- The results in the minutes of a window. -/
def resultsIn (minutes : List Int) (rs : List (Int × WorkerResult)) : List WorkerResult :=
  (rs.filter fun r => r.1 ∈ minutes).map Prod.snd

/-- The sums over the results of a minute, as a point. -/
def exactPoint (rs : List (Int × WorkerResult)) (m : Int) : JobMetricsPoint :=
  { toJobMetricsTotals := exactTotals ((rs.filter fun r => r.1 = m).map Prod.snd)
    timestamp := m * 60 }

/-- The sums over the results of a worker in a window. -/
def exactSummary (minutes : List Int) (rs : List (Int × WorkerResult)) (i : MetricIdentity) :
    WorkerMetricsSummary where
  identity := i
  totals := exactTotals (resultsIn minutes (resultsOf i rs))
  series := minutes.map (exactPoint (resultsOf i rs))

/-- What `job_metrics` should answer for a window. -/
def exactSnapshot (minutes : List Int) (rs : List (Int × WorkerResult)) : JobMetricsSnapshot where
  totals := exactTotals (resultsIn minutes rs)
  series := minutes.map (exactPoint rs)
  workers := (((resultsIn minutes rs).map WorkerResult.identity).dedup.map
    (exactSummary minutes rs)).mergeSort fun a b => (summaryCmp a b).isLE
  startsAt := minutes.head?.getD 0 * 60
  endsAt := minutes.getLast?.getD 0 * 60
  minutes := minutes.length

/-- What `job_metrics_for` should answer for a window and a worker. -/
def exactDetail (minutes : List Int) (rs : List (Int × WorkerResult)) (i : MetricIdentity) :
    JobMetricsDetail where
  identity := i
  startsAt := minutes.head?.getD 0 * 60
  endsAt := minutes.getLast?.getD 0 * 60
  minutes := minutes.length
  totals := (exactSummary minutes rs i).totals
  series := (exactSummary minutes rs i).series
  histogram := histogramBucketsFromCounts ((List.range histogramBucketCount).map fun b =>
    total (·.bucketAmount b) (resultsIn minutes (resultsOf i rs)))

/-- The sums of the counters and of the executions are within the limits of the type in which they
are read. -/
structure TotalsFit (rs : List WorkerResult) : Prop where
  /-- the counters -/
  counters : ∀ k, total (·.amount k) rs ≤ u64Max
  /-- the sum of executions that `finalize` forms -/
  executions : total (·.amount .successfulExecutions) rs + total (·.amount .failedExecutions) rs +
    total (·.amount .panickedExecutions) rs ≤ u64Max

/-- A sum of two amounts is the sum of their totals. -/
theorem total_add (c d : WorkerResult → ℕ) (rs : List WorkerResult) :
    total (fun r => c r + d r) rs = total c rs + total d rs := List.sum_map_add

/-- Totals of fewer results fit where the totals of all of them do. -/
theorem TotalsFit.sublist {rs rs' : List WorkerResult} (h : TotalsFit rs) (hs : rs'.Sublist rs) :
    TotalsFit rs' where
  counters k := Nat.le_trans (total_sublist _ hs) (h.counters k)
  executions := by
    have := h.executions
    have h₁ := total_sublist (·.amount .successfulExecutions) hs
    have h₂ := total_sublist (·.amount .failedExecutions) hs
    have h₃ := total_sublist (·.amount .panickedExecutions) hs
    omega

/-- Jobs either succeed or fail, so these two totals add up to the number of jobs. -/
theorem total_jobs (rs : List WorkerResult) :
    total (·.succeededJobs) rs + total (·.amount .failedJobs) rs =
      total (·.amount .processedJobs) rs := by
  rw [← total_add]
  congr 1
  funext r
  by_cases h : r.kind = .success <;> simp [WorkerResult.succeededJobs, WorkerResult.amount, h]

/-- Executions either succeed or fail, so these two totals add up to the number of results. -/
theorem total_executions (rs : List WorkerResult) :
    total (·.amount .successfulExecutions) rs + total (·.amount .failedExecutions) rs =
      rs.length := by
  have h : ∀ r : WorkerResult, r.amount .successfulExecutions + r.amount .failedExecutions = 1 := by
    intro r
    by_cases h : r.kind = .success <;> simp [WorkerResult.amount, h]
  rw [← total_add]
  simp only [total, h, List.map_const', List.sum_replicate]
  exact Nat.mul_one _

/-- **The fallback for old records never applies to new ones**: sums of
recorded results are finalized to themselves. -/
theorem finalize_exact {rs : List WorkerResult} (hfit : TotalsFit rs) :
    (JobMetricsTotals.ofCounts fun k => min (total (·.amount k) rs) u64Max).finalize =
      exactTotals rs := by
  have hmin : (fun k => min (total (·.amount k) rs) u64Max) = fun k => total (·.amount k) rs :=
    funext fun k => min_eq_left (hfit.counters k)
  have hjobs := total_jobs rs
  have hexecutions := total_executions rs
  have hlimit := hfit.executions
  have hsucceeded : total (·.amount .processedJobs) rs - total (·.amount .failedJobs) rs =
      total (·.succeededJobs) rs := by omega
  rw [hmin]
  simp only [JobMetricsTotals.finalize, JobMetricsTotals.ofCounts, exactTotals, hsucceeded]
  split
  · next hzero =>
    -- no executions: there is nothing that was recorded
    rw [Nat.mod_eq_of_lt (Nat.lt_of_le_of_lt hlimit (by decide))] at hzero
    obtain rfl : rs = [] := List.length_eq_zero_iff.mp (by omega)
    rfl
  · rfl

/-- Samples that add up to what results amount to are finalized to the sums over these results. -/
theorem finalize_counters {xs : List Sample} {rs : List WorkerResult} (hfit : TotalsFit rs)
    (h : ∀ k, addedUp k xs = total (·.amount k) rs) : (counters xs).finalize = exactTotals rs := by
  rw [counters]
  simp only [h]
  exact finalize_exact hfit

/-! ## What a query reads -/

theorem sum_ite_eq_total (q : Int × WorkerResult → Bool) (c : WorkerResult → ℕ)
    (rs : List (Int × WorkerResult)) :
    (rs.map fun r => if q r then c r.2 else 0).sum = total c ((rs.filter q).map Prod.snd) := by
  induction rs with
  | nil => rfl
  | cons r rs ih => by_cases h : q r <;> simp_all [total]

/-- A window is summed up minute by minute, every result being in one minute only. -/
theorem total_resultsIn {minutes : List Int} (hn : minutes.Nodup) (c : WorkerResult → ℕ)
    (rs : List (Int × WorkerResult)) :
    (minutes.map fun m => total c ((rs.filter fun r => r.1 = m).map Prod.snd)).sum =
      total c (resultsIn minutes rs) := by
  have hin : ∀ r ∈ rs.filter (fun r => r.1 ∈ minutes), r.1 ∈ minutes := by
    intro r hr
    simpa using (List.mem_filter.mp hr).2
  have hgroups := Table.sum_groups hn (fun r : Int × WorkerResult => c r.2) hin
  rw [total, resultsIn, List.map_map]
  refine Eq.trans (congrArg List.sum (List.map_congr_left fun m hm => ?_)) hgroups
  rw [List.filter_filter, total, List.map_map]
  congr 2
  apply List.filter_congr
  intro r _
  by_cases h : r.1 = m <;> simp [h, hm]

section

variable {K : StorageKeys} {s : MetricsState} {begun : List Flight} {log : List CounterCommand}

/-- What the increments of a minute's hash are about: none is negative, and each is of a counter of
a worker with a result in that minute. -/
theorem MetricsAccounted.fieldLog_cases (h : MetricsAccounted K s begun log)
    (hdone : s.flights = []) {m : Int} {e : String × Int}
    (he : e ∈ fieldLog (K.metricsCounterKey m) log) :
    0 ≤ e.2 ∧ ∃ r ∈ s.flushed, r.1 = m ∧ ∃ k : JobMetric, e.1 = r.2.identity.metricField k.name := by
  obtain ⟨c, hc, hce⟩ := List.mem_filterMap.mp he
  obtain ⟨hlog, hflushed⟩ := h.settled hdone
  obtain ⟨f, hf, hcf⟩ := List.mem_flatMap.mp (hlog.mem_iff.mp hc)
  have hmem : ∀ r ∈ f.results, r ∈ s.flushed := fun r hr =>
    hflushed.mem_iff.mpr (List.mem_flatMap.mpr ⟨f, hf, hr⟩)
  rcases flush_cases (h.flushes f hf).1 hcf with ⟨r, hr, v, hcr⟩ | ⟨x, hcq⟩
  · rcases recordCommands_cases hcr with ⟨k, rfl⟩ | rfl | ⟨args, rfl⟩ | rfl
    · simp only [Option.ite_none_right_eq_some] at hce
      obtain ⟨hkey, hpair⟩ := hce
      cases hpair
      refine ⟨Int.natCast_nonneg _, r, hmem r hr, counterKey_inj.mp hkey, k, rfl⟩
    · cases hce
    · cases hce
    · cases hce
  · rcases queueRecordCommands_cases hcq with ⟨f, n, rfl⟩ | rfl
    · simp only [Option.ite_none_right_eq_some] at hce
      exact absurd hce.1 (queueCounterKey_ne _ _)
    · cases hce

/-- The hash of a minute, as the commands have made it. -/
def minuteHash (K : StorageKeys) (log : List CounterCommand) (m : Int) : List (String × Int) :=
  (tally (fieldLog (K.metricsCounterKey m) log)).entries

/-- **The hash of a minute holds the sums of its results**, for the workers
selected. -/
theorem MetricsAccounted.addedUp_minute (h : MetricsAccounted K s begun log)
    (hdone : s.flights = []) (hfit : StoredFit s.flushed) (p : MetricIdentity → Bool)
    (k : JobMetric) (m : Int) :
    addedUp k ((hashSamples none (minuteHash K log m)).filter fun x => p x.1) =
      total (·.amount k) (((s.flushed.filter fun r => p r.2.identity).filter
        fun r => r.1 = m).map Prod.snd) := by
  have htally := sum_tally (fun e he => (h.fieldLog_cases hdone (m := m) he).1)
    (fun f => (splitMetricField f).any fun x => p x.1 && x.2 = k)
  have hlog := sum_fieldLog (K.metricsCounterKey m)
    (fun f => (splitMetricField f).any fun x => p x.1 && x.2 = k) log
  rw [addedUp_hashSamples, minuteHash, htally, hlog, h.fieldSum hdone hfit]
  simp only [fieldAmount_samples]
  rw [List.filter_filter, ← sum_ite_eq_total]
  congr 1
  apply List.map_congr_left
  intro r _
  by_cases hm : r.1 = m <;> simp [hm]

/-- The fields of one worker in the hash of a minute hold the sums of its own results in that
minute. -/
theorem MetricsAccounted.find_minute (h : MetricsAccounted K s begun log)
    (hdone : s.flights = []) (hfit : StoredFit s.flushed) (i : MetricIdentity)
    (k : JobMetric) (m : Int) :
    (((tally (fieldLog (K.metricsCounterKey m) log)).find (i.metricField k.name)).getD 0).toNat =
      total (·.amount k) (((resultsOf i s.flushed).filter fun r => r.1 = m).map Prod.snd) := by
  have hsum := sum_fieldLog (K.metricsCounterKey m) (fun f => f = i.metricField k.name) log
  simp only [decide_eq_true_eq] at hsum
  rw [toNat_find_tally (fun e he => (h.fieldLog_cases hdone he).1), hsum, h.fieldSum hdone hfit]
  simp only [fieldAmount_field]
  rw [resultsOf, List.filter_filter, ← sum_ite_eq_total]
  congr 1
  apply List.map_congr_left
  intro r _
  by_cases hm : r.1 = m <;> simp [hm]

/-- The samples of a window hold the sums of its results, for the workers that are selected. -/
theorem MetricsAccounted.addedUp_window (h : MetricsAccounted K s begun log)
    (hdone : s.flights = []) (hfit : StoredFit s.flushed) (p : MetricIdentity → Bool)
    (k : JobMetric) {minutes : List Int} (hn : minutes.Nodup) :
    addedUp k ((windowSamples minutes (minuteHash K log) none).filter fun x => p x.1) =
      total (·.amount k) (resultsIn minutes (s.flushed.filter fun r => p r.2.identity)) := by
  rw [← total_resultsIn hn, windowSamples, List.filter_flatMap, addedUp, sum_flatMap_map]
  congr 1
  apply List.map_congr_left
  intro m _
  exact h.addedUp_minute hdone hfit p k m

/-- The workers that are shown for a window are those with results in it. -/
theorem MetricsAccounted.mem_workers (h : MetricsAccounted K s begun log)
    (hdone : s.flights = []) (hfit : StoredFit s.flushed)
    (hpos : ∀ r ∈ s.flushed, 0 < r.2.jobCount) (minutes : List Int) (i : MetricIdentity) :
    i ∈ ((resultsIn minutes s.flushed).map WorkerResult.identity).dedup ↔
      i ∈ (windowSamples minutes (minuteHash K log) none).map Prod.fst := by
  rw [List.mem_dedup]
  constructor
  · intro hi
    obtain ⟨r', hr', rfl⟩ := List.mem_map.mp hi
    obtain ⟨r, hr, rfl⟩ := List.mem_map.mp hr'
    obtain ⟨hmem, hm⟩ := List.mem_filter.mp hr
    have hadded := h.addedUp_minute hdone hfit (fun i => i = r.2.identity) .processedJobs r.1
    have hle : r.2.jobCount ≤ total (·.amount .processedJobs)
        (((s.flushed.filter fun r' => decide (r'.2.identity = r.2.identity)).filter
          fun r' => r'.1 = r.1).map Prod.snd) := by
      have hsingle : [r.2].Sublist (((s.flushed.filter fun r' =>
          decide (r'.2.identity = r.2.identity)).filter fun r' => r'.1 = r.1).map Prod.snd) := by
        rw [List.singleton_sublist]
        exact List.mem_map.mpr ⟨r, by simp [hmem], rfl⟩
      exact total_sublist (·.amount .processedJobs) hsingle
    have hne : (hashSamples none (minuteHash K log r.1)).filter
        (fun x => decide (x.1 = r.2.identity)) ≠ [] := by
      intro hnil
      have := hpos r hmem
      rw [hnil] at hadded
      simp only [addedUp, List.map_nil, List.sum_nil] at hadded
      omega
    obtain ⟨x, hx⟩ := List.exists_mem_of_ne_nil _ hne
    obtain ⟨hx, hxi⟩ := List.mem_filter.mp hx
    refine List.mem_map.mpr ⟨x, List.mem_flatMap.mpr ⟨r.1, by simpa using hm, hx⟩, ?_⟩
    simpa using hxi
  · intro hi
    obtain ⟨x, hx, rfl⟩ := List.mem_map.mp hi
    obtain ⟨m, hm, hx⟩ := List.mem_flatMap.mp hx
    obtain ⟨e, he, hdecode⟩ := List.mem_filterMap.mp hx
    obtain ⟨e', he', hfst⟩ := List.mem_map.mp (Table.mem_collect.mp he).1
    obtain ⟨-, r, hr, rfl, k, hk⟩ := h.fieldLog_cases hdone he'
    rw [decodeField, ← hfst, hk, splitMetricField_metricField] at hdecode
    simp only [Option.bind_some, Option.any_none, Bool.false_eq_true, if_false,
      Option.some.injEq] at hdecode
    rw [← hdecode]
    refine List.mem_map.mpr ⟨r.2, List.mem_map.mpr ⟨r, ?_, rfl⟩, rfl⟩
    simp [hr, hm]

end

/-! ## Windows -/

theorem nodup_metricMinutes (nowTs : Int) (query : ℕ) : (metricMinutes nowTs query).Nodup := by
  refine List.Nodup.map (fun a b h => ?_) List.nodup_range
  omega

/-- The keys of a window are still there: the oldest minute that is asked for has not expired. -/
theorem lt_minuteDeadline {now : Int} {query : ℕ} {m : Int}
    (h : m ∈ metricMinutes (now / 1000) query) : now < minuteDeadline m := by
  obtain ⟨i, -, rfl⟩ := List.mem_map.mp h
  have hminutes : effectiveMinutes query ≤ 1440 := by
    rw [effectiveMinutes]
    split
    · decide
    · exact min_le_right ..
  rw [minuteDeadline]
  omega

theorem mapM_eq_some {α β : Type} {f : α → Option β} {g : α → β} {l : List α}
    (h : ∀ a ∈ l, f a = some (g a)) : l.mapM f = some (l.map g) := by
  induction l with
  | nil => rfl
  | cons a l ih =>
    rw [List.mapM_cons, h a List.mem_cons_self, ih fun b hb => h b (List.mem_cons_of_mem a hb)]
    rfl

/-- What limits all results limits those of one worker in a window. -/
theorem resultsIn_sublist (minutes : List Int) (i : MetricIdentity)
    (rs : List (Int × WorkerResult)) :
    (resultsIn minutes (resultsOf i rs)).Sublist (resultsIn minutes rs) :=
  ((List.filter_sublist).filter _).map Prod.snd

theorem minute_sublist {minutes : List Int} {m : Int} (hm : m ∈ minutes)
    (rs : List (Int × WorkerResult)) :
    ((rs.filter fun r => r.1 = m).map Prod.snd).Sublist (resultsIn minutes rs) := by
  apply List.Sublist.map
  apply List.monotone_filter_right
  intro r hr
  simp only [decide_eq_true_eq] at hr ⊢
  rwa [hr]

section

variable {K : StorageKeys} {s : MetricsState} {begun : List Flight} {log : List CounterCommand}

/-- A worker is read back exactly: its summary holds the sums of its results in the window. -/
theorem MetricsAccounted.summary (h : MetricsAccounted K s begun log) (hdone : s.flights = [])
    (hfit : StoredFit s.flushed) {minutes : List Int} (hn : minutes.Nodup)
    (hwindow : TotalsFit (resultsIn minutes s.flushed)) (i : MetricIdentity) :
    summaryOf minutes (minuteHash K log) none i = exactSummary minutes s.flushed i := by
  have hi : TotalsFit (resultsIn minutes (resultsOf i s.flushed)) :=
    hwindow.sublist (resultsIn_sublist minutes i s.flushed)
  have htotals : (counters (ofWorker i (windowSamples minutes (minuteHash K log) none))).finalize =
      exactTotals (resultsIn minutes (resultsOf i s.flushed)) :=
    finalize_counters hi fun k => h.addedUp_window hdone hfit (fun j => j = i) k hn
  have hseries : (minutes.map fun m =>
      pointOf m (ofWorker i (hashSamples none (minuteHash K log m)))) =
      minutes.map (exactPoint (resultsOf i s.flushed)) := by
    apply List.map_congr_left
    intro m hm
    have hpoint := finalize_counters (hi.sublist (minute_sublist hm _))
      fun k => h.addedUp_minute hdone hfit (fun j => j = i) k m
    rw [pointOf, exactPoint]
    exact congrArg (JobMetricsPoint.mk · (m * 60)) hpoint
  rw [summaryOf, exactSummary, htotals, hseries]

/-- **The whole window is read back exactly**: every total, and every worker with its own. -/
theorem MetricsAccounted.jobMetrics (h : MetricsAccounted K s begun log) (hdone : s.flights = [])
    (hpos : ∀ r ∈ s.flushed, 0 < r.2.jobCount) (hfit : StoredFit s.flushed) (query : ℕ)
    (hwindow : TotalsFit (resultsIn (metricMinutes (s.clock / 1000) query) s.flushed))
    (it : Iteration) : Oxana.jobMetrics K it s.clock query s.store =
      some (exactSnapshot (metricMinutes (s.clock / 1000) query) s.flushed) := by
  set minutes := metricMinutes (s.clock / 1000) query with hminutes
  have hn : minutes.Nodup := nodup_metricMinutes _ _
  have hread : (minutes.mapM fun m => hgetall s.clock (K.metricsCounterKey m) s.store) =
      some (minutes.map (minuteHash K log)) :=
    mapM_eq_some fun m hm => (h.hashes m (lt_minuteDeadline hm)).hgetall (lt_minuteDeadline hm)
  have htrue : ∀ xs : List Sample, xs.filter (fun _ => true) = xs := fun xs => List.filter_true xs
  have htrue' : s.flushed.filter (fun _ => true) = s.flushed := List.filter_true _
  have htotals : (counters (windowSamples minutes (minuteHash K log) none)).finalize =
      exactTotals (resultsIn minutes s.flushed) := by
    apply finalize_counters hwindow
    intro k
    have := h.addedUp_window hdone hfit (fun _ => true) k hn
    rwa [htrue, htrue'] at this
  have hseries : (minutes.map fun m => pointOf m (hashSamples none (minuteHash K log m))) =
      minutes.map (exactPoint s.flushed) := by
    apply List.map_congr_left
    intro m hm
    have hpoint : (counters (hashSamples none (minuteHash K log m))).finalize =
        exactTotals ((s.flushed.filter fun r => r.1 = m).map Prod.snd) := by
      apply finalize_counters (hwindow.sublist (minute_sublist hm _))
      intro k
      have := h.addedUp_minute hdone hfit (fun _ => true) k m
      rwa [htrue, htrue'] at this
    rw [pointOf, exactPoint, hpoint]
  have hworkers : (((resultsIn minutes s.flushed).map WorkerResult.identity).dedup).map
      (summaryOf minutes (minuteHash K log) none) =
      (((resultsIn minutes s.flushed).map WorkerResult.identity).dedup).map
        (exactSummary minutes s.flushed) :=
    List.map_congr_left fun i _ => h.summary hdone hfit hn hwindow i
  have haggregate := aggregateCounterHashes_eq minutes (minuteHash K log) none it (List.nodup_dedup _)
    (h.mem_workers hdone hfit hpos minutes)
  rw [htotals, hseries, hworkers] at haggregate
  simp only [Oxana.jobMetrics, ← hminutes, hread, haggregate, Option.bind_eq_bind,
    Option.bind_some, exactSnapshot]

/-- The samples of one worker in a minute can be read field by field, counter by counter. -/
theorem addedUp_fields (i : MetricIdentity) (k : JobMetric) (g : JobMetric → Option Int)
    {l : List JobMetric} (hl : l.Nodup) :
    addedUp k (hashSamples (some i) (l.filterMap fun k' =>
      (g k').map fun v => (i.metricField k'.name, v))) =
      if k ∈ l then ((g k).getD 0).toNat else 0 := by
  induction l with
  | nil => rfl
  | cons k' l ih =>
    rw [List.nodup_cons] at hl
    have hd : ∀ v, decodeField (some i) (i.metricField k'.name, v) = some (i, k', v.toNat) := by
      intro v
      simp [decodeField, splitMetricField_metricField]
    have hrest := ih hl.2
    by_cases hk : k' = k
    · subst hk
      rw [if_neg hl.1] at hrest
      cases hg : g k' with
      | none => simpa [hg] using hrest
      | some v =>
        rw [List.filterMap_cons_some (by rw [hg]; rfl), hashSamples, List.filterMap_cons_some (hd v)]
        simp only [addedUp, hashSamples, List.map_cons, List.sum_cons] at hrest ⊢
        simp [hrest]
    · have hk' : ¬ k = k' := fun h => hk h.symm
      simp only [List.mem_cons, hk', false_or]
      rw [← hrest]
      cases hg : g k' with
      | none => rw [List.filterMap_cons_none (by rw [hg]; rfl)]
      | some v =>
        rw [List.filterMap_cons_some (by rw [hg]; rfl), hashSamples, List.filterMap_cons_some (hd v)]
        simp [addedUp, hashSamples, hk]

/-- What is read of one worker's fields in a minute is what was counted for it there. -/
theorem MetricsAccounted.hashFor (h : MetricsAccounted K s begun log) (i : MetricIdentity) {m : Int}
    (hm : s.clock < minuteDeadline m) : metricsCounterHashFor K s.clock i s.store m =
      some (JobMetric.all.filterMap fun k =>
        ((tally (fieldLog (K.metricsCounterKey m) log)).find (i.metricField k.name)).map
          fun v => (i.metricField k.name, v)) := by
  have hread := mapM_eq_some (l := JobMetric.all)
    fun k _ => (h.hashes m hm).hget hm (i.metricField k.name)
  have hzip : ∀ (l : List JobMetric) (g : JobMetric → Option Int),
      (l.zip (l.map g)).filterMap (fun x => x.2.map fun v => (i.metricField x.1.name, v)) =
        l.filterMap fun k => (g k).map fun v => (i.metricField k.name, v) := by
    intro l g
    induction l with
    | nil => rfl
    | cons k l ih => simp only [List.map_cons, List.zip_cons_cons, List.filterMap_cons, ih]
  rw [metricsCounterHashFor, hread]
  exact congrArg some (hzip JobMetric.all _)

/-- Adding up the buckets of several minutes, saturating at each step, saturates once at the end. -/
theorem foldl_zipWith_satAdd (f : Int → ℕ → ℕ) (n : ℕ) (minutes : List Int) (g : ℕ → ℕ)
    (hg : ∀ b, g b ≤ u64Max) :
    (minutes.map fun m => (List.range n).map (f m)).foldl
        (fun totals values => List.zipWith satAdd totals values) ((List.range n).map g) =
      (List.range n).map fun b => min (g b + (minutes.map fun m => f m b).sum) u64Max := by
  induction minutes generalizing g with
  | nil =>
    apply List.map_congr_left
    intro b _
    exact (min_eq_left (hg b)).symm
  | cons m minutes ih =>
    have hzip : List.zipWith satAdd ((List.range n).map g) ((List.range n).map (f m)) =
        (List.range n).map fun b => satAdd (g b) (f m b) := by
      rw [List.zipWith_map, List.zipWith_self]
    rw [List.map_cons, List.foldl_cons, hzip, ih _ fun b => satAdd_le ..]
    apply List.map_congr_left
    intro b _
    simp only [satAdd, List.map_cons, List.sum_cons]
    omega

/-- What the commands about a histogram add to a bucket is what all commands add to that bucket of
it. -/
theorem cellSum_cellLog (key : Key) (b : ℕ) (log : List CounterCommand) :
    CounterStore.cellSum b (cellLog key log) = (log.map (cellWeight key b)).sum := by
  induction log with
  | nil => rfl
  | cons c log ih =>
    have hcons : cellLog key (c :: log) = cellLog key [c] ++ cellLog key log := by simp [cellLog]
    rw [hcons, cellSum_append, ih, List.map_cons, List.sum_cons]
    congr 1
    cases c with
    | hincr k f n => rfl
    | expire k secs => rfl
    | bitfield k increments =>
      by_cases hk : k = key
      · simp [cellLog, cellWeight, hk]
      · simp [cellLog, cellWeight, hk, CounterStore.cellSum]

/-- A bucket of a minute holds the number of the results of its worker that fall into it. -/
theorem MetricsAccounted.bucket_minute (h : MetricsAccounted K s begun log)
    (hdone : s.flights = []) (hfit : StoredFit s.flushed) (i : MetricIdentity) (m : Int) {b : ℕ}
    (hb : b < histogramBucketCount) :
    min 65535 (CounterStore.cellSum b (cellLog (K.metricsHistogramKey i m) log)) =
      total (·.bucketAmount b) (((resultsOf i s.flushed).filter fun r => r.1 = m).map Prod.snd) := by
  have hgroup : ((resultsOf i s.flushed).filter fun r => r.1 = m).map Prod.snd =
      groupOf (m, i) s.flushed := by
    rw [resultsOf, List.filter_filter, groupOf]
    congr 1
    apply List.filter_congr
    intro r _
    by_cases hm : r.1 = m <;> simp [recordKey, hm]
  have hlimit := hfit.buckets (m, i) b
  have hsum := sum_ite_eq_total (fun r => recordKey r = (m, i)) (·.bucketAmount b) s.flushed
  simp only [decide_eq_true_eq] at hsum
  rw [cellSum_cellLog, h.cellSum hdone hfit i m hb, hgroup, hsum]
  exact min_eq_right hlimit

/-- The buckets of a result hold one for each of its successful executions. -/
theorem sum_bucketAmount (r : WorkerResult) :
    ((List.range histogramBucketCount).map fun b => r.bucketAmount b).sum =
      r.amount .successfulExecutions := by
  have hlt : histogramBucketIndex r.executionMs < histogramBucketCount := by
    rw [histogramBucketIndex]
    cases hfind : histogramBucketIntervalsMs.findIdx? fun upper => decide (r.executionMs < upper) with
    | none => decide
    | some i => exact (List.findIdx?_eq_some_iff_findIdx_eq.mp hfind).1
  by_cases hkind : r.kind = .success
  · have hsum := Table.sum_map_ite_eq_of_mem (List.nodup_range (n := histogramBucketCount))
      (List.mem_range.mpr hlt) 1
    simpa [WorkerResult.bucketAmount, WorkerResult.amount, hkind] using hsum
  · simp [WorkerResult.bucketAmount, WorkerResult.amount, hkind]

/-- All buckets together hold as many as there were successful executions. -/
theorem total_buckets (rs : List WorkerResult) :
    ((List.range histogramBucketCount).map fun b => total (·.bucketAmount b) rs).sum =
      total (·.amount .successfulExecutions) rs := by
  induction rs with
  | nil => simp [total]
  | cons r rs ih =>
    have hcons : ∀ c : WorkerResult → ℕ, total c (r :: rs) = c r + total c rs := fun c => by
      simp [total]
    simp only [hcons, List.sum_map_add, sum_bucketAmount, ih]

/-- One bucket holds at most as many as there were successful executions. -/
theorem bucket_le (b : ℕ) (rs : List WorkerResult) :
    total (·.bucketAmount b) rs ≤ total (·.amount .successfulExecutions) rs := by
  induction rs with
  | nil => exact Nat.le_refl _
  | cons r rs ih =>
    have hr : r.bucketAmount b ≤ r.amount .successfulExecutions := by
      by_cases h : r.kind = .success <;>
        by_cases hb : histogramBucketIndex r.executionMs = b <;>
          simp [WorkerResult.bucketAmount, WorkerResult.amount, h, hb]
    simpa [total] using Nat.add_le_add hr ih

/-- **One worker's window is read back exactly**: its totals, its minutes and its histogram. -/
theorem MetricsAccounted.jobMetricsFor (h : MetricsAccounted K s begun log)
    (hdone : s.flights = []) (hfit : StoredFit s.flushed) (query : ℕ)
    (hwindow : TotalsFit (resultsIn (metricMinutes (s.clock / 1000) query) s.flushed))
    (it : Iteration) (i : MetricIdentity) :
    Oxana.jobMetricsFor K it s.clock i query s.store =
      some (exactDetail (metricMinutes (s.clock / 1000) query) s.flushed i) := by
  set minutes := metricMinutes (s.clock / 1000) query with hminutes
  have hn : minutes.Nodup := nodup_metricMinutes _ _
  have hi : TotalsFit (resultsIn minutes (resultsOf i s.flushed)) :=
    hwindow.sublist (resultsIn_sublist minutes i s.flushed)
  set H : Int → List (String × Int) := fun m => JobMetric.all.filterMap fun k =>
    ((tally (fieldLog (K.metricsCounterKey m) log)).find (i.metricField k.name)).map
      fun v => (i.metricField k.name, v) with hH
  have hread : minutes.mapM (metricsCounterHashFor K s.clock i s.store) = some (minutes.map H) :=
    mapM_eq_some fun m hm => h.hashFor i (lt_minuteDeadline hm)
  have hadded : ∀ m k, addedUp k (hashSamples (some i) (H m)) =
      total (·.amount k) (((resultsOf i s.flushed).filter fun r => r.1 = m).map Prod.snd) := by
    intro m k
    rw [hH, addedUp_fields i k _ (by decide), if_pos k.mem_all]
    exact h.find_minute hdone hfit i k m
  have htotals : (counters (windowSamples minutes H (some i))).finalize =
      exactTotals (resultsIn minutes (resultsOf i s.flushed)) := by
    apply finalize_counters hi
    intro k
    rw [← total_resultsIn hn, windowSamples, addedUp, sum_flatMap_map]
    exact congrArg List.sum (List.map_congr_left fun m _ => hadded m k)
  have hseries : (minutes.map fun m => pointOf m (hashSamples (some i) (H m))) =
      minutes.map (exactPoint (resultsOf i s.flushed)) := by
    apply List.map_congr_left
    intro m hm
    have hpoint := finalize_counters (hi.sublist (minute_sublist hm _)) (hadded m)
    rw [pointOf, exactPoint, hpoint]
  have hhistogram : metricsHistogramCountsFor K s.clock minutes i s.store =
      some ((List.range histogramBucketCount).map fun b =>
        total (·.bucketAmount b) (resultsIn minutes (resultsOf i s.flushed))) := by
    have hcells := mapM_eq_some (l := minutes) fun m hm =>
      (h.histograms i m (lt_minuteDeadline hm)).bitfieldGet (lt_minuteDeadline hm)
        histogramBucketCount
    have hzero : List.replicate histogramBucketCount 0 =
      (List.range histogramBucketCount).map fun _ => 0 := by decide
    rw [metricsHistogramCountsFor, hcells]
    simp only [Option.bind_eq_bind, Option.bind_some, hzero]
    rw [foldl_zipWith_satAdd _ _ _ _ fun _ => Nat.zero_le _]
    congr 1
    apply List.map_congr_left
    intro b hb
    rw [List.map_congr_left fun m _ => h.bucket_minute hdone hfit i m (List.mem_range.mp hb),
      total_resultsIn hn, Nat.zero_add]
    exact min_eq_left (Nat.le_trans (bucket_le b _) (hi.counters .successfulExecutions))
  have haggregate := aggregateCounterHashes_eq minutes H (some i) it (List.nodup_dedup _)
    fun j => List.mem_dedup
  rw [htotals, hseries] at haggregate
  simp only [Oxana.jobMetricsFor, ← hminutes, hread, haggregate, hhistogram, Option.bind_eq_bind,
    Option.bind_some]
  rfl

end

/-! ## Consistency -/

/-- Jobs either succeeded or failed, and what panicked failed. -/
structure JobMetricsTotals.Balanced (t : JobMetricsTotals) : Prop where
  /-- nothing is lost in between -/
  jobs : t.succeeded + t.failed = t.processed
  /-- a panic is a failure -/
  panics : t.panicked ≤ t.failed

/-- The parts of an answer fit together: workers, minutes and totals. -/
structure JobMetricsSnapshot.Consistent (a : JobMetricsSnapshot) : Prop where
  /-- each total is the sum over the minutes -/
  byMinute : ∀ c ∈ JobMetricsTotals.counters,
    c a.totals = (a.series.map fun p => c p.toJobMetricsTotals).sum
  /-- each total is the sum over the workers -/
  byWorker : ∀ c ∈ JobMetricsTotals.counters, c a.totals = (a.workers.map fun w => c w.totals).sum
  /-- in total -/
  totals : a.totals.Balanced
  /-- in each minute -/
  points : ∀ p ∈ a.series, p.toJobMetricsTotals.Balanced
  /-- for each worker, in total and in each minute -/
  workers : ∀ w ∈ a.workers,
    w.totals.Balanced ∧ ∀ p ∈ w.series, p.toJobMetricsTotals.Balanced

/-- Exact totals are balanced: what succeeded and what failed add up to what was processed. -/
theorem balanced_exactTotals (rs : List WorkerResult) : (exactTotals rs).Balanced where
  jobs := total_jobs rs
  panics := by
    change total (·.amount .panickedJobs) rs ≤ total (·.amount .failedJobs) rs
    induction rs with
    | nil => exact Nat.le_refl _
    | cons r rs ih =>
      have hr : r.amount .panickedJobs ≤ r.amount .failedJobs := by
        cases h : r.kind <;> simp [WorkerResult.amount, h]
      simpa [total] using Nat.add_le_add hr ih

/-- Each counter of exact totals is a sum of amounts over the results. -/
theorem counter_exactTotals {c : JobMetricsTotals → ℕ} (h : c ∈ JobMetricsTotals.counters) :
    ∃ amount, ∀ rs, c (exactTotals rs) = total amount rs := by
  simp only [JobMetricsTotals.counters, List.mem_cons, List.not_mem_nil, or_false] at h
  rcases h with rfl | rfl | rfl | rfl | rfl | rfl | rfl | rfl <;> exact ⟨_, fun _ => rfl⟩

/-- An exact snapshot is consistent: its totals are the sums over its workers and over its minutes.
-/
theorem consistent_exactSnapshot {minutes : List Int} (hn : minutes.Nodup)
    (rs : List (Int × WorkerResult)) : (exactSnapshot minutes rs).Consistent := by
  have hworkers := List.mergeSort_perm ((((resultsIn minutes rs).map
    WorkerResult.identity).dedup).map (exactSummary minutes rs)) fun a b => (summaryCmp a b).isLE
  refine ⟨?_, ?_, balanced_exactTotals _, ?_, ?_⟩
  · intro c hc
    obtain ⟨amount, hamount⟩ := counter_exactTotals hc
    simp only [exactSnapshot, exactPoint, List.map_map, Function.comp_def, hamount]
    exact (total_resultsIn hn amount rs).symm
  · intro c hc
    obtain ⟨amount, hamount⟩ := counter_exactTotals hc
    have hof : ∀ i, resultsIn minutes (resultsOf i rs) =
        (resultsIn minutes rs).filter fun r => r.identity = i := by
      intro i
      rw [resultsIn, resultsOf, List.filter_comm, resultsIn, List.filter_map]
      rfl
    have hgroups := Table.sum_groups (List.nodup_dedup ((resultsIn minutes rs).map
      WorkerResult.identity)) amount fun r hr => List.mem_dedup.mpr (List.mem_map_of_mem hr)
    simp only [exactSnapshot]
    rw [(hworkers.map fun w => c w.totals).sum_eq, List.map_map]
    simp only [Function.comp_def, exactSummary, hamount, hof]
    exact hgroups.symm
  · intro p hp
    obtain ⟨m, -, rfl⟩ := List.mem_map.mp hp
    exact balanced_exactTotals _
  · intro w hw
    obtain ⟨i, -, rfl⟩ := List.mem_map.mp (hworkers.mem_iff.mp hw)
    refine ⟨balanced_exactTotals _, fun p hp => ?_⟩
    obtain ⟨m, -, rfl⟩ := List.mem_map.mp hp
    exact balanced_exactTotals _

/-- A histogram shows the counts that it is made from. -/
theorem map_histogramBucketsFromCounts {counts : List ℕ}
    (h : counts.length = histogramBucketCount) :
    (histogramBucketsFromCounts counts).map (fun e => e.2.2) = counts := by
  have hzip : ((histogramBucketLabels.zip counts).zipIdx.map fun e => e.1.2) = counts := by
    have hfst : ∀ l : List ((String × ℕ) × ℕ), l.map (fun e => e.1.2) =
        (l.map Prod.fst).map Prod.snd := by
      intro l
      rw [List.map_map]
      rfl
    rw [hfst, List.zipIdx_map_fst, List.map_snd_zip]
    rw [h]
    decide
  rw [histogramBucketsFromCounts, List.map_map]
  exact hzip

/-! ## The theorem -/

/-- **Metrics are exact.** Take any run in which results are recorded in
buffers and flushed, every flush begun having succeeded, and any window, all
sums being within the limits of their types. In whatever order hash maps are
iterated, a query answers the sums over the recorded results of the window: in
total, by minute, by worker, and by minute and worker. The parts fit together,
and a worker's histogram shows its successful executions. -/
theorem metrics_exact {K : StorageKeys} {t : Int} {s : MetricsState}
    (hrun : Relation.ReflTransGen (MetricsStep K) (.start t) s) (hdone : s.flights = [])
    (hpos : ∀ r ∈ s.flushed, 0 < r.2.jobCount) (hfit : StoredFit s.flushed) (query : ℕ)
    (hwindow : TotalsFit (resultsIn (metricMinutes (s.clock / 1000) query) s.flushed)) :
    let minutes := metricMinutes (s.clock / 1000) query
    (∀ it, jobMetrics K it s.clock query s.store = some (exactSnapshot minutes s.flushed)) ∧
      (exactSnapshot minutes s.flushed).Consistent ∧
      ∀ i, (∀ it, jobMetricsFor K it s.clock i query s.store =
          some (exactDetail minutes s.flushed i)) ∧
        ((exactDetail minutes s.flushed i).histogram.map fun e => e.2.2).sum =
          (exactDetail minutes s.flushed i).totals.successfulExecutions := by
  obtain ⟨begun, log, h⟩ := metricsAccounted_of_reachable hrun
  refine ⟨fun it => h.jobMetrics hdone hpos hfit query hwindow it,
    consistent_exactSnapshot (nodup_metricMinutes _ _) _,
    fun i => ⟨fun it => h.jobMetricsFor hdone hfit query hwindow it i, ?_⟩⟩
  have hlength : ((List.range histogramBucketCount).map fun b => total (·.bucketAmount b)
      (resultsIn (metricMinutes (s.clock / 1000) query) (resultsOf i s.flushed))).length =
        histogramBucketCount := by simp
  simp only [exactDetail]
  rw [map_histogramBucketsFromCounts hlength]
  exact total_buckets _

/-- A flush that is alone is executed command by command, until nothing of it is under way. -/
theorem sendAll {K : StorageKeys} (commands : List CounterCommand)
    {results flushed : List (Int × WorkerResult)} {clock : Int} {store store' : CounterStore}
    (h : commands.foldlM (CounterStore.run clock) store = some store') :
    Relation.ReflTransGen (MetricsStep K) ⟨clock, store, [⟨commands, results⟩], flushed⟩
      ⟨clock, store', [⟨[], results⟩], flushed⟩ := by
  induction commands generalizing store with
  | nil =>
    cases h
    exact .refl
  | cons c rest ih =>
    rw [List.foldlM_cons] at h
    obtain ⟨mid, hmid, hrest⟩ := Option.bind_eq_some_iff.mp h
    have hsend : MetricsStep K ⟨clock, store, [⟨c :: rest, results⟩], flushed⟩
        ⟨clock, mid, [⟨rest, results⟩], flushed⟩ :=
      @MetricsStep.send K ⟨clock, store, [⟨c :: rest, results⟩], flushed⟩ [] [] c rest results mid rfl
        hmid
    exact Relation.ReflTransGen.head hsend (ih hrest)

/-- The result of one execution of 30 ms that did two jobs. -/
def sampleResult : WorkerResult := ⟨.success, "w|1", "q", 30, 2, by decide⟩

/-- One result is recorded and flushed alone: what is read back of it are its exact totals. -/
theorem sample_exact : ∃ s : MetricsState, s.flushed = [(0, sampleResult)] ∧
    jobMetrics (StorageKeys.new "ns") .plain s.clock 1 s.store =
      some (exactSnapshot [0] [(0, sampleResult)]) ∧
    (exactSnapshot [0] [(0, sampleResult)]).totals.processed = 2 := by
  have hflush : MetricsStep (StorageKeys.new "ns") (.start 0) ⟨0, fun _ => none,
      [⟨flushJobMetrics (StorageKeys.new "ns")
        (JobMetricsBuffer.recordAll [(0, sampleResult)]).entries.entries
        (JobMetricsBuffer.recordAll [(0, sampleResult)]).queueEntries.entries,
        [(0, sampleResult)]⟩], []⟩ :=
    MetricsStep.flush (by decide) ⟨_, _, .refl _, .refl _, rfl⟩
  obtain ⟨store, hstore⟩ : ∃ store, (flushJobMetrics (StorageKeys.new "ns")
      (JobMetricsBuffer.recordAll [(0, sampleResult)]).entries.entries
      (JobMetricsBuffer.recordAll [(0, sampleResult)]).queueEntries.entries).foldlM
        (CounterStore.run 0) (fun _ => none) = some store :=
    Option.isSome_iff_exists.mp (by decide +kernel)
  have hfinish : MetricsStep (StorageKeys.new "ns")
      ⟨0, store, [⟨[], [(0, sampleResult)]⟩], []⟩ ⟨0, store, [], [(0, sampleResult)]⟩ :=
    @MetricsStep.finish _ ⟨0, store, [⟨[], [(0, sampleResult)]⟩], []⟩ [] [] [(0, sampleResult)] rfl
  have hone : ∀ c : WorkerResult → ℕ, ∀ key, total c (groupOf key [(0, sampleResult)]) ≤
      c sampleResult := by
    intro c key
    by_cases h : recordKey (0, sampleResult) = key <;> simp [groupOf, total, h]
  have hpos : ∀ r ∈ [((0 : Int), sampleResult)], 0 < r.2.jobCount := by decide
  have hfit : StoredFit [(0, sampleResult)] := by
    refine ⟨fun key k => Nat.le_trans (hone _ key) ?_, fun key b => Nat.le_trans (hone _ key) ?_⟩
    · cases k <;> decide
    · rw [WorkerResult.bucketAmount]
      split <;> decide
  have hwindow : TotalsFit (resultsIn (metricMinutes 0 1) [(0, sampleResult)]) :=
    ⟨fun k => by cases k <;> decide, by decide⟩
  have h := metrics_exact (((Relation.ReflTransGen.single hflush).trans
    (sendAll _ hstore)).tail hfinish) rfl hpos hfit 1 hwindow
  exact ⟨_, rfl, h.1 .plain, rfl⟩

end Oxana
