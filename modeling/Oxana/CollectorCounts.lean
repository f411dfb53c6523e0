import Oxana.Collector

/-!
# What the collector has counted when it returns

While it runs, a result is in the buffer or in a flush that was applied, once
and never both, for the metrics and for the counters of queues alike: a failed
flush keeps its buffer, an applied one clears it. In the loop that is enough,
since another attempt follows. On exit there is none: a failure that is
tolerated there leaves the buffer behind, and the task returns `Ok` all the
same.

`collector_counts_iff` says exactly when everything received has been counted.
-/

namespace Oxana

open Redis

/-- Every result received was in exactly one flush of the metrics and in
exactly one flush of the counters. -/
structure Collector.Counted (c : Collector) : Prop where
  /-- in the metrics -/
  metrics : c.appliedMetrics.flatMap AppliedFlush.results = c.received
  /-- in the counters of queues -/
  stats : c.appliedStats.flatMap AppliedFlush.results = c.received.map Prod.snd

/-! ## Where the results are -/

/-- The invariant of the collector: its buffers hold exactly what was received and not flushed, and
every flush has sent exactly the counters of its results. -/
structure Collector.Kept (K : StorageKeys) (c : Collector) : Prop where
  /-- the buffer of metrics -/
  metrics : c.metrics = JobMetricsBuffer.recordAll c.unflushedMetrics
  /-- the counters of queues -/
  pendingStats : c.pendingStats = recordStats c.unflushedStats
  /-- a result is in the metrics flushed or in those to be flushed -/
  metricsOf : c.appliedMetrics.flatMap AppliedFlush.results ++ c.unflushedMetrics = c.received
  /-- a result is in the counters flushed or in those to be flushed -/
  statsOf : c.appliedStats.flatMap AppliedFlush.results ++ c.unflushedStats =
    c.received.map Prod.snd
  /-- the commands of a flush are those of its results -/
  metricsApplied : ∀ f ∈ c.appliedMetrics,
    Flushes K (JobMetricsBuffer.recordAll f.results) f.commands
  /-- the commands of a flush are those of its results -/
  statsApplied : ∀ f ∈ c.appliedStats, StatsFlushes K (recordStats f.results) f.commands

section

variable {K : StorageKeys} {settings : CollectorSettings} {c c' : Collector} {a : Attempt}
  {ok : Bool}

/-- At the start nothing has been received, and nothing is unaccounted for. -/
theorem kept_start (failures : UInt32) : Collector.Kept K { failures } where
  metrics := rfl
  pendingStats := rfl
  metricsOf := rfl
  statsOf := rfl
  metricsApplied := by simp
  statsApplied := by simp

/-- What is accounted for does not depend on the phase or on the failures so far. -/
theorem Collector.Kept.frame (h : c.Kept K) (phase : CollectorPhase) (failures : UInt32) :
    Collector.Kept K { c with phase, failures } :=
  ⟨h.metrics, h.pendingStats, h.metricsOf, h.statsOf, h.metricsApplied, h.statsApplied⟩

/-- A result that is received goes to the buffers, so that everything is still accounted for. -/
theorem Collector.Kept.receive (h : c.Kept K) (minute : Int) (result : WorkerResult) :
    (c.receive settings minute result).Kept K where
  metrics := by
    rw [Collector.receive, h.metrics, JobMetricsBuffer.recordAll, JobMetricsBuffer.recordAll,
      List.foldl_append]
    rfl
  pendingStats := by
    rw [Collector.receive, h.pendingStats, recordStats, recordStats, Table.collect_concat]
  metricsOf := by
    rw [Collector.receive, ← h.metricsOf, List.append_assoc]
  statsOf := by
    simp only [Collector.receive, List.map_append, ← h.statsOf, List.append_assoc]
    rfl
  metricsApplied := h.metricsApplied
  statsApplied := h.statsApplied

/-- An attempt to flush the metrics moves them from the buffer to a flush, or leaves them where they
are. -/
theorem Collector.Kept.flushMetrics (h : c.Kept K)
    (ha : Collector.FlushMetrics K settings c a c' ok) : c'.Kept K := by
  cases ha with
  | idle hempty => exact h
  | failed hne => exact h.frame ..
  | @applied commands hne hcommands =>
    refine ⟨rfl, h.pendingStats, ?_, h.statsOf, ?_, h.statsApplied⟩
    · rw [List.flatMap_append, List.append_nil, ← h.metricsOf]
      simp
    · intro f hf
      rcases List.mem_append.mp hf with hf | hf
      · exact h.metricsApplied f hf
      · rw [List.mem_singleton] at hf
        rw [hf, ← h.metrics]
        exact hcommands

/-- An attempt to flush the counters moves them from the buffer to a flush, or leaves them where
they are. -/
theorem Collector.Kept.flushPendingStats (h : c.Kept K)
    (ha : Collector.FlushPendingStats K settings c a c' ok) : c'.Kept K := by
  cases ha with
  | idle hempty => exact h
  | failed hne => exact h.frame ..
  | @applied commands hne hcommands =>
    refine ⟨h.metrics, rfl, h.metricsOf, ?_, h.metricsApplied, ?_⟩
    · rw [List.flatMap_append, List.append_nil, ← h.statsOf]
      simp
    · intro f hf
      rcases List.mem_append.mp hf with hf | hf
      · exact h.statsApplied f hf
      · rw [List.mem_singleton] at hf
        rw [hf, ← h.pendingStats]
        exact hcommands

/-- Looking at the lengths of the queues does nothing to the buffers. -/
theorem Collector.Kept.refresh (h : c.Kept K)
    (ha : Collector.RefreshActiveQueueLengths settings c c' ok) : c'.Kept K := by
  cases ha <;>
    exact ⟨h.metrics, h.pendingStats, h.metricsOf, h.statsOf, h.metricsApplied, h.statsApplied⟩

/-- Every step of the collector keeps account of what was received. -/
theorem Collector.Kept.step {act : CollectorAct} (h : c.Kept K)
    (hstep : CollectorStep K settings c act c') : c'.Kept K := by
  cases hstep with
  | receive _ minute result => exact h.receive minute result
  | metricsTick _ ha => exact (h.flushMetrics ha).frame ..
  | statsTick _ ha => exact (h.flushPendingStats ha).frame ..
  | refreshTick _ ha => exact (h.refresh ha).frame ..
  | close _ => exact h.frame ..
  | lastMetrics _ ha => exact (h.flushMetrics ha).frame ..
  | lastStats _ ha => exact (h.flushPendingStats ha).frame ..
  | lastRefresh _ ha => exact (h.refresh ha).frame ..
  | others failures => exact h.frame ..

/-- **In every run** of the collector, its buffers and its flushes account for what was received. -/
theorem CollectorRun.kept {acts : List CollectorAct} (h : CollectorRun K settings acts c) :
    c.Kept K := by
  induction h with
  | start failures => exact kept_start failures
  | step _ hstep ih => exact ih.step hstep

/-! ## What is left on exit -/

theorem recordAll_isEmpty (rs : List (Int × WorkerResult)) :
    (JobMetricsBuffer.recordAll rs).isEmpty ↔ rs = [] := by
  constructor
  · intro h
    cases rs with
    | nil => rfl
    | cons r rs =>
      rw [JobMetricsBuffer.isEmpty, Bool.and_eq_true, List.isEmpty_iff] at h
      have hkey : recordKey r ∈ (JobMetricsBuffer.recordAll (r :: rs)).entries.entries.map
          Prod.fst := by
        rw [recordAll_entries]
        exact Table.mem_keys_collect.mpr (List.mem_map_of_mem List.mem_cons_self)
      rw [h.1] at hkey
      cases hkey
  · rintro rfl
    rfl

theorem recordStats_eq_nil (rs : List WorkerResult) : (recordStats rs).entries = [] ↔ rs = [] := by
  constructor
  · intro h
    cases rs with
    | nil => rfl
    | cons r rs =>
      have hkey : r.queue ∈ (recordStats (r :: rs)).entries.map Prod.fst :=
        Table.mem_keys_collect.mpr (List.mem_map_of_mem List.mem_cons_self)
      rw [h] at hkey
      cases hkey
  · rintro rfl
    rfl

/-- The metrics are left behind exactly when the attempt to flush them failed. -/
theorem Collector.Kept.metrics_left (h : c.Kept K)
    (ha : Collector.FlushMetrics K settings c a c' ok) :
    c'.unflushedMetrics = [] ↔ a ≠ .failed := by
  have hbuffer := recordAll_isEmpty c.unflushedMetrics
  rw [← h.metrics] at hbuffer
  cases ha with
  | idle hempty => simpa using hbuffer.mp hempty
  | applied hne _ => simp
  | failed hne =>
    have hleft : c.recordFailure.unflushedMetrics ≠ [] := fun hnil => hne (hbuffer.mpr hnil)
    simpa using hleft

/-- The counters are left behind exactly when the attempt to flush them failed. -/
theorem Collector.Kept.stats_left (h : c.Kept K)
    (ha : Collector.FlushPendingStats K settings c a c' ok) :
    c'.unflushedStats = [] ↔ a ≠ .failed := by
  have hbuffer := recordStats_eq_nil c.unflushedStats
  rw [← h.pendingStats] at hbuffer
  cases ha with
  | idle hempty => simpa using hbuffer.mp hempty
  | applied hne _ => simp
  | failed hne =>
    have hleft : c.recordFailure.unflushedStats ≠ [] := fun hnil => hne (hbuffer.mpr hnil)
    simpa using hleft

/-- The invariant of the exit: the buffers that the phase says have been flushed for the last time
are empty exactly if that flush has not failed. -/
structure Exiting (c : Collector) (acts : List CollectorAct) : Prop where
  /-- the metrics have not been flushed for the last time yet -/
  before : c.phase = .running ∨ c.phase = .flushingMetrics →
    .lastMetrics .failed ∉ acts ∧ .lastStats .failed ∉ acts
  /-- the metrics have, the counters have not -/
  between : c.phase = .flushingStats →
    (c.unflushedMetrics = [] ↔ .lastMetrics .failed ∉ acts) ∧ .lastStats .failed ∉ acts
  /-- both have -/
  after : c.phase = .refreshing ∨ c.phase = .returned →
    (c.unflushedMetrics = [] ↔ .lastMetrics .failed ∉ acts) ∧
      (c.unflushedStats = [] ↔ .lastStats .failed ∉ acts)

theorem Collector.FlushPendingStats.frame
    (ha : Collector.FlushPendingStats K settings c a c' ok) :
    c'.unflushedMetrics = c.unflushedMetrics := by
  cases ha <;> rfl

theorem Collector.RefreshActiveQueueLengths.frame
    (ha : Collector.RefreshActiveQueueLengths settings c c' ok) :
    c'.unflushedMetrics = c.unflushedMetrics ∧ c'.unflushedStats = c.unflushedStats := by
  cases ha <;> exact ⟨rfl, rfl⟩

/-- An attempt that may end the task leads to the phase asked for, or to the end. -/
theorem after_eq {next phase : CollectorPhase} (h : CollectorPhase.after next ok = phase)
    (hne : phase ≠ .failed) : next = phase := by
  cases ok with
  | true => exact h
  | false => exact absurd h.symm hne

/-- As long as the collector is in its loop, what ends on exit has not happened yet. -/
theorem Exiting.looping {acts : List CollectorAct} {act : CollectorAct} (h : Exiting c acts)
    (hc : c.phase = .running) (hphase : c'.phase = .running ∨ c'.phase = .flushingMetrics ∨
      c'.phase = .failed)
    (hact : act ≠ .lastMetrics .failed ∧ act ≠ .lastStats .failed) : Exiting c' (acts ++ [act]) := by
  obtain ⟨hmetrics, hstats⟩ := h.before (.inl hc)
  refine ⟨fun _ => ?_, fun hp => ?_, fun hp => ?_⟩
  · simp [hmetrics, hstats, hact.1.symm, hact.2.symm]
  · rw [hp] at hphase
    simp at hphase
  · rcases hp with hp | hp <;> rw [hp] at hphase <;> simp at hphase

/-- Every step keeps what is known about the flushes on exit: which of them have been tried, and
what was left behind. -/
theorem Exiting.step {acts : List CollectorAct} {act : CollectorAct} (h : Exiting c acts)
    (hkept : c.Kept K) (hstep : CollectorStep K settings c act c') :
    Exiting c' (acts ++ [act]) := by
  have hloop : ∀ ok, CollectorPhase.after .running ok = .running ∨
      CollectorPhase.after .running ok = .flushingMetrics ∨
      CollectorPhase.after .running ok = .failed := by decide
  cases hstep with
  | receive hc _ _ => exact h.looping hc (.inl hc) (by simp)
  | metricsTick hc _ => exact h.looping hc (hloop _) (by simp)
  | statsTick hc _ => exact h.looping hc (hloop _) (by simp)
  | refreshTick hc _ => exact h.looping hc (hloop _) (by simp)
  | close hc => exact h.looping hc (.inr (.inl rfl)) (by simp)
  | @lastMetrics c' a ok hc ha =>
    obtain ⟨hmetrics, hstats⟩ := h.before (.inr hc)
    have hleft := hkept.metrics_left ha
    refine ⟨fun hp => ?_, fun hp => ?_, fun hp => ?_⟩
    · rcases hp with hp | hp <;> exact absurd (after_eq hp (by decide)) (by decide)
    · simp [hmetrics, hstats, hleft, eq_comm]
    · rcases hp with hp | hp <;> exact absurd (after_eq hp (by decide)) (by decide)
  | @lastStats c' a ok hc ha =>
    obtain ⟨hmetrics, hstats⟩ := h.between hc
    have hleft := hkept.stats_left ha
    refine ⟨fun hp => ?_, fun hp => ?_, fun hp => ?_⟩
    · rcases hp with hp | hp <;> exact absurd (after_eq hp (by decide)) (by decide)
    · exact absurd (after_eq hp (by decide)) (by decide)
    · rw [ha.frame]
      simp [hmetrics, hstats, hleft, eq_comm]
  | @lastRefresh c' ok hc ha =>
    obtain ⟨hmetrics, hstats⟩ := h.after (.inl hc)
    refine ⟨fun hp => ?_, fun hp => ?_, fun hp => ?_⟩
    · rcases hp with hp | hp <;> exact absurd (after_eq hp (by decide)) (by decide)
    · exact absurd (after_eq hp (by decide)) (by decide)
    · rw [ha.frame.1, ha.frame.2]
      simp [hmetrics, hstats]
  | others failures =>
    exact ⟨fun hp => by simpa using h.before hp, fun hp => by simpa using h.between hp,
      fun hp => by simpa using h.after hp⟩

/-- In every run it is known which of the two flushes on exit have been tried, and what they have
left behind. -/
theorem CollectorRun.exiting {acts : List CollectorAct} (h : CollectorRun K settings acts c) :
    Exiting c acts := by
  induction h with
  | start failures =>
    refine ⟨fun _ => by simp, fun hp => ?_, fun hp => ?_⟩
    · cases hp
    · rcases hp with hp | hp <;> cases hp
  | step hrun hstep ih => exact ih.step hrun.kept hstep

/-- **When the collector has counted everything.** Of a run that returns `Ok`,
every result received is in exactly one flush of the metrics and in exactly one
of the counters if and only if neither of the two flushes on exit failed; each
flush is made of the commands that record its results. -/
theorem collector_counts_iff {acts : List CollectorAct} (hrun : CollectorRun K settings acts c)
    (hok : c.phase = .returned) :
    (c.Counted ↔ .lastMetrics .failed ∉ acts ∧ .lastStats .failed ∉ acts) ∧
      (∀ f ∈ c.appliedMetrics, Flushes K (JobMetricsBuffer.recordAll f.results) f.commands) ∧
      ∀ f ∈ c.appliedStats, StatsFlushes K (recordStats f.results) f.commands := by
  have hkept := hrun.kept
  obtain ⟨hmetrics, hstats⟩ := hrun.exiting.after (.inr hok)
  refine ⟨?_, hkept.metricsApplied, hkept.statsApplied⟩
  rw [← hmetrics, ← hstats]
  constructor
  · intro hcounted
    have hm := hkept.metricsOf
    have hs := hkept.statsOf
    rw [hcounted.metrics] at hm
    rw [hcounted.stats] at hs
    exact ⟨List.append_right_eq_self.mp hm, List.append_right_eq_self.mp hs⟩
  · rintro ⟨hm, hs⟩
    have hmetricsOf := hkept.metricsOf
    have hstatsOf := hkept.statsOf
    rw [hm, List.append_nil] at hmetricsOf
    rw [hs, List.append_nil] at hstatsOf
    exact ⟨hmetricsOf, hstatsOf⟩

end

/-! ## Counters add up -/

/-- The names of the counters of a queue. -/
def statNames : List String := ["processed", "succeeded", "panicked", "failed"]

/-- What a result adds to a counter of its queue. -/
def WorkerResult.queueAmount (r : WorkerResult) (name : String) : ℕ :=
  if name = "processed" then r.jobCount
  else if name = "succeeded" then r.succeededJobs
  else if name = "panicked" then r.amount .panickedJobs
  else r.amount .failedJobs

/-- The counters of a queue are saturating sums over its results, one for each name. -/
theorem named_foldl_record (rs : List WorkerResult) :
    (rs.foldl QueueResultStats.record {}).named =
      statNames.map fun name => (name, min (total (·.queueAmount name) rs) i64Max) := by
  induction rs using List.reverseRecOn with
  | nil => rfl
  | append_singleton rs r ih =>
    have htotal : ∀ c : WorkerResult → ℕ, total c (rs ++ [r]) = total c rs + c r := by
      intro c
      simp [total]
    simp only [QueueResultStats.named, statNames, List.map_cons, List.map_nil, List.cons.injEq,
      Prod.mk.injEq, true_and, and_true] at ih
    obtain ⟨hprocessed, hsucceeded, hpanicked, hfailed⟩ := ih
    rw [List.foldl_append, List.foldl_cons, List.foldl_nil]
    simp only [QueueResultStats.named, statNames, List.map_cons, List.map_nil, List.cons.injEq,
      Prod.mk.injEq, true_and, and_true, htotal, QueueResultStats.record]
    cases hkind : r.kind <;>
      simp only [satAddI64, hprocessed, hsucceeded, hpanicked, hfailed, WorkerResult.queueAmount,
        WorkerResult.succeededJobs, WorkerResult.amount, hkind, reduceCtorEq, if_true, if_false,
        String.reduceEq] <;>
      omega

/-- The fields of two counters are the same only for the same queue and the same counter. -/
theorem statsField_inj (queue queue' : String) {name name' : String} (h : name ∈ statNames)
    (h' : name' ∈ statNames) :
    statsField queue name = statsField queue' name' ↔ queue = queue' ∧ name = name' := by
  constructor
  · intro he
    have hcolon : ∀ n ∈ statNames, ':' ∉ n.toList := by decide
    have hsplit : ∀ q n : String, n ∈ statNames →
        rsplitOnce ':' (statsField q n).toList = some (q.toList, n.toList) := by
      intro q n hn
      have hlist : (statsField q n).toList = q.toList ++ ':' :: n.toList := by simp [statsField]
      rw [hlist, rsplitOnce_append (hcolon n hn)]
    have hboth := hsplit queue name h
    rw [he, hsplit queue' name' h', Option.some.injEq, Prod.mk.injEq, String.toList_inj,
      String.toList_inj] at hboth
    exact ⟨hboth.1.symm, hboth.2.symm⟩
  · rintro ⟨rfl, rfl⟩
    rfl

section

variable {K : StorageKeys} {settings : CollectorSettings} {c : Collector}

/-- What the commands for one queue add to a counter is its own value, and nothing to counters of
other queues. -/
theorem sum_queueCommands (queue : String) {name : String} (hname : name ∈ statNames)
    (queue' : String) (values : String → ℕ) :
    (((statNames.map fun n => (n, values n)).filterMap fun v =>
      if 0 < v.2 then some (CounterCommand.hincr K.stats (statsField queue' v.1) v.2)
      else none).map (fieldWeight K.stats fun f => f = statsField queue name)).sum =
      if queue' = queue then values name else 0 := by
  have hone : ∀ l : List String, (∀ n ∈ l, n ∈ statNames) → l.Nodup →
      (((l.map fun n => (n, values n)).filterMap fun v =>
        if 0 < v.2 then some (CounterCommand.hincr K.stats (statsField queue' v.1) v.2)
        else none).map (fieldWeight K.stats fun f => f = statsField queue name)).sum =
        if queue' = queue ∧ name ∈ l then values name else 0 := by
    intro l hl hnodup
    induction l with
    | nil => simp
    | cons n l ih =>
      rw [List.nodup_cons] at hnodup
      have hrest := ih (fun n' hn' => hl n' (List.mem_cons_of_mem n hn')) hnodup.2
      have hfield := statsField_inj queue' queue (hl n List.mem_cons_self) hname
      rw [List.map_cons]
      by_cases hn : n = name
      · subst hn
        simp only [hnodup.1, and_false, if_false] at hrest
        by_cases hv : 0 < values n
        · rw [List.filterMap_cons_some (by rw [if_pos hv]), List.map_cons, List.sum_cons, hrest]
          simp [fieldWeight, hfield]
        · rw [List.filterMap_cons_none (by rw [if_neg hv]), hrest]
          simp [Nat.eq_zero_of_not_pos hv]
      · have hn' : ¬ name = n := fun h => hn h.symm
        simp only [List.mem_cons, hn', false_or]
        rw [← hrest]
        by_cases hv : 0 < values n
        · rw [List.filterMap_cons_some (by rw [if_pos hv]), List.map_cons, List.sum_cons]
          simp [fieldWeight, hfield, hn]
        · rw [List.filterMap_cons_none (by rw [if_neg hv])]
  rw [hone statNames (fun n hn => hn) (by decide)]
  simp [hname]

/-- **What a flush adds to a counter of a queue.** -/
theorem statsSum_flush {rs : List WorkerResult} {commands : List CounterCommand}
    (h : StatsFlushes K (recordStats rs) commands) (queue : String) {name : String}
    (hname : name ∈ statNames)
    (hfit : total (·.queueAmount name) (rs.filter fun r => r.queue = queue) ≤ i64Max) :
    (commands.map (fieldWeight K.stats fun f => f = statsField queue name)).sum =
      total (·.queueAmount name) (rs.filter fun r => r.queue = queue) := by
  obtain ⟨stats, hstats, rfl⟩ := h
  rw [flushResultStats, sum_flatMap_map, (hstats.map _).sum_eq]
  have hentries : ((recordStats rs).entries.map fun e => ((e.2.named.filterMap fun v =>
      if 0 < v.2 then some (CounterCommand.hincr K.stats (statsField e.1 v.1) v.2)
      else none).map (fieldWeight K.stats fun f => f = statsField queue name)).sum) =
      (recordStats rs).entries.map fun e => if e.1 = queue then
        min (total (·.queueAmount name) (rs.filter fun r => r.queue = e.1)) i64Max else 0 := by
    apply List.map_congr_left
    intro e he
    rw [(Table.mem_collect.mp he).2, named_foldl_record, sum_queueCommands queue hname]
  rw [hentries]
  have hsum : total (·.queueAmount name) (rs.filter fun r => r.queue = queue) =
      (rs.map fun r => if r.queue = queue then r.queueAmount name else 0).sum := by
    rw [total]
    clear hfit hstats hentries
    induction rs with
    | nil => rfl
    | cons r rs ih => by_cases hr : r.queue = queue <;> simp [hr, ih]
  rw [hsum]
  apply Table.sum_collect rs (fun q _ => if q = queue then
    min (total (·.queueAmount name) (rs.filter fun r => r.queue = q)) i64Max else 0)
  intro q _
  have hgroup : ((rs.filter fun r => r.queue = q).map fun r =>
      if r.queue = queue then r.queueAmount name else 0) =
      (rs.filter fun r => r.queue = q).map fun r =>
        if q = queue then r.queueAmount name else 0 := by
    apply List.map_congr_left
    intro r hr
    have hq : r.queue = q := by simpa using (List.mem_filter.mp hr).2
    rw [hq]
  rw [hgroup]
  by_cases hq : q = queue
  · subst hq
    rw [if_pos rfl, min_eq_left hfit]
    simp [total]
  · simp [hq]

/-- **The counters of queues, once everything is counted**: what the server was
made to add is what the received results amount to. -/
theorem Collector.Counted.stats_sum (hc : c.Counted) (hk : c.Kept K) (queue : String)
    {name : String} (hname : name ∈ statNames)
    (hfit : total (·.queueAmount name) ((c.received.map Prod.snd).filter fun r =>
      r.queue = queue) ≤ i64Max) :
    ((c.appliedStats.flatMap AppliedFlush.commands).map
        (fieldWeight K.stats fun f => f = statsField queue name)).sum =
      total (·.queueAmount name) ((c.received.map Prod.snd).filter fun r => r.queue = queue) := by
  have hflushes : ∀ fs : List (AppliedFlush WorkerResult),
      (∀ f ∈ fs, StatsFlushes K (recordStats f.results) f.commands) →
      total (·.queueAmount name) ((fs.flatMap AppliedFlush.results).filter fun r =>
        r.queue = queue) ≤ i64Max →
      ((fs.flatMap AppliedFlush.commands).map
        (fieldWeight K.stats fun f => f = statsField queue name)).sum =
        total (·.queueAmount name) ((fs.flatMap AppliedFlush.results).filter fun r =>
          r.queue = queue) := by
    intro fs
    induction fs with
    | nil => intro _ _; rfl
    | cons f fs ih =>
      intro hfs hle
      have happend : ∀ l l' : List WorkerResult, total (·.queueAmount name)
          ((l ++ l').filter fun r => r.queue = queue) =
          total (·.queueAmount name) (l.filter fun r => r.queue = queue) +
            total (·.queueAmount name) (l'.filter fun r => r.queue = queue) := by
        intro l l'
        simp [total]
      rw [List.flatMap_cons, happend] at hle
      rw [List.flatMap_cons, List.flatMap_cons, happend, List.map_append, List.sum_append,
        ih (fun f' hf' => hfs f' (List.mem_cons_of_mem f hf')) (by omega),
        statsSum_flush (hfs f List.mem_cons_self) queue hname (by omega)]
  rw [← hc.stats] at hfit ⊢
  exact hflushes c.appliedStats hk.statsApplied hfit

/-- **The metrics, once everything is counted**: what the server was made to add
is what the received results amount to. -/
theorem Collector.Counted.metrics_sum (hc : c.Counted) (hk : c.Kept K)
    (hfit : StoredFit c.received) (m : Int) (P : String → Bool) :
    ((c.appliedMetrics.flatMap AppliedFlush.commands).map
        (fieldWeight (K.metricsCounterKey m) P)).sum =
      (c.received.map fun r => if r.1 = m then fieldAmount P r.2 else 0).sum := by
  rw [← hc.metrics] at hfit ⊢
  rw [sum_flatMap_map, sum_flatMap_map]
  apply congrArg List.sum
  apply List.map_congr_left
  intro f hf
  exact fieldSum_flush (hk.metricsApplied f hf) (hfit.of_mem hf) m P

end

/-! ## Two runs -/

section

/-- Settings with which ten failures in a row end the task. -/
def sampleSettings : CollectorSettings := ⟨10, none⟩

/-- The result of one job that was done in 5 ms. -/
def oneJob : WorkerResult := ⟨.success, "w", "q", 5, 1, by decide⟩

variable {K : StorageKeys}

/-- One result is received, and the channel is closed: a run of the collector up to its exit. -/
theorem received_one : CollectorRun K sampleSettings [.receive 0 oneJob, .close]
    { (Collector.receive sampleSettings { failures := 0 } 0 oneJob) with
      phase := .flushingMetrics } :=
  .step (.step (.start 0) (.receive rfl 0 oneJob)) (.close rfl)

/-- One job is done, and both flushes at the exit succeed: everything has been counted. -/
theorem one_counted : ∃ (acts : List CollectorAct) (c : Collector),
    CollectorRun (.new "ns") sampleSettings acts c ∧ c.phase = .returned ∧
      c.received = [(0, oneJob)] ∧ c.Counted := by
  have hrun := received_one (K := .new "ns")
  have hm := CollectorRun.step hrun (.lastMetrics rfl (.applied (by decide)
    ⟨_, _, .refl _, .refl _, rfl⟩))
  have hs := hm.step (.lastStats rfl (.applied (by decide) ⟨_, .refl _, rfl⟩))
  have hr := hs.step (.lastRefresh rfl (.done (fun _ => 0) (by decide)))
  refine ⟨_, _, hr, rfl, rfl, (collector_counts_iff hr rfl).1.mpr ⟨?_, ?_⟩⟩ <;> simp

/-- A run whose flushes on exit fail returns all the same, and the server was
never made to count the job. -/
theorem one_uncounted : ∃ (acts : List CollectorAct) (c : Collector),
    CollectorRun (.new "ns") sampleSettings acts c ∧ c.phase = .returned ∧
      c.received = [(0, oneJob)] ∧ c.appliedMetrics = [] ∧ c.appliedStats = [] ∧
        ¬ c.Counted := by
  have hrun := received_one (K := .new "ns")
  have hm := CollectorRun.step hrun (.lastMetrics rfl (.failed (by decide)))
  have hs := hm.step (.lastStats rfl (.failed (by decide)))
  have hr := hs.step (.lastRefresh rfl (.failed (by decide)))
  refine ⟨_, _, hr, by decide, rfl, rfl, rfl, fun h => ?_⟩
  have := h.metrics
  simp [Collector.receive, Collector.recordFailure] at this

end

end Oxana
