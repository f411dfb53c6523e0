import Oxana.Aggregation

/-!
# Buffers and flushes are sums

A record of a buffer is the saturating sum of the results of its minute and
worker (`get_foldl_record`), and the commands of a flush, taken together, add to
the fields of a minute's hash and to the buckets of a histogram what the
recorded results amount to (`fieldSum_flush`, `cellSum_flush`) — whatever the
order in which the records come.
-/

namespace Oxana

open Redis CounterStore

/-! ## What a result amounts to -/

namespace WorkerResult

/-- What a result adds to each counter of its worker. -/
def amount (r : WorkerResult) : JobMetric → ℕ
  | .processedJobs => r.jobCount
  | .failedJobs => if r.kind = .success then 0 else r.jobCount
  | .panickedJobs => if r.kind = .panicked then r.jobCount else 0
  | .successfulExecutions => if r.kind = .success then 1 else 0
  | .failedExecutions => if r.kind = .success then 0 else 1
  | .panickedExecutions => if r.kind = .panicked then 1 else 0
  | .executionMs => if r.kind = .success then r.executionMs else 0

/-- How many jobs of a result have succeeded. -/
def succeededJobs (r : WorkerResult) : ℕ := if r.kind = .success then r.jobCount else 0

/-- What a result adds to a bucket of the histogram. -/
def bucketAmount (r : WorkerResult) (i : ℕ) : ℕ :=
  if r.kind = .success ∧ histogramBucketIndex r.executionMs = i then 1 else 0

/-- The worker whose result it is. -/
def identity (r : WorkerResult) : MetricIdentity := MetricIdentity.fromWorkerResult r

end WorkerResult

/-- The sum of an amount over results. -/
def total (c : WorkerResult → ℕ) (rs : List WorkerResult) : ℕ := (rs.map c).sum

/-- Fewer results amount to no more. -/
theorem total_sublist (c : WorkerResult → ℕ) {rs rs' : List WorkerResult} (h : rs'.Sublist rs) :
    total c rs' ≤ total c rs := by
  induction h with
  | slnil => exact Nat.le_refl _
  | cons r h ih => exact Nat.le_trans ih (by simp [total])
  | cons_cons r h ih => simpa [total] using ih

/-! ## Buffers are sums -/

theorem satAdd_le (a b : ℕ) : satAdd a b ≤ u64Max := min_le_right ..

/-- Recording a result adds its amount to each counter, up to the largest number. -/
theorem get_record {m : PendingJobMetrics} (hm : ∀ k, m.get k ≤ u64Max) (r : WorkerResult)
    (k : JobMetric) : (m.record r).get k = min (m.get k + r.amount k) u64Max := by
  have hmin : min (m.get k) u64Max = m.get k := min_eq_left (hm k)
  obtain ⟨kind, _, _, _, _, _⟩ := r
  cases kind <;> cases k <;>
    simp_all [PendingJobMetrics.record, PendingJobMetrics.get, WorkerResult.amount, satAdd]

/-- A record is the saturating sum of its results, counter by counter. -/
theorem get_foldl_record (rs : List WorkerResult) {m : PendingJobMetrics}
    (hm : ∀ k, m.get k ≤ u64Max) (k : JobMetric) :
    (rs.foldl PendingJobMetrics.record m).get k =
      min (m.get k + total (·.amount k) rs) u64Max := by
  induction rs generalizing m with
  | nil => exact (min_eq_left (hm k)).symm
  | cons r rs ih =>
    have hr : ∀ k, (m.record r).get k ≤ u64Max := by
      intro k
      rw [get_record hm]
      exact min_le_right ..
    rw [List.foldl_cons, ih hr, get_record hm]
    simp only [total, List.map_cons, List.sum_cons]
    omega

/-- Recording a result adds to the buckets of its histogram, up to the largest number. -/
theorem histogram_record {m : PendingJobMetrics} (hm : ∀ i, m.histogram i ≤ u64Max)
    (r : WorkerResult) (i : ℕ) :
    (m.record r).histogram i = min (m.histogram i + r.bucketAmount i) u64Max := by
  have hmin : min (m.histogram i) u64Max = m.histogram i := min_eq_left (hm i)
  obtain ⟨kind, _, _, ms, _, _⟩ := r
  cases kind with
  | success =>
    by_cases hi : i = histogramBucketIndex ms
    · subst hi
      simp [PendingJobMetrics.record, WorkerResult.bucketAmount, satAdd]
    · have hi' : ¬ histogramBucketIndex ms = i := fun h => hi h.symm
      simp [PendingJobMetrics.record, WorkerResult.bucketAmount, hi, hi', hmin]
  | panicked => simp [PendingJobMetrics.record, WorkerResult.bucketAmount, hmin]
  | failed => simp [PendingJobMetrics.record, WorkerResult.bucketAmount, hmin]

/-- The histogram of a record is the saturating sum of its results, bucket by bucket. -/
theorem histogram_foldl_record (rs : List WorkerResult) {m : PendingJobMetrics}
    (hm : ∀ i, m.histogram i ≤ u64Max) (i : ℕ) :
    (rs.foldl PendingJobMetrics.record m).histogram i =
      min (m.histogram i + total (·.bucketAmount i) rs) u64Max := by
  induction rs generalizing m with
  | nil => exact (min_eq_left (hm i)).symm
  | cons r rs ih =>
    have hr : ∀ i, (m.record r).histogram i ≤ u64Max := by
      intro i
      rw [histogram_record hm]
      exact min_le_right ..
    rw [List.foldl_cons, ih hr, histogram_record hm]
    simp only [total, List.map_cons, List.sum_cons]
    omega

/-- The key of the record to which a result belongs. -/
def recordKey (r : Int × WorkerResult) : Int × MetricIdentity := (r.1, r.2.identity)

/-- A buffer groups the results by minute and worker, and its entries are the records of the groups.
-/
theorem recordAll_entries (rs : List (Int × WorkerResult)) :
    (JobMetricsBuffer.recordAll rs).entries =
      Table.collect recordKey {} (fun m r => m.record r.2) rs := by
  induction rs using List.reverseRecOn with
  | nil => rfl
  | append_singleton rs r ih =>
    rw [Table.collect_concat, ← ih, JobMetricsBuffer.recordAll, List.foldl_append]
    rfl

/-- What is in a record of a buffer: the sums over the results of its own minute and worker. -/
theorem record_of_mem {rs : List (Int × WorkerResult)}
    {e : (Int × MetricIdentity) × PendingJobMetrics}
    (he : e ∈ (JobMetricsBuffer.recordAll rs).entries.entries) :
    (∃ r ∈ rs, recordKey r = e.1) ∧
      e.2 = ((rs.filter fun r => recordKey r = e.1).map Prod.snd).foldl
        PendingJobMetrics.record {} := by
  rw [recordAll_entries, Table.mem_collect, List.mem_map] at he
  rw [List.foldl_map]
  exact he

/-! ## Keys -/

section

variable {K : StorageKeys}

theorem toString_int_inj {m m' : Int} : toString m = toString m' ↔ m = m' := by
  constructor
  · intro h
    have htext : ∀ z : Int, (toString z).toList = Json.Number.intText z := by
      rintro (n | n) <;> simp [toString, Int.repr, Json.Number.intText, Json.Number.natText]
    have hlist : Json.Number.intText m = Json.Number.intText m' := by
      rw [← htext, ← htext, h]
    have hnumber : Json.Number.ofInt m = Json.Number.ofInt m' := by
      simp only [Json.Number.ofInt, hlist]
    have hread := Json.Number.toInt?_ofInt m
    rw [hnumber, Json.Number.toInt?_ofInt, Option.some.injEq] at hread
    exact hread.symm
  · rintro rfl
    rfl

/-- The keys of two minutes are the same only if the minutes are. -/
theorem counterKey_inj {m m' : Int} : K.metricsCounterKey m = K.metricsCounterKey m' ↔ m = m' := by
  rw [StorageKeys.metricsCounterKey, StorageKeys.metricsCounterKey, String.append_right_inj,
    toString_int_inj]

/-- The key for queues in a minute is never that for workers. -/
theorem queueCounterKey_ne (m m' : Int) : K.metricsQueueCounterKey m ≠ K.metricsCounterKey m' := by
  intro h
  rw [StorageKeys.metricsQueueCounterKey, StorageKeys.metricsCounterKey, String.append_assoc,
    String.append_assoc, String.append_right_inj] at h
  have := congrArg String.toList h
  simp at this

/-- The key of a histogram is never that of the counters of a minute. -/
theorem histogramKey_ne (i : MetricIdentity) (m m' : Int) :
    K.metricsHistogramKey i m ≠ K.metricsCounterKey m' := by
  intro h
  simp only [StorageKeys.metricsHistogramKey, StorageKeys.metricsCounterKey, String.append_assoc,
    String.append_right_inj] at h
  have := congrArg String.toList h
  simp at this

theorem histogramKey_ne_queue (i : MetricIdentity) (m m' : Int) :
    K.metricsHistogramKey i m ≠ K.metricsQueueCounterKey m' := by
  intro h
  simp only [StorageKeys.metricsHistogramKey, StorageKeys.metricsQueueCounterKey,
    String.append_assoc, String.append_right_inj] at h
  have := congrArg String.toList h
  simp at this

/-- The keys of two histograms are the same only if their workers and minutes are. -/
theorem histogramKey_inj {i i' : MetricIdentity} {m m' : Int} :
    K.metricsHistogramKey i m = K.metricsHistogramKey i' m' ↔ i = i' ∧ m = m' := by
  constructor
  · intro h
    simp only [StorageKeys.metricsHistogramKey, String.append_assoc,
      String.append_right_inj] at h
    obtain ⟨rfl, hrest⟩ := fieldKey_append_inj h
    rw [String.append_right_inj, toString_int_inj] at hrest
    exact ⟨rfl, hrest⟩
  · rintro ⟨rfl, rfl⟩
    rfl

/-- The fields of two counters are the same only if their workers and the counters are. -/
theorem metricField_inj {i i' : MetricIdentity} {k k' : JobMetric} :
    i.metricField k.name = i'.metricField k'.name ↔ i = i' ∧ k = k' := by
  constructor
  · intro h
    have hsplit := splitMetricField_metricField i k
    rw [h, splitMetricField_metricField, Option.some.injEq, Prod.mk.injEq] at hsplit
    exact ⟨hsplit.1.symm, hsplit.2.symm⟩
  · rintro ⟨rfl, rfl⟩
    rfl

end

/-! ## Flushes are sums -/

/-- What a command adds to those fields of a hash that are selected. -/
def fieldWeight (key : Key) (P : String → Bool) : CounterCommand → ℕ
  | .hincr k f n => if k = key ∧ P f then n.toNat else 0
  | _ => 0

/-- What a command adds to a cell of an array under a key. -/
def cellWeight (key : Key) (b : ℕ) : CounterCommand → ℕ
  | .bitfield k increments => if k = key then cellSum b increments else 0
  | _ => 0

/-- An increment that is sent to the server is limited to what a signed number can hold. -/
theorem toNat_redisMetricIncrement (v : ℕ) : (redisMetricIncrement v).toNat = min v i64Max :=
  Int.toNat_natCast _

/-- The increments of one key, weighed for the selected fields of a key, add up over the increments
that are sent. -/
theorem sum_incrementCommands {ι : Type} (key key' : Key) (field : ι → String)
    (increments : List (ι × ℕ)) (P : String → Bool) :
    ((incrementCommands key' field increments).map (fieldWeight key P)).sum =
      if key' = key then
        (increments.map fun e => if P (field e.1) then min e.2 i64Max else 0).sum
      else 0 := by
  induction increments with
  | nil => simp [incrementCommands]
  | cons e es ih =>
    have hcons : incrementCommands key' field (e :: es) =
        (if 0 < e.2 then [.hincr key' (field e.1) (redisMetricIncrement e.2)] else []) ++
          incrementCommands key' field es := by
      rw [incrementCommands, incrementCommands, List.filterMap_cons]
      split <;> split <;> simp_all
    rw [hcons, List.map_append, List.sum_append, ih]
    by_cases hk : key' = key
    · by_cases hv : 0 < e.2
      · simp [hk, hv, fieldWeight, toNat_redisMetricIncrement]
      · simp [hk, Nat.eq_zero_of_not_pos hv]
    · split <;> simp [hk, fieldWeight]

section

variable {K : StorageKeys}

/-- What a record adds to selected fields of a minute's hash: its counters, if it is a record of
that minute. -/
theorem fieldSum_recordCommands (m : Int) (P : String → Bool)
    (e : (Int × MetricIdentity) × PendingJobMetrics) :
    ((recordCommands K e).map (fieldWeight (K.metricsCounterKey m) P)).sum =
      if e.1.1 = m then (JobMetric.all.map fun k =>
        if P (e.1.2.metricField k.name) then min (e.2.get k) i64Max else 0).sum
      else 0 := by
  have hrest : ∀ args : List (ℕ × ℕ), ((if args ≠ [] then
      [CounterCommand.bitfield (K.metricsHistogramKey e.1.2 e.1.1) args,
        .expire (K.metricsHistogramKey e.1.2 e.1.1) metricsRetentionSecs]
      else []).map (fieldWeight (K.metricsCounterKey m) P)).sum = 0 := by
    intro args
    split <;> simp [fieldWeight]
  simp only [recordCommands, List.map_append, List.sum_append, sum_incrementCommands, hrest,
    counterKey_inj, PendingJobMetrics.increments, List.map_map, Function.comp_def,
    List.map_singleton, List.sum_singleton, fieldWeight, Nat.add_zero]

/-- What a record of a queue adds to the hash for workers is nothing. -/
theorem fieldSum_queueRecordCommands (m : Int) (P : String → Bool)
    (e : (Int × String) × QueueCounterTotals) :
    ((queueRecordCommands K e).map (fieldWeight (K.metricsCounterKey m) P)).sum = 0 := by
  simp only [queueRecordCommands, List.map_append, List.sum_append, sum_incrementCommands,
    if_neg (queueCounterKey_ne e.1.1 m), List.map_singleton, List.sum_singleton, fieldWeight]

/-- The arguments for a histogram add the count of each bucket to that bucket. -/
theorem cellSum_histogramArgs (h : ℕ → ℕ) (b : ℕ) :
    cellSum b (histogramBitfieldIncrementArgs h) =
      if b < histogramBucketCount then h b else 0 := by
  have hfilter : ∀ l : List (ℕ × ℕ), cellSum b (l.filter fun e => e.2 ≠ 0) = cellSum b l := by
    intro l
    induction l with
    | nil => rfl
    | cons e l ih =>
      by_cases he : e.2 = 0
      · rw [List.filter_cons_of_neg (by simpa using he), ih]
        simp [cellSum, he]
      · rw [List.filter_cons_of_pos (by simpa using he)]
        simp only [cellSum, List.map_cons, List.sum_cons] at ih ⊢
        rw [ih]
  have hrange : ∀ n, cellSum b ((List.range n).map fun i => (i, h i)) = if b < n then h b else 0 := by
    intro n
    induction n with
    | zero => rfl
    | succ n ih =>
      rw [List.range_succ, List.map_append, cellSum_append, ih]
      by_cases hb : b = n
      · subst hb
        simp [cellSum]
      · have hn : ¬ n = b := fun h => hb h.symm
        have hlt : b < n + 1 ↔ b < n := by omega
        simp [cellSum, hn, hlt]
  rw [histogramBitfieldIncrementArgs, hfilter, hrange]

/-- What a record adds to a bucket of a histogram: its count there, if it is a record of that worker
and minute. -/
theorem cellSum_recordCommands (i : MetricIdentity) (m : Int) (b : ℕ)
    (e : (Int × MetricIdentity) × PendingJobMetrics) :
    ((recordCommands K e).map (cellWeight (K.metricsHistogramKey i m) b)).sum =
      if e.1 = (m, i) ∧ b < histogramBucketCount then e.2.histogram b else 0 := by
  have hincr : ∀ l : List (JobMetric × ℕ), ((incrementCommands (K.metricsCounterKey e.1.1)
      (fun k : JobMetric => e.1.2.metricField k.name) l).map
        (cellWeight (K.metricsHistogramKey i m) b)).sum = 0 := by
    intro l
    apply List.sum_eq_zero
    intro x hx
    obtain ⟨c, hc, rfl⟩ := List.mem_map.mp hx
    obtain ⟨y, -, hy⟩ := List.mem_filterMap.mp hc
    split at hy <;> cases hy
    rfl
  have hkey : K.metricsHistogramKey e.1.2 e.1.1 = K.metricsHistogramKey i m ↔ e.1 = (m, i) := by
    rw [histogramKey_inj, Prod.ext_iff, and_comm]
  have hargs := cellSum_histogramArgs e.2.histogram b
  rw [recordCommands]
  simp only [List.map_append, List.sum_append, hincr]
  by_cases hnil : histogramBitfieldIncrementArgs e.2.histogram = []
  · have hzero : (if b < histogramBucketCount then e.2.histogram b else 0) = 0 := by
      rw [← hargs, hnil]
      rfl
    rw [if_neg (not_not.mpr hnil)]
    by_cases hb : b < histogramBucketCount
    · rw [if_pos hb] at hzero
      simp [cellWeight, hzero]
    · simp [cellWeight, hb]
  · rw [if_pos hnil]
    by_cases he : e.1 = (m, i)
    · simp [cellWeight, he, hargs]
    · simp [cellWeight, hkey, he]

/-- What a record of a queue adds to a histogram is nothing. -/
theorem cellSum_queueRecordCommands (key : Key) (b : ℕ)
    (e : (Int × String) × QueueCounterTotals) :
    ((queueRecordCommands K e).map (cellWeight key b)).sum = 0 := by
  apply List.sum_eq_zero
  intro x hx
  obtain ⟨c, hc, rfl⟩ := List.mem_map.mp hx
  rcases List.mem_append.mp hc with hc | hc
  · obtain ⟨y, -, hy⟩ := List.mem_filterMap.mp hc
    split at hy <;> cases hy
    rfl
  · rw [List.mem_singleton] at hc
    rw [hc]
    rfl

end

/-- The results of one minute and one worker. -/
def groupOf (key : Int × MetricIdentity) (rs : List (Int × WorkerResult)) : List WorkerResult :=
  (rs.filter fun r => recordKey r = key).map Prod.snd

/-- The sums of the results are within the limits of the types in which they are stored, for every
field and every bucket. -/
structure StoredFit (rs : List (Int × WorkerResult)) : Prop where
  /-- the fields of a hash -/
  fields : ∀ key k, total (·.amount k) (groupOf key rs) ≤ i64Max
  /-- the buckets of a histogram -/
  buckets : ∀ key b, total (·.bucketAmount b) (groupOf key rs) ≤ 65535

/-- What limits all results limits some of them. -/
theorem StoredFit.sublist {rs rs' : List (Int × WorkerResult)} (h : StoredFit rs)
    (hs : rs'.Sublist rs) : StoredFit rs' := by
  have hgroup : ∀ key, (groupOf key rs').Sublist (groupOf key rs) := fun key =>
    (hs.filter _).map Prod.snd
  exact ⟨fun key k => Nat.le_trans (total_sublist _ (hgroup key)) (h.fields key k),
    fun key b => Nat.le_trans (total_sublist _ (hgroup key)) (h.buckets key b)⟩

/-- What limits several flushes together limits each of them. -/
theorem StoredFit.of_mem {α : Type} {results : α → List (Int × WorkerResult)} {fs : List α}
    (h : StoredFit (fs.flatMap results)) {f : α} (hf : f ∈ fs) : StoredFit (results f) := by
  obtain ⟨before, after, rfl⟩ := List.append_of_mem hf
  apply h.sublist
  rw [List.flatMap_append, List.flatMap_cons]
  exact (List.sublist_append_left ..).trans (List.sublist_append_right ..)

/-- What a result adds to selected fields of the hash of its minute. -/
def fieldAmount (P : String → Bool) (r : WorkerResult) : ℕ :=
  (JobMetric.all.map fun k => if P (r.identity.metricField k.name) then r.amount k else 0).sum

/-- The results of one worker can be summed up field by field. -/
theorem sum_fieldAmount {i : MetricIdentity} (P : String → Bool) {rs : List WorkerResult}
    (h : ∀ r ∈ rs, r.identity = i) : (rs.map (fieldAmount P)).sum =
      (JobMetric.all.map fun k =>
        if P (i.metricField k.name) then total (·.amount k) rs else 0).sum := by
  induction rs with
  | nil => simp [total]
  | cons r rs ih =>
    have hsplit : ∀ k : JobMetric,
        (if P (i.metricField k.name) then total (·.amount k) (r :: rs) else 0) =
          (if P (i.metricField k.name) then r.amount k else 0) +
            if P (i.metricField k.name) then total (·.amount k) rs else 0 := by
      intro k
      split <;> simp [total]
    rw [List.map_cons, List.sum_cons, ih fun r' hr' => h r' (List.mem_cons_of_mem r hr')]
    simp only [hsplit, List.sum_map_add]
    rw [fieldAmount, h r List.mem_cons_self]

/-- A sum over the records of a buffer is a sum over the results that were recorded in it. -/
theorem sum_records (rs : List (Int × WorkerResult))
    (w : (Int × MetricIdentity) → PendingJobMetrics → ℕ) (c : Int × WorkerResult → ℕ)
    (hw : ∀ key, w key ((groupOf key rs).foldl PendingJobMetrics.record {}) =
      ((rs.filter fun r => recordKey r = key).map c).sum) :
    ((JobMetricsBuffer.recordAll rs).entries.entries.map fun e => w e.1 e.2).sum =
      (rs.map c).sum := by
  rw [recordAll_entries]
  apply Table.sum_collect
  intro key _
  rw [← hw key, groupOf, List.foldl_map]

theorem sum_flatMap_map {α β : Type} (l : List α) (f : α → List β) (w : β → ℕ) :
    ((l.flatMap f).map w).sum = (l.map fun a => ((f a).map w).sum).sum := by
  induction l with
  | nil => rfl
  | cons a l ih => simp [ih]

section

variable {K : StorageKeys} {rs : List (Int × WorkerResult)} {commands : List CounterCommand}

/-- The commands of a flush can be weighed record by record, whatever the order in which the map
gives them. -/
theorem sum_flush (h : Flushes K (JobMetricsBuffer.recordAll rs) commands)
    (w : CounterCommand → ℕ) (hq : ∀ e, ((queueRecordCommands K e).map w).sum = 0) :
    (commands.map w).sum = ((JobMetricsBuffer.recordAll rs).entries.entries.map fun e =>
      ((recordCommands K e).map w).sum).sum := by
  obtain ⟨records, queueRecords, hrecords, -, rfl⟩ := h
  have hzero : (queueRecords.map fun e => ((queueRecordCommands K e).map w).sum).sum = 0 := by
    apply List.sum_eq_zero
    intro x hx
    obtain ⟨e, -, rfl⟩ := List.mem_map.mp hx
    exact hq e
  rw [flushJobMetrics, List.map_append, List.sum_append, sum_flatMap_map, sum_flatMap_map, hzero,
    Nat.add_zero]
  exact (hrecords.map _).sum_eq

/-- **What a flush adds to the hash of a minute**, to selected fields together, is the sum over its
results of that minute. -/
theorem fieldSum_flush (h : Flushes K (JobMetricsBuffer.recordAll rs) commands)
    (hfit : StoredFit rs) (m : Int) (P : String → Bool) :
    (commands.map (fieldWeight (K.metricsCounterKey m) P)).sum =
      (rs.map fun r => if r.1 = m then fieldAmount P r.2 else 0).sum := by
  rw [sum_flush h _ (fieldSum_queueRecordCommands m P)]
  simp only [fieldSum_recordCommands]
  apply sum_records rs (fun key v => if key.1 = m then (JobMetric.all.map fun k =>
    if P (key.2.metricField k.name) then min (v.get k) i64Max else 0).sum else 0)
    (fun r => if r.1 = m then fieldAmount P r.2 else 0)
  intro key
  have hget : ∀ k, min (((groupOf key rs).foldl PendingJobMetrics.record {}).get k) i64Max =
      total (·.amount k) (groupOf key rs) := by
    intro k
    have hzero : ({} : PendingJobMetrics).get k = 0 := by cases k <;> rfl
    have hlimit := hfit.fields key k
    have hle : i64Max ≤ u64Max := by decide
    rw [get_foldl_record _ (fun k => by cases k <;> exact Nat.zero_le _), hzero]
    omega
  have hgroup : ((rs.filter fun r => recordKey r = key).map fun r =>
        if r.1 = m then fieldAmount P r.2 else 0).sum =
      if key.1 = m then ((groupOf key rs).map (fieldAmount P)).sum else 0 := by
    have hkey : ∀ r ∈ rs.filter (fun r => recordKey r = key), r.1 = key.1 := by
      intro r hr
      have := (List.mem_filter.mp hr).2
      rw [decide_eq_true_eq] at this
      rw [← this]
      rfl
    rw [List.map_congr_left fun r hr => by rw [hkey r hr]]
    split
    · rw [groupOf, List.map_map]
      rfl
    · simp
  rw [hgroup, sum_fieldAmount P (i := key.2)]
  · simp only [hget]
  · intro r hr
    obtain ⟨r', hr', rfl⟩ := List.mem_map.mp hr
    have := (List.mem_filter.mp hr').2
    rw [decide_eq_true_eq] at this
    rw [← this]
    rfl

/-- **What a flush adds to a bucket of a histogram** is the sum over its results of that worker and
minute. -/
theorem cellSum_flush (h : Flushes K (JobMetricsBuffer.recordAll rs) commands)
    (hfit : StoredFit rs) (i : MetricIdentity) (m : Int) {b : ℕ} (hb : b < histogramBucketCount) :
    (commands.map (cellWeight (K.metricsHistogramKey i m) b)).sum =
      (rs.map fun r => if recordKey r = (m, i) then r.2.bucketAmount b else 0).sum := by
  rw [sum_flush h _ (cellSum_queueRecordCommands _ b)]
  simp only [cellSum_recordCommands]
  apply sum_records rs (fun key v =>
    if key = (m, i) ∧ b < histogramBucketCount then v.histogram b else 0)
    (fun r => if recordKey r = (m, i) then r.2.bucketAmount b else 0)
  intro key
  have hlimit := hfit.buckets key b
  have hgroup : ((rs.filter fun r => recordKey r = key).map fun r =>
        if recordKey r = (m, i) then r.2.bucketAmount b else 0).sum =
      if key = (m, i) then total (·.bucketAmount b) (groupOf key rs) else 0 := by
    have hkey : ∀ r ∈ rs.filter (fun r => recordKey r = key), recordKey r = key := by
      intro r hr
      simpa using (List.mem_filter.mp hr).2
    rw [List.map_congr_left fun r hr => by rw [hkey r hr]]
    split
    · rw [groupOf, total, List.map_map]
      rfl
    · simp
  rw [hgroup, histogram_foldl_record _ (fun _ => Nat.zero_le _)]
  have hle : 65535 ≤ u64Max := by decide
  by_cases hkey : key = (m, i)
  · rw [if_pos ⟨hkey, hb⟩, if_pos hkey]
    change min (0 + _) u64Max = _
    omega
  · rw [if_neg (fun h => hkey h.1), if_neg hkey]

end

end Oxana
