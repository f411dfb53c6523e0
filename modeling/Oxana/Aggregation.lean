import Oxana.Metrics

/-!
# What aggregation adds up

`aggregateCounterHashes` goes through the hashes of a window once and updates
three accumulators at every field. Read separately, each of them is a sum over
the decoded fields: the totals over all of them, a point of the series over
those of its minute, a worker's counters over those of that worker. A sum does
not depend on the order, and the workers are sorted by a total order in the
end, so the result is the same for every iteration order
(`aggregateCounterHashes_eq`).
-/

namespace Oxana

/-! ## Counters as functions -/

namespace JobMetricsTotals

/-- The value of one counter of the totals. -/
def get (t : JobMetricsTotals) : JobMetric → ℕ
  | .processedJobs => t.processed
  | .failedJobs => t.failed
  | .panickedJobs => t.panicked
  | .successfulExecutions => t.successfulExecutions
  | .failedExecutions => t.failedExecutions
  | .panickedExecutions => t.panickedExecutions
  | .executionMs => t.executionMs

/-- Totals whose counters have given values, not finalized. -/
def ofCounts (c : JobMetric → ℕ) : JobMetricsTotals where
  processed := c .processedJobs
  failed := c .failedJobs
  panicked := c .panickedJobs
  successfulExecutions := c .successfulExecutions
  failedExecutions := c .failedExecutions
  panickedExecutions := c .panickedExecutions
  executionMs := c .executionMs

theorem ofCounts_zero : ofCounts (fun _ => 0) = {} := rfl

/-- Adding to one counter adds to it and to no other, up to the largest number. -/
theorem addMetric_ofCounts {c : JobMetric → ℕ} (hc : ∀ k, c k ≤ u64Max) (k : JobMetric) (v : ℕ) :
    (ofCounts c).addMetric k v =
      ofCounts fun j => min (c j + if k = j then v else 0) u64Max := by
  have hmin : ∀ j, min (c j) u64Max = c j := fun j => min_eq_left (hc j)
  cases k <;> simp [addMetric, ofCounts, satAdd, hmin]

end JobMetricsTotals

/-- A decoded field: whose it is, what it counts, and how much it holds. -/
abbrev Sample := MetricIdentity × JobMetric × ℕ

/-- How much a list of samples adds to a counter. -/
def addedUp (k : JobMetric) (xs : List Sample) : ℕ :=
  (xs.map fun x => if x.2.1 = k then x.2.2 else 0).sum

/-- Adding samples one by one, saturating each time, is adding them all up and saturating once. -/
theorem foldl_addMetric (xs : List Sample) {c : JobMetric → ℕ} (hc : ∀ k, c k ≤ u64Max) :
    xs.foldl (fun t x => t.addMetric x.2.1 x.2.2) (JobMetricsTotals.ofCounts c) =
      JobMetricsTotals.ofCounts fun k => min (c k + addedUp k xs) u64Max := by
  induction xs generalizing c with
  | nil =>
    have hmin : ∀ k, min (c k) u64Max = c k := fun k => min_eq_left (hc k)
    simp [addedUp, hmin]
  | cons x xs ih =>
    rw [List.foldl_cons, JobMetricsTotals.addMetric_ofCounts hc, ih fun k => min_le_right ..]
    congr 1
    funext k
    simp only [addedUp, List.map_cons, List.sum_cons]
    omega

/-- The counters that a list of samples adds up to. -/
def counters (xs : List Sample) : JobMetricsTotals :=
  JobMetricsTotals.ofCounts fun k => min (addedUp k xs) u64Max

theorem foldl_addMetric_empty (xs : List Sample) :
    xs.foldl (fun t x => t.addMetric x.2.1 x.2.2) {} = counters xs := by
  rw [← JobMetricsTotals.ofCounts_zero, foldl_addMetric xs fun _ => Nat.zero_le _]
  simp [counters]

theorem foldl_addMetric_point (xs : List Sample) (p : JobMetricsPoint) :
    xs.foldl (fun p x => p.addMetric x.2.1 x.2.2) p =
      { p with toJobMetricsTotals :=
        xs.foldl (fun t x => t.addMetric x.2.1 x.2.2) p.toJobMetricsTotals } := by
  induction xs generalizing p with
  | nil => rfl
  | cons x xs ih => rw [List.foldl_cons, ih]; rfl

theorem addedUp_perm {k : JobMetric} {xs ys : List Sample} (h : xs.Perm ys) :
    addedUp k xs = addedUp k ys := (h.map _).sum_eq

/-- What the counters come to does not depend on the order of the samples. -/
theorem counters_perm {xs ys : List Sample} (h : xs.Perm ys) : counters xs = counters ys := by
  simp only [counters, addedUp_perm h]

/-! ## Points that are updated in place -/

/-- An element of a list after a series of updates has seen those of its own index, in their order.
-/
theorem getElem?_foldl_modify {α ι : Type} (ix : ι → ℕ) (g : ι → α → α) (xs : List ι) (l : List α)
    (j : ℕ) : (xs.foldl (fun l x => l.modify (ix x) (g x)) l)[j]? =
      l[j]?.map fun a => (xs.filter fun x => ix x = j).foldl (fun a x => g x a) a := by
  induction xs generalizing l with
  | nil => simp
  | cons x xs ih =>
    rw [List.foldl_cons, ih]
    by_cases hx : ix x = j
    · subst hx
      simp [Function.comp_def]
    · simp [hx]

/-- In a list of elements with their indices, the one of a given index is the element at this place.
-/
theorem filter_zipIdx {α : Type} (l : List α) (n j : ℕ) :
    (l.zipIdx n).filter (fun e => e.2 = n + j) = (l[j]?.map fun a => (a, n + j)).toList := by
  induction l generalizing n j with
  | nil => simp
  | cons a l ih =>
    cases j with
    | zero =>
      have hrest : (l.zipIdx (n + 1)).filter (fun e => e.2 = n) = [] := by
        rw [List.filter_eq_nil_iff]
        rintro ⟨b, i⟩ hb
        have := List.le_snd_of_mem_zipIdx hb
        simp only [decide_eq_true_eq]
        omega
      simp [hrest]
    | succ j =>
      have hj : n + (j + 1) = n + 1 + j := by omega
      have hn : ¬ n = n + 1 + j := by omega
      rw [hj, List.zipIdx_cons, List.filter_cons_of_neg (by simpa using hn), ih,
        List.getElem?_cons_succ]

/-! ## The loop -/

section

variable (it : Iteration) (template : List JobMetricsPoint) (filter : Option MetricIdentity)

/-- The samples of the hash of one minute, in the order they are met. -/
def minuteSamples (h : List (String × Int) × ℕ) : List Sample :=
  (it.fields h.2 h.1).filterMap (decodeField filter)

/-- What one sample does to the worker it is about. -/
def addToBuilder (b : WorkerMetricsSummaryBuilder) (x : ℕ × Sample) :
    WorkerMetricsSummaryBuilder :=
  ⟨b.totals.addMetric x.2.2.1 x.2.2.2, b.series.modify x.1 (·.addMetric x.2.2.1 x.2.2.2)⟩

/-- What one sample does to the map of workers. -/
def addToWorkers (t : Table MetricIdentity WorkerMetricsSummaryBuilder) (x : ℕ × Sample) :
    Table MetricIdentity WorkerMetricsSummaryBuilder :=
  t.modify x.2.1 ⟨{}, template⟩ (addToBuilder · x)

variable {it template filter}

/-- The fields of one minute, accumulator by accumulator: each of the three is changed as if there
were no others. -/
theorem foldl_aggregateField (m : List (String × Int)) (idx : ℕ) (a : Aggregating) :
    m.foldl (aggregateField template filter idx) a =
      { totals := (m.filterMap (decodeField filter)).foldl
          (fun t x => t.addMetric x.2.1 x.2.2) a.totals
        series := a.series.modify idx fun p => (m.filterMap (decodeField filter)).foldl
          (fun p x => p.addMetric x.2.1 x.2.2) p
        workers := ((m.filterMap (decodeField filter)).map fun x => (idx, x)).foldl
          (addToWorkers template) a.workers } := by
  induction m generalizing a with
  | nil =>
    have hid : a.series.modify idx (fun p => p) = a.series := List.modify_id ..
    simp [hid]
  | cons e m ih =>
    rw [List.foldl_cons, ih]
    cases he : decodeField filter e with
    | none => simp [aggregateField, he]
    | some x =>
      obtain ⟨i, k, v⟩ := x
      simp only [aggregateField, he, List.filterMap_cons, List.foldl_cons, List.map_cons,
        List.modify_modify_eq]
      rfl

/-- The hashes of a window, accumulator by accumulator: each of the three is changed as if there
were no others. -/
theorem foldl_aggregateHash (l : List (List (String × Int) × ℕ)) (a : Aggregating)
    (hl : ∀ h ∈ l, h.2 < a.series.length) :
    l.foldl (aggregateHash it template filter) a =
      { totals := (l.flatMap (minuteSamples it filter)).foldl
          (fun t x => t.addMetric x.2.1 x.2.2) a.totals
        series := l.foldl (fun s h => s.modify h.2 fun p =>
          ((minuteSamples it filter h).foldl (fun p x => p.addMetric x.2.1 x.2.2) p).finalize) a.series
        workers := (l.flatMap fun h => (minuteSamples it filter h).map fun x => (h.2, x)).foldl
          (addToWorkers template) a.workers } := by
  induction l generalizing a with
  | nil => rfl
  | cons h l ih =>
    have hh : h.2 < a.series.length := hl h List.mem_cons_self
    rw [List.foldl_cons, aggregateHash, if_pos hh, foldl_aggregateField, ih]
    · simp only [List.flatMap_cons, List.foldl_append, List.foldl_cons, List.modify_modify_eq,
        minuteSamples]
      rfl
    · intro h' hmem
      simpa using hl h' (List.mem_cons_of_mem h hmem)

/-- The samples of some minutes that carry a given index are those of the minute at this place. -/
theorem filter_flatMap_index (f : List (String × Int) × ℕ → List Sample)
    (l : List (List (String × Int) × ℕ)) (j : ℕ) :
    (l.flatMap fun h => (f h).map fun x => (h.2, x)).filter (fun x => x.1 = j) =
      (l.filter fun h => h.2 = j).flatMap fun h => (f h).map fun x => (h.2, x) := by
  induction l with
  | nil => rfl
  | cons h l ih =>
    have hfst : ∀ x ∈ (f h).map (fun x => (h.2, x)), x.1 = h.2 := by
      intro x hx
      obtain ⟨y, -, rfl⟩ := List.mem_map.mp hx
      rfl
    rw [List.flatMap_cons, List.filter_append, ih]
    by_cases hj : h.2 = j
    · rw [List.filter_eq_self.mpr fun x hx => by simp [hfst x hx, hj],
        List.filter_cons_of_pos (by simp [hj]), List.flatMap_cons]
    · rw [List.filter_eq_nil_iff.mpr fun x hx => by simp [hfst x hx, hj],
        List.filter_cons_of_neg (by simp [hj]), List.nil_append]

/-- A worker's counters after some samples, accumulator by accumulator. -/
theorem foldl_addToBuilder (xs : List (ℕ × Sample)) (b : WorkerMetricsSummaryBuilder) :
    xs.foldl addToBuilder b =
      ⟨(xs.map Prod.snd).foldl (fun t x => t.addMetric x.2.1 x.2.2) b.totals,
        xs.foldl (fun s x => s.modify x.1 (·.addMetric x.2.2.1 x.2.2.2)) b.series⟩ := by
  induction xs generalizing b with
  | nil => rfl
  | cons x xs ih => rw [List.foldl_cons, ih]; rfl

end

/-! ## The result -/

/-- The samples of a hash, of all workers or of one. -/
def hashSamples (filter : Option MetricIdentity) (h : List (String × Int)) : List Sample :=
  h.filterMap (decodeField filter)

/-- The finished point of a minute, made of its samples. -/
def pointOf (minute : Int) (xs : List Sample) : JobMetricsPoint :=
  { toJobMetricsTotals := (counters xs).finalize, timestamp := minute * 60 }

/-- Those samples that are about one worker. -/
def ofWorker (i : MetricIdentity) (xs : List Sample) : List Sample := xs.filter fun x => x.1 = i

section

variable (minutes : List Int) (H : Int → List (String × Int)) (filter : Option MetricIdentity)

/-- The samples of a window, minute by minute. -/
def windowSamples : List Sample := minutes.flatMap fun m => hashSamples filter (H m)

/-- What there is to say about one worker in a window. -/
def summaryOf (i : MetricIdentity) : WorkerMetricsSummary where
  identity := i
  totals := (counters (ofWorker i (windowSamples minutes H filter))).finalize
  series := minutes.map fun m => pointOf m (ofWorker i (hashSamples filter (H m)))

variable {minutes H filter} {it : Iteration}

variable (filter it) in
/-- The samples of a minute are those of its hash, in the order in which its fields come. -/
theorem minuteSamples_perm (h : List (String × Int)) (idx : ℕ) :
    (minuteSamples it filter (h, idx)).Perm (hashSamples filter h) :=
  (it.fields_perm idx h).filterMap _

/-- All samples that are added are those of the window, in the order in which minutes and fields
come. -/
theorem flatMap_minuteSamples_perm :
    ((minutes.map H).zipIdx.flatMap (minuteSamples it filter)).Perm
      (windowSamples minutes H filter) := by
  have hfst : ∀ l : List (List (String × Int) × ℕ), (l.flatMap (minuteSamples it filter)).Perm
      ((l.map Prod.fst).flatMap (hashSamples filter)) := by
    intro l
    rw [List.flatMap_map]
    exact List.Perm.flatMap_left l fun h _ => minuteSamples_perm filter it h.1 h.2
  have h := hfst (minutes.map H).zipIdx
  rwa [List.zipIdx_map_fst, List.flatMap_map] at h

theorem getElem?_emptySeries (j : ℕ) :
    (emptySeries minutes)[j]? = minutes[j]?.map fun m => { timestamp := m * 60 } := by
  simp [emptySeries]

variable (minutes H filter it) in
/-- Among the samples of all minutes, those of one minute are the samples of its hash. -/
theorem filter_index_perm (j : ℕ) :
    ((((minutes.map H).zipIdx.flatMap fun h =>
      (minuteSamples it filter h).map fun x => (h.2, x)).filter fun x => x.1 = j).map
        Prod.snd).Perm
      ((minutes[j]?.map fun m => hashSamples filter (H m)).getD []) := by
  have hz := filter_zipIdx (minutes.map H) 0 j
  simp only [Nat.zero_add] at hz
  rw [filter_flatMap_index, hz, List.getElem?_map]
  cases minutes[j]? with
  | none => exact .refl _
  | some m =>
    simpa [Function.comp_def] using minuteSamples_perm filter it (H m) j

/-- The series comes out point by point: each point has the counters of its own minute. -/
theorem series_eq : (minutes.map H).zipIdx.foldl (fun s h => s.modify h.2 fun p =>
      ((minuteSamples it filter h).foldl (fun p x => p.addMetric x.2.1 x.2.2) p).finalize)
      (emptySeries minutes) =
    minutes.map fun m => pointOf m (hashSamples filter (H m)) := by
  apply List.ext_getElem?
  intro j
  have hz := filter_zipIdx (minutes.map H) 0 j
  simp only [Nat.zero_add] at hz
  rw [getElem?_foldl_modify Prod.snd, hz, getElem?_emptySeries, List.getElem?_map,
    List.getElem?_map]
  cases minutes[j]? with
  | none => rfl
  | some m =>
    simp only [Option.map_some, Option.toList_some, List.foldl_cons, List.foldl_nil,
      foldl_addMetric_point, foldl_addMetric_empty, counters_perm (minuteSamples_perm filter it (H m) j)]
    rfl

theorem ofWorker_perm {xs ys : List Sample} (i : MetricIdentity) (h : xs.Perm ys) :
    (ofWorker i xs).Perm (ofWorker i ys) := h.filter _

theorem map_snd_filter_worker (i : MetricIdentity) (xs : List (ℕ × Sample)) :
    (xs.filter fun x => x.2.1 = i).map Prod.snd = ofWorker i (xs.map Prod.snd) := by
  rw [ofWorker, List.filter_map]
  rfl

variable (minutes H filter it) in
/-- The samples of a window with the indices of their minutes, as they are met. -/
def indexedSamples : List (ℕ × Sample) :=
  (minutes.map H).zipIdx.flatMap fun h => (minuteSamples it filter h).map fun x => (h.2, x)

theorem map_snd_indexedSamples : ((indexedSamples minutes H filter it).map Prod.snd).Perm
    (windowSamples minutes H filter) := by
  have h : (indexedSamples minutes H filter it).map Prod.snd =
      (minutes.map H).zipIdx.flatMap (minuteSamples it filter) := by
    rw [indexedSamples, List.map_flatMap]
    simp [Function.comp_def]
  rw [h]
  exact flatMap_minuteSamples_perm

/-- A worker's builder, when it is finished, is the summary of that worker's samples. -/
theorem finishSummary_eq (i : MetricIdentity) :
    finishSummary (i, ((indexedSamples minutes H filter it).filter fun x => x.2.1 = i).foldl
      addToBuilder ⟨{}, emptySeries minutes⟩) = summaryOf minutes H filter i := by
  have htotals : counters (ofWorker i ((indexedSamples minutes H filter it).map Prod.snd)) =
      counters (ofWorker i (windowSamples minutes H filter)) :=
    counters_perm (ofWorker_perm i map_snd_indexedSamples)
  have hseries : (((indexedSamples minutes H filter it).filter fun x => x.2.1 = i).foldl
        (fun s x => s.modify x.1 (·.addMetric x.2.2.1 x.2.2.2)) (emptySeries minutes)).map
        JobMetricsPoint.finalize =
      minutes.map fun m => pointOf m (ofWorker i (hashSamples filter (H m))) := by
    apply List.ext_getElem?
    intro j
    have hpoint := filter_index_perm minutes H filter it j
    have hfold : ∀ (ys : List (ℕ × Sample)) (p : JobMetricsPoint),
        ys.foldl (fun p x => p.addMetric x.2.2.1 x.2.2.2) p =
          (ys.map Prod.snd).foldl (fun p x => p.addMetric x.2.1 x.2.2) p := by
      intro ys p
      rw [List.foldl_map]
    rw [List.getElem?_map, getElem?_foldl_modify Prod.fst, getElem?_emptySeries,
      List.getElem?_map, List.filter_comm]
    cases hm : minutes[j]? with
    | none => rfl
    | some m =>
      rw [hm] at hpoint
      simp only [Option.map_some, hfold, map_snd_filter_worker, foldl_addMetric_point,
        foldl_addMetric_empty, indexedSamples, counters_perm (ofWorker_perm i hpoint)]
      rfl
  rw [foldl_addToBuilder, finishSummary, summaryOf, map_snd_filter_worker, foldl_addMetric_empty,
    htotals, hseries]

instance : Std.TransCmp summaryCmp := by
  have hms : Std.TransCmp fun a b : WorkerMetricsSummary =>
      compare b.totals.executionMs a.totals.executionMs :=
    @Std.TransCmp.opposite _ (compareOn fun s : WorkerMetricsSummary => s.totals.executionMs) _
  have hprocessed : Std.TransCmp fun a b : WorkerMetricsSummary =>
      compare b.totals.processed a.totals.processed :=
    @Std.TransCmp.opposite _ (compareOn fun s : WorkerMetricsSummary => s.totals.processed) _
  simp only [summaryCmp]
  infer_instance

/-- Two summaries of which neither comes before the other are of the same worker. -/
theorem identity_of_summaryCmp {a b : WorkerMetricsSummary} (h : summaryCmp a b = .eq) :
    a.identity = b.identity := by
  simp only [summaryCmp, compareLex_eq_eq, compareOn, Std.compare_eq_iff_eq] at h
  exact MetricIdentity.ext h.2.2

/-- Sorting the summaries of different workers does not depend on the order they come in. -/
theorem sort_summaries {l l' : List WorkerMetricsSummary} (h : l.Perm l')
    (hn : (l.map WorkerMetricsSummary.identity).Nodup) :
    (l.mergeSort fun a b => (summaryCmp a b).isLE) =
      l'.mergeSort fun a b => (summaryCmp a b).isLE := by
  have hsorted : ∀ l : List WorkerMetricsSummary,
      (l.mergeSort fun a b => (summaryCmp a b).isLE).Pairwise
        fun a b => (summaryCmp a b).isLE = true := by
    intro l
    apply List.pairwise_mergeSort
    · intro a b c hab hbc
      exact Std.TransCmp.isLE_trans hab hbc
    · intro a b
      rw [Bool.or_eq_true]
      by_contra hab
      rw [not_or] at hab
      exact absurd (Ordering.isLE_of_eq_lt (Std.OrientedCmp.lt_of_not_isLE hab.1)) hab.2
  have hp := List.mergeSort_perm l fun a b => (summaryCmp a b).isLE
  have hp' := List.mergeSort_perm l' fun a b => (summaryCmp a b).isLE
  refine List.Perm.eq_of_pairwise ?_ (hsorted l) (hsorted l') ((hp.trans h).trans hp'.symm)
  intro a b ha hb hab hba
  have hid := identity_of_summaryCmp (Std.OrientedCmp.isLE_antisymm hab hba)
  exact List.inj_on_of_nodup_map hn (hp.mem_iff.mp ha)
    (h.mem_iff.mpr (hp'.mem_iff.mp hb)) hid

variable (minutes H filter it) in
/-- **Aggregation, in any order**: the totals over all samples of the window,
the points over those of their minutes, and of every worker that has a sample
its own. -/
theorem aggregateCounterHashes_eq {ids : List MetricIdentity} (hn : ids.Nodup)
    (hids : ∀ i, i ∈ ids ↔ i ∈ (windowSamples minutes H filter).map Prod.fst) :
    aggregateCounterHashes it minutes (minutes.map H) filter =
      { totals := (counters (windowSamples minutes H filter)).finalize
        series := minutes.map fun m => pointOf m (hashSamples filter (H m))
        workers := (ids.map (summaryOf minutes H filter)).mergeSort
          fun a b => (summaryCmp a b).isLE } := by
  have hlength : ∀ h ∈ (minutes.map H).zipIdx, h.2 < (emptySeries minutes).length := by
    rintro ⟨h, j⟩ hmem
    have := List.snd_lt_of_mem_zipIdx hmem
    simpa [emptySeries] using this
  have hworkers : ∀ xs : List (ℕ × Sample),
      xs.foldl (addToWorkers (emptySeries minutes)) Table.empty =
        Table.collect (fun x => x.2.1) ⟨{}, emptySeries minutes⟩ addToBuilder xs := fun _ => rfl
  rw [aggregateCounterHashes, foldl_aggregateHash _ _ hlength]
  simp only [series_eq, hworkers, foldl_addMetric_empty, counters_perm flatMap_minuteSamples_perm]
  congr 1
  change (((it.workers (Table.collect _ _ addToBuilder
    (indexedSamples minutes H filter it)).entries).map finishSummary).mergeSort _) = _
  set t := Table.collect (fun x => x.2.1) (⟨{}, emptySeries minutes⟩) addToBuilder
    (indexedSamples minutes H filter it) with ht
  have hfinish : t.entries.map finishSummary =
      (t.entries.map Prod.fst).map (summaryOf minutes H filter) := by
    rw [List.map_map]
    apply List.map_congr_left
    rintro ⟨i, b⟩ he
    obtain ⟨-, hb⟩ := Table.mem_collect.mp (ht ▸ he)
    simp only at hb
    rw [hb]
    exact finishSummary_eq i
  have hkeys : (t.entries.map Prod.fst).Perm ids := by
    rw [List.perm_ext_iff_of_nodup t.nodup hn]
    intro i
    have hmap : (indexedSamples minutes H filter it).map (fun x => x.2.1) =
        ((indexedSamples minutes H filter it).map Prod.snd).map Prod.fst := by
      rw [List.map_map]
      rfl
    rw [hids i, ht, Table.mem_keys_collect, hmap]
    exact (map_snd_indexedSamples.map Prod.fst).mem_iff
  apply sort_summaries
  · have h := (it.workers_perm t.entries).map finishSummary
    rw [hfinish] at h
    exact h.trans (hkeys.map _)
  · rw [List.map_map]
    exact ((it.workers_perm t.entries).map Prod.fst).nodup_iff.mpr t.nodup

end

end Oxana
