import Mathlib.Logic.Relation
import Oxana.MetricsSums

/-!
# Runs of flushes

Any number of buffers are filled and flushed, in any order and with their
commands interleaved. `MetricsAccounted` says where everything is: a command of
a flush begun is executed or under way, a result is flushed or under way, and
the keys of a minute that can still be in a window hold what was executed — they
cannot have expired, since a minute is flushed after it has begun and every
flush puts the expiry a day later.
-/

namespace Oxana

open Redis CounterStore

/-! ## Runs -/

/-- A flush that is under way, with what it was made of. -/
structure Flight where
  /-- the commands not yet executed -/
  commands : List CounterCommand
  /-- what the buffer was filled with, each result in its minute -/
  results : List (Int × WorkerResult)

/-- The server with its counters, the flushes that are under way, and the results of the flushes
that have succeeded. -/
structure MetricsState where
  /-- in milliseconds -/
  clock : Int
  /-- the counters on the server -/
  store : CounterStore
  /-- those under way, of any number of processes -/
  flights : List Flight
  /-- the results of the flushes that have succeeded -/
  flushed : List (Int × WorkerResult)

/-- The state in which nothing has been recorded yet. -/
def MetricsState.start (t : Int) : MetricsState := ⟨t, fun _ => none, [], []⟩

/-- What can happen. Commands of one pipeline are executed in order, but those
of others may come in between. -/
inductive MetricsStep (K : StorageKeys) : MetricsState → MetricsState → Prop
  /-- time passes -/
  | wait {s : MetricsState} {t : Int} (h : s.clock ≤ t) : MetricsStep K s { s with clock := t }
  /-- a buffer of results, recorded in minutes that have begun, is flushed -/
  | flush {s : MetricsState} {results : List (Int × WorkerResult)}
      {commands : List CounterCommand} (hminutes : ∀ r ∈ results, r.1 * 60000 ≤ s.clock)
      (hcommands : Flushes K (JobMetricsBuffer.recordAll results) commands) :
      MetricsStep K s { s with flights := ⟨commands, results⟩ :: s.flights }
  /-- the next command of a flush succeeds -/
  | send {s : MetricsState} {before after : List Flight} {c : CounterCommand}
      {rest : List CounterCommand} {results : List (Int × WorkerResult)} {store : CounterStore}
      (hflight : s.flights = before ++ ⟨c :: rest, results⟩ :: after)
      (hrun : s.store.run s.clock c = some store) :
      MetricsStep K s { s with store, flights := before ++ ⟨rest, results⟩ :: after }
  /-- a flush has succeeded, and its buffer is cleared -/
  | finish {s : MetricsState} {before after : List Flight} {results : List (Int × WorkerResult)}
      (hflight : s.flights = before ++ ⟨[], results⟩ :: after) :
      MetricsStep K s { s with flights := before ++ after, flushed := s.flushed ++ results }

/-! ## The commands of a flush -/

section

variable {K : StorageKeys} {rs : List (Int × WorkerResult)} {commands : List CounterCommand}
  {c : CounterCommand}

/-- The commands about a worker's minute are increments of its fields, of its histogram, or
deadlines of these keys. -/
theorem recordCommands_cases {e : (Int × MetricIdentity) × PendingJobMetrics}
    (h : c ∈ recordCommands K e) :
    (∃ k, c = .hincr (K.metricsCounterKey e.1.1) (e.1.2.metricField k.name)
      (redisMetricIncrement (e.2.get k))) ∨
    c = .expire (K.metricsCounterKey e.1.1) metricsRetentionSecs ∨
    (∃ args, c = .bitfield (K.metricsHistogramKey e.1.2 e.1.1) args) ∨
    c = .expire (K.metricsHistogramKey e.1.2 e.1.1) metricsRetentionSecs := by
  simp only [recordCommands, List.mem_append, List.mem_singleton] at h
  rcases h with (h | h) | h
  · obtain ⟨x, hx, hc⟩ := List.mem_filterMap.mp h
    obtain ⟨k, -, rfl⟩ := List.mem_map.mp hx
    split at hc <;> cases hc
    exact .inl ⟨k, rfl⟩
  · exact .inr (.inl h)
  · split at h
    · simp only [List.mem_cons, List.not_mem_nil, or_false] at h
      rcases h with h | h
      · exact .inr (.inr (.inl ⟨_, h⟩))
      · exact .inr (.inr (.inr h))
    · cases h

/-- The commands about a queue's minute are increments of its fields or the deadline of its key. -/
theorem queueRecordCommands_cases {e : (Int × String) × QueueCounterTotals}
    (h : c ∈ queueRecordCommands K e) :
    (∃ f n, c = .hincr (K.metricsQueueCounterKey e.1.1) f n) ∨
    c = .expire (K.metricsQueueCounterKey e.1.1) metricsRetentionSecs := by
  simp only [queueRecordCommands, List.mem_append, List.mem_singleton] at h
  rcases h with h | h
  · obtain ⟨x, -, hc⟩ := List.mem_filterMap.mp h
    split at hc <;> cases hc
    exact .inl ⟨_, _, rfl⟩
  · exact .inr h

/-- Every command of a flush is about some of the results that are flushed, or about a queue. -/
theorem flush_cases (h : Flushes K (JobMetricsBuffer.recordAll rs) commands) (hc : c ∈ commands) :
    (∃ r ∈ rs, ∃ v, c ∈ recordCommands K (recordKey r, v)) ∨
      ∃ e, c ∈ queueRecordCommands K e := by
  obtain ⟨records, queueRecords, hrecords, -, rfl⟩ := h
  rcases List.mem_append.mp hc with hc | hc
  · obtain ⟨e, he, hc⟩ := List.mem_flatMap.mp hc
    obtain ⟨⟨r, hr, hkey⟩, -⟩ := record_of_mem (hrecords.mem_iff.mp he)
    exact .inl ⟨r, hr, e.2, by rw [hkey]; exact hc⟩
  · obtain ⟨e, -, hc⟩ := List.mem_flatMap.mp hc
    exact .inr ⟨e, hc⟩

/-- From here on a minute is in no window, and its keys may go. -/
def minuteDeadline (m : Int) : Int := (m + 1440) * 60000

/-- No command of a flush lets the hash of a minute expire before the minute is too old to be asked
for. -/
theorem flush_keepsFields {now : Int} (h : Flushes K (JobMetricsBuffer.recordAll rs) commands)
    (hrs : ∀ r ∈ rs, r.1 * 60000 ≤ now) (hc : c ∈ commands) (m : Int) :
    KeepsFields (minuteDeadline m) (K.metricsCounterKey m) now c := by
  rcases flush_cases h hc with ⟨r, hr, v, hc⟩ | ⟨e, hc⟩
  · rcases recordCommands_cases hc with ⟨k, rfl⟩ | rfl | ⟨args, rfl⟩ | rfl
    · trivial
    · intro hkey
      obtain rfl : r.1 = m := counterKey_inj.mp hkey
      have := hrs r hr
      constructor <;> simp only [metricsRetentionSecs, minuteDeadline] <;> omega
    · exact histogramKey_ne _ _ _
    · exact fun hkey => absurd hkey (histogramKey_ne _ _ _)
  · rcases queueRecordCommands_cases hc with ⟨f, n, rfl⟩ | rfl
    · trivial
    · exact fun hkey => absurd hkey (queueCounterKey_ne _ _)

/-- No command of a flush lets a histogram expire before its minute is too old to be asked for. -/
theorem flush_keepsCells {now : Int} (h : Flushes K (JobMetricsBuffer.recordAll rs) commands)
    (hrs : ∀ r ∈ rs, r.1 * 60000 ≤ now) (hc : c ∈ commands) (i : MetricIdentity) (m : Int) :
    KeepsCells (minuteDeadline m) (K.metricsHistogramKey i m) now c := by
  rcases flush_cases h hc with ⟨r, hr, v, hc⟩ | ⟨e, hc⟩
  · rcases recordCommands_cases hc with ⟨k, rfl⟩ | rfl | ⟨args, rfl⟩ | rfl
    · exact (histogramKey_ne _ _ _).symm
    · exact fun hkey => absurd hkey.symm (histogramKey_ne _ _ _)
    · trivial
    · intro hkey
      obtain ⟨-, rfl⟩ := histogramKey_inj.mp hkey
      have := hrs r hr
      constructor <;> simp only [metricsRetentionSecs, minuteDeadline, recordKey] <;> omega
  · rcases queueRecordCommands_cases hc with ⟨f, n, rfl⟩ | rfl
    · exact (histogramKey_ne_queue _ _ _).symm
    · exact fun hkey => absurd hkey.symm (histogramKey_ne_queue _ _ _)

end

/-! ## What has been executed -/

/-- The flushes begun so far and the commands executed so far account for the
state: what is not executed is under way, what is not flushed is too, and the
keys of every minute that can be in a window hold what was executed. -/
structure MetricsAccounted (K : StorageKeys) (s : MetricsState) (begun : List Flight)
    (log : List CounterCommand) : Prop where
  /-- each was the flush of a buffer, of minutes that had begun -/
  flushes : ∀ f ∈ begun, Flushes K (JobMetricsBuffer.recordAll f.results) f.commands ∧
    ∀ r ∈ f.results, r.1 * 60000 ≤ s.clock
  /-- their commands are executed or under way -/
  commands : (begun.flatMap Flight.commands).Perm (log ++ s.flights.flatMap Flight.commands)
  /-- their results are flushed or under way -/
  results : (begun.flatMap Flight.results).Perm (s.flushed ++ s.flights.flatMap Flight.results)
  /-- the hashes -/
  hashes : ∀ m, s.clock < minuteDeadline m →
    FieldsKept (minuteDeadline m) (K.metricsCounterKey m) log s.store
  /-- the histograms -/
  histograms : ∀ i m, s.clock < minuteDeadline m →
    CellsKept (minuteDeadline m) (K.metricsHistogramKey i m) log s.store

section

variable {K : StorageKeys} {s s' : MetricsState} {begun : List Flight}
  {log : List CounterCommand}

/-- In the beginning nothing has been recorded, and nothing is to be accounted for. -/
theorem metricsAccounted_start (t : Int) : MetricsAccounted K (.start t) [] [] where
  flushes := by simp
  commands := .refl _
  results := .refl _
  hashes _ _ := fieldsKept_nil rfl
  histograms _ _ _ := cellsKept_nil rfl

/-- A command that is under way belongs to a flush that was begun. -/
theorem MetricsAccounted.pending (h : MetricsAccounted K s begun log) {c : CounterCommand}
    (hc : c ∈ s.flights.flatMap Flight.commands) : ∃ f ∈ begun, c ∈ f.commands :=
  List.mem_flatMap.mp (h.commands.mem_iff.mpr (List.mem_append_right log hc))

/-- **Every step is accounted for.** -/
theorem MetricsAccounted.step (h : MetricsAccounted K s begun log) (hstep : MetricsStep K s s') :
    ∃ begun' log', MetricsAccounted K s' begun' log' := by
  cases hstep with
  | wait ht =>
    refine ⟨begun, log, ?_, h.commands, h.results, ?_, ?_⟩
    · exact fun f hf => ⟨(h.flushes f hf).1, fun r hr => Int.le_trans ((h.flushes f hf).2 r hr) ht⟩
    · exact fun m hm => h.hashes m (Int.lt_of_le_of_lt ht hm)
    · exact fun i m hm => h.histograms i m (Int.lt_of_le_of_lt ht hm)
  | @flush results commands hminutes hcommands =>
    refine ⟨⟨commands, results⟩ :: begun, log, ?_, ?_, ?_, h.hashes, h.histograms⟩
    · intro f hf
      rcases List.mem_cons.mp hf with rfl | hf
      · exact ⟨hcommands, hminutes⟩
      · exact h.flushes f hf
    · simp only [List.flatMap_cons]
      exact (h.commands.append_left commands).trans (List.perm_append_comm_assoc ..)
    · simp only [List.flatMap_cons]
      exact (h.results.append_left results).trans (List.perm_append_comm_assoc ..)
  | @send before after c rest results store hflight hrun =>
    have hc : c ∈ s.flights.flatMap Flight.commands := by
      rw [hflight]
      simp
    obtain ⟨f, hf, hcf⟩ := h.pending hc
    obtain ⟨hflush, hminutes⟩ := h.flushes f hf
    refine ⟨begun, log ++ [c], h.flushes, ?_, ?_, ?_, ?_⟩
    · refine h.commands.trans ?_
      rw [hflight, List.append_assoc]
      apply List.Perm.append_left
      simp only [List.flatMap_append, List.flatMap_cons, List.cons_append]
      exact List.perm_middle
    · refine h.results.trans ?_
      rw [hflight]
      simp
    · exact fun m hm => (h.hashes m hm).run hm (flush_keepsFields hflush hminutes hcf m) hrun
    · exact fun i m hm =>
        (h.histograms i m hm).run hm (flush_keepsCells hflush hminutes hcf i m) hrun
  | @finish before after results hflight =>
    refine ⟨begun, log, h.flushes, ?_, ?_, h.hashes, h.histograms⟩
    · refine h.commands.trans ?_
      rw [hflight]
      simp
    · refine h.results.trans ?_
      rw [hflight, List.append_assoc]
      apply List.Perm.append_left
      simp only [List.flatMap_append, List.flatMap_cons]
      exact List.perm_append_comm_assoc ..

/-- Every run is accounted for: what has been flushed, what has been executed and what is under way.
-/
theorem metricsAccounted_of_reachable {t : Int}
    (h : Relation.ReflTransGen (MetricsStep K) (.start t) s) :
    ∃ begun log, MetricsAccounted K s begun log := by
  induction h with
  | refl => exact ⟨[], [], metricsAccounted_start t⟩
  | tail _ hstep ih =>
    obtain ⟨begun, log, hs⟩ := ih
    exact hs.step hstep

/-! ## Sums over what was executed -/

theorem StoredFit.perm {rs rs' : List (Int × WorkerResult)} (h : StoredFit rs)
    (hp : rs.Perm rs') : StoredFit rs' := by
  have hgroup : ∀ key, (groupOf key rs).Perm (groupOf key rs') := fun key =>
    (hp.filter _).map Prod.snd
  refine ⟨fun key k => ?_, fun key b => ?_⟩
  · rw [total, ← ((hgroup key).map _).sum_eq]
    exact h.fields key k
  · rw [total, ← ((hgroup key).map _).sum_eq]
    exact h.buckets key b

/-- When nothing is under way, what was executed is what was begun, in some order. -/
theorem MetricsAccounted.settled (h : MetricsAccounted K s begun log) (hdone : s.flights = []) :
    log.Perm (begun.flatMap Flight.commands) ∧ s.flushed.Perm (begun.flatMap Flight.results) := by
  have hc := h.commands
  have hr := h.results
  rw [hdone] at hc hr
  simp only [List.flatMap_nil, List.append_nil] at hc hr
  exact ⟨hc.symm, hr.symm⟩

/-- What was executed can be weighed flush by flush when nothing is under way. -/
theorem MetricsAccounted.sum_log (h : MetricsAccounted K s begun log) (hdone : s.flights = [])
    (w : CounterCommand → ℕ) (c : Int × WorkerResult → ℕ)
    (hw : ∀ f ∈ begun, (f.commands.map w).sum = (f.results.map c).sum) :
    (log.map w).sum = (s.flushed.map c).sum := by
  obtain ⟨hlog, hflushed⟩ := h.settled hdone
  rw [(hlog.map w).sum_eq, (hflushed.map c).sum_eq, sum_flatMap_map, sum_flatMap_map]
  exact congrArg List.sum (List.map_congr_left hw)

/-- When nothing is under way, what was added to selected fields of a minute's hash is the sum over
the results. -/
theorem MetricsAccounted.fieldSum (h : MetricsAccounted K s begun log) (hdone : s.flights = [])
    (hfit : StoredFit s.flushed) (m : Int) (P : String → Bool) :
    (log.map (fieldWeight (K.metricsCounterKey m) P)).sum =
      (s.flushed.map fun r => if r.1 = m then fieldAmount P r.2 else 0).sum := by
  apply h.sum_log hdone
  intro f hf
  exact fieldSum_flush (h.flushes f hf).1 ((hfit.perm (h.settled hdone).2).of_mem hf) m P

/-- When nothing is under way, what was added to a bucket of a histogram is the sum over the
results. -/
theorem MetricsAccounted.cellSum (h : MetricsAccounted K s begun log) (hdone : s.flights = [])
    (hfit : StoredFit s.flushed) (i : MetricIdentity) (m : Int) {b : ℕ}
    (hb : b < histogramBucketCount) :
    (log.map (cellWeight (K.metricsHistogramKey i m) b)).sum =
      (s.flushed.map fun r => if recordKey r = (m, i) then r.2.bucketAmount b else 0).sum := by
  apply h.sum_log hdone
  intro f hf
  exact cellSum_flush (h.flushes f hf).1 ((hfit.perm (h.settled hdone).2).of_mem hf) i m hb

end

/-! ## What a hash holds -/

/-- The increments of one hash, selected by their fields, add up to what all commands add to these
fields. -/
theorem sum_fieldLog (key : Key) (P : String → Bool) (log : List CounterCommand) :
    ((fieldLog key log).map fun e => if P e.1 then e.2.toNat else 0).sum =
      (log.map (fieldWeight key P)).sum := by
  induction log with
  | nil => rfl
  | cons c log ih =>
    rw [List.map_cons, List.sum_cons, ← ih]
    cases c with
    | hincr k f n =>
      by_cases hk : k = key
      · simp [fieldLog, fieldWeight, hk]
      · simp [fieldLog, fieldWeight, hk]
    | expire k secs => simp [fieldLog, fieldWeight]
    | bitfield k increments => simp [fieldLog, fieldWeight]

/-- Adding up from a number is that number and the sum. -/
theorem foldl_add_eq_sum (l : List (String × Int)) (n : Int) :
    l.foldl (fun v e => v + e.2) n = n + (l.map Prod.snd).sum := by
  induction l generalizing n with
  | nil => simp
  | cons e l ih => rw [List.foldl_cons, ih, List.map_cons, List.sum_cons, add_assoc]

/-- Increments that are not negative can be added up as natural numbers. -/
theorem sum_eq_toNat {l : List (String × Int)} (h : ∀ e ∈ l, 0 ≤ e.2) :
    (l.map Prod.snd).sum = ((l.map fun e => e.2.toNat).sum : ℕ) := by
  induction l with
  | nil => rfl
  | cons e l ih =>
    have he := h e List.mem_cons_self
    have hl := ih fun e he => h e (List.mem_cons_of_mem _ he)
    rw [List.map_cons, List.sum_cons, List.map_cons, List.sum_cons, hl]
    omega

/-- The value of a field whose increments are not negative is a natural number: their sum. -/
theorem toNat_fold {l : List (String × Int)} (h : ∀ e ∈ l, 0 ≤ e.2) :
    (l.foldl (fun (v : Int) e => v + e.2) 0).toNat = (l.map fun e => e.2.toNat).sum := by
  rw [foldl_add_eq_sum, zero_add, sum_eq_toNat h, Int.toNat_natCast]

/-- The fields of a hash that are selected add up to the increments of these fields. -/
theorem sum_tally {l : List (String × Int)} (h : ∀ e ∈ l, 0 ≤ e.2) (P : String → Bool) :
    ((tally l).entries.map fun e => if P e.1 then e.2.toNat else 0).sum =
      (l.map fun e => if P e.1 then e.2.toNat else 0).sum := by
  apply Table.sum_collect l (fun f (v : Int) => if P f then v.toNat else 0)
  intro f _
  have hf : ∀ e ∈ l.filter (fun e => e.1 = f), e.1 = f := by
    intro e he
    simpa using (List.mem_filter.mp he).2
  have hweights : ((l.filter fun e => e.1 = f).map fun e => if P e.1 then e.2.toNat else 0) =
      (l.filter fun e => e.1 = f).map fun e => if P f then e.2.toNat else 0 :=
    List.map_congr_left fun e he => by rw [hf e he]
  rw [toNat_fold fun e he => h e (List.mem_filter.mp he).1, hweights]
  split <;> simp

/-- One field of a hash holds the sum of its own increments. -/
theorem toNat_find_tally {l : List (String × Int)} (h : ∀ e ∈ l, 0 ≤ e.2) (f : String) :
    (((tally l).find f).getD 0).toNat = (l.map fun e => if e.1 = f then e.2.toNat else 0).sum := by
  have hsum : (l.map fun e => if e.1 = f then e.2.toNat else 0).sum =
      ((l.filter fun e => e.1 = f).map fun e => e.2.toNat).sum := by
    induction l with
    | nil => rfl
    | cons e l ih =>
      have hl := ih fun e he => h e (List.mem_cons_of_mem _ he)
      by_cases he : e.1 = f <;> simp [he, hl]
  rw [hsum, tally, Table.find_collect]
  split
  · exact toNat_fold fun e he => h e (List.mem_filter.mp he).1
  · next hf =>
    have hnil : l.filter (fun e => e.1 = f) = [] := by
      rw [List.filter_eq_nil_iff]
      intro e he hef
      exact hf (List.mem_map.mpr ⟨e, he, by simpa using hef⟩)
    rw [hnil]
    rfl

/-- The samples of a hash that are selected by worker hold the sums of the fields that are read as
theirs. -/
theorem addedUp_hashSamples (p : MetricIdentity → Bool) (k : JobMetric)
    (l : List (String × Int)) :
    addedUp k ((hashSamples none l).filter fun x => p x.1) =
      (l.map fun e => if (splitMetricField e.1).any (fun x => p x.1 && x.2 = k) then e.2.toNat
        else 0).sum := by
  induction l with
  | nil => rfl
  | cons e l ih =>
    rw [List.map_cons, List.sum_cons, ← ih]
    cases he : splitMetricField e.1 with
    | none => simp [hashSamples, decodeField, he]
    | some x =>
      obtain ⟨i, k'⟩ := x
      have hd : decodeField none e = some (i, k', e.2.toNat) := by simp [decodeField, he]
      rw [hashSamples, List.filterMap_cons_some hd]
      by_cases hp : p i
      · rw [List.filter_cons_of_pos (by simpa using hp)]
        simp [addedUp, hp, hashSamples]
      · rw [List.filter_cons_of_neg (by simpa using hp)]
        simp [addedUp, hp, hashSamples]

/-- A result adds to a counter of its own worker, and to no field that is read as another's. -/
theorem fieldAmount_samples (p : MetricIdentity → Bool) (k : JobMetric) (r : WorkerResult) :
    fieldAmount (fun f => (splitMetricField f).any fun x => p x.1 && x.2 = k) r =
      if p r.identity then r.amount k else 0 := by
  simp only [fieldAmount, splitMetricField_metricField, Option.any_some]
  cases hp : p r.identity with
  | false => simp
  | true => cases k <;> simp [JobMetric.all]

/-- A field is added to by the results of its worker only, each by its amount of the counter. -/
theorem fieldAmount_field (i : MetricIdentity) (k : JobMetric) (r : WorkerResult) :
    fieldAmount (fun f => f = i.metricField k.name) r =
      if r.identity = i then r.amount k else 0 := by
  simp only [fieldAmount, decide_eq_true_eq, metricField_inj]
  by_cases hi : r.identity = i
  · cases k <;> simp [JobMetric.all, hi]
  · simp [hi]

end Oxana
