import Oxana.MetricsSums
import Oxana.Text

/-!
# Fields of metrics, byte by byte

A field names a worker or a queue and a counter: `5:a|b:c|p`. The length in front is in bytes, and
a name may hold anything, bars, colons and digits too. The readers work on texts and byte offsets,
and a cut inside of a character panics: `Bytewise.splitMetricField` reads the fields of workers,
`Bytewise.splitQueueMetricField` those of queues.

`splitMetricField_eq_ok_iff` and `splitQueueMetricField_eq_ok_iff` say which fields are read as
what. `metric_fields_faithful` puts the results together: what was written is read back, no two
counters share a field, and no field makes a reader panic.
-/

namespace Oxana

open Redis Text

/-- The counters that are kept for a queue in one minute. -/
inductive QueueMetric where
  /-- jobs completed -/
  | processedJobs
  /-- jobs completed successfully -/
  | succeededJobs
  /-- jobs that failed or panicked -/
  | failedJobs
  deriving DecidableEq, Repr

namespace QueueMetric

/-- The name of a counter of a queue, as it stands in a field. -/
def name : QueueMetric → String
  | processedJobs => "p"
  | succeededJobs => "s"
  | failedJobs => "f"

/-- The counter of a name: the patterns of the `match` in `split_queue_metric_field` -/
def ofName? : String → Option QueueMetric
  | "p" => some processedJobs
  | "s" => some succeededJobs
  | "f" => some failedJobs
  | _ => none

end QueueMetric

/-- A queue, as its counters are named; its name must not be too long to be counted. -/
@[ext] structure QueueName where
  /-- the queue's name -/
  queue : String
  /-- a string's length is a `usize` -/
  fits : queue.utf8ByteSize < 2 ^ 64

namespace Bytewise

/-- `split_queue_metric_field`: the queue and the counter of a field, if it is one. -/
def splitQueueMetricField (field : String) : Except Stop (QueueName × QueueMetric) := do
  let (queueKey, metric) ← Text.rsplitOnce '|' field
  let metric ← orAbsent (QueueMetric.ofName? metric)
  let (queueLen, queue) ← Text.splitOnce ':' queueKey
  let queueLen ← orAbsent (parseUsize queueLen.toList)
  if queue.utf8ByteSize ≠ queueLen || !isCharBoundary queue queueLen then
    throw .absent
  -- the queue's length is the one that was read
  if h : queue.utf8ByteSize < 2 ^ 64 then pure (⟨queue, h⟩, metric) else throw .absent

end Bytewise

/-! ## What is read as what -/

namespace Bytewise

/-- What can happen when a key is read: it is a length, a colon and as many bytes of a worker,
followed by the rest, or it is refused. -/
theorem fromFieldKey_cases (key : String) :
    (∃ i : MetricIdentity, ∃ len rest, ReadsLength len i.worker.utf8ByteSize ∧
      key = len ++ (String.singleton ':' ++ (i.worker ++ rest))) ∨
      fromFieldKey key = .error .absent := by
  rcases splitOnce_cases colon_utf8Size key with ⟨len, tail, hlen, rfl, hcut⟩ | habsent
  · cases hread : parseUsize len.toList with
    | none =>
      right
      rw [fromFieldKey, hcut]
      simp only [hread, orAbsent, bind, Except.bind]
    | some n =>
      by_cases hboundary : isCharBoundary tail n = true
      · left
        obtain ⟨worker, rest, rfl, rfl⟩ := isCharBoundary_iff.mp hboundary
        have hreads : ReadsLength len worker.utf8ByteSize := ⟨hlen, hread⟩
        exact ⟨⟨worker, hreads.lt⟩, len, rest, hreads, rfl⟩
      · right
        rw [fromFieldKey, hcut]
        simp [hread, orAbsent, hboundary, bind, Except.bind, throw, throwThe,
          MonadExceptOf.throw]
  · right
    simp only [fromFieldKey, habsent, bind, Except.bind]

/-- Reading a key never cuts inside a character, so it never panics. -/
theorem fromFieldKey_ne_panicked (key : String) : fromFieldKey key ≠ .error .panicked := by
  rcases fromFieldKey_cases key with ⟨i, len, rest, hlen, rfl⟩ | habsent
  · rw [fromFieldKey_append hlen]
    nofun
  · rw [habsent]
    nofun

/-- What can happen when the field of a counter is read: it is a key followed by the name of a
counter, or it is refused. -/
theorem splitMetricField_cases (field : String) :
    (∃ i : MetricIdentity, ∃ k : JobMetric, ∃ len rest, ReadsLength len i.worker.utf8ByteSize ∧
      field = len ++ (String.singleton ':' ++ (i.worker ++ rest)) ++
        (String.singleton '|' ++ k.name)) ∨
      splitMetricField field = .error .absent := by
  rcases rsplitOnce_cases bar_utf8Size field with ⟨key, metric, -, rfl, hcut⟩ | habsent
  · cases hmetric : JobMetric.ofName? metric with
    | none =>
      right
      simp only [splitMetricField, hcut, hmetric, orAbsent, bind, Except.bind]
    | some k =>
      obtain rfl : k.name = metric := by
        have := List.find?_some hmetric
        simpa using this
      rcases fromFieldKey_cases key with ⟨i, len, rest, hlen, rfl⟩ | hkey
      · exact .inl ⟨i, k, len, rest, hlen, rfl⟩
      · right
        simp only [splitMetricField, hcut, hmetric, orAbsent, hkey, bind, Except.bind]
  · right
    simp only [splitMetricField, habsent, bind, Except.bind]

/-- A field of a queue whose length is right is read back as the queue and the counter in it. -/
theorem splitQueueMetricField_append {q : QueueName} {k : QueueMetric} {len : String}
    (h : ReadsLength len q.queue.utf8ByteSize) :
    splitQueueMetricField (len ++ (String.singleton ':' ++ q.queue) ++
      (String.singleton '|' ++ k.name)) = .ok (q, k) := by
  have hbar : '|' ∉ k.name.toList := by cases k <;> decide
  have hname : QueueMetric.ofName? k.name = some k := by cases k <;> rfl
  have hboundary : isCharBoundary q.queue q.queue.utf8ByteSize = true :=
    isCharBoundary_iff.mpr ⟨q.queue, "", by simp, rfl⟩
  have hcut := Text.rsplitOnce_append bar_utf8Size hbar (len ++ (String.singleton ':' ++ q.queue))
  rw [splitQueueMetricField, hcut]
  simp only [bind, Except.bind, hname, orAbsent, Text.splitOnce_append colon_utf8Size h.1, h.2,
    hboundary, q.fits, ne_eq, not_true_eq_false, decide_false, Bool.not_true, Bool.or_self,
    Bool.false_eq_true, if_false, dif_pos, pure, Except.pure]

/-- What can happen when the field of a queue is read: it is a length, a queue and the name of a
counter, or it is refused. -/
theorem splitQueueMetricField_cases (field : String) :
    (∃ q : QueueName, ∃ k : QueueMetric, ∃ len, ReadsLength len q.queue.utf8ByteSize ∧
      field = len ++ (String.singleton ':' ++ q.queue) ++ (String.singleton '|' ++ k.name)) ∨
      splitQueueMetricField field = .error .absent := by
  rcases rsplitOnce_cases bar_utf8Size field with ⟨key, metric, -, rfl, hcut⟩ | habsent
  · cases hmetric : QueueMetric.ofName? metric with
    | none =>
      right
      simp only [splitQueueMetricField, hcut, hmetric, orAbsent, bind, Except.bind]
    | some k =>
      have hname : k.name = metric := by
        revert hmetric
        fun_cases QueueMetric.ofName? metric <;> rintro ⟨⟩ <;> rfl
      subst hname
      rcases splitOnce_cases colon_utf8Size key with ⟨len, queue, hlen, rfl, hkey⟩ | hkey
      · cases hread : parseUsize len.toList with
        | none =>
          right
          simp only [splitQueueMetricField, hcut, hmetric, orAbsent, hkey, hread, bind, Except.bind]
        | some n =>
          by_cases hn : queue.utf8ByteSize = n
          · left
            subst hn
            have hreads : ReadsLength len queue.utf8ByteSize := ⟨hlen, hread⟩
            exact ⟨⟨queue, hreads.lt⟩, k, len, hreads, rfl⟩
          · right
            rw [splitQueueMetricField, hcut]
            simp only [hmetric, orAbsent, hkey, hread, bind, Except.bind]
            simp [hn, throw, throwThe, MonadExceptOf.throw]
      · right
        simp only [splitQueueMetricField, hcut, hmetric, orAbsent, hkey, bind, Except.bind]
  · right
    simp only [splitQueueMetricField, habsent, bind, Except.bind]

/-- A field is read as a worker and a counter exactly if it is written that way, up to the form of
the length and the part between them. -/
theorem splitMetricField_eq_ok_iff {field : String} {i : MetricIdentity} {k : JobMetric} :
    splitMetricField field = .ok (i, k) ↔ ∃ len rest, ReadsLength len i.worker.utf8ByteSize ∧
      field = len ++ (String.singleton ':' ++ (i.worker ++ rest)) ++
        (String.singleton '|' ++ k.name) := by
  constructor
  · intro h
    rcases splitMetricField_cases field with ⟨i', k', len, rest, hlen, rfl⟩ | habsent
    · rw [splitMetricField_append hlen] at h
      cases h
      exact ⟨len, rest, hlen, rfl⟩
    · rw [habsent] at h
      cases h
  · rintro ⟨len, rest, hlen, rfl⟩
    exact splitMetricField_append hlen rest

/-- Reading the field of a counter never panics. -/
theorem splitMetricField_ne_panicked (field : String) :
    splitMetricField field ≠ .error .panicked := by
  rcases splitMetricField_cases field with ⟨i, k, len, rest, hlen, rfl⟩ | habsent
  · rw [splitMetricField_append hlen]
    nofun
  · rw [habsent]
    nofun

/-- A field is read as a queue and a counter exactly if it is written that way, up to the form of
the length. -/
theorem splitQueueMetricField_eq_ok_iff {field : String} {q : QueueName} {k : QueueMetric} :
    splitQueueMetricField field = .ok (q, k) ↔ ∃ len, ReadsLength len q.queue.utf8ByteSize ∧
      field = len ++ (String.singleton ':' ++ q.queue) ++ (String.singleton '|' ++ k.name) := by
  constructor
  · intro h
    rcases splitQueueMetricField_cases field with ⟨q', k', len, hlen, rfl⟩ | habsent
    · rw [splitQueueMetricField_append hlen] at h
      cases h
      exact ⟨len, hlen, rfl⟩
    · rw [habsent] at h
      cases h
  · rintro ⟨len, hlen, rfl⟩
    exact splitQueueMetricField_append hlen

/-- Reading the field of a queue never panics. -/
theorem splitQueueMetricField_ne_panicked (field : String) :
    splitQueueMetricField field ≠ .error .panicked := by
  rcases splitQueueMetricField_cases field with ⟨q, k, len, hlen, rfl⟩ | habsent
  · rw [splitQueueMetricField_append hlen]
    nofun
  · rw [habsent]
    nofun

end Bytewise

/-! ## The codecs -/

/-- A field says where the name in it ends, so two fields are equal only if their names and counters
are. -/
theorem metricField_eq_iff {i i' : MetricIdentity} {metric metric' : String} :
    i.metricField metric = i'.metricField metric' ↔ i = i' ∧ metric = metric' := by
  constructor
  · intro h
    rw [MetricIdentity.metricField, MetricIdentity.metricField, String.append_assoc,
      String.append_assoc] at h
    obtain ⟨rfl, hrest⟩ := fieldKey_append_inj h
    rw [String.append_right_inj] at hrest
    exact ⟨rfl, hrest⟩
  · rintro ⟨rfl, rfl⟩
    rfl

/-- Fields of metrics are read back as what was written, for workers and for queues; different
names or counters have different fields; and reading any text at all never cuts inside of a
character: there is no panic, and the name that is read is a part of the text. -/
theorem metric_fields_faithful :
    (∀ (i : MetricIdentity) (k : JobMetric),
      Bytewise.splitMetricField (i.metricField k.name) = .ok (i, k)) ∧
    (∀ (q : QueueName) (k : QueueMetric),
      Bytewise.splitQueueMetricField (queueMetricField q.queue k.name) = .ok (q, k)) ∧
    (∀ (i i' : MetricIdentity) (metric metric' : String),
      i.metricField metric = i'.metricField metric' ↔ i = i' ∧ metric = metric') ∧
    (∀ (q q' : QueueName) (metric metric' : String),
      queueMetricField q.queue metric = queueMetricField q'.queue metric' ↔
        q = q' ∧ metric = metric') ∧
    (∀ text, Bytewise.fromFieldKey text ≠ .error .panicked ∧
      Bytewise.splitMetricField text ≠ .error .panicked ∧
      Bytewise.splitQueueMetricField text ≠ .error .panicked) ∧
    (∀ field (i : MetricIdentity) (k : JobMetric), Bytewise.splitMetricField field = .ok (i, k) ↔
      ∃ len rest, ReadsLength len i.worker.utf8ByteSize ∧
        field = len ++ (":" ++ (i.worker ++ rest)) ++ ("|" ++ k.name)) ∧
    ∀ field (q : QueueName) (k : QueueMetric), Bytewise.splitQueueMetricField field = .ok (q, k) ↔
      ∃ len, ReadsLength len q.queue.utf8ByteSize ∧
        field = len ++ (":" ++ q.queue) ++ ("|" ++ k.name) := by
  refine ⟨fun i k => ?_, fun q k => ?_, fun i i' metric metric' => metricField_eq_iff, ?_,
    fun text => ⟨Bytewise.fromFieldKey_ne_panicked text,
      Bytewise.splitMetricField_ne_panicked text,
      Bytewise.splitQueueMetricField_ne_panicked text⟩,
    fun field i k => Bytewise.splitMetricField_eq_ok_iff,
    fun field q k => Bytewise.splitQueueMetricField_eq_ok_iff⟩
  · refine Bytewise.splitMetricField_eq_ok_iff.mpr ⟨_, "", readsLength_toString i.fits, ?_⟩
    rw [MetricIdentity.metricField, MetricIdentity.fieldKey]
    simp [String.append_assoc]
  · refine Bytewise.splitQueueMetricField_eq_ok_iff.mpr ⟨_, readsLength_toString q.fits, ?_⟩
    simp [queueMetricField, String.append_assoc]
  · intro q q' metric metric'
    -- a queue's field is that of a worker of the same name
    have h : (⟨q.queue, q.fits⟩ : MetricIdentity).metricField metric =
        (⟨q'.queue, q'.fits⟩ : MetricIdentity).metricField metric' ↔ _ := metricField_eq_iff
    rw [MetricIdentity.mk.injEq, ← QueueName.ext_iff] at h
    exact h

end Oxana
