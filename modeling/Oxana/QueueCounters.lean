import Oxana.QueueStats

/-!
# The counters of queues are kept by grouping

What comes out of the aggregation is described without its loops: which queues are visible, what the
counters of a queue are, and what the group of a name is. Each is a function of the fields that are
stored. From this follow the sums, and that neither a filter nor the orders in which maps are iterated
make any other difference (`counters_conserved`).
-/

namespace Oxana

open MetricIdentity

/-! ## Names -/

/-- A text is split at its first separator. -/
theorem splitOnce_eq_some_iff {c : Char} {cs a b : List Char} :
    splitOnce c cs = some (a, b) ↔ cs = a ++ c :: b ∧ c ∉ a := by
  constructor
  · intro h
    induction cs generalizing a with
    | nil => cases h
    | cons d cs ih =>
      rw [splitOnce] at h
      split at h
      · next hd =>
        obtain ⟨rfl, rfl⟩ := Prod.mk.inj (Option.some.inj h)
        exact ⟨by rw [hd]; rfl, List.not_mem_nil⟩
      · next hd =>
        obtain ⟨⟨a', b'⟩, hp, hab⟩ := Option.map_eq_some_iff.mp h
        obtain ⟨rfl, rfl⟩ := Prod.mk.inj hab
        obtain ⟨hcs, ha⟩ := ih hp
        refine ⟨by rw [hcs]; rfl, ?_⟩
        rw [List.mem_cons, not_or]
        exact ⟨fun hc => hd hc.symm, ha⟩
  · rintro ⟨rfl, ha⟩
    exact splitOnce_append ha b

/-- A text is split at its last separator. -/
theorem rsplitOnce_eq_some_iff {c : Char} {cs a b : List Char} :
    rsplitOnce c cs = some (a, b) ↔ cs = a ++ c :: b ∧ c ∉ b := by
  constructor
  · intro h
    obtain ⟨⟨b', a'⟩, hp, hab⟩ := Option.map_eq_some_iff.mp h
    obtain ⟨rfl, rfl⟩ := Prod.mk.inj hab
    obtain ⟨hcs, hb⟩ := splitOnce_eq_some_iff.mp hp
    refine ⟨?_, by simpa using hb⟩
    rw [← List.reverse_reverse cs, hcs]
    simp
  · rintro ⟨rfl, hb⟩
    exact rsplitOnce_append hb a

/-- A field belongs to a queue if it is the queue's name, a colon and something without a colon. -/
theorem splitField_eq_some_iff {field queue stat : String} :
    splitField field = some (queue, stat) ↔
      field = statsField queue stat ∧ ':' ∉ stat.toList := by
  rw [splitField, Option.map_eq_some_iff]
  constructor
  · rintro ⟨⟨a, b⟩, h, hab⟩
    obtain ⟨rfl, rfl⟩ := Prod.mk.inj hab
    obtain ⟨hfield, hb⟩ := rsplitOnce_eq_some_iff.mp h
    refine ⟨?_, by simpa using hb⟩
    rw [← String.toList_inj, statsField, hfield]
    simp
  · rintro ⟨rfl, hstat⟩
    refine ⟨(queue.toList, stat.toList), rsplitOnce_eq_some_iff.mpr ⟨?_, hstat⟩, by simp⟩
    simp [statsField]

theorem splitOnce_eq_none_iff {c : Char} {cs : List Char} : splitOnce c cs = none ↔ c ∉ cs := by
  induction cs with
  | nil => simp [splitOnce]
  | cons d cs ih =>
    rw [splitOnce]
    by_cases hd : d = c
    · simp [hd]
    · have hc : ¬ c = d := fun h => hd h.symm
      simp [hd, hc, ih]

/-- The name of a child, put together again from its parts. -/
def childName (key suffix : String) : String := key ++ "#" ++ suffix

/-- The suffix of a queue is what stands behind the mark in its name, its base what stands before.
-/
theorem queueSuffix_eq_some_iff {queue suffix : String} :
    queueSuffix queue = some suffix ↔
      queue = childName (queueBase queue) suffix ∧ '#' ∈ queue.toList := by
  rw [queueSuffix, queueBase]
  cases h : splitOnce '#' queue.toList with
  | none =>
    have hnone := splitOnce_eq_none_iff.mp h
    simp [hnone]
  | some p =>
    obtain ⟨a, b⟩ := p
    obtain ⟨hqueue, -⟩ := splitOnce_eq_some_iff.mp h
    have hmem : '#' ∈ queue.toList := by
      rw [hqueue]
      simp
    simp only [Option.map_some, Option.some.injEq, hmem, and_true]
    constructor
    · rintro rfl
      rw [← String.toList_inj, hqueue]
      simp [childName]
    · intro hjoin
      have hlist := congrArg String.toList hjoin
      rw [hqueue] at hlist
      have hsuffix : b = suffix.toList := by simpa [childName] using hlist
      rw [hsuffix, String.ofList_toList]

theorem queueSuffix_eq_none_iff {queue : String} :
    queueSuffix queue = none ↔ '#' ∉ queue.toList := by
  rw [queueSuffix, Option.map_eq_none_iff, splitOnce_eq_none_iff]

/-- Two children of a group with the same suffix are one queue, since names are made of the two. -/
theorem eq_of_base_suffix {queue queue' suffix : String} (hbase : queueBase queue = queueBase queue')
    (h : queueSuffix queue = some suffix) (h' : queueSuffix queue' = some suffix) :
    queue = queue' := by
  rw [(queueSuffix_eq_some_iff.mp h).1, (queueSuffix_eq_some_iff.mp h').1, hbase]

/-! ## What is gathered -/

section Gathered

/-- A field of the hash, taken apart into a queue and a counter. -/
def fieldInput (field : String × ℤ) : Option (String × String × ℤ) :=
  (splitField field.1).map fun f => (f.1, f.2, field.2)

/-- The fields of the queues that are looked at. -/
def fieldInputs (queues : List String) (filter : Bool) (fields : List (String × ℤ)) :
    List (String × String × ℤ) :=
  (fields.filterMap fieldInput).filter fun x => selects queues filter x.1

/-- Whether the field keeps a length, or the time of one. -/
def keepsLength (stat : String) : Bool := stat = "enqueued" || stat = "enqueued_at"

/-- What such a field sets in the snapshot of a length. -/
def QueueLengthSnapshot.set (snapshot : QueueLengthSnapshot) (stat : String) (value : ℤ) :
    QueueLengthSnapshot :=
  if stat = "enqueued" then { snapshot with enqueued := some value }
  else { snapshot with refreshedAt := some value }

theorem read_eq (queues : List String) (filter : Bool) (t : QueueTallies) (field : String × ℤ) :
    t.read queues filter field =
      (fieldInputs queues filter [field]).foldl (fun t x =>
        if keepsLength x.2.1 then
          { t with snapshots := t.snapshots.modify x.1 {} (·.set x.2.1 x.2.2) }
        else { t with counters := t.counters.modify x.1 {} (·.add x.2.1 x.2.2) }) t := by
  rw [QueueTallies.read, fieldInputs]
  cases h : splitField field.1 with
  | none => simp [fieldInput, h]
  | some f =>
    obtain ⟨queue, stat⟩ := f
    have hinput : fieldInput field = some (queue, stat, field.2) := by simp [fieldInput, h]
    rw [List.filterMap_cons_some hinput]
    by_cases hsel : selects queues filter queue = true
    · by_cases henqueued : stat = "enqueued"
      · simp [hsel, henqueued, keepsLength, QueueLengthSnapshot.set]
      · by_cases hat : stat = "enqueued_at"
        · simp [hsel, hat, keepsLength, QueueLengthSnapshot.set]
        · simp [hsel, henqueued, hat, keepsLength]
    · simp [hsel]

/-- The counters and the lengths are gathered independently of each other. -/
theorem foldl_read (queues : List String) (filter : Bool) (fields : List (String × ℤ))
    (t : QueueTallies) : fields.foldl (QueueTallies.read queues filter) t =
      ⟨((fieldInputs queues filter fields).filter fun x => !keepsLength x.2.1).foldl
          (fun t x => t.modify x.1 {} (·.add x.2.1 x.2.2)) t.counters,
        ((fieldInputs queues filter fields).filter fun x => keepsLength x.2.1).foldl
          (fun t x => t.modify x.1 {} (·.set x.2.1 x.2.2)) t.snapshots⟩ := by
  induction fields generalizing t with
  | nil => rfl
  | cons field fields ih =>
    have hsplit : fieldInputs queues filter (field :: fields) =
        fieldInputs queues filter [field] ++ fieldInputs queues filter fields := by
      rw [fieldInputs, fieldInputs, fieldInputs, ← List.filter_append, ← List.filterMap_append]
      rfl
    rw [List.foldl_cons, ih, read_eq, hsplit]
    generalize hone : fieldInputs queues filter [field] = one
    have hle : one.length ≤ 1 := by
      rw [← hone]
      exact (List.length_filter_le ..).trans (List.length_filterMap_le ..)
    match one, hle with
    | [], _ => rfl
    | [x], _ =>
      cases hlen : keepsLength x.2.1 with
      | true => simp [hlen]
      | false => simp [hlen]

theorem mem_fieldInputs {queues : List String} {filter : Bool} {fields : List (String × ℤ)}
    {x : String × String × ℤ} : x ∈ fieldInputs queues filter fields ↔
      selects queues filter x.1 = true ∧ ':' ∉ x.2.1.toList ∧
        (statsField x.1 x.2.1, x.2.2) ∈ fields := by
  obtain ⟨queue, stat, value⟩ := x
  rw [fieldInputs, List.mem_filter, List.mem_filterMap]
  constructor
  · rintro ⟨⟨⟨field, v⟩, hmem, hinput⟩, hsel⟩
    obtain ⟨⟨q, s⟩, hsplit, heq⟩ := Option.map_eq_some_iff.mp hinput
    cases heq
    obtain ⟨rfl, hcolon⟩ := splitField_eq_some_iff.mp hsplit
    exact ⟨hsel, hcolon, hmem⟩
  · rintro ⟨hsel, hcolon, hmem⟩
    refine ⟨⟨_, hmem, ?_⟩, hsel⟩
    rw [fieldInput, splitField_eq_some_iff.mpr ⟨rfl, hcolon⟩]
    rfl

/-- The values that are set, where the last one counts. -/
def valuesAt (p : String → Bool) (xs : List (String × String × ℤ)) : List ℤ :=
  (xs.filter fun x => p x.2.1).map (·.2.2)

theorem foldl_set (xs : List (String × String × ℤ)) (snapshot : QueueLengthSnapshot) :
    xs.foldl (fun s x => s.set x.2.1 x.2.2) snapshot =
      ⟨(valuesAt (· = "enqueued") xs).getLast?.or snapshot.enqueued,
        (valuesAt (· ≠ "enqueued") xs).getLast?.or snapshot.refreshedAt⟩ := by
  induction xs using List.reverseRecOn with
  | nil => rfl
  | append_singleton xs x ih =>
    rw [List.foldl_append, ih, List.foldl_cons, List.foldl_nil]
    by_cases hstat : x.2.1 = "enqueued"
    · simp [QueueLengthSnapshot.set, valuesAt, List.filter_append, hstat]
    · simp [QueueLengthSnapshot.set, valuesAt, List.filter_append, hstat]

/-- The last one of values that are all the same is any one of them. -/
theorem getLast?_eq_some_iff_mem {α : Type} {l : List α} (h : ∀ a ∈ l, ∀ b ∈ l, a = b) {v : α} :
    l.getLast? = some v ↔ v ∈ l := by
  constructor
  · exact List.mem_of_getLast?
  · intro hv
    have hne : l ≠ [] := List.ne_nil_of_mem hv
    rw [List.getLast?_eq_some_getLast hne, h _ (List.getLast_mem hne) v hv]

end Gathered

/-! ## What comes out, without the loops -/

/-- The length that is kept for a queue, with its time. -/
def keptLength (stats : Table String ℤ) (queue : String) : QueueLengthSnapshot :=
  ⟨stats.find (statsField queue "enqueued"), stats.find (statsField queue "enqueued_at")⟩

/-- The length that is kept, if it is fresh enough to be used. -/
def freshLength (stats : Table String ℤ) (now : ℤ) (queue : String) : Option ℕ :=
  (keptLength stats queue).freshEnqueued now

section Found

variable {o : HashOrders} {queues : List String} {stats : Table String ℤ} {filter : Bool} {now : ℤ}

theorem mem_order {ν : Type} {i : IterationOrder} {t : Table String ν} {k : String} {v : ν} :
    (k, v) ∈ i.order t ↔ t.find k = some v := by
  rw [(i.perm t).mem_iff, Table.find_eq_some]

theorem nodup_order {ν : Type} (i : IterationOrder) (t : Table String ν) :
    ((i.order t).map Prod.fst).Nodup := ((i.perm t).map Prod.fst).nodup_iff.mpr t.nodup

theorem mem_inputs {x : String × String × ℤ} :
    x ∈ fieldInputs queues filter (o.stats.order stats) ↔
      selects queues filter x.1 = true ∧ ':' ∉ x.2.1.toList ∧
        stats.find (statsField x.1 x.2.1) = some x.2.2 := by
  rw [mem_fieldInputs, mem_order]

/-- What a queue's fields of one kind set is the value of its one field of that kind, in whatever
order they come. -/
theorem getLast?_valuesAt (o : HashOrders) (queues : List String) (stats : Table String ℤ)
    (filter : Bool) (queue stat : String) (hcolon : ':' ∉ stat.toList)
    (hkeeps : keepsLength stat = true) (p : String → Bool)
    (hp : ∀ s, keepsLength s = true → (p s = true ↔ s = stat)) :
    (valuesAt p (((fieldInputs queues filter (o.stats.order stats)).filter
      fun x => keepsLength x.2.1).filter fun x => x.1 = queue)).getLast? =
      if selects queues filter queue then stats.find (statsField queue stat) else none := by
  have hmem (v : ℤ) : v ∈ valuesAt p (((fieldInputs queues filter (o.stats.order stats)).filter
      fun x => keepsLength x.2.1).filter fun x => x.1 = queue) ↔
      selects queues filter queue = true ∧ stats.find (statsField queue stat) = some v := by
    simp only [valuesAt, List.mem_map, List.mem_filter, mem_inputs, decide_eq_true_eq]
    constructor
    · rintro ⟨⟨q, s, v'⟩, ⟨⟨⟨⟨hsel, -, hfind⟩, hk⟩, rfl⟩, hps⟩, rfl⟩
      obtain rfl := (hp s hk).mp hps
      exact ⟨hsel, hfind⟩
    · rintro ⟨hsel, hfind⟩
      exact ⟨(queue, stat, v), ⟨⟨⟨⟨hsel, hcolon, hfind⟩, hkeeps⟩, rfl⟩,
        (hp stat hkeeps).mpr rfl⟩, rfl⟩
  have huniq : ∀ a ∈ valuesAt p (((fieldInputs queues filter (o.stats.order stats)).filter
      fun x => keepsLength x.2.1).filter fun x => x.1 = queue), ∀ b ∈ valuesAt p
      (((fieldInputs queues filter (o.stats.order stats)).filter
        fun x => keepsLength x.2.1).filter fun x => x.1 = queue), a = b := by
    intro a ha b hb
    have ha' := ((hmem a).mp ha).2
    rw [((hmem b).mp hb).2] at ha'
    exact (Option.some.inj ha').symm
  refine Option.ext fun v => ?_
  rw [getLast?_eq_some_iff_mem huniq, hmem]
  split
  · next hsel => simp [hsel]
  · next hsel => simp [hsel]

theorem snapshots_eq : (queueTallies o queues stats filter).snapshots =
    Table.collect Prod.fst ({} : QueueLengthSnapshot) (fun s x => s.set x.2.1 x.2.2)
      ((fieldInputs queues filter (o.stats.order stats)).filter fun x => keepsLength x.2.1) := by
  rw [queueTallies, foldl_read]
  rfl

/-- A key without inputs would hold the default, so looking it up is the same as taking what was
collected. -/
theorem find_collect_bind {ι ν β : Type} {key : ι → String} {d : ν} {f : ν → ι → ν}
    {g : ν → Option β} (hd : g d = none) (xs : List ι) (k : String) :
    ((Table.collect key d f xs).find k).bind g =
      g ((xs.filter fun x => key x = k).foldl f d) := by
  rw [Table.find_collect]
  split
  · rfl
  · next hout =>
    have hnil : (xs.filter fun x => decide (key x = k)) = [] := by
      rw [List.filter_eq_nil_iff]
      intro x hx hk
      exact hout (List.mem_map.mpr ⟨x, hx, of_decide_eq_true hk⟩)
    rw [hnil]
    exact hd.symm

/-- The length that was kept of a queue is found under its name. -/
theorem find_snapshots (queue : String) :
    ((queueTallies o queues stats filter).snapshots.find queue).bind (·.freshEnqueued now) =
      if selects queues filter queue then freshLength stats now queue else none := by
  have hkept (s : String) (hs : keepsLength s = true) : s = "enqueued" ∨ s = "enqueued_at" := by
    simpa [keepsLength] using hs
  have henqueued := getLast?_valuesAt o queues stats filter queue "enqueued" (by decide)
    (by decide) (· = "enqueued") fun s _ => decide_eq_true_iff
  have hat := getLast?_valuesAt o queues stats filter queue "enqueued_at" (by decide)
    (by decide) (· ≠ "enqueued") fun s hs => by rcases hkept s hs with rfl | rfl <;> decide
  rw [snapshots_eq, find_collect_bind rfl, foldl_set, henqueued, hat]
  split
  · rw [Option.or_none, Option.or_none]
    rfl
  · rfl

theorem sublist_map_fst {κ ν ν' : Type} (f : κ × ν → Option ν') (l : List (κ × ν)) :
    ((l.filterMap fun e => (f e).map fun v => (e.1, v)).map Prod.fst).Sublist (l.map Prod.fst) := by
  induction l with
  | nil => exact .slnil
  | cons e l ih =>
    cases h : f e with
    | none => simpa [h] using ih.cons e.1
    | some v => simpa [h] using ih

/-- The lengths that are used are those kept of the selected queues that are fresh enough. -/
theorem find_enqueuedSnapshots (queue : String) :
    (enqueuedSnapshots o queues stats filter now).find queue =
      if selects queues filter queue then freshLength stats now queue else none := by
  rw [← find_snapshots (o := o), enqueuedSnapshots]
  refine Option.ext fun n => ?_
  rw [Table.find_collect_pairs, List.mem_filterMap, Option.bind_eq_some_iff]
  · constructor
    · rintro ⟨⟨q, s⟩, hmem, hfresh⟩
      obtain ⟨m, hm, heq⟩ := Option.map_eq_some_iff.mp hfresh
      cases heq
      exact ⟨s, mem_order.mp hmem, hm⟩
    · rintro ⟨s, hfind, hfresh⟩
      exact ⟨(queue, s), mem_order.mpr hfind, by rw [hfresh]; rfl⟩
  · have hkeys : (((o.snapshots.order (queueTallies o queues stats filter).snapshots).filterMap
        fun e => (e.2.freshEnqueued now).map fun enqueued => (e.1, enqueued)).map Prod.fst).Sublist
        ((o.snapshots.order (queueTallies o queues stats filter).snapshots).map Prod.fst) :=
      sublist_map_fst ..
    exact hkeys.nodup (nodup_order ..)

/-! ### The counters -/

/-- What is put under the queues: a queue that is only made visible adds nothing. -/
def counterInputs (o : HashOrders) (queues : List String) (stats : Table String ℤ) (filter : Bool)
    (now : ℤ) : List (String × String × ℤ) :=
  queues.map (fun queue => (queue, "", 0)) ++
    (fieldInputs queues filter (o.stats.order stats)).filter (fun x => !keepsLength x.2.1) ++
    ((o.enqueued.order (enqueuedSnapshots o queues stats filter now)).filter fun e => 0 < e.2).map
      fun e => (e.1, "", 0)

theorem add_nothing (counts : StoredCounts) : counts.add "" 0 = counts := by
  simp [StoredCounts.add]

theorem queueCounters_eq : queueCounters o queues stats filter now =
    Table.collect Prod.fst ({} : StoredCounts) (fun counts x => counts.add x.2.1 x.2.2)
      (counterInputs o queues stats filter now) := by
  have hlive : Table.collect id ({} : StoredCounts) (fun counts _ => counts) queues =
      (queues.map fun queue => (queue, "", (0 : ℤ))).foldl
        (fun t x => t.modify x.1 {} (·.add x.2.1 x.2.2)) Table.empty := by
    rw [Table.collect, List.foldl_map]
    simp only [add_nothing, id]
  have hkept (es : List (String × ℕ)) (t : Table String StoredCounts) :
      es.foldl (fun t e => if 0 < e.2 then t.modify e.1 {} id else t) t =
        ((es.filter fun e => 0 < e.2).map fun e => (e.1, "", (0 : ℤ))).foldl
          (fun t x => t.modify x.1 {} (·.add x.2.1 x.2.2)) t := by
    rw [List.foldl_map, List.foldl_filter]
    simp only [add_nothing, decide_eq_true_eq]
    rfl
  rw [queueCounters, hkept, queueTallies, foldl_read, hlive, Table.collect, counterInputs,
    List.foldl_append, List.foldl_append]

/-- What an input adds to a counter. -/
def amount (counter : QueueCounter) (x : String × String × ℤ) : ℤ :=
  if x.2.1 = counter.name then x.2.2 else 0

theorem get_add (counts : StoredCounts) (stat : String) (value : ℤ) (counter : QueueCounter) :
    (counts.add stat value).get counter =
      counts.get counter + if stat = counter.name then value else 0 := by
  rw [StoredCounts.add]
  split
  · next h => cases counter <;> simp [h, StoredCounts.get, QueueCounter.name]
  · next hprocessed =>
    split
    · next h => cases counter <;> simp [h, StoredCounts.get, QueueCounter.name]
    · next hsucceeded =>
      split
      · next h => cases counter <;> simp [h, StoredCounts.get, QueueCounter.name]
      · next hpanicked =>
        split
        · next h => cases counter <;> simp [h, StoredCounts.get, QueueCounter.name]
        · next hfailed =>
          cases counter <;> simp [hprocessed, hsucceeded, hpanicked, hfailed, QueueCounter.name]

/-- A counter that has been added to holds the sum of what was added to it. -/
theorem get_foldl_add (xs : List (String × String × ℤ)) (counts : StoredCounts)
    (counter : QueueCounter) :
    (xs.foldl (fun counts x => counts.add x.2.1 x.2.2) counts).get counter =
      counts.get counter + (xs.map (amount counter)).sum := by
  induction xs generalizing counts with
  | nil => simp
  | cons x xs ih =>
    rw [List.foldl_cons, ih, get_add, List.map_cons, List.sum_cons, amount, add_assoc]

end Found

/-- The sum of the stored fields of a counter, over the queues of one kind. -/
def stored (stats : Table String ℤ) (counter : QueueCounter) (p : String → Bool) : ℤ :=
  ((stats.entries.filter fun field =>
    (splitField field.1).any fun f => f.2 = counter.name && p f.1).map Prod.snd).sum

section Sums

variable {o : HashOrders} {queues : List String} {stats : Table String ℤ} {filter : Bool} {now : ℤ}

theorem name_ne_empty (counter : QueueCounter) : "" ≠ counter.name := by
  cases counter <;> decide

theorem keepsLength_name (counter : QueueCounter) : keepsLength counter.name = false := by
  cases counter <;> decide

theorem sum_amount_fields (p : String → Bool) (fields : List (String × ℤ))
    (counter : QueueCounter) :
    ((((fieldInputs queues filter fields).filter fun x => !keepsLength x.2.1).filter
      fun x => p x.1).map (amount counter)).sum =
      ((fields.filter fun field => (splitField field.1).any fun f =>
        f.2 = counter.name && (selects queues filter f.1 && p f.1)).map Prod.snd).sum := by
  induction fields with
  | nil => rfl
  | cons field fields ih =>
    cases h : splitField field.1 with
    | none =>
      have hinput : fieldInput field = none := by simp [fieldInput, h]
      simp only [fieldInputs, List.filterMap_cons_none hinput] at ih ⊢
      rw [ih]
      simp [h]
    | some f =>
      have hinput : fieldInput field = some (f.1, f.2, field.2) := by simp [fieldInput, h]
      simp only [fieldInputs, List.filterMap_cons_some hinput, List.filter_filter] at ih ⊢
      by_cases hsel : selects queues filter f.1 = true
      · by_cases hp : p f.1 = true
        · by_cases hstat : f.2 = counter.name
          · simp [h, hsel, hp, hstat, keepsLength_name, amount, ih]
          · by_cases hkeeps : keepsLength f.2 = true
            · simp [h, hsel, hstat, hkeeps, ih]
            · simp [h, hsel, hp, hstat, hkeeps, amount, ih]
        · by_cases hkeeps : keepsLength f.2 = true
          · simp [h, hsel, hp, hkeeps, ih]
          · simp [h, hsel, hp, hkeeps, ih]
      · simp [h, hsel, ih]

/-- What is put under some queues adds up to the stored fields of these queues. -/
theorem sum_amount_inputs (p : String → Bool) (counter : QueueCounter) :
    (((counterInputs o queues stats filter now).filter fun x => p x.1).map (amount counter)).sum =
      stored stats counter fun queue => selects queues filter queue && p queue := by
  have hnothing (l : List (String × String × ℤ)) (hl : ∀ x ∈ l, x.2.1 = "") :
      ((l.filter fun x => p x.1).map (amount counter)).sum = 0 := by
    apply List.sum_eq_zero
    intro v hv
    obtain ⟨x, hx, rfl⟩ := List.mem_map.mp hv
    rw [amount, hl x (List.mem_of_mem_filter hx), if_neg (name_ne_empty counter)]
  have hlive := hnothing (queues.map fun queue => (queue, "", 0)) fun x hx => by
    obtain ⟨e, -, rfl⟩ := List.mem_map.mp hx
    rfl
  have hkept := hnothing (((o.enqueued.order (enqueuedSnapshots o queues stats filter now)).filter
    fun e => 0 < e.2).map fun e => (e.1, "", 0)) fun x hx => by
      obtain ⟨e, -, rfl⟩ := List.mem_map.mp hx
      rfl
  rw [counterInputs, List.filter_append, List.filter_append, List.map_append, List.map_append,
    List.sum_append, List.sum_append, hlive, hkept, zero_add, add_zero, sum_amount_fields]
  exact (((o.stats.perm stats).filter _).map _).sum_eq

end Sums

/-! ## Which queues are seen, and with what -/

/-- A queue is visible if it is live, if it has a field other than a kept length, or if a fresh length
that is not zero is kept for it. -/
def QueueVisible (queues : List String) (stats : Table String ℤ) (now : ℤ) (queue : String) : Prop :=
  queue ∈ queues ∨
    (∃ stat value, ':' ∉ stat.toList ∧ keepsLength stat = false ∧
      stats.find (statsField queue stat) = some value) ∨
    ∃ n, freshLength stats now queue = some n ∧ 0 < n

/-- The counters of a queue, read from its own fields. -/
def countsOf (stats : Table String ℤ) (queue : String) : StoredCounts :=
  ⟨stored stats .processed (· = queue), stored stats .succeeded (· = queue),
    stored stats .panicked (· = queue), stored stats .failed (· = queue)⟩

theorem get_countsOf (stats : Table String ℤ) (queue : String) (counter : QueueCounter) :
    (countsOf stats queue).get counter = stored stats counter (· = queue) := by
  cases counter <;> rfl

theorem StoredCounts.ext_get {a b : StoredCounts} (h : ∀ counter, a.get counter = b.get counter) :
    a = b :=
  StoredCounts.ext (h .processed) (h .succeeded) (h .panicked) (h .failed)

section Seen

variable {o : HashOrders} {queues : List String} {stats : Table String ℤ} {filter : Bool} {now : ℤ}

theorem selects_of_mem {queue : String} (h : queue ∈ queues) :
    selects queues filter queue = true := by
  rw [selects, Bool.or_eq_true, List.any_eq_true]
  exact .inr ⟨queue, h, by simp⟩

theorem mem_counterInputs {queue : String} :
    queue ∈ (counterInputs o queues stats filter now).map Prod.fst ↔
      selects queues filter queue = true ∧ QueueVisible queues stats now queue := by
  rw [counterInputs, List.map_append, List.map_append, List.mem_append, List.mem_append, or_assoc]
  have hlive : queue ∈ (queues.map fun queue => (queue, "", (0 : ℤ))).map Prod.fst ↔
      queue ∈ queues := by simp
  have hfields : queue ∈ ((fieldInputs queues filter (o.stats.order stats)).filter
      fun x => !keepsLength x.2.1).map Prod.fst ↔ selects queues filter queue = true ∧
        ∃ stat value, ':' ∉ stat.toList ∧ keepsLength stat = false ∧
          stats.find (statsField queue stat) = some value := by
    simp only [List.mem_map, List.mem_filter, mem_inputs, Bool.not_eq_true']
    constructor
    · rintro ⟨⟨q, stat, value⟩, ⟨⟨hsel, hcolon, hfind⟩, hkeeps⟩, rfl⟩
      exact ⟨hsel, stat, value, hcolon, hkeeps, hfind⟩
    · rintro ⟨hsel, stat, value, hcolon, hkeeps, hfind⟩
      exact ⟨(queue, stat, value), ⟨⟨hsel, hcolon, hfind⟩, hkeeps⟩, rfl⟩
  have hkept : queue ∈ (((o.enqueued.order (enqueuedSnapshots o queues stats filter now)).filter
      fun e => 0 < e.2).map fun e => (e.1, "", (0 : ℤ))).map Prod.fst ↔
        selects queues filter queue = true ∧ ∃ n, freshLength stats now queue = some n ∧ 0 < n := by
    rw [List.map_map]
    simp only [List.mem_map, List.mem_filter, decide_eq_true_eq, Function.comp_apply]
    constructor
    · rintro ⟨⟨q, n⟩, ⟨hmem, hpos⟩, rfl⟩
      have hfind := mem_order.mp hmem
      rw [find_enqueuedSnapshots] at hfind
      split at hfind
      · next hsel => exact ⟨hsel, n, hfind, hpos⟩
      · cases hfind
    · rintro ⟨hsel, n, hfresh, hpos⟩
      refine ⟨(queue, n), ⟨mem_order.mpr ?_, hpos⟩, rfl⟩
      rw [find_enqueuedSnapshots, if_pos hsel, hfresh]
  rw [hlive, hfields, hkept, QueueVisible]
  constructor
  · rintro (h | ⟨hsel, h⟩ | ⟨hsel, h⟩)
    · exact ⟨selects_of_mem h, .inl h⟩
    · exact ⟨hsel, .inr (.inl h)⟩
    · exact ⟨hsel, .inr (.inr h)⟩
  · rintro ⟨hsel, h | h | h⟩
    · exact .inl h
    · exact .inr (.inl ⟨hsel, h⟩)
    · exact .inr (.inr ⟨hsel, h⟩)

/-- **The map of counters**: it has the visible queues that are looked at, each with its stored
fields. -/
theorem find_queueCounters {queue : String} {counts : StoredCounts} :
    (queueCounters o queues stats filter now).find queue = some counts ↔
      selects queues filter queue = true ∧ QueueVisible queues stats now queue ∧
        counts = countsOf stats queue := by
  rw [queueCounters_eq, Table.find_collect]
  by_cases hmem : queue ∈ (counterInputs o queues stats filter now).map Prod.fst
  · obtain ⟨hsel, hvisible⟩ := mem_counterInputs.mp hmem
    have hcounts : ((counterInputs o queues stats filter now).filter fun x => x.1 = queue).foldl
        (fun counts x => counts.add x.2.1 x.2.2) ({} : StoredCounts) = countsOf stats queue := by
      refine StoredCounts.ext_get fun counter => ?_
      have hzero : ({} : StoredCounts).get counter = 0 := by cases counter <;> rfl
      have hsum : (((counterInputs o queues stats filter now).filter fun x =>
          x.1 = queue).map (amount counter)).sum = stored stats counter fun q =>
            selects queues filter q && decide (q = queue) := sum_amount_inputs (· = queue) counter
      rw [get_foldl_add, hzero, zero_add, hsum, get_countsOf, stored, stored]
      congr 3
      funext field
      congr 1
      funext f
      by_cases hf : f.1 = queue
      · simp [hf, hsel]
      · simp [hf]
    rw [if_pos hmem, hcounts]
    simp [hsel, hvisible, eq_comm]
  · rw [if_neg hmem]
    rw [mem_counterInputs] at hmem
    simp only [reduceCtorEq, false_iff]
    exact fun h => hmem ⟨h.1, h.2.1⟩

end Seen

end Oxana
