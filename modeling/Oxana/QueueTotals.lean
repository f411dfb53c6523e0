import Oxana.QueueGrouping
import Oxana.QueueLengths

/-!
# How many jobs are enqueued

The statistics read the lengths of the queues they have grouped. A group with children gets the sum of
their lengths, a group without any the length of the queue that has its name. A queue whose name is
also that of a group with children falls between the two: its jobs are not counted
(`enqueued_right_iff`).
-/

namespace Oxana

open Redis Interleave Call Table

variable {γ : Type}

/-! ## The operations -/

/-- The queues whose lengths are read for some groups. -/
def groupKeys (values : List QueueStats) : List String :=
  values.flatMap fun value => if value.queues.isEmpty then [value.key] else value.childNames

/-- What a child adds to its group: its jobs, and its latency if that is the largest. -/
def QueueStats.addChild (value : QueueStats) (child : DynamicQueueStats) : QueueStats :=
  { value with
    latencyS := if value.latencyS < child.latencyS then child.latencyS else value.latencyS,
    enqueued := value.enqueued + child.enqueued }

/-- Fill in what was read for a group; there is no result if it was not read. -/
def fillGroup (live : Table String (ℕ × ℚ)) (value : QueueStats) : Option QueueStats :=
  if value.queues.isEmpty then do
    let (enqueued, latencyS) ← live.find value.key
    some { value with enqueued := enqueued, latencyS := latencyS }
  else do
    let queues ← value.queues.mapM fun child => do
      let (enqueued, latencyS) ← live.find (childName value.key child.suffix)
      some { child with enqueued := enqueued, latencyS := latencyS }
    some (queues.foldl QueueStats.addChild { value with queues := queues })

section Operations

variable (H : Handle) (o : HashOrders) (queues : List String) (stats : Table String ℤ)

/-- `build_queue_stats`, where the fields of the counters have been read. -/
def buildQueueStats (filter : Bool) : Call γ (Option (List QueueStats)) := do
  let t ← now
  let (values, enqueuedSnapshots) := aggregateQueueStats o queues stats filter (t / 1000000)
  let live ← queueLengthsAndLatencies H (groupKeys values) enqueuedSnapshots
  pure (live.bind fun live => (values.mapM (fillGroup live)).map settleGroups)

/-- The part of `stats_with_rates` that is about queues: the number of all enqueued jobs, and the
groups. -/
def statsWithRates : Call γ (Option (ℕ × List QueueStats)) := do
  let values ← buildQueueStats H o queues stats false
  pure (values.map fun values => ((values.map QueueStats.enqueued).sum, values))

end Operations

/-! ## Which queues are counted -/

/-- The queues that are seen when no length was kept. -/
def namesSeen (queues : List String) (stats : Table String ℤ) : List String :=
  (queues ++ stats.entries.filterMap fun field => (splitField field.1).bind fun f =>
    if keepsLength f.2 then none else some f.1).dedup

/-- Those whose jobs are counted: children, and queues that are alone in their group. -/
def countedNames (names : List String) : List String :=
  names.filter fun queue => '#' ∈ queue.toList ||
    names.all fun other => decide (queueBase other = queue → other = queue)

/-- A queue without a suffix is its own base. -/
theorem queueBase_of_plain {queue : String} (h : '#' ∉ queue.toList) : queueBase queue = queue := by
  rw [queueBase, splitOnce_eq_none_iff.mpr h]

/-- When no stored length is fresh, the names that are seen are those of the selected queues and of
the counters. -/
theorem mem_namesSeen {queues : List String} {stats : Table String ℤ} {now : ℤ}
    (hstale : ∀ queue, freshLength stats now queue = none) {queue : String} :
    queue ∈ namesSeen queues stats ↔ QueueVisible queues stats now queue := by
  rw [namesSeen, List.mem_dedup, List.mem_append, List.mem_filterMap, QueueVisible]
  constructor
  · rintro (h | ⟨⟨field, value⟩, hmem, hqueue⟩)
    · exact .inl h
    · obtain ⟨⟨q, stat⟩, hsplit, hif⟩ := Option.bind_eq_some_iff.mp hqueue
      split at hif
      · cases hif
      · next hkeeps =>
        obtain rfl := Option.some.inj hif
        obtain ⟨rfl, hcolon⟩ := splitField_eq_some_iff.mp hsplit
        exact .inr (.inl ⟨stat, value, hcolon, by simpa using hkeeps, stats.find_eq_some.mpr hmem⟩)
  · rintro (h | ⟨stat, value, hcolon, hkeeps, hfind⟩ | ⟨n, hfresh, -⟩)
    · exact .inl h
    · refine .inr ⟨_, stats.find_eq_some.mp hfind, ?_⟩
      rw [splitField_eq_some_iff.mpr ⟨rfl, hcolon⟩]
      simp [hkeeps]
    · rw [hstale] at hfresh
      cases hfresh

/-! ## What a group counts -/

section Counted

variable {len : String → ℕ × ℚ} {names : List String}

theorem mapM_eq_some_map {α β : Type} {f : α → Option β} {g : α → β} {l : List α}
    (h : ∀ a ∈ l, f a = some (g a)) : l.mapM f = some (l.map g) := by
  induction l with
  | nil => rfl
  | cons a l ih =>
    rw [List.mapM_cons, h a List.mem_cons_self, ih fun b hb => h b (List.mem_cons_of_mem a hb)]
    rfl

/-- A group into which what was read has been filled. -/
def filledGroup (len : String → ℕ × ℚ) (value : QueueStats) : QueueStats :=
  if value.queues.isEmpty then
    { value with enqueued := (len value.key).1, latencyS := (len value.key).2 }
  else
    let queues := value.queues.map fun child =>
      { child with
        enqueued := (len (childName value.key child.suffix)).1,
        latencyS := (len (childName value.key child.suffix)).2 }
    queues.foldl QueueStats.addChild { value with queues := queues }

/-- Filling in what was read live gives each child of a group the length and the latency of its own
queue. -/
theorem fillGroup_eq {live : Table String (ℕ × ℚ)} {value : QueueStats}
    (h : ∀ queue ∈ groupKeys [value], live.find queue = some (len queue)) :
    fillGroup live value = some (filledGroup len value) := by
  rw [groupKeys, List.flatMap_singleton] at h
  rw [fillGroup, filledGroup]
  by_cases hempty : value.queues.isEmpty = true
  · rw [if_pos hempty] at h ⊢
    rw [if_pos hempty, h value.key (List.mem_singleton_self _)]
    rfl
  · rw [if_neg hempty] at h ⊢
    rw [if_neg hempty]
    have hmap : (value.queues.mapM fun child => do
        let (enqueued, latencyS) ← live.find (childName value.key child.suffix)
        some { child with enqueued := enqueued, latencyS := latencyS }) =
        some (value.queues.map fun child =>
          { child with
            enqueued := (len (childName value.key child.suffix)).1,
            latencyS := (len (childName value.key child.suffix)).2 }) := by
      refine mapM_eq_some_map fun child hchild => ?_
      rw [h _ (List.mem_map_of_mem hchild)]
      rfl
    rw [hmap]
    rfl

theorem key_foldl_addChild (children : List DynamicQueueStats) (value : QueueStats) :
    (children.foldl QueueStats.addChild value).key = value.key := by
  induction children generalizing value with
  | nil => rfl
  | cons child children ih => exact ih _

/-- Adding children to a group adds up the jobs on their lists. -/
theorem enqueued_foldl_addChild (children : List DynamicQueueStats) (value : QueueStats) :
    (children.foldl QueueStats.addChild value).enqueued =
      value.enqueued + (children.map DynamicQueueStats.enqueued).sum := by
  induction children generalizing value with
  | nil => rfl
  | cons child children ih =>
    rw [List.foldl_cons, ih, List.map_cons, List.sum_cons, ← Nat.add_assoc]
    rfl

@[simp] theorem filledGroup_key {value : QueueStats} : (filledGroup len value).key = value.key := by
  rw [filledGroup]
  split
  · rfl
  · exact key_foldl_addChild ..

/-- The jobs of a group are those of the queues that are read for it, when it had none before. -/
theorem enqueued_filledGroup {value : QueueStats} (hzero : value.enqueued = 0) :
    (filledGroup len value).enqueued = ((groupKeys [value]).map fun q => (len q).1).sum := by
  rw [filledGroup, groupKeys, List.flatMap_singleton]
  split
  · simp
  · simp only [enqueued_foldl_addChild, hzero, Nat.zero_add, List.map_map, QueueStats.childNames]
    rfl

variable {l : List (String × StoredCounts)} {base : String}

theorem queueGroup_enqueued : (queueGroup base l).enqueued = 0 := by
  rw [queueGroup, foldl_addQueue]

/-- A name is counted if it has a suffix, or if no other name that is seen has its base. -/
theorem mem_countedNames {queue : String} : queue ∈ countedNames names ↔
    queue ∈ names ∧ ('#' ∈ queue.toList ∨
      ∀ other ∈ names, queueBase other = queue → other = queue) := by
  rw [countedNames, List.mem_filter, Bool.or_eq_true, List.all_eq_true]
  simp only [decide_eq_true_eq]

theorem isEmpty_queues {value : QueueStats} :
    value.queues.isEmpty = true ↔ value.childNames = [] := by
  rw [QueueStats.childNames, List.map_eq_nil_iff, List.isEmpty_iff]

/-- **The queues that are read for a group** are those of its queues that are counted: its children,
or the base itself if there are none. -/
theorem groupKeys_queueGroup (hnodup : (l.map Prod.fst).Nodup)
    (hbase : ∃ e ∈ l, queueBase e.1 = base) :
    (groupKeys [queueGroup base (l.filter fun e => queueBase e.1 = base)]).Perm
      ((countedNames (l.map Prod.fst)).filter fun queue => queueBase queue = base) := by
  have hchildren : (queueGroup base (l.filter fun e => queueBase e.1 = base)).childNames =
      ((l.map Prod.fst).filter fun queue => queueBase queue = base).filter
        fun queue => '#' ∈ queue.toList := by
    rw [childNames_queueGroup fun e he => of_decide_eq_true (List.mem_filter.mp he).2]
    simp only [List.filter_map]
    rfl
  have hcounted : ((countedNames (l.map Prod.fst)).filter fun queue => queueBase queue = base).Nodup :=
    (hnodup.filter _).filter _
  rw [groupKeys, List.flatMap_singleton, hchildren, queueGroup_key]
  split
  · next hempty =>
    -- all queues of the group have its name, so there is one
    rw [isEmpty_queues, hchildren, List.filter_eq_nil_iff] at hempty
    have hplain (queue : String) (hq : queue ∈ l.map Prod.fst) (hb : queueBase queue = base) :
        queue = base := by
      have hnot := hempty queue (List.mem_filter.mpr ⟨hq, decide_eq_true hb⟩)
      rw [← hb, queueBase_of_plain (by simpa using hnot)]
    obtain ⟨e, he, hb⟩ := hbase
    have hmem : base ∈ l.map Prod.fst := hplain e.1 (List.mem_map_of_mem he) hb ▸ List.mem_map_of_mem he
    have hself : queueBase base = base := hplain e.1 (List.mem_map_of_mem he) hb ▸ hb
    refine (List.perm_ext_iff_of_nodup (List.nodup_singleton _) hcounted).mpr fun queue => ?_
    rw [List.mem_singleton, List.mem_filter, mem_countedNames, decide_eq_true_eq]
    constructor
    · rintro rfl
      exact ⟨⟨hmem, .inr fun other hother hob => hplain other hother hob⟩, hself⟩
    · rintro ⟨⟨hq, -⟩, hqb⟩
      exact hplain queue hq hqb
  · next hsome =>
    -- a queue with the name of the group is not counted
    rw [isEmpty_queues, hchildren] at hsome
    obtain ⟨child, hchild⟩ := List.exists_mem_of_ne_nil _ hsome
    obtain ⟨hchild, hhash⟩ := List.mem_filter.mp hchild
    obtain ⟨hchild, hchildBase⟩ := List.mem_filter.mp hchild
    refine (List.perm_ext_iff_of_nodup ((hnodup.filter _).filter _) hcounted).mpr fun queue => ?_
    rw [List.mem_filter, List.mem_filter, List.mem_filter, mem_countedNames, decide_eq_true_eq,
      decide_eq_true_eq]
    constructor
    · rintro ⟨⟨hq, hqb⟩, hqhash⟩
      exact ⟨⟨hq, .inl hqhash⟩, hqb⟩
    · rintro ⟨⟨hq, hqcases⟩, hqb⟩
      refine ⟨⟨hq, hqb⟩, ?_⟩
      by_contra hqplain
      have halone := hqcases.resolve_left hqplain child hchild
      rw [of_decide_eq_true hchildBase, ← hqb, queueBase_of_plain hqplain] at halone
      exact hqplain (halone rfl ▸ of_decide_eq_true hhash)

end Counted

/-! ## When the numbers are right -/

/-- The numbers that are reported are right, for queues with these lengths: that of all jobs, and
that of each group of queues. -/
structure EnqueuedRight (len : String → ℕ) (queues : List String) (total : ℕ)
    (values : List QueueStats) : Prop where
  /-- the number of all jobs -/
  total : total = (queues.map len).sum
  /-- the number of jobs of each group is that of the queues in it -/
  groups : ∀ g ∈ values, g.enqueued =
    ((queues.filter fun queue => queueBase queue = g.key).map len).sum

section Right

/-- Two sums over different names are equal exactly if what only one of them has is as much as what
only the other has. -/
theorem sum_eq_iff {α : Type} [DecidableEq α] {l l' : List α} (hl : l.Nodup) (hl' : l'.Nodup)
    (f : α → ℕ) : (l.map f).sum = (l'.map f).sum ↔
      ((l.filter fun a => a ∉ l').map f).sum = ((l'.filter fun a => a ∉ l).map f).sum := by
  have hunion : (l ++ l'.filter fun a => a ∉ l).Perm (l' ++ l.filter fun a => a ∉ l') := by
    refine (List.perm_ext_iff_of_nodup ?_ ?_).mpr fun a => ?_
    · refine hl.append (hl'.filter _) fun a ha ha' => ?_
      exact of_decide_eq_true (List.mem_filter.mp ha').2 ha
    · refine hl'.append (hl.filter _) fun a ha ha' => ?_
      exact of_decide_eq_true (List.mem_filter.mp ha').2 ha
    · simp only [List.mem_append, List.mem_filter, decide_eq_true_eq]
      tauto
  have hsum := (hunion.map f).sum_eq
  rw [List.map_append, List.map_append, List.sum_append, List.sum_append] at hsum
  omega

theorem countedNames_perm {names names' : List String} (h : names.Perm names')
    (hnodup : names.Nodup) : (countedNames names).Perm (countedNames names') := by
  have hcounted : (countedNames names).Nodup := hnodup.filter _
  have hcounted' : (countedNames names').Nodup := (h.nodup_iff.mp hnodup).filter _
  refine (List.perm_ext_iff_of_nodup hcounted hcounted').mpr fun queue => ?_
  rw [mem_countedNames, mem_countedNames, h.mem_iff]
  simp only [h.mem_iff]

variable {o : HashOrders} {queues : List String} {stats : Table String ℤ} {now : ℤ}

/-- The queues that are grouped are those that are seen, when no stored length is fresh. -/
theorem perm_namesSeen (hstale : ∀ queue, freshLength stats now queue = none) :
    ((countersOf o queues stats false now).map Prod.fst).Perm (namesSeen queues stats) := by
  have hseen : (namesSeen queues stats).Nodup := List.nodup_dedup _
  refine (List.perm_ext_iff_of_nodup (nodup_order ..) hseen).mpr fun queue => ?_
  rw [mem_namesSeen hstale, List.mem_map]
  constructor
  · rintro ⟨e, he, rfl⟩
    exact (mem_countersOf.mp he).2.1
  · exact fun h => ⟨(queue, countsOf stats queue), mem_countersOf.mpr ⟨rfl, h, rfl⟩, rfl⟩

/-- What is read for a group: the names of its base that are counted. -/
theorem groupKeys_perm (hstale : ∀ queue, freshLength stats now queue = none) {g : QueueStats}
    (hg : g ∈ (aggregateQueueStats o queues stats false now).1) :
    (groupKeys [g]).Perm
      ((countedNames (namesSeen queues stats)).filter fun queue => queueBase queue = g.key) := by
  obtain ⟨base, hbase, rfl⟩ := mem_groups.mp hg
  rw [queueGroup_key]
  refine (groupKeys_queueGroup (nodup_order ..) hbase).trans ?_
  exact (countedNames_perm (perm_namesSeen hstale) (nodup_order ..)).filter _

theorem groupKeys_eq_flatMap (values : List QueueStats) :
    groupKeys values = values.flatMap fun value => groupKeys [value] := by
  simp [groupKeys]

/-- Only visible queues are read, when no stored length is fresh. -/
theorem visible_of_mem_groupKeys (hstale : ∀ queue, freshLength stats now queue = none)
    {queue : String}
    (h : queue ∈ groupKeys (aggregateQueueStats o queues stats false now).1) :
    QueueVisible queues stats now queue := by
  rw [groupKeys_eq_flatMap, List.mem_flatMap] at h
  obtain ⟨g, hg, hqueue⟩ := h
  have hcounted := (groupKeys_perm hstale hg).subset hqueue
  rw [List.mem_filter, mem_countedNames, mem_namesSeen hstale] at hcounted
  exact hcounted.1.1

variable {len : String → ℕ × ℚ}

/-- The groups, filled in and sorted, as the call returns them. -/
abbrev filledGroups (len : String → ℕ × ℚ) (o : HashOrders) (queues : List String)
    (stats : Table String ℤ) (now : ℤ) : List QueueStats :=
  settleGroups ((aggregateQueueStats o queues stats false now).1.map (filledGroup len))

theorem mem_filledGroups {g : QueueStats} : g ∈ filledGroups len o queues stats now ↔
    ∃ g' ∈ (aggregateQueueStats o queues stats false now).1, (filledGroup len g').sorted = g := by
  rw [filledGroups, settleGroups, (sortBy_perm _).mem_iff, List.mem_map]
  simp only [List.mem_map, exists_exists_and_eq_and]

theorem enqueued_group (hstale : ∀ queue, freshLength stats now queue = none) {g : QueueStats}
    (hg : g ∈ (aggregateQueueStats o queues stats false now).1) :
    (filledGroup len g).enqueued = (((countedNames (namesSeen queues stats)).filter
      fun queue => queueBase queue = g.key).map fun q => (len q).1).sum := by
  obtain ⟨base, hbase, hqueueGroup⟩ := mem_groups.mp hg
  rw [enqueued_filledGroup (by rw [hqueueGroup]; exact queueGroup_enqueued),
    ((groupKeys_perm hstale hg).map _).sum_eq]

/-- Every name that is seen has its group, when no stored length is fresh. -/
theorem mem_keys_of_seen (hstale : ∀ queue, freshLength stats now queue = none) {queue : String}
    (h : queue ∈ namesSeen queues stats) :
    queueBase queue ∈ (aggregateQueueStats o queues stats false now).1.map QueueStats.key := by
  have hsel : selects queues false queue = true := rfl
  obtain ⟨g, hg, hkey, -⟩ := exists_group (o := o) hsel ((mem_namesSeen hstale).mp h)
  exact List.mem_map.mpr ⟨g, hg, hkey⟩

/-- All jobs of the queues that are counted are counted in some group, and no others. -/
theorem sum_filledGroups (hstale : ∀ queue, freshLength stats now queue = none) :
    ((filledGroups len o queues stats now).map QueueStats.enqueued).sum =
      ((countedNames (namesSeen queues stats)).map fun q => (len q).1).sum := by
  have hperm : ((filledGroups len o queues stats now).map QueueStats.enqueued).sum =
      ((aggregateQueueStats o queues stats false now).1.map
        fun g => (filledGroup len g).enqueued).sum := by
    rw [filledGroups, settleGroups, ((sortBy_perm _).map _).sum_eq, List.map_map, List.map_map]
    rfl
  have hgroups : ((aggregateQueueStats o queues stats false now).1.map
      fun g => (filledGroup len g).enqueued) =
      ((aggregateQueueStats o queues stats false now).1.map QueueStats.key).map fun base =>
        (((countedNames (namesSeen queues stats)).filter fun queue => queueBase queue = base).map
          fun q => (len q).1).sum := by
    rw [List.map_map]
    exact List.map_congr_left fun g hg => enqueued_group hstale hg
  rw [hperm, hgroups]
  exact sum_groups nodup_groups _ fun queue hqueue =>
    mem_keys_of_seen hstale (mem_countedNames.mp hqueue).1

/-- **When the numbers are right**, group by group: what is counted without being live is as much as
what is live without being counted. -/
theorem enqueuedRight_iff (len : String → ℕ × ℚ) (hnodup : queues.Nodup)
    (hstale : ∀ queue, freshLength stats now queue = none) :
    EnqueuedRight (fun q => (len q).1) queues
      ((filledGroups len o queues stats now).map QueueStats.enqueued).sum
      (filledGroups len o queues stats now) ↔
      ∀ base, ((((countedNames (namesSeen queues stats)).filter
        fun queue => queueBase queue = base).filter fun queue => queue ∉ queues).map
          fun q => (len q).1).sum =
        (((queues.filter fun queue => queueBase queue = base).filter
          fun queue => queue ∉ countedNames (namesSeen queues stats)).map fun q => (len q).1).sum := by
  have hcounted : (countedNames (namesSeen queues stats)).Nodup := (List.nodup_dedup _).filter _
  have hseen {queue : String} (h : queue ∈ queues) : queue ∈ namesSeen queues stats :=
    (mem_namesSeen hstale).mpr (.inl h)
  -- one group
  have hgroup (base : String) :
      (((countedNames (namesSeen queues stats)).filter fun queue => queueBase queue = base).map
        fun q => (len q).1).sum =
        ((queues.filter fun queue => queueBase queue = base).map fun q => (len q).1).sum ↔
      ((((countedNames (namesSeen queues stats)).filter
        fun queue => queueBase queue = base).filter fun queue => queue ∉ queues).map
          fun q => (len q).1).sum =
        (((queues.filter fun queue => queueBase queue = base).filter
          fun queue => queue ∉ countedNames (namesSeen queues stats)).map
            fun q => (len q).1).sum := by
    rw [sum_eq_iff (hcounted.filter _) (hnodup.filter _)]
    have hleft : ((countedNames (namesSeen queues stats)).filter fun queue =>
        queueBase queue = base).filter (fun queue => queue ∉ queues.filter
          fun queue => queueBase queue = base) = ((countedNames (namesSeen queues stats)).filter
            fun queue => queueBase queue = base).filter fun queue => queue ∉ queues := by
      apply List.filter_congr
      intro queue hqueue
      have hbase := (List.mem_filter.mp hqueue).2
      simp only [List.mem_filter, hbase, and_true]
    have hright : (queues.filter fun queue => queueBase queue = base).filter (fun queue =>
        queue ∉ (countedNames (namesSeen queues stats)).filter fun queue => queueBase queue = base) =
          (queues.filter fun queue => queueBase queue = base).filter
            fun queue => queue ∉ countedNames (namesSeen queues stats) := by
      apply List.filter_congr
      intro queue hqueue
      have hbase := (List.mem_filter.mp hqueue).2
      simp only [List.mem_filter, hbase, and_true]
    rw [hleft, hright]
  constructor
  · intro h base
    rw [← hgroup]
    by_cases hbase : base ∈ (aggregateQueueStats o queues stats false now).1.map QueueStats.key
    · obtain ⟨g, hg, rfl⟩ := List.mem_map.mp hbase
      have hright := h.groups _ (mem_filledGroups.mpr ⟨g, hg, rfl⟩)
      rw [← enqueued_group hstale hg]
      simpa [QueueStats.sorted] using hright
    · -- nothing that is seen has this base
      have hnone {queue : String} (hq : queue ∈ namesSeen queues stats) : queueBase queue ≠ base :=
        fun heq => hbase (heq ▸ mem_keys_of_seen hstale hq)
      rw [List.filter_eq_nil_iff.mpr fun queue hq => by
          simpa using hnone (mem_countedNames.mp hq).1,
        List.filter_eq_nil_iff.mpr fun queue hq => by simpa using hnone (hseen hq)]
  · intro h
    refine ⟨?_, fun g hg => ?_⟩
    · have hkeys : ((aggregateQueueStats o queues stats false now).1.map QueueStats.key).Nodup :=
        nodup_groups
      have hcount := sum_groups hkeys (fun q => (len q).1) fun queue hqueue =>
        mem_keys_of_seen hstale (mem_countedNames.mp hqueue).1
      have hlive := sum_groups hkeys (fun q => (len q).1) fun queue hqueue =>
        mem_keys_of_seen hstale (hseen hqueue)
      rw [sum_filledGroups hstale, ← hcount, ← hlive]
      congr 1
      exact List.map_congr_left fun base _ => (hgroup base).mpr (h base)
    · obtain ⟨g', hg', rfl⟩ := mem_filledGroups.mp hg
      have hright := (hgroup g'.key).mpr (h g'.key)
      have hgroup' : (filledGroup len g').enqueued = _ := enqueued_group hstale hg'
      rw [← hgroup'] at hright
      simpa [QueueStats.sorted] using hright

end Right

/-! ## The whole call -/

section Call

variable {H : Handle} {o : HashOrders} {queues : List String} {stats : Table String ℤ}
  {w w' : World γ}

/-- The length of the list of ready jobs of a queue. -/
def readyLength (H : Handle) (s : Store) (queue : String) : ℕ :=
  (s.list (H.keys.namespaceQueue queue)).length

/-- The seconds on the clock of the world. -/
abbrev World.seconds (w : World γ) : ℤ := w.clock / 1000000

/-- **What the statistics say**, when no length was kept. -/
theorem solo_statsWithRates (hstale : ∀ queue, freshLength stats w.seconds queue = none)
    (hread : QueuesReadable H.keys w.store (QueueVisible queues stats w.seconds))
    {r : Except OxanaError (Option (ℕ × List QueueStats))} :
    Solo Reliable (statsWithRates H o queues stats) w r w' ↔
      r = .ok (some ((((filledGroups (liveEntry H.keys w Table.empty) o queues stats w.seconds).map
        QueueStats.enqueued).sum, filledGroups (liveEntry H.keys w Table.empty) o queues stats
          w.seconds))) ∧ w' = w := by
  have hkeys : QueuesReadable H.keys w.store
      (· ∈ groupKeys (aggregateQueueStats o queues stats false w.seconds).1) :=
    hread.mono fun queue hqueue => visible_of_mem_groupKeys hstale hqueue
  -- what has been read for the groups
  generalize hlive : (groupKeys (aggregateQueueStats o queues stats false w.seconds).1).foldl
    (insertLive H.keys w (aggregateQueueStats o queues stats false w.seconds).2) Table.empty = live
  have hentry (queue : String) :
      liveEntry H.keys w (aggregateQueueStats o queues stats false w.seconds).2 queue =
        liveEntry H.keys w Table.empty queue := by
    have hnone : (aggregateQueueStats o queues stats false w.seconds).2.find queue = none := by
      rw [aggregateQueueStats, find_enqueuedSnapshots, hstale, ite_self]
    rw [liveEntry, liveEntry, knownLength, knownLength, hnone, find_empty]
  have hfill : (aggregateQueueStats o queues stats false w.seconds).1.mapM (fillGroup live) =
      some ((aggregateQueueStats o queues stats false w.seconds).1.map
        (filledGroup (liveEntry H.keys w Table.empty))) := by
    refine mapM_eq_some_map fun g hg => fillGroup_eq fun queue hqueue => ?_
    have hmem : queue ∈ groupKeys (aggregateQueueStats o queues stats false w.seconds).1 := by
      rw [groupKeys_eq_flatMap, List.mem_flatMap]
      exact ⟨g, hg, hqueue⟩
    rw [← hlive, find_foldl_insertLive, if_pos hmem, hentry]
  rw [statsWithRates, buildQueueStats, bind_assoc, solo_now_bind]
  change Solo Reliable ((queueLengthsAndLatencies H
    (groupKeys (aggregateQueueStats o queues stats false w.seconds).1)
    (aggregateQueueStats o queues stats false w.seconds).2 >>= fun live =>
      pure (live.bind fun live => ((aggregateQueueStats o queues stats false w.seconds).1.mapM
        (fillGroup live)).map settleGroups)) >>= _) w r w' ↔ _
  rw [bind_assoc, solo_bind]
  constructor
  · rintro (⟨a, w₁, h, hrest⟩ | ⟨e, h, -⟩)
    · obtain ⟨ha, rfl⟩ := (solo_queueLengthsAndLatencies hkeys).mp h
      obtain rfl := Except.ok.inj ha
      rw [pure_bind, hlive, Option.bind_some, hfill] at hrest
      exact hrest
    · cases ((solo_queueLengthsAndLatencies hkeys).mp h).1
  · rintro ⟨rfl, rfl⟩
    refine .inl ⟨_, _, (solo_queueLengthsAndLatencies hkeys).mpr ⟨rfl, rfl⟩, ?_⟩
    rw [pure_bind, hlive, Option.bind_some, hfill]
    exact ⟨rfl, rfl⟩

/-- The live queues: each has a list of jobs, and every such list of a queue with a plain name is
there. -/
structure LiveQueues (H : Handle) (s : Store) (queues : List String) : Prop where
  /-- no queue is named twice -/
  nodup : queues.Nodup
  /-- they have jobs -/
  ready : ∀ queue ∈ queues, readyLength H s queue ≠ 0
  /-- the others have none -/
  complete : ∀ queue, H.keys.Plain queue → readyLength H s queue ≠ 0 → queue ∈ queues

/-- **When the number of enqueued jobs is right**, for the live queues and any hash of counters in
which no fresh length is kept. In each group, what is counted under names that are not live must be as
much as what live queues have that are not counted. If all names are plain, that means: no live queue
has the name of a group that has children. -/
theorem enqueued_right_iff (hlive : LiveQueues H w.store queues)
    (hstale : ∀ queue, freshLength stats w.seconds queue = none)
    (hread : QueuesReadable H.keys w.store (QueueVisible queues stats w.seconds)) :
    ∃ total values, (∀ r w', Solo Reliable (statsWithRates H o queues stats) w r w' ↔
        r = .ok (some (total, values)) ∧ w' = w) ∧
      (EnqueuedRight (readyLength H w.store) queues total values ↔
        ∀ base, ((((countedNames (namesSeen queues stats)).filter
          fun queue => queueBase queue = base).filter fun queue => queue ∉ queues).map
            (readyLength H w.store)).sum =
          (((queues.filter fun queue => queueBase queue = base).filter
            fun queue => queue ∉ countedNames (namesSeen queues stats)).map
              (readyLength H w.store)).sum) ∧
      ((∀ queue ∈ namesSeen queues stats, H.keys.Plain queue) →
        (EnqueuedRight (readyLength H w.store) queues total values ↔
          ∀ queue ∈ queues, '#' ∉ queue.toList →
            ∀ other ∈ namesSeen queues stats, queueBase other = queue → other = queue)) := by
  have hright := enqueuedRight_iff (o := o) (liveEntry H.keys w Table.empty) hlive.nodup hstale
  change EnqueuedRight (readyLength H w.store) queues _ _ ↔ ∀ base, (List.map (readyLength H w.store)
    _).sum = (List.map (readyLength H w.store) _).sum at hright
  refine ⟨_, _, fun r w' => solo_statsWithRates hstale hread, hright, fun hplain => ?_⟩
  rw [hright]
  -- what is counted without being live is nothing
  have hgained (base : String) : ((((countedNames (namesSeen queues stats)).filter
      fun queue => queueBase queue = base).filter fun queue => queue ∉ queues).map
        (readyLength H w.store)).sum = 0 := by
    apply List.sum_eq_zero
    intro n hn
    obtain ⟨queue, hqueue, rfl⟩ := List.mem_map.mp hn
    obtain ⟨hcounted, hnot⟩ := List.mem_filter.mp hqueue
    have hseen := (mem_countedNames.mp (List.mem_filter.mp hcounted).1).1
    by_contra hne
    exact of_decide_eq_true hnot (hlive.complete queue (hplain queue hseen) hne)
  constructor
  · intro h queue hqueue hnohash
    have hzero := h (queueBase queue)
    rw [hgained, eq_comm, List.sum_eq_zero_iff_forall_eq_nat] at hzero
    by_contra halone
    have hlost : queue ∉ countedNames (namesSeen queues stats) := fun hmem =>
      halone ((mem_countedNames.mp hmem).2.resolve_left hnohash)
    refine hlive.ready queue hqueue (hzero _ (List.mem_map_of_mem ?_))
    simp [hqueue, hlost]
  · intro h base
    rw [hgained, eq_comm, List.sum_eq_zero_iff_forall_eq_nat]
    intro n hn
    obtain ⟨queue, hqueue, rfl⟩ := List.mem_map.mp hn
    obtain ⟨hbase, hnot⟩ := List.mem_filter.mp hqueue
    have hmem := (List.mem_filter.mp hbase).1
    refine absurd (mem_countedNames.mpr ⟨(mem_namesSeen hstale).mpr (.inl hmem), ?_⟩)
      (of_decide_eq_true hnot)
    by_cases hhash : '#' ∈ queue.toList
    · exact .inl hhash
    · exact .inr (h queue hmem hhash)

end Call

/-! ## A queue and a child of its name -/

section Batches

/-- The order in which the entries of a map were written. -/
def writtenOrder : IterationOrder := ⟨fun t => t.entries, fun _ => .refl _⟩

/-- This order for all of the maps. -/
def writtenOrders : HashOrders :=
  ⟨writtenOrder, writtenOrder, writtenOrder, writtenOrder, writtenOrder⟩

/-- One job is in a queue, one in a child of the same name. -/
def batchQueues : World Unit :=
  ⟨(Store.empty.put (observer.keys.namespaceQueue "batch") (.list ["b"])).put
    (observer.keys.namespaceQueue "batch#north") (.list ["c"]), 1000, ()⟩

theorem batchQueues_list (queue : String) : batchQueues.store.list
    (observer.keys.namespaceQueue queue) =
      if observer.keys.namespaceQueue queue = observer.keys.namespaceQueue "batch#north" then ["c"]
      else if observer.keys.namespaceQueue queue = observer.keys.namespaceQueue "batch" then ["b"]
      else [] := by
  rw [batchQueues]
  split
  · next h => rw [h, Store.list_put_self]
  · next h =>
    rw [Store.list_put_ne _ h]
    split
    · next h' => rw [h', Store.list_put_self]
    · next h' => rw [Store.list_put_ne _ h']; rfl

theorem batchQueues_length (queue : String) : readyLength observer batchQueues.store queue =
    if observer.keys.namespaceQueue queue = observer.keys.namespaceQueue "batch#north" then 1
    else if observer.keys.namespaceQueue queue = observer.keys.namespaceQueue "batch" then 1
    else 0 := by
  rw [readyLength, batchQueues_list]
  split
  · rfl
  · split <;> rfl

theorem batchQueues_live : LiveQueues observer batchQueues.store ["batch", "batch#north"] := by
  have hbatch : observer.keys.Plain "batch" := by decide +kernel
  have hnorth : observer.keys.Plain "batch#north" := by decide +kernel
  refine ⟨by decide, fun queue hqueue => ?_, fun queue hplain hready => ?_⟩
  · rw [batchQueues_length]
    rcases List.mem_cons.mp hqueue with rfl | hqueue
    · rw [if_pos rfl, ite_self]
      decide
    · rw [List.mem_singleton.mp hqueue, if_pos rfl]
      decide
  · rw [batchQueues_length] at hready
    split at hready
    · next h =>
      obtain rfl := StorageKeys.namespaceQueue_injective hplain hnorth h
      simp
    · split at hready
      · next h =>
        obtain rfl := StorageKeys.namespaceQueue_injective hplain hbatch h
        simp
      · exact absurd rfl hready

theorem batchQueues_stale (queue : String) :
    freshLength (Table.empty : Table String ℤ) batchQueues.seconds queue = none := rfl

theorem batchQueues_readable (p : String → Prop) :
    QueuesReadable observer.keys batchQueues.store p := by
  have hbatch : observer.keys.jobs ≠ observer.keys.namespaceQueue "batch" := by decide +kernel
  have hnorth : observer.keys.jobs ≠ observer.keys.namespaceQueue "batch#north" := by
    decide +kernel
  have hlist (key : Key) : Store.empty.Fits key .list := .inl rfl
  have hhash : Store.empty.Fits observer.keys.jobs .hash := .inl rfl
  refine ⟨fun queue _ => ((hlist _).put _ fun _ => rfl).put _ fun _ => rfl,
    (hhash.put _ fun h => absurd h hbatch).put _ fun h => absurd h hnorth,
    fun queue _ id _ payload hpay => ?_⟩
  rw [payloadOf, batchQueues, Store.hash_put_ne _ hnorth, Store.hash_put_ne _ hbatch] at hpay
  cases hpay

/-- A queue and a child of it each have a job: the group counts the child only, so one of the two
jobs is not counted. -/
theorem batchQueues_miscounted : ∃ values,
    Solo Reliable (statsWithRates observer writtenOrders ["batch", "batch#north"] Table.empty)
      batchQueues (.ok (some (1, values))) batchQueues ∧
    ¬ EnqueuedRight (readyLength observer batchQueues.store) ["batch", "batch#north"] 1 values := by
  have hcounted : countedNames (namesSeen ["batch", "batch#north"] Table.empty) =
      ["batch#north"] := by decide +kernel
  have hsum : ((filledGroups (liveEntry observer.keys batchQueues Table.empty) writtenOrders
      ["batch", "batch#north"] Table.empty batchQueues.seconds).map QueueStats.enqueued).sum = 1 := by
    rw [sum_filledGroups batchQueues_stale, hcounted]
    change readyLength observer batchQueues.store "batch#north" = 1
    rw [batchQueues_length, if_pos rfl]
  have hrun := (solo_statsWithRates (o := writtenOrders) batchQueues_stale
    (batchQueues_readable (QueueVisible ["batch", "batch#north"] Table.empty _))).mpr ⟨rfl, rfl⟩
  rw [hsum] at hrun
  refine ⟨_, hrun, fun h => ?_⟩
  have htotal := h.total
  simp [batchQueues_length] at htotal

/-- The call returns once, with one result, and for this result the number of jobs is right exactly if
nothing is counted under other names and no live queue has the name of a group with children. -/
theorem batchQueues_found : ∃ total values,
    (∀ r w', Solo Reliable (statsWithRates observer writtenOrders ["batch", "batch#north"]
      Table.empty) batchQueues r w' ↔ r = .ok (some (total, values)) ∧ w' = batchQueues) ∧
    (EnqueuedRight (readyLength observer batchQueues.store) ["batch", "batch#north"] total values ↔
      ∀ base, ((((countedNames (namesSeen ["batch", "batch#north"] Table.empty)).filter
        fun queue => queueBase queue = base).filter
          fun queue => queue ∉ ["batch", "batch#north"]).map
            (readyLength observer batchQueues.store)).sum =
        (((["batch", "batch#north"].filter fun queue => queueBase queue = base).filter
          fun queue => queue ∉ countedNames (namesSeen ["batch", "batch#north"] Table.empty)).map
            (readyLength observer batchQueues.store)).sum) ∧
    ((∀ queue ∈ namesSeen ["batch", "batch#north"] Table.empty, observer.keys.Plain queue) →
      (EnqueuedRight (readyLength observer batchQueues.store) ["batch", "batch#north"] total
          values ↔
        ∀ queue ∈ ["batch", "batch#north"], '#' ∉ queue.toList →
          ∀ other ∈ namesSeen ["batch", "batch#north"] Table.empty,
            queueBase other = queue → other = queue)) :=
  enqueued_right_iff (o := writtenOrders) batchQueues_live batchQueues_stale
    (batchQueues_readable _)

end Batches

end Oxana
