import Oxana.QueueCounters

/-!
# Groups of queues

A group has the sums of its queues' counters and their children, however they come. The groups and
their children are sorted in the end; what is compared here is sorted.
-/

namespace Oxana

open Table

/-! ## One group -/

/-- Counters that are added together are added one by one. -/
theorem get_addCounts (a b : StoredCounts) (counter : QueueCounter) :
    (a + b).get counter = a.get counter + b.get counter := by
  cases counter <;> rfl

/-- The group of a name, made of its queues in their order. -/
def queueGroup (base : String) (queues : List (String × StoredCounts)) : QueueStats :=
  queues.foldl (fun parent e => parent.addQueue e.1 e.2) { key := base }

theorem addQueue_eq (parent : QueueStats) (queue : String) (counts : StoredCounts) :
    parent.addQueue queue counts =
      { parent with
        toStoredCounts := parent.toStoredCounts + counts,
        queues := parent.queues ++ (childOf queue counts).toList } := by
  rw [QueueStats.addQueue]
  cases childOf queue counts with
  | none => simp
  | some child => rfl

/-- A group of several queues adds up their counters and has their children in the order in which
they come. -/
theorem foldl_addQueue (queues : List (String × StoredCounts)) (parent : QueueStats) :
    queues.foldl (fun parent e => parent.addQueue e.1 e.2) parent =
      { parent with
        toStoredCounts := queues.foldl (fun counts e => counts + e.2) parent.toStoredCounts,
        queues := parent.queues ++ queues.filterMap fun e => childOf e.1 e.2 } := by
  induction queues generalizing parent with
  | nil => simp
  | cons e queues ih =>
    rw [List.foldl_cons, ih, addQueue_eq, List.filterMap_cons]
    cases childOf e.1 e.2 with
    | none => simp
    | some child => simp

theorem get_foldl_addCounts (queues : List (String × StoredCounts)) (counts : StoredCounts)
    (counter : QueueCounter) :
    (queues.foldl (fun counts e => counts + e.2) counts).get counter =
      counts.get counter + (queues.map fun e => e.2.get counter).sum := by
  induction queues generalizing counts with
  | nil => simp
  | cons e queues ih =>
    rw [List.foldl_cons, ih, get_addCounts, List.map_cons, List.sum_cons, add_assoc]

section Group

variable {base : String} {l l' : List (String × StoredCounts)}

@[simp] theorem queueGroup_key : (queueGroup base l).key = base := by
  rw [queueGroup, foldl_addQueue]

theorem queueGroup_queues : (queueGroup base l).queues = l.filterMap fun e => childOf e.1 e.2 := by
  rw [queueGroup, foldl_addQueue]
  rfl

theorem get_queueGroup (counter : QueueCounter) :
    (queueGroup base l).get counter = (l.map fun e => e.2.get counter).sum := by
  have hzero : ({} : StoredCounts).get counter = 0 := by cases counter <;> rfl
  rw [queueGroup, foldl_addQueue, get_foldl_addCounts, hzero, zero_add]

/-- The children of a group have different suffixes, since they are different queues with one base.
-/
theorem nodup_suffix (hnames : (l.map Prod.fst).Nodup) (hbase : ∀ e ∈ l, queueBase e.1 = base) :
    ((queueGroup base l).queues.map DynamicQueueStats.suffix).Nodup := by
  have hsuffix : (queueGroup base l).queues.map DynamicQueueStats.suffix =
      (l.map Prod.fst).filterMap fun queue =>
        if queueBase queue = base then queueSuffix queue else none := by
    rw [queueGroup_queues, List.map_filterMap, List.filterMap_map]
    apply List.filterMap_congr
    intro e he
    rw [Function.comp_apply, if_pos (hbase e he), childOf, Option.map_map]
    exact Option.map_id'
  rw [hsuffix]
  refine hnames.filterMap fun queue queue' suffix h h' => ?_
  split at h
  · next hq =>
    split at h'
    · next hq' => exact eq_of_base_suffix (hq.trans hq'.symm) h h'
    · cases h'
  · cases h

/-- The names of the children, put together again. -/
def QueueStats.childNames (g : QueueStats) : List String :=
  g.queues.map fun child => childName g.key child.suffix

/-- The children of a group are those of its queues that have a suffix. -/
theorem childNames_queueGroup (hbase : ∀ e ∈ l, queueBase e.1 = base) :
    (queueGroup base l).childNames = (l.map Prod.fst).filter fun queue => '#' ∈ queue.toList := by
  rw [QueueStats.childNames, queueGroup_queues, queueGroup_key]
  induction l with
  | nil => rfl
  | cons e l ih =>
    have hrest := ih fun e he => hbase e (List.mem_cons_of_mem _ he)
    rw [List.map_cons]
    cases h : queueSuffix e.1 with
    | none =>
      have hchild : childOf e.1 e.2 = none := by rw [childOf, h]; rfl
      simp only [List.filterMap_cons, hchild]
      rw [hrest, List.filter_cons_of_neg]
      simpa using queueSuffix_eq_none_iff.mp h
    | some suffix =>
      have hchild : childOf e.1 e.2 = some { toStoredCounts := e.2, suffix := suffix } := by
        rw [childOf, h]
        rfl
      obtain ⟨hname, hmem⟩ := queueSuffix_eq_some_iff.mp h
      rw [hbase e List.mem_cons_self] at hname
      simp only [List.filterMap_cons, hchild, List.map_cons]
      rw [hrest, List.filter_cons_of_pos, ← hname]
      simpa using hmem

/-- `value.queues.sort_by`: a group whose children are sorted by their names. -/
def QueueStats.sorted (g : QueueStats) : QueueStats :=
  { g with queues := sortBy DynamicQueueStats.suffix g.queues }

/-- The order in which the queues of a group come does not matter once the group is sorted. -/
theorem sorted_queueGroup (hnames : (l.map Prod.fst).Nodup)
    (hbase : ∀ e ∈ l, queueBase e.1 = base) (h : l'.Perm l) :
    (queueGroup base l').sorted = (queueGroup base l).sorted := by
  have hcounts : l'.foldl (fun counts e => counts + e.2) ({} : StoredCounts) =
      l.foldl (fun counts e => counts + e.2) {} := by
    refine StoredCounts.ext_get fun counter => ?_
    rw [get_foldl_addCounts, get_foldl_addCounts, (h.map _).sum_eq]
  have hqueues : sortBy DynamicQueueStats.suffix (queueGroup base l').queues =
      sortBy DynamicQueueStats.suffix (queueGroup base l).queues := by
    refine sortBy_eq_of_perm (nodup_suffix hnames hbase) ?_
    rw [queueGroup_queues, queueGroup_queues]
    exact h.filterMap _
  rw [QueueStats.sorted, QueueStats.sorted, hqueues, queueGroup, queueGroup, foldl_addQueue,
    foldl_addQueue, hcounts]

end Group

/-! ## All groups -/

section Groups

variable {l l' : List (String × StoredCounts)}

/-- The groups that some queues make, in the order in which they are met. -/
def groupList (l : List (String × StoredCounts)) : List QueueStats :=
  (queueGroups l).entries.map Prod.snd

/-- The groups are those of the bases of the queues, each with all queues of its base. -/
theorem mem_groupList {g : QueueStats} : g ∈ groupList l ↔
    ∃ base, (∃ e ∈ l, queueBase e.1 = base) ∧
      g = queueGroup base (l.filter fun e => queueBase e.1 = base) := by
  rw [groupList, List.mem_map]
  constructor
  · rintro ⟨e, he, rfl⟩
    obtain ⟨hbase, hvalue⟩ := mem_collectFrom.mp he
    exact ⟨e.1, List.mem_map.mp hbase, hvalue⟩
  · rintro ⟨base, hbase, rfl⟩
    exact ⟨(base, _), mem_collectFrom.mpr ⟨List.mem_map.mpr hbase, rfl⟩, rfl⟩

theorem map_key_groupList : (groupList l).map QueueStats.key = (queueGroups l).entries.map Prod.fst := by
  rw [groupList, List.map_map]
  apply List.map_congr_left
  intro e he
  rw [Function.comp_apply, (mem_collectFrom.mp he).2]
  exact queueGroup_key

theorem nodup_key : ((groupList l).map QueueStats.key).Nodup := by
  rw [map_key_groupList]
  exact (queueGroups l).nodup

/-- All groups together have what their queues have, counter by counter. -/
theorem sum_groupList (counter : QueueCounter) :
    ((groupList l).map fun g => g.get counter).sum = (l.map fun e => e.2.get counter).sum := by
  have hvalues : (groupList l).map (fun g => g.get counter) =
      ((queueGroups l).entries.map Prod.fst).map fun base =>
        ((l.filter fun e => queueBase e.1 = base).map fun e => e.2.get counter).sum := by
    rw [groupList, List.map_map, List.map_map]
    apply List.map_congr_left
    intro e he
    have hgroup : e.2 = queueGroup e.1 (l.filter fun x => queueBase x.1 = e.1) :=
      (mem_collectFrom.mp he).2
    rw [Function.comp_apply, Function.comp_apply, hgroup, get_queueGroup]
  rw [hvalues]
  refine sum_groups (queueGroups l).nodup _ fun e he => ?_
  have hentry : (queueBase e.1, queueGroup (queueBase e.1)
      (l.filter fun x => queueBase x.1 = queueBase e.1)) ∈ (queueGroups l).entries :=
    mem_collectFrom.mpr ⟨List.mem_map.mpr ⟨e, he, rfl⟩, rfl⟩
  exact List.mem_map_of_mem (f := Prod.fst) hentry

/-- `values.sort_by`, with the children sorted as well. -/
def settleGroups (gs : List QueueStats) : List QueueStats :=
  sortBy QueueStats.key (gs.map QueueStats.sorted)

theorem map_key_sorted (gs : List QueueStats) :
    (gs.map QueueStats.sorted).map QueueStats.key = gs.map QueueStats.key := by
  rw [List.map_map]
  rfl

/-- **Groups of selected queues are selected groups**, whatever the orders were. -/
theorem settleGroups_eq (hnames : (l.map Prod.fst).Nodup) (p : String → Bool)
    (h : l'.Perm (l.filter fun e => p (queueBase e.1))) {gs gs' : List QueueStats}
    (hgs : gs.Perm (groupList l)) (hgs' : gs'.Perm (groupList l')) :
    settleGroups gs' = (settleGroups gs).filter fun g => p g.key := by
  have hkeys : ((gs.map QueueStats.sorted).map QueueStats.key).Nodup := by
    rw [map_key_sorted]
    exact (hgs.map _).nodup_iff.mpr nodup_key
  have hkeys' : ((gs'.map QueueStats.sorted).map QueueStats.key).Nodup := by
    rw [map_key_sorted]
    exact (hgs'.map _).nodup_iff.mpr nodup_key
  have hselected : (((gs.map QueueStats.sorted).filter fun g => p g.key).map
      QueueStats.key).Nodup := hkeys.sublist (List.filter_sublist.map _)
  rw [settleGroups, settleGroups, filter_sortBy hkeys]
  refine sortBy_eq_of_perm hselected ?_
  refine (List.perm_ext_iff_of_nodup hkeys'.of_map hselected.of_map).mpr fun g => ?_
  -- one group on both sides
  have hgroup (base : String) (hp : p base = true) :
      (queueGroup base (l'.filter fun e => queueBase e.1 = base)).sorted =
        (queueGroup base (l.filter fun e => queueBase e.1 = base)).sorted := by
    refine sorted_queueGroup (hnames.sublist (List.filter_sublist.map _))
      (fun e he => of_decide_eq_true (List.mem_filter.mp he).2) ?_
    have hsame : (l.filter fun e => p (queueBase e.1)).filter (fun e => queueBase e.1 = base) =
        l.filter fun e => queueBase e.1 = base := by
      rw [List.filter_filter]
      apply List.filter_congr
      intro e _
      by_cases he : queueBase e.1 = base
      · simp [he, hp]
      · simp [he]
    rw [← hsame]
    exact h.filter _
  have hmem (base : String) : (∃ e ∈ l', queueBase e.1 = base) ↔
      p base = true ∧ ∃ e ∈ l, queueBase e.1 = base := by
    constructor
    · rintro ⟨e, he, rfl⟩
      obtain ⟨hl, hp⟩ := List.mem_filter.mp (h.subset he)
      exact ⟨hp, e, hl, rfl⟩
    · rintro ⟨hp, e, he, rfl⟩
      exact ⟨e, h.symm.subset (List.mem_filter.mpr ⟨he, hp⟩), rfl⟩
  rw [List.mem_filter, List.mem_map, List.mem_map]
  constructor
  · rintro ⟨g', hg', rfl⟩
    obtain ⟨base, hbase, rfl⟩ := mem_groupList.mp (hgs'.subset hg')
    obtain ⟨hp, hbase⟩ := (hmem base).mp hbase
    rw [hgroup base hp]
    refine ⟨⟨_, hgs.symm.subset (mem_groupList.mpr ⟨base, hbase, rfl⟩), rfl⟩, ?_⟩
    rw [QueueStats.sorted, queueGroup_key]
    exact hp
  · rintro ⟨⟨g', hg', rfl⟩, hp⟩
    obtain ⟨base, hbase, rfl⟩ := mem_groupList.mp (hgs.subset hg')
    rw [QueueStats.sorted, queueGroup_key] at hp
    rw [← hgroup base hp]
    exact ⟨_, hgs'.symm.subset (mem_groupList.mpr ⟨base, (hmem base).mpr ⟨hp, hbase⟩, rfl⟩), rfl⟩

end Groups

/-! ## The sums -/

section Sums

variable {o : HashOrders} {queues : List String} {stats : Table String ℤ} {filter : Bool} {now : ℤ}

/-- The counters of the queues, in the order in which they are iterated. -/
abbrev countersOf (o : HashOrders) (queues : List String) (stats : Table String ℤ) (filter : Bool)
    (now : ℤ) : List (String × StoredCounts) :=
  o.counters.order (queueCounters o queues stats filter now)

theorem mem_countersOf {e : String × StoredCounts} : e ∈ countersOf o queues stats filter now ↔
    selects queues filter e.1 = true ∧ QueueVisible queues stats now e.1 ∧
      e.2 = countsOf stats e.1 := by
  rw [← find_queueCounters (o := o)]
  exact mem_order

theorem perm_groupList : (aggregateQueueStats o queues stats filter now).1.Perm
    (groupList (countersOf o queues stats filter now)) := (o.groups.perm _).map _

theorem sum_map_filter {α : Type} (p : α → Bool) (f : α → ℤ) (l : List α) :
    ((l.filter p).map f).sum = (l.map fun a => if p a then f a else 0).sum := by
  induction l with
  | nil => rfl
  | cons a l ih =>
    by_cases ha : p a = true
    · simp [ha, ih]
    · simp [ha, ih]

/-- The counters of some of the queues add up to the stored fields of these queues. -/
theorem sum_countersOf (p : String → Bool) (counter : QueueCounter) :
    (((countersOf o queues stats filter now).filter fun e => p e.1).map
      fun e => e.2.get counter).sum =
      stored stats counter fun queue => selects queues filter queue && p queue := by
  have hinputs : (((counterInputs o queues stats filter now).filter fun x => p x.1).map
      (amount counter)).sum = stored stats counter fun queue =>
        selects queues filter queue && p queue := sum_amount_inputs p counter
  rw [(((o.counters.perm _).filter _).map _).sum_eq, sum_map_filter, queueCounters_eq, ← hinputs,
    sum_map_filter]
  apply sum_collect _ (fun queue (counts : StoredCounts) => if p queue then counts.get counter else 0)
  intro queue _
  have hzero : ({} : StoredCounts).get counter = 0 := by cases counter <;> rfl
  rw [get_foldl_add, hzero, zero_add]
  by_cases hp : p queue = true
  · rw [if_pos hp]
    congr 1
    apply List.map_congr_left
    intro x hx
    rw [of_decide_eq_true (List.mem_filter.mp hx).2, if_pos hp]
  · rw [if_neg hp]
    symm
    apply List.sum_eq_zero
    intro v hv
    obtain ⟨x, hx, rfl⟩ := List.mem_map.mp hv
    rw [of_decide_eq_true (List.mem_filter.mp hx).2, if_neg hp]

end Sums

/-! ## What is conserved -/

/-- **Counters are conserved by grouping**: nothing is lost, and nothing is counted twice. -/
structure CountersGrouped (queues : List String) (stats : Table String ℤ) (now : ℤ)
    (groups : List QueueStats) : Prop where
  /-- a live queue, and a queue with a counter, is in exactly one group -/
  group : ∀ queue, (queue ∈ queues ∨
      ∃ counter value, stats.find (statsField queue (QueueCounter.name counter)) = some value) →
    (groups.filter fun g => g.key = queueBase queue).length = 1
  /-- a queue with a `#` in its name is a child there, and only once -/
  child : ∀ queue, (queue ∈ queues ∨
      ∃ counter value, stats.find (statsField queue (QueueCounter.name counter)) = some value) →
    '#' ∈ queue.toList → (groups.flatMap QueueStats.childNames).count queue = 1
  /-- which is in that group -/
  base : ∀ g ∈ groups, ∀ queue ∈ g.childNames, queueBase queue = g.key
  /-- the names of children, put together again, are those of visible queues -/
  name : ∀ g ∈ groups, ∀ child ∈ g.queues,
    QueueVisible queues stats now (childName g.key child.suffix) ∧
      queueSuffix (childName g.key child.suffix) = some child.suffix
  /-- the counters of a child are the stored fields of its queue -/
  counts : ∀ g ∈ groups, ∀ child ∈ g.queues, ∀ counter,
    child.get counter = stored stats counter (· = childName g.key child.suffix)
  /-- the counters of a group are the sums over all queues with its name -/
  sums : ∀ g ∈ groups, ∀ counter,
    g.get counter = stored stats counter fun queue => queueBase queue = g.key
  /-- the counters of all groups together are the sums over all queues -/
  total : ∀ counter, (groups.map fun g => g.get counter).sum = stored stats counter fun _ => true

section Conserved

variable {o : HashOrders} {queues : List String} {stats : Table String ℤ} {filter : Bool} {now : ℤ}

/-- A group, as it comes out, is the sorted group of all queues that are looked at and have its
base. -/
theorem mem_groups {g : QueueStats} :
    g ∈ (aggregateQueueStats o queues stats filter now).1 ↔
      ∃ base, (∃ e ∈ countersOf o queues stats filter now, queueBase e.1 = base) ∧
        g = queueGroup base
          ((countersOf o queues stats filter now).filter fun e => queueBase e.1 = base) := by
  rw [perm_groupList.mem_iff, mem_groupList]

theorem nodup_groups :
    ((aggregateQueueStats o queues stats filter now).1.map QueueStats.key).Nodup :=
  (perm_groupList.map _).nodup_iff.mpr nodup_key

/-- The children of a group are the visible queues of its base that have a suffix. -/
theorem childNames_groups {base : String} :
    (queueGroup base ((countersOf o queues stats filter now).filter
      fun e => queueBase e.1 = base)).childNames =
      (((countersOf o queues stats filter now).map Prod.fst).filter
        fun queue => queueBase queue = base).filter fun queue => '#' ∈ queue.toList := by
  rw [childNames_queueGroup fun e he => of_decide_eq_true (List.mem_filter.mp he).2]
  simp only [List.filter_map]
  rfl

theorem base_of_mem_childNames {g : QueueStats}
    (hg : g ∈ (aggregateQueueStats o queues stats filter now).1) {queue : String}
    (h : queue ∈ g.childNames) :
    queueBase queue = g.key ∧ '#' ∈ queue.toList ∧
      ∃ e ∈ countersOf o queues stats filter now, e.1 = queue := by
  obtain ⟨base, -, rfl⟩ := mem_groups.mp hg
  rw [childNames_groups, List.mem_filter, List.mem_filter, List.mem_map] at h
  rw [queueGroup_key]
  exact ⟨of_decide_eq_true h.1.2, of_decide_eq_true h.2, h.1.1⟩

/-- No child is met twice, in its own group or in another. -/
theorem nodup_childNames :
    ((aggregateQueueStats o queues stats filter now).1.flatMap QueueStats.childNames).Nodup := by
  rw [List.nodup_flatMap]
  constructor
  · intro g hg
    obtain ⟨base, -, rfl⟩ := mem_groups.mp hg
    rw [childNames_groups]
    exact ((nodup_order ..).filter _).filter _
  · have hkeys : (aggregateQueueStats o queues stats filter now).1.Pairwise
        fun g g' => g.key ≠ g'.key := by
      rw [← List.pairwise_map]
      exact nodup_groups
    refine hkeys.imp_of_mem fun hg hg' hne => ?_
    intro queue h h'
    exact hne ((base_of_mem_childNames hg h).1.symm.trans (base_of_mem_childNames hg' h').1)

/-- A visible queue that is selected has its group among those that come out. -/
theorem exists_group {queue : String} (hsel : selects queues filter queue = true)
    (hvisible : QueueVisible queues stats now queue) :
    ∃ g ∈ (aggregateQueueStats o queues stats filter now).1, g.key = queueBase queue ∧
      ('#' ∈ queue.toList → queue ∈ g.childNames) := by
  have hmem : (queue, countsOf stats queue) ∈ countersOf o queues stats filter now :=
    mem_countersOf.mpr ⟨hsel, hvisible, rfl⟩
  refine ⟨_, mem_groups.mpr ⟨queueBase queue, ⟨_, hmem, rfl⟩, rfl⟩, queueGroup_key, fun h => ?_⟩
  rw [childNames_groups, List.mem_filter, List.mem_filter, List.mem_map]
  exact ⟨⟨⟨_, hmem, rfl⟩, by simp⟩, by simpa using h⟩

/-- Without a filter everything is conserved: each visible queue is in one group, and what is stored
for it is counted there. -/
theorem countersGrouped (o : HashOrders) (queues : List String) (stats : Table String ℤ) (now : ℤ) :
    CountersGrouped queues stats now (aggregateQueueStats o queues stats false now).1 := by
  have hvisible (queue : String) (h : queue ∈ queues ∨ ∃ counter value,
      stats.find (statsField queue (QueueCounter.name counter)) = some value) :
      QueueVisible queues stats now queue := by
    rcases h with h | ⟨counter, value, h⟩
    · exact .inl h
    · refine .inr (.inl ⟨_, value, ?_, keepsLength_name counter, h⟩)
      cases counter <;> decide
  have hsel (queue : String) : selects queues false queue = true := rfl
  refine ⟨?_, ?_, ?_, ?_, ?_, ?_, ?_⟩
  · intro queue h
    obtain ⟨g, hg, hkey, -⟩ := exists_group (o := o) (hsel queue) (hvisible queue h)
    have hcount := List.count_eq_one_of_mem nodup_groups (List.mem_map_of_mem (f := QueueStats.key) hg)
    rw [List.count, List.countP_map, hkey, List.countP_eq_length_filter] at hcount
    exact hcount
  · intro queue h hhash
    obtain ⟨g, hg, -, hchild⟩ := exists_group (o := o) (hsel queue) (hvisible queue h)
    refine List.count_eq_one_of_mem nodup_childNames ?_
    exact List.mem_flatMap.mpr ⟨g, hg, hchild hhash⟩
  · exact fun g hg queue h => (base_of_mem_childNames hg h).1
  · intro g hg child hchild
    have hname : childName g.key child.suffix ∈ g.childNames :=
      List.mem_map_of_mem hchild
    obtain ⟨hbase, hhash, e, he, hfst⟩ := base_of_mem_childNames hg hname
    refine ⟨hfst ▸ (mem_countersOf.mp he).2.1, ?_⟩
    rw [queueSuffix_eq_some_iff, hbase]
    exact ⟨rfl, hhash⟩
  · intro g hg child hchild counter
    obtain ⟨base, -, rfl⟩ := mem_groups.mp hg
    rw [queueGroup_queues, List.mem_filterMap] at hchild
    obtain ⟨e, he, hchild⟩ := hchild
    obtain ⟨hmem, hbase⟩ := List.mem_filter.mp he
    obtain ⟨suffix, hsuffix, rfl⟩ := Option.map_eq_some_iff.mp hchild
    rw [queueGroup_key, ← of_decide_eq_true hbase, ← (queueSuffix_eq_some_iff.mp hsuffix).1,
      ← get_countsOf, ← (mem_countersOf.mp hmem).2.2]
  · intro g hg counter
    obtain ⟨base, -, rfl⟩ := mem_groups.mp hg
    rw [get_queueGroup, queueGroup_key]
    exact sum_countersOf (fun queue => queueBase queue = base) counter
  · intro counter
    have hstored : (((countersOf o queues stats false now).filter fun _ => true).map
        fun e => e.2.get counter).sum = stored stats counter fun _ => true :=
      sum_countersOf (fun _ => true) counter
    rw [List.filter_true] at hstored
    rw [(perm_groupList.map _).sum_eq, sum_groupList, hstored]

/-- The queues that are looked at with a filter are those among all that the filter selects, up to
their order. -/
theorem perm_countersOf (o o' : HashOrders) : (countersOf o' queues stats filter now).Perm
    ((countersOf o queues stats false now).filter fun e => selects queues filter e.1) := by
  have hnodup : (countersOf o queues stats false now).Nodup := (nodup_order ..).of_map
  refine (List.perm_ext_iff_of_nodup (nodup_order ..).of_map (hnodup.filter _)).mpr fun e => ?_
  rw [List.mem_filter, mem_countersOf, mem_countersOf]
  constructor
  · rintro ⟨hsel, hvisible, hcounts⟩
    exact ⟨⟨rfl, hvisible, hcounts⟩, hsel⟩
  · rintro ⟨⟨-, hvisible, hcounts⟩, hsel⟩
    exact ⟨hsel, hvisible, hcounts⟩

/-- What comes out with a filter can be had from what comes out without one, by keeping the selected
groups. -/
theorem settleGroups_filter (o o' : HashOrders) :
    settleGroups (aggregateQueueStats o' queues stats filter now).1 =
      (settleGroups (aggregateQueueStats o queues stats false now).1).filter fun g =>
        !filter || queues.any fun selected => queueBase selected = g.key :=
  settleGroups_eq (nodup_order ..) (fun base => !filter || queues.any fun q => queueBase q = base)
    (perm_countersOf o o') perm_groupList perm_groupList

/-- **Queue counters are conserved by grouping.** Without a filter the groups have all queues and all
that is stored for them; a filter keeps the groups and the lengths of the queues whose name has the
base of a selected one; and the orders in which maps are iterated make no difference. -/
theorem counters_conserved (o o' : HashOrders) (queues : List String) (stats : Table String ℤ)
    (now : ℤ) :
    CountersGrouped queues stats now (aggregateQueueStats o queues stats false now).1 ∧
    (settleGroups (aggregateQueueStats o queues stats true now).1 =
        (settleGroups (aggregateQueueStats o queues stats false now).1).filter
          (fun g => queues.any fun selected => queueBase selected = g.key) ∧
      ∀ queue, (aggregateQueueStats o queues stats true now).2.find queue =
        if queues.any (fun selected => queueBase selected = queueBase queue)
        then (aggregateQueueStats o queues stats false now).2.find queue else none) ∧
    ∀ filter,
      settleGroups (aggregateQueueStats o' queues stats filter now).1 =
        settleGroups (aggregateQueueStats o queues stats filter now).1 ∧
      ∀ queue, (aggregateQueueStats o' queues stats filter now).2.find queue =
        (aggregateQueueStats o queues stats filter now).2.find queue := by
  refine ⟨countersGrouped o queues stats now, ⟨settleGroups_filter o o, fun queue => ?_⟩,
    fun filter => ⟨?_, fun queue => ?_⟩⟩
  · rw [aggregateQueueStats, aggregateQueueStats, find_enqueuedSnapshots, find_enqueuedSnapshots]
    rfl
  · rw [settleGroups_filter o o']
    exact (settleGroups_filter o o).symm
  · rw [aggregateQueueStats, aggregateQueueStats, find_enqueuedSnapshots, find_enqueuedSnapshots]

end Conserved

end Oxana
