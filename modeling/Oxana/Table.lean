import Mathlib.Algebra.BigOperators.Group.List.Basic
import Mathlib.Data.List.Induction
import Mathlib.Data.List.Nodup
import Mathlib.Data.String.Basic
import Mathlib.Algebra.Ring.Int.Defs
import Mathlib.Algebra.Ring.Nat

/-!
# Hash maps

A hash map is the list of its entries in the order in which it happens to be
iterated, no key appearing twice. The one way of writing that matters here is
`entry(k).or_default()` followed by an update, `Table.modify`; a loop that does
nothing else groups its inputs by key (`Table.collect`), and then

* what a key holds is the fold of the inputs of that key (`find_collect`), and
* a sum over the entries is a sum over the inputs (`sum_collect`),

so that neither depends on how the map is laid out.
-/

/-- Update what is under a key, starting from a default when there is nothing. -/
def adjust {κ ν : Type} [DecidableEq κ] (k : κ) (d : ν) (f : ν → ν) :
    List (κ × ν) → List (κ × ν)
  | [] => [(k, f d)]
  | e :: es => if e.1 = k then (e.1, f e.2) :: es else e :: adjust k d f es

/-- A finite map, as its entries in some order, each key once. -/
structure Table (κ ν : Type) where
  /-- the entries, as they are iterated -/
  entries : List (κ × ν)
  /-- no key has two entries -/
  nodup : (entries.map Prod.fst).Nodup

namespace Table

variable {κ ν ι : Type} [DecidableEq κ]

/-- The map without entries. -/
def empty : Table κ ν := ⟨[], List.nodup_nil⟩

/-- Adjusting an entry leaves the keys as they are, or adds one at the end. -/
theorem map_fst_adjust (k : κ) (d : ν) (f : ν → ν) (es : List (κ × ν)) :
    (adjust k d f es).map Prod.fst =
      if k ∈ es.map Prod.fst then es.map Prod.fst else es.map Prod.fst ++ [k] := by
  induction es with
  | nil => simp [adjust]
  | cons e es ih =>
    by_cases he : e.1 = k
    · simp [adjust, he]
    · have hk : ¬ k = e.1 := fun h => he h.symm
      simp only [adjust, he, if_false, List.map_cons, ih, List.mem_cons, hk, false_or]
      split <;> rfl

/-- Keys stay different when an entry is adjusted. -/
theorem nodup_adjust {es : List (κ × ν)} (h : (es.map Prod.fst).Nodup) (k : κ) (d : ν)
    (f : ν → ν) : ((adjust k d f es).map Prod.fst).Nodup := by
  rw [map_fst_adjust]
  split
  · exact h
  · next hk => exact List.nodup_append.mpr ⟨h, List.nodup_singleton k, by
      rintro a ha b hb rfl
      rw [List.mem_singleton] at hb
      exact hk (hb ▸ ha)⟩

/-- `*map.entry(k).or_insert(d) = f(..)`: what is under a key is changed, or a default if nothing
is. -/
def modify (t : Table κ ν) (k : κ) (d : ν) (f : ν → ν) : Table κ ν :=
  ⟨adjust k d f t.entries, nodup_adjust t.nodup k d f⟩

/-- What is under a key, if anything is. -/
def find (t : Table κ ν) (k : κ) : Option ν := t.entries.lookup k

/-! ### Reading what was written -/

/-- The entry that is adjusted is found with its new value, which is made of the old one or of the
default. -/
theorem lookup_adjust_self (k : κ) (d : ν) (f : ν → ν) (es : List (κ × ν)) :
    (adjust k d f es).lookup k = some (f ((es.lookup k).getD d)) := by
  induction es with
  | nil => simp [adjust]
  | cons e es ih =>
    obtain ⟨a, b⟩ := e
    by_cases he : a = k
    · subst he
      simp [adjust]
    · have hk : (k == a) = false := by simpa using fun h => he h.symm
      simp [adjust, he, List.lookup_cons, hk, ih]

/-- No other entry is adjusted. -/
theorem lookup_adjust_ne {k k' : κ} (h : k' ≠ k) (d : ν) (f : ν → ν) (es : List (κ × ν)) :
    (adjust k d f es).lookup k' = es.lookup k' := by
  induction es with
  | nil =>
    have hk : (k' == k) = false := by simpa using h
    simp [adjust, List.lookup_cons, hk]
  | cons e es ih =>
    obtain ⟨a, b⟩ := e
    by_cases he : a = k
    · subst he
      have hk : (k' == a) = false := by simpa using h
      simp [adjust, List.lookup_cons, hk]
    · simp only [adjust, he, if_false, List.lookup_cons, ih]

@[simp] theorem find_empty (k : κ) : (empty : Table κ ν).find k = none := rfl

@[simp] theorem find_modify_self (t : Table κ ν) (k : κ) (d : ν) (f : ν → ν) :
    (t.modify k d f).find k = some (f ((t.find k).getD d)) := lookup_adjust_self k d f t.entries

theorem find_modify_ne (t : Table κ ν) {k k' : κ} (h : k' ≠ k) (d : ν) (f : ν → ν) :
    (t.modify k d f).find k' = t.find k' := lookup_adjust_ne h d f t.entries

/-- In a list whose keys are different, a value is looked up exactly if its entry is there. -/
theorem lookup_eq_some {es : List (κ × ν)} (h : (es.map Prod.fst).Nodup) {k : κ} {v : ν} :
    es.lookup k = some v ↔ (k, v) ∈ es := by
  induction es with
  | nil => simp
  | cons e es ih =>
    obtain ⟨a, b⟩ := e
    rw [List.map_cons, List.nodup_cons] at h
    by_cases he : a = k
    · subst he
      simp only [List.lookup_cons, beq_self_eq_true, Option.some.injEq, List.mem_cons,
        Prod.mk.injEq, true_and]
      constructor
      · rintro rfl
        exact .inl rfl
      · rintro (rfl | hv)
        · rfl
        · exact absurd (List.mem_map_of_mem (f := Prod.fst) hv) h.1
    · have hk : (k == a) = false := by simpa using fun h => he h.symm
      have hk' : ¬ k = a := fun h => he h.symm
      simp only [List.lookup_cons, hk, ih h.2, List.mem_cons, Prod.mk.injEq, hk', false_and,
        false_or]

/-- A map holds what its entries say, and nothing else. -/
theorem find_eq_some (t : Table κ ν) {k : κ} {v : ν} : t.find k = some v ↔ (k, v) ∈ t.entries :=
  lookup_eq_some t.nodup

/-! ### Grouping by key -/

/-- The loop that puts every input under its key, where a new key starts from its own default. -/
def collectFrom (key : ι → κ) (d : κ → ν) (f : ν → ι → ν) (xs : List ι) : Table κ ν :=
  xs.foldl (fun t x => t.modify (key x) (d (key x)) (f · x)) empty

/-- The loop that puts every input under its key, starting from the same default. -/
def collect (key : ι → κ) (d : ν) (f : ν → ι → ν) (xs : List ι) : Table κ ν :=
  xs.foldl (fun t x => t.modify (key x) d (f · x)) empty

section CollectFrom

variable {key : ι → κ} {d : κ → ν} {f : ν → ι → ν}

/-- One more input adjusts the entry of its own key. -/
theorem collectFrom_concat (xs : List ι) (x : ι) : collectFrom key d f (xs ++ [x]) =
    (collectFrom key d f xs).modify (key x) (d (key x)) (f · x) := by
  simp [collectFrom, List.foldl_append]

/-- A key holds the fold of its own inputs, in their order, and nothing if it has none. -/
theorem find_collectFrom (xs : List ι) (k : κ) :
    (collectFrom key d f xs).find k =
      if k ∈ xs.map key then some ((xs.filter fun x => key x = k).foldl f (d k)) else none := by
  induction xs using List.reverseRecOn with
  | nil => simp [collectFrom]
  | append_singleton xs x ih =>
    rw [collectFrom_concat]
    by_cases hk : key x = k
    · subst hk
      rw [find_modify_self, ih]
      split
      · simp [List.filter_append, List.foldl_append]
      · next h =>
        have hnil : xs.filter (fun y => decide (key y = key x)) = [] := by
          rw [List.filter_eq_nil_iff]
          intro y hy he
          exact h (List.mem_map.mpr ⟨y, hy, by simpa using he⟩)
        simp [List.filter_append, hnil]
    · rw [find_modify_ne _ (fun h => hk h.symm), ih]
      have hk' : ¬ k = key x := fun h => hk h.symm
      simp [List.filter_append, hk, hk']

/-- The entries of what has been collected: the keys are those of the inputs, and each holds the
fold of its own ones. -/
theorem mem_collectFrom {xs : List ι} {e : κ × ν} :
    e ∈ (collectFrom key d f xs).entries ↔
      e.1 ∈ xs.map key ∧ e.2 = (xs.filter fun x => key x = e.1).foldl f (d e.1) := by
  rw [← find_eq_some, find_collectFrom]
  split
  · next h => simp only [Option.some.injEq, h, true_and, eq_comm]
  · next h => simp [h]

end CollectFrom

variable {key : ι → κ} {d : ν} {f : ν → ι → ν}

/-- One more input adjusts the entry of its own key. -/
theorem collect_concat (xs : List ι) (x : ι) :
    collect key d f (xs ++ [x]) = (collect key d f xs).modify (key x) d (f · x) := by
  simp [collect, List.foldl_append]

/-- A key holds the fold of its own inputs, in their order, and nothing if it has none. -/
theorem find_collect (xs : List ι) (k : κ) :
    (collect key d f xs).find k =
      if k ∈ xs.map key then some ((xs.filter fun x => key x = k).foldl f d) else none :=
  find_collectFrom (d := fun _ => d) xs k

/-- The entries of what has been collected: the keys are those of the inputs, and each holds the
fold of its own ones. -/
theorem mem_collect {xs : List ι} {e : κ × ν} :
    e ∈ (collect key d f xs).entries ↔
      e.1 ∈ xs.map key ∧ e.2 = (xs.filter fun x => key x = e.1).foldl f d :=
  mem_collectFrom (d := fun _ => d)

/-- A map that is made of pairs holds these and no others, if their keys differ. -/
theorem find_collect_pairs {l : List (κ × ν)} (h : (l.map Prod.fst).Nodup) {k : κ} {v : ν} :
    (collect Prod.fst d (fun _ e => e.2) l).find k = some v ↔ (k, v) ∈ l := by
  induction l using List.reverseRecOn with
  | nil => simp [collect]
  | append_singleton l e ih =>
    obtain ⟨a, b⟩ := e
    rw [List.map_append, List.map_singleton, List.nodup_append] at h
    obtain ⟨hl, -, hdisj⟩ := h
    rw [collect_concat]
    by_cases ha : k = a
    · subst ha
      have hnotin : (k, v) ∉ l := fun hk =>
        hdisj k (List.mem_map_of_mem (f := Prod.fst) hk) k (List.mem_singleton_self k) rfl
      simp [hnotin, eq_comm]
    · simp [find_modify_ne _ ha, ih hl, ha]

/-- The keys of what has been collected are those of the inputs. -/
theorem mem_keys_collect {xs : List ι} {k : κ} :
    k ∈ (collect key d f xs).entries.map Prod.fst ↔ k ∈ xs.map key := by
  constructor
  · intro hk
    obtain ⟨e, he, rfl⟩ := List.mem_map.mp hk
    exact (mem_collect.mp he).1
  · intro hk
    have he : (k, (xs.filter fun x => key x = k).foldl f d) ∈ (collect key d f xs).entries :=
      mem_collect.mpr ⟨hk, rfl⟩
    exact List.mem_map_of_mem (f := Prod.fst) he

/-- In a list without repetitions one element is met once, so that a sum over the list counts it
once. -/
theorem sum_map_ite_eq_of_mem {M : Type} [AddCommMonoid M] {ks : List κ} (h : ks.Nodup) {a : κ}
    (ha : a ∈ ks) (c : M) : (ks.map fun k => if a = k then c else 0).sum = c := by
  induction ks with
  | nil => simp at ha
  | cons k ks ih =>
    rw [List.nodup_cons] at h
    by_cases hk : a = k
    · subst hk
      have hrest : (ks.map fun k => if a = k then c else 0) = ks.map fun _ => 0 := by
        apply List.map_congr_left
        intro k hk
        rw [if_neg]
        rintro rfl
        exact h.1 hk
      simp [hrest]
    · have ha' : a ∈ ks := by simpa [hk] using ha
      simp [hk, ih h.2 ha']

/-- Summing group by group is summing everything, if every input belongs to one of the groups. -/
theorem sum_groups {M : Type} [AddCommMonoid M] {ks : List κ} (h : ks.Nodup) (c : ι → M)
    {xs : List ι} (hxs : ∀ x ∈ xs, key x ∈ ks) :
    (ks.map fun k => ((xs.filter fun x => key x = k).map c).sum).sum = (xs.map c).sum := by
  induction xs with
  | nil => simp
  | cons x xs ih =>
    have hsplit : ∀ k, (((x :: xs).filter fun x => key x = k).map c).sum =
        (if key x = k then c x else 0) + ((xs.filter fun x => key x = k).map c).sum := by
      intro k
      by_cases hk : key x = k <;> simp [hk]
    simp only [hsplit, List.sum_map_add, List.map_cons, List.sum_cons]
    rw [ih fun y hy => hxs y (List.mem_cons_of_mem x hy),
      sum_map_ite_eq_of_mem h (hxs x List.mem_cons_self)]

/-- **A sum over the entries is a sum over the inputs**, when what an entry
contributes is what its own inputs contribute. -/
theorem sum_collect {M : Type} [AddCommMonoid M] (xs : List ι) (w : κ → ν → M) (c : ι → M)
    (hw : ∀ k ∈ xs.map key, w k ((xs.filter fun x => key x = k).foldl f d) =
      ((xs.filter fun x => key x = k).map c).sum) :
    ((collect key d f xs).entries.map fun e => w e.1 e.2).sum = (xs.map c).sum := by
  have hkeys : ∀ x ∈ xs, key x ∈ (collect key d f xs).entries.map Prod.fst :=
    fun x hx => mem_keys_collect.mpr (List.mem_map_of_mem hx)
  have hvals : ((collect key d f xs).entries.map fun e => w e.1 e.2) =
      ((collect key d f xs).entries.map Prod.fst).map
        fun k => ((xs.filter fun x => key x = k).map c).sum := by
    rw [List.map_map]
    apply List.map_congr_left
    intro e he
    obtain ⟨hk, hv⟩ := mem_collect.mp he
    rw [hv, hw e.1 hk]
    rfl
  rw [hvals]
  exact sum_groups (collect key d f xs).nodup c hkeys

/-! ### Sorting what was grouped -/

section Sorting

variable {α : Type} {key : α → String}

/-- `sort_by` of a key: stable, so that equal keys keep their order. -/
def sortBy (key : α → String) (l : List α) : List α := l.mergeSort fun a b => key a ≤ key b

/-- Sorting changes the order of a list and nothing else. -/
theorem sortBy_perm (l : List α) : (sortBy key l).Perm l := List.mergeSort_perm l _

/-- What has been sorted is in order. -/
theorem sortBy_pairwise (l : List α) : (sortBy key l).Pairwise fun a b => key a ≤ key b := by
  have h : (sortBy key l).Pairwise fun a b => decide (key a ≤ key b) = true :=
    List.pairwise_mergeSort (fun a b c hab hbc =>
      decide_eq_true ((of_decide_eq_true hab).trans (of_decide_eq_true hbc)))
    (fun a b => by simpa using le_total (key a) (key b)) l
  exact h.imp of_decide_eq_true

/-- The order in which the elements come does not matter for the sorted list, if their keys differ.
-/
theorem sortBy_eq_of_perm {l l' : List α} (hnodup : (l.map key).Nodup) (h : l'.Perm l) :
    sortBy key l' = sortBy key l := by
  refine List.Perm.eq_of_pairwise ?_ (sortBy_pairwise l') (sortBy_pairwise l)
    (((sortBy_perm l').trans h).trans (sortBy_perm l).symm)
  intro a b ha hb hab hba
  have ha' := h.subset ((sortBy_perm l').subset ha)
  exact List.inj_on_of_nodup_map hnodup ha' ((sortBy_perm l).subset hb) (le_antisymm hab hba)

/-- A selection of sorted elements is the sorted selection, if their keys differ. -/
theorem filter_sortBy {l : List α} (hnodup : (l.map key).Nodup) (p : α → Bool) :
    (sortBy key l).filter p = sortBy key (l.filter p) := by
  refine List.Perm.eq_of_pairwise ?_ ((sortBy_pairwise l).filter p) (sortBy_pairwise _)
    (((sortBy_perm l).filter p).trans (sortBy_perm _).symm)
  intro a b ha hb hab hba
  have ha' := (sortBy_perm l).subset (List.mem_of_mem_filter ha)
  have hb' := List.mem_of_mem_filter ((sortBy_perm (l.filter p)).subset hb)
  exact List.inj_on_of_nodup_map hnodup ha' hb' (le_antisymm hab hba)

end Sorting

end Table
