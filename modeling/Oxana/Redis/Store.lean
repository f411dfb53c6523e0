import Mathlib.Logic.Function.Basic
import Mathlib.Data.List.Basic
import Mathlib.Algebra.Ring.Int.Defs
import Mathlib.Algebra.Ring.Nat

/-!
# A typed key-value store

The server's side of the picture: a map from keys to values of four kinds, in
which **no collection is ever empty** — the server drops a key together with
its last field, item or member, and that is visible to clients through `TYPE`.
The `Store` structure carries this as a field, so an empty collection cannot
be built, and every write goes through `Store.put`, which drops the key when
there is nothing left to hold.

Reads come in two forms: `Store.kind` is what `TYPE` answers, and the views
`Store.hash`, `Store.list`, `Store.zset` read a key *as* a collection, an
absent (or differently typed) key being the empty one. Proofs about
well-typed stores work with the views and never look at `get`.
-/

namespace Redis

/-- A key of the store, which is any string. -/
abbrev Key := String

/-- The type of a key that is present. -/
inductive Kind where
  /-- a plain string -/
  | string
  /-- a map from fields to strings -/
  | hash
  /-- a list of strings -/
  | list
  /-- a set of members, each with a score -/
  | zset
  deriving DecidableEq, Repr

/-- What a key can hold. Fields of a hash carry no order; the members of a
sorted set are kept by score, then by name. -/
inductive Value where
  /-- a plain string -/
  | string (text : String)
  /-- fields and their values -/
  | hash (fields : List (String × String))
  /-- items, head first -/
  | list (items : List String)
  /-- members and their scores -/
  | zset (members : List (String × Int))
  deriving DecidableEq, Repr

namespace Value

/-- The type that a value is of. -/
def kind : Value → Kind
  | string _ => .string
  | hash _ => .hash
  | list _ => .list
  | zset _ => .zset

/-- A value the server keeps: collections have at least one element. -/
def Live : Value → Prop
  | string _ => True
  | hash m => m ≠ []
  | list l => l ≠ []
  | zset z => z ≠ []

instance : (v : Value) → Decidable v.Live
  | string _ => inferInstanceAs (Decidable True)
  | hash m => inferInstanceAs (Decidable (m ≠ []))
  | list l => inferInstanceAs (Decidable (l ≠ []))
  | zset z => inferInstanceAs (Decidable (z ≠ []))

end Value

/-- The keyspace: finitely or infinitely many keys, none of them holding an
empty collection. -/
structure Store where
  /-- what a key holds, if it is present -/
  get : Key → Option Value
  /-- no key holds an empty collection -/
  live : ∀ {k v}, get k = some v → v.Live

namespace Store

/-- Stores are determined by what their keys hold. -/
theorem ext {s t : Store} (h : ∀ k, s.get k = t.get k) : s = t := by
  cases s; cases t
  congr
  exact funext h

/-- The store in which every key is absent. -/
def empty : Store := ⟨fun _ => none, fun h => by cases h⟩

instance : Inhabited Store := ⟨empty⟩

/-- What `TYPE` answers: nothing for a key that is absent. -/
def kind (s : Store) (k : Key) : Option Kind := (s.get k).map Value.kind

/-- The key is absent or of the given kind, so that commands of that kind
accept it. -/
def Fits (s : Store) (k : Key) (kd : Kind) : Prop := s.kind k = none ∨ s.kind k = some kd

instance (s : Store) (k : Key) (kd : Kind) : Decidable (s.Fits k kd) :=
  inferInstanceAs (Decidable (_ ∨ _))

/-- The key read as a hash, empty if it is absent or of another type. -/
def hash (s : Store) (k : Key) : List (String × String) :=
  match s.get k with
  | some (.hash m) => m
  | _ => []

/-- The key read as a list, empty if it is absent or of another type. -/
def list (s : Store) (k : Key) : List String :=
  match s.get k with
  | some (.list l) => l
  | _ => []

/-- The key read as a sorted set, empty if it is absent or of another type. -/
def zset (s : Store) (k : Key) : List (String × Int) :=
  match s.get k with
  | some (.zset z) => z
  | _ => []

/-- Store a value under a key, or drop the key when the value is an empty
collection. -/
def put (s : Store) (k : Key) (v : Value) : Store where
  get := Function.update s.get k (if v.Live then some v else none)
  live := by
    intro k' v' h
    by_cases hk : k' = k
    · subst hk
      rw [Function.update_self] at h
      split at h
      · next hv => cases h; exact hv
      · cases h
    · rw [Function.update_of_ne hk] at h
      exact s.live h

/-- The store in which a key is absent, and everything else as before. -/
def drop (s : Store) (k : Key) : Store where
  get := Function.update s.get k none
  live := by
    intro k' v' h
    by_cases hk : k' = k
    · subst hk
      rw [Function.update_self] at h
      cases h
    · rw [Function.update_of_ne hk] at h
      exact s.live h

variable {s t : Store} {k k' : Key}

/-! ### The views of a key -/

theorem list_congr (h : s.get k = t.get k) : s.list k = t.list k := by
  rw [list, h, list]

theorem zset_congr (h : s.get k = t.get k) : s.zset k = t.zset k := by
  rw [zset, h, zset]

theorem hash_congr (h : s.get k = t.get k) : s.hash k = t.hash k := by
  rw [hash, h, hash]

/-! ### Reading back a write -/

@[simp] theorem get_put_self (v : Value) :
    (s.put k v).get k = if v.Live then some v else none :=
  Function.update_self ..

@[simp] theorem get_put_ne (v : Value) (h : k' ≠ k) : (s.put k v).get k' = s.get k' :=
  Function.update_of_ne h ..

@[simp] theorem hash_put_self (m : List (String × String)) :
    (s.put k (.hash m)).hash k = m := by
  by_cases hm : m = []
  · simp [hash, Value.Live, hm]
  · simp [hash, Value.Live, hm]

@[simp] theorem list_put_self (l : List String) : (s.put k (.list l)).list k = l := by
  by_cases hl : l = []
  · simp [list, Value.Live, hl]
  · simp [list, Value.Live, hl]

@[simp] theorem zset_put_self (z : List (String × Int)) : (s.put k (.zset z)).zset k = z := by
  by_cases hz : z = []
  · simp [zset, Value.Live, hz]
  · simp [zset, Value.Live, hz]

@[simp] theorem hash_put_ne (v : Value) (h : k' ≠ k) : (s.put k v).hash k' = s.hash k' := by
  simp [hash, h]

@[simp] theorem list_put_ne (v : Value) (h : k' ≠ k) : (s.put k v).list k' = s.list k' := by
  simp [list, h]

@[simp] theorem zset_put_ne (v : Value) (h : k' ≠ k) : (s.put k v).zset k' = s.zset k' := by
  simp [zset, h]

@[simp] theorem kind_put_ne (v : Value) (h : k' ≠ k) : (s.put k v).kind k' = s.kind k' := by
  simp [kind, h]

/-- A second write to a key replaces the first. -/
@[simp] theorem put_put_self (v w : Value) : (s.put k v).put k w = s.put k w := by
  refine ext fun k' => ?_
  by_cases h : k' = k
  · subst h
    simp
  · simp [h]

/-- Writes to different keys can be exchanged. -/
theorem put_comm (v w : Value) (h : k ≠ k') :
    (s.put k v).put k' w = (s.put k' w).put k v := by
  refine ext fun k'' => ?_
  by_cases h₁ : k'' = k
  · subst h₁
    simp [h]
  · by_cases h₂ : k'' = k'
    · subst h₂
      simp [h₁]
    · simp [h₁, h₂]

/-- Dropping a key is writing an empty list to it, as no empty list is ever kept. -/
theorem drop_eq_put : s.drop k = s.put k (.list []) := by
  refine ext fun k' => ?_
  by_cases h : k' = k
  · subst h
    rw [get_put_self, if_neg (by simp [Value.Live])]
    exact Function.update_self ..
  · rw [get_put_ne _ h]
    exact Function.update_of_ne h ..

/-! ### Kinds -/

theorem kind_put_self {v : Value} (hv : v.Live) : (s.put k v).kind k = some v.kind := by
  simp [kind, hv]

/-- A write leaves its key either absent or of the kind written. -/
theorem fits_put_self (v : Value) : (s.put k v).Fits k v.kind := by
  by_cases hv : v.Live
  · exact .inr (kind_put_self hv)
  · exact .inl (by simp [kind, hv])

/-- A write of the kind that its key is expected to have keeps all expectations. -/
theorem Fits.put {kd : Kind} (h : s.Fits k' kd) (v : Value) (hv : k' = k → v.kind = kd) :
    (s.put k v).Fits k' kd := by
  by_cases hk : k' = k
  · subst hk
    rw [← hv rfl]
    exact fits_put_self v
  · simpa [Fits, hk] using h

/-- A key that is expected to have two kinds is absent. -/
theorem Fits.absent {kd kd' : Kind} (h : s.Fits k kd) (h' : s.Fits k kd') (hne : kd ≠ kd') :
    s.get k = none := by
  rcases h with h | h
  · simpa [kind] using h
  · rcases h' with h' | h'
    · simpa [kind] using h'
    · exact absurd (Option.some.inj (h.symm.trans h')) hne

theorem hash_of_absent (h : s.get k = none) : s.hash k = [] := by simp [hash, h]

theorem zset_of_absent (h : s.get k = none) : s.zset k = [] := by simp [zset, h]

/-- Read as a list, a key of another kind is empty. -/
theorem list_of_fits {kd : Kind} (h : s.Fits k kd) (hkd : kd ≠ .list) : s.list k = [] := by
  simp only [list]
  split
  · next l hl =>
    rcases h with h | h
    · simp [kind, hl] at h
    · rw [kind, hl] at h
      exact absurd (Option.some.inj h).symm hkd
  · rfl

/-- Read as a hash, a key of another kind is empty. -/
theorem hash_of_fits {kd : Kind} (h : s.Fits k kd) (hkd : kd ≠ .hash) : s.hash k = [] := by
  simp only [hash]
  split
  · next m hm =>
    rcases h with h | h
    · simp [kind, hm] at h
    · rw [kind, hm] at h
      exact absurd (Option.some.inj h).symm hkd
  · rfl

/-- Read as a sorted set, a key of another kind is empty. -/
theorem zset_of_fits {kd : Kind} (h : s.Fits k kd) (hkd : kd ≠ .zset) : s.zset k = [] := by
  simp only [zset]
  split
  · next z hz =>
    rcases h with h | h
    · simp [kind, hz] at h
    · rw [kind, hz] at h
      exact absurd (Option.some.inj h).symm hkd
  · rfl

/-- A list with items is the only thing under its key, so that list commands accept the key. -/
theorem fits_of_list_ne_nil (h : s.list k ≠ []) : s.Fits k .list := by
  simp only [list] at h
  split at h
  · next l hl => exact .inr (by rw [kind, hl]; rfl)
  · exact absurd rfl h

/-- Writing back a sorted set as it is there changes nothing. -/
theorem put_zset_same (h : s.Fits k .zset) : s.put k (.zset (s.zset k)) = s := by
  refine ext fun k' => ?_
  by_cases hk : k' = k
  · subst hk
    rw [get_put_self]
    cases hget : s.get k' with
    | none =>
      rw [zset_of_absent hget]
      exact if_neg fun hlive => hlive rfl
    | some v =>
      have hset : v.kind = .zset := by
        rcases h with h | h
        · rw [kind, hget] at h
          cases h
        · rw [kind, hget] at h
          exact Option.some.inj h
      cases v with
      | zset z =>
        have hz : s.zset k' = z := by rw [zset, hget]
        rw [hz]
        exact if_pos (s.live hget)
      | hash m => cases hset
      | list l => cases hset
      | string n => cases hset
  · exact get_put_ne _ hk

theorem fits_empty (kd : Kind) : empty.Fits k kd := .inl rfl

end Store

/-! ## Association lists

Hashes and sorted sets are read by field and by member. -/

section Assoc

variable {β : Type} {m : List (String × β)} {f g : String} {v : β}

/-- A hash without a field, or a sorted set without a member. -/
def unset (f : String) (m : List (String × β)) : List (String × β) := m.filter fun p => p.1 ≠ f

/-- A hash in which a field is set, replacing what it held. -/
def setField (f v : String) (m : List (String × String)) : List (String × String) :=
  (f, v) :: unset f m

/-- Insert a member among those ordered by score, then by name. -/
def insertMember (x : String) (score : Int) :
    List (String × Int) → List (String × Int)
  | [] => [(x, score)]
  | (y, t) :: z =>
    if score < t ∨ (score = t ∧ x < y) then (x, score) :: (y, t) :: z
    else (y, t) :: insertMember x score z

/-- Give a member its score, whether or not it was in the set. -/
def setScore (x : String) (score : Int) (z : List (String × Int)) : List (String × Int) :=
  insertMember x score (unset x z)

@[simp] theorem lookup_unset_self : (unset f m).lookup f = none := by
  induction m with
  | nil => rfl
  | cons p m ih =>
    obtain ⟨x, w⟩ := p
    by_cases hx : x = f
    · simpa [unset, hx] using ih
    · have hx' : (f == x) = false := by simpa using Ne.symm hx
      simpa [unset, hx, List.lookup_cons, hx'] using ih

@[simp] theorem lookup_unset_ne (h : g ≠ f) : (unset f m).lookup g = m.lookup g := by
  induction m with
  | nil => rfl
  | cons p m ih =>
    obtain ⟨x, w⟩ := p
    by_cases hx : x = f
    · subst hx
      have hg : (g == x) = false := by simpa using h
      simpa [unset, List.lookup_cons, hg] using ih
    · rcases hg : g == x with - | -
      · simpa [unset, hx, List.lookup_cons, hg] using ih
      · simp [unset, hx, List.lookup_cons, hg]

/-- Fields that are not removed are found as before. -/
theorem lookup_foldl_unset {fs : List String} (h : g ∉ fs) (m : List (String × β)) :
    (fs.foldl (fun m f => unset f m) m).lookup g = m.lookup g := by
  induction fs generalizing m with
  | nil => rfl
  | cons f fs ih =>
    rw [List.mem_cons, not_or] at h
    rw [List.foldl_cons, ih h.2, lookup_unset_ne h.1]

/-- Fields that are removed are not found any more. -/
theorem lookup_foldl_unset_mem {fs : List String} (h : g ∈ fs) (m : List (String × β)) :
    (fs.foldl (fun m f => unset f m) m).lookup g = none := by
  induction fs generalizing m with
  | nil => exact absurd h List.not_mem_nil
  | cons f fs ih =>
    rw [List.foldl_cons]
    by_cases hg : g ∈ fs
    · exact ih hg _
    · obtain rfl : g = f := (List.mem_cons.mp h).resolve_right hg
      rw [lookup_foldl_unset hg, lookup_unset_self]

/-- A member that was not in the set is found with its score once it has been inserted. -/
theorem lookup_insertMember_self (score : Int) :
    ∀ {z : List (String × Int)}, z.lookup f = none →
      (insertMember f score z).lookup f = some score := by
  intro z
  induction z with
  | nil => intro _; simp [insertMember]
  | cons p z ih =>
    obtain ⟨y, t⟩ := p
    intro h
    rw [insertMember]
    split
    · simp
    · rcases hy : f == y with - | -
      · rw [List.lookup_cons, hy] at h ⊢
        exact ih h
      · rw [List.lookup_cons, hy] at h
        cases h

/-- Inserting a member changes the score of no other one. -/
theorem lookup_insertMember_ne (score : Int) (h : g ≠ f) :
    ∀ {z : List (String × Int)}, (insertMember f score z).lookup g = z.lookup g := by
  have hg : (g == f) = false := by simpa using h
  intro z
  induction z with
  | nil => simp [insertMember, List.lookup_cons, hg]
  | cons p z ih =>
    obtain ⟨y, t⟩ := p
    rw [insertMember]
    split
    · rw [List.lookup_cons, hg]
    · rw [List.lookup_cons, List.lookup_cons, ih]

@[simp] theorem lookup_setField_self {f v : String} {m : List (String × String)} :
    (setField f v m).lookup f = some v := by
  simp [setField]

@[simp] theorem lookup_setField_ne {f g v : String} {m : List (String × String)} (h : g ≠ f) :
    (setField f v m).lookup g = m.lookup g := by
  have hg : (g == f) = false := by simpa using h
  rw [setField, List.lookup_cons, hg]
  exact lookup_unset_ne h

/-- Fields that are not written are found as before. -/
theorem lookup_foldl_setField {fvs : List (String × String)} (h : f ∉ fvs.map (·.1))
    (m : List (String × String)) :
    (fvs.foldl (fun m p => setField p.1 p.2 m) m).lookup f = m.lookup f := by
  induction fvs generalizing m with
  | nil => rfl
  | cons p fvs ih =>
    rw [List.map_cons, List.mem_cons, not_or] at h
    rw [List.foldl_cons, ih h.2, lookup_setField_ne h.1]

@[simp] theorem lookup_setScore_self {x : String} {score : Int} {z : List (String × Int)} :
    (setScore x score z).lookup x = some score :=
  lookup_insertMember_self score lookup_unset_self

@[simp] theorem lookup_setScore_ne {x y : String} {score : Int} {z : List (String × Int)}
    (h : y ≠ x) : (setScore x score z).lookup y = z.lookup y := by
  rw [setScore, lookup_insertMember_ne score h, lookup_unset_ne h]

end Assoc

/-! ## What a client can tell

The fields of a hash have no order, and the order of a sorted set is determined
by its scores. -/

/-- The stores are the same to every client: no command tells them apart. -/
structure Store.Same (s t : Store) : Prop where
  /-- the types -/
  kind : ∀ k, s.kind k = t.kind k
  /-- plain strings -/
  string : ∀ k text, s.get k = some (.string text) ↔ t.get k = some (.string text)
  /-- the fields of hashes -/
  hash : ∀ k f, (s.hash k).lookup f = (t.hash k).lookup f
  /-- lists -/
  list : ∀ k, s.list k = t.list k
  /-- the scores of members -/
  zset : ∀ k x, (s.zset k).lookup x = (t.zset k).lookup x

namespace Store

variable {s t u : Store} {k : Key}

theorem Same.refl (s : Store) : s.Same s :=
  ⟨fun _ => rfl, fun _ _ => Iff.rfl, fun _ _ => rfl, fun _ => rfl, fun _ _ => rfl⟩

theorem Same.trans (h : s.Same t) (h' : t.Same u) : s.Same u :=
  ⟨fun k => (h.kind k).trans (h'.kind k), fun k text => (h.string k text).trans (h'.string k text),
    fun k f => (h.hash k f).trans (h'.hash k f), fun k => (h.list k).trans (h'.list k),
    fun k x => (h.zset k x).trans (h'.zset k x)⟩

/-- Writing a value that reads as what is there already leaves the same store to every client. -/
theorem same_put {v : Value} (hv : v.Live) (hk : s.kind k = some v.kind) (hne : v.kind ≠ .string)
    (hhash : ∀ f, ((s.put k v).hash k).lookup f = (s.hash k).lookup f)
    (hlist : (s.put k v).list k = s.list k)
    (hzset : ∀ x, ((s.put k v).zset k).lookup x = (s.zset k).lookup x) : (s.put k v).Same s := by
  have hget : (s.put k v).get k = some v := by rw [get_put_self, if_pos hv]
  refine ⟨fun k' => ?_, fun k' text => ?_, fun k' f => ?_, fun k' => ?_, fun k' x => ?_⟩
  · by_cases h : k' = k
    · rw [h, hk, kind, hget]
      rfl
    · exact kind_put_ne v h
  · by_cases h : k' = k
    · subst h
      rw [hget]
      refine ⟨fun h => ?_, fun h => ?_⟩
      · rw [Option.some.inj h] at hne
        exact absurd rfl hne
      · rw [kind, h] at hk
        exact absurd (Option.some.inj hk).symm hne
    · rw [get_put_ne v h]
  · by_cases h : k' = k
    · rw [h, hhash]
    · rw [hash_put_ne v h]
  · by_cases h : k' = k
    · rw [h, hlist]
    · rw [list_put_ne v h]
  · by_cases h : k' = k
    · rw [h, hzset]
    · rw [zset_put_ne v h]

/-- Writing fields that are there already leaves the same store to every client, in whatever order
they are kept. -/
theorem same_put_hash {m : List (String × String)} (hk : s.kind k = some .hash) (hm : m ≠ [])
    (h : ∀ f, m.lookup f = (s.hash k).lookup f) : (s.put k (.hash m)).Same s := by
  have hfits : (s.put k (.hash m)).Fits k .hash := fits_put_self _
  refine same_put hm hk Kind.noConfusion (fun f => ?_) ?_ fun x => ?_
  · rw [hash_put_self, h]
  · rw [list_of_fits hfits (by decide), list_of_fits (.inr hk) (by decide)]
  · rw [zset_of_fits hfits (by decide), zset_of_fits (.inr hk) (by decide)]

/-- Writing scores that are there already leaves the same store to every client. -/
theorem same_put_zset {z : List (String × Int)} (hk : s.kind k = some .zset) (hz : z ≠ [])
    (h : ∀ x, z.lookup x = (s.zset k).lookup x) : (s.put k (.zset z)).Same s := by
  have hfits : (s.put k (.zset z)).Fits k .zset := fits_put_self _
  refine same_put hz hk Kind.noConfusion (fun f => ?_) ?_ fun x => ?_
  · rw [hash_of_fits hfits (by decide), hash_of_fits (.inr hk) (by decide)]
  · rw [list_of_fits hfits (by decide), list_of_fits (.inr hk) (by decide)]
  · rw [zset_put_self, h]

end Store

end Redis
