import Oxana.Redis.Script

/-!
# What a store may hold

Conditions on what is stored, wherever it is: on the fields of one hash, on the
items of all lists and on the members of all sorted sets (`Contents`). Most
commands only take away or move, and keep such conditions whatever they are;
the others keep them if what they write meets them. A script keeps what its
commands keep (`Script.Keeps`), also when an error ends it halfway.
-/

namespace Redis

/-- Conditions on what a store holds, each for one kind of value: on the fields of one hash, on the
items of lists and on the members of sorted sets. -/
structure Contents where
  /-- the key of a hash -/
  hash : Key
  /-- its fields with their values -/
  field : String → String → Prop
  /-- the items of lists -/
  item : String → Prop
  /-- the members of sorted sets -/
  member : String → Prop

/-- A field may be written with this value, and be named in lists and sorted sets. -/
def Contents.Accepts (C : Contents) (f v : String) : Prop := C.field f v ∧ C.item f ∧ C.member f

/-- A store meets the contents: its payloads, its lists and its sorted sets are as they say. -/
structure Contents.Hold (C : Contents) (s : Store) : Prop where
  /-- the fields -/
  field : ∀ f v, (s.hash C.hash).lookup f = some v → C.field f v
  /-- the items -/
  item : ∀ k, ∀ x ∈ s.list k, C.item x
  /-- the members -/
  member : ∀ k x score, (s.zset k).lookup x = some score → C.member x

namespace Contents.Hold

variable {C : Contents} {s : Store} {k k' : Key}

/-- A value may be written under a key if its fields, its items and its members are such as are
allowed. -/
theorem put (h : C.Hold s) {v : Value}
    (hfield : ∀ m, v = .hash m → k = C.hash → ∀ f t, m.lookup f = some t → C.field f t)
    (hitem : ∀ l, v = .list l → ∀ x ∈ l, C.item x)
    (hmember : ∀ z, v = .zset z → ∀ x score, z.lookup x = some score → C.member x) :
    C.Hold (s.put k v) := by
  have hself (k' : Key) (hk : k' = k) : (s.put k v).get k' = none ∨ (s.put k v).get k' = some v := by
    subst hk
    rw [Store.get_put_self]
    split
    · exact .inr rfl
    · exact .inl rfl
  refine ⟨fun f t hf => ?_, fun k' x hx => ?_, fun k' x score hx => ?_⟩
  · by_cases hk : C.hash = k
    · rcases hself _ hk with hnone | hsome
      · rw [Store.hash, hnone] at hf
        cases hf
      · rw [Store.hash, hsome] at hf
        cases v with
        | hash m => exact hfield m rfl hk.symm f t hf
        | string => cases hf
        | list => cases hf
        | zset => cases hf
    · rw [Store.hash_put_ne _ hk] at hf
      exact h.field f t hf
  · by_cases hk : k' = k
    · rcases hself _ hk with hnone | hsome
      · rw [Store.list, hnone] at hx
        cases hx
      · rw [Store.list, hsome] at hx
        cases v with
        | list l => exact hitem l rfl x hx
        | string => cases hx
        | hash => cases hx
        | zset => cases hx
    · rw [Store.list_put_ne _ hk] at hx
      exact h.item k' x hx
  · by_cases hk : k' = k
    · rcases hself _ hk with hnone | hsome
      · rw [Store.zset, hnone] at hx
        cases hx
      · rw [Store.zset, hsome] at hx
        cases v with
        | zset z => exact hmember z rfl x score hx
        | string => cases hx
        | hash => cases hx
        | list => cases hx
    · rw [Store.zset_put_ne _ hk] at hx
      exact h.member k' x score hx

/-- A hash may be written if its fields are allowed, or if it is not the hash that the conditions
are about. -/
theorem put_hash (h : C.Hold s) {m : List (String × String)}
    (hm : k = C.hash → ∀ f v, m.lookup f = some v → C.field f v) : C.Hold (s.put k (.hash m)) := by
  refine h.put ?_ (fun l hl => nomatch hl) fun z hz => nomatch hz
  rintro m' ⟨⟩
  exact hm

/-- A list may be written if all of its items are allowed. -/
theorem put_list (h : C.Hold s) {l : List String} (hl : ∀ x ∈ l, C.item x) :
    C.Hold (s.put k (.list l)) := by
  refine h.put (fun m hm => nomatch hm) ?_ fun z hz => nomatch hz
  rintro l' ⟨⟩
  exact hl

/-- A sorted set may be written if all of its members are allowed. -/
theorem put_zset (h : C.Hold s) {z : List (String × Int)}
    (hz : ∀ x score, z.lookup x = some score → C.member x) : C.Hold (s.put k (.zset z)) := by
  refine h.put (fun m hm => nomatch hm) (fun l hl => nomatch hl) ?_
  rintro z' ⟨⟩
  exact hz

/-- A key may be dropped. -/
theorem drop (h : C.Hold s) : C.Hold (s.drop k) := by
  rw [Store.drop_eq_put]
  exact h.put_list fun x hx => absurd hx List.not_mem_nil

/-- What is under one key may be written under another one, except under the key of the hash. -/
theorem copy (h : C.Hold s) {v : Value} {t : Store} (ht : C.Hold t) (hv : s.get k = some v)
    (hk : k' ≠ C.hash) : C.Hold (t.put k' v) := by
  refine ht.put (fun m _ hk' => absurd hk' hk) ?_ ?_
  · rintro l rfl x hx
    refine h.item k x ?_
    rw [Store.list, hv]
    exact hx
  · rintro z rfl x score hx
    refine h.member k x score ?_
    rw [Store.zset, hv]
    exact hx

/-- Fields may be taken away from any hash. -/
theorem unset_fields (h : C.Hold s) (fs : List String) :
    C.Hold (s.put k (.hash (fs.foldl (fun m f => unset f m) (s.hash k)))) := by
  refine h.put_hash ?_
  rintro rfl f v hf
  by_cases hmem : f ∈ fs
  · rw [lookup_foldl_unset_mem hmem] at hf
    cases hf
  · rw [lookup_foldl_unset hmem] at hf
    exact h.field f v hf

/-- Fields may be written to a hash if they are allowed, or if it is not the hash that the
conditions are about. -/
theorem set_fields (h : C.Hold s) {fvs : List (String × String)}
    (hfvs : k = C.hash → ∀ p ∈ fvs, C.field p.1 p.2) :
    C.Hold (s.put k (.hash (fvs.foldl (fun m p => setField p.1 p.2 m) (s.hash k)))) := by
  refine h.put_hash ?_
  rintro rfl
  suffices hall : ∀ (fvs : List (String × String)) (m : List (String × String)),
      (∀ p ∈ fvs, C.field p.1 p.2) → (∀ f v, m.lookup f = some v → C.field f v) →
      ∀ f v, (fvs.foldl (fun m p => setField p.1 p.2 m) m).lookup f = some v → C.field f v from
    hall fvs _ (hfvs rfl) h.field
  intro fvs
  induction fvs with
  | nil => exact fun m _ hm => hm
  | cons p fvs ih =>
    intro m hps hm
    refine ih _ (fun q hq => hps q (List.mem_cons_of_mem p hq)) fun f v hf => ?_
    by_cases hp : f = p.1
    · subst hp
      rw [lookup_setField_self] at hf
      cases hf
      exact hps p List.mem_cons_self
    · rw [lookup_setField_ne hp] at hf
      exact hm f v hf

end Contents.Hold

/-! ## Scripts -/

/-- A script keeps a condition, however it ends; what it returns satisfies `Q`. -/
def Script.Keeps {α : Type} (I : Store → Prop) (x : Script α) (Q : α → Prop) : Prop :=
  ∀ s, I s → I (x s).2 ∧ ∀ a, (x s).1 = .ok a → Q a

namespace Script.Keeps

variable {α β : Type} {I : Store → Prop} {Q : α → Prop} {R : β → Prop}

theorem pure {a : α} (h : Q a) : Keeps I (Pure.pure a : Script α) Q := by
  refine fun s hs => ⟨hs, ?_⟩
  rintro b ⟨⟩
  exact h

theorem fail (e : Err) : Keeps I (Script.fail e : Script α) Q :=
  fun _ hs => ⟨hs, fun _ ha => nomatch ha⟩

theorem bind {x : Script α} {f : α → Script β} (hx : Keeps I x Q)
    (hf : ∀ a, Q a → Keeps I (f a) R) : Keeps I (x >>= f) R := by
  intro s hs
  obtain ⟨hkept, hQ⟩ := hx s hs
  rw [bind_apply]
  generalize x s = p at hkept hQ
  obtain ⟨r, s'⟩ := p
  cases r with
  | ok a => exact hf a (hQ a rfl) s' hkept
  | error e => exact ⟨hkept, fun _ ha => nomatch ha⟩

theorem forEach {ι : Type} {xs : List ι} {f : ι → Script Unit}
    (h : ∀ x ∈ xs, Keeps I (f x) fun _ => True) :
    Keeps I (Script.forEach xs f) fun _ => True := by
  induction xs with
  | nil => exact .pure trivial
  | cons x xs ih =>
    exact (h x List.mem_cons_self).bind fun _ _ => ih fun y hy => h y (List.mem_cons_of_mem x hy)

/-- A script that only reads keeps everything, and returns what is known of the stores in which it
holds. -/
theorem read {x : Script α} (h : ∀ s, (x s).2 = s)
    (hQ : ∀ s a, I s → (x s).1 = .ok a → Q a) : Keeps I x Q := by
  refine fun s hs => ⟨?_, fun a => hQ s a hs⟩
  rw [h]
  exact hs

theorem onKind {kd : Kind} {k : Key} {f : Store → Unit × Store} (h : ∀ s, I s → I (f s).2) :
    Keeps I (Redis.onKind kd k f) fun _ => True := by
  refine fun s hs => ⟨?_, fun _ _ => trivial⟩
  rw [Redis.onKind]
  split
  · exact h s hs
  · exact hs

variable {C : Contents} {k : Key}

/-- A field that is read from the hash was allowed. -/
theorem hget (f : String) :
    Keeps C.Hold (Redis.hget k f) fun v => k = C.hash → ∀ t, v = some t → C.field f t := by
  refine .read (fun s => hget_snd ..) fun s v hs hv hk t ht => ?_
  obtain ⟨-, rfl⟩ := onKind_inv hv
  subst hk
  exact hs.field f t ht

theorem hset {f v : String} (h : k = C.hash → C.field f v) :
    Keeps C.Hold (Redis.hset k f v) fun _ => True := by
  have hfield : k = C.hash → ∀ p ∈ [(f, v)], C.field p.1 p.2 := by
    intro hk p hp
    rw [List.mem_singleton.mp hp]
    exact h hk
  exact .onKind fun _ hs => hs.set_fields hfield

theorem hsetMultiple {fvs : List (String × String)} (h : k = C.hash → ∀ p ∈ fvs, C.field p.1 p.2) :
    Keeps C.Hold (Redis.hsetMultiple k fvs) fun _ => True := .onKind fun _ hs => hs.set_fields h

theorem hdel (fs : List String) : Keeps C.Hold (Redis.hdel k fs) fun _ => True :=
  .onKind fun _ hs => hs.unset_fields fs

theorem lpush {x : String} (h : C.item x) : Keeps C.Hold (Redis.lpush k x) fun _ => True := by
  refine .onKind fun s hs => hs.put_list fun y hy => ?_
  rcases List.mem_cons.mp hy with rfl | hy
  · exact h
  · exact hs.item k y hy

theorem lremFirst (x : String) : Keeps C.Hold (Redis.lremFirst k x) fun _ => True :=
  .onKind fun _ hs => hs.put_list fun y hy => hs.item k y (List.mem_of_mem_erase hy)

theorem lremAll (x : String) : Keeps C.Hold (Redis.lremAll k x) fun _ => True :=
  .onKind fun _ hs => hs.put_list fun y hy => hs.item k y (List.mem_filter.mp hy).1

theorem ltrim (n : Nat) : Keeps C.Hold (Redis.ltrim k n) fun _ => True :=
  .onKind fun _ hs => hs.put_list fun y hy => hs.item k y (List.mem_of_mem_take hy)

/-- The items that are read from a list were allowed. -/
theorem lrange : Keeps C.Hold (Redis.lrange k) fun xs => ∀ x ∈ xs, C.item x := by
  refine .read (fun s => lrange_snd ..) fun s xs hs hxs x hx => ?_
  obtain ⟨-, rfl⟩ := onKind_inv hxs
  exact hs.item k x hx

/-- What is found in a list is one of its items, so it was allowed. -/
theorem lpos (x : String) : Keeps C.Hold (Redis.lpos k x) fun found => found = true → C.item x := by
  refine .read (fun s => onKind_read ..) fun s found hs hfound h => ?_
  obtain ⟨-, rfl⟩ := onKind_inv hfound
  exact hs.item k x (List.contains_iff_mem.mp h)

theorem zadd {x : String} {score : Int} (h : C.member x) :
    Keeps C.Hold (Redis.zadd k score x) fun _ => True := by
  refine .onKind fun s hs => hs.put_zset fun y t hy => ?_
  by_cases hyx : y = x
  · exact hyx ▸ h
  · rw [lookup_setScore_ne hyx] at hy
    exact hs.member k y t hy

theorem zrem (x : String) : Keeps C.Hold (Redis.zrem k x) fun _ => True := by
  refine .onKind fun s hs => hs.put_zset fun y t hy => ?_
  by_cases hyx : y = x
  · subst hyx
    rw [lookup_unset_self] at hy
    cases hy
  · rw [lookup_unset_ne hyx] at hy
    exact hs.member k y t hy

/-- What has a score in a sorted set is a member of it, so it was allowed. -/
theorem zscore (x : String) :
    Keeps C.Hold (Redis.zscore k x) fun score => score ≠ none → C.member x := by
  refine .read (fun s => onKind_read ..) fun s score hs hscore h => ?_
  obtain ⟨-, rfl⟩ := onKind_inv hscore
  obtain ⟨t, ht⟩ := Option.ne_none_iff_exists'.mp h
  exact hs.member k x t ht

theorem del : Keeps C.Hold (Redis.del k) fun _ => True := fun _ hs => ⟨hs.drop, fun _ _ => trivial⟩

/-- The item that `LMOVE` moves was an item of a list before, so it was allowed. -/
theorem lmove (src dst : Key) :
    Keeps C.Hold (Redis.lmove src dst) fun moved => ∀ x, moved = some x → C.item x := by
  intro s hs
  rcases lmove_cases src dst s with ⟨h, hnone⟩ | ⟨x, hx, h⟩
  · refine ⟨?_, fun moved hmoved x hx => absurd (hx ▸ hmoved) (hnone x)⟩
    rw [h]
    exact hs
  · have hitem : C.item x := hs.item src x (List.mem_of_getLast? hx)
    have hmoved : C.Hold (s.put src (.list (s.list src).dropLast)) :=
      hs.put_list fun y hy => hs.item src y (List.dropLast_subset _ hy)
    rw [h]
    refine ⟨hmoved.put_list fun y hy => ?_, ?_⟩
    · rcases List.mem_cons.mp hy with rfl | hy
      · exact hitem
      · exact hmoved.item dst y hy
    · rintro moved ⟨⟩ y ⟨⟩
      exact hitem

end Script.Keeps

end Redis
