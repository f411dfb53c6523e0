import Oxana.Redis.Script

/-!
# Scripts that leave some keys alone

`Script.Ignores B x` says that the script `x` neither reads nor writes a key in `B`: in two stores that
agree on all other keys it ends in the same way and leaves two stores that agree on them again, and
what the keys in `B` hold stays as it is. There is a rule for each way to build a script, and one for
each command that the development needs it for.
-/

namespace Redis

/-- The two stores hold the same under every key that is not in `B`. -/
def Store.AgreeOff (B : Set Key) (s t : Store) : Prop := ∀ k, k ∉ B → s.get k = t.get k

/-- The same write keeps two stores in agreement, off `B` too. -/
theorem Store.AgreeOff.put {B : Set Key} {s t : Store} (h : s.AgreeOff B t) (k : Key) (v : Value) :
    (s.put k v).AgreeOff B (t.put k v) := by
  intro k' hk'
  by_cases hkk : k' = k
  · rw [hkk, Store.get_put_self, Store.get_put_self]
  · rw [Store.get_put_ne _ hkk, Store.get_put_ne _ hkk, h k' hk']

/-- Whether a command accepts a key that is not in `B` depends on nothing that is in `B`. -/
theorem Store.AgreeOff.fits {B : Set Key} {s t : Store} (h : s.AgreeOff B t) {k : Key}
    (hk : k ∉ B) (kd : Kind) : s.Fits k kd ↔ t.Fits k kd := by
  rw [Store.Fits, Store.kind, h k hk, Store.Fits, Store.kind]

namespace Script

variable {α β ι : Type} {B : Set Key}

/-- The script has nothing to do with the keys in `B`: it does the same whatever is in them, and
leaves them as they are. -/
structure Ignores (B : Set Key) (x : Script α) : Prop where
  /-- How it ends does not depend on what they hold. -/
  result : ∀ s t, s.AgreeOff B t → (x s).1 = (x t).1
  /-- What it writes elsewhere does not depend on it either. -/
  agree : ∀ s t, s.AgreeOff B t → (x s).2.AgreeOff B (x t).2
  /-- It writes none of them. -/
  leaves : ∀ s, ∀ k ∈ B, (x s).2.get k = s.get k

theorem Ignores.pure (a : α) : Ignores B (pure a : Script α) :=
  ⟨fun _ _ _ => rfl, fun _ _ h => h, fun _ _ _ => rfl⟩

theorem Ignores.fail (e : Err) : Ignores B (fail e : Script α) :=
  ⟨fun _ _ _ => rfl, fun _ _ h => h, fun _ _ _ => rfl⟩

/-- A sequence ignores the keys that both of its parts ignore. -/
theorem Ignores.bind {x : Script α} {f : α → Script β} (hx : Ignores B x) (hf : ∀ a, Ignores B (f a)) :
    Ignores B (x >>= f) := by
  have hboth (s t : Store) (h : s.AgreeOff B t) :
      ((x >>= f) s).1 = ((x >>= f) t).1 ∧ ((x >>= f) s).2.AgreeOff B ((x >>= f) t).2 := by
    have hresult := hx.result s t h
    have hagree := hx.agree s t h
    rw [bind_apply, bind_apply]
    generalize x s = r at hresult hagree ⊢
    generalize x t = r' at hresult hagree ⊢
    obtain ⟨a, s'⟩ := r
    obtain ⟨a', t'⟩ := r'
    obtain rfl : a = a' := hresult
    cases a with
    | ok a => exact ⟨(hf a).result s' t' hagree, (hf a).agree s' t' hagree⟩
    | error e => exact ⟨rfl, hagree⟩
  refine ⟨fun s t h => (hboth s t h).1, fun s t h => (hboth s t h).2, fun s k hk => ?_⟩
  have hleaves := hx.leaves s k hk
  rw [bind_apply]
  generalize x s = r at hleaves ⊢
  obtain ⟨a, s'⟩ := r
  cases a with
  | ok a => exact ((hf a).leaves s' k hk).trans hleaves
  | error e => exact hleaves

theorem Ignores.forEach {xs : List ι} {f : ι → Script Unit} (h : ∀ x ∈ xs, Ignores B (f x)) :
    Ignores B (forEach xs f) := by
  induction xs with
  | nil => exact .pure ()
  | cons x xs ih =>
    exact (h x List.mem_cons_self).bind fun _ => ih fun y hy => h y (List.mem_cons_of_mem x hy)

theorem Ignores.type {k : Key} (hk : k ∉ B) : Ignores B (type k) :=
  ⟨fun s t h => by rw [Redis.type, Redis.type, Store.kind, h k hk, Store.kind], fun _ _ h => h,
    fun _ _ _ => rfl⟩

/-- A command that looks at one key, and writes this key or nothing, ignores all sets of keys in
which it is not. -/
theorem Ignores.onKind {kd : Kind} {k : Key} {f : Store → α × Store} (hk : k ∉ B)
    (hf : ∀ s t, s.get k = t.get k → (f s).1 = (f t).1 ∧
      ((f s).2 = s ∧ (f t).2 = t ∨ ∃ v, (f s).2 = s.put k v ∧ (f t).2 = t.put k v)) :
    Ignores B (onKind kd k f) := by
  refine ⟨fun s t h => ?_, fun s t h => ?_, fun s k' hk' => ?_⟩
  · obtain ⟨hresult, -⟩ := hf s t (h k hk)
    simp only [Redis.onKind, h.fits hk kd, hresult]
    split <;> rfl
  · obtain ⟨-, hstores⟩ := hf s t (h k hk)
    simp only [Redis.onKind, h.fits hk kd]
    split
    · rcases hstores with ⟨hs, ht⟩ | ⟨v, hs, ht⟩
      · rwa [hs, ht]
      · rw [hs, ht]
        exact h.put k v
    · exact h
  · obtain ⟨-, hstores⟩ := hf s s rfl
    have hne : k' ≠ k := fun he => hk (he ▸ hk')
    simp only [Redis.onKind]
    split
    · rcases hstores with ⟨hs, -⟩ | ⟨v, hs, -⟩
      · rw [hs]
      · rw [hs, Store.get_put_ne _ hne]
    · rfl

section Commands

variable {k : Key}

theorem Ignores.hget (hk : k ∉ B) (field : String) : Ignores B (hget k field) :=
  .onKind hk fun _ _ h => ⟨by rw [Store.hash_congr h], .inl ⟨rfl, rfl⟩⟩

theorem Ignores.hset (hk : k ∉ B) (field value : String) : Ignores B (hset k field value) :=
  .onKind hk fun _ _ h => ⟨rfl, .inr ⟨_, rfl, by rw [Store.hash_congr h]⟩⟩

theorem Ignores.hdel (hk : k ∉ B) (fields : List String) : Ignores B (hdel k fields) :=
  .onKind hk fun _ _ h => ⟨rfl, .inr ⟨_, rfl, by rw [Store.hash_congr h]⟩⟩

theorem Ignores.lpush (hk : k ∉ B) (x : String) : Ignores B (lpush k x) :=
  .onKind hk fun _ _ h => ⟨rfl, .inr ⟨_, rfl, by rw [Store.list_congr h]⟩⟩

theorem Ignores.lremFirst (hk : k ∉ B) (x : String) : Ignores B (lremFirst k x) :=
  .onKind hk fun _ _ h => ⟨rfl, .inr ⟨_, rfl, by rw [Store.list_congr h]⟩⟩

theorem Ignores.ltrim (hk : k ∉ B) (n : Nat) : Ignores B (ltrim k n) :=
  .onKind hk fun _ _ h => ⟨rfl, .inr ⟨_, rfl, by rw [Store.list_congr h]⟩⟩

/-- A move between two lists ignores all sets of keys in which neither of them is. -/
theorem Ignores.lmove {src dst : Key} (hsrc : src ∉ B) (hdst : dst ∉ B) :
    Ignores B (lmove src dst) := by
  have hboth (s t : Store) (h : s.AgreeOff B t) :
      (Redis.lmove src dst s).1 = (Redis.lmove src dst t).1 ∧
        (Redis.lmove src dst s).2.AgreeOff B (Redis.lmove src dst t).2 := by
    simp only [Redis.lmove, h.fits hsrc, h.fits hdst, Store.list_congr (h src hsrc)]
    split
    · cases (t.list src).getLast? with
      | none => exact ⟨rfl, h⟩
      | some x =>
        dsimp only
        split
        · have hput := h.put src (.list (t.list src).dropLast)
          rw [Store.list_congr (hput dst hdst)]
          exact ⟨rfl, hput.put dst _⟩
        · exact ⟨rfl, h⟩
    · exact ⟨rfl, h⟩
  refine ⟨fun s t h => (hboth s t h).1, fun s t h => (hboth s t h).2, fun s k hk => ?_⟩
  have hne₁ : k ≠ src := fun he => hsrc (he ▸ hk)
  have hne₂ : k ≠ dst := fun he => hdst (he ▸ hk)
  rcases lmove_cases src dst s with ⟨hsame, -⟩ | ⟨x, -, hmoved⟩
  · rw [hsame]
  · rw [hmoved, Store.get_put_ne _ hne₂, Store.get_put_ne _ hne₁]

end Commands

end Script

end Redis
