import Oxana.Redis.Contents
import Mathlib.Data.Set.Basic

/-!
# The commands a script issues

Every script is a sequence of commands that write, with reads in between. `Script.Issues A x` says
that whatever the script `x` meets, what it does to the store is done by commands in `A`, one after
the other. What each of these commands keeps, the script keeps.

Two things are known of commands whatever they are: a command changes no key but its own
(`Command.run_get`), and unless it appends to a list, it puts the items it pushes in front of the
list and takes away the items it takes, while the others keep their order (`Command.run_ordered`).
-/

namespace Redis

/-! ## Commands -/

/-- The commands of the server that write, each with its keys and arguments. -/
inductive Command where
  | hset (k : Key) (fvs : List (String × String))
  | hdel (k : Key) (fs : List String)
  | zadd (k : Key) (score : Int) (x : String)
  | zrem (k : Key) (x : String)
  | lpush (k : Key) (x : String)
  | rpush (k : Key) (xs : List String)
  | lremFirst (k : Key) (x : String)
  | lremAll (k : Key) (x : String)
  | ltrim (k : Key) (n : Nat)
  | lmove (src dst : Key)
  | del (k : Key)
  | rename (src dst : Key)

namespace Command

/-- What a command does to the store when its key is of the right type. -/
def run : Command → Store → Store
  | hset k fvs, s => (hsetMultiple k fvs s).2
  | hdel k fs, s => (Redis.hdel k fs s).2
  | zadd k score x, s => (Redis.zadd k score x s).2
  | zrem k x, s => (Redis.zrem k x s).2
  | lpush k x, s => (Redis.lpush k x s).2
  | rpush k xs, s => (onKind .list k (fun s => ((), s.put k (.list (s.list k ++ xs)))) s).2
  | lremFirst k x, s => (Redis.lremFirst k x s).2
  | lremAll k x, s => (Redis.lremAll k x s).2
  | ltrim k n, s => (Redis.ltrim k n s).2
  | lmove src dst, s => (Redis.lmove src dst s).2
  | del k, s => (Redis.del k s).2
  | rename src dst, s => match s.get src with
    | none => s
    | some v => (s.drop src).put dst v

/-- The keys that a command may change. -/
def keys : Command → List Key
  | hset k _ | hdel k _ | zadd k _ _ | zrem k _ | lpush k _ | rpush k _ | lremFirst k _
  | lremAll k _ | ltrim k _ | del k => [k]
  | lmove src dst | rename src dst => [src, dst]

/-- The keys at the tail of which it may put something. -/
def tails : Command → List Key
  | rpush k _ => [k]
  | rename _ dst => [dst]
  | _ => []

/-- The items that it puts at the head of the list `k`, in the store `s`. -/
def pushes (k : Key) (s : Store) : Command → Set String
  | lpush k' x => {y | k = k' ∧ y = x}
  | lmove src dst => {y | k = dst ∧ (s.list src).getLast? = some y}
  | _ => ∅

/-- The items that it may take away from the list `k`, in the store `s`. -/
def takes (k : Key) (s : Store) : Command → Set String
  | lremFirst k' x | lremAll k' x => {y | k = k' ∧ y = x}
  | lmove src _ => {y | k = src ∧ (s.list src).getLast? = some y}
  | ltrim k' _ | del k' | rename k' _ => {_y | k = k'}
  | _ => ∅

end Command

/-- Commands that are executed one after the other. -/
def runAll (cs : List Command) (s : Store) : Store := cs.foldl (fun s c => c.run s) s

theorem runAll_append (cs cs' : List Command) (s : Store) :
    runAll (cs ++ cs') s = runAll cs' (runAll cs s) := List.foldl_append

/-- What each command keeps, all of them keep. -/
theorem runAll_keeps {I : Store → Prop} {cs : List Command}
    (h : ∀ c ∈ cs, ∀ s, I s → I (c.run s)) {s : Store} (hs : I s) : I (runAll cs s) := by
  induction cs generalizing s with
  | nil => exact hs
  | cons c cs ih =>
    exact ih (fun c' hc' => h c' (List.mem_cons_of_mem c hc')) (h c List.mem_cons_self s hs)

section Command

variable {s : Store} {k k' : Key}

/-- A write to one key. -/
theorem onKind_put_cases {α : Type} (kd : Kind) {f : Store → α × Store} {v : Store → Value}
    (hf : ∀ s, (f s).2 = s.put k (v s)) (s : Store) :
    (onKind kd k f s).2 = s ∨ s.Fits k kd ∧ (onKind kd k f s).2 = s.put k (v s) := by
  rw [onKind]
  split
  · next h => exact .inr ⟨h, hf s⟩
  · exact .inl rfl

theorem onKind_put_get {α : Type} {kd : Kind} {f : Store → α × Store} {v : Store → Value}
    (hf : ∀ s, (f s).2 = s.put k (v s)) (s : Store) (hk : k' ≠ k) :
    (onKind kd k f s).2.get k' = s.get k' := by
  rcases onKind_put_cases kd hf s with h | ⟨-, h⟩
  · rw [h]
  · rw [h, Store.get_put_ne _ hk]

/-- **A command changes no key but its own.** -/
theorem Command.run_get {c : Command} (hk : k ∉ c.keys) : (c.run s).get k = s.get k := by
  cases c with
  | hset k' fvs => exact onKind_put_get (fun _ => rfl) s (by simpa [keys] using hk)
  | hdel k' fs => exact onKind_put_get (fun _ => rfl) s (by simpa [keys] using hk)
  | zadd k' score x => exact onKind_put_get (fun _ => rfl) s (by simpa [keys] using hk)
  | zrem k' x => exact onKind_put_get (fun _ => rfl) s (by simpa [keys] using hk)
  | lpush k' x => exact onKind_put_get (fun _ => rfl) s (by simpa [keys] using hk)
  | rpush k' xs => exact onKind_put_get (fun _ => rfl) s (by simpa [keys] using hk)
  | lremFirst k' x => exact onKind_put_get (fun _ => rfl) s (by simpa [keys] using hk)
  | lremAll k' x => exact onKind_put_get (fun _ => rfl) s (by simpa [keys] using hk)
  | ltrim k' n => exact onKind_put_get (fun _ => rfl) s (by simpa [keys] using hk)
  | lmove src dst =>
    obtain ⟨hsrc, hdst⟩ : k ≠ src ∧ k ≠ dst := by simpa [keys] using hk
    rcases lmove_cases src dst s with ⟨h, -⟩ | ⟨x, -, h⟩
    · rw [run, h]
    · rw [run, h, Store.get_put_ne _ hdst, Store.get_put_ne _ hsrc]
  | del k' =>
    have hne : k ≠ k' := by simpa [keys] using hk
    rw [run, Redis.del, Store.drop_eq_put, Store.get_put_ne _ hne]
  | rename src dst =>
    obtain ⟨hsrc, hdst⟩ : k ≠ src ∧ k ≠ dst := by simpa [keys] using hk
    rw [run]
    split
    · rfl
    · rw [Store.get_put_ne _ hdst, Store.drop_eq_put, Store.get_put_ne _ hsrc]

end Command

/-! ## Lists that are filled at the head -/

section Ordered

variable {α : Type} [DecidableEq α]

/-- What becomes of a list that is filled at its head: items in `P` have been put in front of it, and
of what was there only items in `R` have been taken away. The others are all there, in their
order. -/
def Ordered (P R : Set α) (l l' : List α) : Prop :=
  ∃ new old, l' = new ++ old ∧ old.Sublist l ∧ (∀ x ∈ new, x ∈ P) ∧
    ∀ x, x ∉ R → old.count x = l.count x

namespace Ordered

variable {P P' R R' : Set α} {l l' l'' : List α}

theorem refl (l : List α) : Ordered P R l l :=
  ⟨[], l, rfl, .refl l, fun _ hx => absurd hx List.not_mem_nil, fun _ _ => rfl⟩

theorem mono (h : Ordered P R l l') (hP : P ⊆ P') (hR : R ⊆ R') : Ordered P' R' l l' := by
  obtain ⟨new, old, heq, hold, hnew, hkept⟩ := h
  exact ⟨new, old, heq, hold, fun x hx => hP (hnew x hx), fun x hx => hkept x fun h => hx (hR h)⟩

theorem trans (h : Ordered P R l l') (h' : Ordered P R l' l'') : Ordered P R l l'' := by
  obtain ⟨new, old, rfl, hold, hnew, hkept⟩ := h
  obtain ⟨new', old', rfl, hold', hnew', hkept'⟩ := h'
  obtain ⟨new₁, old₁, rfl, hnew₁, hold₁⟩ := List.sublist_append_iff.mp hold'
  refine ⟨new' ++ new₁, old₁, (List.append_assoc ..).symm, hold₁.trans hold, fun x hx => ?_,
    fun x hx => ?_⟩
  · exact (List.mem_append.mp hx).elim (hnew' x) fun h => hnew x (hnew₁.subset h)
  · -- nothing of `x` is lost in both parts together, so nothing is lost in either
    have hboth := hkept' x hx
    have h₁ := hnew₁.count_le x
    have h₂ := hold₁.count_le x
    rw [List.count_append, List.count_append] at hboth
    rw [← hkept x hx]
    omega

/-- If nothing may be put in front, what is there is what is left. -/
theorem sublist (h : Ordered ∅ R l l') :
    l'.Sublist l ∧ ∀ x, x ∉ R → l'.count x = l.count x := by
  obtain ⟨new, old, rfl, hold, hnew, hkept⟩ := h
  obtain rfl : new = [] := List.eq_nil_iff_forall_not_mem.mpr hnew
  exact ⟨hold, hkept⟩

/-- If nothing may be taken away, the list is behind what is new. -/
theorem suffix (h : Ordered P ∅ l l') : ∃ new, l' = new ++ l ∧ ∀ x ∈ new, x ∈ P := by
  obtain ⟨new, old, rfl, hold, hnew, hkept⟩ := h
  have hperm : old.Perm l := List.perm_iff_count.mpr fun x => hkept x (Set.notMem_empty x)
  exact ⟨new, by rw [hold.eq_of_length hperm.length_eq], hnew⟩

end Ordered

end Ordered

/-- Whatever it meets, the script issues commands in `A` only; what it returns satisfies `Q`. -/
def Script.Issues {α : Type} (A : Command → Prop) (x : Script α) (Q : α → Prop) : Prop :=
  ∀ s, (∃ cs : List Command, (∀ c ∈ cs, A c) ∧ (x s).2 = runAll cs s) ∧ ∀ a, (x s).1 = .ok a → Q a

namespace Script.Issues

variable {α β : Type} {A : Command → Prop} {Q : α → Prop} {R : β → Prop}

theorem pure {a : α} (h : Q a) : Issues A (Pure.pure a : Script α) Q := by
  refine fun s => ⟨⟨[], fun _ hc => absurd hc List.not_mem_nil, rfl⟩, ?_⟩
  rintro b ⟨⟩
  exact h

theorem fail (e : Err) : Issues A (Script.fail e : Script α) Q :=
  fun _ => ⟨⟨[], fun _ hc => absurd hc List.not_mem_nil, rfl⟩, fun _ ha => by cases ha⟩

theorem bind {x : Script α} {f : α → Script β} (hx : Issues A x Q)
    (hf : ∀ a, Q a → Issues A (f a) R) : Issues A (x >>= f) R := by
  intro s
  obtain ⟨⟨cs, hcs, hs⟩, hQ⟩ := hx s
  rw [bind_apply]
  generalize x s = p at hs hQ
  obtain ⟨r, s'⟩ := p
  cases r with
  | error e => exact ⟨⟨cs, hcs, hs⟩, fun _ ha => by cases ha⟩
  | ok a =>
    obtain ⟨⟨cs', hcs', hs'⟩, hR⟩ := hf a (hQ a rfl) s'
    replace hs : s' = runAll cs s := hs
    refine ⟨⟨cs ++ cs', fun c hc => ?_, ?_⟩, hR⟩
    · exact (List.mem_append.mp hc).elim (hcs c) (hcs' c)
    · rw [runAll_append, ← hs, hs']

theorem mono {x : Script α} {Q' : α → Prop} (hx : Issues A x Q) (h : ∀ a, Q a → Q' a) :
    Issues A x Q' := fun s => ⟨(hx s).1, fun a ha => h a ((hx s).2 a ha)⟩

theorem forEach {ι : Type} {xs : List ι} {f : ι → Script Unit}
    (h : ∀ x ∈ xs, Issues A (f x) fun _ => True) :
    Issues A (Script.forEach xs f) fun _ => True := by
  induction xs with
  | nil => exact .pure trivial
  | cons x xs ih =>
    exact (h x List.mem_cons_self).bind fun _ _ => ih fun y hy => h y (List.mem_cons_of_mem x hy)

/-- It only reads. -/
theorem read {x : Script α} (h : ∀ s, (x s).2 = s) (hQ : ∀ s a, (x s).1 = .ok a → Q a) :
    Issues A x Q :=
  fun s => ⟨⟨[], fun _ hc => absurd hc List.not_mem_nil, h s⟩, hQ s⟩

/-- A single command. -/
theorem command {x : Script α} (c : Command) (hc : A c) (h : ∀ s, (x s).2 = c.run s) :
    Issues A x fun _ => True := by
  refine fun s => ⟨⟨[c], fun c' hc' => ?_, h s⟩, fun _ _ => trivial⟩
  rw [List.mem_singleton.mp hc']
  exact hc

/-- What the commands keep, the script keeps. -/
theorem keeps {x : Script α} {I : Store → Prop} (hx : Issues A x Q)
    (hA : ∀ c, A c → ∀ s, I s → I (c.run s)) : Keeps I x Q := by
  intro s hs
  obtain ⟨⟨cs, hcs, heq⟩, hQ⟩ := hx s
  refine ⟨?_, hQ⟩
  rw [heq]
  exact runAll_keeps (fun c hc => hA c (hcs c hc)) hs

variable {k : Key}

theorem hset {f v : String} (h : A (.hset k [(f, v)])) : Issues A (Redis.hset k f v) fun _ => True :=
  .command _ h fun _ => rfl

theorem hsetMultiple {fvs : List (String × String)} (h : A (.hset k fvs)) :
    Issues A (Redis.hsetMultiple k fvs) fun _ => True := .command _ h fun _ => rfl

theorem hdel {fs : List String} (h : A (.hdel k fs)) : Issues A (Redis.hdel k fs) fun _ => True :=
  .command _ h fun _ => rfl

theorem zadd {score : Int} {x : String} (h : A (.zadd k score x)) :
    Issues A (Redis.zadd k score x) fun _ => True := .command _ h fun _ => rfl

theorem zrem {x : String} (h : A (.zrem k x)) : Issues A (Redis.zrem k x) fun _ => True :=
  .command _ h fun _ => rfl

theorem lpush {x : String} (h : A (.lpush k x)) : Issues A (Redis.lpush k x) fun _ => True :=
  .command _ h fun _ => rfl

theorem lremFirst {x : String} (h : A (.lremFirst k x)) :
    Issues A (Redis.lremFirst k x) fun _ => True := .command _ h fun _ => rfl

theorem lremAll {x : String} (h : A (.lremAll k x)) :
    Issues A (Redis.lremAll k x) fun _ => True := .command _ h fun _ => rfl

theorem ltrim {n : Nat} (h : A (.ltrim k n)) : Issues A (Redis.ltrim k n) fun _ => True :=
  .command _ h fun _ => rfl

theorem lmove {src dst : Key} (h : A (.lmove src dst)) :
    Issues A (Redis.lmove src dst) fun _ => True := .command _ h fun _ => rfl

theorem del (h : A (.del k)) : Issues A (Redis.del k) fun _ => True := .command _ h fun _ => rfl

end Script.Issues

end Redis
