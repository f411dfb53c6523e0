import Oxana.Redis.Store

/-!
# Commands and scripts

A `Script` is a computation the server runs atomically: a single command sent
by a client, or a whole server-side script. It reads and writes the store and
ends with a value or an error. **An error does not roll anything back**: the
store returned beside it holds every write made before it. That is the one
fact about the server that the design of a multi-command script has to work
around, so the type records it — `Except` sits inside the state, not around
it.

Two kinds of errors are kept apart. `Err.wrongType` is raised by a command
whose key holds another kind of value; `Err.reply` is an error reply the
script itself decides to return.

The sections at the end have the rules by which scripts are shown to behave:
`Script.Total P x Q` says that from any store satisfying `P`, `x` ends with a
value, and `Q` holds of it and the store it leaves; `Script.Checks` is for a
phase that only reads and may give up; and a script that checks first and then
writes without failing is `Script.Atomic`.
-/

namespace Redis

/-- Why a script failed, as far as its callers can tell. -/
inductive Err where
  /-- a command met a key of another kind -/
  | wrongType
  /-- the script returned this error reply -/
  | reply (message : String)
  /-- the script itself is at fault (an undeclared key) -/
  | fault
  deriving DecidableEq, Repr

/-- A computation on the server that nothing interrupts, and which may fail after it has written;
there is no rollback. -/
def Script (α : Type) : Type := Store → Except Err α × Store

namespace Script

variable {α β : Type}

/-- Return a value, changing nothing in the store. -/
protected def pure (a : α) : Script α := fun s => (.ok a, s)

/-- Run `x`, then `f` on its value; an error of `x` ends the script with the
writes made so far. -/
protected def bind (x : Script α) (f : α → Script β) : Script β := fun s =>
  match x s with
  | (.ok a, s') => f a s'
  | (.error e, s') => (.error e, s')

instance : Monad Script where
  pure := Script.pure
  bind := Script.bind

/-- End the script with an error; what it has written stays written. -/
def fail (e : Err) : Script α := fun s => (.error e, s)

/-- Run `f` on each element in turn, up to the first error. -/
def forEach {ι : Type} : List ι → (ι → Script Unit) → Script Unit
  | [], _ => pure ()
  | x :: xs, f => do
    f x
    forEach xs f

@[simp] theorem pure_apply (a : α) (s : Store) : (pure a : Script α) s = (.ok a, s) := rfl

@[simp] theorem fail_apply (e : Err) (s : Store) : (fail e : Script α) s = (.error e, s) := rfl

theorem bind_apply (x : Script α) (f : α → Script β) (s : Store) :
    (x >>= f) s = match x s with
      | (.ok a, s') => f a s'
      | (.error e, s') => (.error e, s') := rfl

/-- After a success the rest of a script goes on with its result and the store it has left. -/
theorem bind_ok {x : Script α} {f : α → Script β} {s s' : Store} {a : α}
    (h : x s = (.ok a, s')) : (x >>= f) s = f a s' := by
  rw [bind_apply, h]

@[simp] theorem pure_bind (a : α) (f : α → Script β) : (pure a : Script α) >>= f = f a := rfl

@[simp] theorem fail_bind (e : Err) (f : α → Script β) :
    (fail e : Script α) >>= f = fail e := rfl

end Script

/-! ## Commands -/

section Commands

open Script

/-- A command on a key of kind `kd`: rejected when the key holds another kind,
otherwise a read and an update of the store. -/
def onKind {α : Type} (kd : Kind) (k : Key) (f : Store → α × Store) : Script α := fun s =>
  if s.Fits k kd then (.ok (f s).1, (f s).2) else (.error .wrongType, s)

/-- `TYPE`: the type of a key, or nothing if it is absent. -/
def type (k : Key) : Script (Option Kind) := fun s => (.ok (s.kind k), s)

/-- `DEL`: the key is absent afterwards, whatever its type. -/
def del (k : Key) : Script Unit := fun s => (.ok (), s.drop k)

/-- `HGET`: a field of a hash, if it is there. -/
def hget (k : Key) (f : String) : Script (Option String) :=
  onKind .hash k fun s => ((s.hash k).lookup f, s)

/-- `HMGET`: several fields of a hash, each if it is there. -/
def hmget (k : Key) (fs : List String) : Script (List (Option String)) :=
  onKind .hash k fun s => (fs.map fun f => (s.hash k).lookup f, s)

/-- `HEXISTS`: whether a field of a hash is there. -/
def hexists (k : Key) (f : String) : Script Bool :=
  onKind .hash k fun s => (((s.hash k).lookup f).isSome, s)

/-- `HSET` of one field, which replaces what it held. -/
def hset (k : Key) (f v : String) : Script Unit :=
  onKind .hash k fun s => ((), s.put k (.hash (setField f v (s.hash k))))

/-- `HSET` of several fields, one after the other. -/
def hsetMultiple (k : Key) (fvs : List (String × String)) : Script Unit :=
  onKind .hash k fun s =>
    ((), s.put k (.hash (fvs.foldl (fun m p => setField p.1 p.2 m) (s.hash k))))

/-- `HDEL` of several fields; a hash without fields is absent. -/
def hdel (k : Key) (fs : List String) : Script Unit :=
  onKind .hash k fun s => ((), s.put k (.hash (fs.foldl (fun m f => unset f m) (s.hash k))))

/-- `LPUSH`: an item is put at the head of a list. -/
def lpush (k : Key) (x : String) : Script Unit :=
  onKind .list k fun s => ((), s.put k (.list (x :: s.list k)))

/-- `LREM` with count 1: the first occurrence from the head. -/
def lremFirst (k : Key) (x : String) : Script Unit :=
  onKind .list k fun s => ((), s.put k (.list ((s.list k).erase x)))

/-- `LREM` with count 0: all occurrences of an item leave the list. -/
def lremAll (k : Key) (x : String) : Script Unit :=
  onKind .list k fun s => ((), s.put k (.list ((s.list k).filter (· ≠ x))))

/-- `LPOS`, as far as a client can tell a hit from a miss. -/
def lpos (k : Key) (x : String) : Script Bool :=
  onKind .list k fun s => ((s.list k).contains x, s)

/-- `LLEN`: the length of a list. -/
def llen (k : Key) : Script Nat := onKind .list k fun s => ((s.list k).length, s)

/-- `LRANGE 0 -1`: all items of a list. -/
def lrange (k : Key) : Script (List String) := onKind .list k fun s => (s.list k, s)

/-- `LTRIM 0 (n - 1)`: the first `n` items of a list are kept. -/
def ltrim (k : Key) (n : Nat) : Script Unit :=
  onKind .list k fun s => ((), s.put k (.list ((s.list k).take n)))

/-- `LMOVE src dst RIGHT LEFT`. The destination's kind is checked only when
there is an item to move. -/
def lmove (src dst : Key) : Script (Option String) := fun s =>
  if s.Fits src .list then
    match (s.list src).getLast? with
    | none => (.ok none, s)
    | some x =>
      if s.Fits dst .list then
        let s' := s.put src (.list (s.list src).dropLast)
        (.ok (some x), s'.put dst (.list (x :: s'.list dst)))
      else (.error .wrongType, s)
  else (.error .wrongType, s)

/-- `ZSCORE`: the score of a member of a sorted set, if it is there. -/
def zscore (k : Key) (x : String) : Script (Option Int) :=
  onKind .zset k fun s => ((s.zset k).lookup x, s)

/-- `ZADD`: a member of a sorted set gets a score. -/
def zadd (k : Key) (score : Int) (x : String) : Script Unit :=
  onKind .zset k fun s => ((), s.put k (.zset (setScore x score (s.zset k))))

/-- `ZREM`: a member leaves a sorted set. -/
def zrem (k : Key) (x : String) : Script Unit :=
  onKind .zset k fun s => ((), s.put k (.zset (unset x (s.zset k))))

/-- `ZRANGE 0 -1 WITHSCORES`: all members of a sorted set with their scores. -/
def zrangeWithScores (k : Key) : Script (List (String × Int)) :=
  onKind .zset k fun s => (s.zset k, s)

/-- `ZRANGEBYSCORE lo hi WITHSCORES`: the members whose scores are in a range. -/
def zrangeByScore (k : Key) (lo hi : Int) : Script (List (String × Int)) :=
  onKind .zset k fun s => ((s.zset k).filter fun p => lo ≤ p.2 ∧ p.2 ≤ hi, s)

theorem onKind_ok {α : Type} {kd : Kind} {k : Key} {f : Store → α × Store} {s : Store}
    (h : s.Fits k kd) : onKind kd k f s = (.ok (f s).1, (f s).2) := if_pos h

/-- A command that only reads leaves the store as it is, also if it fails. -/
theorem onKind_read {α : Type} (kd : Kind) (k : Key) (f : Store → α) (s : Store) :
    (onKind kd k (fun s => (f s, s)) s).2 = s := by
  simp only [onKind]
  split
  · rfl
  · rfl

/-- A command that has succeeded met a key of its kind, and its result is the one it computed. -/
theorem onKind_inv {α : Type} {kd : Kind} {k : Key} {f : Store → α × Store} {s : Store} {a : α}
    (h : (onKind kd k f s).1 = .ok a) : s.Fits k kd ∧ (f s).1 = a := by
  simp only [onKind] at h
  split at h
  · next hf => exact ⟨hf, Except.ok.inj h⟩
  · cases h

section Read

variable (k : Key) (s : Store)

@[simp] theorem hget_snd (f : String) : (hget k f s).2 = s := onKind_read ..

@[simp] theorem hmget_snd (fs : List String) : (hmget k fs s).2 = s := onKind_read ..

@[simp] theorem hexists_snd (f : String) : (hexists k f s).2 = s := onKind_read ..

@[simp] theorem llen_snd : (llen k s).2 = s := onKind_read ..

@[simp] theorem lrange_snd : (lrange k s).2 = s := onKind_read ..

@[simp] theorem zrangeWithScores_snd : (zrangeWithScores k s).2 = s := onKind_read ..

@[simp] theorem zrangeByScore_snd (lo hi : Int) : (zrangeByScore k lo hi s).2 = s :=
  onKind_read ..

end Read

/-- `LMOVE` leaves the store alone and has nothing to return, or moves the last item of the one list
to the head of the other and returns it. -/
theorem lmove_cases (src dst : Key) (s : Store) :
    ((lmove src dst s).2 = s ∧ ∀ x, (lmove src dst s).1 ≠ .ok (some x)) ∨
      ∃ x, (s.list src).getLast? = some x ∧ lmove src dst s =
        (.ok (some x), (s.put src (.list (s.list src).dropLast)).put dst
          (.list (x :: (s.put src (.list (s.list src).dropLast)).list dst))) := by
  simp only [lmove]
  split
  · split
    · exact .inl ⟨rfl, fun x h => nomatch h⟩
    · next x hx =>
      split
      · exact .inr ⟨x, hx, rfl⟩
      · exact .inl ⟨rfl, fun x h => nomatch h⟩
  · exact .inl ⟨rfl, fun x h => nomatch h⟩

section Ok

variable {s : Store} {k : Key}

theorem hget_ok (h : s.Fits k .hash) (f : String) :
    hget k f s = (.ok ((s.hash k).lookup f), s) := onKind_ok h

theorem hexists_ok (h : s.Fits k .hash) (f : String) :
    hexists k f s = (.ok ((s.hash k).lookup f).isSome, s) := onKind_ok h

theorem hset_ok (h : s.Fits k .hash) (f v : String) :
    hset k f v s = (.ok (), s.put k (.hash (setField f v (s.hash k)))) := onKind_ok h

theorem hdel_ok (h : s.Fits k .hash) (f : String) :
    hdel k [f] s = (.ok (), s.put k (.hash (unset f (s.hash k)))) := onKind_ok h

theorem lpush_ok (h : s.Fits k .list) (x : String) :
    lpush k x s = (.ok (), s.put k (.list (x :: s.list k))) := onKind_ok h

theorem lremFirst_ok (h : s.Fits k .list) (x : String) :
    lremFirst k x s = (.ok (), s.put k (.list ((s.list k).erase x))) := onKind_ok h

theorem lremAll_ok (h : s.Fits k .list) (x : String) :
    lremAll k x s = (.ok (), s.put k (.list ((s.list k).filter (· ≠ x)))) := onKind_ok h

theorem lpos_ok (h : s.Fits k .list) (x : String) :
    lpos k x s = (.ok ((s.list k).contains x), s) := onKind_ok h

theorem ltrim_ok (h : s.Fits k .list) (n : Nat) :
    ltrim k n s = (.ok (), s.put k (.list ((s.list k).take n))) := onKind_ok h

theorem zscore_ok (h : s.Fits k .zset) (x : String) :
    zscore k x s = (.ok ((s.zset k).lookup x), s) := onKind_ok h

theorem zadd_ok (h : s.Fits k .zset) (score : Int) (x : String) :
    zadd k score x s = (.ok (), s.put k (.zset (setScore x score (s.zset k)))) := onKind_ok h

theorem zrem_ok (h : s.Fits k .zset) (x : String) :
    zrem k x s = (.ok (), s.put k (.zset (unset x (s.zset k)))) := onKind_ok h

end Ok

end Commands

/-! ## Rules for scripts that succeed -/

namespace Script

variable {α β : Type} {P R : Store → Prop}

/-- From any store satisfying `P`, `x` succeeds and `Q` holds of its value and
of the store it leaves. -/
def Total (P : Store → Prop) (x : Script α) (Q : α → Store → Prop) : Prop :=
  ∀ s, P s → ∃ a s', x s = (.ok a, s') ∧ Q a s'

theorem Total.ret {a : α} {Q : α → Store → Prop} (h : ∀ s, P s → Q a s) :
    Total P (pure a) Q :=
  fun s hs => ⟨a, s, rfl, h s hs⟩

/-- A sequence succeeds if its first part does, and if its second part does after every result of
the first. -/
theorem Total.bind {x : Script α} {f : α → Script β} {Q : α → Store → Prop}
    {Q' : β → Store → Prop} (hx : Total P x Q) (hf : ∀ a, Total (Q a) (f a) Q') :
    Total P (x >>= f) Q' := by
  intro s hs
  obtain ⟨a, s', hxs, hq⟩ := hx s hs
  obtain ⟨b, s'', hfs, hq'⟩ := hf a s' hq
  exact ⟨b, s'', by rw [bind_ok hxs, hfs], hq'⟩

/-- A loop succeeds and keeps what each of its rounds keeps, if each of them succeeds. -/
theorem Total.forEach {ι : Type} {xs : List ι} {f : ι → Script Unit}
    (h : ∀ x ∈ xs, Total P (f x) fun _ => P) : Total P (forEach xs f) fun _ => P := by
  induction xs with
  | nil => exact Total.ret fun _ hs => hs
  | cons x xs ih =>
    exact (h x (List.mem_cons_self ..)).bind fun _ =>
      ih fun y hy => h y (List.mem_cons_of_mem _ hy)

/-- What every key is expected to hold, as far as that is known; a script is checked against it
instead of a store. -/
abbrev Typing : Type := Key → Kind → Prop

/-- The store meets the typing: every key of which a kind is expected holds that kind, or nothing.
-/
def Typed (Γ : Typing) (s : Store) : Prop := ∀ k kd, Γ k kd → s.Fits k kd

/-- Expectations are consistent when no key has two of them. -/
def Typing.Consistent (Γ : Typing) : Prop := ∀ k kd kd', Γ k kd → Γ k kd' → kd = kd'

/-- A write of the expected kind keeps a store typed; here it matters that no key is expected to
have two kinds. -/
theorem Typed.put {Γ : Typing} (hΓ : Γ.Consistent) {s : Store} (hs : Typed Γ s) {k : Key}
    {v : Value} (hk : Γ k v.kind) : Typed Γ (s.put k v) := by
  intro k' kd' hk'
  refine (hs k' kd' hk').put v fun hkk => ?_
  subst hkk
  exact hΓ _ _ _ hk hk'

/-- A command that writes only its own key, with a value of its own kind, succeeds on a typed store
and keeps it typed. -/
theorem Total.onKind {Γ : Typing} (hΓ : Γ.Consistent) {kd : Kind} {k : Key}
    {f : Store → α × Store} (hk : Γ k kd)
    (hf : ∀ s, (f s).2 = s ∨ ∃ v : Value, v.kind = kd ∧ (f s).2 = s.put k v) :
    Total (Typed Γ) (Redis.onKind kd k f) fun _ => Typed Γ := by
  intro s hs
  refine ⟨_, _, onKind_ok (hs k kd hk), ?_⟩
  rcases hf s with h | ⟨v, hv, h⟩
  · rw [h]
    exact hs
  · rw [h]
    subst hv
    exact hs.put hΓ hk

section Writes

variable {Γ : Typing} {k : Key}

theorem Total.hset (hΓ : Γ.Consistent) (hk : Γ k .hash) (f v : String) :
    Total (Typed Γ) (Redis.hset k f v) fun _ => Typed Γ :=
  .onKind hΓ hk fun _ => .inr ⟨_, rfl, rfl⟩

theorem Total.zadd (hΓ : Γ.Consistent) (hk : Γ k .zset) (score : Int) (x : String) :
    Total (Typed Γ) (Redis.zadd k score x) fun _ => Typed Γ :=
  .onKind hΓ hk fun _ => .inr ⟨_, rfl, rfl⟩

theorem Total.zrem (hΓ : Γ.Consistent) (hk : Γ k .zset) (x : String) :
    Total (Typed Γ) (Redis.zrem k x) fun _ => Typed Γ :=
  .onKind hΓ hk fun _ => .inr ⟨_, rfl, rfl⟩

theorem Total.lpush (hΓ : Γ.Consistent) (hk : Γ k .list) (x : String) :
    Total (Typed Γ) (Redis.lpush k x) fun _ => Typed Γ :=
  .onKind hΓ hk fun _ => .inr ⟨_, rfl, rfl⟩

theorem Total.lremAll (hΓ : Γ.Consistent) (hk : Γ k .list) (x : String) :
    Total (Typed Γ) (Redis.lremAll k x) fun _ => Typed Γ :=
  .onKind hΓ hk fun _ => .inr ⟨_, rfl, rfl⟩

end Writes

/-- A script that succeeds on all stores of a kind returns a result and a store on each of them. -/
theorem Total.run {x : Script α} {Q : α → Store → Prop} (h : Total P x Q) {s : Store} (hs : P s) :
    ∃ a s', x s = (.ok a, s') := by
  obtain ⟨a, s', hx, -⟩ := h s hs
  exact ⟨a, s', hx⟩

/-! ## Rules for scripts that check before they write -/

/-- A phase that only reads: it ends with a value satisfying `Q`, or with an
error reply, and the store is as before. -/
def Checks (x : Script α) (s : Store) (Q : α → Prop) : Prop :=
  (∃ a, x s = (.ok a, s) ∧ Q a) ∨ ∃ m, x s = (.error (.reply m), s)

theorem Checks.ret {a : α} {s : Store} {Q : α → Prop} (h : Q a) : Checks (pure a) s Q :=
  .inl ⟨a, rfl, h⟩

theorem Checks.bind {x : Script α} {f : α → Script β} {s : Store} {Q : α → Prop} {R : β → Prop}
    (hx : Checks x s Q) (hf : ∀ a, Q a → Checks (f a) s R) : Checks (x >>= f) s R := by
  rcases hx with ⟨a, hxs, hq⟩ | ⟨m, hxs⟩
  · rcases hf a hq with ⟨b, hfs, hr⟩ | ⟨m, hfs⟩
    · exact .inl ⟨b, by rw [bind_ok hxs, hfs], hr⟩
    · exact .inr ⟨m, by rw [bind_ok hxs, hfs]⟩
  · exact .inr ⟨m, by rw [bind_apply, hxs]⟩

/-- A script that either succeeds, or returns an error reply and has changed
nothing. -/
def Atomic (x : Script α) : Prop :=
  ∀ s, (∃ a s', x s = (.ok a, s')) ∨ ∃ m, x s = (.error (.reply m), s)

end Script

end Redis
