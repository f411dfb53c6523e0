import Oxana.Interleave.Pool
import Mathlib.Data.Finsupp.Basic
import Mathlib.Algebra.Order.Group.Multiset

/-!
# Systems in which nothing is let go

Tokens of `Discipline` may be dropped at any time. Here they may not: an `Account` says which items
somebody has to answer for (`claims`), and which of them the world keeps until somebody takes them
over (`kept`). All others are in the hands of running clients, each item in the hands of one. That
ends when the account is closed.

`Answers` is the obligation of a client with some items in its hands, by recursion on its program:
whatever happens, it passes them on, has them removed, or closes the account before it returns. A
client that knows the account to be closed has nothing to answer for. What a client can have in its
hands is kept in books on the way: the items it has been given and has not passed on (`booked`).
`Account.reachable` is the soundness theorem; clients may only be stopped once the account is closed.
-/

namespace Interleave

variable {ο ℓ σ ι τ α β : Type}

/-- What somebody has to answer for: an invariant of the world, and items of which each client has
some in its hands. -/
structure Account (σ τ : Type) where
  /-- holds of the world at all times -/
  valid : σ → Prop
  /-- the items there are -/
  claims : σ → Multiset τ
  /-- those the world keeps itself -/
  kept : σ → Multiset τ
  /-- nobody has to answer any more -/
  closed : σ → Prop

/-- What a client answers for: some items, or nothing because it knows the account to be closed. -/
abbrev Hands (τ : Type) := Option (Multiset τ)

/-- Nothing is left to answer for, either because there is nothing in hand or because everything
stops. -/
def Hands.Free (h : Hands τ) : Prop := h = none ∨ h = some 0

namespace Account

/-- What all clients together have in their hands, counted with repetitions. -/
noncomputable def total (hold : ℕ →₀ Multiset τ) : Multiset τ := hold.sum fun _ T => T

theorem total_update (hold : ℕ →₀ Multiset τ) (i : ℕ) (T : Multiset τ) :
    total (hold.update i T) = T + total (hold.erase i) := by
  rw [total, Finsupp.update_eq_erase_add_single,
    Finsupp.sum_add_index' (fun _ => rfl) (fun _ _ _ => rfl), Finsupp.sum_single_index rfl, add_comm,
    total]

/-- What all clients have in their hands is what one of them has, and what the others have. -/
theorem total_split (hold : ℕ →₀ Multiset τ) (i : ℕ) :
    total hold = hold i + total (hold.erase i) := by
  rw [← total_update, Finsupp.update_self]

variable [DecidableEq τ] (A : Account σ τ)

/-- The books are balanced: every item that is claimed is kept by the world or is among those in
`T`, unless the world is closed. -/
def Settled (s : σ) (T : Multiset τ) : Prop := A.closed s ∨ A.claims s ≤ A.kept s + T

/-- With this in the hands of one client, and `m` in those of the others, the account is in
order. -/
def Fits (s : σ) : Hands τ → Multiset τ → Prop
  | none, _ => A.closed s
  | some T, m => A.Settled s (T + m)

/-- What a client that has had `T` in its hands has in them after a step, by the books: what the step
takes over from the world or claims comes in, and what it leaves with the world or removes goes out. -/
def booked (T : Multiset τ) (s s' : σ) : Multiset τ :=
  T + (A.kept s - A.kept s' + (A.claims s' - A.claims s)) -
    (A.kept s' - A.kept s + (A.claims s - A.claims s'))

/-- What a client must establish that moves the world. -/
structure Trades (h h' : Hands τ) (s s' : σ) : Prop where
  /-- the world stays in order -/
  valid : A.valid s'
  /-- an account that is closed is never opened again -/
  stays : A.closed s → A.closed s'
  /-- together with what the others hold, every item is still in somebody's hands -/
  fits : ∀ m, A.Fits s h m → A.Fits s' h' m
  /-- the client answers for no more than it has in its hands by the books -/
  books : ∀ T T', h = some T → h' = some T' → A.closed s' ∨ T' ≤ A.booked T s s'

/-- The client answers for what is in its hands; if it returns, `Q` holds of its result and of what
is left in them. -/
def Answers (Q : α → Hands τ → Prop) : Hands τ → Prog ℓ σ ι α → Prop
  | h, .ret a => Q a h
  | _, .halt => True
  | h, .act _ f k => ∀ s, A.valid s → (h = none → A.closed s) →
      ∃ h', A.Trades h h' s (f s) ∧ Answers Q h' (k s)
  | h, .ask k => ∀ i, Answers Q h (k i)

variable {A} {h h' : Hands τ} {T T' : Multiset τ} {s s' : σ}

/-- Who had more before has no less by the books. -/
theorem booked_mono (hle : T ≤ T') (s s' : σ) : A.booked T s s' ≤ A.booked T' s s' :=
  tsub_le_tsub_right (add_le_add hle le_rfl) _

namespace Trades

/-- A step that closes the account is a trade of anything for anything. -/
theorem close (hs : A.valid s') (hclosed : A.closed s') : A.Trades h h' s s' := by
  refine ⟨hs, fun _ => hclosed, fun m _ => ?_, fun _ _ _ _ => .inl hclosed⟩
  cases h' with
  | none => exact hclosed
  | some T => exact .inl hclosed

/-- A step that keeps its items covered, whatever else there may be, and takes no more in hand than
the books say, is a trade. -/
theorem of_le (hs : A.valid s') (hstays : A.closed s → A.closed s')
    (hle : ∀ m, A.claims s ≤ A.kept s + (T + m) → A.claims s' ≤ A.kept s' + (T' + m))
    (hbooks : T' ≤ A.booked T s s') : A.Trades (some T) (some T') s s' := by
  refine ⟨hs, hstays, fun m hm => hm.imp hstays (hle m), ?_⟩
  rintro _ _ ⟨⟩ ⟨⟩
  exact .inr hbooks

/-- A step that does nothing to the items is a trade, whatever the client has in its hands. -/
theorem idle (hs : A.valid s') (hstays : A.closed s → A.closed s')
    (hclaims : A.claims s' = A.claims s) (hkept : A.kept s' = A.kept s) : A.Trades h h s s' := by
  cases h with
  | none => exact ⟨hs, hstays, fun _ hm => hstays hm, fun _ _ h => by cases h⟩
  | some T =>
    refine .of_le hs hstays (fun m hm => by rwa [hclaims, hkept]) ?_
    rw [booked, hclaims, hkept]
    simp

/-- A step that changes nothing at all is a trade. -/
theorem refl (hs : A.valid s) : A.Trades h h s s := .idle hs id rfl rfl

/-- Whatever a step does to the items, a client that answers for what it has in its hands by the
books has them all covered. -/
theorem of_booked (hs : A.valid s') (hstays : A.closed s → A.closed s') :
    A.Trades (some T) (some (A.booked T s s')) s s' := by
  refine .of_le hs hstays (fun m hm => Multiset.le_iff_count.mpr fun x => ?_) le_rfl
  have hx := Multiset.le_iff_count.mp hm x
  simp only [booked, Multiset.count_add, Multiset.count_sub] at hx ⊢
  omega

end Trades

namespace Answers

variable {Q R : α → Hands τ → Prop}

/-- A sequence answers for its items if its first part does, and the second goes on with what the
first one has left in its hands. -/
theorem bind {S : β → Hands τ → Prop} {p : Prog ℓ σ ι α} {g : α → Prog ℓ σ ι β}
    (hp : A.Answers Q h p) (hg : ∀ a h', Q a h' → A.Answers S h' (g a)) :
    A.Answers S h (p.bind g) := by
  induction p generalizing h with
  | ret a => exact hg a h hp
  | halt => trivial
  | act l f k ih =>
    intro s hs hknown
    obtain ⟨h', htr, hk⟩ := hp s hs hknown
    exact ⟨h', htr, ih s hk⟩
  | ask k ih => exact fun i => ih i (hp i)

/-- Less may be asked of a result and of the hands that come with it. -/
theorem mono {p : Prog ℓ σ ι α} (hp : A.Answers Q h p) (hQ : ∀ a h', Q a h' → R a h') :
    A.Answers R h p := by
  induction p generalizing h with
  | ret a => exact hQ a h hp
  | halt => trivial
  | act l f k ih =>
    intro s hs hknown
    obtain ⟨h', htr, hk⟩ := hp s hs hknown
    exact ⟨h', htr, ih s hk⟩
  | ask k ih => exact fun i => ih i (hp i)

/-- Once the account is known to be closed, anything will do that somebody may do who does not know
it. -/
theorem forget {p : Prog ℓ σ ι α} (hp : A.Answers Q h p) :
    A.Answers (fun a h' => h' = none ∧ ∃ h₀, Q a h₀) none p := by
  induction p generalizing h with
  | ret a => exact ⟨rfl, h, hp⟩
  | halt => trivial
  | act l f k ih =>
    intro s hs hknown
    obtain ⟨h', htr, hk⟩ := hp s hs fun _ => hknown rfl
    exact ⟨none, .close htr.valid (htr.stays (hknown rfl)), ih s hk⟩
  | ask k ih => exact fun i => ih i (hp i)

end Answers

/-! ## The system -/

variable (A) in
/-- The states that the system reaches from a world in which nobody runs, together with the books:
what each client has been given and has not passed on. A client is only stopped once the account is
closed. -/
inductive Reachable (launch : σ → ο → Prog ℓ σ ι Unit → σ → Prop) (env : σ → σ → Prop) (w : σ) :
    Pool ο ℓ σ ι → (ℕ → Multiset τ) → Prop where
  | start : Reachable launch env w (Pool.idle w) fun _ => 0
  | launch {c : Pool ο ℓ σ ι} {given : ℕ → Multiset τ} {i : ℕ} {o : ο} {p : Prog ℓ σ ι Unit}
      {w' : σ} : Reachable launch env w c given → c.threads i = none → launch c.world o p w' →
      Reachable launch env w ⟨w', Function.update c.threads i (some ⟨o, p⟩)⟩
        (Function.update given i (A.booked 0 c.world w'))
  | run {c : Pool ο ℓ σ ι} {given : ℕ → Multiset τ} {i : ℕ} {o : ο} {p p' : Prog ℓ σ ι Unit}
      {w' : σ} : Reachable launch env w c given → c.threads i = some ⟨o, p⟩ →
      p.Step c.world w' p' →
      Reachable launch env w ⟨w', Function.update c.threads i (some ⟨o, p'⟩)⟩
        (Function.update given i (A.booked (given i) c.world w'))
  | stop {c : Pool ο ℓ σ ι} {given : ℕ → Multiset τ} {i : ℕ} : Reachable launch env w c given →
      A.closed c.world →
      Reachable launch env w ⟨c.world, Function.update c.threads i none⟩
        (Function.update given i (A.booked (given i) c.world c.world))
  | env {c : Pool ο ℓ σ ι} {given : ℕ → Multiset τ} {w' : σ} : Reachable launch env w c given →
      env c.world w' → Reachable launch env w ⟨w', c.threads⟩ given

/-- One client is started and takes a few steps, and the books are kept of them; what is reached is
reachable. -/
theorem Reachable.client {launch : σ → ο → Prog ℓ σ ι Unit → σ → Prop} {env : σ → σ → Prop}
    {w w' s' : σ} {o : ο} {p q : Prog ℓ σ ι Unit} {tr : List (Prog.Event ℓ σ)}
    (hl : launch w o p w') (ht : Prog.Trace p tr q) (hc : Prog.Chained w' tr s') :
    ∃ threads given, A.Reachable launch env w ⟨s', threads⟩ given := by
  -- a pool that is reachable with some books is only followed by such pools
  let reached (c : Pool ο ℓ σ ι) : Prop := ∃ given, A.Reachable launch env w c given
  have hgo {c c' : Pool ο ℓ σ ι} (hsteps : Relation.ReflTransGen (fun c c' => reached c → reached c')
      c c') (hstart : reached c) : reached c' := by
    induction hsteps with
    | refl => exact hstart
    | tail _ hstep ih => exact hstep ih
  refine ⟨_, hgo (Pool.runs_of_trace (i := 0) (o := o) ?_ (Function.update_self ..) ht hc)
    ⟨_, .launch .start rfl hl⟩⟩
  rintro c i o p p' w' hth hstep ⟨given, h⟩
  exact ⟨_, h.run hth hstep⟩

/-- Each item is with the world or in the hands of one of the running clients, who has it by the books
and answers for it. -/
structure Accounted (A : Account σ τ) (c : Pool ο ℓ σ ι) (given : ℕ → Multiset τ)
    (hold : ℕ →₀ Multiset τ) : Prop where
  valid : A.valid c.world
  settled : A.Settled c.world (total hold)
  /-- no client holds more than it has by the books -/
  books : A.closed c.world ∨ ∀ i, hold i ≤ given i
  answers : ∀ i th, c.threads i = some th → ∃ h, A.Answers (fun _ => Hands.Free) h th.prog ∧
    (h = some (hold i) ∨ h = none ∧ A.closed c.world ∧ hold i = 0)
  /-- who does not run holds nothing -/
  free : ∀ i, c.threads i = none → hold i = 0

/-- The account is right when one client is started, goes on or is stopped, and has something else
in its hands from then on. -/
theorem Accounted.update {c : Pool ο ℓ σ ι} {given : ℕ → Multiset τ} {hold : ℕ →₀ Multiset τ}
    (hc : A.Accounted c given hold) {i : ℕ} {w' : σ} (htr : A.Trades h h' c.world w')
    (hi : h = some (hold i) ∨ h = none ∧ A.closed c.world) (hT : A.closed c.world ∨ hold i ≤ T)
    {th' : Option (Thread ο ℓ σ ι)}
    (hnew : ∀ th, th' = some th → A.Answers (fun _ => Hands.Free) h' th.prog)
    (hnone : th' = none → h'.Free) :
    ∃ hold', A.Accounted (⟨w', Function.update c.threads i th'⟩ : Pool ο ℓ σ ι)
      (Function.update given i (A.booked T c.world w')) hold' := by
  -- what the client has in its hands fits what the others hold
  have hfits : A.Fits w' h' (total (hold.erase i)) := by
    refine htr.fits _ ?_
    rcases hi with rfl | ⟨rfl, hclosed⟩
    · rw [Fits, ← total_split]
      exact hc.settled
    · exact hclosed
  -- and it has it by the books
  have hbooks : A.closed w' ∨ h'.getD 0 ≤ A.booked T c.world w' := by
    rcases hT with hclosed | hT
    · exact .inl (htr.stays hclosed)
    · rcases hi with rfl | ⟨-, hclosed⟩
      · cases h' with
        | none => exact .inl hfits
        | some T' =>
          refine (htr.books _ _ rfl rfl).imp_right fun hle => ?_
          exact hle.trans (booked_mono hT _ _)
      · exact .inl (htr.stays hclosed)
  refine ⟨hold.update i (h'.getD 0), htr.valid, ?_, ?_, fun j th hth => ?_, fun j hj => ?_⟩
  · rw [total_update]
    cases h' with
    | none => exact .inl hfits
    | some T => exact hfits
  · rcases hc.books with hclosed | hle
    · exact .inl (htr.stays hclosed)
    · refine hbooks.imp_right fun hone j => ?_
      by_cases hij : j = i
      · subst hij
        rwa [Finsupp.update_apply, if_pos rfl, Function.update_self]
      · rw [Finsupp.update_apply, if_neg hij, Function.update_of_ne hij]
        exact hle j
  · by_cases hij : j = i
    · subst hij
      rw [Finsupp.update_apply, if_pos rfl]
      refine ⟨h', hnew th (by simpa using hth), ?_⟩
      cases h' with
      | none => exact .inr ⟨rfl, hfits, rfl⟩
      | some T => exact .inl rfl
    · rw [Finsupp.update_apply, if_neg hij]
      obtain ⟨hj, hans, hcase⟩ := hc.answers j th (by simpa [hij] using hth)
      exact ⟨hj, hans, hcase.imp_right fun h => ⟨h.1, htr.stays h.2.1, h.2.2⟩⟩
  · by_cases hij : j = i
    · subst hij
      rw [Finsupp.update_apply, if_pos rfl]
      rcases hnone (by simpa using hj) with rfl | rfl <;> rfl
    · rw [Finsupp.update_apply, if_neg hij]
      exact hc.free j (by simpa [hij] using hj)

/-- The next step of a client that answers for its items keeps the account. -/
theorem Accounted.run {c : Pool ο ℓ σ ι} {given : ℕ → Multiset τ} {hold : ℕ →₀ Multiset τ}
    (hc : A.Accounted c given hold) {i : ℕ} {o : ο} {p p' : Prog ℓ σ ι Unit} {w' : σ}
    (hth : c.threads i = some ⟨o, p⟩) (hstep : p.Step c.world w' p') :
    ∃ hold', A.Accounted (⟨w', Function.update c.threads i (some ⟨o, p'⟩)⟩ : Pool ο ℓ σ ι)
      (Function.update given i (A.booked (given i) c.world w')) hold' := by
  obtain ⟨h, hp, hcase⟩ := hc.answers _ _ hth
  have hi := hcase.imp_right fun h => (⟨h.1, h.2.1⟩ : _ ∧ _)
  have hgiven := hc.books.imp_right fun h => h i
  cases hstep with
  | act =>
    have hknown : h = none → A.closed c.world := by
      rintro rfl
      exact hi.elim (fun h => absurd h.symm (Option.some_ne_none _)) And.right
    obtain ⟨h', htr, hk⟩ := hp _ hc.valid hknown
    refine hc.update htr hi hgiven ?_ fun h => absurd h (Option.some_ne_none _)
    rintro th ⟨⟩
    exact hk
  | ask i =>
    refine hc.update (.refl hc.valid) hi hgiven ?_ fun h => absurd h (Option.some_ne_none _)
    rintro th ⟨⟩
    exact hp i

/-- **Soundness**: in every state that the system reaches, each item that somebody has to answer for
is with the world or with one of the running clients, who has it by the books and answers for it,
unless the account is closed. -/
theorem reachable {launch : σ → ο → Prog ℓ σ ι Unit → σ → Prop} {env : σ → σ → Prop}
    (hL : ∀ w o p w', A.valid w → launch w o p w' →
      ∃ h, A.Trades (some 0) h w w' ∧ A.Answers (fun _ => Hands.Free) h p)
    (hE : ∀ w w', A.valid w → env w w' → A.Trades (some 0) (some 0) w w') {w : σ} (hw : A.valid w)
    (hsettled : A.Settled w 0) {c : Pool ο ℓ σ ι} {given : ℕ → Multiset τ}
    (hc : A.Reachable launch env w c given) : ∃ hold, A.Accounted c given hold := by
  induction hc with
  | start =>
    refine ⟨0, hw, hsettled, .inr fun _ => Multiset.zero_le _, fun i th hth => ?_, fun _ _ => rfl⟩
    cases hth
  | @launch c given i o p w' _ hnone hl ih =>
    obtain ⟨hold, hc⟩ := ih
    obtain ⟨h', htr, hp⟩ := hL _ _ _ _ hc.valid hl
    have hzero := hc.free i hnone
    refine hc.update htr (.inl (by rw [hzero])) (.inr (le_of_eq hzero)) ?_
      fun h => absurd h (Option.some_ne_none _)
    rintro th ⟨⟩
    exact hp
  | run _ hth hs ih =>
    obtain ⟨hold, hc⟩ := ih
    exact hc.run hth hs
  | @stop c given i _ hclosed ih =>
    obtain ⟨hold, hc⟩ := ih
    have htr : A.Trades (some (hold i)) none c.world c.world := .close hc.valid hclosed
    refine hc.update htr (.inl rfl) (.inl hclosed) ?_ fun _ => .inl rfl
    rintro th ⟨⟩
  | env _ he ih =>
    obtain ⟨hold, hc⟩ := ih
    have htr := hE _ _ hc.valid he
    refine ⟨hold, htr.valid, ?_, hc.books.imp_left htr.stays, fun i th hth => ?_, hc.free⟩
    · have := htr.fits (total hold)
      rw [Fits, Fits, zero_add] at this
      exact this hc.settled
    · obtain ⟨h, hans, hcase⟩ := hc.answers i th hth
      exact ⟨h, hans, hcase.imp_right fun h => ⟨h.1, htr.stays h.2.1, h.2.2⟩⟩

end Account

end Interleave
