import Oxana.Interleave.Solo

/-!
# A client with a companion

`beside turn p q` is the client that runs `p` and lets the companion `q` go on at its side. The
surroundings say before each step whose turn it is. When `p` is done the companion runs to its own
end, and then the result is that of `p`; when `p` stops for good the companion still goes on. This is
a task that spawns another one and joins it before it returns.

What a step of either of them keeps, the two keep together (`Always.beside`), and when both keep to a
discipline with tokens that are not the same, so does the pair (`Safe.beside`). `Solo.beside` is the
rule for a pair that is alone with the world: a client that takes no notice of what its companion
changes (`Blind`) returns what it returns without the companion, and the two worlds that are left are
related.
-/

namespace Interleave

variable {ο ℓ σ ι τ α β : Type} {turn : ι → Bool}

namespace Prog

/-- The companion goes on for as long as it is its turn. Then `step` takes over, with what is left of
the companion. -/
def meanwhile (turn : ι → Bool) (step : Prog ℓ σ ι β → Prog ℓ σ ι α) :
    Prog ℓ σ ι β → Prog ℓ σ ι α
  | ret b => step (ret b)
  | halt => step halt
  | act l f k => ask fun i =>
      if turn i then act l f fun s => meanwhile turn step (k s) else step (act l f k)
  | ask k => ask fun i =>
      if turn i then ask fun j => meanwhile turn step (k j) else step (ask k)

/-- The first client with the second one as its companion. -/
def beside (turn : ι → Bool) : Prog ℓ σ ι α → Prog ℓ σ ι β → Prog ℓ σ ι α
  | ret a => fun q => q.bind fun _ => ret a
  | halt => fun q => q.bind fun _ => halt
  | act l f k => meanwhile turn fun q => act l f fun s => beside turn (k s) q
  | ask k => meanwhile turn fun q => ask fun i => beside turn (k i) q

/-! ## What holds at every step of the two -/

section Always

variable {E : ℓ → σ → Prop} {G : ℓ → σ → σ → Prop} {Q : α → Prop} {Q' : β → Prop}

/-- What is known of every step of a client and of its companion is known of every step of the
client that lets its companion go first. -/
theorem Always.meanwhile {step : Prog ℓ σ ι β → Prog ℓ σ ι α} {q : Prog ℓ σ ι β}
    (hq : Always E G Q' q) (hstep : ∀ q, Always E G Q' q → Always E G Q (step q)) :
    Always E G Q (meanwhile turn step q) := by
  induction q with
  | ret b => exact hstep _ hq
  | halt => exact hstep _ hq
  | act l f k ih =>
    intro i
    show Always E G Q (if turn i then _ else _)
    split
    · exact fun s hs => ⟨(hq s hs).1, ih s (hq s hs).2⟩
    · exact hstep _ hq
  | ask k ih =>
    intro i
    show Always E G Q (if turn i then _ else _)
    split
    · exact fun j => ih j (hq j)
    · exact hstep _ hq

/-- What both clients do at every step, they do at every step side by side. -/
theorem Always.beside {p : Prog ℓ σ ι α} {q : Prog ℓ σ ι β} (hp : Always E G Q p)
    (hq : Always E G Q' q) : Always E G Q (beside turn p q) := by
  induction p generalizing q with
  | ret a => exact hq.bind fun _ _ => hp
  | halt => exact hq.bind fun _ _ => trivial
  | act l f k ih =>
    exact hq.meanwhile fun q hq s hs => ⟨(hp s hs).1, ih s (hp s hs).2 hq⟩
  | ask k ih => exact hq.meanwhile fun q hq i => ih i (hp i) hq

end Always

/-! ## Runs -/

section Trace

variable {p : Prog ℓ σ ι α} {q : Prog ℓ σ ι β} {tr tr' : List (Event ℓ σ)}

/-- The turn need not be the companion's: whatever the client can do next, it can do at once. -/
theorem Trace.meanwhile {step : Prog ℓ σ ι β → Prog ℓ σ ι α} {p : Prog ℓ σ ι α} {i : ι}
    (hi : turn i = false) (h : Trace (step q) tr p) : Trace (meanwhile turn step q) tr p := by
  cases q with
  | ret b => exact h
  | halt => exact h
  | act l f k =>
    refine .ask (i := i) ?_
    simpa only [hi, Bool.false_eq_true, if_false] using h
  | ask k =>
    refine .ask (i := i) ?_
    simpa only [hi, Bool.false_eq_true, if_false] using h

/-- The client may run to its end first, and the companion after it; what is returned is what the
client returns. -/
theorem Trace.beside {i : ι} (hi : turn i = false) {a : α} {b : β} (hp : Trace p tr (ret a))
    (hq : Trace q tr' (ret b)) : Trace (beside turn p q) (tr ++ tr') (ret a) := by
  generalize hr : ret a = r at hp
  induction hp with
  | refl p =>
    subst hr
    have hend : Trace (q.bind fun _ => ret a) (tr' ++ []) (ret a) := hq.bind (.refl _)
    rwa [List.append_nil] at hend
  | act _ ih => exact .meanwhile hi (.act (ih hr))
  | ask _ ih => exact .meanwhile hi (.ask (ih hr))

end Trace

/-! ## Alone with a companion -/

section Blind

variable {allowed : ι → Prop} {R : σ → σ → Prop}

/-- The client takes no notice of what `R` leaves open: in two worlds that are related its step leaves
two that are related again, and it goes on in the same way. -/
def Blind (R : σ → σ → Prop) : Prog ℓ σ ι α → Prop
  | ret _ => True
  | halt => True
  | act _ f k => ∀ s t, R s t → R (f s) (f t) ∧ k s = k t ∧ Blind R (k s)
  | ask k => ∀ i, Blind R (k i)

/-- A sequence takes no notice of a difference between worlds if none of its parts does. -/
theorem Blind.bind {p : Prog ℓ σ ι α} {g : α → Prog ℓ σ ι β} (hp : Blind R p)
    (hg : ∀ a, Blind R (g a)) : Blind R (p.bind g) := by
  induction p with
  | ret a => exact hg a
  | halt => trivial
  | act l f k ih =>
    intro s t hst
    obtain ⟨hstep, hsame, hk⟩ := hp s t hst
    exact ⟨hstep, congrArg (fun p : Prog ℓ σ ι α => p.bind g) hsame, ih s hk⟩
  | ask k ih => exact fun i => ih i (hp i)

/-- When the client goes on, the companion has changed nothing that the client would notice: the
world it meets is related to that without a companion. -/
theorem Solo.meanwhile {step : Prog ℓ σ ι β → Prog ℓ σ ι α} {q : Prog ℓ σ ι β} {Q : β → Prop}
    {s t s' : σ} {a : α} (h : Solo allowed (meanwhile turn step q) s a s')
    (hq : Always (fun _ _ => True) (fun _ s s' => ∀ t, R s t → R s' t) Q q) (hs : R s t) :
    ∃ q' s₁, Always (fun _ _ => True) (fun _ s s' => ∀ t, R s t → R s' t) Q q' ∧ R s₁ t ∧
      Solo allowed (step q') s₁ a s' := by
  induction q generalizing s with
  | ret b => exact ⟨_, s, hq, hs, h⟩
  | halt => exact ⟨_, s, hq, hs, h⟩
  | act l f k ih =>
    obtain ⟨i, -, h⟩ := h
    by_cases hi : turn i = true
    · simp only [if_pos hi] at h
      obtain ⟨hstep, hk⟩ := hq s trivial
      exact ih s h hk (hstep t hs)
    · simp only [if_neg hi] at h
      exact ⟨_, s, hq, hs, h⟩
  | ask k ih =>
    obtain ⟨i, -, h⟩ := h
    by_cases hi : turn i = true
    · simp only [if_pos hi] at h
      obtain ⟨j, -, h⟩ := h
      exact ih j h (hq j) hs
    · simp only [if_neg hi] at h
      exact ⟨_, s, hq, hs, h⟩

/-- **Alone with a companion**: if the client takes no notice of what the companion changes, it returns
what it can return without it, and the worlds that the two runs leave are related. -/
theorem Solo.beside {p : Prog ℓ σ ι α} {q : Prog ℓ σ ι β} {Q : β → Prop} {s t s' : σ} {a : α}
    (h : Solo allowed (beside turn p q) s a s') (hp : Blind R p)
    (hq : Always (fun _ _ => True) (fun _ s s' => ∀ t, R s t → R s' t) Q q) (hs : R s t) :
    ∃ t', Solo allowed p t a t' ∧ R s' t' := by
  induction p generalizing q s t with
  | ret b =>
    obtain ⟨c, s₁, hrun, rfl, rfl⟩ := solo_bind.mp h
    have hkeeps : Always (fun _ s => R s t) (fun _ _ s => R s t) Q q :=
      hq.weaken (fun _ _ _ => trivial) fun _ _ _ hs hstep => hstep t hs
    exact ⟨t, ⟨rfl, rfl⟩, (hrun.keeps hkeeps hs).1⟩
  | halt =>
    obtain ⟨_, _, -, h⟩ := solo_bind.mp h
    exact h.elim
  | act l f k ih =>
    obtain ⟨q', s₁, hq', hs₁, h⟩ := h.meanwhile hq hs
    obtain ⟨hstep, hsame, hk⟩ := hp s₁ t hs₁
    obtain ⟨t', hrun, hs'⟩ := ih s₁ h hk hq' hstep
    rw [hsame] at hrun
    exact ⟨t', hrun, hs'⟩
  | ask k ih =>
    obtain ⟨q', s₁, hq', hs₁, i, hi, h⟩ := h.meanwhile hq hs
    obtain ⟨t', hrun, hs'⟩ := ih i h (hp i) hq' hs₁
    exact ⟨t', ⟨i, hi, hrun⟩, hs'⟩

end Blind

end Prog

/-! ## Two that keep to a discipline -/

namespace Discipline

variable {D : Discipline ο σ τ} {o : ο} {K : σ → Prop} {T T' F : Set τ} {s s' : σ}

/-- A trade does not concern the tokens that the companion has in hand: with them, it is a trade
too. -/
theorem Trades.framed (h : D.Trades o T T' s s') (hF : Disjoint T F) (howns : ∀ t ∈ F, D.owns t s)
    (hmine : ∀ t ∈ F, D.mine o t) : D.Trades o (T ∪ F) (T' ∪ F) s s' ∧ Disjoint T' F := by
  have hout : ∀ t ∈ F, t ∉ T := fun t hF' hT => Set.disjoint_left.mp hF hT hF'
  refine ⟨⟨h.inv, h.moves, fun t ht => h.frame t fun hT => ht (.inl hT), ?_, ?_, ?_⟩, ?_⟩
  · rintro t (ht | ht)
    · exact h.owns t ht
    · exact h.frame t (hout t ht) (howns t ht)
  · rintro t (ht | ht)
    · exact h.mine t ht
    · exact hmine t ht
  · rintro t (ht | ht) hnot
    · exact h.fresh t ht fun hT => hnot (.inl hT)
    · exact absurd (.inr ht) hnot
  · refine Set.disjoint_left.mpr fun t ht htF => ?_
    exact h.fresh t ht (hout t htF) (howns t htF)

variable {Q : α → Set τ → Prop} {Q' : β → Set τ → Prop}

/-- The companion keeps to the discipline while the client has the tokens `F` in hand, and so does
the client when its turn comes. -/
theorem Safe.meanwhile {step : Prog ℓ σ ι β → Prog ℓ σ ι α} {q : Prog ℓ σ ι β}
    (hq : D.Safe o K Q' T q) (hF : Disjoint T F) (hmine : ∀ t ∈ F, D.mine o t)
    (hmineT : ∀ t ∈ T, D.mine o t)
    (hstep : ∀ q T, D.Safe o K Q' T q → Disjoint T F → (∀ t ∈ T, D.mine o t) →
      D.Safe o K Q (T ∪ F) (step q)) : D.Safe o K Q (T ∪ F) (Prog.meanwhile turn step q) := by
  induction q generalizing T with
  | ret b => exact hstep _ T hq hF hmineT
  | halt => exact hstep _ T hq hF hmineT
  | act l f k ih =>
    intro i
    show D.Safe o K Q (T ∪ F) (if turn i then _ else _)
    split
    · intro s hs hK hT
      obtain ⟨T', htr, hk⟩ := hq s hs hK fun t ht => hT t (.inl ht)
      obtain ⟨hboth, hF'⟩ := htr.framed hF (fun t ht => hT t (.inr ht)) hmine
      exact ⟨T' ∪ F, hboth, ih s hk hF' htr.mine⟩
    · exact hstep _ T hq hF hmineT
  | ask k ih =>
    intro i
    show D.Safe o K Q (T ∪ F) (if turn i then _ else _)
    split
    · exact fun j => ih j (hq j) hF hmineT
    · exact hstep _ T hq hF hmineT

/-- When the client has returned, the companion alone is left and keeps to the discipline. -/
theorem Safe.framed {q : Prog ℓ σ ι β} (hq : D.Safe o K Q' T q) (hF : Disjoint T F)
    (hmine : ∀ t ∈ F, D.mine o t) : D.Safe o K (fun _ U => F ⊆ U) (T ∪ F) q := by
  induction q generalizing T with
  | ret b => exact Set.subset_union_right
  | halt => trivial
  | act l f k ih =>
    intro s hs hK hT
    obtain ⟨T', htr, hk⟩ := hq s hs hK fun t ht => hT t (.inl ht)
    obtain ⟨hboth, hF'⟩ := htr.framed hF (fun t ht => hT t (.inr ht)) hmine
    exact ⟨T' ∪ F, hboth, ih s hk hF'⟩
  | ask k ih => exact fun i => ih i (hq i) hF

/-- **Side by side**: two clients that keep to the discipline, with tokens that are not the same, keep
to it together. -/
theorem Safe.beside {p : Prog ℓ σ ι α} {q : Prog ℓ σ ι β} (hp : D.Safe o K Q T p)
    (hq : D.Safe o K Q' F q) (hF : Disjoint F T) (hmine : ∀ t ∈ T, D.mine o t)
    (hmineF : ∀ t ∈ F, D.mine o t) :
    D.Safe o K (fun a U => ∃ T' ⊆ U, Q a T') (F ∪ T) (Prog.beside turn p q) := by
  induction p generalizing T F q with
  | ret a => exact (hq.framed hF hmine).bind fun _ U hU => ⟨T, hU, hp⟩
  | halt => exact (hq.framed hF hmine).bind fun _ _ _ => trivial
  | act l f k ih =>
    refine hq.meanwhile hF hmine hmineF fun q F hq hF hmineF s hs hK hT => ?_
    obtain ⟨T', htr, hk⟩ := hp s hs hK fun t ht => hT t (.inr ht)
    obtain ⟨hboth, hF'⟩ := htr.framed hF.symm (fun t ht => hT t (.inl ht)) hmineF
    rw [Set.union_comm T, Set.union_comm T'] at hboth
    exact ⟨F ∪ T', hboth, ih s hk hq hF'.symm htr.mine hmineF⟩
  | ask k ih =>
    exact hq.meanwhile hF hmine hmineF fun q F hq hF hmineF i => ih i (hp i) hq hF hmine hmineF

end Discipline

end Interleave
