import Oxana.Interleave.History

/-!
# Clients of a discipline, step by step

What a discipline keeps is an invariant of the states. `SafeIn R` also says what
the steps are: the client keeps to the discipline, and each of its steps, taken
in a world that satisfies the invariant and with its tokens in hand, is in `R`.

A client all of whose steps are of some form in every world of the invariant
need not be looked at again (`Safe.within`): what its steps do follows from
their form and from the invariant before and after. What is left are the clients
that owe it to their tokens that a branch is not taken.

`steps_in` is the soundness theorem: from every reachable pool, every step of
every client is in `R`. `exists_change` is what it is for: what is
true at first and false at last has changed in one of the steps.
-/

namespace Interleave

variable {ο ℓ σ ι τ α β : Type}

namespace Discipline

variable (D : Discipline ο σ τ)

/-- The client keeps to the discipline, and its steps are in `R`. -/
def SafeIn (R : ℓ → σ → σ → Prop) (o : ο) (K : σ → Prop) (Q : α → Set τ → Prop) :
    Set τ → Prog ℓ σ ι α → Prop
  | T, .ret a => Q a T
  | _, .halt => True
  | T, .act l f k => ∀ s, D.inv s → K s → (∀ t ∈ T, D.owns t s) →
      R l s (f s) ∧ ∃ T', D.Trades o T T' s (f s) ∧ SafeIn R o K Q T' (k s)
  | T, .ask k => ∀ i, SafeIn R o K Q T (k i)

variable {D} {R : ℓ → σ → σ → Prop} {o : ο} {K : σ → Prop} {T : Set τ}

/-- A client whose steps are in `R` and keep to the discipline keeps to the discipline. -/
theorem SafeIn.safe {p : Prog ℓ σ ι α} {Q : α → Set τ → Prop} (hp : D.SafeIn R o K Q T p) :
    D.Safe o K Q T p := by
  induction p generalizing T with
  | ret a => exact hp
  | halt => trivial
  | act l f k ih =>
    intro s hs hK hT
    obtain ⟨-, T', htr, hk⟩ := hp s hs hK hT
    exact ⟨T', htr, ih s hk⟩
  | ask k ih => exact fun i => ih i (hp i)

/-- A sequence keeps to the discipline and to `R` if its parts do. -/
theorem SafeIn.bind {p : Prog ℓ σ ι α} {g : α → Prog ℓ σ ι β} {Q : α → Set τ → Prop}
    {Q' : β → Set τ → Prop} (hp : D.SafeIn R o K Q T p)
    (hg : ∀ a T', Q a T' → D.SafeIn R o K Q' T' (g a)) : D.SafeIn R o K Q' T (p.bind g) := by
  induction p generalizing T with
  | ret a => exact hg a T hp
  | halt => trivial
  | act l f k ih =>
    intro s hs hK hT
    obtain ⟨hR, T', htr, hk⟩ := hp s hs hK hT
    exact ⟨hR, T', htr, ih s hk⟩
  | ask k ih => exact fun i => ih i (hp i)

/-- Tokens may be given up at any time, here too. -/
theorem SafeIn.weaken {T' : Set τ} {p : Prog ℓ σ ι α} {Q : α → Set τ → Prop}
    (hp : D.SafeIn R o K Q T p) (hsub : T ⊆ T') (hQ : ∀ a, Q a T → Q a T') :
    D.SafeIn R o K Q T' p := by
  induction p with
  | ret a => exact hQ a hp
  | halt => trivial
  | act l f k ih =>
    intro s hs hK hT
    obtain ⟨hR, T'', htr, hk⟩ := hp s hs hK fun t ht => hT t (hsub ht)
    refine ⟨hR, T'', ⟨htr.inv, htr.moves, fun t ht => htr.frame t fun h => ht (hsub h), htr.owns,
      htr.mine, fun t ht hnot => htr.fresh t ht fun h => hnot (hsub h)⟩, hk⟩
  | ask k ih => exact fun i => ih i (hp i)

/-- A client that keeps to the discipline, and of whose steps `Always` says enough, has its steps in
`R`. -/
theorem Safe.within {G : ℓ → σ → σ → Prop} {p : Prog ℓ σ ι α} {Q : α → Set τ → Prop}
    {Q' : α → Prop} (hp : D.Safe o K Q T p)
    (hG : Prog.Always (fun _ s => D.inv s ∧ K s) G Q' p)
    (hR : ∀ l s s', D.inv s → D.inv s' → G l s s' → R l s s') : D.SafeIn R o K Q T p := by
  induction p generalizing T with
  | ret a => exact hp
  | halt => trivial
  | act l f k ih =>
    intro s hs hK hT
    obtain ⟨T', htr, hk⟩ := hp s hs hK hT
    obtain ⟨hstep, hrest⟩ := hG s ⟨hs, hK⟩
    exact ⟨hR l s _ hs htr.inv hstep, T', htr, ih s hk hrest⟩
  | ask k ih => exact fun i => ih i (hp i) (hG i)

/-! ### Soundness -/

/-- What launching a client must establish: that it keeps to the discipline, and takes steps of the
form `R` only. -/
def LaunchIn (D : Discipline ο σ τ) (R : ℓ → σ → σ → Prop)
    (launch : σ → ο → Prog ℓ σ ι Unit → σ → Prop) : Prop :=
  ∀ w o p w', D.inv w → launch w o p w' → ∃ T, D.Trades o ∅ T w w' ∧
    ∃ K, D.Stable o K ∧ K w' ∧ D.SafeIn R o K (fun _ _ => True) T p

/-- Launches that establish more establish what the discipline asks for. -/
theorem LaunchIn.ok {launch : σ → ο → Prog ℓ σ ι Unit → σ → Prop} (h : D.LaunchIn R launch) :
    D.LaunchOk launch := by
  intro w o p w' hinv hl
  obtain ⟨T, htr, K, hK, hKw, hsafe⟩ := h w o p w' hinv hl
  exact ⟨T, htr, K, hK, hKw, hsafe.safe⟩

/-- Everybody keeps to the discipline, and takes steps of the form `R` only. -/
structure KeptIn (D : Discipline ο σ τ) (R : ℓ → σ → σ → Prop) (c : Pool ο ℓ σ ι)
    (hold : ℕ → Set τ) : Prop where
  /-- no token is in two hands -/
  kept : D.Kept c hold
  /-- every client goes on in `R` -/
  steps : ∀ i th, c.threads i = some th → ∃ K, D.Stable th.owner K ∧ K c.world ∧
    D.SafeIn R th.owner K (fun _ _ => True) (hold i) th.prog

variable {c c' : Pool ο ℓ σ ι} {hold : ℕ → Set τ}

/-- One client goes on with a trade while all others wait: the pool is kept, and in `R`. -/
theorem KeptIn.trade (h : D.KeptIn R c hold) {i : ℕ} {p' : Prog ℓ σ ι Unit} {w' : σ}
    {T' : Set τ} (htr : D.Trades o (hold i) T' c.world w')
    (hsafe : ∃ K, D.Stable o K ∧ K w' ∧ D.SafeIn R o K (fun _ _ => True) T' p') :
    D.KeptIn R ⟨w', Function.update c.threads i (some ⟨o, p'⟩)⟩ (Function.update hold i T') := by
  refine ⟨h.kept.trade htr (hsafe.imp fun K hK => ⟨hK.1, hK.2.1, hK.2.2.safe⟩), fun j th hj => ?_⟩
  by_cases hji : j = i
  · subst hji
    obtain rfl : th = ⟨o, p'⟩ := by simpa using hj.symm
    rw [Function.update_self]
    exact hsafe
  · obtain ⟨K, hK, hKw, hs⟩ := h.steps j th (by simpa [hji] using hj)
    rw [Function.update_of_ne hji]
    exact ⟨K, hK, hK _ _ (htr.moves _) hKw, hs⟩

/-- A client that stops leaves a pool that is kept, and in `R`. -/
theorem KeptIn.stop (h : D.KeptIn R c hold) (i : ℕ) :
    D.KeptIn R ⟨c.world, Function.update c.threads i none⟩ (Function.update hold i ∅) := by
  refine ⟨h.kept.stop i, fun j th hj => ?_⟩
  by_cases hji : j = i
  · subst hji
    simp at hj
  · rw [Function.update_of_ne hji]
    exact h.steps j th (by simpa [hji] using hj)

/-- One move of the system: everybody goes on in `R`, and if a client has taken a step, this step is
in `R`, with its own label. -/
theorem KeptIn.move {launch : σ → ο → Prog ℓ σ ι Unit → σ → Prop}
    {env : Pool ο ℓ σ ι → σ → Prop} (hL : D.LaunchIn R launch) (hE : D.EnvOk env)
    (h : D.KeptIn R c hold) {e : Option (Prog.Event ℓ σ)} (hmove : Pool.Move launch env c e c') :
    (∃ hold', D.KeptIn R c' hold') ∧ ∀ ev, e = some ev → R ev.label ev.pre ev.post := by
  cases hmove with
  | launch hnone hl =>
    obtain ⟨T, htr, hsafe⟩ := hL _ _ _ _ h.kept.inv hl
    rw [← h.kept.nobody _ hnone] at htr
    exact ⟨⟨_, h.trade htr hsafe⟩, fun _ he => by cases he⟩
  | act hth =>
    obtain ⟨K, hK, hKw, hsafe⟩ := h.steps _ _ hth
    obtain ⟨hR, T', htr, hk⟩ := hsafe _ h.kept.inv hKw (h.kept.owns _)
    refine ⟨⟨_, h.trade htr ⟨K, hK, hK _ _ (htr.moves _) hKw, hk⟩⟩, fun _ he => ?_⟩
    cases he
    exact hR
  | ask i hth =>
    obtain ⟨K, hK, hKw, hsafe⟩ := h.steps _ _ hth
    have htr := Trades.refl h.kept.inv (h.kept.owns _) (h.kept.mine _ _ hth)
    exact ⟨⟨_, h.trade htr ⟨K, hK, hKw, hsafe i⟩⟩, fun _ he => by cases he⟩
  | stop => exact ⟨⟨_, h.stop _⟩, fun _ he => by cases he⟩
  | env henv =>
    refine ⟨⟨hold, h.kept.drift hE henv, fun j th hj => ?_⟩, fun _ he => by cases he⟩
    obtain ⟨K, hK, hKw, hs⟩ := h.steps j th hj
    exact ⟨K, hK, hK _ _ ((hE _ _ h.kept.inv henv).2 j th hj).1 hKw, hs⟩

/-- In every reachable pool everybody keeps to the discipline and to `R`. -/
theorem reachable_keptIn {launch : σ → ο → Prog ℓ σ ι Unit → σ → Prop}
    {env : Pool ο ℓ σ ι → σ → Prop} (hL : D.LaunchIn R launch) (hE : D.EnvOk env) {w : σ}
    (hw : D.inv w) (h : Pool.Reachable launch env w c) : ∃ hold, D.KeptIn R c hold := by
  induction h with
  | start =>
    refine ⟨fun _ => ∅, ⟨hw, fun _ _ _ => Set.disjoint_empty _, fun _ _ => rfl, ?_, ?_, ?_⟩, ?_⟩
    · exact fun _ _ ht => absurd ht (Set.notMem_empty _)
    · intro i th hth
      cases hth
    · intro i th hth
      cases hth
    · intro i th hth
      cases hth
  | next _ hstep ih =>
    obtain ⟨hold, hk⟩ := ih
    obtain ⟨e, hmove⟩ := hstep.move
    exact (hk.move hL hE hmove).1

/-- **Soundness**: every step that a client takes from a reachable pool is in `R`, with its label. -/
theorem steps_in {launch : σ → ο → Prog ℓ σ ι Unit → σ → Prop}
    {env : Pool ο ℓ σ ι → σ → Prop} (hL : D.LaunchIn R launch) (hE : D.EnvOk env) {w : σ}
    (hw : D.inv w) (h : Pool.Reachable launch env w c) {ev : Prog.Event ℓ σ}
    (hmove : Pool.Move launch env c (some ev) c') : R ev.label ev.pre ev.post := by
  obtain ⟨hold, hk⟩ := reachable_keptIn hL hE hw h
  exact (hk.move hL hE hmove).2 ev rfl

end Discipline

/-- What holds at first and does not hold at last has ended with one of the steps of the run. -/
theorem exists_change {γ : Type} {S : γ → γ → Prop} {P : γ → Prop} {a b : γ}
    (hrun : Relation.ReflTransGen S a b) (ha : P a) (hb : ¬ P b) :
    ∃ c d, Relation.ReflTransGen S a c ∧ S c d ∧ Relation.ReflTransGen S d b ∧ P c ∧ ¬ P d := by
  induction hrun with
  | refl => exact absurd ha hb
  | @tail c d hac hcd ih =>
    by_cases hc : P c
    · exact ⟨c, d, hac, hcd, .refl, hc, hb⟩
    · obtain ⟨c', d', h₁, h₂, h₃, h₄, h₅⟩ := ih hc
      exact ⟨c', d', h₁, h₂, h₃.tail hcd, h₄, h₅⟩

end Interleave
