import Oxana.Interleave.Pool

/-!
# Two clients

For results about what one client does to another. A run of two clients is a
list of steps, each of one side, that follow each other; either side may stop
anywhere.

* `Run.split` cuts a run in two;
* `Run.trace_left` forgets about the right client;
* `Run.always` is the rule for invariants: what each side's steps keep, runs
  keep;
* `Run.safe` is the rule for one side that owns tokens while the other leaves
  the world alone.
-/

namespace Interleave

variable {ο ℓ σ ι τ α β : Type}

/-- Which of the two clients of a run takes a step. -/
inductive Side where
  | left
  | right
  deriving DecidableEq, Repr

/-- `Run p q s tr p' q' s'`: from `s` the two clients take the steps `tr`, and
are then at `p'` and `q'`. -/
inductive Run : Prog ℓ σ ι α → Prog ℓ σ ι β → σ → List (Side × Prog.Event ℓ σ) →
    Prog ℓ σ ι α → Prog ℓ σ ι β → σ → Prop where
  | refl (p : Prog ℓ σ ι α) (q : Prog ℓ σ ι β) (s : σ) : Run p q s [] p q s
  | left {l : ℓ} {f : σ → σ} {k : σ → Prog ℓ σ ι α} {p' : Prog ℓ σ ι α} {q q' : Prog ℓ σ ι β}
      {s s' : σ} {tr : List (Side × Prog.Event ℓ σ)} : Run (k s) q (f s) tr p' q' s' →
      Run (.act l f k) q s ((.left, ⟨l, s, f s⟩) :: tr) p' q' s'
  | right {l : ℓ} {f : σ → σ} {k : σ → Prog ℓ σ ι β} {p p' : Prog ℓ σ ι α} {q' : Prog ℓ σ ι β}
      {s s' : σ} {tr : List (Side × Prog.Event ℓ σ)} : Run p (k s) (f s) tr p' q' s' →
      Run p (.act l f k) s ((.right, ⟨l, s, f s⟩) :: tr) p' q' s'
  | askLeft {k : ι → Prog ℓ σ ι α} {p' : Prog ℓ σ ι α} {q q' : Prog ℓ σ ι β} {s s' : σ}
      {tr : List (Side × Prog.Event ℓ σ)} (i : ι) : Run (k i) q s tr p' q' s' →
      Run (.ask k) q s tr p' q' s'
  | askRight {k : ι → Prog ℓ σ ι β} {p p' : Prog ℓ σ ι α} {q' : Prog ℓ σ ι β} {s s' : σ}
      {tr : List (Side × Prog.Event ℓ σ)} (i : ι) : Run p (k i) s tr p' q' s' →
      Run p (.ask k) s tr p' q' s'

namespace Run

variable {p p' : Prog ℓ σ ι α} {q q' : Prog ℓ σ ι β} {s s' : σ}

/-- A run can be cut after any of its steps: it is a run up to there, followed by a run from there
on. -/
theorem split {tr tr' : List (Side × Prog.Event ℓ σ)} (h : Run p q s (tr ++ tr') p' q' s') :
    ∃ p₁ q₁ s₁, Run p q s tr p₁ q₁ s₁ ∧ Run p₁ q₁ s₁ tr' p' q' s' := by
  generalize htr : tr ++ tr' = whole at h
  induction h generalizing tr with
  | refl p q s =>
    obtain ⟨rfl, rfl⟩ := List.append_eq_nil_iff.mp htr
    exact ⟨p, q, s, .refl p q s, .refl p q s⟩
  | left h ih =>
    rcases tr with _ | ⟨e, tr⟩
    · obtain rfl : tr' = _ := htr
      exact ⟨_, _, _, .refl _ _ _, .left h⟩
    · obtain ⟨rfl, htail⟩ := List.cons.inj htr
      obtain ⟨p₁, q₁, s₁, h₁, h₂⟩ := ih htail
      exact ⟨p₁, q₁, s₁, .left h₁, h₂⟩
  | right h ih =>
    rcases tr with _ | ⟨e, tr⟩
    · obtain rfl : tr' = _ := htr
      exact ⟨_, _, _, .refl _ _ _, .right h⟩
    · obtain ⟨rfl, htail⟩ := List.cons.inj htr
      obtain ⟨p₁, q₁, s₁, h₁, h₂⟩ := ih htail
      exact ⟨p₁, q₁, s₁, .right h₁, h₂⟩
  | askLeft i h ih =>
    obtain ⟨p₁, q₁, s₁, h₁, h₂⟩ := ih htr
    exact ⟨p₁, q₁, s₁, .askLeft i h₁, h₂⟩
  | askRight i h ih =>
    obtain ⟨p₁, q₁, s₁, h₁, h₂⟩ := ih htr
    exact ⟨p₁, q₁, s₁, .askRight i h₁, h₂⟩

/-- A run that goes on where another one has ended makes one run with it. -/
theorem append {p₁ : Prog ℓ σ ι α} {q₁ : Prog ℓ σ ι β} {s₁ : σ}
    {tr tr' : List (Side × Prog.Event ℓ σ)} (h : Run p q s tr p₁ q₁ s₁)
    (h' : Run p₁ q₁ s₁ tr' p' q' s') : Run p q s (tr ++ tr') p' q' s' := by
  induction h with
  | refl p q s => exact h'
  | left _ ih => exact .left (ih h')
  | right _ ih => exact .right (ih h')
  | askLeft i _ ih => exact .askLeft i (ih h')
  | askRight i _ ih => exact .askRight i (ih h')

/-- A trace of the left client that fits the world is a run of both in which only the left client
moves. -/
theorem of_left {tr : List (Prog.Event ℓ σ)} (ht : Prog.Trace p tr p')
    (hc : Prog.Chained s tr s') (q : Prog ℓ σ ι β) :
    Run p q s (tr.map fun e => (.left, e)) p' q s' := by
  induction ht generalizing s with
  | refl p =>
    obtain rfl : s = s' := hc
    exact .refl p q s
  | @act l f k s₀ tr p' _ ih =>
    obtain ⟨hpre, hrest⟩ := hc
    replace hpre : s₀ = s := hpre
    subst hpre
    exact .left (ih hrest)
  | @ask k i tr p' _ ih => exact .askLeft i (ih hc)

/-- A trace of the right client that fits the world is a run of both in which only the right client
moves. -/
theorem of_right {tr : List (Prog.Event ℓ σ)} (ht : Prog.Trace q tr q')
    (hc : Prog.Chained s tr s') (p : Prog ℓ σ ι α) :
    Run p q s (tr.map fun e => (.right, e)) p q' s' := by
  induction ht generalizing s with
  | refl q =>
    obtain rfl : s = s' := hc
    exact .refl p q s
  | @act l f k s₀ tr q' _ ih =>
    obtain ⟨hpre, hrest⟩ := hc
    replace hpre : s₀ = s := hpre
    subst hpre
    exact .right (ih hrest)
  | @ask k i tr q' _ ih => exact .askRight i (ih hc)

/-- The steps of the left client, in the order of the run. -/
def lefts (tr : List (Side × Prog.Event ℓ σ)) : List (Prog.Event ℓ σ) :=
  (tr.filter fun e => e.1 = .left).map (·.2)

@[simp] theorem lefts_append (tr tr' : List (Side × Prog.Event ℓ σ)) :
    lefts (tr ++ tr') = lefts tr ++ lefts tr' := by
  simp [lefts]

@[simp] theorem lefts_left (e : Prog.Event ℓ σ) (tr : List (Side × Prog.Event ℓ σ)) :
    lefts ((.left, e) :: tr) = e :: lefts tr := rfl

/-- The left client's steps are those of the run that are marked as such. -/
theorem mem_lefts {tr : List (Side × Prog.Event ℓ σ)} {e : Prog.Event ℓ σ} :
    e ∈ lefts tr ↔ (.left, e) ∈ tr := by
  constructor
  · intro h
    obtain ⟨⟨side, e'⟩, he', rfl⟩ := List.mem_map.mp h
    obtain ⟨hmem, hside⟩ := List.mem_filter.mp he'
    obtain rfl : side = .left := of_decide_eq_true hside
    exact hmem
  · intro h
    exact List.mem_map.mpr ⟨_, List.mem_filter.mpr ⟨h, rfl⟩, rfl⟩

/-- The steps of the right client, in the order of the run. -/
def rights (tr : List (Side × Prog.Event ℓ σ)) : List (Prog.Event ℓ σ) :=
  (tr.filter fun e => e.1 = .right).map (·.2)

/-- Where the left client has done nothing, the right one has done it all, and a run is nothing but
its steps. -/
theorem eq_rights {tr : List (Side × Prog.Event ℓ σ)} (h : lefts tr = []) :
    tr = (rights tr).map fun e => (.right, e) := by
  induction tr with
  | nil => rfl
  | cons e tr ih =>
    obtain ⟨side, e⟩ := e
    cases side with
    | left => cases h
    | right => exact congrArg ((Side.right, e) :: ·) (ih h)

/-- What the right client has done before the first step of the left one: the run begins with steps
of the right client, and then comes this step. -/
theorem eq_left {tr : List (Side × Prog.Event ℓ σ)} {e : Prog.Event ℓ σ}
    {es : List (Prog.Event ℓ σ)} (h : lefts tr = e :: es) :
    ∃ u tr', tr = (u.map fun e => (Side.right, e)) ++ (.left, e) :: tr' ∧ lefts tr' = es ∧
      rights tr = u ++ rights tr' := by
  induction tr with
  | nil => cases h
  | cons e' tr ih =>
    obtain ⟨side, e'⟩ := e'
    cases side with
    | left =>
      obtain ⟨rfl, hrest⟩ := List.cons.inj h
      exact ⟨[], tr, rfl, hrest, rfl⟩
    | right =>
      obtain ⟨u, tr', rfl, hrest, hu⟩ := ih h
      exact ⟨e' :: u, tr', rfl, hrest, congrArg (e' :: ·) hu⟩

/-- The steps of the left client within a run are a trace of the left client. -/
theorem trace_left {tr : List (Side × Prog.Event ℓ σ)} (h : Run p q s tr p' q' s') :
    Prog.Trace p (lefts tr) p' := by
  induction h with
  | refl p q s => exact .refl p
  | left _ ih => exact .act ih
  | right _ ih => exact ih
  | askLeft i _ ih => exact .ask ih
  | askRight i _ ih => exact ih

/-- The right client's steps are those of the run that are marked as such. -/
theorem mem_rights {tr : List (Side × Prog.Event ℓ σ)} {e : Prog.Event ℓ σ} :
    e ∈ rights tr ↔ (.right, e) ∈ tr := by
  constructor
  · intro h
    obtain ⟨⟨side, e'⟩, he', rfl⟩ := List.mem_map.mp h
    obtain ⟨hmem, hside⟩ := List.mem_filter.mp he'
    obtain rfl : side = .right := of_decide_eq_true hside
    exact hmem
  · intro h
    exact List.mem_map.mpr ⟨_, List.mem_filter.mpr ⟨h, rfl⟩, rfl⟩

/-- The steps of the right client within a run are a trace of the right client. -/
theorem trace_right {tr : List (Side × Prog.Event ℓ σ)} (h : Run p q s tr p' q' s') :
    Prog.Trace q (rights tr) q' := by
  induction h with
  | refl p q s => exact .refl q
  | left _ ih => exact ih
  | right _ ih => exact .act ih
  | askLeft i _ ih => exact ih
  | askRight i _ ih => exact .ask ih

/-- Each step of a run starts where the one before it has ended, whoever has taken it. -/
theorem chained {tr : List (Side × Prog.Event ℓ σ)} (h : Run p q s tr p' q' s') :
    Prog.Chained s (tr.map (·.2)) s' := by
  induction h with
  | refl p q s => rfl
  | left _ ih => exact ⟨rfl, ih⟩
  | right _ ih => exact ⟨rfl, ih⟩
  | askLeft i _ ih => exact ih
  | askRight i _ ih => exact ih

/-- What the right client does before, between and after the two steps of the left one: its steps
fall into three parts, with a step of the left client in between. -/
theorem around {tr : List (Side × Prog.Event ℓ σ)} {a b : Prog.Event ℓ σ}
    (h : Run p q s tr p' q' s') (hlefts : lefts tr = [a, b]) :
    ∃ u₁ u₂ u₃, rights tr = u₁ ++ (u₂ ++ u₃) ∧ Prog.Chained s u₁ a.pre ∧
      Prog.Chained a.post u₂ b.pre ∧ Prog.Chained b.post u₃ s' := by
  have hmap : ∀ u : List (Prog.Event ℓ σ),
      (u.map fun e => (Side.right, e)).map (·.2) = u := by
    intro u
    rw [List.map_map]
    exact List.map_id u
  obtain ⟨u₁, tr₁, rfl, hlefts₁, hu₁⟩ := eq_left hlefts
  obtain ⟨u₂, tr₂, rfl, hlefts₂, hu₂⟩ := eq_left hlefts₁
  have hchain := h.chained
  rw [eq_rights hlefts₂] at hchain
  simp only [List.map_append, List.map_cons, hmap] at hchain
  obtain ⟨s₁, h₁, rfl, hrest⟩ := hchain.split
  obtain ⟨s₂, h₂, rfl, h₃⟩ := hrest.split
  exact ⟨u₁, u₂, rights tr₂, by rw [hu₁, hu₂], h₁, h₂, h₃⟩

/-! ## Invariants -/

variable {I : σ → Prop} {El Er : ℓ → σ → Prop} {Gl Gr : ℓ → σ → σ → Prop}
  {tr : List (Side × Prog.Event ℓ σ)}

/-- An invariant holds all along a run if it holds at first, and if every step that either client
may take in a world where it holds keeps it. -/
theorem always (h : Run p q s tr p' q' s') (hs : I s) (hEl : ∀ l s, I s → El l s)
    (hEr : ∀ l s, I s → Er l s) (hp : Prog.Always El Gl (fun _ => True) p)
    (hq : Prog.Always Er Gr (fun _ => True) q)
    (hleft : ∀ e : Prog.Event ℓ σ, (.left, e) ∈ tr → I e.pre → Gl e.label e.pre e.post → I e.post)
    (hright : ∀ e : Prog.Event ℓ σ, (.right, e) ∈ tr → I e.pre → Gr e.label e.pre e.post →
      I e.post) :
    I s' ∧ Prog.Always El Gl (fun _ => True) p' ∧ Prog.Always Er Gr (fun _ => True) q' := by
  induction h with
  | refl p q s => exact ⟨hs, hp, hq⟩
  | left _ ih =>
    obtain ⟨hG, hk⟩ := hp _ (hEl _ _ hs)
    exact ih (hleft _ (List.mem_cons_self ..) hs hG) hk hq
      (fun e he => hleft e (List.mem_cons_of_mem _ he))
      fun e he => hright e (List.mem_cons_of_mem _ he)
  | right _ ih =>
    obtain ⟨hG, hk⟩ := hq _ (hEr _ _ hs)
    exact ih (hright _ (List.mem_cons_self ..) hs hG) hp hk
      (fun e he => hleft e (List.mem_cons_of_mem _ he))
      fun e he => hright e (List.mem_cons_of_mem _ he)
  | askLeft i _ ih => exact ih hs (hp i) hq hleft hright
  | askRight i _ ih => exact ih hs hp (hq i) hleft hright

/-- A fact that was true at some step of a run, and that no step of either client undoes, is true in
the end. -/
theorem since {I : σ → Prop} {Gl Gr : ℓ → σ → σ → Prop} {e : Side × Prog.Event ℓ σ}
    (h : Run p q s tr p' q' s') (he : e ∈ tr) (hI : I e.2.pre)
    (hp : Prog.Always (fun _ _ => True) Gl (fun _ => True) p)
    (hq : Prog.Always (fun _ _ => True) Gr (fun _ => True) q)
    (hleft : ∀ l s s', Gl l s s' → I s → I s') (hright : ∀ l s s', Gr l s s' → I s → I s') :
    I s' := by
  induction h with
  | refl p q s => exact absurd he List.not_mem_nil
  | @left l f k p' q q' s s' tr h ih =>
    obtain ⟨hG, hk⟩ := hp s trivial
    rcases List.mem_cons.mp he with rfl | he
    · exact (h.always (hleft _ _ _ hG hI) (fun _ _ _ => trivial) (fun _ _ _ => trivial) hk hq
        (fun e _ hI hG => hleft _ _ _ hG hI) fun e _ hI hG => hright _ _ _ hG hI).1
    · exact ih he hk hq
  | @right l f k p p' q' s s' tr h ih =>
    obtain ⟨hG, hk⟩ := hq s trivial
    rcases List.mem_cons.mp he with rfl | he
    · exact (h.always (hright _ _ _ hG hI) (fun _ _ _ => trivial) (fun _ _ _ => trivial) hp hk
        (fun e _ hI hG => hleft _ _ _ hG hI) fun e _ hI hG => hright _ _ _ hG hI).1
    · exact ih he hp hk
  | askLeft i _ ih => exact ih he (hp i) hq
  | askRight i _ ih => exact ih he hp (hq i)

/-- If the next step of a run is one of the left client, it does what `Always` says, and the rest is
a run of what is left of the left client. -/
theorem next_left {e : Prog.Event ℓ σ}
    (h : Run p q s ((.left, e) :: tr) p' q' s') (hp : Prog.Always El Gl (fun _ => True) p)
    (hq : Prog.Always Er Gr (fun _ => True) q) (hE : El e.label s) :
    e.pre = s ∧ Gl e.label e.pre e.post ∧ ∃ p₁ q₁, Run p₁ q₁ e.post tr p' q' s' ∧
      Prog.Always El Gl (fun _ => True) p₁ ∧ Prog.Always Er Gr (fun _ => True) q₁ := by
  generalize htr : (Side.left, e) :: tr = whole at h
  induction h with
  | refl p q s => cases htr
  | left h _ =>
    obtain ⟨hhead, rfl⟩ := List.cons.inj htr
    obtain ⟨-, rfl⟩ := Prod.mk.inj hhead
    obtain ⟨hG, hk⟩ := hp _ hE
    exact ⟨rfl, hG, _, _, h, hk, hq⟩
  | right _ _ =>
    obtain ⟨hhead, -⟩ := List.cons.inj htr
    cases hhead
  | askLeft i _ ih => exact ih (hp i) hq hE htr
  | askRight i _ ih => exact ih hp (hq i) hE htr

/-- If the right client keeps to a discipline, and the steps of the left one leave the world alone,
the discipline's invariant holds all along, with the tokens that the right client has in the end. -/
theorem safe {D : Discipline ο σ τ} {o : ο} {K : σ → Prop} {Q : β → Set τ → Prop} {T : Set τ}
    (h : Run p q s tr p' q' s') (hs : D.inv s) (hK : D.Stable o K) (hKs : K s)
    (hT : ∀ t ∈ T, D.owns t s) (hq : D.Safe o K Q T q)
    (hleft : ∀ e : Prog.Event ℓ σ, (.left, e) ∈ tr → D.inv e.pre → e.post = e.pre) :
    D.inv s' ∧ ∀ e ∈ tr, D.inv e.2.pre := by
  have hcons : ∀ {e : Side × Prog.Event ℓ σ} {tr : List (Side × Prog.Event ℓ σ)} {s' : σ},
      D.inv e.2.pre → (D.inv s' ∧ ∀ e ∈ tr, D.inv e.2.pre) →
        D.inv s' ∧ ∀ e' ∈ e :: tr, D.inv e'.2.pre := by
    rintro e tr s' he ⟨hs', htr⟩
    refine ⟨hs', fun e' he' => ?_⟩
    rcases List.mem_cons.mp he' with rfl | he'
    · exact he
    · exact htr e' he'
  induction h generalizing T with
  | refl p q s => exact ⟨hs, fun _ he => absurd he List.not_mem_nil⟩
  | @left l f k p' q q' s s' tr _ ih =>
    have hstay : f s = s := hleft _ (List.mem_cons_self ..) hs
    rw [hstay] at ih
    exact hcons hs (ih hs hKs hT hq fun e he => hleft e (List.mem_cons_of_mem _ he))
  | right _ ih =>
    obtain ⟨T', htr, hk⟩ := hq _ hs hKs hT
    exact hcons hs (ih htr.inv (hK _ _ (htr.moves o) hKs) htr.owns hk
      fun e he => hleft e (List.mem_cons_of_mem _ he))
  | askLeft i _ ih => exact ih hs hKs hT hq hleft
  | askRight i _ ih => exact ih hs hKs hT (hq i) hleft

end Run

end Interleave
