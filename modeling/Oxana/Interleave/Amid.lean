import Oxana.Interleave.Pool

/-!
# One client amid others

For results about one call while a pool of other clients is at work. The call
is followed step by step; between two of its steps the pool moves as it likes,
new clients included.

* `Amid.trace` forgets about the others;
* `Amid.stable` and `Amid.later` are the rules for facts: what the others never
  undo and the call leaves alone stays true.
-/

namespace Interleave

variable {ο ℓ σ ι α : Type}

/-- `Amid launch env p c tr p' c'`: amid the pool `c` the call `p` takes the
steps `tr`; it is then at `p'`, and the pool is `c'`. -/
inductive Amid (launch : σ → ο → Prog ℓ σ ι Unit → σ → Prop) (env : Pool ο ℓ σ ι → σ → Prop) :
    Prog ℓ σ ι α → Pool ο ℓ σ ι → List (Prog.Event ℓ σ) → Prog ℓ σ ι α → Pool ο ℓ σ ι → Prop where
  | refl (p : Prog ℓ σ ι α) (c : Pool ο ℓ σ ι) : Amid launch env p c [] p c
  | act {l : ℓ} {f : σ → σ} {k : σ → Prog ℓ σ ι α} {p' : Prog ℓ σ ι α} {c c' : Pool ο ℓ σ ι}
      {tr : List (Prog.Event ℓ σ)} :
      Amid launch env (k c.world) ⟨f c.world, c.threads⟩ tr p' c' →
      Amid launch env (.act l f k) c (⟨l, c.world, f c.world⟩ :: tr) p' c'
  | ask {k : ι → Prog ℓ σ ι α} {p' : Prog ℓ σ ι α} {c c' : Pool ο ℓ σ ι}
      {tr : List (Prog.Event ℓ σ)} (i : ι) :
      Amid launch env (k i) c tr p' c' → Amid launch env (.ask k) c tr p' c'
  | others {p p' : Prog ℓ σ ι α} {c c₁ c' : Pool ο ℓ σ ι} {tr : List (Prog.Event ℓ σ)} :
      Pool.Step launch env c c₁ → Amid launch env p c₁ tr p' c' → Amid launch env p c tr p' c'

namespace Amid

variable {launch : σ → ο → Prog ℓ σ ι Unit → σ → Prop} {env : Pool ο ℓ σ ι → σ → Prop}
  {p p' : Prog ℓ σ ι α} {c c' : Pool ο ℓ σ ι} {tr tr' : List (Prog.Event ℓ σ)}

/-- The steps that the call takes amid the others are a trace of the call. -/
theorem trace (h : Amid launch env p c tr p' c') : Prog.Trace p tr p' := by
  induction h with
  | refl p c => exact .refl p
  | act _ ih => exact .act ih
  | ask i _ ih => exact .ask ih
  | others _ _ ih => exact ih

/-- A call amid others can be cut after any of its steps: it gets to some point first, and goes on
from there. -/
theorem split (h : Amid launch env p c (tr ++ tr') p' c') :
    ∃ p₁ c₁, Amid launch env p c tr p₁ c₁ ∧ Amid launch env p₁ c₁ tr' p' c' := by
  generalize htr : tr ++ tr' = whole at h
  induction h generalizing tr with
  | refl p c =>
    obtain ⟨rfl, rfl⟩ := List.append_eq_nil_iff.mp htr
    exact ⟨p, c, .refl p c, .refl p c⟩
  | act h ih =>
    rcases tr with _ | ⟨e, tr⟩
    · obtain rfl : tr' = _ := htr
      exact ⟨_, _, .refl _ _, .act h⟩
    · obtain ⟨rfl, htail⟩ := List.cons.inj htr
      obtain ⟨p₁, c₁, h₁, h₂⟩ := ih htail
      exact ⟨p₁, c₁, .act h₁, h₂⟩
  | ask i h ih =>
    obtain ⟨p₁, c₁, h₁, h₂⟩ := ih htr
    exact ⟨p₁, c₁, .ask i h₁, h₂⟩
  | others hs h ih =>
    obtain ⟨p₁, c₁, h₁, h₂⟩ := ih htr
    exact ⟨p₁, c₁, .others hs h₁, h₂⟩

/-- Before the call goes on, the others may take several steps. -/
theorem others_steps {c₁ : Pool ο ℓ σ ι}
    (hs : Relation.ReflTransGen (Pool.Step launch env) c c₁)
    (h : Amid launch env p c₁ tr p' c') : Amid launch env p c tr p' c' := by
  induction hs using Relation.ReflTransGen.head_induction_on with
  | refl => exact h
  | head hstep _ ih => exact .others hstep ih

/-- The call may take several steps, one right after the other, before the others go on. -/
theorem steps {q : Prog ℓ σ ι α} {s' : σ} (ht : Prog.Trace p tr q)
    (hc : Prog.Chained c.world tr s') (h : Amid launch env q ⟨s', c.threads⟩ tr' p' c') :
    Amid launch env p c (tr ++ tr') p' c' := by
  induction ht generalizing c with
  | refl p =>
    obtain rfl : c.world = s' := hc
    exact h
  | @act l f k s tr q _ ih =>
    obtain ⟨hpre, hrest⟩ := hc
    replace hpre : s = c.world := hpre
    subst hpre
    exact .act (ih (c := ⟨f c.world, c.threads⟩) hrest h)
  | ask _ ih => exact .ask _ (ih hc h)

/-! ## Facts -/

/-- What every step of the others keeps holds when the call takes its next step, even if it is about
the others' programs as well as the world. -/
theorem meets {P : Pool ο ℓ σ ι → Prop}
    (hothers : ∀ c c₁, P c → Pool.Step launch env c c₁ → P c₁) {e : Prog.Event ℓ σ}
    (h : Amid launch env p c (e :: tr) p' c') (hc : P c) :
    ∃ p₁ threads, P ⟨e.pre, threads⟩ ∧ Amid launch env p₁ ⟨e.post, threads⟩ tr p' c' := by
  generalize htr : e :: tr = whole at h
  induction h with
  | refl p c => cases htr
  | @act l f k _ c _ _ h _ =>
    obtain ⟨rfl, rfl⟩ := List.cons.inj htr
    exact ⟨k c.world, c.threads, hc, h⟩
  | ask i _ ih => exact ih hc htr
  | others hs _ ih => exact ih (hothers _ _ hc hs) htr

section Facts

variable {E : ℓ → σ → Prop} {G : ℓ → σ → σ → Prop} {I : σ → Prop}

/-- A fact about the world that no step of the others undoes is true when the call takes its next
step. -/
theorem next (hI : ∀ l w, I w → E l w) (hG : ∀ l w w', I w → G l w w' → I w')
    (hL : ∀ w o p w', I w → launch w o p w' → I w' ∧ Prog.Always E G (fun _ => True) p)
    (hE : ∀ c w', I c.world → env c w' → I w') {e : Prog.Event ℓ σ}
    (h : Amid launch env p c (e :: tr) p' c') (hw : I c.world) (hc : c.All E G) :
    I e.pre ∧ ∃ p₁ c₁, c₁.world = e.post ∧ c₁.All E G ∧ Amid launch env p₁ c₁ tr p' c' := by
  obtain ⟨p₁, threads, ⟨hpre, hall⟩, hrest⟩ := h.meets
    (P := fun c => I c.world ∧ c.All E G)
    (fun c c₁ hP hs => hs.keeps hI hG hL hE hP.1 hP.2) ⟨hw, hc⟩
  exact ⟨hpre, p₁, ⟨e.post, threads⟩, rfl, hall, hrest⟩

/-- A fact about the world that no step of the others undoes, nor any step of the call itself, is
true at every step of the call and in the end. -/
theorem stable (hI : ∀ l w, I w → E l w) (hG : ∀ l w w', I w → G l w w' → I w')
    (hL : ∀ w o p w', I w → launch w o p w' → I w' ∧ Prog.Always E G (fun _ => True) p)
    (hE : ∀ c w', I c.world → env c w' → I w')
    (h : Amid launch env p c tr p' c') (hw : I c.world) (hc : c.All E G)
    (htr : ∀ e ∈ tr, I e.pre → I e.post) : I c'.world ∧ c'.All E G := by
  induction h with
  | refl p c => exact ⟨hw, hc⟩
  | act _ ih =>
    exact ih (htr _ (List.mem_cons_self ..) hw) hc fun e he => htr e (List.mem_cons_of_mem _ he)
  | ask i _ ih => exact ih hw hc htr
  | others hs _ ih =>
    obtain ⟨hw', hc'⟩ := hs.keeps hI hG hL hE hw hc
    exact ih hw' hc' htr

/-- A fact about the world that nobody undoes is true at a step of the call if it was true at an
earlier one. -/
theorem later (hI : ∀ l w, I w → E l w) (hG : ∀ l w w', I w → G l w w' → I w')
    (hL : ∀ w o p w', I w → launch w o p w' → I w' ∧ Prog.Always E G (fun _ => True) p)
    (hE : ∀ c w', I c.world → env c w' → I w') {e : Prog.Event ℓ σ}
    (h : Amid launch env p c (tr ++ e :: tr') p' c') (hw : I c.world) (hc : c.All E G)
    (htr : ∀ e ∈ tr, I e.pre → I e.post) :
    I e.pre ∧ ∃ p₁ c₁, c₁.world = e.post ∧ c₁.All E G ∧ Amid launch env p₁ c₁ tr' p' c' := by
  obtain ⟨p₁, c₁, h₁, h₂⟩ := h.split
  obtain ⟨hw₁, hc₁⟩ := stable hI hG hL hE h₁ hw hc htr
  exact next hI hG hL hE h₂ hw₁ hc₁

end Facts

end Amid

end Interleave
