import Oxana.Interleave.Pool

/-!
# Clients that nobody interferes with

What a client does when it takes its steps one after the other and nothing comes between: which
results it can return, and in which world. What the surroundings decide when they are asked is left
open, as far as it is `allowed`.
-/

namespace Interleave.Prog

variable {ℓ σ ι α β : Type} {allowed : ι → Prop}

/-- `Solo allowed p s a s'`: from the world `s` the client `p` can return `a` and leave `s'`. -/
def Solo (allowed : ι → Prop) : Prog ℓ σ ι α → σ → α → σ → Prop
  | ret b, s, a, s' => a = b ∧ s' = s
  | halt, _, _, _ => False
  | act _ f k, s, a, s' => Solo allowed (k s) (f s) a s'
  | ask k, s, a, s' => ∃ i, allowed i ∧ Solo allowed (k i) s a s'

/-- A sequence that runs alone runs its first part and then, in the world that is left, its second.
-/
theorem solo_bind {p : Prog ℓ σ ι α} {g : α → Prog ℓ σ ι β} {s s' : σ} {b : β} :
    Solo allowed (p.bind g) s b s' ↔
      ∃ a s₁, Solo allowed p s a s₁ ∧ Solo allowed (g a) s₁ b s' := by
  induction p generalizing s with
  | ret a =>
    constructor
    · exact fun h => ⟨a, s, ⟨rfl, rfl⟩, h⟩
    · rintro ⟨_, _, ⟨rfl, rfl⟩, h⟩
      exact h
  | halt => exact ⟨False.elim, fun ⟨_, _, h, _⟩ => h.elim⟩
  | act l f k ih => exact ih s
  | ask k ih =>
    constructor
    · rintro ⟨i, hi, h⟩
      obtain ⟨a, s₁, hk, hg⟩ := (ih i).mp h
      exact ⟨a, s₁, ⟨i, hi, hk⟩, hg⟩
    · rintro ⟨a, s₁, ⟨i, hi, hk⟩, hg⟩
      exact ⟨i, hi, (ih i).mpr ⟨a, s₁, hk, hg⟩⟩

/-- What a client can do with some of the choices it can do with more of them. -/
theorem Solo.mono {allowed' : ι → Prop} (hle : ∀ i, allowed i → allowed' i)
    {p : Prog ℓ σ ι α} {s s' : σ} {a : α} (h : Solo allowed p s a s') :
    Solo allowed' p s a s' := by
  induction p generalizing s with
  | ret b => exact h
  | halt => exact h
  | act l f k ih => exact ih s h
  | ask k ih =>
    obtain ⟨i, hi, h⟩ := h
    exact ⟨i, hle i hi, ih i h⟩

/-- A client that runs alone keeps what each of its steps keeps, and returns what `Always` says. -/
theorem Solo.keeps {p : Prog ℓ σ ι α} {I : σ → Prop} {Q : α → Prop} {s s' : σ} {a : α}
    (h : Solo allowed p s a s') (hp : Always (fun _ => I) (fun _ _ => I) Q p) (hs : I s) :
    I s' ∧ Q a := by
  induction p generalizing s with
  | ret b =>
    obtain ⟨rfl, rfl⟩ := h
    exact ⟨hs, hp⟩
  | halt => exact h.elim
  | act l f k ih =>
    obtain ⟨hstep, hk⟩ := hp s hs
    exact ih s h hk hstep
  | ask k ih =>
    obtain ⟨i, -, h⟩ := h
    exact ih i h (hp i) hs

/-- A client that runs alone, and only reads as long as `I` holds, leaves the world as it was if `I`
holds. -/
theorem Solo.reads {p : Prog ℓ σ ι α} {I : σ → Prop} {Q : α → Prop} {s s' : σ} {a : α}
    (h : Solo allowed p s a s') (hp : Always (fun _ => I) (fun _ s s' => s' = s) Q p) (hs : I s) :
    s' = s ∧ Q a := by
  have hstays : Always (fun _ t => t = s) (fun _ _ t => t = s) Q p :=
    hp.weaken (fun _ _ ht => ht ▸ hs) fun _ _ _ ht hsame => hsame.trans ht
  exact h.keeps hstays rfl

/-- A client that runs alone takes the steps of one of its traces, and these follow each other. -/
theorem Solo.trace {p : Prog ℓ σ ι α} {s s' : σ} {a : α} (h : Solo allowed p s a s') :
    ∃ tr, Trace p tr (ret a) ∧ Chained s tr s' := by
  induction p generalizing s with
  | ret b =>
    obtain ⟨rfl, rfl⟩ := h
    exact ⟨[], .refl _, rfl⟩
  | halt => exact h.elim
  | act l f k ih =>
    obtain ⟨tr, htr, hch⟩ := ih s h
    exact ⟨⟨l, s, f s⟩ :: tr, .act htr, rfl, hch⟩
  | ask k ih =>
    obtain ⟨i, -, h⟩ := h
    obtain ⟨tr, htr, hch⟩ := ih i h
    exact ⟨tr, .ask htr, hch⟩

/-- A trace of a client whose steps follow each other is a run of the client alone. -/
theorem solo_of_trace {p q : Prog ℓ σ ι α} {s s' : σ} {a : α} {tr : List (Event ℓ σ)}
    (h : Trace p tr q) (hq : q = ret a) (hch : Chained s tr s') :
    Solo (fun _ => True) p s a s' := by
  induction h generalizing s with
  | refl p =>
    obtain rfl : s = s' := hch
    rw [hq]
    exact ⟨rfl, rfl⟩
  | act _ ih =>
    obtain ⟨rfl, hch⟩ := hch
    exact ih hq hch
  | ask _ ih => exact ⟨_, trivial, ih hq hch⟩

end Interleave.Prog
