import Oxana.Interleave.Prog

/-!
# Clients whose steps have other names

The labels of a client's steps mean nothing to the client: a trace of the
renamed client is a renamed trace. So a client may be given labels that say
more than those it is studied with elsewhere, and what is found out about the
one is found out about the other.
-/

namespace Interleave

namespace Prog

variable {ℓ ℓ' ℓ'' σ ι α β : Type}

/-- The client with the labels of its steps renamed, and nothing else changed. -/
def relabel (f : ℓ → ℓ') : Prog ℓ σ ι α → Prog ℓ' σ ι α
  | ret a => ret a
  | halt => halt
  | act l g k => act (f l) g fun s => (k s).relabel f
  | ask k => ask fun i => (k i).relabel f

/-- The step with its label renamed, in the same worlds. -/
def Event.relabel (f : ℓ → ℓ') (e : Event ℓ σ) : Event ℓ' σ := ⟨f e.label, e.pre, e.post⟩

/-- Renaming the steps of a sequence is renaming those of its parts. -/
theorem relabel_bind (f : ℓ → ℓ') (p : Prog ℓ σ ι α) (g : α → Prog ℓ σ ι β) :
    (p.bind g).relabel f = (p.relabel f).bind fun a => (g a).relabel f := by
  induction p with
  | ret a => rfl
  | halt => rfl
  | act l h k ih => exact congrArg (act (f l) h) (funext ih)
  | ask k ih => exact congrArg ask (funext ih)

/-- Steps that are renamed twice are renamed by the composition. -/
theorem relabel_relabel (f : ℓ → ℓ') (f' : ℓ' → ℓ'') (p : Prog ℓ σ ι α) :
    (p.relabel f).relabel f' = p.relabel (f' ∘ f) := by
  induction p with
  | ret a => rfl
  | halt => rfl
  | act l h k ih => exact congrArg (act (f' (f l)) h) (funext ih)
  | ask k ih => exact congrArg ask (funext ih)

theorem relabel_id (p : Prog ℓ σ ι α) : p.relabel id = p := by
  induction p with
  | ret a => rfl
  | halt => rfl
  | act l h k ih => exact congrArg (act l h) (funext ih)
  | ask k ih => exact congrArg ask (funext ih)

/-- The renamed client takes the renamed steps of the client. -/
theorem Trace.relabel (f : ℓ → ℓ') {p q : Prog ℓ σ ι α} {tr : List (Event ℓ σ)}
    (h : Trace p tr q) : Trace (p.relabel f) (tr.map (Event.relabel f)) (q.relabel f) := by
  induction h with
  | refl p => exact .refl _
  | act _ ih => exact .act ih
  | ask _ ih => exact .ask ih

/-- The renamed client takes no other steps than the renamed ones of the client. -/
theorem Trace.of_relabel {f : ℓ → ℓ'} {p : Prog ℓ σ ι α} {q : Prog ℓ' σ ι α}
    {tr : List (Event ℓ' σ)} (h : Trace (p.relabel f) tr q) :
    ∃ tr' q', tr = tr'.map (Event.relabel f) ∧ q = q'.relabel f ∧ Trace p tr' q' := by
  induction p generalizing tr with
  | ret a =>
    cases h
    exact ⟨[], ret a, rfl, rfl, .refl _⟩
  | halt =>
    cases h
    exact ⟨[], halt, rfl, rfl, .refl _⟩
  | act l g k ih =>
    cases h with
    | refl => exact ⟨[], .act l g k, rfl, rfl, .refl _⟩
    | act h =>
      obtain ⟨tr', q', rfl, rfl, h'⟩ := ih _ h
      exact ⟨_ :: tr', q', rfl, rfl, .act h'⟩
  | ask k ih =>
    cases h with
    | refl => exact ⟨[], .ask k, rfl, rfl, .refl _⟩
    | ask h =>
      obtain ⟨tr', q', rfl, rfl, h'⟩ := ih _ h
      exact ⟨tr', q', rfl, rfl, .ask h'⟩

/-- A renamed client that has returned comes from a client that has returned the same. -/
theorem ret_of_relabel {f : ℓ → ℓ'} {p : Prog ℓ σ ι α} {a : α} (h : ret a = p.relabel f) :
    p = ret a := by
  cases p with
  | ret b =>
    cases h
    rfl
  | halt => cases h
  | act l g k => cases h
  | ask k => cases h

end Prog

end Interleave
