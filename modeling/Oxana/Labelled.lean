import Oxana.Calls
import Oxana.Interleave.Relabel

/-!
# Calls whose labels say more

The label of a step says what kind of request it is. Sometimes one has to know
more, such as the arguments of a request, or which tasks a client starts beside
its requests. A `Labelled` client is a call whose labels are of another type;
calls are such clients after renaming (`plain`).
-/

namespace Oxana

open Redis Interleave

variable {ℓ γ α β : Type}

/-- A client that may fail, with labels of the type `ℓ`. -/
def Labelled (ℓ γ α : Type) : Type := Prog ℓ (World γ) Choice (Except OxanaError α)

namespace Labelled

/-- Go on after a success, stop with the error otherwise. -/
protected def bind (x : Labelled ℓ γ α) (f : α → Labelled ℓ γ β) : Labelled ℓ γ β :=
  Prog.bind x fun
    | .ok a => f a
    | .error e => Prog.ret (.error e)

instance : Monad (Labelled ℓ γ) where
  pure a := Prog.ret (.ok a)
  bind := Labelled.bind

/-- The client that never continues. -/
def hang : Labelled ℓ γ α := Prog.halt

/-- Ask the surroundings for a choice, and go on with it. -/
def ask (k : Choice → Labelled ℓ γ α) : Labelled ℓ γ α := Prog.ask k

/-- A call with its requests renamed. -/
def plain (f : Request → ℓ) (x : Call γ α) : Labelled ℓ γ α := Prog.relabel f x

section Traces

variable {tr : List (Prog.Event ℓ (World γ))} {q : Prog ℓ (World γ) Choice (Except OxanaError β)}

/-- A trace of a sequence is one of its first part, which then has not returned,
or goes on with what that has returned. -/
theorem trace_bind {x : Labelled ℓ γ α} {f : α → Labelled ℓ γ β}
    (h : Prog.Trace (x >>= f : Labelled ℓ γ β) tr q) :
    (∃ p, Prog.Trace x tr p ∧ ∀ b, q ≠ .ret (.ok b)) ∨
      ∃ a tr₁ tr₂, tr = tr₁ ++ tr₂ ∧ Prog.Trace x tr₁ (.ret (.ok a)) ∧
        Prog.Trace (f a) tr₂ q := by
  rcases Prog.Trace.bind_inv h with ⟨p, hp, rfl⟩ | ⟨r, tr₁, tr₂, rfl, h₁, h₂⟩
  · cases p with
    | ret r =>
      cases r with
      | ok a => exact .inr ⟨a, tr, [], (List.append_nil tr).symm, hp, .refl _⟩
      | error e => exact .inl ⟨_, hp, fun b => nofun⟩
    | halt => exact .inl ⟨_, hp, fun b => nofun⟩
    | act l g k => exact .inl ⟨_, hp, fun b => nofun⟩
    | ask k => exact .inl ⟨_, hp, fun b => nofun⟩
  · cases r with
    | ok a => exact .inr ⟨a, tr₁, tr₂, rfl, h₁, h₂⟩
    | error e =>
      cases h₂
      exact .inl ⟨_, by rwa [List.append_nil], fun b => nofun⟩

/-- The steps of a call that has been labelled are the steps of the call, each with its label. -/
theorem trace_plain {f : Request → ℓ} {x : Call γ β}
    (h : Prog.Trace (plain f x : Labelled ℓ γ β) tr q) :
    ∃ tr' q', tr = tr'.map (Prog.Event.relabel f) ∧ Prog.Trace x tr' q' ∧
      ∀ b, q = .ret (.ok b) → q' = .ret (.ok b) := by
  obtain ⟨tr', q', rfl, rfl, h'⟩ := Prog.Trace.of_relabel h
  exact ⟨tr', q', rfl, h', fun b hb => Prog.ret_of_relabel hb.symm⟩

/-- Taking a connection is no step of its own: without one there is no trace and no result, and
otherwise what comes after it has the whole trace. -/
theorem trace_connection {f : Request → ℓ} {g : Unit → Labelled ℓ γ β}
    (h : Prog.Trace (plain f connection >>= g : Labelled ℓ γ β) tr q) :
    (tr = [] ∧ ∀ b, q ≠ .ret (.ok b)) ∨ Prog.Trace (g ()) tr q := by
  cases h with
  | refl => exact .inl ⟨rfl, fun b => nofun⟩
  | @ask _ c _ _ h =>
    by_cases hc : c.delivery = .answered
    · simp only [hc, if_true] at h
      exact .inr h
    · simp only [hc, if_false] at h
      cases h
      exact .inl ⟨rfl, fun b => nofun⟩

end Traces

end Labelled

end Oxana
