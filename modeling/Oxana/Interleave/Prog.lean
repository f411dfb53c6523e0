import Mathlib.Logic.Function.Basic
import Mathlib.Data.Set.Basic
import Mathlib.Algebra.Ring.Int.Defs
import Mathlib.Algebra.Ring.Nat

/-!
# Clients of a shared world, one atomic step at a time

A `Prog ℓ σ ι α` is a client of a world `σ` as the other clients see it: a
sequence of atomic steps, each labelled, each reading and updating the world
in one go, with nothing promised about what the world does *between* two of
them. A client can also be told something by its surroundings (`ask`), and it
can stop for good (`halt`) — a crashed caller is a caller that takes no
further step.

Programs form a monad, so a client is written the way its source reads. Two
semantics are given:

* `Trace` — the steps of *one* call, the world being free to change
  arbitrarily in between. What holds of every trace holds for every
  interleaving with every other client.
* `Always E G Q` — the proof rule for it: if every step meets a world
  satisfying `E`, every step is in `G`, and every result satisfies `Q`;
* `Extends valid grows` — the rule for clients that rely on what they have done
  before, in a world that only grows.

Closed systems of several clients are in `Oxana.Interleave.Pool`.
-/

namespace Interleave

variable {ℓ σ ι α β γ : Type}

/-- A client, resumed one atomic step at a time: it returns, takes a step, or asks the surroundings.
-/
inductive Prog (ℓ σ ι α : Type) : Type where
  /-- the call returns -/
  | ret (a : α)
  /-- the call never continues -/
  | halt
  /-- one atomic step, named `l`: the world moves by `f`, the client goes on
  with what it read -/
  | act (l : ℓ) (f : σ → σ) (k : σ → Prog ℓ σ ι α)
  /-- something the surroundings decide -/
  | ask (k : ι → Prog ℓ σ ι α)

namespace Prog

/-- Graft a continuation onto every `ret` leaf, so that one client goes on as another. -/
protected def bind : Prog ℓ σ ι α → (α → Prog ℓ σ ι β) → Prog ℓ σ ι β
  | ret a, g => g a
  | halt, _ => halt
  | act l f k, g => act l f fun s => (k s).bind g
  | ask k, g => ask fun i => (k i).bind g

instance : Monad (Prog ℓ σ ι) where
  pure := ret
  bind := Prog.bind

@[simp] theorem ret_bind (a : α) (g : α → Prog ℓ σ ι β) : (ret a).bind g = g a := rfl

@[simp] theorem halt_bind (g : α → Prog ℓ σ ι β) : (halt : Prog ℓ σ ι α).bind g = halt := rfl

@[simp] theorem act_bind (l : ℓ) (f : σ → σ) (k : σ → Prog ℓ σ ι α) (g : α → Prog ℓ σ ι β) :
    (act l f k).bind g = act l f fun s => (k s).bind g := rfl

@[simp] theorem ask_bind (k : ι → Prog ℓ σ ι α) (g : α → Prog ℓ σ ι β) :
    (ask k).bind g = ask fun i => (k i).bind g := rfl

/-- Sequencing is associative: what is grafted onto a sequence may as well be grafted onto its
second part. -/
theorem bind_assoc (p : Prog ℓ σ ι α) (f : α → Prog ℓ σ ι β) (g : β → Prog ℓ σ ι γ) :
    (p.bind f).bind g = p.bind fun a => (f a).bind g := by
  induction p with
  | ret a => rfl
  | halt => rfl
  | act l f k ih => exact congrArg (act l f) (funext ih)
  | ask k ih => exact congrArg ask (funext ih)

/-! ## The trace of one call -/

/-- One step as the world records it: what was sent, and the world before and after. -/
structure Event (ℓ σ : Type) where
  /-- what was sent -/
  label : ℓ
  /-- the world it met -/
  pre : σ
  /-- the world it left -/
  post : σ

/-- `Trace p tr q`: the call `p` took the steps `tr`, each from a world of the
surroundings' choosing, and is now at `q`. -/
inductive Trace : Prog ℓ σ ι α → List (Event ℓ σ) → Prog ℓ σ ι α → Prop where
  | refl (p : Prog ℓ σ ι α) : Trace p [] p
  | act {l : ℓ} {f : σ → σ} {k : σ → Prog ℓ σ ι α} {s : σ} {tr : List (Event ℓ σ)}
      {q : Prog ℓ σ ι α} : Trace (k s) tr q → Trace (act l f k) (⟨l, s, f s⟩ :: tr) q
  | ask {k : ι → Prog ℓ σ ι α} {i : ι} {tr : List (Event ℓ σ)} {q : Prog ℓ σ ι α} :
      Trace (k i) tr q → Trace (ask k) tr q

/-- Inversion: a trace of a sequence is a trace of its first part, or a complete one of the first
part followed by a trace of the second. -/
theorem Trace.bind_inv {p : Prog ℓ σ ι α} {g : α → Prog ℓ σ ι β} {tr : List (Event ℓ σ)}
    {q : Prog ℓ σ ι β} (h : Trace (p.bind g) tr q) :
    (∃ p', Trace p tr p' ∧ q = p'.bind g) ∨
      ∃ a tr₁ tr₂, tr = tr₁ ++ tr₂ ∧ Trace p tr₁ (ret a) ∧ Trace (g a) tr₂ q := by
  induction p generalizing tr with
  | ret a => exact .inr ⟨a, [], tr, rfl, .refl _, h⟩
  | halt =>
    cases h
    exact .inl ⟨halt, .refl _, rfl⟩
  | act l f k ih =>
    cases h with
    | refl => exact .inl ⟨.act l f k, .refl _, rfl⟩
    | act h =>
      rcases ih _ h with ⟨p', hp, rfl⟩ | ⟨a, tr₁, tr₂, rfl, h₁, h₂⟩
      · exact .inl ⟨p', .act hp, rfl⟩
      · exact .inr ⟨a, _ :: tr₁, tr₂, rfl, .act h₁, h₂⟩
  | ask k ih =>
    cases h with
    | refl => exact .inl ⟨.ask k, .refl _, rfl⟩
    | ask h =>
      rcases ih _ h with ⟨p', hp, rfl⟩ | ⟨a, tr₁, tr₂, rfl, h₁, h₂⟩
      · exact .inl ⟨p', .ask hp, rfl⟩
      · exact .inr ⟨a, tr₁, tr₂, rfl, .ask h₁, h₂⟩

/-- A complete trace of the first part of a sequence, followed by a trace of what comes after it, is
a trace of the sequence. -/
theorem Trace.bind {p : Prog ℓ σ ι α} {g : α → Prog ℓ σ ι β} {a : α} {q : Prog ℓ σ ι β}
    {tr₁ tr₂ : List (Event ℓ σ)} (h₁ : Trace p tr₁ (ret a)) (h₂ : Trace (g a) tr₂ q) :
    Trace (p.bind g) (tr₁ ++ tr₂) q := by
  generalize hr : ret a = r at h₁
  induction h₁ with
  | refl p =>
    subst hr
    exact h₂
  | act _ ih => exact .act (ih hr)
  | ask _ ih => exact .ask (ih hr)

/-- A trace of the first part of a sequence is a trace of the sequence, which still has the second
part to do. -/
theorem Trace.bind_left {p p' : Prog ℓ σ ι α} {tr : List (Event ℓ σ)} (h : Trace p tr p')
    (g : α → Prog ℓ σ ι β) : Trace (p.bind g) tr (p'.bind g) := by
  induction h with
  | refl p => exact .refl _
  | act _ ih => exact .act ih
  | ask _ ih => exact .ask ih

/-! ## What holds at every step of a call -/

/-- Whatever the world does in between, as long as each step meets a world that
satisfies `E`: every step of the call is in `G`, and its result satisfies `Q`. -/
def Always (E : ℓ → σ → Prop) (G : ℓ → σ → σ → Prop) (Q : α → Prop) : Prog ℓ σ ι α → Prop
  | ret a => Q a
  | halt => True
  | act l f k => ∀ s, E l s → G l s (f s) ∧ Always E G Q (k s)
  | ask k => ∀ i, Always E G Q (k i)

section Always

variable {E : ℓ → σ → Prop} {G : ℓ → σ → σ → Prop}

/-- What every step of a sequence does and what it returns: the second part may rely on what the
first one has returned, and on nothing about the world. -/
theorem Always.bind {p : Prog ℓ σ ι α} {g : α → Prog ℓ σ ι β} {Q : α → Prop} {R : β → Prop}
    (hp : Always E G Q p) (hg : ∀ a, Q a → Always E G R (g a)) : Always E G R (p.bind g) := by
  induction p with
  | ret a => exact hg a hp
  | halt => trivial
  | act l f k ih => exact fun s hs => ⟨(hp s hs).1, ih s (hp s hs).2⟩
  | ask k ih => exact fun i => ih i (hp i)

/-- Less may be asked of what a client returns. -/
theorem Always.mono {p : Prog ℓ σ ι α} {Q R : α → Prop} (hp : Always E G Q p)
    (h : ∀ a, Q a → R a) : Always E G R p := by
  induction p with
  | ret a => exact h a hp
  | halt => trivial
  | act l f k ih => exact fun s hs => ⟨(hp s hs).1, ih s (hp s hs).2⟩
  | ask k ih => exact fun i => ih i (hp i)

/-- What is known of a client stays known if it meets fewer worlds, and if less is asked of its
steps. -/
theorem Always.weaken {E' : ℓ → σ → Prop} {G' : ℓ → σ → σ → Prop} {p : Prog ℓ σ ι α}
    {Q : α → Prop} (hp : Always E G Q p) (hE : ∀ l s, E' l s → E l s)
    (hG : ∀ l s s', E' l s → G l s s' → G' l s s') : Always E' G' Q p := by
  induction p with
  | ret a => exact hp
  | halt => trivial
  | act l f k ih =>
    intro s hs
    obtain ⟨hstep, hk⟩ := hp s (hE l s hs)
    exact ⟨hG l s _ hs hstep, ih s hk⟩
  | ask k ih => exact fun i => ih i (hp i)

/-- What `Always` promises of the traces: if the steps of a trace meet worlds as expected, each of
them does what it should, and what is returned is as it should be. -/
theorem Always.trace {p q : Prog ℓ σ ι α} {Q : α → Prop} {tr : List (Event ℓ σ)}
    (hp : Always E G Q p) (ht : Trace p tr q) (hE : ∀ e ∈ tr, E e.label e.pre) :
    (∀ e ∈ tr, G e.label e.pre e.post) ∧ ∀ a, q = ret a → Q a := by
  induction ht with
  | refl p =>
    refine ⟨fun e he => absurd he List.not_mem_nil, ?_⟩
    rintro a rfl
    exact hp
  | act _ ih =>
    obtain ⟨hG, hk⟩ := hp _ (hE _ (List.mem_cons_self ..))
    obtain ⟨h₁, h₂⟩ := ih hk fun e he => hE e (List.mem_cons_of_mem _ he)
    refine ⟨fun e he => ?_, h₂⟩
    rcases List.mem_cons.mp he with rfl | he
    · exact hG
    · exact h₁ e he
  | ask _ ih => exact ih (hp _) hE

/-- After some of its steps a client goes on as it has begun: what `Always` says of the client it
says of the rest of it. -/
theorem Always.residual {p q : Prog ℓ σ ι α} {Q : α → Prop} {tr : List (Event ℓ σ)}
    (hp : Always E G Q p) (ht : Trace p tr q) (hE : ∀ e ∈ tr, E e.label e.pre) :
    Always E G Q q := by
  induction ht with
  | refl p => exact hp
  | act _ ih =>
    exact ih (hp _ (hE _ (List.mem_cons_self ..))).2 fun e he => hE e (List.mem_cons_of_mem _ he)
  | ask _ ih => exact ih (hp _) hE

/-- If nothing is asked of the steps and of what is returned, there is nothing to be shown of any
client. -/
theorem always_true (p : Prog ℓ σ ι α) : Always E (fun _ _ _ => True) (fun _ => True) p := by
  induction p with
  | ret a => trivial
  | halt => trivial
  | act l f k ih => exact fun s _ => ⟨trivial, ih s⟩
  | ask k ih => exact ih

end Always

/-! ## A world that grows -/

/-- Every step of the client keeps the world valid and lets it grow, as long as
the world it meets has grown from what the client has left behind before; at
first that is `s`. So a client may rely on what it has done. -/
def Extends (valid : σ → Prop) (grows : σ → σ → Prop) : σ → Prog ℓ σ ι α → Prop
  | _, ret _ => True
  | _, halt => True
  | s, act _ f k => ∀ s', valid s' → grows s s' →
      (valid (f s') ∧ grows s' (f s')) ∧ Extends valid grows (f s') (k s')
  | s, ask k => ∀ i, Extends valid grows s (k i)

section Extends

variable {valid : σ → Prop} {grows : σ → σ → Prop} {s s' : σ}

/-- A sequence lets the world grow if both parts do, where the second one may rely on whatever the
world has grown to. -/
theorem Extends.bind {p : Prog ℓ σ ι α} {g : α → Prog ℓ σ ι β} (hrefl : ∀ a, grows a a)
    (htrans : ∀ a b c, grows a b → grows b c → grows a c) (hp : Extends valid grows s p)
    (hg : ∀ a s', grows s s' → Extends valid grows s' (g a)) :
    Extends valid grows s (p.bind g) := by
  induction p generalizing s with
  | ret a => exact hg a s (hrefl s)
  | halt => trivial
  | act l f k ih =>
    intro s' hvalid hgrows
    obtain ⟨hstep, hk⟩ := hp s' hvalid hgrows
    refine ⟨hstep, ih s' hk fun a s'' hs'' => hg a s'' ?_⟩
    exact htrans _ _ _ hgrows (htrans _ _ _ hstep.2 hs'')
  | ask k ih => exact fun i => ih i (hp i) hg

/-- A client whose single steps let the world grow, whatever they meet, does so as a whole. It
relies on nothing that it has read or written before. -/
theorem Always.extends {p : Prog ℓ σ ι α} {Q : α → Prop}
    (h : Always (fun _ => valid) (fun _ s s' => valid s' ∧ grows s s') Q p) (s : σ) :
    Extends valid grows s p := by
  induction p generalizing s with
  | ret a => trivial
  | halt => trivial
  | act l f k ih =>
    intro s' hvalid _
    obtain ⟨hstep, hk⟩ := h s' hvalid
    exact ⟨hstep, ih s' hk _⟩
  | ask k ih => exact fun i => ih i (h i) s

end Extends

/-! ## Clients alone -/

/-- What becomes of a client that is alone with the world and told `i` whenever
it asks. -/
def alone (i : ι) : Prog ℓ σ ι α → σ → Option (α × σ)
  | ret a, s => some (a, s)
  | halt, _ => none
  | act _ f k, s => alone i (k s) (f s)
  | ask k, s => alone i (k i) s

/-- The first part of a sequence may be run on its own; the second part then starts in the world it
leaves. -/
theorem alone_bind {i : ι} {p : Prog ℓ σ ι α} {s s' : σ} {a : α} (h : p.alone i s = some (a, s'))
    (g : α → Prog ℓ σ ι β) : (p.bind g).alone i s = (g a).alone i s' := by
  induction p generalizing s with
  | ret b =>
    obtain ⟨rfl, rfl⟩ := Prod.mk.inj (Option.some.inj h)
    rfl
  | halt => cases h
  | act l f k ih => exact ih s h
  | ask k ih => exact ih i h

/-! ## Clients held back -/

open Classical in
/-- The client as long as its steps meet worlds that satisfy `G`: a step that
does not is never taken. -/
noncomputable def heeding (G : ℓ → σ → Prop) : Prog ℓ σ ι α → Prog ℓ σ ι α
  | ret a => ret a
  | halt => halt
  | act l f k => act l (fun s => if G l s then f s else s)
      fun s => if G l s then heeding G (k s) else halt
  | ask k => ask fun i => heeding G (k i)

section Heeding

open Classical

variable {G : ℓ → σ → Prop}

/-- Holding back a sequence is holding back each of its parts. -/
theorem heeding_bind (p : Prog ℓ σ ι α) (g : α → Prog ℓ σ ι β) :
    (p.bind g).heeding G = (p.heeding G).bind fun a => (g a).heeding G := by
  induction p with
  | ret a => rfl
  | halt => rfl
  | act l f k ih =>
    refine congrArg (act l _) (funext fun s => ?_)
    by_cases hs : G l s
    · simpa only [if_pos hs] using ih s
    · simp only [if_neg hs, halt_bind]
  | ask k ih => exact congrArg ask (funext ih)

/-- A client that is held back by a condition that always holds is the client itself. -/
theorem heeding_true (p : Prog ℓ σ ι α) : p.heeding (fun _ _ => True) = p := by
  induction p with
  | ret a => rfl
  | halt => rfl
  | act l f k ih =>
    simp only [heeding, if_true]
    exact congrArg (act l f) (funext ih)
  | ask k ih => exact congrArg ask (funext ih)

/-- A run all of whose steps meet the condition is a run of the client that is held back by it, too.
-/
theorem Trace.heeding {p q : Prog ℓ σ ι α} {tr : List (Event ℓ σ)} (h : Trace p tr q)
    (hG : ∀ e ∈ tr, G e.label e.pre) : Trace (p.heeding G) tr (q.heeding G) := by
  induction h with
  | refl p => exact .refl _
  | @act l f k s tr q _ ih =>
    have hs : G l s := hG _ (List.mem_cons_self ..)
    have hrest := ih fun e he => hG e (List.mem_cons_of_mem _ he)
    have hnext : Trace (if G l s then Prog.heeding G (k s) else halt) tr (q.heeding G) := by
      rw [if_pos hs]
      exact hrest
    have hstep : Trace (Prog.heeding G (Prog.act l f k)) _ _ := .act hnext
    rwa [if_pos hs] at hstep
  | ask _ ih => exact .ask (ih hG)

end Heeding

end Prog

end Interleave
