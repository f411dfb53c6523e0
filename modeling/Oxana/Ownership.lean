import Oxana.Calls
import Oxana.Interleave.Pool

/-!
# Calls that keep to a discipline

The rules of `Oxana.Calls` once more, for clients that own tokens:
`Call.Keeps D o K Q R T x` says that `x`, run for `o` with the tokens `T`, keeps
to the discipline, that on success `Q` holds of the result and the tokens left,
and that on failure `R` holds of the tokens left.
-/

namespace Oxana

open Redis Interleave

variable {γ α β ο τ : Type} {D : Discipline ο (World γ) τ} {o : ο} {K : World γ → Prop}

namespace Call

/-- The post-condition of a call, from those of its two ends. -/
def Ends (Q : α → Set τ → Prop) (R : Set τ → Prop) : Except OxanaError α → Set τ → Prop
  | .ok a, T => Q a T
  | .error _, T => R T

/-- The call keeps to the discipline, whatever others do between its steps. -/
def Keeps (D : Discipline ο (World γ) τ) (o : ο) (K : World γ → Prop) (Q : α → Set τ → Prop)
    (R : Set τ → Prop) (T : Set τ) (x : Call γ α) : Prop :=
  D.Safe o K (Ends Q R) T x

variable {Q : α → Set τ → Prop} {R : Set τ → Prop} {T : Set τ} {Q' : β → Set τ → Prop}
  {R' : Set τ → Prop}

theorem Keeps.pure {a : α} (h : Q a T) : Keeps D o K Q R T (pure a) := h

theorem Keeps.fail (h : R T) (e : OxanaError) : Keeps D o K Q R T (fail e) := h

theorem Keeps.hang : Keeps D o K Q R T (hang : Call γ α) := trivial

theorem Keeps.ask {k : Choice → Call γ α} (h : ∀ c, Keeps D o K Q R T (k c)) :
    Keeps D o K Q R T (ask k) := h

/-- Recovering from an error keeps the invariant if both what succeeds and what fails can go on. -/
theorem Keeps.catching {x : Call γ α} {f : Except OxanaError α → Call γ β}
    (hx : Keeps D o K Q R T x) (hok : ∀ a T', Q a T' → Keeps D o K Q' R' T' (f (.ok a)))
    (herr : ∀ e T', R T' → Keeps D o K Q' R' T' (f (.error e))) :
    Keeps D o K Q' R' T (catching x f) := by
  refine Discipline.Safe.bind hx fun r T' hr => ?_
  cases r with
  | ok a => exact hok a T' hr
  | error e => exact herr e T' hr

/-- Calls that keep the invariant can be made one after the other, with the tokens that the first
has left. -/
theorem Keeps.bind {x : Call γ α} {f : α → Call γ β} (hx : Keeps D o K Q R T x)
    (hf : ∀ a T', Q a T' → Keeps D o K Q' R' T' (f a)) (herr : ∀ T', R T' → R' T') :
    Keeps D o K Q' R' T (x >>= f) := by
  refine Discipline.Safe.bind hx fun r T' hr => ?_
  cases r with
  | ok a => exact hf a T' hr
  | error e => exact Keeps.fail (herr T' hr) e

/-- The tokens that a call ends with may be described more loosely. -/
theorem Keeps.mono {Q' : α → Set τ → Prop} {x : Call γ α} (hx : Keeps D o K Q R T x)
    (hQ : ∀ a T', Q a T' → Q' a T') (hR : ∀ T', R T' → R' T') : Keeps D o K Q' R' T x := by
  refine Discipline.Safe.mono hx fun r T' hr => ?_
  cases r with
  | ok a => exact hQ a T' hr
  | error e => exact hR T' hr

/-- Tokens may be given up at any time: a call that needs fewer is safe with more. -/
theorem Keeps.weaken {T' : Set τ} {x : Call γ α} (hx : Keeps D o K (fun _ _ => True) (fun _ => True) T x)
    (hsub : T ⊆ T') : Keeps D o K (fun _ _ => True) (fun _ => True) T' x := by
  refine Discipline.Safe.weaken hx hsub fun r hr => ?_
  cases r with
  | ok a => exact hr
  | error e => exact hr

/-- Taking a connection may fail, and changes no token. -/
theorem Keeps.connection (hR : R T) :
    Keeps D o K (fun _ T' => T' = T) R T (connection : Call γ Unit) := by
  refine .ask fun c => ?_
  split
  · exact .pure rfl
  · exact .fail hR _

/-- The request trades tokens in this world, and the reply fits. -/
def Sends (D : Discipline ο (World γ) τ) (o : ο) (Q : α → Set τ → Prop) (R : Set τ → Prop)
    (T : Set τ) (w : World γ) (x : Script α) : Prop :=
  ∃ T', D.Trades o T T' w (w.after x) ∧ R T' ∧ ∀ a, (x w.store).1 = .ok a → Q a T'

/-- What the script of a request must establish for the call to go on. -/
def SendOk (D : Discipline ο (World γ) τ) (o : ο) (K : World γ → Prop) (Q : α → Set τ → Prop)
    (R : Set τ → Prop) (T : Set τ) (x : Script α) : Prop :=
  ∀ w, D.inv w → K w → (∀ t ∈ T, D.owns t w) → Sends D o Q R T w x

/-- A request keeps the invariant if its script does, for every answer that may come back. -/
theorem Keeps.send {l : Request} {x : Script α} (hR : R T) (h : SendOk D o K Q R T x) :
    Keeps D o K Q R T (send l x) := by
  refine .ask fun c => ?_
  rcases c.delivery with _ | _ | _
  · exact .fail hR _
  · intro w hw hK hT
    obtain ⟨T', htr, hR', -⟩ := h w hw hK hT
    exact ⟨T', htr, hR'⟩
  · intro w hw hK hT
    obtain ⟨T', htr, hR', hQ⟩ := h w hw hK hT
    refine ⟨T', htr, (?_ : Ends Q R (replyOf (x w.store).1) T')⟩
    rcases hx : (x w.store).1 with e | a
    · exact hR'
    · exact hQ a hx

/-- A request that leaves the store alone leaves all tokens as they are. -/
theorem Sends.nothing {x : Script α} {w : World γ} (hinv : D.inv w) (hT : ∀ t ∈ T, D.owns t w)
    (hmine : ∀ t ∈ T, D.mine o t) (hR : R T) (hx : (x w.store).2 = w.store)
    (hQ : ∀ a, (x w.store).1 = .ok a → Q a T) : Sends D o Q R T w x := by
  have hafter : w.after x = w := by
    rw [World.after, hx]
  refine ⟨T, ?_, hR, hQ⟩
  rw [hafter]
  exact .refl hinv hT hmine

/-- A request that only reads leaves all tokens as they are, and its answer is what the store says.
-/
theorem SendOk.read {x : Script α} (hmine : ∀ t ∈ T, D.mine o t) (hx : ∀ s, (x s).2 = s)
    (hR : R T) (hQ : ∀ w a, D.inv w → K w → (∀ t ∈ T, D.owns t w) → (x w.store).1 = .ok a → Q a T) :
    SendOk D o K Q R T x :=
  fun w hw hK hT => .nothing hw hT hmine hR (hx w.store) fun a ha => hQ w a hw hK hT ha

/-! ### Pipelines -/

theorem Keeps.pipe_nil {l : Request} {Q : Set τ → Prop} (h : Q T) :
    Keeps D o K (fun _ => Q) (fun _ => True) T (pipe l ([] : List (Script α)) : Call γ _) := by
  refine .ask fun c => ?_
  rcases c.delivery with _ | _ | _
  · exact .fail trivial _
  · exact .fail trivial _
  · exact .pure h

/-- A pipeline goes on whatever the reply to a command, so the rest must be safe in both cases. -/
theorem Keeps.pipe_cons {l : Request} {x : Script α} {xs : List (Script α)} {Q : Set τ → Prop}
    (hx : ∀ w, D.inv w → K w → (∀ t ∈ T, D.owns t w) → ∃ T', D.Trades o T T' w (w.after x) ∧
      Keeps D o K (fun _ => Q) (fun _ => True) T' (pipe l xs)) :
    Keeps D o K (fun _ => Q) (fun _ => True) T (pipe l (x :: xs)) := by
  have hgo : Keeps D o K (fun _ => Q) (fun _ => True) T (execute l x fun r =>
      Call.catching (pipe l xs) fun rs => Prog.ret (joinReplies r rs)) := by
    intro w hw hK hT
    obtain ⟨T', htr, hrest⟩ := hx w hw hK hT
    refine ⟨T', htr, Keeps.catching hrest (fun as T'' has => ?_) fun e T'' _ => ?_⟩
    · rcases (x w.store).1 with e | a
      · exact trivial
      · exact has
    · rcases (x w.store).1 with e' | a
      · exact trivial
      · exact trivial
  refine .ask fun c => ?_
  rcases c.delivery with _ | _ | _
  · exact .fail trivial _
  · exact hgo
  · exact hgo

/-- A pipeline that only reads leaves all tokens as they are. -/
theorem Keeps.pipe_read {l : Request} {xs : List (Script α)} (hmine : ∀ t ∈ T, D.mine o t)
    (hxs : ∀ x ∈ xs, ∀ s, (x s).2 = s) :
    Keeps D o K (fun _ T' => T' = T) (fun _ => True) T (pipe l xs) := by
  induction xs with
  | nil => exact .pipe_nil rfl
  | cons x xs ih =>
    refine .pipe_cons fun w hw _ hT => ⟨T, ?_, ih fun y hy => hxs y (List.mem_cons_of_mem _ hy)⟩
    have hafter : w.after x = w := by
      rw [World.after, hxs x (List.mem_cons_self ..)]
    rw [hafter]
    exact .refl hw hT hmine

theorem Keeps.now (hmine : ∀ t ∈ T, D.mine o t) :
    Keeps D o K (fun _ T' => T' = T) R T (now : Call γ Int) :=
  fun _ hw _ hT => ⟨T, .refl hw hT hmine, rfl⟩

end Call

end Oxana
