import Oxana.Storage
import Mathlib.Data.List.Forall2

/-!
# Rules for calls

`Call.Always E G Q x`: whatever the other clients do, as long as each step of
`x` meets a world that satisfies `E`, every step is in `G`, and if `x` succeeds,
`Q` holds of its result. One rule for each combinator the operations
are written with; an operation is then followed through by applying the rules
in the order of its text.
-/

namespace Oxana

open Redis Interleave

variable {γ α β : Type}

namespace Call

/-- Every request of the call changes the world as `G` says, whatever the others do as `E` says; if
the call returns a value, `Q` holds of it. -/
def Always (E : Request → World γ → Prop) (G : Request → World γ → World γ → Prop) (Q : α → Prop)
    (x : Call γ α) : Prop :=
  Prog.Always E G (fun r => ∀ a, r = .ok a → Q a) x

variable {E : Request → World γ → Prop} {G : Request → World γ → World γ → Prop} {Q : α → Prop}
  {R : β → Prop}

theorem Always.pure {a : α} (h : Q a) : Always E G Q (pure a) := by
  rintro b ⟨⟩
  exact h

theorem Always.fail (e : OxanaError) : Always E G Q (fail e) := by
  rintro b ⟨⟩

theorem Always.hang : Always E G Q (hang : Call γ α) := trivial

theorem Always.ask {k : Choice → Call γ α} (h : ∀ c, Always E G Q (k c)) :
    Always E G Q (ask k) := h

/-- A call whose errors are caught, and what is done with its result or its error. -/
theorem Always.catching {x : Call γ α} {f : Except OxanaError α → Call γ β}
    (hx : Always E G Q x) (hok : ∀ a, Q a → Always E G R (f (.ok a)))
    (herr : ∀ e, Always E G R (f (.error e))) : Always E G R (catching x f) := by
  refine Prog.Always.bind hx fun r hr => ?_
  cases r with
  | ok a => exact hok a (hr a rfl)
  | error e => exact herr e

/-- A sequence of two calls: the second one may rely on the result of the first, which did not fail.
-/
theorem Always.bind {x : Call γ α} {f : α → Call γ β} (hx : Always E G Q x)
    (hf : ∀ a, Q a → Always E G R (f a)) : Always E G R (x >>= f) := by
  refine Prog.Always.bind hx fun r hr => ?_
  cases r with
  | ok a => exact hf a (hr a rfl)
  | error e => exact Always.fail e

/-- Less may be asked of what a call returns. -/
theorem Always.mono {x : Call γ α} {R : α → Prop} (hx : Always E G Q x)
    (h : ∀ a, Q a → R a) : Always E G R x :=
  Prog.Always.mono hx fun _ hr a ha => h a (hr a ha)

/-- What is known of a call stays known if it meets fewer worlds, and if less is asked of its steps.
-/
theorem Always.weaken {E' : Request → World γ → Prop}
    {G' : Request → World γ → World γ → Prop} {x : Call γ α} (hx : Always E G Q x)
    (hE : ∀ l w, E' l w → E l w) (hG : ∀ l w w', E' l w → G l w w' → G' l w w') :
    Always E' G' Q x :=
  Prog.Always.weaken hx hE hG

/-- What is known of the steps of a call, whatever the call returns. -/
theorem Always.steps {E' : Request → World γ → Prop} {x : Call γ α} (hx : Always E G Q x)
    (hE : ∀ l w, E' l w → E l w) : Prog.Always E' G (fun _ => True) x :=
  (Prog.Always.weaken hx hE fun _ _ _ _ h => h).mono fun _ _ => trivial

/-- A script is executed in one step, and the call goes on with the server's reply. -/
theorem Always.execute {l : Request} {x : Script α} {k : Except OxanaError α → Call γ β}
    (hG : ∀ w, E l w → G l w (w.after x))
    (hk : ∀ w, E l w → Always E G R (k (replyOf (x w.store).1))) :
    Always E G R (execute l x k) :=
  fun w hw => ⟨hG w hw, hk w hw⟩

/-- A request is sent: it is executed in one step, and what is returned is the result of the script.
It may be lost on its way, or its reply may be. -/
theorem Always.send {l : Request} {x : Script α} (hG : ∀ w, E l w → G l w (w.after x))
    (hok : ∀ w a, E l w → (x w.store).1 = .ok a → Q a) : Always E G Q (send l x) := by
  refine .ask fun c => ?_
  rcases c.delivery with _ | _ | _
  · exact .fail _
  · exact .execute hG fun _ _ => .fail _
  · refine .execute hG fun w hw a ha => ?_
    rcases hx : (x w.store).1 with e | b
    · rw [hx] at ha
      cases ha
    · rw [hx] at ha
      cases ha
      exact hok w a hw hx

/-- The commands of a pipeline are executed step by step, and every reply is a reply to its command.
-/
theorem Always.pipelined {xs : List (Request × Script α)} {Q : Script α → α → Prop}
    (hG : ∀ x ∈ xs, ∀ w, E x.1 w → G x.1 w (w.after x.2))
    (hok : ∀ x ∈ xs, ∀ w a, E x.1 w → (x.2 w.store).1 = .ok a → Q x.2 a) :
    Always E G (List.Forall₂ (fun x a => Q x.2 a) xs) (pipelined xs) := by
  induction xs with
  | nil =>
    refine .ask fun c => ?_
    rcases c.delivery with _ | _ | _
    · exact .fail _
    · exact .fail _
    · exact .pure .nil
  | cons x xs ih =>
    have hrest := ih (fun y hy => hG y (List.mem_cons_of_mem _ hy))
      fun y hy => hok y (List.mem_cons_of_mem _ hy)
    have hgo : Always E G (List.Forall₂ (fun x a => Q x.2 a) (x :: xs))
        (Oxana.execute x.1 x.2 fun r =>
          Call.catching (Oxana.pipelined xs) fun rs => Prog.ret (joinReplies r rs)) := by
      refine .execute (hG x (List.mem_cons_self ..)) fun w hw =>
        .catching hrest (fun as has => ?_) fun e => ?_
      · rcases hx : (x.2 w.store).1 with e | a
        · rintro bs ⟨⟩
        · rintro bs ⟨⟩
          exact .cons (hok x (List.mem_cons_self ..) w a hw hx) has
      · rcases (x.2 w.store).1 with e | a <;> rintro bs ⟨⟩
    refine .ask fun c => ?_
    rcases c.delivery with _ | _ | _
    · exact .fail _
    · exact hgo
    · exact hgo

theorem Always.pipe {l : Request} {xs : List (Script α)} {Q : Script α → α → Prop}
    (hG : ∀ x ∈ xs, ∀ w, E l w → G l w (w.after x))
    (hok : ∀ x ∈ xs, ∀ w a, E l w → (x w.store).1 = .ok a → Q x a) :
    Always E G (List.Forall₂ Q xs) (pipe l xs) := by
  rw [pipe_eq_pipelined]
  refine (Always.pipelined (Q := Q) (fun p hp => ?_) fun p hp => ?_).mono fun as has => ?_
  · obtain ⟨x, hx, rfl⟩ := List.mem_map.mp hp
    exact hG x hx
  · obtain ⟨x, hx, rfl⟩ := List.mem_map.mp hp
    exact hok x hx
  · have hmap : List.Forall₂ (fun x a => Q x.2 a) (xs.map fun x => (l, x)) as := has
    rwa [List.forall₂_map_left_iff] at hmap

/-- Asking for a connection takes no step, and may fail. -/
theorem Always.connection : Always E G (fun _ => True) connection := by
  refine .ask fun c => ?_
  split
  · exact .pure trivial
  · exact .fail _

/-- Reading the clock is a step that changes nothing. -/
theorem Always.now {Q : Int → Prop} (hG : ∀ w, E .now w → G .now w w)
    (hQ : ∀ w, E .now w → Q w.clock) : Always E G Q now := by
  refine fun w hw => ⟨hG w hw, ?_⟩
  rintro t ⟨⟩
  exact hQ w hw

/-- What the rules promise of the traces of a call: every step does what it should, and a result
that is returned is as it should be. -/
theorem Always.trace {x : Call γ α} {q : Prog Request (World γ) Choice (Except OxanaError α)}
    {tr : List (Prog.Event Request (World γ))} (hx : Always E G Q x)
    (ht : Prog.Trace x tr q) (hE : ∀ e ∈ tr, E e.label e.pre) :
    (∀ e ∈ tr, G e.label e.pre e.post) ∧ ∀ a, q = .ret (.ok a) → Q a := by
  obtain ⟨h₁, h₂⟩ := Prog.Always.trace hx ht hE
  exact ⟨h₁, fun a ha => h₂ (.ok a) ha a rfl⟩

/-! ## How a trace begins -/

section Begins

variable {tr : List (Prog.Event Request (World γ))}
  {q : Prog Request (World γ) Choice (Except OxanaError β)}

/-- Taking a connection is no step of its own: a trace of what follows it is all there is. -/
theorem trace_connection {f : Unit → Call γ β} (h : Prog.Trace (connection >>= f : Call γ β) tr q) :
    tr = [] ∨ Prog.Trace (f ()) tr q := by
  rcases h with _ | _ | ⟨h⟩
  · exact .inl rfl
  · next c =>
    by_cases hc : c.delivery = .answered
    · simp only [hc, if_true] at h
      exact .inr h
    · simp only [hc, if_false] at h
      cases h
      exact .inl rfl

/-- Reading the clock is a step of its own, the first one of the trace. -/
theorem trace_now {f : Int → Call γ β} (h : Prog.Trace (now >>= f : Call γ β) tr q) :
    tr = [] ∨ ∃ w tr', tr = ⟨.now, w, w⟩ :: tr' ∧ Prog.Trace (f w.clock) tr' q := by
  rcases h with _ | ⟨h⟩
  · exact .inl rfl
  · exact .inr ⟨_, _, rfl, h⟩

/-- A trace of a sequence is one of its first part, which may not have returned, or goes on with
what the first part has returned. -/
theorem trace_bind {x : Call γ α} {f : α → Call γ β} (h : Prog.Trace (x >>= f : Call γ β) tr q) :
    (∃ p, Prog.Trace x tr p) ∨
      ∃ a tr₁ tr₂, tr = tr₁ ++ tr₂ ∧ Prog.Trace x tr₁ (.ret (.ok a)) ∧
        Prog.Trace (f a) tr₂ q := by
  rcases Prog.Trace.bind_inv h with ⟨p, hp, -⟩ | ⟨r, tr₁, tr₂, rfl, h₁, h₂⟩
  · exact .inl ⟨p, hp⟩
  · rcases r with e | a
    · cases h₂
      exact .inl ⟨_, by rwa [List.append_nil]⟩
    · exact .inr ⟨a, tr₁, tr₂, rfl, h₁, h₂⟩

/-- A call whose result is changed afterwards takes the same steps, and returns what is made of the
result. -/
theorem trace_bind_pure {x : Call γ α} {f : α → β}
    (h : Prog.Trace (x >>= fun a => Pure.pure (f a) : Call γ β) tr q) :
    ∃ p, Prog.Trace x tr p ∧ ∀ b, q = .ret (.ok b) → ∃ a, p = .ret (.ok a) ∧ b = f a := by
  rcases Prog.Trace.bind_inv h with ⟨p, hp, rfl⟩ | ⟨r, tr₁, tr₂, rfl, h₁, h₂⟩
  · refine ⟨p, hp, fun b hb => ?_⟩
    cases p with
    | ret r =>
      cases r with
      | ok a =>
        cases hb
        exact ⟨a, rfl, rfl⟩
      | error e => cases hb
    | halt => cases hb
    | act l g k => cases hb
    | ask k => cases hb
  · cases r with
    | ok a =>
      cases h₂
      refine ⟨_, by rwa [List.append_nil], fun b hb => ?_⟩
      cases hb
      exact ⟨a, rfl, rfl⟩
    | error e =>
      cases h₂
      exact ⟨_, by rwa [List.append_nil], fun b hb => nomatch hb⟩

/-- A request is sent at most once: a trace of it is empty, or one step that executes its script. -/
theorem trace_send {l : Request} {x : Script α}
    {p : Prog Request (World γ) Choice (Except OxanaError α)}
    (h : Prog.Trace (send l x : Call γ α) tr p) : tr = [] ∨ ∃ w, tr = [⟨l, w, w.after x⟩] := by
  have hgo : ∀ {k : Except OxanaError α → Call γ α},
      (∀ a tr', Prog.Trace (k a) tr' p → tr' = []) → Prog.Trace (execute l x k) tr p →
        tr = [] ∨ ∃ w, tr = [⟨l, w, w.after x⟩] := by
    intro k hk h
    cases h with
    | refl => exact .inl rfl
    | @act _ _ _ w tr' _ h =>
      obtain rfl := hk _ tr' h
      exact .inr ⟨w, rfl⟩
  have hret : ∀ (r : Except OxanaError α) tr',
      Prog.Trace (Prog.ret r : Prog Request (World γ) Choice _) tr' p → tr' = [] := by
    intro r tr' h
    cases h
    rfl
  cases h with
  | refl => exact .inl rfl
  | @ask _ c _ _ h =>
    rcases hc : c.delivery with _ | _ | _
    · simp only [hc] at h
      exact .inl (hret _ _ h)
    · simp only [hc] at h
      exact hgo (fun _ => hret _) h
    · simp only [hc] at h
      exact hgo hret h

/-- The commands of a pipeline are executed one after the other; the pipeline may stop after any of
them. -/
theorem trace_pipelined {xs : List (Request × Script α)}
    {p : Prog Request (World γ) Choice (Except OxanaError (List α))}
    (h : Prog.Trace (pipelined xs : Call γ (List α)) tr p) :
    List.Forall₂ (fun x e => ∃ w, e = ⟨x.1, w, w.after x.2⟩) (xs.take tr.length) tr := by
  induction xs generalizing tr p with
  | nil =>
    cases h with
    | refl => exact .nil
    | @ask _ c _ _ h =>
      rcases hc : c.delivery with _ | _ | _ <;> simp only [hc] at h <;> cases h <;> exact .nil
  | cons x xs ih =>
    have hgo : ∀ {p : Prog Request (World γ) Choice (Except OxanaError (List α))},
        Prog.Trace (execute x.1 x.2 (fun r => catching (pipelined xs) fun rs =>
          Prog.ret (joinReplies r rs)) : Call γ (List α)) tr p →
        List.Forall₂ (fun x e => ∃ w, e = ⟨x.1, w, w.after x.2⟩) ((x :: xs).take tr.length) tr := by
      intro p h
      cases h with
      | refl => exact .nil
      | @act _ _ _ w tr' _ h =>
        refine .cons ⟨w, rfl⟩ ?_
        rcases Prog.Trace.bind_inv h with ⟨p', hp, -⟩ | ⟨r, tr₁, tr₂, rfl, h₁, h₂⟩
        · exact ih hp
        · cases h₂
          rw [List.append_nil]
          exact ih h₁
    cases h with
    | refl => exact .nil
    | @ask _ c _ _ h =>
      rcases hc : c.delivery with _ | _ | _
      · simp only [hc] at h
        cases h
        exact .nil
      · simp only [hc] at h
        exact hgo h
      · simp only [hc] at h
        exact hgo h

theorem trace_pipe {l : Request} {xs : List (Script α)}
    {p : Prog Request (World γ) Choice (Except OxanaError (List α))}
    (h : Prog.Trace (pipe l xs : Call γ (List α)) tr p) :
    List.Forall₂ (fun x e => ∃ w, e = ⟨l, w, w.after x⟩) (xs.take tr.length) tr := by
  rw [pipe_eq_pipelined] at h
  have hevents := trace_pipelined h
  rwa [← List.map_take, List.forall₂_map_left_iff] at hevents

end Begins

/-! ## Calls that return -/

/-- The call can take the steps `tr`, with whatever happens between them, and return the value `a`.
-/
def Returns (x : Call γ α) (tr : List (Prog.Event Request (World γ))) (a : α) : Prop :=
  Prog.Trace x tr (.ret (.ok a))

/-- The choice with which nothing gets lost and nothing fails. -/
def fine : Choice := {}

theorem Returns.pure (a : α) : Returns (pure a : Call γ α) [] a := .refl _

theorem Returns.ask {k : Choice → Call γ α} {tr : List (Prog.Event Request (World γ))} {a : α}
    (c : Choice) (h : Returns (k c) tr a) : Returns (ask k) tr a := Prog.Trace.ask h

/-- Two calls in sequence return if both do, after the steps of the one and then of the other. -/
theorem Returns.bind {x : Call γ α} {f : α → Call γ β} {a : α} {b : β}
    {tr₁ tr₂ : List (Prog.Event Request (World γ))} (h₁ : Returns x tr₁ a)
    (h₂ : Returns (f a) tr₂ b) : Returns (x >>= f) (tr₁ ++ tr₂) b :=
  Prog.Trace.bind h₁ h₂

/-- A call whose errors are caught returns if the call does, and if what is done with its result
does. -/
theorem Returns.catching {x : Call γ α} {f : Except OxanaError α → Call γ β} {a : α} {b : β}
    {tr₁ tr₂ : List (Prog.Event Request (World γ))} (h₁ : Returns x tr₁ a)
    (h₂ : Returns (f (.ok a)) tr₂ b) : Returns (catching x f) (tr₁ ++ tr₂) b :=
  Prog.Trace.bind h₁ h₂

theorem Returns.connection : Returns (connection : Call γ Unit) [] () :=
  Returns.ask fine (.pure ())

theorem Returns.now (w : World γ) : Returns now [⟨.now, w, w⟩] w.clock :=
  Prog.Trace.act (.refl _)

/-- A request returns the result of its script if the script succeeds. -/
theorem Returns.send {l : Request} {x : Script α} {a : α} (w : World γ)
    (h : (x w.store).1 = .ok a) : Returns (send l x) [⟨l, w, w.after x⟩] a := by
  refine .ask fine (Prog.Trace.act ?_)
  rw [h]
  exact .refl _

/-- An answer that has been computed as an option is the answer. -/
theorem ok_of_toOption {ε : Type} {x : Except ε α} {a : α} (h : x.toOption = some a) :
    x = .ok a := by
  cases x with
  | error e => cases h
  | ok b => exact congrArg _ (Option.some.inj h)

/-- A call that begins with a value goes on with it at once. -/
theorem Returns.pure_bind {a : α} {f : α → Call γ β} {b : β} (h : Returns (f a) tr b) :
    Returns (Pure.pure a >>= f) tr b :=
  (Returns.pure a).bind h

theorem Returns.pipelined_nil : Returns (pipelined [] : Call γ (List α)) [] [] :=
  .ask fine (.pure [])

/-- A pipeline returns if its first command succeeds and the others return. -/
theorem Returns.pipelined_cons {l : Request} {x : Script α} {xs : List (Request × Script α)} {a : α}
    {as : List α} {tr : List (Prog.Event Request (World γ))} (w : World γ)
    (h : (x w.store).1 = .ok a) (hrest : Returns (pipelined xs) tr as) :
    Returns (pipelined ((l, x) :: xs)) (⟨l, w, w.after x⟩ :: tr) (a :: as) := by
  refine .ask fine (Prog.Trace.act ?_)
  rw [h, ← List.append_nil tr]
  exact Prog.Trace.bind hrest (.refl _)

theorem Returns.pipe_nil {l : Request} : Returns (pipe l [] : Call γ (List α)) [] [] :=
  .pipelined_nil

theorem Returns.pipe_cons {l : Request} {x : Script α} {xs : List (Script α)} {a : α}
    {as : List α} {tr : List (Prog.Event Request (World γ))} (w : World γ)
    (h : (x w.store).1 = .ok a) (hrest : Returns (pipe l xs) tr as) :
    Returns (pipe l (x :: xs)) (⟨l, w, w.after x⟩ :: tr) (a :: as) := by
  rw [pipe_eq_pipelined] at hrest ⊢
  exact .pipelined_cons w h hrest

/-! ## What a call that returned has done -/

section Inversion

variable {tr : List (Prog.Event Request (World γ))} {a : α} {b : β}

theorem Returns.pure_inv {a' : α} (h : Returns (Pure.pure a : Call γ α) tr a') :
    tr = [] ∧ a' = a := by
  cases h
  exact ⟨rfl, rfl⟩

theorem Returns.fail_inv {e : OxanaError} (h : Returns (fail e : Call γ α) tr a) : False := by
  cases h

theorem Returns.hang_inv (h : Returns (hang : Call γ α) tr a) : False := by
  cases h

theorem Returns.ask_inv {k : Choice → Call γ α} (h : Returns (Call.ask k) tr a) :
    ∃ c, Returns (k c) tr a := by
  cases h with
  | ask h => exact ⟨_, h⟩

theorem Returns.ret_inv {r : Except OxanaError α}
    (h : Returns (Prog.ret r : Call γ α) tr a) : tr = [] ∧ r = .ok a := by
  simp only [Returns] at h
  generalize hq : (Prog.ret (Except.ok a) : Prog Request (World γ) Choice _) = q at h
  generalize hp : (Prog.ret r : Prog Request (World γ) Choice _) = p at h
  cases h with
  | refl => exact ⟨rfl, Prog.ret.inj (hp.trans hq.symm)⟩
  | act _ => cases hp
  | ask _ => cases hp

/-- Inversion: what returns after a call whose errors are caught has seen the call end, with a
result or an error. -/
theorem Returns.catching_inv {x : Call γ α} {f : Except OxanaError α → Call γ β}
    (h : Returns (Call.catching x f) tr b) :
    ∃ r tr₁ tr₂, tr = tr₁ ++ tr₂ ∧ Prog.Trace x tr₁ (.ret r) ∧ Returns (f r) tr₂ b := by
  rcases Prog.Trace.bind_inv h with ⟨p', hp, hq⟩ | ⟨r, tr₁, tr₂, rfl, h₁, h₂⟩
  · rcases p' with r | _ | _ | _
    · refine ⟨r, tr, [], (List.append_nil tr).symm, hp, ?_⟩
      have hq' : (f r : Prog Request (World γ) Choice (Except OxanaError β)) = .ret (.ok b) :=
        hq.symm
      rw [Returns, hq']
      exact .refl _
    · cases hq
    · cases hq
    · cases hq
  · exact ⟨r, tr₁, tr₂, rfl, h₁, h₂⟩

/-- Inversion: a sequence that returns consists of two calls that do. -/
theorem Returns.bind_inv {x : Call γ α} {f : α → Call γ β} (h : Returns (x >>= f) tr b) :
    ∃ a tr₁ tr₂, tr = tr₁ ++ tr₂ ∧ Returns x tr₁ a ∧ Returns (f a) tr₂ b := by
  obtain ⟨r, tr₁, tr₂, rfl, h₁, h₂⟩ := Returns.catching_inv h
  rcases r with e | a
  · exact h₂.fail_inv.elim
  · exact ⟨a, tr₁, tr₂, rfl, h₁, h₂⟩

/-- Inversion: a script was executed in the first step, and the rest has gone on with the reply. -/
theorem Returns.execute_inv {l : Request} {x : Script α} {k : Except OxanaError α → Call γ β}
    (h : Returns (Oxana.execute l x k) tr b) :
    ∃ (w : World γ) (tr' : _), tr = ⟨l, w, w.after x⟩ :: tr' ∧
      Returns (k (replyOf (x w.store).1)) tr' b := by
  cases h with
  | act h => exact ⟨_, _, rfl, h⟩

theorem replyOf_ok {r : Except Err α} (h : replyOf r = .ok a) : r = .ok a := by
  cases r with
  | ok b => exact congrArg Except.ok (Except.ok.inj h)
  | error e => cases h

/-- Inversion: a request that returns was one step, and its script has succeeded with what is
returned. -/
theorem Returns.send_inv {l : Request} {x : Script α} (h : Returns (Oxana.send l x) tr a) :
    ∃ w : World γ, tr = [⟨l, w, w.after x⟩] ∧ (x w.store).1 = .ok a := by
  obtain ⟨c, h⟩ := h.ask_inv
  rcases hc : c.delivery with _ | _ | _
  · simp only [hc] at h
    exact h.fail_inv.elim
  · simp only [hc] at h
    obtain ⟨w, tr', -, h⟩ := h.execute_inv
    exact h.fail_inv.elim
  · simp only [hc] at h
    obtain ⟨w, tr', rfl, hret⟩ := h.execute_inv
    obtain ⟨rfl, hr⟩ := hret.ret_inv
    exact ⟨w, rfl, replyOf_ok hr⟩

theorem Returns.connection_inv {f : Unit → Call γ β}
    (h : Returns (Oxana.connection >>= f) tr b) : Returns (f ()) tr b := by
  obtain ⟨_, tr₁, tr₂, rfl, hconn, hrest⟩ := h.bind_inv
  obtain ⟨c, hconn⟩ := hconn.ask_inv
  by_cases hc : c.delivery = .answered
  · rw [if_pos hc] at hconn
    obtain ⟨rfl, -⟩ := hconn.pure_inv
    exact hrest
  · rw [if_neg hc] at hconn
    exact hconn.fail_inv.elim

/-- Each reply of a pipeline is the reply to its command, at one of the steps of the pipeline. -/
theorem Returns.pipe_inv {l : Request} {xs : List (Script α)} {as : List α}
    (h : Returns (Oxana.pipe l xs) tr as) :
    List.Forall₂ (fun x a => ∃ e ∈ tr, e.label = l ∧ e.post = e.pre.after x ∧
      (x e.pre.store).1 = .ok a) xs as := by
  induction xs generalizing tr as with
  | nil =>
    obtain ⟨c, h⟩ := h.ask_inv
    rcases hc : c.delivery with _ | _ | _
    · simp only [hc] at h
      exact h.fail_inv.elim
    · simp only [hc] at h
      exact h.fail_inv.elim
    · simp only [hc] at h
      obtain ⟨-, rfl⟩ := h.pure_inv
      exact .nil
  | cons x xs ih =>
    obtain ⟨c, h⟩ := h.ask_inv
    have hgo : Returns (Oxana.execute l x fun r =>
        Call.catching (Oxana.pipe l xs) fun rs => Prog.ret (joinReplies r rs)) tr as := by
      rcases hc : c.delivery with _ | _ | _
      · simp only [hc] at h
        exact h.fail_inv.elim
      · simpa only [hc] using h
      · simpa only [hc] using h
    obtain ⟨w, tr', rfl, hcatch⟩ := hgo.execute_inv
    obtain ⟨rs, tr₁, tr₂, rfl, hrest, hjoin⟩ := hcatch.catching_inv
    obtain ⟨rfl, hj⟩ := hjoin.ret_inv
    rcases hr : replyOf (x w.store).1 with e | a
    · rw [hr] at hj
      cases hj
    · rcases rs with e | as'
      · rw [hr] at hj
        cases hj
      · rw [hr] at hj
        obtain rfl := Except.ok.inj hj
        refine .cons ⟨_, List.mem_cons_self .., rfl, rfl, replyOf_ok hr⟩ ?_
        refine (ih hrest).imp ?_
        rintro x a ⟨e, he, hl⟩
        exact ⟨e, List.mem_cons_of_mem _ (List.mem_append_left _ he), hl⟩

theorem Returns.pipe_label {l : Request} {xs : List (Script α)} {as : List α}
    (h : Returns (Oxana.pipe l xs) tr as) : ∀ e ∈ tr, e.label = l :=
  ((Always.pipe (E := fun _ _ => True) (G := fun l' _ _ => l' = l) (Q := fun _ _ => True)
    (fun _ _ _ _ => rfl) fun _ _ _ _ _ _ => trivial).trace h fun _ _ => trivial).1

end Inversion

/-- A payload that can be decoded is decoded without a step. -/
theorem Returns.decoded {p : String} {e : JobEnvelope} (h : JobEnvelope.decode p = some e) :
    Returns (decoded p : Call γ JobEnvelope) [] e := by
  simp only [Oxana.decoded]
  rw [h]
  exact .pure e

/-- A client made of a call whose result nobody waits for. -/
def client (x : Call γ α) : Prog Request (World γ) Choice Unit :=
  Prog.bind x fun _ => .ret ()

/-! ## Laws of sequences -/

theorem bind_assoc {δ : Type} (x : Call γ α) (f : α → Call γ β) (g : β → Call γ δ) :
    (x >>= f) >>= g = x >>= fun a => f a >>= g := by
  refine (Prog.bind_assoc _ _ _).trans (congrArg (Prog.bind x) (funext fun r => ?_))
  cases r with
  | ok a => rfl
  | error e => rfl

theorem pure_bind (a : α) (f : α → Call γ β) : (Pure.pure a : Call γ α) >>= f = f a := rfl

end Call

/-! ## Reads

What a reading operation does is said by what it may read. -/

section Reads

open Call

variable {E : Request → World γ → Prop} {G : Request → World γ → World γ → Prop}

/-- A step that only reads leaves the world as it is. -/
theorem World.after_read {w : World γ} {x : Script α} (h : (x w.store).2 = w.store) :
    w.after x = w := by
  rw [World.after, h]

/-- A request that only reads returns what it has read, in a world in which it may be sent. -/
theorem Call.Always.read {l : Request} {x : Script α} {Q : α → Prop} (hx : ∀ s, (x s).2 = s)
    (hG : ∀ w, E l w → G l w w) (hQ : ∀ w a, E l w → (x w.store).1 = .ok a → Q a) :
    Always E G Q (Oxana.send l x) := by
  refine .send (fun w hw => ?_) hQ
  rw [World.after_read (hx _)]
  exact hG w hw

/-- What `transition_snapshot` returns is a payload with its envelope. -/
def Decoded : Option (String × JobEnvelope) → Prop
  | none => True
  | some (p, e) => JobEnvelope.decode p = some e

/-- The script's argument for what was found says the same: the payload that was read, or that
nothing was. -/
theorem Decoded.expected {found : Option (String × JobEnvelope)} (h : Decoded found) :
    expectedPayload ((found.map (·.1)).getD "") = found.map (·.1) := by
  cases found with
  | none => rfl
  | some pe =>
    have hne : pe.1 ≠ "" := by
      intro hnil
      have hempty : JobEnvelope.decode "" = none :=
        Option.isNone_iff_eq_none.mp (by decide +kernel)
      rw [Decoded, hnil, hempty] at h
      cases h
    exact if_pos hne

/-- The snapshot of a transition is what is stored, with the envelope it says, or that nothing is
stored. -/
theorem transitionSnapshot_always {K : StorageKeys} (hG : ∀ w, E .hget w → G .hget w w)
    (id : JobId) : Call.Always E G Decoded (transitionSnapshot K id) := by
  refine .bind (Q := fun _ => True) (.read (fun s => hget_snd ..) hG fun _ _ _ _ => trivial)
    fun payload _ => ?_
  rcases payload with _ | p
  · exact .pure trivial
  · refine .bind (Q := fun e => JobEnvelope.decode p = some e) ?_ fun e he => .pure he
    simp only [decoded]
    split
    · next e he => exact .pure he
    · exact .fail _

variable {H : Handle}

theorem getJobOn_always (hG : ∀ w, E .hget w → G .hget w w) (id : JobId) :
    Call.Always E G (fun _ => True) (getJobOn H id) :=
  (transitionSnapshot_always hG id).bind fun _ _ => .pure trivial

theorem getJob_always (hG : ∀ w, E .hget w → G .hget w w) (id : JobId) :
    Call.Always E G (fun _ => True) (getJob H id) :=
  Always.connection.bind fun _ _ => getJobOn_always hG id

theorem getClaimedJob_always (hG : ∀ w, E .hget w → G .hget w w) (id : JobId) :
    Call.Always E G (fun _ => True) (getClaimedJob H id) := by
  refine .ask fun c => ?_
  induction c.rounds with
  | zero => exact getJob_always hG id
  | succ n ih =>
    refine (getJob_always hG id).catching (fun _ _ => .pure trivial) fun e => ?_
    rcases e with (_ | _) | _ | _ | _ | _
    · exact .fail _
    · exact ih
    · exact .fail _
    · exact .fail _
    · exact .fail _
    · exact .fail _

/-- A scan reads page by page, and changes nothing. -/
theorem scanKeys_always (hG : ∀ w, E .scan w → G .scan w w) (pattern : String) (n : Nat) :
    Call.Always E G (fun _ => True) (scanKeys pattern n) := by
  induction n with
  | zero => exact .hang
  | succ n ih =>
    refine .ask fun c => (Always.read (Q := fun _ => True) (fun _ => rfl) hG
      fun _ _ _ _ => trivial).bind fun keys _ => ?_
    split
    · exact .pure trivial
    · exact ih.bind fun _ _ => .pure trivial

theorem queueKeysOf_always {K : StorageKeys} (hG : ∀ w, E .scan w → G .scan w w)
    (raw : Option String) :
    Call.Always E G (fun keys => raw = none → keys = []) (queueKeysOf K raw) := by
  rcases raw with _ | p
  · exact .pure fun _ => rfl
  · have hsome : ∀ keys : List Key, some p = none → keys = [] := fun _ h => nomatch h
    rw [queueKeysOf]
    rcases rawQueue p with _ | q
    · exact .ask fun c => (scanKeys_always hG _ _).mono fun keys _ => hsome keys
    · exact .pure (hsome _)

end Reads

end Oxana
