import Oxana.Interleave.Within

/-!
# What a pool can still do

From a reachable pool the system may go on in many ways. Two of them are always
open: everybody stops, and a client that may be started runs alone. What holds
then says what is still possible.
-/

namespace Interleave

variable {ο ℓ σ ι τ : Type} {launch : σ → ο → Prog ℓ σ ι Unit → σ → Prop}
  {env : Pool ο ℓ σ ι → σ → Prop} {w : σ} {c c' : Pool ο ℓ σ ι}

/-! ### Everybody stops -/

/-- In a reachable pool only finitely many clients are running, as each of them has been launched.
-/
theorem Pool.Reachable.bounded (h : Pool.Reachable launch env w c) :
    ∃ n, ∀ i, n ≤ i → c.threads i = none := by
  have hupdate {c : Pool ο ℓ σ ι} {n : ℕ} (hn : ∀ i, n ≤ i → c.threads i = none) (j : ℕ)
      (th : Option (Thread ο ℓ σ ι)) :
      ∃ m, ∀ i, m ≤ i → Function.update c.threads j th i = none := by
    refine ⟨max n (j + 1), fun i hi => ?_⟩
    rw [Function.update_of_ne (by omega)]
    exact hn i (by omega)
  induction h with
  | start => exact ⟨0, fun _ _ => rfl⟩
  | next _ hstep ih =>
    obtain ⟨n, hn⟩ := ih
    cases hstep with
    | launch => exact hupdate hn _ _
    | run => exact hupdate hn _ _
    | stop => exact hupdate hn _ _
    | env => exact ⟨n, hn⟩

/-- All clients of a pool may stop, one after the other, and the world is as it was. -/
theorem Pool.stops {n : ℕ} (h : ∀ i, n ≤ i → c.threads i = none) :
    Relation.ReflTransGen (Pool.Step launch env) c (Pool.idle c.world) := by
  induction n generalizing c with
  | zero =>
    have hidle : c = Pool.idle c.world := by
      obtain ⟨w, threads⟩ := c
      obtain rfl : threads = fun _ => none := funext fun i => h i (Nat.zero_le i)
      rfl
    rw [← hidle]
  | succ n ih =>
    have hstop : Pool.Step launch env c ⟨c.world, Function.update c.threads n none⟩ := .stop
    refine .head hstop (ih (c := ⟨c.world, Function.update c.threads n none⟩) fun i hi => ?_)
    by_cases hin : i = n
    · rw [hin]
      exact Function.update_self ..
    · refine (Function.update_of_ne hin ..).trans (h i ?_)
      omega

/-- In every reachable pool all clients may stop at once, and the world is as it was. -/
theorem Pool.Reachable.crash (h : Pool.Reachable launch env w c) :
    Relation.ReflTransGen (Pool.Step launch env) c (Pool.idle c.world) := by
  obtain ⟨n, hn⟩ := h.bounded
  exact Pool.stops hn

/-! ### A client runs alone -/

/-- A chain of steps can be continued by one that begins where it ends. -/
theorem Prog.Chained.append {s s₁ s' : σ} {tr tr' : List (Prog.Event ℓ σ)}
    (h : Prog.Chained s tr s₁) (h' : Prog.Chained s₁ tr' s') : Prog.Chained s (tr ++ tr') s' := by
  induction tr generalizing s with
  | nil =>
    obtain rfl : s = s₁ := h
    exact h'
  | cons e tr ih => exact ⟨h.1, ih h.2⟩

/-- A client that may be started can be started at once and take a few steps before anybody else
does. -/
theorem Pool.client_runs {o : ο} {p q : Prog ℓ σ ι Unit} {tr : List (Prog.Event ℓ σ)} {w' s' : σ}
    (hl : launch c.world o p w') (ht : Prog.Trace p tr q) (hc : Prog.Chained w' tr s') :
    ∃ threads, Relation.ReflTransGen (Pool.Step launch env) c ⟨s', threads⟩ := by
  have hfree : Function.update c.threads 0 none 0 = none := Function.update_self ..
  have hstop : Pool.Step launch env c ⟨c.world, Function.update c.threads 0 none⟩ := .stop
  have hopen : Pool.Step launch env ⟨c.world, Function.update c.threads 0 none⟩
      ⟨w', Function.update (Function.update c.threads 0 none) 0 (some ⟨o, p⟩)⟩ := .launch hfree hl
  exact ⟨_, .head hstop (.head hopen (Pool.steps_of_trace (Function.update_self ..) ht hc))⟩

/-! ### Where the world goes -/

/-- In every move of a reachable pool the world moves in a direction that the discipline allows for
all clients, unless the surroundings move it. -/
theorem Discipline.step_moves {D : Discipline ο σ τ} {R : ℓ → σ → σ → Prop}
    (hL : D.LaunchIn R launch) (hE : D.EnvOk env) (hw : D.inv w)
    (h : Pool.Reachable launch env w c) (hstep : Pool.Step launch env c c') :
    (∀ o, D.moves o c.world c'.world) ∨ env c c'.world := by
  obtain ⟨hold, hk⟩ := reachable_keptIn hL hE hw h
  cases hstep with
  | launch hnone hl =>
    obtain ⟨T, htr, -⟩ := hL _ _ _ _ hk.kept.inv hl
    exact .inl htr.moves
  | run hth hs =>
    obtain ⟨P, hP, hPw, hsafe⟩ := hk.steps _ _ hth
    cases hs with
    | act =>
      obtain ⟨-, T', htr, -⟩ := hsafe _ hk.kept.inv hPw (hk.kept.owns _)
      exact .inl htr.moves
    | ask i => exact .inl fun o => D.moves_refl o _
  | stop => exact .inl fun o => D.moves_refl o _
  | env he => exact .inr he

end Interleave
