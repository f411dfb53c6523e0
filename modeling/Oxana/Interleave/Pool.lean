import Oxana.Interleave.Prog
import Mathlib.Data.Set.Disjoint
import Mathlib.Logic.Relation
import Mathlib.Data.Set.BooleanAlgebra
import Mathlib.Order.CompletePartialOrder

/-!
# Closed systems of clients, and who owns what

A `Pool` is a world with a family of running clients. It moves when a client
takes its next step, when a new client is launched, when one stops (a crash is
nothing else), or when the surroundings move the world themselves.

An invariant of all interleavings is proved client by client, by **ownership**.
A discipline names a set of *tokens*; owning a token is a fact about the world
(`owns`) that only its owner may break. The invariant of the world and the
tokens in a client's hands are then all the client has to reason with:

* every step keeps the invariant of the world and every fact owned by others;
* a step may trade the client's tokens for others, as long as the new ones
  were nobody's — their facts did not hold before.

`Safe` is this obligation, by recursion on the program; `Launch`ed clients
bring their tokens with them. `Pool.reachable_inv` is the soundness theorem:
what every client keeps, every reachable pool has.

Each token belongs to the clients of one owner (`mine`), so that the
surroundings may move the world against an owner none of whose clients is
running. Facts that are never undone once true (`moves` says which way the
world can move while somebody runs for `o`) may be carried along without a
token, as `K`.
-/

namespace Interleave

variable {ο ℓ σ ι τ α β : Type}

/-- A client that is running, and on whose behalf it runs. -/
structure Thread (ο ℓ σ ι : Type) where
  /-- on whose behalf -/
  owner : ο
  /-- what is left to do -/
  prog : Prog ℓ σ ι Unit

/-- A shared world and the clients that are running in it, each with a number of its own. -/
structure Pool (ο ℓ σ ι : Type) where
  /-- the shared world -/
  world : σ
  /-- the running clients -/
  threads : ℕ → Option (Thread ο ℓ σ ι)

/-- The next step of a client: what it does to the world, and what is left of the program after it.
-/
inductive Prog.Step : Prog ℓ σ ι α → σ → σ → Prog ℓ σ ι α → Prop where
  | act {l : ℓ} {f : σ → σ} {k : σ → Prog ℓ σ ι α} {s : σ} : Step (.act l f k) s (f s) (k s)
  | ask {k : ι → Prog ℓ σ ι α} {s : σ} (i : ι) : Step (.ask k) s s (k i)

namespace Pool

/-- One move of the system. `launch w o p w'` says which clients may be
started, `env c w'` how the surroundings may move the world. -/
inductive Step (launch : σ → ο → Prog ℓ σ ι Unit → σ → Prop)
    (env : Pool ο ℓ σ ι → σ → Prop) : Pool ο ℓ σ ι → Pool ο ℓ σ ι → Prop where
  | launch {c : Pool ο ℓ σ ι} {i : ℕ} {o : ο} {p : Prog ℓ σ ι Unit} {w' : σ} :
      c.threads i = none → launch c.world o p w' →
      Step launch env c ⟨w', Function.update c.threads i (some ⟨o, p⟩)⟩
  | run {c : Pool ο ℓ σ ι} {i : ℕ} {o : ο} {p p' : Prog ℓ σ ι Unit} {w' : σ} :
      c.threads i = some ⟨o, p⟩ → p.Step c.world w' p' →
      Step launch env c ⟨w', Function.update c.threads i (some ⟨o, p'⟩)⟩
  | stop {c : Pool ο ℓ σ ι} {i : ℕ} :
      Step launch env c ⟨c.world, Function.update c.threads i none⟩
  | env {c : Pool ο ℓ σ ι} {w' : σ} : env c w' → Step launch env c ⟨w', c.threads⟩

/-- The pool with nobody running, in some world. -/
def idle (w : σ) : Pool ο ℓ σ ι := ⟨w, fun _ => none⟩

/-- What can be reached from a world with nobody running, by launching clients, their steps and the
surroundings. -/
inductive Reachable (launch : σ → ο → Prog ℓ σ ι Unit → σ → Prop)
    (env : Pool ο ℓ σ ι → σ → Prop) (w : σ) : Pool ο ℓ σ ι → Prop where
  | start : Reachable launch env w (idle w)
  | next {c c' : Pool ο ℓ σ ι} :
      Reachable launch env w c → Step launch env c c' → Reachable launch env w c'

end Pool

/-! ### Runs of one client -/

/-- The steps follow each other, from `s` to `s'`, with nothing in between. -/
def Prog.Chained : σ → List (Prog.Event ℓ σ) → σ → Prop
  | s, [], s' => s = s'
  | s, e :: tr, s' => e.pre = s ∧ Prog.Chained e.post tr s'

/-- A chain of steps can be cut anywhere: what comes before the cut ends where what comes behind it
begins. -/
theorem Prog.Chained.split {s s' : σ} {tr tr' : List (Prog.Event ℓ σ)}
    (h : Prog.Chained s (tr ++ tr') s') :
    ∃ s₁, Prog.Chained s tr s₁ ∧ Prog.Chained s₁ tr' s' := by
  induction tr generalizing s with
  | nil => exact ⟨s, rfl, h⟩
  | cons e tr ih =>
    obtain ⟨hpre, hrest⟩ := h
    obtain ⟨s₁, h₁, h₂⟩ := ih hrest
    exact ⟨s₁, ⟨hpre, h₁⟩, h₂⟩

/-- What each step of a chain keeps holds all along the chain, before every step and in the end. -/
theorem Prog.Chained.always {I : σ → Prop} {s s' : σ} {tr : List (Prog.Event ℓ σ)}
    (h : Prog.Chained s tr s') (hs : I s) (hkeep : ∀ e ∈ tr, I e.pre → I e.post) :
    I s' ∧ ∀ e ∈ tr, I e.pre := by
  induction tr generalizing s with
  | nil =>
    obtain rfl : s = s' := h
    exact ⟨hs, fun _ he => absurd he List.not_mem_nil⟩
  | cons e tr ih =>
    obtain ⟨rfl, hrest⟩ := h
    obtain ⟨hs', hall⟩ := ih hrest (hkeep e (List.mem_cons_self ..) hs) fun e' he' =>
      hkeep e' (List.mem_cons_of_mem _ he')
    refine ⟨hs', fun e' he' => ?_⟩
    rcases List.mem_cons.mp he' with rfl | he'
    · exact hs
    · exact hall e' he'

/-- A chain of steps that leave the world alone: every one of them meets the world with which the
chain began. -/
theorem Prog.Chained.idle {s s' : σ} {tr : List (Prog.Event ℓ σ)} (h : Prog.Chained s tr s')
    (hidle : ∀ e ∈ tr, e.post = e.pre) : s' = s ∧ ∀ e ∈ tr, e.pre = s :=
  h.always (I := (· = s)) rfl fun e he hpre => (hidle e he).trans hpre

/-- A client takes a few steps while all others wait. This is a run of any system in which a client
may go on with its next step. -/
theorem Pool.runs_of_trace {R : Pool ο ℓ σ ι → Pool ο ℓ σ ι → Prop}
    (hR : ∀ {c : Pool ο ℓ σ ι} {i : ℕ} {o : ο} {p p' : Prog ℓ σ ι Unit} {w' : σ},
      c.threads i = some ⟨o, p⟩ → p.Step c.world w' p' →
        R c ⟨w', Function.update c.threads i (some ⟨o, p'⟩)⟩)
    {c : Pool ο ℓ σ ι} {i : ℕ} {o : ο} {p q : Prog ℓ σ ι Unit} {tr : List (Prog.Event ℓ σ)} {s' : σ}
    (hth : c.threads i = some ⟨o, p⟩) (ht : Prog.Trace p tr q) (hc : Prog.Chained c.world tr s') :
    Relation.ReflTransGen R c ⟨s', Function.update c.threads i (some ⟨o, q⟩)⟩ := by
  induction ht generalizing c with
  | refl p =>
    obtain rfl : c.world = s' := hc
    rw [← hth, Function.update_eq_self]
  | @act l f k s tr q _ ih =>
    obtain ⟨hpre, hrest⟩ := hc
    replace hpre : s = c.world := hpre
    subst hpre
    have hnext := ih (c := ⟨f c.world, Function.update c.threads i (some ⟨o, k c.world⟩)⟩)
      (Function.update_self ..) hrest
    rw [Function.update_idem] at hnext
    exact .head (hR hth .act) hnext
  | @ask k j tr q _ ih =>
    have hnext := ih (c := ⟨c.world, Function.update c.threads i (some ⟨o, k j⟩)⟩)
      (Function.update_self ..) hc
    rw [Function.update_idem] at hnext
    exact .head (hR hth (.ask j)) hnext

/-- A client of a pool may take a few steps while all others wait. -/
theorem Pool.steps_of_trace {launch : σ → ο → Prog ℓ σ ι Unit → σ → Prop}
    {env : Pool ο ℓ σ ι → σ → Prop} {c : Pool ο ℓ σ ι} {i : ℕ} {o : ο} {p q : Prog ℓ σ ι Unit}
    {tr : List (Prog.Event ℓ σ)} {s' : σ} (hth : c.threads i = some ⟨o, p⟩)
    (ht : Prog.Trace p tr q) (hc : Prog.Chained c.world tr s') :
    Relation.ReflTransGen (Pool.Step launch env) c
      ⟨s', Function.update c.threads i (some ⟨o, q⟩)⟩ :=
  Pool.runs_of_trace (fun hth hstep => .run hth hstep) hth ht hc

/-- From a reachable pool on, a client may take a few steps while all others wait, and what is
reached is reachable. -/
theorem Pool.Reachable.trace {launch : σ → ο → Prog ℓ σ ι Unit → σ → Prop}
    {env : Pool ο ℓ σ ι → σ → Prop} {w : σ} {c : Pool ο ℓ σ ι}
    (h : Pool.Reachable launch env w c) {i : ℕ} {o : ο} {p q : Prog ℓ σ ι Unit}
    {tr : List (Prog.Event ℓ σ)} {s' : σ} (hth : c.threads i = some ⟨o, p⟩)
    (ht : Prog.Trace p tr q) (hc : Prog.Chained c.world tr s') :
    Pool.Reachable launch env w ⟨s', Function.update c.threads i (some ⟨o, q⟩)⟩ := by
  have hsteps : Relation.ReflTransGen (Pool.Step launch env) c
      ⟨s', Function.update c.threads i (some ⟨o, q⟩)⟩ := Pool.steps_of_trace hth ht hc
  generalize (⟨s', Function.update c.threads i (some ⟨o, q⟩)⟩ : Pool ο ℓ σ ι) = c' at hsteps
  induction hsteps with
  | refl => exact h
  | tail _ hstep ih => exact ih.next hstep

/-- One client stops, and another one is launched in its place and takes a few steps; what is
reached is reachable. -/
theorem Pool.Reachable.client {launch : σ → ο → Prog ℓ σ ι Unit → σ → Prop}
    {env : Pool ο ℓ σ ι → σ → Prop} {w w' s' : σ} {c : Pool ο ℓ σ ι}
    (h : Pool.Reachable launch env w c) {o : ο} {p q : Prog ℓ σ ι Unit}
    {tr : List (Prog.Event ℓ σ)} (hl : launch c.world o p w') (ht : Prog.Trace p tr q)
    (hc : Prog.Chained w' tr s') : ∃ threads, Pool.Reachable launch env w ⟨s', threads⟩ := by
  have hfree : Function.update c.threads 0 none 0 = none := Function.update_self ..
  exact ⟨_, ((h.next (.stop (i := 0))).next (.launch (i := 0) hfree hl)).trace (Function.update_self ..) ht
    hc⟩

/-- More clients can do more: what is reachable with some clients is reachable if there may be
others too. -/
theorem Pool.Reachable.mono {launch launch' : σ → ο → Prog ℓ σ ι Unit → σ → Prop}
    {env : Pool ο ℓ σ ι → σ → Prop} {w : σ} {c : Pool ο ℓ σ ι}
    (hsub : ∀ w o p w', launch w o p w' → launch' w o p w') (h : Pool.Reachable launch env w c) :
    Pool.Reachable launch' env w c := by
  induction h with
  | start => exact .start
  | next _ hstep ih =>
    refine ih.next ?_
    cases hstep with
    | launch hnone hl => exact .launch hnone (hsub _ _ _ _ hl)
    | run hth hs => exact .run hth hs
    | stop => exact .stop
    | env he => exact .env he

/-- A run from a reachable pool ends in a reachable pool. -/
theorem Pool.Reachable.run {launch : σ → ο → Prog ℓ σ ι Unit → σ → Prop}
    {env : Pool ο ℓ σ ι → σ → Prop} {w : σ} {c c' : Pool ο ℓ σ ι}
    (h : Pool.Reachable launch env w c)
    (hrun : Relation.ReflTransGen (Pool.Step launch env) c c') :
    Pool.Reachable launch env w c' := by
  induction hrun with
  | refl => exact h
  | tail _ hstep ih => exact ih.next hstep

/-! ## Invariants that need no ownership -/

/-- Every client that runs keeps to what `Always` says. -/
def Pool.All (E : ℓ → σ → Prop) (G : ℓ → σ → σ → Prop) (c : Pool ο ℓ σ ι) : Prop :=
  ∀ i th, c.threads i = some th → Prog.Always E G (fun _ => True) th.prog

/-- Where nobody runs, everybody keeps to everything. -/
theorem Pool.all_idle (E : ℓ → σ → Prop) (G : ℓ → σ → σ → Prop) (w : σ) :
    (Pool.idle w : Pool ο ℓ σ ι).All E G :=
  fun _ _ hth => nomatch hth

/-- If all clients keep to what `Always` says, they still do when one of them is started, goes on or
stops. -/
theorem Pool.All.update {E : ℓ → σ → Prop} {G : ℓ → σ → σ → Prop} {c : Pool ο ℓ σ ι}
    (h : c.All E G) {j : ℕ} {th' : Option (Thread ο ℓ σ ι)} (w' : σ)
    (hnew : ∀ th, th' = some th → Prog.Always E G (fun _ => True) th.prog) :
    (⟨w', Function.update c.threads j th'⟩ : Pool ο ℓ σ ι).All E G := by
  intro i th hth
  by_cases hij : i = j
  · subst hij
    exact hnew th (by simpa using hth)
  · exact h i th (by simpa [hij] using hth)

/-- What the steps allowed by `G` keep, every move of the system keeps: steps of clients, launches
and moves of the surroundings. -/
theorem Pool.Step.keeps {launch : σ → ο → Prog ℓ σ ι Unit → σ → Prop}
    {env : Pool ο ℓ σ ι → σ → Prop} {E : ℓ → σ → Prop} {G : ℓ → σ → σ → Prop} {I : σ → Prop}
    (hI : ∀ l w, I w → E l w) (hG : ∀ l w w', I w → G l w w' → I w')
    (hL : ∀ w o p w', I w → launch w o p w' → I w' ∧ Prog.Always E G (fun _ => True) p)
    (hE : ∀ c w', I c.world → env c w' → I w') {c c' : Pool ο ℓ σ ι}
    (h : Pool.Step launch env c c') (hw : I c.world) (hc : c.All E G) :
    I c'.world ∧ c'.All E G := by
  cases h with
  | launch hnone hl =>
    obtain ⟨hw', hp⟩ := hL _ _ _ _ hw hl
    refine ⟨hw', hc.update _ ?_⟩
    rintro th ⟨⟩
    exact hp
  | run hth hs =>
    have hp := hc _ _ hth
    cases hs with
    | act =>
      obtain ⟨hstep, hk⟩ := hp _ (hI _ _ hw)
      refine ⟨hG _ _ _ hw hstep, hc.update _ ?_⟩
      rintro th ⟨⟩
      exact hk
    | ask i =>
      refine ⟨hw, hc.update _ ?_⟩
      rintro th ⟨⟩
      exact hp i
  | stop => exact ⟨hw, hc.update _ fun _ hth => nomatch hth⟩
  | env he => exact ⟨hE _ _ hw he, hc⟩

/-- An invariant that every step of every client keeps, whatever it has read before, holds in every
reachable state. This is the induction over runs that most invariants need. -/
theorem Pool.Reachable.always_inv {launch : σ → ο → Prog ℓ σ ι Unit → σ → Prop}
    {env : Pool ο ℓ σ ι → σ → Prop} {I : σ → Prop}
    (hL : ∀ w o p w', I w → launch w o p w' →
      I w' ∧ Prog.Always (fun _ => I) (fun _ _ => I) (fun _ => True) p)
    (hE : ∀ c w', I c.world → env c w' → I w') {w : σ} (hw : I w) {c : Pool ο ℓ σ ι}
    (h : Pool.Reachable launch env w c) : I c.world := by
  suffices I c.world ∧ c.All (fun _ => I) (fun _ _ => I) from this.1
  induction h with
  | start => exact ⟨hw, Pool.all_idle _ _ w⟩
  | next _ hstep ih =>
    exact hstep.keeps (I := I) (fun _ _ h => h) (fun _ _ _ _ h => h) hL hE ih.1 ih.2

/-- From a reachable state on, what every step of every client keeps is kept in every run. The
invariant need not have held before. -/
theorem Pool.Reachable.run_keeps {launch : σ → ο → Prog ℓ σ ι Unit → σ → Prop}
    {env : Pool ο ℓ σ ι → σ → Prop} {G : ℓ → σ → σ → Prop} {I : σ → Prop}
    (hL : ∀ w o p w', launch w o p w' →
      (I w → I w') ∧ Prog.Always (fun _ _ => True) G (fun _ => True) p)
    (hG : ∀ l w w', I w → G l w w' → I w') (hE : ∀ c w', I c.world → env c w' → I w') {w : σ}
    {c c' : Pool ο ℓ σ ι} (h : Pool.Reachable launch env w c) (hw : I c.world)
    (hrun : Relation.ReflTransGen (Pool.Step launch env) c c') : I c'.world := by
  have hc : c.All (fun _ _ => True) G := by
    clear hw hrun
    induction h with
    | start => exact Pool.all_idle _ _ w
    | next _ hstep ih =>
      exact (hstep.keeps (I := fun _ => True) (fun _ _ _ => trivial) (fun _ _ _ _ _ => trivial)
        (fun w o p w' _ hl => ⟨trivial, (hL w o p w' hl).2⟩) (fun _ _ _ _ => trivial) trivial
        ih).2
  suffices I c'.world ∧ c'.All (fun _ _ => True) G from this.1
  induction hrun with
  | refl => exact ⟨hw, hc⟩
  | tail _ hstep ih =>
    exact hstep.keeps (fun _ _ _ => trivial) hG
      (fun w o p w' hI hl => ⟨(hL w o p w' hl).1 hI, (hL w o p w' hl).2⟩) hE ih.1 ih.2

/-- Every client lets the world grow, and it has done so. -/
structure Pool.Extending (valid : σ → Prop) (grows : σ → σ → Prop) (c : Pool ο ℓ σ ι) : Prop where
  /-- the world is valid -/
  world : valid c.world
  /-- it has grown since each client took its last step -/
  threads : ∀ i th, c.threads i = some th →
    ∃ s, grows s c.world ∧ Prog.Extends valid grows s th.prog

section Extending

variable {valid : σ → Prop} {grows : σ → σ → Prop} {c c' : Pool ο ℓ σ ι}

/-- Where nobody runs, the world has grown to itself. -/
theorem Pool.extending_idle {w : σ} (h : valid w) :
    (Pool.idle w : Pool ο ℓ σ ι).Extending valid grows :=
  ⟨h, fun _ _ hth => nomatch hth⟩

/-- If all clients let the world grow, they still do when it has grown and one of them has been
started, goes on or stops. -/
theorem Pool.Extending.update (h : c.Extending valid grows)
    (htrans : ∀ a b c, grows a b → grows b c → grows a c) {w' : σ} (hvalid : valid w')
    (hgrows : grows c.world w') {j : ℕ} {th' : Option (Thread ο ℓ σ ι)}
    (hnew : ∀ th, th' = some th → ∃ s, grows s w' ∧ Prog.Extends valid grows s th.prog) :
    (⟨w', Function.update c.threads j th'⟩ : Pool ο ℓ σ ι).Extending valid grows := by
  refine ⟨hvalid, fun i th hth => ?_⟩
  by_cases hij : i = j
  · subst hij
    exact hnew th (by simpa using hth)
  · obtain ⟨s, hs, hprog⟩ := h.threads i th (by simpa [hij] using hth)
    exact ⟨s, htrans _ _ _ hs hgrows, hprog⟩

/-- If all clients let the world grow, they still do when it has grown by something else. -/
theorem Pool.Extending.grown (h : c.Extending valid grows)
    (htrans : ∀ a b c, grows a b → grows b c → grows a c) {w' : σ} (hvalid : valid w')
    (hgrows : grows c.world w') : (⟨w', c.threads⟩ : Pool ο ℓ σ ι).Extending valid grows := by
  refine ⟨hvalid, fun i th hth => ?_⟩
  obtain ⟨s, hs, hprog⟩ := h.threads i th hth
  exact ⟨s, htrans _ _ _ hs hgrows, hprog⟩

/-- Every move of a system whose clients let the world grow lets it grow, and its clients go on
doing so. -/
theorem Pool.Step.extends {launch : σ → ο → Prog ℓ σ ι Unit → σ → Prop}
    {env : Pool ο ℓ σ ι → σ → Prop} (hrefl : ∀ a, grows a a)
    (htrans : ∀ a b c, grows a b → grows b c → grows a c)
    (hL : ∀ w o p w', valid w → launch w o p w' →
      valid w' ∧ grows w w' ∧ Prog.Extends valid grows w' p)
    (hE : ∀ c w', valid c.world → env c w' → valid w' ∧ grows c.world w')
    (h : Pool.Step launch env c c') (hc : c.Extending valid grows) :
    c'.Extending valid grows ∧ grows c.world c'.world := by
  cases h with
  | launch hnone hl =>
    obtain ⟨hvalid, hgrows, hp⟩ := hL _ _ _ _ hc.world hl
    refine ⟨hc.update htrans hvalid hgrows ?_, hgrows⟩
    rintro th ⟨⟩
    exact ⟨_, hrefl _, hp⟩
  | run hth hs =>
    obtain ⟨s, hsince, hp⟩ := hc.threads _ _ hth
    cases hs with
    | act =>
      obtain ⟨⟨hvalid, hgrows⟩, hk⟩ := hp _ hc.world hsince
      refine ⟨hc.update htrans hvalid hgrows ?_, hgrows⟩
      rintro th ⟨⟩
      exact ⟨_, hrefl _, hk⟩
    | ask i =>
      refine ⟨hc.update htrans hc.world (hrefl _) ?_, hrefl _⟩
      rintro th ⟨⟩
      exact ⟨s, hsince, hp i⟩
  | stop => exact ⟨hc.update htrans hc.world (hrefl _) fun _ hth => (nomatch hth), hrefl _⟩
  | env he =>
    obtain ⟨hvalid, hgrows⟩ := hE _ _ hc.world he
    exact ⟨hc.grown htrans hvalid hgrows, hgrows⟩

end Extending

/-! ## Ownership -/

/-- What a system of clients agrees on: an invariant of the world, and tokens that say who may do
what. -/
structure Discipline (ο σ τ : Type) where
  /-- holds of the world at all times -/
  inv : σ → Prop
  /-- the fact a token stands for -/
  owns : τ → σ → Prop
  /-- whose clients may hold the token -/
  mine : ο → τ → Prop
  /-- the directions in which the world may move while a client of `o` runs -/
  moves : ο → σ → σ → Prop
  /-- standing still is always allowed -/
  moves_refl : ∀ o s, moves o s s
  /-- moving on in an allowed direction, and then on again, is allowed -/
  moves_trans : ∀ o s s' s'', moves o s s' → moves o s' s'' → moves o s s''

namespace Discipline

variable (D : Discipline ο σ τ)

/-- Once true, true for as long as a client of `o` runs. -/
def Stable (o : ο) (K : σ → Prop) : Prop := ∀ s s', D.moves o s s' → K s → K s'

/-- What a client of `o` that holds the tokens `T` must establish when it
moves the world from `s` to `s'` and goes on with the tokens `T'`. -/
structure Trades (o : ο) (T T' : Set τ) (s s' : σ) : Prop where
  /-- the invariant is kept -/
  inv : D.inv s'
  /-- the world moves as agreed -/
  moves : ∀ o', D.moves o' s s'
  /-- what others own is kept -/
  frame : ∀ t, t ∉ T → D.owns t s → D.owns t s'
  /-- the new tokens are good -/
  owns : ∀ t ∈ T', D.owns t s'
  /-- the new tokens are ours to hold -/
  mine : ∀ t ∈ T', D.mine o t
  /-- what was not ours was nobody's -/
  fresh : ∀ t ∈ T', t ∉ T → ¬ D.owns t s

/-- The client keeps to the discipline, holding `T` and knowing `K`; if it
returns, `Q` holds of its result and its remaining tokens. -/
def Safe (o : ο) (K : σ → Prop) (Q : α → Set τ → Prop) : Set τ → Prog ℓ σ ι α → Prop
  | T, .ret a => Q a T
  | _, .halt => True
  | T, .act _ f k => ∀ s, D.inv s → K s → (∀ t ∈ T, D.owns t s) →
      ∃ T', D.Trades o T T' s (f s) ∧ Safe o K Q T' (k s)
  | T, .ask k => ∀ i, Safe o K Q T (k i)

variable {D} {o : ο} {K : σ → Prop} {T : Set τ}

/-- A sequence keeps to the discipline if its first part does, and if the second does with the
tokens and the result that the first part leaves. -/
theorem Safe.bind {p : Prog ℓ σ ι α} {g : α → Prog ℓ σ ι β} {Q : α → Set τ → Prop}
    {R : β → Set τ → Prop} (hp : D.Safe o K Q T p)
    (hg : ∀ a T', Q a T' → D.Safe o K R T' (g a)) : D.Safe o K R T (p.bind g) := by
  induction p generalizing T with
  | ret a => exact hg a T hp
  | halt => trivial
  | act l f k ih =>
    intro s hs hK hT
    obtain ⟨T', htr, hk⟩ := hp s hs hK hT
    exact ⟨T', htr, ih s hk⟩
  | ask k ih => exact fun i => ih i (hp i)

/-- Less may be asked of a result and of the tokens that come with it. -/
theorem Safe.mono {p : Prog ℓ σ ι α} {Q R : α → Set τ → Prop} (hp : D.Safe o K Q T p)
    (h : ∀ a T', Q a T' → R a T') : D.Safe o K R T p := by
  induction p generalizing T with
  | ret a => exact h a T hp
  | halt => trivial
  | act l f k ih =>
    intro s hs hK hT
    obtain ⟨T', htr, hk⟩ := hp s hs hK hT
    exact ⟨T', htr, ih s hk⟩
  | ask k ih => exact fun i => ih i (hp i)

/-- Tokens may be given up at any time: a client that can do with some of its tokens can do with all
of them. -/
theorem Safe.weaken {T' : Set τ} {p : Prog ℓ σ ι α} {Q : α → Set τ → Prop} (hp : D.Safe o K Q T p)
    (hsub : T ⊆ T') (hQ : ∀ a, Q a T → Q a T') : D.Safe o K Q T' p := by
  induction p with
  | ret a => exact hQ a hp
  | halt => trivial
  | act l f k ih =>
    intro s hs hK hT
    obtain ⟨T'', htr, hk⟩ := hp s hs hK fun t ht => hT t (hsub ht)
    refine ⟨T'', ⟨htr.inv, htr.moves, fun t ht => htr.frame t fun h => ht (hsub h), htr.owns,
      htr.mine, fun t ht hnot => htr.fresh t ht fun h => hnot (hsub h)⟩, hk⟩
  | ask k ih => exact fun i => ih i (hp i)

/-- A step that does not touch the world costs nothing: the client has the same tokens afterwards.
-/
theorem Trades.refl {s : σ} (hs : D.inv s) (hT : ∀ t ∈ T, D.owns t s)
    (ho : ∀ t ∈ T, D.mine o t) : D.Trades o T T s s :=
  ⟨hs, fun _ => D.moves_refl _ s, fun _ _ h => h, hT, ho, fun _ h h' => absurd h h'⟩

/-- If nothing happens to the world, a client may give up all its tokens. -/
theorem Trades.drop {s : σ} (hs : D.inv s) : D.Trades o T ∅ s s :=
  ⟨hs, fun _ => D.moves_refl _ s, fun _ _ h => h, fun _ h => absurd h (Set.notMem_empty _),
    fun _ h => absurd h (Set.notMem_empty _), fun _ h => absurd h (Set.notMem_empty _)⟩

/-- The next step of a client that is held back only has to be right where it is taken, that is,
where the condition holds. -/
theorem Safe.heeding_act {G : ℓ → σ → Prop} {Q : α → Set τ → Prop} {l : ℓ} {f : σ → σ}
    {k : σ → Prog ℓ σ ι α}
    (h : ∀ s, D.inv s → K s → (∀ t ∈ T, D.owns t s) → G l s →
      ∃ T', D.Trades o T T' s (f s) ∧ D.Safe o K Q T' ((k s).heeding G)) :
    D.Safe o K Q T ((Prog.act l f k).heeding G) := by
  classical
  intro s hs hK hT
  show ∃ T', D.Trades o T T' s (if G l s then f s else s) ∧
    D.Safe o K Q T' (if G l s then (k s).heeding G else .halt)
  by_cases hG : G l s
  · simp only [if_pos hG]
    exact h s hs hK hT hG
  · simp only [if_neg hG]
    exact ⟨∅, .drop hs, trivial⟩

/-- Two trades, one after the other, are one trade. -/
theorem Trades.trans {T' T'' : Set τ} {s s' s'' : σ} (h : D.Trades o T T' s s')
    (h' : D.Trades o T' T'' s' s'') : D.Trades o T T'' s s'' := by
  refine ⟨h'.inv, fun o' => D.moves_trans _ _ _ _ (h.moves o') (h'.moves o'), ?_, h'.owns, h'.mine,
    ?_⟩
  · intro t ht hown
    refine h'.frame t (fun ht' => ?_) (h.frame t ht hown)
    exact h.fresh t ht' ht hown
  · intro t ht'' ht hown
    have hnew : t ∉ T' := fun ht' => h.fresh t ht' ht hown
    exact h'.fresh t ht'' hnew (h.frame t ht hown)

/-! ### Soundness -/

/-- The invariant of a system whose clients keep to a discipline: the tokens are shared out among
the clients, and each client goes on safely with its own. -/
structure Kept (D : Discipline ο σ τ) (c : Pool ο ℓ σ ι) (hold : ℕ → Set τ) : Prop where
  /-- the invariant of the world -/
  inv : D.inv c.world
  /-- no token is in two hands -/
  disjoint : ∀ i j, i ≠ j → Disjoint (hold i) (hold j)
  /-- nobody holds what nobody runs for -/
  nobody : ∀ i, c.threads i = none → hold i = ∅
  /-- the tokens held are good -/
  owns : ∀ i, ∀ t ∈ hold i, D.owns t c.world
  /-- the tokens held are such as the client's owner may hold -/
  mine : ∀ i th, c.threads i = some th → ∀ t ∈ hold i, D.mine th.owner t
  /-- every client goes on keeping to the discipline -/
  safe : ∀ i th, c.threads i = some th → ∃ K, D.Stable th.owner K ∧ K c.world ∧
    D.Safe th.owner K (fun _ _ => True) (hold i) th.prog

/-- What launching a client must establish: the launch is a trade of no tokens for some, and with
these the client keeps to the discipline from its first step on. -/
def LaunchOk (D : Discipline ο σ τ) (launch : σ → ο → Prog ℓ σ ι Unit → σ → Prop) : Prop :=
  ∀ w o p w', D.inv w → launch w o p w' → ∃ T, D.Trades o ∅ T w w' ∧
    ∃ K, D.Stable o K ∧ K w' ∧ D.Safe o K (fun _ _ => True) T p

/-- What a move of the surroundings must establish: the invariant holds afterwards, the world has
moved in a direction that every running client allows, and no token that a client may hold has
become bad. -/
def EnvOk (D : Discipline ο σ τ) (env : Pool ο ℓ σ ι → σ → Prop) : Prop :=
  ∀ c w', D.inv c.world → env c w' → D.inv w' ∧
    ∀ i th, c.threads i = some th → D.moves th.owner c.world w' ∧
      ∀ t, D.mine th.owner t → D.owns t c.world → D.owns t w'

variable {c : Pool ο ℓ σ ι} {hold : ℕ → Set τ}

/-- One client trades its tokens by a step, and all others keep theirs: the pool is kept. -/
theorem Kept.trade (h : D.Kept c hold) {i : ℕ} {o : ο} {p' : Prog ℓ σ ι Unit} {w' : σ}
    {T' : Set τ} (htr : D.Trades o (hold i) T' c.world w')
    (hsafe : ∃ K, D.Stable o K ∧ K w' ∧ D.Safe o K (fun _ _ => True) T' p') :
    D.Kept ⟨w', Function.update c.threads i (some ⟨o, p'⟩)⟩ (Function.update hold i T') := by
  have hout : ∀ j, j ≠ i → ∀ t ∈ hold j, t ∉ hold i := fun j hj t ht ht' =>
    Set.disjoint_left.mp (h.disjoint j i hj) ht ht'
  -- a token new to `i` was nobody's, one it had is in no other hand
  have hnew : ∀ j, j ≠ i → Disjoint T' (hold j) := by
    intro j hj
    refine Set.disjoint_left.mpr fun t ht htj => ?_
    exact htr.fresh t ht (hout j hj t htj) (h.owns j t htj)
  refine ⟨htr.inv, ?_, ?_, ?_, ?_, ?_⟩
  · intro a b hab
    by_cases ha : a = i
    · subst ha
      rw [Function.update_self, Function.update_of_ne (Ne.symm hab)]
      exact hnew b (Ne.symm hab)
    · rw [Function.update_of_ne ha]
      by_cases hb : b = i
      · subst hb
        rw [Function.update_self]
        exact (hnew a ha).symm
      · rw [Function.update_of_ne hb]
        exact h.disjoint a b hab
  · intro j hj
    by_cases hji : j = i
    · subst hji
      simp at hj
    · rw [Function.update_of_ne hji]
      exact h.nobody j (by simpa [hji] using hj)
  · intro j t ht
    by_cases hji : j = i
    · subst hji
      rw [Function.update_self] at ht
      exact htr.owns t ht
    · rw [Function.update_of_ne hji] at ht
      exact htr.frame t (hout j hji t ht) (h.owns j t ht)
  · intro j th hj t ht
    by_cases hji : j = i
    · subst hji
      rw [Function.update_self] at ht
      obtain rfl : th = ⟨o, p'⟩ := by simpa using hj.symm
      exact htr.mine t ht
    · rw [Function.update_of_ne hji] at ht
      exact h.mine j th (by simpa [hji] using hj) t ht
  · intro j th hj
    by_cases hji : j = i
    · subst hji
      obtain rfl : th = ⟨o, p'⟩ := by simpa using hj.symm
      rw [Function.update_self]
      exact hsafe
    · obtain ⟨K, hK, hKw, hs⟩ := h.safe j th (by simpa [hji] using hj)
      rw [Function.update_of_ne hji]
      exact ⟨K, hK, hK _ _ (htr.moves _) hKw, hs⟩

/-- A client that stops gives up its tokens, and the pool is kept without it. -/
theorem Kept.stop (h : D.Kept c hold) (i : ℕ) :
    D.Kept ⟨c.world, Function.update c.threads i none⟩ (Function.update hold i ∅) := by
  have hsub : ∀ j, Function.update hold i ∅ j ⊆ hold j := by
    intro j
    by_cases hj : j = i
    · subst hj; simp
    · rw [Function.update_of_ne hj]
  have hth : ∀ j th, Function.update c.threads i none j = some th → c.threads j = some th ∧
      Function.update hold i ∅ j = hold j := by
    intro j th hj
    by_cases hji : j = i
    · subst hji
      rw [Function.update_self] at hj
      cases hj
    · rw [Function.update_of_ne hji] at hj
      exact ⟨hj, Function.update_of_ne hji ..⟩
  refine ⟨h.inv, ?_, ?_, ?_, ?_, ?_⟩
  · intro a b hab
    exact (h.disjoint a b hab).mono (hsub a) (hsub b)
  · intro j hj
    by_cases hji : j = i
    · subst hji; simp
    · rw [Function.update_of_ne hji]
      exact h.nobody j (by simpa [hji] using hj)
  · exact fun j t ht => h.owns j t (hsub j ht)
  · intro j th hj t ht
    exact h.mine j th (hth j th hj).1 t (hsub j ht)
  · intro j th hj
    obtain ⟨hc, heq⟩ := hth j th hj
    rw [heq]
    exact h.safe j th hc

/-- The surroundings move the world, everybody keeps their tokens, and the pool is kept. -/
theorem Kept.drift {env : Pool ο ℓ σ ι → σ → Prop} (hE : D.EnvOk env) {w' : σ}
    (h : D.Kept c hold) (he : env c w') : D.Kept ⟨w', c.threads⟩ hold := by
  obtain ⟨hinv, hthreads⟩ := hE _ _ h.inv he
  refine ⟨hinv, h.disjoint, h.nobody, ?_, h.mine, ?_⟩
  · intro j t ht
    rcases hj : c.threads j with _ | th
    · rw [h.nobody j hj] at ht
      exact absurd ht (Set.notMem_empty t)
    · exact (hthreads j th hj).2 t (h.mine j th hj t ht) (h.owns j t ht)
  · intro j th hj
    obtain ⟨K, hK, hKw, hs⟩ := h.safe j th hj
    exact ⟨K, hK, hK _ _ (hthreads j th hj).1 hKw, hs⟩

/-- Every move of the system keeps the pool: some client trades its tokens, or nobody's tokens
change. -/
theorem Kept.step {launch : σ → ο → Prog ℓ σ ι Unit → σ → Prop}
    {env : Pool ο ℓ σ ι → σ → Prop} (hL : D.LaunchOk launch) (hE : D.EnvOk env)
    {c' : Pool ο ℓ σ ι} (h : D.Kept c hold) (hstep : Pool.Step launch env c c') :
    ∃ hold', D.Kept c' hold' := by
  cases hstep with
  | launch hnone hl =>
    obtain ⟨T, htr, hsafe⟩ := hL _ _ _ _ h.inv hl
    rw [← h.nobody _ hnone] at htr
    exact ⟨_, h.trade htr hsafe⟩
  | run hth hs =>
    obtain ⟨K, hK, hKw, hsafe⟩ := h.safe _ _ hth
    cases hs with
    | act =>
      obtain ⟨T', htr, hk⟩ := hsafe _ h.inv hKw (h.owns _)
      exact ⟨_, h.trade htr ⟨K, hK, hK _ _ (htr.moves _) hKw, hk⟩⟩
    | ask i =>
      exact ⟨_, h.trade (.refl h.inv (h.owns _) (h.mine _ _ hth)) ⟨K, hK, hKw, hsafe i⟩⟩
  | stop => exact ⟨_, h.stop _⟩
  | env he => exact ⟨hold, h.drift hE he⟩

/-- **Soundness**: if launches and surroundings are as agreed, the invariant of the discipline holds
in every reachable pool. -/
theorem reachable_inv {launch : σ → ο → Prog ℓ σ ι Unit → σ → Prop}
    {env : Pool ο ℓ σ ι → σ → Prop} (hL : D.LaunchOk launch) (hE : D.EnvOk env) {w : σ}
    (hw : D.inv w) {c : Pool ο ℓ σ ι} (h : Pool.Reachable launch env w c) : D.inv c.world := by
  suffices ∃ hold, D.Kept c hold from this.elim fun _ hk => hk.inv
  induction h with
  | start =>
    refine ⟨fun _ => ∅, hw, fun _ _ _ => Set.disjoint_empty _, fun _ _ => rfl, ?_, ?_, ?_⟩
    · exact fun _ _ ht => absurd ht (Set.notMem_empty _)
    · exact fun _ _ hth => nomatch hth
    · exact fun _ _ hth => nomatch hth
  | next _ hstep ih =>
    obtain ⟨hold, hk⟩ := ih
    exact hk.step hL hE hstep

end Discipline

end Interleave
