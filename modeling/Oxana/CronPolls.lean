import Oxana.Calls
import Oxana.Cron
import Oxana.Transitions

/-!
# What a unique cron job is decided by

A cron job with an id of its own may still be there when its next occurrence is near. The loop
then polls (`uniqueCron`): it reads the job, looks at the clock, and decides to enqueue the
occurrence, to skip it, or to look again. The decision depends on all polls so far through one
flag, and a read that fails is no poll that saw nothing.

A history of polls is a list of `Poll`s. `Poll.Enqueues` and `Poll.Skips` say what is decided at
a poll by the polls before it, and `Follows` that a loop did so at every poll of a history, the
first decision being final. Every run of the loop follows the polls in its trace, and every
history of polls is, up to its first decision, that of a run (`uniqueCron_runs`, `exists_run`).
-/

namespace Oxana

open Redis Interleave Call

variable {γ : Type}

/-- What one poll of an occurrence sees: whether a job is stored under its id and what time it is
after that, or that the read has failed. -/
inductive Poll where
  /-- the read failed -/
  | failed
  /-- whether the job exists, and the time after that was read -/
  | read (exist : Bool) (time : Int)
  deriving DecidableEq, Repr

namespace Poll

/-- Whether the poll has seen an existing job. -/
def existing : Poll → Bool
  | failed => false
  | read exist _ => exist

variable (due : Int) (earlier : List Poll)

/-- The poll decides to enqueue: no job is there, and either the occurrence is not due yet or no
earlier poll has seen a job. -/
def Enqueues (p : Poll) : Prop :=
  ∃ time, p = read false time ∧ (time < due ∨ ∀ e ∈ earlier, e.existing = false)

/-- Skip: it is not early, and something is there or has been there. -/
def Skips (p : Poll) : Prop :=
  ∃ exist time, p = read exist time ∧ due ≤ time ∧
    (exist = true ∨ ∃ e ∈ earlier, e.existing = true)

/-- The poll decides neither to enqueue nor to skip the occurrence, so that the loop sleeps and
looks again. -/
def Waits (p : Poll) : Prop := ¬ p.Enqueues due earlier ∧ ¬ p.Skips due earlier

variable {due earlier}

/-- A poll whose read fails decides nothing. -/
theorem waits_failed : failed.Waits due earlier :=
  ⟨fun ⟨_, h, _⟩ => Poll.noConfusion h, fun ⟨_, _, h, _⟩ => Poll.noConfusion h⟩

/-- At no poll both things are decided. -/
theorem Enqueues.not_skips {p : Poll} (h : p.Enqueues due earlier) : ¬ p.Skips due earlier := by
  rintro ⟨exist, time, hp, hdue, hseen⟩
  obtain ⟨time', rfl, hearly⟩ := h
  cases hp
  rcases hseen with hseen | ⟨e, he, hexist⟩
  · cases hseen
  · rcases hearly with hlt | hnone
    · omega
    · rw [hnone e he] at hexist
      cases hexist

end Poll

/-! ## Histories -/

/-- What is decided at the last of the polls `ps`, which come after `earlier` ones, and that
nothing is decided before: `some true` is to enqueue, `some false` to skip. -/
structure Follows (due : Int) (earlier ps : List Poll) (decision : Option Bool) : Prop where
  /-- all polls but the last wait -/
  waits : ∀ before p after, ps = before ++ p :: after → after ≠ [] →
    p.Waits due (earlier ++ before)
  /-- to enqueue is decided where it should -/
  enqueues : decision = some true ↔
    ∃ before p, ps = before ++ [p] ∧ p.Enqueues due (earlier ++ before)
  /-- to skip is decided where it should -/
  skips : decision = some false ↔
    ∃ before p, ps = before ++ [p] ∧ p.Skips due (earlier ++ before)

namespace Follows

variable {due : Int} {earlier ps : List Poll} {decision : Option Bool} {p : Poll}

theorem nil : Follows due earlier [] none where
  waits before p after h := by
    have := congrArg List.length h
    simp at this
  enqueues := ⟨nofun, fun ⟨before, p, h, _⟩ => by simp at h⟩
  skips := ⟨nofun, fun ⟨before, p, h, _⟩ => by simp at h⟩

/-- If there is a single poll, it is the last one and none comes before it. -/
theorem eq_nil_of_singleton {before : List Poll} {q : Poll} {after : List Poll}
    (h : [p] = before ++ q :: after) : before = [] ∧ q = p ∧ after = [] := by
  cases before with
  | nil =>
    cases h
    exact ⟨rfl, rfl, rfl⟩
  | cons a before =>
    have := congrArg List.length h
    simp at this

/-- One poll that decides to enqueue is a sequence of polls that ends with this decision. -/
theorem enqueue (h : p.Enqueues due earlier) : Follows due earlier [p] (some true) where
  waits before q after hsplit hne := absurd (eq_nil_of_singleton hsplit).2.2 hne
  enqueues := ⟨fun _ => ⟨[], p, rfl, by rwa [List.append_nil]⟩, fun _ => rfl⟩
  skips := by
    refine ⟨nofun, ?_⟩
    rintro ⟨before, q, hsplit, hskips⟩
    obtain ⟨rfl, rfl, -⟩ := eq_nil_of_singleton hsplit
    rw [List.append_nil] at hskips
    exact absurd hskips h.not_skips

/-- One poll that decides to skip is a sequence of polls that ends with this decision. -/
theorem skip (h : p.Skips due earlier) : Follows due earlier [p] (some false) where
  waits before q after hsplit hne := absurd (eq_nil_of_singleton hsplit).2.2 hne
  enqueues := by
    refine ⟨nofun, ?_⟩
    rintro ⟨before, q, hsplit, henqueues⟩
    obtain ⟨rfl, rfl, -⟩ := eq_nil_of_singleton hsplit
    rw [List.append_nil] at henqueues
    exact absurd h henqueues.not_skips
  skips := ⟨fun _ => ⟨[], p, rfl, by rwa [List.append_nil]⟩, fun _ => rfl⟩

/-- Of several polls, the first of which decides nothing, the last one is the last of the others. -/
theorem last_cons_iff {P : List Poll → Poll → Prop} (hp : ¬ P earlier p) :
    (∃ before q, p :: ps = before ++ [q] ∧ P (earlier ++ before) q) ↔
      ∃ before q, ps = before ++ [q] ∧ P (earlier ++ [p] ++ before) q := by
  constructor
  · rintro ⟨before, q, hsplit, hq⟩
    cases before with
    | nil =>
      cases hsplit
      rw [List.append_nil] at hq
      exact absurd hq hp
    | cons a before =>
      cases hsplit
      exact ⟨before, q, rfl, by rwa [List.append_assoc]⟩
  · rintro ⟨before, q, rfl, hq⟩
    exact ⟨p :: before, q, rfl, by rwa [List.append_assoc] at hq⟩

/-- A poll that waits may come before others, which then follow it. -/
theorem wait (h : p.Waits due earlier) (hrest : Follows due (earlier ++ [p]) ps decision) :
    Follows due earlier (p :: ps) decision where
  waits before q after hsplit hne := by
    cases before with
    | nil =>
      cases hsplit
      rwa [List.append_nil]
    | cons a before =>
      cases hsplit
      have := hrest.waits before q after rfl hne
      rwa [List.append_assoc] at this
  enqueues := hrest.enqueues.trans
    (last_cons_iff (P := fun earlier q => q.Enqueues due earlier) h.1).symm
  skips := hrest.skips.trans (last_cons_iff (P := fun earlier q => q.Skips due earlier) h.2).symm

end Follows

/-! ## The action -/

section Action

variable {scheduledAt : Int64} {earlier : List Poll} {exist : Bool} {time : Int}

/-- The flag of the loop after the polls `earlier`. -/
def observedExisting (earlier : List Poll) : Bool := earlier.any Poll.existing

/-- Whether an existing job has been seen: at this poll, or at an earlier one. -/
theorem observedExisting_append (p : Poll) :
    observedExisting (earlier ++ [p]) = (observedExisting earlier || p.existing) := by
  simp [observedExisting]

theorem observedExisting_eq_false (h : observedExisting earlier = false) :
    ∀ e ∈ earlier, e.existing = false := by
  simpa [observedExisting] using h

theorem observedExisting_eq_true (h : observedExisting earlier = true) :
    ∃ e ∈ earlier, e.existing = true := by
  simpa [observedExisting] using h

/-- What the code decides is what it should: where it skips, the poll is one at which it should
skip. -/
theorem skips_of_action
    (h : uniqueCronAction exist (observedExisting earlier) scheduledAt time = .skip) :
    (Poll.read exist time).Skips scheduledAt.toInt earlier := by
  rw [uniqueCronAction] at h
  split at h
  case isTrue hdue => exact ⟨exist, time, rfl, hdue.1, hdue.2.imp_right observedExisting_eq_true⟩
  case isFalse => split at h <;> cases h

/-- Where the code enqueues, the poll is one at which it should enqueue. -/
theorem enqueues_of_action
    (h : uniqueCronAction exist (observedExisting earlier) scheduledAt time = .enqueue) :
    (Poll.read exist time).Enqueues scheduledAt.toInt earlier := by
  rw [uniqueCronAction] at h
  split at h
  case isTrue => cases h
  case isFalse hdue =>
    split at h
    case isTrue => cases h
    case isFalse hexist =>
      obtain rfl : exist = false := Bool.eq_false_iff.mpr hexist
      refine ⟨time, rfl, ?_⟩
      rcases lt_or_ge time scheduledAt.toInt with hlt | hge
      · exact .inl hlt
      · refine .inr (observedExisting_eq_false (Bool.eq_false_iff.mpr fun hobserved => ?_))
        exact hdue ⟨hge, .inr hobserved⟩

/-- Where the code waits, the poll is one at which it should wait. -/
theorem waits_of_action
    (h : uniqueCronAction exist (observedExisting earlier) scheduledAt time = .wait) :
    (Poll.read exist time).Waits scheduledAt.toInt earlier := by
  rw [uniqueCronAction] at h
  split at h
  case isTrue => cases h
  case isFalse hdue =>
    split at h
    case isFalse => cases h
    case isTrue hexist =>
      constructor
      · rintro ⟨time', hpoll, -⟩
        cases hpoll
        cases hexist
      · rintro ⟨exist', time', hpoll, hge, -⟩
        cases hpoll
        exact hdue ⟨hge, .inl hexist⟩

end Action

/-! ## The polls of a run -/

/-- The decision that a run of the loop has come to, if it has returned. -/
def decided : Prog Request (World γ) Choice (Except OxanaError (Option Bool)) → Option Bool
  | .ret (.ok decision) => decision
  | _ => none

variable (H : Handle) (id : JobId)

/-- The read that a poll makes. -/
abbrev pollRead : Call γ (Option (Option JobEnvelope)) := trackRedisResult (getJob H id)

/-- The steps of a call that are the reads of the clock and of the job by these polls, one poll
after the other. -/
inductive Polls : List (Prog.Event Request (World γ)) → List Poll → Prop where
  | nil : Polls [] []
  | failed {tr tr' : List (Prog.Event Request (World γ))} {ps : List Poll} :
      Returns (pollRead H id) tr none → Polls tr' ps → Polls (tr ++ tr') (.failed :: ps)
  | read {tr tr' : List (Prog.Event Request (World γ))} {ps : List Poll}
      {existing : Option JobEnvelope} (w : World γ) :
      Returns (pollRead H id) tr (some existing) → Polls tr' ps →
        Polls (tr ++ ⟨.now, w, w⟩ :: tr') (.read existing.isSome w.clock :: ps)

variable {H id}

/-- A sequence that has returned, or waits for its first part: nothing is decided before that has
returned. -/
theorem trace_bind_decided {α : Type} {x : Call γ α} {f : α → Call γ (Option Bool)}
    {tr : List (Prog.Event Request (World γ))}
    {q : Prog Request (World γ) Choice (Except OxanaError (Option Bool))}
    (h : Prog.Trace (x >>= f : Call γ (Option Bool)) tr q) :
    (decided q = none ∧ ∃ p, Prog.Trace x tr p) ∨
      ∃ a tr₁ tr₂, tr = tr₁ ++ tr₂ ∧ Returns x tr₁ a ∧ Prog.Trace (f a) tr₂ q := by
  rcases Prog.Trace.bind_inv h with ⟨p, hp, rfl⟩ | ⟨r, tr₁, tr₂, rfl, h₁, h₂⟩
  · cases p with
    | ret r =>
      cases r with
      | ok a => exact .inr ⟨a, tr, [], (List.append_nil tr).symm, hp, .refl _⟩
      | error e => exact .inl ⟨rfl, _, hp⟩
    | halt => exact .inl ⟨rfl, _, hp⟩
    | act l g k => exact .inl ⟨rfl, _, hp⟩
    | ask k => exact .inl ⟨rfl, _, hp⟩
  · cases r with
    | ok a => exact .inr ⟨a, tr₁, tr₂, rfl, h₁, h₂⟩
    | error e =>
      cases h₂
      exact .inl ⟨rfl, _, by rwa [List.append_nil]⟩

/-- The clock has not been read, or reading it is the first step. -/
theorem trace_now_decided {f : Int → Call γ (Option Bool)}
    {tr : List (Prog.Event Request (World γ))}
    {q : Prog Request (World γ) Choice (Except OxanaError (Option Bool))}
    (h : Prog.Trace (now >>= f : Call γ (Option Bool)) tr q) :
    (decided q = none ∧ tr = []) ∨
      ∃ w tr', tr = ⟨.now, w, w⟩ :: tr' ∧ Prog.Trace (f w.clock) tr' q := by
  rcases h with _ | ⟨h⟩
  · exact .inl ⟨rfl, rfl⟩
  · exact .inr ⟨_, _, rfl, h⟩

/-- The loop, after some polls, follows those that it makes: every round adds one poll, up to the
one that decides. -/
theorem uniqueCron_runs {scheduledAt : Int64} {n : ℕ} {earlier : List Poll}
    {tr : List (Prog.Event Request (World γ))}
    {q : Prog Request (World γ) Choice (Except OxanaError (Option Bool))}
    (h : Prog.Trace (uniqueCron H id scheduledAt n (observedExisting earlier)) tr q) :
    ∃ ps tr₁ rest, tr = tr₁ ++ rest ∧ Polls H id tr₁ ps ∧
      (∃ p, Prog.Trace (pollRead H id) rest p) ∧
      Follows scheduledAt.toInt earlier ps (decided q) := by
  induction n generalizing earlier tr with
  | zero =>
    cases h
    exact ⟨[], [], [], rfl, .nil, ⟨_, .refl _⟩, .nil⟩
  | succ n ih =>
    rw [uniqueCron] at h
    cases h with
    | refl => exact ⟨[], [], [], rfl, .nil, ⟨_, .refl _⟩, .nil⟩
    | @ask _ c _ _ h =>
      by_cases hc : c.done = true
      · simp only [hc, if_true] at h
        cases h
        exact ⟨[], [], [], rfl, .nil, ⟨_, .refl _⟩, .nil⟩
      · simp only [hc] at h
        rcases trace_bind_decided h with ⟨hq, hp⟩ | ⟨found, tr₁, tr₂, rfl, hread, h⟩
        · rw [hq]
          exact ⟨[], [], tr, rfl, .nil, hp, .nil⟩
        · cases found with
          | none =>
            -- a failed read: the flag is what it was
            have hobserved : observedExisting earlier = observedExisting (earlier ++ [.failed]) := by
              simp [observedExisting_append, Poll.existing]
            simp only [hobserved] at h
            obtain ⟨ps, tr₃, rest, rfl, hps, hrest, hfollows⟩ := ih h
            exact ⟨.failed :: ps, tr₁ ++ tr₃, rest, (List.append_assoc ..).symm,
              .failed hread hps, hrest, hfollows.wait Poll.waits_failed⟩
          | some existing =>
            rcases trace_now_decided h with ⟨hq, rfl⟩ | ⟨w, tr₃, rfl, hnow⟩
            · rw [hq]
              exact ⟨[], [], tr₁ ++ [], rfl, .nil, ⟨_, by rwa [List.append_nil]⟩, .nil⟩
            · cases haction : uniqueCronAction existing.isSome (observedExisting earlier)
                  scheduledAt w.clock with
              | skip =>
                simp only [haction] at hnow
                cases hnow
                exact ⟨[_], _, [], (List.append_nil _).symm, .read w hread .nil, ⟨_, .refl _⟩,
                  .skip (skips_of_action haction)⟩
              | enqueue =>
                simp only [haction] at hnow
                cases hnow
                exact ⟨[_], _, [], (List.append_nil _).symm, .read w hread .nil, ⟨_, .refl _⟩,
                  .enqueue (enqueues_of_action haction)⟩
              | wait =>
                have hobserved : (observedExisting earlier || existing.isSome) =
                    observedExisting (earlier ++ [.read existing.isSome w.clock]) :=
                  (observedExisting_append (.read existing.isSome w.clock)).symm
                simp only [haction, hobserved] at hnow
                obtain ⟨ps, tr₄, rest, rfl, hps, hrest, hfollows⟩ := ih hnow
                exact ⟨.read existing.isSome w.clock :: ps, tr₁ ++ ⟨.now, w, w⟩ :: tr₄, rest,
                  by simp, .read w hread hps, hrest, hfollows.wait (waits_of_action haction)⟩

/-! ## The runs of a history -/

theorem pollRead_failed : Returns (pollRead H id : Call γ _) [] none := by
  have hlost : Prog.Trace (getJob H id : Call γ _) [] (.ret (.error (.redis true))) :=
    @Prog.Trace.ask _ _ _ _ _ { delivery := .lost, transient := true } _ _ (.refl _)
  exact Prog.Trace.bind hlost (Returns.ask { done := false } (.pure none))

theorem pollRead_found {w : World γ} {found : Option JobEnvelope}
    (h : Returns (getJob H id) [⟨.hget, w, w⟩] found) :
    Returns (pollRead H id) [⟨.hget, w, w⟩] (some found) :=
  h.catching (.pure (some found))

theorem getJob_present {w : World γ} {e : JobEnvelope} (hfits : w.store.Fits H.keys.jobs .hash)
    (h : payloadOf H.keys.jobs w.store id = some e.encode) :
    Returns (getJob H id) [⟨.hget, w, w⟩] (some e.normalize) := by
  have hget : (hget H.keys.jobs id w.store).1 = .ok (some e.encode) := by
    rw [hget_run hfits, h]
  have hsend := Returns.send (l := .hget) w hget
  rw [World.after_read (hget_snd ..)] at hsend
  have hsnapshot : Returns (transitionSnapshot H.keys id) [⟨.hget, w, w⟩]
      (some (e.encode, e.normalize)) :=
    hsend.bind ((Returns.decoded (decode_encode e)).bind (.pure _))
  exact Returns.connection.bind (hsnapshot.bind (.pure _))

theorem getJob_absent {w : World γ} (hfits : w.store.Fits H.keys.jobs .hash)
    (h : payloadOf H.keys.jobs w.store id = none) :
    Returns (getJob H id) [⟨.hget, w, w⟩] none := by
  have hget : (hget H.keys.jobs id w.store).1 = .ok none := by
    rw [hget_run hfits, h]
  have hsend := Returns.send (l := .hget) w hget
  rw [World.after_read (hget_snd ..)] at hsend
  have hsnapshot : Returns (transitionSnapshot H.keys id) [⟨.hget, w, w⟩] none :=
    hsend.bind (.pure _)
  exact Returns.connection.bind (hsnapshot.bind (.pure _))

variable (H id) in
/-- There are worlds for what a poll sees, whatever it is. -/
theorem exists_pollRead (g : γ) (e : JobEnvelope) (exist : Bool) (time : Int) :
    ∃ w : World γ, w.clock = time ∧ ∃ found : Option JobEnvelope, found.isSome = exist ∧
      Returns (pollRead H id) [⟨.hget, w, w⟩] (some found) := by
  cases exist with
  | false =>
    refine ⟨⟨.empty, time, g⟩, rfl, none, rfl, pollRead_found (getJob_absent ?_ rfl)⟩
    exact Store.fits_empty _
  | true =>
    refine ⟨⟨Store.empty.put H.keys.jobs (.hash [(id, e.encode)]), time, g⟩, rfl,
      some e.normalize, rfl, pollRead_found (getJob_present (Store.fits_put_self _) ?_)⟩
    rw [payloadOf, Store.hash_put_self]
    exact List.lookup_cons_self

/-- A round whose read fails waits, and the loop goes on. -/
theorem uniqueCron_failed {scheduledAt : Int64} {n : ℕ} {observed : Bool}
    {tr₁ tr₂ : List (Prog.Event Request (World γ))}
    {q : Prog Request (World γ) Choice (Except OxanaError (Option Bool))}
    (hread : Returns (pollRead H id) tr₁ none)
    (h : Prog.Trace (uniqueCron H id scheduledAt n observed) tr₂ q) :
    Prog.Trace (uniqueCron H id scheduledAt (n + 1) observed) (tr₁ ++ tr₂) q := by
  refine @Prog.Trace.ask _ _ _ _ _ { done := false } _ _ ?_
  exact Prog.Trace.bind hread h

/-- A round whose read succeeds decides or waits, and in the latter case the loop goes on. -/
theorem uniqueCron_read {scheduledAt : Int64} {n : ℕ} {observed : Bool} (w : World γ)
    {found : Option JobEnvelope} {tr₁ tr₂ : List (Prog.Event Request (World γ))}
    {q : Prog Request (World γ) Choice (Except OxanaError (Option Bool))}
    (hread : Returns (pollRead H id) tr₁ (some found))
    (h : Prog.Trace (match uniqueCronAction found.isSome observed scheduledAt w.clock with
      | .skip => pure (some false)
      | .wait => uniqueCron H id scheduledAt n (observed || found.isSome)
      | .enqueue => pure (some true) : Call γ (Option Bool)) tr₂ q) :
    Prog.Trace (uniqueCron H id scheduledAt (n + 1) observed) (tr₁ ++ ⟨.now, w, w⟩ :: tr₂) q := by
  refine @Prog.Trace.ask _ _ _ _ _ { done := false } _ _ ?_
  exact Prog.Trace.bind hread (Prog.Trace.bind (Returns.now w) h)

/-- The loop after some polls can go through any others, up to the first that decides. -/
theorem exists_run (scheduledAt : Int64) (g : γ) (e : JobEnvelope) (earlier ps : List Poll) :
    ∃ polled left n tr q, ps = polled ++ left ∧ (left = [] ∨ decided q ≠ none) ∧
      Prog.Trace (uniqueCron H id scheduledAt n (observedExisting earlier) : Call γ _) tr q ∧
      Polls H id tr polled ∧ Follows scheduledAt.toInt earlier polled (decided q) := by
  induction ps generalizing earlier with
  | nil => exact ⟨[], [], 0, [], _, rfl, .inl rfl, .refl _, .nil, .nil⟩
  | cons p ps ih =>
    cases p with
    | failed =>
      obtain ⟨polled, left, n, tr, q, rfl, hleft, htrace, hpolls, hfollows⟩ :=
        ih (earlier ++ [.failed])
      rw [observedExisting_append, Poll.existing, Bool.or_false] at htrace
      exact ⟨.failed :: polled, left, n + 1, tr, q, rfl, hleft,
        uniqueCron_failed pollRead_failed htrace, hpolls.failed pollRead_failed,
        hfollows.wait Poll.waits_failed⟩
    | read exist time =>
      obtain ⟨w, rfl, found, rfl, hread⟩ := exists_pollRead H id g e exist time
      cases haction : uniqueCronAction found.isSome (observedExisting earlier) scheduledAt
          w.clock with
      | skip =>
        refine ⟨[.read found.isSome w.clock], ps, 1, _, .ret (.ok (some false)), rfl, .inr nofun,
          uniqueCron_read w hread ?_, .read w hread .nil, .skip (skips_of_action haction)⟩
        rw [haction]
        exact .refl _
      | enqueue =>
        refine ⟨[.read found.isSome w.clock], ps, 1, _, .ret (.ok (some true)), rfl, .inr nofun,
          uniqueCron_read w hread ?_, .read w hread .nil,
          .enqueue (enqueues_of_action haction)⟩
        rw [haction]
        exact .refl _
      | wait =>
        obtain ⟨polled, left, n, tr, q, rfl, hleft, htrace, hpolls, hfollows⟩ :=
          ih (earlier ++ [.read found.isSome w.clock])
        rw [observedExisting_append, Poll.existing] at htrace
        refine ⟨.read found.isSome w.clock :: polled, left, n + 1, _, q, rfl, hleft,
          uniqueCron_read w hread ?_, .read w hread hpolls,
          hfollows.wait (waits_of_action haction)⟩
        rw [haction]
        exact htrace

/-! ## Decisions -/

/-- Once an existing job has been seen, no poll that is not early decides to enqueue. -/
theorem Follows.not_enqueue {due : Int} {ps : List Poll} {decision : Option Bool}
    (h : Follows due [] ps decision) {before : List Poll} {exist : Bool} {time : Int}
    (hps : ps = before ++ [.read exist time]) (hseen : ∃ e ∈ before, e.existing = true)
    (hdue : due ≤ time) : decision ≠ some true := by
  intro hdecision
  obtain ⟨before', p, hsplit, time', rfl, hearly⟩ := h.enqueues.mp hdecision
  obtain ⟨rfl, hlast⟩ := List.append_inj' (hps.symm.trans hsplit) rfl
  cases hlast
  obtain ⟨e, he, hexist⟩ := hseen
  rcases hearly with hlt | hnone
  · omega
  · rw [hnone e (by simpa using he)] at hexist
    cases hexist

/-- Whatever the polls of an occurrence see: the loop decides to enqueue at the first poll that
finds nothing, and is early or has found nothing before; it decides to skip at the first poll
that is not early, and finds a job or has found one before; at all others it waits. So it never
enqueues late once a job has been found. And every sequence of polls is met by a run, up to its
first decision. -/
theorem uniqueCron_decides (H : Handle) (id : JobId) (scheduledAt : Int64) :
    (∀ n tr q, Prog.Trace (uniqueCron H id scheduledAt n false : Call γ _) tr q →
      ∃ ps tr₁ rest, tr = tr₁ ++ rest ∧ Polls H id tr₁ ps ∧
        (∃ p, Prog.Trace (pollRead H id) rest p) ∧
        Follows scheduledAt.toInt [] ps (decided q) ∧
        ∀ before exist time, ps = before ++ [.read exist time] →
          (∃ e ∈ before, e.existing = true) → scheduledAt.toInt ≤ time →
            decided q ≠ some true) ∧
    ∀ (_ : γ) (_ : JobEnvelope) (ps : List Poll),
      ∃ polled left n tr q, ps = polled ++ left ∧ (left = [] ∨ decided q ≠ none) ∧
        Prog.Trace (uniqueCron H id scheduledAt n false : Call γ _) tr q ∧
        Polls H id tr polled ∧ Follows scheduledAt.toInt [] polled (decided q) := by
  constructor
  · intro n tr q h
    have hstart : Prog.Trace (uniqueCron H id scheduledAt n (observedExisting []) : Call γ _) tr q :=
      h
    obtain ⟨ps, tr₁, rest, htr, hpolls, hrest, hfollows⟩ := uniqueCron_runs hstart
    exact ⟨ps, tr₁, rest, htr, hpolls, hrest, hfollows, fun _ _ _ hps hseen hdue =>
      hfollows.not_enqueue hps hseen hdue⟩
  · intro g e ps
    exact exists_run scheduledAt g e [] ps

end Oxana
