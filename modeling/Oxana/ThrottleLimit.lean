import Oxana.ThrottleAccounting

/-!
# The limit of a throttled queue

Checking, claiming and recording are steps of their own, so two dispatchers
may both check before either has recorded its claim, and the limit is exceeded
(`throttle_exceeded`). It holds as long as whoever claims a job had all earlier
claims in front of it when it checked, and the length of the window in
microseconds can be computed in 64 bits (`throttle_limit`).
-/

namespace Oxana

variable {q : QueueThrottle} {s : Throttled}

/-- There is a window, and `window_micros` does not wrap. -/
structure QueueThrottle.Fits (q : QueueThrottle) : Prop where
  /-- there is a window -/
  pos : 0 < q.window
  /-- its microseconds fit into 64 bits -/
  lt : q.window < 2 ^ 63

/-- The beginning of the window is computed without wrapping. -/
theorem QueueThrottle.Fits.windowStart (h : q.Fits) {now : Int64} (hnow : 0 ≤ now.toInt) :
    (now - q.windowMicros).toInt = now.toInt - q.window := by
  obtain ⟨hpos, hlt⟩ := h
  have hmicros : q.windowMicros.toInt = q.window := by
    rw [QueueThrottle.windowMicros, Int64.toInt_mul]
    have hthousand : Int64.toInt 1000 = 1000 := rfl
    rw [hthousand]
    exact Int.bmod_eq_of_le (by rw [QueueThrottle.window] at hpos; omega) hlt
  have hmax := Int64.toInt_lt now
  rw [Int64.toInt_sub, hmicros]
  exact Int.bmod_eq_of_le (by omega) (by omega)

/-- The claims that were made later than `x`. -/
def claimsAfter (x : Int) (cs : List Claim) : List Claim := cs.filter fun c => x < c.time

/-- The members whose scores are later than `x`. -/
def entriesAfter (x : Int) (s : ThrottleSet) : List (Nat × Nat) := s.entries.filter fun p => x < p.2

/-- Before any claim there had been fewer claims in the window than the limit. -/
def Within (q : QueueThrottle) : List Claim → Prop
  | [] => True
  | c :: cs =>
    (claimsAfter (c.time - q.window) (c :: cs)).length ≤ q.limit ∧ Within q cs

/-- What the set is good for: it has a member for every recorded claim in the window. -/
structure SetOk (q : QueueThrottle) (clock : Nat) (recorded : List Claim) (s : ThrottleSet) :
    Prop where
  /-- nothing in it is later than now -/
  past : ∀ p ∈ s.entries, p.2 ≤ clock
  /-- it does not expire before its members are too old -/
  lasts : ∀ e, s.expires = some e → ∀ p ∈ s.entries,
    ((p.2 / 1000 : Nat) : Int) + q.windowMs.toInt ≤ e
  /-- the recorded claims of the window have their members -/
  holds : ∀ x : Int, (clock : Int) - q.window ≤ x →
    (claimsAfter x recorded).length ≤ (entriesAfter x s).length

/-! ## The set -/

namespace SetOk

variable {clock : Nat} {recorded : List Claim} {t : ThrottleSet}

/-- The set stays right as time passes. -/
theorem later {clock' : Nat} (h : SetOk q clock recorded t) (hc : clock ≤ clock') :
    SetOk q clock' recorded t :=
  ⟨fun p hp => (h.past p hp).trans hc, h.lasts, fun x hx => h.holds x (by omega)⟩

/-- Where the set expires, nothing in it is in the window any more, so nothing is lost. -/
theorem expire (h : SetOk q clock recorded t) : SetOk q clock recorded (t.at clock) := by
  unfold ThrottleSet.at
  split
  · next e he =>
    split
    · next hlt =>
      refine ⟨fun p hp => absurd hp List.not_mem_nil, fun e he => (nomatch he), fun x hx => ?_⟩
      have hnone : entriesAfter x t = [] := by
        refine List.filter_eq_nil_iff.mpr fun p hp hxp => ?_
        have hlast := h.lasts e he p hp
        have hxp := of_decide_eq_true hxp
        have hw : q.window = q.windowMs.toInt * 1000 := rfl
        omega
      refine (h.holds x hx).trans ?_
      rw [hnone]
      exact Nat.zero_le _
    · exact h
  · exact h

/-- Dropping what is too old drops nothing that is still in the window. -/
theorem prune (h : SetOk q clock recorded t) (hfits : q.Fits) {now : Int64}
    (hpos : 0 ≤ now.toInt) (hnow : now.toInt ≤ clock) :
    SetOk q clock recorded (t.zrembyscore (now - q.windowMicros).toInt) := by
  rw [hfits.windowStart hpos]
  have hmem : ∀ p ∈ (t.zrembyscore (now.toInt - q.window)).entries, p ∈ t.entries := by
    intro p hp
    rw [ThrottleSet.zrembyscore_entries] at hp
    exact (List.mem_filter.mp hp).1
  refine ⟨fun p hp => h.past p (hmem p hp), fun e he p hp => ?_, fun x hx => ?_⟩
  · refine h.lasts e ?_ p (hmem p hp)
    simp only [ThrottleSet.zrembyscore] at he
    split at he
    · cases he
    · exact he
  · refine (h.holds x hx).trans (le_of_eq (congrArg List.length ?_))
    simp only [entriesAfter]
    rw [ThrottleSet.zrembyscore_entries, List.filter_filter]
    refine List.filter_congr fun p _ => ?_
    by_cases hp : x < p.2
    · have : now.toInt - q.window < p.2 := by omega
      simp [hp, this]
    · simp [hp]

/-- A claim is recorded by a member that is no older than the claim. -/
theorem record (h : SetOk q clock recorded t) {c : Claim} {members : List Nat} {score : Nat}
    (hne : members ≠ []) (hc : c.time ≤ score) (hscore : score ≤ clock) :
    SetOk q clock (c :: recorded) ((t.zadd members score).pexpire clock q.windowMs.toInt) := by
  have hpast : ∀ p ∈ (t.zadd members score).entries, p.2 ≤ clock := by
    intro p hp
    rcases List.mem_append.mp hp with hp | hp
    · exact h.past p hp
    · obtain ⟨m, -, rfl⟩ := List.mem_map.mp hp
      exact hscore
  have hrecorded : ∀ x : Int, claimsAfter x (c :: recorded) =
      if x < c.time then c :: claimsAfter x recorded else claimsAfter x recorded := by
    intro x
    simp [claimsAfter, List.filter_cons]
  unfold ThrottleSet.pexpire
  split
  · -- there is no window at all
    next hms =>
    refine ⟨fun p hp => absurd hp List.not_mem_nil, fun e he => (nomatch he), fun x hx => ?_⟩
    have hw : q.window = q.windowMs.toInt * 1000 := rfl
    have hnone : entriesAfter x t = [] := by
      refine List.filter_eq_nil_iff.mpr fun p hp hxp => ?_
      have := h.past p hp
      have hxp := of_decide_eq_true hxp
      omega
    have hle := h.holds x hx
    rw [hrecorded, if_neg (by omega)]
    rw [hnone] at hle
    exact hle
  · refine ⟨hpast, fun e he p hp => ?_, fun x hx => ?_⟩
    · obtain rfl := Option.some.inj he
      have : p.2 / 1000 ≤ clock / 1000 := Nat.div_le_div_right (hpast p hp)
      omega
    · have hle := h.holds x hx
      have hentries : entriesAfter x { (t.zadd members score) with
          expires := some (((clock / 1000 : Nat) : Int) + q.windowMs.toInt) } =
            entriesAfter x t ++ (members.map fun m => (m, score)).filter fun p => x < p.2 :=
        List.filter_append ..
      show _ ≤ (entriesAfter x { (t.zadd members score) with
          expires := some (((clock / 1000 : Nat) : Int) + q.windowMs.toInt) }).length
      rw [hrecorded, hentries, List.length_append]
      split
      · next hx' =>
        obtain ⟨m, ms, rfl⟩ := List.exists_cons_of_ne_nil hne
        have hlt : x < (score : Int) := by omega
        rw [List.map_cons, List.filter_cons_of_pos (by simpa using hlt), List.length_cons,
          List.length_cons]
        omega
      · omega

end SetOk

/-! ## The dispatchers -/

/-- What is known about a dispatcher where it is. -/
def PhaseOk (q : QueueThrottle) (clock : Nat) : Phase → Prop
  | .idle => True
  | .timed now => 0 ≤ now.toInt ∧ now.toInt ≤ clock
  | .allowed seen => ∀ x : Int, (clock : Int) - q.window ≤ x →
      (claimsAfter x seen).length < q.limit
  | .claimed c => c.time ≤ clock
  | .priced c _ => c.time ≤ clock
  | .stamped c _ t => c.time ≤ t ∧ t ≤ clock
  | .retimed c _ t now => c.time ≤ t ∧ t ≤ clock ∧ 0 ≤ now.toInt ∧ now.toInt ≤ clock
  | .granted c cost t => c.time ≤ t ∧ t ≤ clock ∧ cost.getD 1 ≠ 0
  | .ended => True

theorem PhaseOk.later {clock clock' : Nat} {p : Phase} (h : PhaseOk q clock p)
    (hc : clock ≤ clock') : PhaseOk q clock' p := by
  cases p with
  | idle => trivial
  | timed now => exact ⟨h.1, h.2.trans (by omega)⟩
  | allowed seen => exact fun x hx => h x (by omega)
  | claimed c => exact h.trans hc
  | priced c cost => exact h.trans hc
  | stamped c cost t => exact ⟨h.1, h.2.trans hc⟩
  | retimed c cost t now =>
    exact ⟨h.1, h.2.1.trans hc, h.2.2.1, h.2.2.2.trans (by omega)⟩
  | granted c cost t => exact ⟨h.1, h.2.1.trans hc, h.2.2⟩
  | ended => trivial

/-- What holds as long as nobody claims a job without having seen all earlier
claims. -/
structure Limited (q : QueueThrottle) (s : Throttled) : Prop where
  /-- claims are numbered -/
  numbered : ∀ c ∈ s.claims, c.number < s.claims.length
  /-- so no two are the same -/
  nodup : s.claims.Nodup
  /-- the limit held before every claim -/
  within : Within q s.claims
  /-- the set -/
  set : SetOk q s.clock s.recorded s.set
  /-- the dispatchers -/
  phases : ∀ i, PhaseOk q s.clock (s.phase i)

/-- Whoever claims a job had all earlier claims in front of it when it
checked. -/
def ThrottleAct.Informed (s : Throttled) : ThrottleAct → Prop
  | .claims i => ∀ seen, s.phase i = .allowed seen → ∀ c ∈ s.claims, c ∈ seen
  | .fails i => ∀ seen, s.phase i = .allowed seen → ∀ c ∈ s.claims, c ∈ seen
  | _ => True

namespace Limited

/-- One dispatcher goes on, and the account of the others stays as it is. -/
theorem goes (h : Limited q s) {p : Phase} (hp : PhaseOk q s.clock p) (i : ℕ) :
    Limited q (s.goes i p) := by
  refine ⟨h.numbered, h.nodup, h.within, h.set, fun j => ?_⟩
  show PhaseOk q s.clock (Function.update s.phase i p j)
  by_cases hj : j = i
  · rw [hj, Function.update_self]
    exact hp
  · rw [Function.update_of_ne hj]
    exact h.phases j

/-- Dropping old records keeps the limit. -/
theorem pruned (h : Limited q s) (hfits : q.Fits) {now : Int64}
    (hnow : 0 ≤ now.toInt ∧ now.toInt ≤ s.clock) : Limited q (s.pruned q now) :=
  ⟨h.numbered, h.nodup, h.within, h.set.expire.prune hfits hnow.1 hnow.2, h.phases⟩

theorem pops (h : Limited q s) (cost : Option Nat) (added : Nat) : Limited q (s.pops cost added) :=
  ⟨h.numbered, h.nodup, h.within, h.set, h.phases⟩

theorem record (h : Limited q s) {c : Claim} {cost : Option Nat} {members : List Nat} {t : Nat}
    (hp : PhaseOk q s.clock (.granted c cost t)) (hlen : members.length = cost.getD 1) :
    Limited q (s.record q c members t) := by
  have hne : members ≠ [] := by
    rintro rfl
    exact hp.2.2 hlen.symm
  exact ⟨h.numbered, h.nodup, h.within, h.set.expire.record hne hp.1 hp.2.1, h.phases⟩

/-- **A claim**: everything in the window was counted by the check, so there is room for one more.
-/
theorem claim (h : Limited q s) {seen : List Claim} (hp : PhaseOk q s.clock (.allowed seen))
    (hseen : ∀ c ∈ s.claims, c ∈ seen) : Limited q s.claim := by
  have hnew : (⟨s.claims.length, s.clock⟩ : Claim) ∉ s.claims := fun hmem =>
    absurd (h.numbered _ hmem) (lt_irrefl _)
  refine ⟨fun c hc => ?_, List.nodup_cons.mpr ⟨hnew, h.nodup⟩, ⟨?_, h.within⟩, h.set, h.phases⟩
  · rcases List.mem_cons.mp hc with rfl | hc
    · exact Nat.lt_succ_self _
    · exact (h.numbered c hc).trans (Nat.lt_succ_self _)
  · have hlt := hp (s.clock - q.window) (le_refl _)
    have hle : (claimsAfter (s.clock - q.window) s.claims).length ≤
        (claimsAfter (s.clock - q.window) seen).length := by
      refine List.Subperm.length_le (List.subperm_of_subset (h.nodup.filter _) fun c hc => ?_)
      obtain ⟨hc, hx⟩ := List.mem_filter.mp hc
      exact List.mem_filter.mpr ⟨hseen c hc, hx⟩
    have hcons : (claimsAfter (s.clock - q.window)
        (⟨s.claims.length, s.clock⟩ :: s.claims)).length ≤
          (claimsAfter (s.clock - q.window) s.claims).length + 1 := by
      simp only [claimsAfter]
      rw [List.filter_cons]
      split
      · exact le_refl _
      · exact Nat.le_succ _
    exact hcons.trans (by omega)

end Limited

/-! ## The limit -/

/-- In the beginning nothing has been claimed. -/
theorem initial_limited (t : Nat) : Limited q (.initial t) := by
  refine ⟨fun c hc => absurd hc List.not_mem_nil, List.nodup_nil, trivial, ⟨?_, ?_, ?_⟩,
    fun _ => trivial⟩
  · exact fun p hp => absurd hp List.not_mem_nil
  · exact fun e he => nomatch he
  · exact fun x _ => le_refl _

/-- A check that allows a claim has counted all that was recorded up to then. -/
theorem Limited.check (h : Limited q s) (hfits : q.Fits) {now : Int64}
    (hnow : 0 ≤ now.toInt ∧ now.toInt ≤ s.clock)
    (hallowed : (s.stateAt q now).isAllowed = true) :
    PhaseOk q s.clock (.allowed s.recorded) := by
  intro x hx
  have hroom := (Throttled.isAllowed_iff now).mp hallowed
  calc _ ≤ (entriesAfter x (s.pruned q now).set).length := (h.pruned hfits hnow).set.holds x hx
    _ ≤ (s.pruned q now).set.entries.length := List.length_filter_le ..
    _ < q.limit := hroom

/-- Every step keeps the limit, as long as whoever claims has seen all earlier claims. -/
theorem Limited.step {a : ThrottleAct} {s' : Throttled} (h : Limited q s) (hfits : q.Fits)
    (hstep : ThrottleStep q a s s') (hinf : a.Informed s) : Limited q s' := by
  have hphase : ∀ {i p}, s.phase i = p → PhaseOk q s.clock p := by
    rintro i p rfl
    exact h.phases i
  cases hstep with
  | passes ht =>
    exact ⟨h.numbered, h.nodup, h.within, h.set.later ht, fun i => (h.phases i).later ht⟩
  | @begins _ i now _ hnow => exact h.goes (p := .timed now) ⟨by omega, by omega⟩ i
  | @checks _ i now hp =>
    have hnow : 0 ≤ now.toInt ∧ now.toInt ≤ s.clock := hphase hp
    refine (h.pruned hfits hnow).goes ?_ i
    split
    · next hallowed => exact h.check hfits hnow hallowed
    · trivial
  | @claims _ i seen hp =>
    exact (h.claim (hphase hp) (hinf seen hp)).goes (p := .claimed _) (le_refl _) i
  | misses => exact h.goes (p := .idle) trivial _
  | @prices _ i c cost hp =>
    have hc : c.time ≤ s.clock := hphase hp
    have hgoes := h.goes (p := .priced c cost) hc i
    exact ⟨hgoes.numbered, hgoes.nodup, hgoes.within, hgoes.set, hgoes.phases⟩
  | @stamps _ i c cost hp =>
    have hc : c.time ≤ s.clock := hphase hp
    exact h.goes (p := .stamped c cost s.clock) ⟨hc, le_refl _⟩ i
  | @retimes _ i c cost t now hp hnow =>
    have ht : c.time ≤ t ∧ t ≤ s.clock := hphase hp
    exact h.goes (p := .retimed c cost t now) ⟨ht.1, ht.2, by omega, by omega⟩ i
  | @grants _ i c cost t now hp _ hcost =>
    have ht : c.time ≤ t ∧ t ≤ s.clock ∧ 0 ≤ now.toInt ∧ now.toInt ≤ s.clock := hphase hp
    exact (h.pruned hfits ht.2.2).goes (p := .granted c cost t) ⟨ht.1, ht.2.1, hcost⟩ i
  | @skips _ i c cost t now hp =>
    have ht : c.time ≤ t ∧ t ≤ s.clock ∧ 0 ≤ now.toInt ∧ now.toInt ≤ s.clock := hphase hp
    exact ((h.pruned hfits ht.2.2).pops cost 0).goes (p := .idle) trivial i
  | records hp hnew => exact ((h.record (hphase hp) hnew.length).pops _ _).goes (p := .idle) trivial _
  | @retries _ i now executed hp =>
    have hnow : 0 ≤ now.toInt ∧ now.toInt ≤ s.clock := hphase hp
    cases executed with
    | false => exact h.goes (p := .idle) trivial i
    | true => exact (h.pruned hfits hnow).goes (p := .idle) trivial i
  | @loses _ i seen executed hp =>
    cases executed with
    | false => exact h.goes (p := .ended) trivial i
    | true => exact (h.claim (hphase hp) (hinf seen hp)).goes (p := .ended) trivial i
  | puzzles => exact h.goes (p := .ended) trivial _
  | @breaks _ i c cost t now executed hp =>
    have ht : c.time ≤ t ∧ t ≤ s.clock ∧ 0 ≤ now.toInt ∧ now.toInt ≤ s.clock := hphase hp
    cases executed with
    | false => exact h.goes (p := .ended) trivial i
    | true => exact (h.pruned hfits ht.2.2).goes (p := .ended) trivial i
  | drops executed hp hnew =>
    cases executed with
    | false => exact h.goes (p := .ended) trivial _
    | true => exact (h.record (hphase hp) hnew.length).goes (p := .ended) trivial _

/-- If the limit held before every claim, it holds in every window of time. -/
theorem Within.window {cs : List Claim} (h : Within q cs) (a : Nat) :
    (cs.filter fun c => a ≤ c.time ∧ (c.time : Int) < a + q.window).length ≤ q.limit := by
  induction cs with
  | nil => exact Nat.zero_le _
  | cons c cs ih =>
    by_cases hc : a ≤ c.time ∧ (c.time : Int) < a + q.window
    · -- the last claim of the window: the others are not older than the window before it
      refine le_trans (List.Sublist.length_le ?_) h.1
      refine List.monotone_filter_right _ fun d hd => ?_
      have hd := of_decide_eq_true hd
      exact decide_eq_true (by omega)
    · rw [List.filter_cons_of_neg (by simpa using hc)]
      exact ih h.2

/-- A step in which a claim is made only by somebody who has seen all earlier claims. -/
def InformedStep (q : QueueThrottle) (s s' : Throttled) : Prop :=
  ∃ a : ThrottleAct, ThrottleStep q a s s' ∧ a.Informed s

/-- **The throttle limit**: any number of dispatchers, in any interleaving in
which whoever claims a job had all earlier claims in the set when it checked,
claim at most as many jobs in any window as the limit allows, unless the window
is so long that its microseconds do not fit into 64 bits. -/
theorem throttle_limit {t : Nat} (hfits : q.window < 2 ^ 63)
    (h : Relation.ReflTransGen (InformedStep q) (Throttled.initial t) s) (a : Nat) :
    (s.claims.filter fun c => a ≤ c.time ∧ (c.time : Int) < a + q.window).length ≤
      q.limit := by
  by_cases hpos : 0 < q.window
  · have hlim : Limited q s := by
      induction h with
      | refl => exact initial_limited t
      | tail _ hstep ih =>
        obtain ⟨act, hstep, hinf⟩ := hstep
        exact ih.step ⟨hpos, hfits⟩ hstep hinf
    exact hlim.within.window a
  · -- a window without length has no claims in it
    have hnone : (s.claims.filter fun c => a ≤ c.time ∧ (c.time : Int) < a + q.window) = [] := by
      refine List.filter_eq_nil_iff.mpr fun c _ hc => ?_
      have hc := of_decide_eq_true hc
      omega
    rw [hnone]
    exact Nat.zero_le _

/-- One job a minute, and one dispatcher that checks, claims a job and records it: the limit holds.
-/
theorem first_claim_within : ∃ s : Throttled,
    Relation.ReflTransGen (InformedStep ⟨1, 60000⟩) (Throttled.initial 0) s ∧
      s.claims = [⟨0, 0⟩] ∧
      (s.claims.filter fun c => 0 ≤ c.time ∧
        (c.time : Int) < 0 + (QueueThrottle.mk 1 60000).window).length ≤ 1 := by
  have h₁ := Relation.ReflTransGen.single (r := InformedStep ⟨1, 60000⟩)
    ⟨.begins 0, .begins (s := .initial 0) rfl (rfl : Int64.toInt 0 = _), trivial⟩
  have h₂ := h₁.tail ⟨.checks 0, .checks (rfl : _ = Phase.timed 0), trivial⟩
  have h₃ := h₂.tail ⟨.claims 0, .claims (rfl : _ = Phase.allowed []),
    fun _ _ c hc => absurd hc List.not_mem_nil⟩
  exact ⟨_, h₃, rfl, throttle_limit (by decide) h₃ 0⟩

/-- One job a minute, and two dispatchers that both check before either claims:
they claim two. -/
theorem throttle_exceeded : ∃ s : Throttled,
    Relation.ReflTransGen (fun s s' => ∃ a, ThrottleStep ⟨1, 60000⟩ a s s') (Throttled.initial 0)
      s ∧
    ¬ (s.claims.filter fun c => 0 ≤ c.time ∧
      (c.time : Int) < 0 + (QueueThrottle.mk 1 60000).window).length ≤ 1 := by
  have h₁ := Relation.ReflTransGen.single (r := fun s s' => ∃ a, ThrottleStep ⟨1, 60000⟩ a s s')
    ⟨.begins 0, .begins (s := .initial 0) rfl (rfl : Int64.toInt 0 = _)⟩
  have h₂ := h₁.tail ⟨.checks 0, .checks (rfl : _ = Phase.timed 0)⟩
  have h₃ := h₂.tail ⟨.begins 1, .begins rfl (rfl : Int64.toInt 0 = _)⟩
  have h₄ := h₃.tail ⟨.checks 1, .checks (rfl : _ = Phase.timed 0)⟩
  have h₅ := h₄.tail ⟨.claims 0, .claims (rfl : _ = Phase.allowed [])⟩
  have h₆ := h₅.tail ⟨.claims 1, .claims (rfl : _ = Phase.allowed [])⟩
  exact ⟨_, h₆, by decide⟩

end Oxana
