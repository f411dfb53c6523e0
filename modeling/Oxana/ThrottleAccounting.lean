import Oxana.Throttler

/-!
# The accounts of one dispatcher

A dispatcher that has a queue to itself never finds its second check against
it: since the first one the set has only become smaller. So every job it claims
is recorded at its cost, and the set outgrows the limit by no more than one
job's cost (`throttle_accounting`).
-/

namespace Oxana

variable {q : QueueThrottle} {s : Throttled}

/-! ## The size of the set -/

theorem ThrottleSet.at_length_le (s : ThrottleSet) (t : Nat) :
    (s.at t).entries.length ≤ s.entries.length := by
  simp only [ThrottleSet.at]
  split
  · split
    · exact Nat.zero_le _
    · exact le_refl _
  · exact le_refl _

theorem ThrottleSet.zrembyscore_entries (s : ThrottleSet) (hi : Int) :
    (s.zrembyscore hi).entries = s.entries.filter fun p => hi < p.2 := by
  simp only [ThrottleSet.zrembyscore]
  split
  · next h => exact h.symm
  · next h => exact h.symm

theorem ThrottleSet.pexpire_length_le (s : ThrottleSet) (t : Nat) (ms : Int) :
    (s.pexpire t ms).entries.length ≤ s.entries.length := by
  simp only [ThrottleSet.pexpire]
  split
  · exact Nat.zero_le _
  · exact le_refl _

theorem ThrottleSet.zadd_length (s : ThrottleSet) (members : List Nat) (score : Nat) :
    (s.zadd members score).entries.length = s.entries.length + members.length := by
  simp [ThrottleSet.zadd]

/-- Checking a throttle adds no record. -/
theorem stateWConn_length_le (now : Int64) (s : ThrottleSet) :
    (stateWConn q now s).2.entries.length ≤ s.entries.length := by
  simp only [stateWConn]
  rw [ThrottleSet.zrembyscore_entries]
  exact List.length_filter_le ..

/-- A check allows a job exactly if there is room in the set once the old records are dropped. -/
theorem Throttled.isAllowed_iff (now : Int64) :
    (s.stateAt q now).isAllowed = true ↔ (s.pruned q now).set.entries.length < q.limit :=
  decide_eq_true_iff

theorem Throttled.pruned_length_le (now : Int64) :
    (s.pruned q now).set.entries.length ≤ s.set.entries.length :=
  (stateWConn_length_le now _).trans (s.set.at_length_le _)

theorem Throttled.record_length_le (c : Claim) (members : List Nat) (score : Nat) :
    (s.record q c members score).set.entries.length ≤ s.set.entries.length + members.length := by
  refine (ThrottleSet.pexpire_length_le _ _ _).trans ?_
  rw [ThrottleSet.zadd_length]
  exact Nat.add_le_add_right (s.set.at_length_le _) _

/-! ## The accounts -/

/-- The largest of some costs; a job that names none costs one. -/
def largest (costs : List (Option Nat)) : Nat := (costs.map (·.getD 1)).foldr max 0

/-- No cost of a list exceeds the largest one, an unknown cost counting as one. -/
theorem le_largest {costs : List (Option Nat)} {cost : Option Nat} (h : cost ∈ costs) :
    cost.getD 1 ≤ largest costs := by
  induction costs with
  | nil => cases h
  | cons c costs ih =>
    rcases List.mem_cons.mp h with rfl | h
    · exact le_max_left _ _
    · exact (ih h).trans (le_max_right _ _)

/-- The dispatcher has been allowed to claim a job, and has not recorded it. -/
def Phase.Open : Phase → Prop
  | .idle => False
  | .timed _ => False
  | .ended => False
  | _ => True

/-- What the claimed job costs, once that is known. -/
def Phase.cost? : Phase → Option (Option Nat)
  | .priced _ cost => some cost
  | .stamped _ cost _ => some cost
  | .retimed _ cost _ _ => some cost
  | .granted _ cost _ => some cost
  | _ => none

/-- Whatever the dispatcher does: every job that was returned has been recorded
at its cost, and the set is not too large. -/
structure Counted (q : QueueThrottle) (s : Throttled) : Prop where
  /-- recorded at its cost -/
  popped : ∀ p ∈ s.popped, p.2 = p.1.getD 1
  /-- not too large -/
  size : s.set.entries.length ≤ q.limit - 1 + largest s.priced

/-- And while it is allowed to claim a job, there is room. -/
structure Accounts (q : QueueThrottle) (s : Throttled) : Prop extends Counted q s where
  /-- there is room -/
  room : (s.phase 0).Open → s.set.entries.length < q.limit
  /-- costs are known -/
  cost : ∀ cost, (s.phase 0).cost? = some cost → cost ∈ s.priced

namespace Counted

/-- Dropping old records keeps the set within its bound. -/
theorem pruned (h : Counted q s) (now : Int64) : Counted q (s.pruned q now) :=
  ⟨h.popped, (Throttled.pruned_length_le now).trans h.size⟩

theorem claim (h : Counted q s) : Counted q s.claim := ⟨h.popped, h.size⟩

theorem prices (h : Counted q s) (cost : Option Nat) :
    Counted q { s with priced := cost :: s.priced } := by
  refine ⟨h.popped, h.size.trans (Nat.add_le_add_left ?_ _)⟩
  exact le_max_right _ _

/-- Recording a job that was allowed exceeds the limit by no more than the cost of this job. -/
theorem record (h : Counted q s) {c : Claim} {cost : Option Nat} {members : List Nat} {score : Nat}
    (hroom : s.set.entries.length < q.limit) (hcost : cost ∈ s.priced)
    (hlen : members.length = cost.getD 1) : Counted q (s.record q c members score) := by
  refine ⟨h.popped, (Throttled.record_length_le c members score).trans ?_⟩
  have := le_largest hcost
  show s.set.entries.length + members.length ≤ q.limit - 1 + largest s.priced
  omega

theorem pops (h : Counted q s) {cost : Option Nat} {added : Nat} (hn : added = cost.getD 1) :
    Counted q (s.pops cost added) := by
  refine ⟨fun p hp => ?_, h.size⟩
  rcases List.mem_cons.mp hp with rfl | hp
  · exact hn
  · exact h.popped p hp

/-- The dispatcher goes on, with room in the set as long as it may still claim. -/
theorem goes (h : Counted q s) {p : Phase} (hroom : p.Open → s.set.entries.length < q.limit)
    (hcost : ∀ cost, p.cost? = some cost → cost ∈ s.priced) : Accounts q (s.goes 0 p) := by
  have hphase : (s.goes 0 p).phase 0 = p := by simp [Throttled.goes]
  refine ⟨⟨h.popped, h.size⟩, ?_, ?_⟩
  · rw [hphase]
    exact hroom
  · rw [hphase]
    exact hcost

/-- The dispatcher is done with the job, and its record is complete. -/
theorem rests (h : Counted q s) {p : Phase} (hp : p = .idle ∨ p = .ended) :
    Accounts q (s.goes 0 p) := by
  rcases hp with rfl | rfl
  · exact h.goes False.elim fun _ hc => nomatch hc
  · exact h.goes False.elim fun _ hc => nomatch hc

end Counted

/-- The second check of a dispatcher never refuses a job that the first has allowed. -/
theorem Accounts.allowed (h : Accounts q s) (hopen : (s.phase 0).Open) (now : Int64) :
    (s.stateAt q now).isAllowed = true :=
  (Throttled.isAllowed_iff now).mpr ((Throttled.pruned_length_le now).trans_lt (h.room hopen))

/-! ## One dispatcher -/

/-- The step is one of dispatcher `i`, or time passes, which is nobody's step. -/
def ThrottleAct.Of (i : ℕ) : ThrottleAct → Prop
  | .passes => True
  | .begins j => j = i
  | .checks j => j = i
  | .claims j => j = i
  | .misses j => j = i
  | .prices j _ => j = i
  | .stamps j => j = i
  | .retimes j => j = i
  | .rechecks j => j = i
  | .records j => j = i
  | .fails j => j = i

/-- A step of a throttled queue that has a single dispatcher: it is that dispatcher's, or time
passes. -/
def SoloStep (q : QueueThrottle) (s s' : Throttled) : Prop :=
  ∃ a : ThrottleAct, a.Of 0 ∧ ThrottleStep q a s s'

/-- Every step of the one dispatcher keeps the account of its throttle. -/
theorem Accounts.step {s' : Throttled} (h : Accounts q s) (hstep : SoloStep q s s') :
    Accounts q s' := by
  obtain ⟨a, ha, hstep⟩ := hstep
  have hroom : ∀ {i p}, i = 0 → s.phase i = p → p.Open → s.set.entries.length < q.limit := by
    rintro i p rfl rfl hopen
    exact h.room hopen
  have hcost : ∀ {i p cost}, i = 0 → s.phase i = p → p.cost? = some cost → cost ∈ s.priced := by
    rintro i p cost rfl rfl hp
    exact h.cost cost hp
  cases hstep with
  | passes => exact ⟨⟨h.popped, h.size⟩, h.room, h.cost⟩
  | begins =>
    obtain rfl := ha
    exact h.toCounted.goes False.elim fun _ hc => nomatch hc
  | @checks _ i now hp =>
    obtain rfl := ha
    split
    · next hallowed =>
      exact (h.toCounted.pruned now).goes (fun _ => (Throttled.isAllowed_iff now).mp hallowed)
        fun _ hc => nomatch hc
    · exact (h.toCounted.pruned now).rests (.inl rfl)
  | claims hp =>
    obtain rfl := ha
    exact h.toCounted.claim.goes (fun _ => hroom rfl hp trivial) fun _ hc => nomatch hc
  | misses =>
    obtain rfl := ha
    exact h.toCounted.rests (.inl rfl)
  | prices cost hp =>
    obtain rfl := ha
    refine (h.toCounted.prices cost).goes (fun _ => hroom rfl hp trivial) fun cost' hc => ?_
    obtain rfl := Option.some.inj hc
    exact List.mem_cons_self ..
  | stamps hp =>
    obtain rfl := ha
    exact h.toCounted.goes (fun _ => hroom rfl hp trivial) fun _ hc => hcost rfl hp hc
  | retimes hp _ =>
    obtain rfl := ha
    exact h.toCounted.goes (fun _ => hroom rfl hp trivial) fun _ hc => hcost rfl hp hc
  | @grants _ i c cost t now hp _ _ =>
    obtain rfl := ha
    exact (h.toCounted.pruned now).goes
      (fun _ => (Throttled.pruned_length_le now).trans_lt (hroom rfl hp trivial))
      fun _ hc => hcost rfl hp hc
  | @skips _ i c cost t now hp hno =>
    obtain rfl := ha
    have hfree : cost.getD 1 = 0 := by
      by_contra hne
      exact hno ⟨h.allowed (by rw [hp]; trivial) now, hne⟩
    exact ((h.toCounted.pruned now).pops hfree.symm).rests (.inl rfl)
  | @records _ i c cost t members hp hnew =>
    obtain rfl := ha
    refine ((h.toCounted.record (hroom rfl hp trivial) (hcost rfl hp rfl) hnew.length).pops ?_).rests
      (.inl rfl)
    rw [ThrottleSet.zadd_length, Nat.add_sub_cancel_left]
    exact hnew.length
  | @retries _ i now executed hp =>
    obtain rfl := ha
    cases executed with
    | false => exact h.toCounted.rests (.inl rfl)
    | true => exact (h.toCounted.pruned now).rests (.inl rfl)
  | @loses _ i seen executed hp =>
    obtain rfl := ha
    cases executed with
    | false => exact h.toCounted.rests (.inr rfl)
    | true => exact h.toCounted.claim.rests (.inr rfl)
  | puzzles =>
    obtain rfl := ha
    exact h.toCounted.rests (.inr rfl)
  | @breaks _ i c cost t now executed hp =>
    obtain rfl := ha
    cases executed with
    | false => exact h.toCounted.rests (.inr rfl)
    | true => exact (h.toCounted.pruned now).rests (.inr rfl)
  | @drops _ i c cost t members executed hp hnew =>
    obtain rfl := ha
    cases executed with
    | false => exact h.toCounted.rests (.inr rfl)
    | true =>
      exact (h.toCounted.record (hroom rfl hp trivial) (hcost rfl hp rfl) hnew.length).rests
        (.inr rfl)

end Oxana
