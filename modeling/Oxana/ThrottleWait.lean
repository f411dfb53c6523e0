import Oxana.Throttler

/-!
# How long a throttled dispatcher waits

A dispatcher that finds its queue throttled sleeps for as long as `state_w_conn` says and then
checks again. The oldest record leaves the window `window - elapsed` after the clock was read;
`state_w_conn` adds what has elapsed instead of subtracting it.

`throttled_for_iff` says when the difference does not show: the oldest record must be less than a
millisecond old, and the sum must fit into 64 bits. A dispatcher with an older record sleeps too long,
by twice the age of the record, but never too short (`throttled_for_late`); where the sum wraps it
may not sleep at all.
-/

namespace Oxana

variable (q : QueueThrottle)

/-- A record with this score is no longer in the window at time `t`; both are in microseconds. -/
def QueueThrottle.Left (t : Int) (score : ℕ) : Prop := (score : Int) ≤ t - q.window

/-- `DateTime::MAX_UTC` in microseconds: the clock is never later than the end of the year 262142. -/
def lastInstant : Int := 8210266876799999999

/-- The end of `pop_queue_message_w_throttle`: how many milliseconds it sleeps. A negative number of
milliseconds is no `u64`, and the dispatcher falls back to another wait. -/
def throttleWait (fallbackWait : ℕ) (state : ThrottlerState) : ℕ :=
  match state.throttledFor with
  | some millis => if 0 ≤ millis then millis.toInt.toNat else fallbackWait
  | none => fallbackWait

/-- What the wait should be, when the clock read `now` and the oldest record has the score
`start`: positive, at most a window, and over just after that record has left the window. -/
structure WaitsOut (now : Int) (start : ℕ) (throttledFor : Int) : Prop where
  pos : 0 < throttledFor
  le : throttledFor ≤ q.windowMs.toInt + 1
  left : q.Left (now + throttledFor * 1000) start
  just : ¬ q.Left (now + (throttledFor - 2) * 1000) start

/-! ## The formula -/

variable {q} {now : Int64} {start : ℕ}

/-- A throttled queue has a record, and the answer is computed from the oldest. -/
theorem stateWConn_throttled {s : ThrottleSet} (hlimit : 1 ≤ q.limit)
    (hthrottled : (stateWConn q now s).1.isAllowed = false) :
    ∃ start, ((stateWConn q now s).2.entries.map (·.2)).min? = some start ∧
      (stateWConn q now s).1.throttledFor =
        some ((now - .ofIntClamp start + q.windowMicros) / 1000 + 1) := by
  have hcount : q.limit ≤ (stateWConn q now s).2.entries.length :=
    Nat.le_of_not_lt (of_decide_eq_false hthrottled)
  have hne : (stateWConn q now s).2.entries.map (·.2) ≠ [] := by
    intro hnil
    rw [List.map_eq_nil_iff] at hnil
    rw [hnil, List.length_nil] at hcount
    exact absurd hlimit (Nat.not_le_of_lt (Nat.lt_succ_of_le hcount))
  obtain ⟨start, hstart⟩ := Option.isSome_iff_exists.mp (List.isSome_min?_of_ne_nil hne)
  refine ⟨start, hstart, ?_⟩
  have hfor : (stateWConn q now s).1.throttledFor =
      if (stateWConn q now s).1.isAllowed then none
      else ((stateWConn q now s).2.entries.map (·.2)).min?.map fun start : ℕ =>
        (now - .ofIntClamp start + q.windowMicros) / 1000 + 1 := rfl
  rw [hfor, hthrottled, hstart]
  rfl

/-- The answer as a number: only the sum of what has elapsed and of the window can wrap. -/
theorem toInt_throttledFor (hnow : (start : Int) ≤ now.toInt) :
    ((now - .ofIntClamp start + q.windowMicros) / 1000 + 1).toInt =
      ((now.toInt - start + q.window).bmod (2 ^ 64)).tdiv 1000 + 1 := by
  have hmax := Int64.toInt_lt now
  have hstart : (Int64.ofIntClamp start).toInt = start :=
    Int64.toInt_ofIntClamp (le_trans (by decide) (Int.natCast_nonneg start))
      (hnow.trans (Int.lt_add_one_iff.mp hmax))
  have helapsed : (now - .ofIntClamp start).toInt = now.toInt - start := by
    rw [Int64.toInt_sub, hstart]
    exact Int.bmod_eq_of_le (by omega) (by omega)
  have hsum : (now - .ofIntClamp start + q.windowMicros).toInt =
      (now.toInt - start + q.window).bmod (2 ^ 64) := by
    rw [Int64.toInt_add, helapsed, QueueThrottle.windowMicros, Int64.toInt_mul, Int.add_bmod_bmod]
    rfl
  generalize now - .ofIntClamp start + q.windowMicros = x at hsum
  rw [← hsum]
  have hlow := Int64.le_toInt x
  have hhigh := Int64.toInt_lt x
  have hquotient := Int.mul_tdiv_add_tmod x.toInt 1000
  have hrest := Int.lt_tmod_of_pos x.toInt (b := 1000) (by decide)
  have hrest' := Int.tmod_lt_of_pos x.toInt (b := 1000) (by decide)
  have hdiv : (x / 1000).toInt = x.toInt.tdiv 1000 := by
    have hthousand : Int64.toInt 1000 = 1000 := rfl
    rw [Int64.toInt_div, hthousand]
    exact Int.bmod_eq_of_le (by omega) (by omega)
  have hone : Int64.toInt 1 = 1 := rfl
  rw [Int64.toInt_add, hdiv, hone]
  exact Int.bmod_eq_of_le (by omega) (by omega)

/-- Where the sum fits into a signed number, whole windows come out of the division. -/
theorem throttled_for_eq {age : Int} (hage : 0 ≤ age) (hwindow : 0 < q.windowMs.toInt)
    (hfits : age + q.window < 2 ^ 63) :
    ((age + q.window).bmod (2 ^ 64)).tdiv 1000 + 1 = age / 1000 + q.windowMs.toInt + 1 := by
  rw [QueueThrottle.window] at hfits ⊢
  rw [Int.bmod_eq_of_le (by omega) (by omega), Int.tdiv_eq_ediv_of_nonneg (by omega)]
  omega

/-- A wrapped sum is too small for the record to leave the window in that time. -/
theorem throttled_for_wrapped (age : Int) (hage : age ≤ lastInstant)
    (hwraps : 2 ^ 63 ≤ age + q.window) :
    (((age + q.window).bmod (2 ^ 64)).tdiv 1000 + 1) * 1000 < q.window - age := by
  have hsplit := Int.bmod_add_bdiv (age + q.window) (2 ^ 64)
  have hhigh := Int.bmod_lt (x := age + q.window) (m := 2 ^ 64) (by decide)
  generalize (age + q.window).bmod (2 ^ 64) = y at hsplit hhigh ⊢
  have hquotient := Int.mul_tdiv_add_tmod y 1000
  have hrest := Int.lt_tmod_of_pos y (b := 1000) (by decide)
  rw [lastInstant] at hage
  omega

/-! ## The wait -/

section Wait

variable (hnow : (start : Int) ≤ now.toInt) (hin : ¬ q.Left now.toInt start)

include hin in
/-- Only a window that has a length has a record in it. -/
theorem windowMs_pos (hnow : (start : Int) ≤ now.toInt) : 0 < q.windowMs.toInt := by
  simp only [QueueThrottle.Left, QueueThrottle.window] at hin
  omega

include hnow hin

/-- The wait is right for a record that is less than a millisecond old, if nothing wraps, and only
then. -/
theorem waitsOut_iff (hlast : now.toInt ≤ lastInstant) :
    WaitsOut q now.toInt start ((now - .ofIntClamp start + q.windowMicros) / 1000 + 1).toInt ↔
      now.toInt - start < 1000 ∧ now.toInt - start + q.window < 2 ^ 63 := by
  have hwindow := windowMs_pos hin hnow
  rw [toInt_throttledFor hnow]
  by_cases hfits : now.toInt - start + q.window < 2 ^ 63
  · rw [throttled_for_eq (by omega) hwindow hfits]
    constructor
    · rintro ⟨-, hle, -, -⟩
      exact ⟨by omega, hfits⟩
    · rintro ⟨hyoung, -⟩
      refine ⟨?_, ?_, ?_, ?_⟩
      · omega
      · omega
      · simp only [QueueThrottle.Left, QueueThrottle.window]
        omega
      · simp only [QueueThrottle.Left, QueueThrottle.window]
        omega
  · constructor
    · rintro ⟨-, -, hleft, -⟩
      have hshort := throttled_for_wrapped (q := q) (now.toInt - start) (by omega) (by omega)
      simp only [QueueThrottle.Left] at hleft
      omega
    · exact fun h => absurd h.2 hfits

/-- Where nothing wraps, the record has left the window in any case when the wait is over. -/
theorem throttled_for_late (hfits : now.toInt - start + q.window < 2 ^ 63) :
    q.Left (now.toInt +
      ((now - .ofIntClamp start + q.windowMicros) / 1000 + 1).toInt * 1000) start := by
  rw [toInt_throttledFor hnow, throttled_for_eq (by omega) (windowMs_pos hin hnow) hfits]
  simp only [QueueThrottle.Left, QueueThrottle.window]
  omega

end Wait

/-! ## The dispatcher -/

/-- **The throttle wait.** A dispatcher that finds its queue throttled, with the oldest record
inside the window, sleeps for as long as it should if and only if that record is less than a
millisecond old and its age and the window together fit into 64 bits. If they fit, it sleeps for as
long as `state_w_conn` says. -/
theorem throttled_for_iff {s : ThrottleSet} (hlimit : 1 ≤ q.limit)
    (hthrottled : (stateWConn q now s).1.isAllowed = false) :
    ∃ (start : ℕ) (throttledFor : Int64),
      ((stateWConn q now s).2.entries.map (·.2)).min? = some start ∧
      (stateWConn q now s).1.throttledFor = some throttledFor ∧
      ((start : Int) ≤ now.toInt → ¬ q.Left now.toInt start → now.toInt ≤ lastInstant →
        (WaitsOut q now.toInt start throttledFor.toInt ↔
          now.toInt - start < 1000 ∧ now.toInt - start + q.window < 2 ^ 63) ∧
        (now.toInt - start + q.window < 2 ^ 63 → ∀ fallbackWait,
          (throttleWait fallbackWait (stateWConn q now s).1 : Int) = throttledFor.toInt)) := by
  obtain ⟨start, hstart, hfor⟩ := stateWConn_throttled hlimit hthrottled
  refine ⟨start, _, hstart, hfor, fun hnow hin hlast => ⟨waitsOut_iff hnow hin hlast, ?_⟩⟩
  intro hfits fallbackWait
  have hpos : 0 ≤ ((now - .ofIntClamp start + q.windowMicros) / 1000 + 1).toInt := by
    rw [toInt_throttledFor hnow, throttled_for_eq (by omega) (windowMs_pos hin hnow) hfits]
    have hwindow := windowMs_pos hin hnow
    omega
  have hnonneg : 0 ≤ (now - .ofIntClamp start + q.windowMicros) / 1000 + 1 :=
    Int64.le_iff_toInt_le.mpr hpos
  rw [throttleWait, hfor]
  simp only [if_pos hnonneg]
  exact Int.toNat_of_nonneg hpos

/-- One job a second, and one record that was made half a millisecond ago: the dispatcher waits for
the right time. -/
theorem throttled_for_sample :
    ∃ (start : ℕ) (throttledFor : Int64),
      ((stateWConn ⟨1, 1000⟩ 1000500 ⟨[(0, 1000000)], none⟩).2.entries.map (·.2)).min? =
        some start ∧
      (stateWConn ⟨1, 1000⟩ 1000500 ⟨[(0, 1000000)], none⟩).1.throttledFor = some throttledFor ∧
      WaitsOut ⟨1, 1000⟩ 1000500 start throttledFor.toInt ∧
      ∀ fallbackWait,
        (throttleWait fallbackWait (stateWConn ⟨1, 1000⟩ 1000500 ⟨[(0, 1000000)], none⟩).1 : Int)
          = throttledFor.toInt := by
  obtain ⟨start, throttledFor, hstart, hfor, h⟩ := @throttled_for_iff ⟨1, 1000⟩ 1000500
    ⟨[(0, 1000000)], none⟩ (by decide) (by decide)
  have holdest : start = 1000000 := Option.some.inj (hstart.symm.trans (by decide))
  subst holdest
  obtain ⟨hiff, hwait⟩ := h (by decide) (by rw [QueueThrottle.Left]; decide) (by decide)
  exact ⟨_, _, hstart, hfor, hiff.mpr (by decide), hwait (by decide)⟩

/-- One job a second, and one record made half a second ago: the dispatcher sleeps for one and a half
seconds instead of half a second. -/
theorem throttled_for_doubled :
    (stateWConn ⟨1, 1000⟩ 1500000 ⟨[(0, 1000000)], none⟩).1.throttledFor = some 1501 ∧
      ((stateWConn ⟨1, 1000⟩ 1500000 ⟨[(0, 1000000)], none⟩).2.entries.map (·.2)).min? =
        some 1000000 ∧
      ¬ WaitsOut ⟨1, 1000⟩ 1500000 1000000 1501 :=
  ⟨by decide, by decide, fun h => absurd h.le (by decide)⟩

end Oxana
