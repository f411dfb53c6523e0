import Oxana.Alone
import Oxana.Transitions

/-!
# Delays

A job is enqueued in some seconds, or retried in some seconds; a worker that does not say when
computes the seconds from the number of retries. None of these computations is checked: the seconds
are cast to a signed number, multiplied to microseconds, added to the clock, and a power of five is
taken, each in machine arithmetic. A value `none` is a panic of the library for dates.

`delays_kept_iff` says for which delays nothing goes wrong.
-/

namespace Oxana

open Redis Call

variable {γ : Type}

/-! ## The library for dates -/

/-- The times that a `DateTime` can hold, in microseconds; that they fit 64 bits is the documented
limit of `chrono`. -/
structure DateRange where
  /-- `DateTime::MIN_UTC` -/
  minUtc : Int
  /-- `DateTime::MAX_UTC` -/
  maxUtc : Int
  /-- `timestamp_micros` does not overflow -/
  le_minUtc : -2 ^ 63 ≤ minUtc
  maxUtc_lt : maxUtc < 2 ^ 63

/-- `DateTime + Duration::seconds(s)`: the duration is one of milliseconds in 64 bits, and the sum
must be a time that can be held. -/
def DateRange.addSeconds (R : DateRange) (t : Int) (s : Int64) : Option Int :=
  if s.toInt.natAbs ≤ 9223372036854775 ∧ R.minUtc ≤ t + s.toInt * 1000000 ∧
      t + s.toInt * 1000000 ≤ R.maxUtc then
    some (t + s.toInt * 1000000)
  else none

/-! ## The operations -/

/-- The time `enqueue_in` computes from the clock and the delay. -/
def enqueueInTime (R : DateRange) (t : Int) (delay : UInt64) : Option Int :=
  R.addSeconds t delay.toInt64

/-- `enqueue_in`: an envelope is enqueued for some time from now, if that is a date. -/
def enqueueIn (R : DateRange) (K : StorageKeys) (e : JobEnvelope) (delay : UInt64) :
    Call γ JobId :=
  if delay = 0 then enqueue K e
  else do
    let t ← now
    match enqueueInTime R t delay with
    | none => hang
    | some time => do
      let t' ← now
      enqueueAt K (e.withScheduledAt (.ofInt t') (.ofInt time))

/-- `Worker::retry_delay`: the argument and the power wrap. -/
def retryDelay (retries : UInt32) : UInt64 := .ofNat (5 ^ (retries + 2).toNat)

/-! ## What is promised -/

/-- The score is at least the time plus the delay, or the last one there is. -/
def DelayKept (last t : Int) (delay : UInt64) (score : Int) : Prop :=
  t + delay.toNat * 1000000 ≤ score ∨ score = last

/-- `enqueue_in` keeps its promise at time `t`: it places the job at once if there is no delay;
otherwise it does not panic, and whatever the clock reads when the score is computed, the score is
not too early. -/
def EnqueueInKept (R : DateRange) (t : Int) (delay : UInt64) : Prop :=
  delay = 0 ∨ ∃ time, enqueueInTime R t delay = some time ∧
    ∀ (e : JobEnvelope) (t' : Int), R.minUtc ≤ t' → t' ≤ R.maxUtc →
      DelayKept R.maxUtc t delay
        (e.withScheduledAt (.ofInt t') (.ofInt time)).jobMeta.scheduledAt.toInt

/-- `retry_in` keeps its promise: the clock is one of 64 bits without a sign, neither the product
nor the sum wraps, and the score is not too early. -/
structure RetryInKept (t : Int) (delay : UInt64) : Prop where
  clock : ((UInt64.ofInt t).toNat : Int) = t
  product : (delay * 1000000).toNat = delay.toNat * 1000000
  sum : retryScore t delay = (UInt64.ofInt t).toNat + (delay * 1000000).toNat
  kept : DelayKept (2 ^ 64 - 1) t delay (retryScore t delay)

/-- The delay before the next attempt is `5 ^ (retries + 2)` seconds: neither the sum nor the power
wraps. -/
structure RetryDelayKept (retries : UInt32) : Prop where
  sum : (retries + 2).toNat = retries.toNat + 2
  power : (retryDelay retries).toNat = 5 ^ (retries.toNat + 2)

/-! ## Machine numbers -/

theorem toInt_toInt64 (d : UInt64) : d.toInt64.toInt = (d.toNat : Int).bmod (2 ^ 64) := by
  rw [← Int64.toInt_toBitVec, BitVec.toInt_eq_toNat_bmod]
  rfl

/-- The cast to a signed number keeps a delay below `2 ^ 63` and makes a larger one negative. -/
theorem toInt_toInt64_cases (d : UInt64) :
    (d.toNat < 2 ^ 63 ∧ d.toInt64.toInt = d.toNat) ∨
      (2 ^ 63 ≤ d.toNat ∧ d.toInt64.toInt = (d.toNat : Int) - 2 ^ 64) := by
  have hlt := d.toNat_lt
  rw [toInt_toInt64, Int.bmod_def]
  split <;> omega

/-- A time that fits 64 bits is kept as it is. -/
theorem toInt_ofInt64 {t : Int} (hlo : -2 ^ 63 ≤ t) (hhi : t < 2 ^ 63) :
    (Int64.ofInt t).toInt = t := by
  rw [Int64.toInt_ofInt, Int.bmod_def, show Int64.size = 2 ^ 64 from rfl]
  split <;> omega

/-- A time without a sign is kept modulo `2 ^ 64`. -/
theorem toNat_ofInt64 (t : Int) : ((UInt64.ofInt t).toNat : Int) = t % 2 ^ 64 := by
  rw [UInt64.ofInt, UInt64.toNat_ofNat']
  omega

/-- A job is scheduled at the later of the two times, the clock and the one that was asked for. -/
theorem withScheduledAt_toInt {R : DateRange} {t' time : Int} (e : JobEnvelope)
    (ht' : R.minUtc ≤ t' ∧ t' ≤ R.maxUtc) (htime : R.minUtc ≤ time ∧ time ≤ R.maxUtc) :
    (e.withScheduledAt (.ofInt t') (.ofInt time)).jobMeta.scheduledAt.toInt = max time t' := by
  have hlo := R.le_minUtc
  have hhi := R.maxUtc_lt
  have h₁ : (Int64.ofInt t').toInt = t' := toInt_ofInt64 (by omega) (by omega)
  have h₂ : (Int64.ofInt time).toInt = time := toInt_ofInt64 (by omega) (by omega)
  show (if Int64.ofInt time ≤ Int64.ofInt t' then Int64.ofInt t' else Int64.ofInt time).toInt =
    max time t'
  split
  next hle =>
    rw [Int64.le_iff_toInt_le, h₁, h₂] at hle
    rw [h₁, max_eq_right hle]
  next hle =>
    rw [Int64.le_iff_toInt_le, h₁, h₂] at hle
    rw [h₂, max_eq_left (by omega)]

/-! ## When they are kept -/

/-- `enqueue_in` keeps a delay exactly as long as the time it leads to can be held by a date. -/
theorem enqueueInKept_iff {R : DateRange} {t : Int} (ht : R.minUtc ≤ t ∧ t ≤ R.maxUtc)
    (delay : UInt64) :
    EnqueueInKept R t delay ↔ t + delay.toNat * 1000000 ≤ R.maxUtc := by
  have hlo := R.le_minUtc
  have hhi := R.maxUtc_lt
  constructor
  · rintro (rfl | ⟨time, htime, hkept⟩)
    · show t + ((0 : UInt64).toNat : Int) * 1000000 ≤ R.maxUtc
      rw [show (0 : UInt64).toNat = 0 from rfl]
      omega
    · rw [enqueueInTime, DateRange.addSeconds] at htime
      split at htime
      next hok =>
        cases htime
        rcases toInt_toInt64_cases delay with ⟨-, hcast⟩ | ⟨hbig, hcast⟩
        · rw [hcast] at hok
          exact hok.2.2
        · -- a delay that became negative gives a time in the past
          have hlt := delay.toNat_lt
          have hscore := hkept mail _ hok.2.1 hok.2.2
          rw [withScheduledAt_toInt mail hok.2 hok.2, max_self, hcast] at hscore
          rcases hscore with hscore | hscore
          · omega
          · omega
      next => cases htime
  · intro hfits
    have hlt : delay.toNat < 2 ^ 63 := by omega
    have hcast : delay.toInt64.toInt = delay.toNat := by
      rcases toInt_toInt64_cases delay with ⟨-, hcast⟩ | ⟨hbig, -⟩
      · exact hcast
      · exact absurd hlt (Nat.not_lt_of_le hbig)
    have htime : R.minUtc ≤ t + delay.toNat * 1000000 ∧ t + delay.toNat * 1000000 ≤ R.maxUtc :=
      ⟨by omega, hfits⟩
    refine .inr ⟨t + delay.toNat * 1000000, ?_, fun e t' hlo' hhi' => .inl ?_⟩
    · rw [enqueueInTime, DateRange.addSeconds, hcast]
      refine if_pos ⟨?_, htime⟩
      rw [Int.natAbs_natCast]
      omega
    · rw [withScheduledAt_toInt e ⟨hlo', hhi'⟩ htime]
      exact le_max_left _ _

/-- `retry_in` keeps a delay exactly as long as the time it leads to fits 64 bits. -/
theorem retryInKept_iff {t : Int} (ht : t < 2 ^ 63) (delay : UInt64) :
    RetryInKept t delay ↔ 0 ≤ t ∧ t + delay.toNat * 1000000 < 2 ^ 64 := by
  have hclock := toNat_ofInt64 t
  have hproduct : (delay * 1000000).toNat = delay.toNat * 1000000 % 2 ^ 64 :=
    UInt64.toNat_mul delay 1000000
  have hsum : retryScore t delay =
      (((UInt64.ofInt t).toNat + (delay * 1000000).toNat) % 2 ^ 64 : ℕ) :=
    congrArg Nat.cast (UInt64.toNat_add (UInt64.ofInt t) (delay * 1000000))
  constructor
  · rintro ⟨hc, hp, hs, -⟩
    rw [hsum] at hs
    omega
  · rintro ⟨h0, hfits⟩
    have hc : ((UInt64.ofInt t).toNat : Int) = t := by omega
    have hp : (delay * 1000000).toNat = delay.toNat * 1000000 := by omega
    have hs : retryScore t delay = (UInt64.ofInt t).toNat + (delay * 1000000).toNat := by
      rw [hsum]
      omega
    refine ⟨hc, hp, hs, .inl ?_⟩
    rw [hs, hc, hp]
    omega

/-- `retry_delay` gives the delay it should up to 25 retries, and a wrapped power after that. -/
theorem retryDelayKept_iff (retries : UInt32) : RetryDelayKept retries ↔ retries.toNat ≤ 25 := by
  have hpower : (retryDelay retries).toNat = 5 ^ (retries + 2).toNat % 2 ^ 64 :=
    UInt64.toNat_ofNat'
  constructor
  · rintro ⟨hs, hp⟩
    by_contra hbig
    rw [hpower, hs] at hp
    -- a power that is its own remainder is small
    have hsmall : 5 ^ (retries.toNat + 2) < 2 ^ 64 := hp ▸ Nat.mod_lt _ (Nat.two_pow_pos 64)
    have hle : 5 ^ 28 ≤ 5 ^ (retries.toNat + 2) :=
      Nat.pow_le_pow_right (by decide) (by omega)
    exact absurd (Nat.lt_of_le_of_lt hle hsmall) (by decide)
  · intro hle
    have hs : (retries + 2).toNat = retries.toNat + 2 := by
      rw [UInt32.toNat_add]
      exact Nat.mod_eq_of_lt (Nat.lt_of_le_of_lt (Nat.add_le_add_right hle 2) (by decide))
    refine ⟨hs, ?_⟩
    rw [hpower, hs]
    refine Nat.mod_eq_of_lt (Nat.lt_of_le_of_lt ?_ (by decide : 5 ^ 27 < 2 ^ 64))
    exact Nat.pow_le_pow_right (by decide) (by omega)

/-! ## Where the jobs are placed -/

/-- `enqueue_in` keeps its promise by placing the job in the schedule at its time, as
`enqueue_w_conn` does. -/
theorem enqueueIn_scheduled {allowed : Choice → Prop} {R : DateRange} {K : StorageKeys}
    {w w' : World γ} {delay : UInt64} (hd : delay ≠ 0)
    (hw : R.minUtc ≤ w.clock ∧ w.clock ≤ R.maxUtc)
    (hfits : w.clock + delay.toNat * 1000000 ≤ R.maxUtc) (e : JobEnvelope)
    {r : Except OxanaError JobId} (h : Solo allowed (enqueueIn R K e delay) w r w') :
    ∃ e', e'.id = e.id ∧ e'.jobMeta.scheduledAt.toInt = w.clock + delay.toNat * 1000000 ∧
      Solo allowed (enqueueOne K e' .schedule) w r w' := by
  have hpos : 0 < delay.toNat := Nat.pos_of_ne_zero fun h0 => hd (UInt64.toNat_inj.mp h0)
  have htime : R.minUtc ≤ w.clock + delay.toNat * 1000000 ∧
      w.clock + delay.toNat * 1000000 ≤ R.maxUtc := ⟨by omega, hfits⟩
  have hcast : delay.toInt64.toInt = delay.toNat := by
    have := R.le_minUtc
    have := R.maxUtc_lt
    rcases toInt_toInt64_cases delay with ⟨-, hcast⟩ | ⟨hbig, -⟩
    · exact hcast
    · omega
  have hin : enqueueInTime R w.clock delay = some (w.clock + delay.toNat * 1000000) := by
    have := R.maxUtc_lt
    have := R.le_minUtc
    rw [enqueueInTime, DateRange.addSeconds, hcast]
    refine if_pos ⟨?_, htime⟩
    rw [Int.natAbs_natCast]
    omega
  rw [enqueueIn, if_neg hd] at h
  replace h := solo_now_bind.mp h
  rw [hin] at h
  replace h := solo_now_bind.mp h
  have hscore := withScheduledAt_toInt e hw htime
  rw [max_eq_left (by omega)] at hscore
  rw [enqueueAt] at h
  replace h := solo_now_bind.mp h
  rw [hscore, if_neg (by omega)] at h
  exact ⟨e.withScheduledAt _ _, rfl, hscore, h⟩

/-- `retry_in` keeps its promise by placing the job in the retry set at its time. -/
theorem retryIn_placed {H : Handle} {w w' : World γ} {id : JobId} {delay : UInt64}
    {error : String} (h : Solo Reliable (retryIn H id delay error) w (.ok ()) w')
    {p : String} {e : JobEnvelope} (hp : payloadOf H.keys.jobs w.store id = some p)
    (he : JobEnvelope.decode p = some e) :
    (w'.store.zset H.keys.retry).lookup e.id = some (retryScore w.clock delay) := by
  rcases (solo_retryIn h).2 with ⟨hnone, -⟩ | ⟨p', e', hp', he', rfl⟩
  · rw [hp] at hnone
    cases hnone
  · cases hp.symm.trans hp'
    cases he.symm.trans he'
    have hproc : H.keys.retry ≠ H.currentProcessingQueue :=
      (StorageKeys.processing_ne_fixed (K := H.keys) H.processId).2.2.2.symm
    show (Store.zset (retried H _ _ w.store) H.keys.retry).lookup e.id = _
    rw [retried, Store.zset_put_ne _ hproc, Store.zset_put_self]
    exact lookup_setScore_self

/-- **Delays.** At a time that can be held, a delay is added to the clock without a panic, without
wrapping and without becoming shorter exactly if: for `enqueue_in` the sum can be held too, for
`retry_in` it fits 64 bits without a sign, and for `retry_delay` there are at most 25 retries. The
sums are the scores under which the jobs are placed. -/
theorem delays_kept_iff {R : DateRange} {t : Int} (ht : R.minUtc ≤ t ∧ t ≤ R.maxUtc)
    (delay : UInt64) (retries : UInt32) :
    (EnqueueInKept R t delay ↔ t + delay.toNat * 1000000 ≤ R.maxUtc) ∧
    (RetryInKept t delay ↔ 0 ≤ t ∧ t + delay.toNat * 1000000 < 2 ^ 64) ∧
    (RetryDelayKept retries ↔ retries.toNat ≤ 25) ∧
    (∀ (K : StorageKeys) (e : JobEnvelope) (w w' : World Unit) (r : Except OxanaError JobId),
      w.clock = t → delay ≠ 0 → EnqueueInKept R t delay →
      Solo (fun _ => True) (enqueueIn R K e delay) w r w' →
      ∃ e', e'.id = e.id ∧ e'.jobMeta.scheduledAt.toInt = t + delay.toNat * 1000000 ∧
        Solo (fun _ => True) (enqueueOne K e' .schedule) w r w') ∧
    ∀ (H : Handle) (w w' : World Unit) (id : JobId) (error p : String) (e : JobEnvelope),
      w.clock = t → Solo Reliable (retryIn H id delay error) w (.ok ()) w' →
      payloadOf H.keys.jobs w.store id = some p → JobEnvelope.decode p = some e →
      (w'.store.zset H.keys.retry).lookup e.id = some (retryScore t delay) := by
  have hhi := R.maxUtc_lt
  refine ⟨enqueueInKept_iff ht delay, retryInKept_iff (by omega) delay,
    retryDelayKept_iff retries, ?_, ?_⟩
  · rintro K e w w' r rfl hd hkept h
    exact enqueueIn_scheduled hd ht ((enqueueInKept_iff ht delay).mp hkept) e h
  · rintro H w w' id error p e rfl h hp he
    exact retryIn_placed h hp he

/-- With years up to 262142, at the beginning of the epoch, a delay of one second is kept exactly.
-/
theorem delays_kept_sample :
    (EnqueueInKept ⟨-8334601228800000000, 8210266876799999999, by decide, by decide⟩ 0 1 ↔
      (0 : Int) + (1 : UInt64).toNat * 1000000 ≤ 8210266876799999999) ∧
    (RetryInKept 0 1 ↔ (0 : Int) ≤ 0 ∧ (0 : Int) + (1 : UInt64).toNat * 1000000 < 2 ^ 64) ∧
    (RetryDelayKept 3 ↔ (3 : UInt32).toNat ≤ 25) :=
  have h := delays_kept_iff
    (R := ⟨-8334601228800000000, 8210266876799999999, by decide, by decide⟩) (t := 0)
    (by decide) 1 3
  ⟨h.1, h.2.1, h.2.2.1⟩

/-- The largest delay there is becomes a second ago, and the job is enqueued at once; a retry in as
many seconds is due a second before the clock; the 26th default delay is a power that wraps. -/
theorem delays_not_kept :
    ¬ EnqueueInKept ⟨-8334601228800000000, 8210266876799999999, by decide, by decide⟩
        1000000 18446744073709551615 ∧
      ¬ RetryInKept 1000000 18446744073709551615 ∧ retryScore 1000000 18446744073709551615 = 0 ∧
      ¬ RetryDelayKept 26 := by
  refine ⟨?_, ?_, by decide, ?_⟩
  · rw [enqueueInKept_iff (by decide)]
    decide
  · rw [retryInKept_iff (by decide)]
    decide
  · rw [retryDelayKept_iff]
    decide

end Oxana
