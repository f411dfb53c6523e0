import Oxana.Duration
import Oxana.Storage

/-!
# Taking a connection for a claimed job

Before a worker reports what became of a claimed job it takes a connection from the pool, and
tries again for a while if the pool cannot give one (`claimedConnection`). Between two attempts it
waits, longer each time: for a part of a ceiling that doubles from `initialBackoff` to
`maxBackoff`, the part being drawn at random.

The surroundings say what the pool answers before the deadline and which byte is drawn; they may
go on failing forever. The clock is a parameter (`checkedAdd`), since the latest instant differs
from one platform to another. Where the source would panic the model has no result, and
`claimedConnection_backs_off` shows that it has one.
-/

namespace Oxana

/-- `PoolRetryConfig`: how long and how often to try for a connection. -/
structure PoolRetryConfig where
  /-- the time for all attempts together -/
  retryWindow : Option Duration := none
  /-- the first ceiling -/
  initialBackoff : Duration := .fromMillis 100
  /-- the highest ceiling -/
  maxBackoff : Duration := .fromSecs 1
  deriving DecidableEq, Repr

/-- The timeouts of the pool itself, where they are set. -/
structure PoolTimeouts where
  /-- for a free connection -/
  wait : Option Duration
  /-- for a new one -/
  create : Option Duration
  /-- for the check of an old one -/
  recycle : Option Duration

/-- Why the pool gives no connection. -/
inductive PoolError where
  /-- one of its timeouts -/
  | timeout
  /-- an error of the server or of the connection to it -/
  | backend (isIoError : Bool)
  /-- any other error -/
  | other
  deriving DecidableEq, Repr

/-- Whether an error of the pool is followed by another attempt. -/
def PoolError.retried : PoolError → Bool
  | timeout => true
  | backend isIoError => isIoError
  | other => false

/-- Why there is no connection in the end. -/
inductive ConnectionError where
  /-- `ConfigError` -/
  | config (message : String)
  /-- `DeadpoolRedisError`: the first attempt took too long -/
  | timedOut
  /-- `DeadpoolRedisPoolError` -/
  | pool (error : PoolError)
  deriving DecidableEq, Repr

/-- What the pool answers before the deadline, if it does. -/
abbrev PoolAnswer : Type := Option (Except PoolError Unit)

/-- A connection is not there yet, but may be later. -/
def PoolAnswer.Fails (answer : PoolAnswer) : Prop := ∃ e, answer = some (.error e) ∧ e.retried = true

/-- What the surroundings say in one round: a random byte, and what the pool answers. -/
structure Round where
  /-- the byte that is drawn -/
  jitter : UInt8
  /-- what the pool answers after the delay -/
  answer : PoolAnswer

/-- A delay between two attempts, and the ceiling that it was drawn under. -/
structure Retry where
  /-- the current ceiling -/
  ceiling : Duration
  /-- how long it is waited -/
  delay : Duration
  deriving DecidableEq, Repr

/-- How far an acquisition has come. -/
inductive Acquisition where
  /-- there is a connection -/
  | connected
  /-- there is none -/
  | failed (error : ConnectionError)
  /-- the surroundings have said no more -/
  | pending
  deriving DecidableEq, Repr

/-! ## The settings -/

section Settings

variable {Instant : Type} (checkedAdd : Instant → Duration → Option Instant)

/-- `PoolRetryConfig::validate`, where the clock is read up to twice. -/
def PoolRetryConfig.validate (now now' : Instant) (config : PoolRetryConfig) :
    Except OxanaError Unit :=
  if config.retryWindow.any fun window => window.isZero || (checkedAdd now window).isNone then
    .error (.config "pool retry window must be positive and fit a monotonic deadline")
  else if config.initialBackoff < .fromMillis 1 ∨ config.maxBackoff < config.initialBackoff ∨
      (checkedAdd now' config.maxBackoff).isNone then
    .error (.config "pool retry backoff must satisfy 1ms <= initial_backoff <= max_backoff and fit a monotonic deadline")
  else .ok ()

/-- `MIN_CLAIMED_CONNECTION_RETRY_WINDOW`: two seconds. -/
def minClaimedConnectionRetryWindow : Duration := .fromSecs 2

/-- The time for all attempts together, if the settings leave any. -/
def PoolRetryConfig.window (config : PoolRetryConfig) (timeouts : PoolTimeouts) : Duration :=
  config.retryWindow.getD
    (max ((([timeouts.wait, timeouts.create, timeouts.recycle].reduceOption.max?).getD
      .zero).saturatingMul 2) minClaimedConnectionRetryWindow)

end Settings

/-! ## The attempts -/

/-- The delay below a ceiling: between half of it and all of it. -/
def jitteredDelay (backoff : Duration) (jitter : UInt8) : Option Duration := do
  let half ← backoff.div 2
  let upper ← backoff.sub half
  -- scaled before it is multiplied
  let step ← upper.div 255
  let more ← step.mul jitter.toNat
  half.add more

/-- The loop of `claimed_connection`, with the delays it takes. -/
def retryConnection (config : PoolRetryConfig) :
    Except PoolError Unit → Duration → List Round → Option (List Retry × Acquisition)
  | .ok (), _, _ => some ([], .connected)
  | .error e, backoff, rounds =>
    if e.retried then match rounds with
      | [] => some ([], .pending)
      | round :: rounds => do
        let delay ← jitteredDelay backoff round.jitter
        match round.answer with
        | none => some ([⟨backoff, delay⟩], .failed (.pool e))
        | some result => do
          let (retries, acquisition) ←
            retryConnection config result (min (backoff.saturatingMul 2) config.maxBackoff) rounds
          some (⟨backoff, delay⟩ :: retries, acquisition)
    else some ([], .failed (.pool e))

/-- `claimed_connection`: with the delays it takes, or a panic. -/
def claimedConnection {Instant : Type} (checkedAdd : Instant → Duration → Option Instant)
    (now : Instant) (retries : Option PoolRetryConfig) (timeouts : PoolTimeouts)
    (first : PoolAnswer) (rounds : List Round) : Option (List Retry × Acquisition) :=
  match retries with
  | none => match first with
    | none => some ([], .pending)
    | some (.ok ()) => some ([], .connected)
    | some (.error e) => some ([], .failed (.pool e))
  | some config => match checkedAdd now (config.window timeouts) with
    | none => some ([], .failed (.config "pool retry deadline is out of range"))
    | some _ => match first with
      | none => some ([], .failed .timedOut)
      | some result => retryConnection config result config.initialBackoff rounds

/-! ## The bounds -/

/-- The ceilings of the delays: they double up to the highest one. -/
def PoolRetryConfig.ceiling (config : PoolRetryConfig) (k : ℕ) : ℕ :=
  min config.maxBackoff.nanos (config.initialBackoff.nanos * 2 ^ k)

/-- The ceilings never go down from one delay to the next. -/
theorem PoolRetryConfig.ceiling_mono (config : PoolRetryConfig) : Monotone config.ceiling := by
  intro i j hij
  refine min_le_min_left _ (Nat.mul_le_mul_left _ ?_)
  exact Nat.pow_le_pow_right (by decide) hij

/-- Doubling saturates no sooner than the ceilings do, so that the next backoff is the next ceiling.
-/
theorem PoolRetryConfig.ceiling_succ {config : PoolRetryConfig} {backoff : Duration} {k : ℕ}
    (h : backoff.nanos = config.ceiling k) :
    (min (backoff.saturatingMul 2) config.maxBackoff).nanos = config.ceiling (k + 1) := by
  have hmax := config.maxBackoff.fits
  rw [Duration.nanos_min, Duration.nanos_saturatingMul, h, ceiling, ceiling, Nat.pow_succ,
    ← Nat.mul_assoc]
  omega

/-- A jittered delay can always be computed, and lies between one half of the backoff and all of it.
-/
theorem exists_jitteredDelay (backoff : Duration) (jitter : UInt8) :
    ∃ delay, jitteredDelay backoff jitter = some delay ∧
      backoff.nanos / 2 ≤ delay.nanos ∧ delay ≤ backoff := by
  obtain ⟨half, hhalf, hhalf'⟩ := backoff.exists_div (n := 2) (by decide)
  have hle : half ≤ backoff := by
    rw [Duration.le_iff, hhalf']
    exact Nat.div_le_self ..
  obtain ⟨upper, hupper, hupper'⟩ := Duration.exists_sub hle
  obtain ⟨step, hstep, hstep'⟩ := upper.exists_div (n := 255) (by decide)
  -- the byte is at most 255, so the product is no more than what was divided
  have hscaled : step.nanos * jitter.toNat ≤ upper.nanos := by
    calc step.nanos * jitter.toNat
        ≤ step.nanos * 255 := Nat.mul_le_mul_left _ (Nat.le_of_lt_succ jitter.toNat_lt)
      _ = upper.nanos / 255 * 255 := by rw [hstep']
      _ ≤ upper.nanos := Nat.div_mul_le_self ..
  obtain ⟨more, hmore, hmore'⟩ := Duration.exists_mul (hscaled.trans upper.fits)
  have hsum : half.nanos + more.nanos ≤ backoff.nanos := by omega
  obtain ⟨delay, hdelay, hdelay'⟩ := Duration.exists_add (hsum.trans backoff.fits)
  refine ⟨delay, ?_, by omega, ?_⟩
  · simp only [jitteredDelay, hhalf, hupper, hstep, hmore, hdelay, Option.bind_eq_bind,
      Option.bind_some]
  · rw [Duration.le_iff, hdelay']
    exact hsum

/-- The delays from the `k`-th on are as they should be. -/
def Backs (config : PoolRetryConfig) (k : ℕ) (retries : List Retry) : Prop :=
  ∀ i retry, retries[i]? = some retry → retry.ceiling.nanos = config.ceiling (k + i) ∧
    retry.ceiling.nanos / 2 ≤ retry.delay.nanos ∧ retry.delay ≤ retry.ceiling

theorem Backs.nil {config : PoolRetryConfig} {k : ℕ} : Backs config k [] :=
  fun i retry h => by simp at h

/-- One more retry whose delay lies between the half of its ceiling and the ceiling. -/
theorem Backs.cons {config : PoolRetryConfig} {k : ℕ} {retry : Retry} {retries : List Retry}
    (hceiling : retry.ceiling.nanos = config.ceiling k)
    (hhalf : retry.ceiling.nanos / 2 ≤ retry.delay.nanos) (hdelay : retry.delay ≤ retry.ceiling)
    (h : Backs config (k + 1) retries) : Backs config k (retry :: retries) := by
  intro i r hr
  cases i with
  | zero =>
    cases hr
    exact ⟨hceiling, hhalf, hdelay⟩
  | succ i =>
    rw [Nat.add_comm i 1, ← Nat.add_assoc]
    exact h i r hr

/-- The loop, one case for each way in which it can go on; whatever the pool answers, every delay is
as it should be. -/
theorem retryConnection_backs {config : PoolRetryConfig} (rounds : List Round) {k : ℕ}
    {backoff : Duration} (h : backoff.nanos = config.ceiling k) (result : Except PoolError Unit) :
    ∃ retries acquisition,
      retryConnection config result backoff rounds = some (retries, acquisition) ∧
        Backs config k retries ∧
        (PoolAnswer.Fails (some result) → (∀ round ∈ rounds, round.answer.Fails) →
          retries.length = rounds.length) := by
  induction rounds generalizing k backoff result with
  | nil =>
    cases result with
    | ok u => exact ⟨[], .connected, rfl, .nil, fun _ _ => rfl⟩
    | error e =>
      by_cases he : e.retried = true
      · exact ⟨[], .pending, by rw [retryConnection, if_pos he], .nil, fun _ _ => rfl⟩
      · exact ⟨[], .failed (.pool e), by rw [retryConnection, if_neg he], .nil, fun _ _ => rfl⟩
  | cons round rounds ih =>
    cases result with
    | ok u =>
      refine ⟨[], .connected, rfl, .nil, fun hfails => ?_⟩
      obtain ⟨e, he, -⟩ := hfails
      cases he
    | error e =>
      by_cases he : e.retried = true
      · obtain ⟨delay, hdelay, hhalf, hle⟩ := exists_jitteredDelay backoff round.jitter
        cases hanswer : round.answer with
        | none =>
          refine ⟨[⟨backoff, delay⟩], .failed (.pool e), ?_, .cons h hhalf hle .nil, ?_⟩
          · simp only [retryConnection, he, if_true, hdelay, hanswer, Option.bind_eq_bind,
              Option.bind_some]
          · intro _ hrounds
            obtain ⟨e', he', -⟩ := hrounds round List.mem_cons_self
            rw [hanswer] at he'
            cases he'
        | some result =>
          obtain ⟨retries, acquisition, hloop, hbacks, hlength⟩ :=
            ih (PoolRetryConfig.ceiling_succ h) result
          refine ⟨⟨backoff, delay⟩ :: retries, acquisition, ?_, .cons h hhalf hle hbacks, ?_⟩
          · simp only [retryConnection, he, if_true, hdelay, hanswer, hloop, Option.bind_eq_bind,
              Option.bind_some]
          · intro _ hrounds
            have hfirst := hrounds round List.mem_cons_self
            rw [hanswer] at hfirst
            have hrest := hlength hfirst fun r hr => hrounds r (List.mem_cons_of_mem _ hr)
            rw [List.length_cons, List.length_cons, hrest]
      · refine ⟨[], .failed (.pool e), by rw [retryConnection, if_neg he], .nil, fun hfails => ?_⟩
        obtain ⟨e', he', hretried⟩ := hfails
        cases he'
        exact absurd hretried he

section Checkout

variable {Instant : Type} {checkedAdd : Instant → Duration → Option Instant}

/-- What is asked of settings, as far as the ceilings need it: the first backoff is no more than the
largest one. -/
theorem PoolRetryConfig.le_of_validate {now now' : Instant} {config : PoolRetryConfig}
    (h : config.validate checkedAdd now now' = .ok ()) :
    config.initialBackoff ≤ config.maxBackoff := by
  rw [validate] at h
  split at h
  case isTrue => cases h
  case isFalse =>
    split at h
    case isTrue => cases h
    case isFalse hback =>
      rw [not_or, not_or] at hback
      exact not_lt.mp hback.2.1

/-- What comes before the loop: the first attempt, which may succeed or fail for good. -/
theorem claimedConnection_backs {config : PoolRetryConfig}
    (hconfig : config.initialBackoff ≤ config.maxBackoff) (start : Instant)
    (timeouts : PoolTimeouts) (first : PoolAnswer) (rounds : List Round) :
    ∃ retries acquisition,
      claimedConnection checkedAdd start (some config) timeouts first rounds =
        some (retries, acquisition) ∧
      Backs config 0 retries ∧
      ((checkedAdd start (config.window timeouts)).isSome → first.Fails →
        (∀ round ∈ rounds, round.answer.Fails) → retries.length = rounds.length) := by
  have hstart : config.initialBackoff.nanos = config.ceiling 0 := by
    rw [PoolRetryConfig.ceiling, Nat.pow_zero, Nat.mul_one]
    exact (min_eq_right (Duration.le_iff.mp hconfig)).symm
  cases hdeadline : checkedAdd start (config.window timeouts) with
  | none => exact ⟨[], _, by simp only [claimedConnection, hdeadline]; rfl, .nil, nofun⟩
  | some deadline =>
    cases first with
    | none =>
      refine ⟨[], _, by simp only [claimedConnection, hdeadline]; rfl, .nil, ?_⟩
      rintro - ⟨e, he, -⟩
      cases he
    | some result =>
      obtain ⟨retries, acquisition, hloop, hbacks, hlength⟩ :=
        retryConnection_backs rounds hstart result
      refine ⟨retries, acquisition, ?_, hbacks, fun _ => hlength⟩
      simp only [claimedConnection, hdeadline, hloop]

/-- Whatever the pool answers, however often, and whatever bytes are drawn, with settings that
were accepted nothing overflows: there is a result. The ceiling of the `k`-th delay is the `k`-th
doubling of the initial one up to the highest, and so none is below the one before; each delay is
at least half of its ceiling, rounded down, and at most all of it. And there is a delay for every
failed attempt, as long as the deadline is not reached. -/
theorem claimedConnection_backs_off {now now' : Instant} {config : PoolRetryConfig}
    (hconfig : config.validate checkedAdd now now' = .ok ()) (start : Instant)
    (timeouts : PoolTimeouts) (first : PoolAnswer) (rounds : List Round) :
    ∃ retries acquisition,
      claimedConnection checkedAdd start (some config) timeouts first rounds =
        some (retries, acquisition) ∧
      (∀ (k : ℕ) (retry : Retry), retries[k]? = some retry →
        retry.ceiling.nanos =
          min config.maxBackoff.nanos (config.initialBackoff.nanos * 2 ^ k) ∧
        retry.ceiling.nanos / 2 ≤ retry.delay.nanos ∧ retry.delay ≤ retry.ceiling) ∧
      (∀ (i j : ℕ) (earlier later : Retry), i ≤ j → retries[i]? = some earlier →
        retries[j]? = some later → earlier.ceiling ≤ later.ceiling) ∧
      ((checkedAdd start (config.window timeouts)).isSome → first.Fails →
        (∀ round ∈ rounds, round.answer.Fails) → retries.length = rounds.length) := by
  obtain ⟨retries, acquisition, hresult, hbacks, hlength⟩ := claimedConnection_backs
    (PoolRetryConfig.le_of_validate hconfig) start timeouts first rounds
  have hall : ∀ (k : ℕ) (retry : Retry), retries[k]? = some retry →
      retry.ceiling.nanos = config.ceiling k ∧
      retry.ceiling.nanos / 2 ≤ retry.delay.nanos ∧ retry.delay ≤ retry.ceiling := by
    intro k retry hretry
    have := hbacks k retry hretry
    rwa [Nat.zero_add] at this
  refine ⟨retries, acquisition, hresult, hall, ?_, hlength⟩
  intro i j earlier later hij hearlier hlater
  rw [Duration.le_iff, (hall i earlier hearlier).1, (hall j later hlater).1]
  exact config.ceiling_mono hij

end Checkout

/-! ## The default settings -/

/-- A clock of nanoseconds that ends with the seconds of an `i64`. -/
def monotonicAdd (now : ℕ) (duration : Duration) : Option ℕ :=
  if now + duration.nanos < 2 ^ 63 * 10 ^ 9 then some (now + duration.nanos) else none

/-- The default settings are accepted. -/
theorem defaultRetries_accepted :
    ({} : PoolRetryConfig).validate monotonicAdd 1000 1001 = .ok () := by
  rw [PoolRetryConfig.validate, if_neg (by decide), if_neg (by decide)]

/-- The answer of a pool whose server cannot be reached. -/
def unreachable : PoolAnswer := some (.error (.backend true))

/-- Six attempts fail after the first one, each after a delay, and the ceiling of the delays has
reached a second by then. -/
theorem defaultRetries_back_off : ∃ retries acquisition,
    claimedConnection monotonicAdd 2000 (some {}) ⟨none, none, none⟩ unreachable
        (List.replicate 6 ⟨255, unreachable⟩) = some (retries, acquisition) ∧
      retries.length = 6 ∧
      ∀ retry, retries[5]? = some retry → retry.ceiling.nanos = 10 ^ 9 := by
  obtain ⟨retries, acquisition, hresult, hbacks, -, hlength⟩ :=
    claimedConnection_backs_off defaultRetries_accepted 2000 ⟨none, none, none⟩ unreachable
      (List.replicate 6 ⟨255, unreachable⟩)
  have hfails : unreachable.Fails := ⟨_, rfl, rfl⟩
  refine ⟨retries, acquisition, hresult, ?_, fun retry hretry => (hbacks 5 retry hretry).1⟩
  rw [hlength (by decide) hfails fun round hround => ?_, List.length_replicate]
  rw [List.eq_of_mem_replicate hround]
  exact hfails

end Oxana
