import Mathlib.Algebra.Ring.Nat
import Mathlib.Order.Lattice
import Mathlib.Order.Nat

/-!
# Durations

A span of time in whole nanoseconds, as long as its seconds fit 64 bits. The operations are those
of the standard library: division rounds down; a result that is no duration is a panic, which
is `none` here; the saturating product stops at the longest duration. Each is specified through
`Duration.nanos`, where the arithmetic is exact.
-/

/-- The nanoseconds of `Duration::MAX`, the longest span. -/
def Duration.maxNanos : ℕ := (2 ^ 64 - 1) * 10 ^ 9 + 999999999

/-- `Duration`: a span of time in nanoseconds, which is never negative and no longer than the
longest one. -/
@[ext] structure Duration where
  /-- how many nanoseconds -/
  nanos : ℕ
  /-- the seconds fit 64 bits -/
  fits : nanos ≤ Duration.maxNanos
  deriving DecidableEq, Repr

namespace Duration

/-- `Duration::from_millis`: a span of so many milliseconds. -/
def fromMillis (millis : UInt64) : Duration :=
  ⟨millis.toNat * 10 ^ 6, by have := millis.toNat_lt; rw [maxNanos]; omega⟩

/-- `Duration::from_secs`: a span of so many seconds. -/
def fromSecs (secs : UInt64) : Duration :=
  ⟨secs.toNat * 10 ^ 9, by have := secs.toNat_lt; rw [maxNanos]; omega⟩

/-- `Duration::ZERO`, the default: no time at all. -/
def zero : Duration := ⟨0, Nat.zero_le _⟩

instance : LinearOrder Duration := LinearOrder.lift' nanos fun _ _ => Duration.ext

/-- `Duration::is_zero`: whether it is no time at all. -/
def isZero (d : Duration) : Bool := d.nanos == 0

/-- A span of so many nanoseconds, or a panic if that is too long. -/
def checked (nanos : ℕ) : Option Duration :=
  if h : nanos ≤ maxNanos then some ⟨nanos, h⟩ else none

/-- So many nanoseconds, but no more than there can be. -/
def saturated (nanos : ℕ) : Duration := ⟨min nanos maxNanos, min_le_right ..⟩

/-- `Duration + Duration`, which panics if the sum is too long. -/
def add (a b : Duration) : Option Duration := checked (a.nanos + b.nanos)

/-- `Duration - Duration`, which panics if the difference is negative. -/
def sub (a b : Duration) : Option Duration :=
  if b.nanos ≤ a.nanos then checked (a.nanos - b.nanos) else none

/-- `Duration * u32`, which panics if the product is too long. -/
def mul (d : Duration) (n : ℕ) : Option Duration := checked (d.nanos * n)

/-- `Duration / u32`, which panics on zero. -/
def div (d : Duration) (n : ℕ) : Option Duration := if n = 0 then none else checked (d.nanos / n)

/-- `Duration::saturating_mul`: a multiple of the span, or the longest one. -/
def saturatingMul (d : Duration) (n : ℕ) : Duration := saturated (d.nanos * n)

/-! ## Exact values -/

variable {a b d : Duration} {n : ℕ}

theorem le_iff : a ≤ b ↔ a.nanos ≤ b.nanos := Iff.rfl

@[simp] theorem nanos_min (a b : Duration) : (min a b).nanos = min a.nanos b.nanos := by
  rcases le_total a b with h | h
  · rw [min_eq_left h, min_eq_left (le_iff.mp h)]
  · rw [min_eq_right h, min_eq_right (le_iff.mp h)]

/-- A saturating multiple is as long as it should be, and no longer than a duration can be. -/
@[simp] theorem nanos_saturatingMul (d : Duration) (n : ℕ) :
    (d.saturatingMul n).nanos = min (d.nanos * n) maxNanos := rfl

/-- A number of nanoseconds that a duration can hold makes a duration. -/
theorem checked_of_le (h : n ≤ maxNanos) : checked n = some ⟨n, h⟩ := dif_pos h

/-- Two durations are added without a panic if their sum is not too long. -/
theorem exists_add (h : a.nanos + b.nanos ≤ maxNanos) :
    ∃ c, a.add b = some c ∧ c.nanos = a.nanos + b.nanos :=
  ⟨_, checked_of_le h, rfl⟩

/-- A duration is taken from a longer one without a panic. -/
theorem exists_sub (h : b ≤ a) : ∃ c, a.sub b = some c ∧ c.nanos = a.nanos - b.nanos := by
  have hfits : a.nanos - b.nanos ≤ maxNanos := (Nat.sub_le ..).trans a.fits
  refine ⟨⟨_, hfits⟩, ?_, rfl⟩
  rw [sub, if_pos (le_iff.mp h), checked_of_le hfits]

/-- A multiple is taken without a panic if it is not too long. -/
theorem exists_mul (h : d.nanos * n ≤ maxNanos) :
    ∃ c, d.mul n = some c ∧ c.nanos = d.nanos * n :=
  ⟨_, checked_of_le h, rfl⟩

/-- A duration is divided without a panic by anything but zero, and what is left over is dropped. -/
theorem exists_div (hn : n ≠ 0) : ∃ c, d.div n = some c ∧ c.nanos = d.nanos / n := by
  have hfits : d.nanos / n ≤ maxNanos := (Nat.div_le_self ..).trans d.fits
  refine ⟨⟨_, hfits⟩, ?_, rfl⟩
  rw [div, if_neg hn, checked_of_le hfits]

end Duration
