import Mathlib.Data.List.Basic
import Mathlib.Order.Nat
import Mathlib.Algebra.Ring.Int.Defs
import Mathlib.Algebra.Ring.Nat

/-!
# Pages with one more element

A list is shown in pages of `m` elements. For each page one more element is read, and the next page
is said to exist if that element is there. Here some elements show nothing: they are dropped after
the reading, so that a page on which one of them was read looks like the last.
-/

namespace Lookahead

variable {α β : Type} (f : α → Option β) (m : ℕ) (l : List α)

/-- What is read for the first page of the list. -/
def ahead : List β := (l.take (m + 1)).filterMap f

/-- If an element of a page, or the one after the page, is mapped to nothing, then so is everything
behind them. -/
def Closed : Prop :=
  ∀ k, (k + 1) * m < l.length → (∃ x ∈ (l.drop (k * m)).take (m + 1), f x = none) →
    ∀ x ∈ l.drop ((k + 1) * m + 1), f x = none

variable {f m l}

/-- Nothing is dropped from a list when each of its elements is mapped to something. -/
theorem length_filterMap_eq_iff : (l.filterMap f).length = l.length ↔ ∀ x ∈ l, f x ≠ none := by
  rw [List.length_filterMap_eq_countP, List.countP_eq_length]
  simp [Option.isSome_iff_ne_none]

/-- One more element than the page has room for is seen if it is there and nothing up to it is
dropped. -/
theorem lt_length_ahead_iff : m < (ahead f m l).length ↔
    m < l.length ∧ ∀ x ∈ l.take (m + 1), f x ≠ none := by
  have hle : (ahead f m l).length ≤ (l.take (m + 1)).length := List.length_filterMap_le ..
  rw [← length_filterMap_eq_iff]
  rw [List.length_take] at hle ⊢
  change _ ↔ m < l.length ∧ (ahead f m l).length = _
  omega

/-- A list whose pages show everything shows everything without its first page as well. -/
theorem Closed.drop (h : Closed f m l) : Closed f m (l.drop m) := by
  intro k hk hgap
  have hadd (j : ℕ) : m + j * m = (j + 1) * m := by rw [Nat.add_mul, Nat.one_mul, Nat.add_comm]
  rw [List.length_drop] at hk
  rw [List.drop_drop, hadd] at hgap
  rw [List.drop_drop, ← Nat.add_assoc, hadd]
  exact h (k + 1) (by rw [← hadd]; omega) hgap

/-- After a page that lacks nothing it depends on the pages after it whether everything is shown. -/
theorem closed_iff_drop (h : m < (ahead f m l).length) : Closed f m l ↔ Closed f m (l.drop m) := by
  refine ⟨Closed.drop, fun hdrop k hk hgap => ?_⟩
  obtain ⟨hlt, hall⟩ := lt_length_ahead_iff.mp h
  cases k with
  | zero =>
    obtain ⟨x, hx, hnone⟩ := hgap
    rw [Nat.zero_mul, List.drop_zero] at hx
    exact absurd hnone (hall x hx)
  | succ k =>
    have hadd (j : ℕ) : m + j * m = (j + 1) * m := by rw [Nat.add_mul, Nat.one_mul, Nat.add_comm]
    have hlen : (k + 1) * m < (l.drop m).length := by
      rw [List.length_drop]
      rw [← hadd] at hk
      omega
    have hrest := hdrop k hlen
    rw [List.drop_drop, hadd, List.drop_drop, ← Nat.add_assoc, hadd] at hrest
    exact hrest hgap

/-- What is shown on a page that lacks nothing, together with what can be shown after it, is
everything that can be shown. -/
theorem take_ahead_append (h : m < (ahead f m l).length) :
    (ahead f m l).take m ++ (l.drop m).filterMap f = l.filterMap f := by
  obtain ⟨hlt, hall⟩ := lt_length_ahead_iff.mp h
  have hfirst : ((l.take m).filterMap f).length = m := by
    rw [length_filterMap_eq_iff.mpr, List.length_take, Nat.min_eq_left hlt.le]
    exact fun x hx => hall x (List.take_subset_take_left _ (Nat.le_succ m) hx)
  have hsplit : ahead f m l = (l.take m).filterMap f ++ ((l.drop m).take 1).filterMap f := by
    rw [ahead, List.take_add, List.filterMap_append]
  rw [hsplit, List.take_append_of_le_length hfirst.ge, List.take_of_length_le hfirst.le,
    ← List.filterMap_append, List.take_append_drop]

/-- A page that looks like the last one is the last to show something exactly if the list is closed:
no gap on a page has anything to be shown behind it. -/
theorem take_ahead_eq_iff (h : ¬ m < (ahead f m l).length) :
    (ahead f m l).take m = l.filterMap f ↔ Closed f m l := by
  have hall : (ahead f m l).take m = ahead f m l := List.take_of_length_le (Nat.not_lt.mp h)
  have hsplit : l.filterMap f = ahead f m l ++ (l.drop (m + 1)).filterMap f := by
    rw [ahead, ← List.filterMap_append, List.take_append_drop]
  have hrest : (ahead f m l).take m = l.filterMap f ↔ ∀ x ∈ l.drop (m + 1), f x = none := by
    rw [hall, hsplit, List.self_eq_append_right, List.filterMap_eq_nil_iff]
  rw [hrest]
  constructor
  · intro hnone k hk hgap x hx
    refine hnone x (List.drop_subset_drop_left _ ?_ hx)
    have := Nat.le_mul_of_pos_left m (Nat.succ_pos k)
    exact Nat.succ_le_succ this
  · intro hclosed
    by_cases hlt : m < l.length
    · -- the element that is missing has been dropped
      have hgap : ∃ x ∈ l.take (m + 1), f x = none := by
        by_contra hno
        exact h (lt_length_ahead_iff.mpr ⟨hlt, fun x hx hnone => hno ⟨x, hx, hnone⟩⟩)
      have hzero := hclosed 0
      rw [Nat.zero_add, Nat.one_mul, Nat.zero_mul, List.drop_zero] at hzero
      exact hzero hlt hgap
    · rw [List.drop_eq_nil_of_le (Nat.le_succ_of_le (Nat.not_lt.mp hlt))]
      intro x hx
      cases hx

end Lookahead
