import Oxana.Redis.Script
import Mathlib.Data.Int.Order.Basic

/-!
# Ranges of lists

`LRANGE` and `ZRANGE` take the first and the last position of what they return; a negative position
counts from the end. `LINDEX` and the two commands that count elements are here as well.
-/

namespace Redis

/-- A position, where it counts from the end if it is negative. -/
def position (n : ℕ) (i : ℤ) : ℤ := if i < 0 then n + i else i

/-- What stands between two positions of a list, both included; negative ones count from its end. -/
def between {α : Type} (start stop : ℤ) (l : List α) : List α :=
  let first := max (position l.length start) 0
  (l.drop first.toNat).take (position l.length stop - first + 1).toNat

theorem position_natCast (n i : ℕ) : position n i = i := if_neg (by omega)

/-- What stands between two positions of a list is in the list. -/
theorem mem_of_mem_between {α : Type} {a b : ℤ} {l : List α} {x : α} (h : x ∈ between a b l) :
    x ∈ l := List.mem_of_mem_drop (List.mem_of_mem_take h)

/-- Positions that count from the front: what is between them is what is left after dropping and
taking. -/
theorem between_natCast {α : Type} (a b : ℕ) (l : List α) :
    between a b l = (l.drop a).take (b + 1 - a) := by
  have hfirst : max (a : ℤ) 0 = a := max_eq_left (by omega)
  have hcount : ((b : ℤ) - a + 1).toNat = b + 1 - a := by omega
  simp only [between, position_natCast, hfirst, hcount, Int.toNat_natCast]

/-- `LRANGE`: the items of a list between two positions. -/
def lrangeBetween (k : Key) (start stop : ℤ) : Script (List String) :=
  onKind .list k fun s => (between start stop (s.list k), s)

/-- `ZRANGE`: the members of a sorted set between two positions, in its order. -/
def zrangeBetween (k : Key) (start stop : ℤ) : Script (List String) :=
  onKind .zset k fun s => ((between start stop (s.zset k)).map Prod.fst, s)

/-- `LINDEX -1`: the last item of a list, if there is one. -/
def lindexLast (k : Key) : Script (Option String) :=
  onKind .list k fun s => ((s.list k).getLast?, s)

/-- `ZCARD`: the number of members of a sorted set. -/
def zcard (k : Key) : Script ℕ := onKind .zset k fun s => ((s.zset k).length, s)

variable (k : Key) (s : Store)

@[simp] theorem lrangeBetween_snd (start stop : ℤ) : (lrangeBetween k start stop s).2 = s :=
  onKind_read ..

@[simp] theorem zrangeBetween_snd (start stop : ℤ) : (zrangeBetween k start stop s).2 = s :=
  onKind_read ..

@[simp] theorem lindexLast_snd : (lindexLast k s).2 = s := onKind_read ..

@[simp] theorem zcard_snd : (zcard k s).2 = s := onKind_read ..

end Redis
