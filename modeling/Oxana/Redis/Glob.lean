import Mathlib.Data.List.Infix

/-!
# Glob patterns

The patterns by which a server selects keys in a scan. They work on **bytes**:
`*` stands for any bytes, `?` for one byte, `[…]` for one byte of a class
(negated by `^`, with ranges), and a backslash takes the next byte literally. A
class that is not closed ends with the pattern.

A pattern is read into tokens first (`tokens`), so that matching is a plain
recursion on them.
-/

namespace Redis

/-- One element of a pattern: a byte, any byte, a class of bytes or any number of bytes. -/
inductive Token where
  /-- any bytes -/
  | star
  /-- one byte -/
  | any
  /-- one byte in, or not in, one of the ranges -/
  | cls (negated : Bool) (ranges : List (UInt8 × UInt8))
  /-- this byte -/
  | lit (c : UInt8)
  deriving DecidableEq, Repr

/-- Ranges of a class compare bytes as signed numbers, as the server does. -/
def signed (c : UInt8) : Int := if c.toNat < 128 then c.toNat else c.toNat - 256

/-- Whether a byte is in a range, whichever end comes first. -/
def inRange (c : UInt8) (r : UInt8 × UInt8) : Bool :=
  (signed r.1 ≤ signed c && signed c ≤ signed r.2) ||
    (signed r.2 ≤ signed c && signed c ≤ signed r.1)

/-- Whether a token that takes one byte takes this one. -/
def Token.takes : Token → UInt8 → Bool
  | .star, _ => false
  | .any, _ => true
  | .cls negated ranges, c => (ranges.any (inRange c)) != negated
  | .lit c', c => c' == c

/-- The ranges of a class in brackets, and the pattern after the closing one. -/
def classRanges : List UInt8 → List (UInt8 × UInt8) × List UInt8
  | [] => ([], [])
  | 92 :: c :: p => ((c, c) :: (classRanges p).1, (classRanges p).2)
  | 93 :: p => ([], p)
  | a :: 45 :: b :: p => ((a, b) :: (classRanges p).1, (classRanges p).2)
  | a :: p => ((a, a) :: (classRanges p).1, (classRanges p).2)

/-- The tokens of a pattern, at most `n` of them. -/
def tokensOf : Nat → List UInt8 → List Token
  | 0, _ => []
  | _, [] => []
  | n + 1, 42 :: p => .star :: tokensOf n p
  | n + 1, 63 :: p => .any :: tokensOf n p
  | n + 1, 91 :: 94 :: p => .cls true (classRanges p).1 :: tokensOf n (classRanges p).2
  | n + 1, 91 :: p => .cls false (classRanges p).1 :: tokensOf n (classRanges p).2
  | n + 1, 92 :: c :: p => .lit c :: tokensOf n p
  | n + 1, c :: p => .lit c :: tokensOf n p

/-- The tokens of a pattern, of which there are no more than it has bytes. -/
def tokens (p : List UInt8) : List Token := tokensOf p.length p

/-- Whether a string of bytes matches the tokens of a pattern, as a whole. -/
def matchTokens : List Token → List UInt8 → Bool
  | [], s => s.isEmpty
  | .star :: ts, s => s.tails.any (matchTokens ts)
  | _ :: _, [] => false
  | t :: ts, c :: s => t.takes c && matchTokens ts s

/-- The bytes of a string in UTF-8. -/
def bytes (s : String) : List UInt8 := s.toByteArray.data.toList

/-- Whether a key matches a pattern, as `SCAN` with `MATCH` compares them. -/
def globMatch (pattern key : String) : Bool := matchTokens (tokens (bytes pattern)) (bytes key)

example : globMatch "a:q:mail*" "a:q:mailing" = true := by decide

example : globMatch "h[^a-c]?lo\\*" "hello*" = true := by decide

/-! ## Patterns without special bytes -/

/-- A byte that means something else than itself in a pattern. -/
def special (c : UInt8) : Bool := c == 42 || c == 63 || c == 91 || c == 92

/-- A string that is a pattern for itself, since none of its bytes is special. -/
def Literal (s : String) : Prop := ∀ c ∈ bytes s, special c = false

instance (s : String) : Decidable (Literal s) := inferInstanceAs (Decidable (∀ _ ∈ _, _))

theorem bytes_append (s t : String) : bytes (s ++ t) = bytes s ++ bytes t := by
  simp [bytes, ByteArray.data_append]

/-- Two strings that are patterns for themselves make one together. -/
theorem Literal.append {s t : String} (hs : Literal s) (ht : Literal t) : Literal (s ++ t) := by
  intro c hc
  rw [bytes_append] at hc
  exact (List.mem_append.mp hc).elim (hs c) (ht c)

theorem tokensOf_cons {c : UInt8} (h : special c = false) (n : Nat) (p : List UInt8) :
    tokensOf (n + 1) (c :: p) = .lit c :: tokensOf n p := by
  simp only [special, Bool.or_eq_false_iff, beq_eq_false_iff_ne] at h
  obtain ⟨⟨⟨h₁, h₂⟩, h₃⟩, h₄⟩ := h
  rw [tokensOf] <;> simp_all

/-- The tokens of a string that is a pattern for itself are its bytes, and those of the rest of the
pattern follow. -/
theorem tokensOf_literal {l : List UInt8} (h : ∀ c ∈ l, special c = false) (p : List UInt8) :
    tokensOf (l ++ p).length (l ++ p) = l.map .lit ++ tokensOf p.length p := by
  induction l with
  | nil => rfl
  | cons c l ih =>
    rw [List.cons_append, List.length_cons, tokensOf_cons (h c (List.mem_cons_self ..)),
      ih fun c' hc' => h c' (List.mem_cons_of_mem _ hc')]
    rfl

theorem matchTokens_literal (l : List UInt8) (ts : List Token) (s : List UInt8) :
    matchTokens (l.map .lit ++ ts) (l ++ s) = matchTokens ts s := by
  induction l with
  | nil => rfl
  | cons c l ih =>
    rw [List.map_cons, List.cons_append, List.cons_append, matchTokens, ih]
    · simp [Token.takes]
    · simp

/-- A string that is a pattern for itself, with a star at its end, matches whatever begins with it.
-/
theorem globMatch_star {p : String} (h : Literal p) (s : String) :
    globMatch (p ++ "*") (p ++ s) = true := by
  have hstar : tokensOf (bytes "*").length (bytes "*") = [.star] := by decide
  rw [globMatch, tokens, bytes_append, bytes_append, tokensOf_literal h, hstar,
    matchTokens_literal, matchTokens, List.any_eq_true]
  exact ⟨[], (List.mem_tails ..).mpr (List.nil_suffix ..), rfl⟩

/-- What is matched by some bytes and more tokens begins with these bytes. -/
theorem prefix_of_matchTokens {l : List UInt8} {ts : List Token} {s : List UInt8}
    (h : matchTokens (l.map .lit ++ ts) s = true) : l <+: s := by
  induction l generalizing s with
  | nil => exact List.nil_prefix
  | cons c l ih =>
    cases s with
    | nil => simp [matchTokens] at h
    | cons c' s =>
      rw [List.map_cons, List.cons_append, matchTokens, Bool.and_eq_true] at h
      · obtain ⟨hc, h⟩ := h
        rw [← beq_iff_eq.mp hc]
        exact List.cons_prefix_cons.mpr ⟨rfl, ih h⟩
      · simp

/-- What a pattern matches begins as the pattern does, up to the first byte that means something
else. -/
theorem prefix_of_globMatch {p q key : String} (h : Literal p)
    (hkey : globMatch (p ++ q) key = true) : bytes p <+: bytes key := by
  rw [globMatch, tokens, bytes_append, tokensOf_literal h] at hkey
  exact prefix_of_matchTokens hkey

end Redis
