import Mathlib.Data.List.Basic
import Mathlib.Data.List.TakeWhile
import Mathlib.Algebra.Ring.Int.Defs
import Mathlib.Algebra.Ring.Nat

/-!
# JSON values and their compact text

Values are trees; the members of an object are a list, in text order and with
repetitions, because that is what a text says — what a reader makes of a
repeated key is the reader's business. Texts are lists of characters.

Two leaves carry more than a Lean value of the obvious type would:

* a **number** is its literal. Readers differ in which numbers they can hold,
  so the literal is kept and `Number.toInt?` says which of them are integers;
* a **string** is any sequence of Unicode scalar values. The writer escapes
  quotes, backslashes and control characters and nothing else.
-/

namespace Json

/-! ## Numbers -/

/-- The characters that number literals are made of. -/
def isNumberChar (c : Char) : Bool :=
  c.isDigit || c == '-' || c == '+' || c == '.' || c == 'e' || c == 'E'

/-- At least one digit, and nothing else. -/
def isDigits (cs : List Char) : Bool := !cs.isEmpty && cs.all Char.isDigit

/-- The integer part: digits, without a leading zero. -/
def isIntPart (cs : List Char) : Bool := isDigits cs && (cs.length == 1 || cs.head? != some '0')

/-- The exponent, if there is one. -/
def isExponent : List Char → Bool
  | [] => true
  | c :: cs => (c == 'e' || c == 'E') &&
    match cs with
    | '+' :: ds => isDigits ds
    | '-' :: ds => isDigits ds
    | ds => isDigits ds

/-- The fraction and the exponent, if there are any. -/
def isFraction : List Char → Bool
  | '.' :: cs => isDigits (cs.takeWhile Char.isDigit) && isExponent (cs.dropWhile Char.isDigit)
  | cs => isExponent cs

/-- A number literal without its sign: an integer part, a fraction and an exponent. -/
def isUnsigned (cs : List Char) : Bool :=
  isIntPart (cs.takeWhile Char.isDigit) && isFraction (cs.dropWhile Char.isDigit)

/-- A number literal, possibly negative. -/
def isNumber : List Char → Bool
  | '-' :: cs => isUnsigned cs
  | cs => isUnsigned cs

/-- A number, kept as it is written, so that writing it again changes nothing. -/
structure Number where
  /-- the literal -/
  text : List Char
  /-- all of its characters can stand in a literal, and they make one -/
  ok : text.all isNumberChar ∧ isNumber text
  deriving DecidableEq

namespace Number

/-- The decimal literal of a natural number. -/
def natText (n : Nat) : List Char := Nat.toDigits 10 n

/-- The decimal literal of an integer. -/
def intText : Int → List Char
  | .ofNat n => natText n
  | .negSucc n => '-' :: natText (n + 1)

/-- The natural number a run of digits denotes. -/
def readNat (cs : List Char) : Option Nat :=
  if isDigits cs then some (Nat.ofDigitChars 10 cs 0) else none

/-- The integer a literal denotes, when it is written as one. A negative zero
is not: readers take it for a fraction. -/
def toInt? (x : Number) : Option Int :=
  match x.text with
  | '-' :: cs => (readNat cs).bind fun n => if n = 0 then none else some (-(n : Int))
  | cs => (readNat cs).map Int.ofNat

/-- A natural number is written in digits. -/
theorem natText_all (n : Nat) : (natText n).all Char.isDigit := by
  rw [List.all_eq_true]
  exact fun c hc => Nat.isDigit_of_mem_toDigits (by decide) (by decide) hc

theorem isDigits_natText (n : Nat) : isDigits (natText n) := by
  rw [isDigits, natText_all, Bool.and_true]
  simp [natText, Nat.toDigits_ne_nil]

/-- Only zero is written with a leading zero. -/
theorem head_natText {n : Nat} (hn : 0 < n) : (natText n).head? ≠ some '0' := by
  induction n using Nat.strongRecOn with
  | ind n ih =>
    rcases Nat.lt_or_ge n 10 with h | h
    · have hdigit : ∀ m < 10, 0 < m → [Nat.digitChar m].head? ≠ some '0' := by decide
      rw [natText, Nat.toDigits_of_lt_base h]
      exact hdigit n h hn
    · rw [natText, Nat.toDigits_of_base_le (by decide) h,
        List.head?_append_of_ne_nil _ Nat.toDigits_ne_nil]
      exact ih (n / 10) (by omega) (by omega)

/-- A natural number is written without a leading zero, unless it is zero. -/
theorem isIntPart_natText (n : Nat) : isIntPart (natText n) := by
  rw [isIntPart, isDigits_natText, Bool.true_and]
  rcases Nat.eq_zero_or_pos n with rfl | hn
  · decide
  · simp [head_natText hn]

theorem isUnsigned_natText (n : Nat) : isUnsigned (natText n) := by
  have hall : ∀ c ∈ natText n, c.isDigit = true := List.all_eq_true.mp (natText_all n)
  rw [isUnsigned, List.takeWhile_eq_self_iff.mpr hall, List.dropWhile_eq_nil_iff.mpr hall]
  simp [isIntPart_natText, isFraction, isExponent]

theorem natText_ne_minus {n : Nat} {cs : List Char} : natText n ≠ '-' :: cs := by
  intro h
  have := List.all_eq_true.mp (natText_all n) '-' (by rw [h]; exact List.mem_cons_self ..)
  exact absurd this (by decide)

/-- What a natural number is written as is a number literal. -/
theorem isNumber_natText (n : Nat) : isNumber (natText n) := by
  have h := isUnsigned_natText n
  rcases hn : natText n with _ | ⟨c, cs⟩
  · exact absurd hn Nat.toDigits_ne_nil
  · by_cases hc : c = '-'
    · subst hc
      exact absurd hn natText_ne_minus
    · rw [hn] at h
      rw [isNumber]
      · exact h
      · rintro cs' h'
        exact hc (List.cons.inj h').1

theorem natText_numberChars (n : Nat) : (natText n).all isNumberChar := by
  rw [List.all_eq_true]
  intro c hc
  simp [isNumberChar, List.all_eq_true.mp (natText_all n) c hc]

/-- The number that an integer is written as. -/
def ofInt (z : Int) : Number where
  text := intText z
  ok := by
    rcases z with n | n
    · exact ⟨natText_numberChars n, isNumber_natText n⟩
    · refine ⟨?_, isUnsigned_natText (n + 1)⟩
      rw [intText, List.all_cons, natText_numberChars]
      rfl

/-- A natural number that has been written is read back as what it was. -/
theorem readNat_natText (n : Nat) : readNat (natText n) = some n := by
  rw [readNat, if_pos (isDigits_natText n), natText, Nat.ofDigitChars_ten_toDigits]

/-- An integer that has been written as a number is read back as what it was. -/
@[simp] theorem toInt?_ofInt (z : Int) : (ofInt z).toInt? = some z := by
  rcases z with n | n
  · have h : (ofInt (.ofNat n)).text = natText n := rfl
    rw [toInt?, h]
    rcases hn : natText n with _ | ⟨c, cs⟩
    · exact absurd hn Nat.toDigits_ne_nil
    · have hc : c ≠ '-' := by
        rintro rfl
        exact natText_ne_minus hn
      have hr := readNat_natText n
      rw [hn] at hr
      split
      · next h' => exact absurd (List.cons.inj h').1 hc
      · rw [hr]
        rfl
  · have h : (ofInt (.negSucc n)).text = '-' :: natText (n + 1) := rfl
    rw [toInt?, h]
    simp only [readNat_natText, Option.bind_some]
    rfl

end Number

/-! ## Values -/

/-- A JSON value; objects keep the order of their members, and repeated keys. -/
inductive Value where
  /-- `null` -/
  | null
  /-- `true` and `false` -/
  | bool (b : Bool)
  /-- a number -/
  | num (x : Number)
  /-- a string -/
  | str (s : String)
  /-- an array -/
  | arr (items : List Value)
  /-- an object -/
  | obj (members : List (String × Value))

/-- An integer as a JSON value. -/
def Value.int (z : Int) : Value := .num (.ofInt z)

/-! ## The writer -/

/-- A lowercase hexadecimal digit, as escapes are written with. -/
def hexDigit (n : Nat) : Char := Nat.digitChar n

/-- A character as it is written inside a string, escaped where it must be. -/
def escape (c : Char) : List Char :=
  if c = '"' then ['\\', '"']
  else if c = '\\' then ['\\', '\\']
  else if c = Char.ofNat 0x08 then ['\\', 'b']
  else if c = '\t' then ['\\', 't']
  else if c = '\n' then ['\\', 'n']
  else if c = Char.ofNat 0x0c then ['\\', 'f']
  else if c = '\r' then ['\\', 'r']
  else if c.toNat < 0x20 then
    ['\\', 'u', '0', '0', hexDigit (c.toNat / 16), hexDigit (c.toNat % 16)]
  else [c]

/-- A string with its quotes, its characters escaped where they must be. -/
def quote (s : String) : List Char := '"' :: (s.toList.flatMap escape ++ ['"'])

mutual

/-- The compact text of a value, as the library writes it. -/
def render : Value → List Char
  | .null => ['n', 'u', 'l', 'l']
  | .bool true => ['t', 'r', 'u', 'e']
  | .bool false => ['f', 'a', 'l', 's', 'e']
  | .num x => x.text
  | .str s => quote s
  | .arr vs => '[' :: renderItems vs
  | .obj ms => '{' :: renderMembers ms

/-- The texts of items, separated by commas, with the closing bracket. -/
def renderItems : List Value → List Char
  | [] => [']']
  | [v] => render v ++ [']']
  | v :: w :: vs => render v ++ ',' :: renderItems (w :: vs)

/-- The texts of members, separated by commas, with the closing brace. -/
def renderMembers : List (String × Value) → List Char
  | [] => ['}']
  | [(k, v)] => quote k ++ ':' :: (render v ++ ['}'])
  | (k, v) :: m :: ms => quote k ++ ':' :: (render v ++ ',' :: renderMembers (m :: ms))

end

end Json
