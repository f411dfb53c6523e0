import Oxana.Json.Value
import Mathlib.Logic.Function.Basic

/-!
# Reading JSON

The reader is a recursive descent with a fuel argument, on texts that are
lists of characters; the length of the text is always enough fuel. Of the
members of an object it keeps not only key and value but the **text they were
read from**, for clients that want the raw bytes of a member and where they
stand.

The grammar is `Derives`, one relation for values, item lists and member
lists. Reading is exactly deriving (`value_sound`, `Derives.complete`), and
the reader never looks past the text it consumes, except to see that a number
has ended. That a written value reads back (`parse_render`) follows, because
what is written is derived.
-/

namespace Json

/-- White space between tokens: blanks, tabs and the two characters that end lines. -/
def isWs (c : Char) : Bool := c == ' ' || c == '\t' || c == '\n' || c == '\r'

/-- The text behind the white space at its beginning. -/
def skipWs (cs : List Char) : List Char := cs.dropWhile isWs

/-! ## Strings -/

/-- The value of a hexadecimal digit, in either case. -/
def hexVal (c : Char) : Option Nat :=
  if '0' ≤ c ∧ c ≤ '9' then some (c.toNat - '0'.toNat)
  else if 'a' ≤ c ∧ c ≤ 'f' then some (c.toNat - 'a'.toNat + 10)
  else if 'A' ≤ c ∧ c ≤ 'F' then some (c.toNat - 'A'.toNat + 10)
  else none

/-- The number that four hexadecimal digits denote, as in an escape. -/
def hex4 (a b c d : Char) : Option Nat := do
  let a ← hexVal a
  let b ← hexVal b
  let c ← hexVal c
  let d ← hexVal d
  pure (((a * 16 + b) * 16 + c) * 16 + d)

/-- The first half of a surrogate pair, which must be followed by a second one. -/
def isHigh (u : Nat) : Bool := 0xD800 ≤ u && u ≤ 0xDBFF

/-- The second half of a surrogate pair, which must follow a first one. -/
def isLow (u : Nat) : Bool := 0xDC00 ≤ u && u ≤ 0xDFFF

/-- The character that a surrogate pair stands for. -/
def joinPair (hi lo : Nat) : Char := Char.ofNat (0x10000 + (hi - 0xD800) * 0x400 + (lo - 0xDC00))

/-- The character that a one-letter escape stands for, if it is one. -/
def unescape (c : Char) : Option Char :=
  if c = '"' ∨ c = '\\' ∨ c = '/' then some c
  else if c = 'b' then some (Char.ofNat 0x08)
  else if c = 't' then some '\t'
  else if c = 'n' then some '\n'
  else if c = 'f' then some (Char.ofNat 0x0c)
  else if c = 'r' then some '\r'
  else none

/-- The inside of a string up to its closing quote. `hi` is the first half of
a surrogate pair whose second half has to follow at once. -/
def body (hi : Option Nat) : List Char → Option (List Char × List Char)
  | [] => none
  | c :: cs =>
    if c = '"' then if hi.isNone then some ([], cs) else none
    else if c = '\\' then
      match cs with
      | 'u' :: a :: b :: x :: y :: cs =>
        match hex4 a b x y, hi with
        | none, _ => none
        | some u, none =>
          if isHigh u then body (some u) cs
          else if isLow u then none
          else (body none cs).map fun p => (Char.ofNat u :: p.1, p.2)
        | some u, some h =>
          if isLow u then (body none cs).map fun p => (joinPair h u :: p.1, p.2) else none
      | e :: cs =>
        match unescape e, hi with
        | some c, none => (body none cs).map fun p => (c :: p.1, p.2)
        | _, _ => none
      | [] => none
    else if c.toNat < 0x20 ∨ hi.isSome then none
    else (body none cs).map fun p => (c :: p.1, p.2)

/-- The inside of a string: no bare quote, and no backslash without the
character it escapes. -/
inductive Inside : List Char → Prop where
  | nil : Inside []
  | plain {c : Char} {t : List Char} : c ≠ '"' → c ≠ '\\' → Inside t → Inside (c :: t)
  | escaped {c : Char} {t : List Char} : Inside t → Inside ('\\' :: c :: t)

/-- `t` is the inside of a string that says `s`. -/
structure Chars (s t : List Char) : Prop where
  /-- it reads as `s`, whatever follows the closing quote -/
  reads : ∀ r, body none (t ++ '"' :: r) = some (s, r)
  /-- it has no bare quote -/
  inside : Inside t

theorem hexVal_plain {c : Char} {n : Nat} (h : hexVal c = some n) : c ≠ '"' ∧ c ≠ '\\' := by
  constructor
  · rintro rfl
    cases h
  · rintro rfl
    cases h

theorem hex4_plain {a b x y : Char} {u : Nat} (h : hex4 a b x y = some u) {t : List Char}
    (ht : Inside t) : Inside (a :: b :: x :: y :: t) := by
  simp only [hex4, Option.bind_eq_bind, Option.bind_eq_some_iff] at h
  obtain ⟨_, ha, _, hb, _, hx, _, hy, -⟩ := h
  exact .plain (hexVal_plain ha).1 (hexVal_plain ha).2 <|
    .plain (hexVal_plain hb).1 (hexVal_plain hb).2 <|
    .plain (hexVal_plain hx).1 (hexVal_plain hx).2 <|
    .plain (hexVal_plain hy).1 (hexVal_plain hy).2 ht

/-- An escape of one letter is read as the character it stands for. -/
theorem body_escaped {e c : Char} (h : unescape e = some c) (cs : List Char) :
    body none ('\\' :: e :: cs) = (body none cs).map fun p => (c :: p.1, p.2) := by
  have hu : e ≠ 'u' := by
    rintro rfl
    cases h
  rw [body.eq_def]
  simp [h, hu]

/-- A character that is neither a quote nor a backslash nor a control character is read as itself.
-/
theorem body_plain {c : Char} (hq : c ≠ '"') (hb : c ≠ '\\') (hlt : ¬ c.toNat < 0x20)
    (cs : List Char) : body none (c :: cs) = (body none cs).map fun p => (c :: p.1, p.2) := by
  rw [body.eq_def]
  simp [hq, hb, hlt]

theorem body_quote (cs : List Char) : body none ('"' :: cs) = some ([], cs) := by
  rw [body.eq_def]
  simp

/-- What a string reader has consumed it would consume again, whatever comes after it, and with the
same result. -/
theorem body_sound {hi : Option Nat} {cs s r : List Char} (h : body hi cs = some (s, r)) :
    ∃ t, cs = t ++ '"' :: r ∧ Inside t ∧ ∀ r', body hi (t ++ '"' :: r') = some (s, r') := by
  fun_induction body hi cs generalizing s with
  | case2 hi cs hhi =>
    cases h
    rw [Option.isNone_iff_eq_none] at hhi
    subst hhi
    exact ⟨[], rfl, .nil, body_quote⟩
  | case5 a b x y cs u hu hhigh _ ih =>
    obtain ⟨t, rfl, ht, hr⟩ := ih h
    exact ⟨'\\' :: 'u' :: a :: b :: x :: y :: t, rfl, .escaped (hex4_plain hu ht),
      fun r' => by simpa [body, hu, hhigh] using hr r'⟩
  | case7 a b x y cs u hu hhigh hlow _ ih =>
    obtain ⟨⟨s', r''⟩, hb, he⟩ := Option.map_eq_some_iff.mp h
    cases he
    obtain ⟨t, rfl, ht, hr⟩ := ih hb
    exact ⟨'\\' :: 'u' :: a :: b :: x :: y :: t, rfl, .escaped (hex4_plain hu ht),
      fun r' => by simp [body, hu, hhigh, hlow, hr r']⟩
  | case8 a b x y cs u hhi hu hlow _ ih =>
    obtain ⟨⟨s', r''⟩, hb, he⟩ := Option.map_eq_some_iff.mp h
    cases he
    obtain ⟨t, rfl, ht, hr⟩ := ih hb
    exact ⟨'\\' :: 'u' :: a :: b :: x :: y :: t, rfl, .escaped (hex4_plain hu ht),
      fun r' => by simp [body, hu, hlow, hr r']⟩
  | case10 e cs hne c hc _ ih =>
    obtain ⟨⟨s', r''⟩, hb, he⟩ := Option.map_eq_some_iff.mp h
    cases he
    obtain ⟨t, rfl, ht, hr⟩ := ih hb
    refine ⟨'\\' :: e :: t, rfl, .escaped ht, fun r' => ?_⟩
    rw [List.cons_append, List.cons_append, body_escaped hc, hr r']
    rfl
  | case14 hi c cs hq hb hlt ih =>
    obtain ⟨⟨s', r''⟩, hb', he⟩ := Option.map_eq_some_iff.mp h
    cases he
    obtain ⟨t, rfl, ht, hr⟩ := ih hb'
    obtain ⟨hlt', hhi⟩ := not_or.mp hlt
    obtain rfl : hi = none := by simpa using hhi
    refine ⟨c :: t, rfl, .plain hq hb ht, fun r' => ?_⟩
    rw [List.cons_append, body_plain hq hb hlt', hr r']
    rfl
  | _ => cases h

/-- A string that is read from a text was written there, and the rest of the text follows its
closing quote. -/
theorem chars_of_body {cs s r : List Char} (h : body none cs = some (s, r)) :
    ∃ t, cs = t ++ '"' :: r ∧ Chars s t := by
  obtain ⟨t, ht, hin, hr⟩ := body_sound h
  exact ⟨t, ht, hr, hin⟩

/-- Reading a character as the writer escapes it gives it back. -/
theorem body_escape (c : Char) (cs : List Char) :
    body none (escape c ++ cs) = (body none cs).map fun p => (c :: p.1, p.2) := by
  simp only [escape]
  split_ifs with h₁ h₂ h₃ h₄ h₅ h₆ h₇ h₈
  · subst h₁
    exact body_escaped rfl cs
  · subst h₂
    exact body_escaped rfl cs
  · subst h₃
    exact body_escaped rfl cs
  · subst h₄
    exact body_escaped rfl cs
  · subst h₅
    exact body_escaped rfl cs
  · subst h₆
    exact body_escaped rfl cs
  · subst h₇
    exact body_escaped rfl cs
  · have hex : ∀ n < 0x20, hex4 '0' '0' (hexDigit (n / 16)) (hexDigit (n % 16)) = some n := by
      decide
    have hhigh : ∀ n < 0x20, isHigh n = false ∧ isLow n = false := by decide
    obtain ⟨hi, lo⟩ := hhigh _ h₈
    rw [body.eq_def]
    simp [hex _ h₈, hi, lo]
  · exact body_plain h₁ h₂ h₈ cs

theorem inside_escape (c : Char) {t : List Char} (ht : Inside t) : Inside (escape c ++ t) := by
  simp only [escape]
  split_ifs with h₁ h₂ h₃ h₄ h₅ h₆ h₇ h₈
  · exact .escaped ht
  · exact .escaped ht
  · exact .escaped ht
  · exact .escaped ht
  · exact .escaped ht
  · exact .escaped ht
  · exact .escaped ht
  · have hex : ∀ n < 0x20, hex4 '0' '0' (hexDigit (n / 16)) (hexDigit (n % 16)) = some n := by
      decide
    exact .escaped (hex4_plain (hex _ h₈) ht)
  · exact .plain h₁ h₂ ht

/-- What the writer puts between quotes says what it was given. -/
theorem chars_escape (s : List Char) : Chars s (s.flatMap escape) := by
  induction s with
  | nil => exact ⟨body_quote, .nil⟩
  | cons c s ih =>
    refine ⟨fun r => ?_, ?_⟩
    · rw [List.flatMap_cons, List.append_assoc, body_escape, ih.reads]
      rfl
    · rw [List.flatMap_cons]
      exact inside_escape c ih.inside

/-! ## Values -/

/-- A member of an object as it was read: `lead` is everything from the brace
or comma before it up to its value, `trail` the white space after it. -/
structure Field where
  /-- the text before the value: key, colon and white space -/
  lead : List Char
  /-- the key -/
  key : String
  /-- the text of the value -/
  raw : List Char
  /-- the value -/
  value : Value
  /-- the white space after the value -/
  trail : List Char

/-- What a member says: its key and its value. -/
def Field.member (f : Field) : String × Value := (f.key, f.value)

/-- The text of a member, with the white space around its value. -/
def Field.text (f : Field) : List Char := f.lead ++ (f.raw ++ f.trail)

/-- The part of a text before its suffix `r`. -/
def upto (cs r : List Char) : List Char := cs.take (cs.length - r.length)

/-- A literal word at the head of the text, such as `null`. -/
def word (w : List Char) (v : Value) (cs : List Char) : Option (Value × List Char) :=
  if w <+: cs then some (v, cs.drop w.length) else none

/-- A number: all characters that can belong to one have to make one. -/
def number (cs : List Char) : Option (Value × List Char) :=
  if h : isNumber (cs.takeWhile isNumberChar) then
    some (.num ⟨cs.takeWhile isNumberChar, List.all_takeWhile, h⟩, cs.dropWhile isNumberChar)
  else none

/-- A key with its colon: the key, the text up to the value, and the rest. -/
def key (cs : List Char) : Option (String × List Char × List Char) :=
  match skipWs cs with
  | '"' :: t =>
    match body none t with
    | some (k, r) =>
      match skipWs r with
      | ':' :: r => some (String.ofList k, upto cs (skipWs r), skipWs r)
      | _ => none
    | none => none
  | _ => none

mutual

/-- A value at the head of the text, and the text behind it; the fuel bounds the nesting. -/
def value : Nat → List Char → Option (Value × List Char)
  | 0, _ => none
  | n + 1, cs =>
    match cs with
    | '"' :: cs => (body none cs).map fun p => (.str (String.ofList p.1), p.2)
    | '[' :: cs =>
      match skipWs cs with
      | ']' :: r => some (.arr [], r)
      | _ => (items n cs).map fun p => (.arr p.1, p.2)
    | '{' :: cs =>
      match skipWs cs with
      | '}' :: r => some (.obj [], r)
      | _ => (fields n cs).map fun p => (.obj (p.1.map Field.member), p.2)
    | 'n' :: cs => word ['u', 'l', 'l'] .null cs
    | 't' :: cs => word ['r', 'u', 'e'] (.bool true) cs
    | 'f' :: cs => word ['a', 'l', 's', 'e'] (.bool false) cs
    | cs => number cs

/-- One or more items, up to the closing bracket, and the text behind it. -/
def items : Nat → List Char → Option (List Value × List Char)
  | 0, _ => none
  | n + 1, cs =>
    match value n (skipWs cs) with
    | some (v, r) =>
      match skipWs r with
      | ']' :: r => some ([v], r)
      | ',' :: r => (items n r).map fun p => (v :: p.1, p.2)
      | _ => none
    | none => none

/-- One or more members, up to the closing brace, and the text behind it. -/
def fields : Nat → List Char → Option (List Field × List Char)
  | 0, _ => none
  | n + 1, cs =>
    match key cs with
    | some (k, lead, r) =>
      match value n r with
      | some (v, r') =>
        let f : Field := ⟨lead, k, upto r r', v, upto r' (skipWs r')⟩
        match skipWs r' with
        | '}' :: r => some ([f], r)
        | ',' :: r => (fields n r).map fun p => (f :: p.1, p.2)
        | _ => none
      | none => none
    | none => none

end

/-! ## The grammar -/

/-- The text is white space only. -/
def Ws (w : List Char) : Prop := ∀ c ∈ w, isWs c = true

/-- A key, its colon and the white space around them: what stands in front of the value of a member.
-/
def Lead (k : String) (lead : List Char) : Prop :=
  ∃ w₁ t w₂ w₃, Ws w₁ ∧ Chars k.toList t ∧ Ws w₂ ∧ Ws w₃ ∧
    lead = w₁ ++ '"' :: (t ++ '"' :: (w₂ ++ ':' :: w₃))

/-- What a text can be derived as: a value, the items of an array, or the members of an object. -/
inductive Cat where
  /-- a value -/
  | value (v : Value)
  /-- items up to the closing bracket -/
  | items (vs : List Value)
  /-- members up to the closing brace -/
  | fields (fs : List Field)

/-- The grammar of JSON texts, with one rule for each way to write something. -/
inductive Derives : Cat → List Char → Prop where
  | null : Derives (.value .null) ['n', 'u', 'l', 'l']
  | true : Derives (.value (.bool true)) ['t', 'r', 'u', 'e']
  | false : Derives (.value (.bool false)) ['f', 'a', 'l', 's', 'e']
  | num (x : Number) : Derives (.value (.num x)) x.text
  | str {s : String} {t : List Char} :
      Chars s.toList t → Derives (.value (.str s)) ('"' :: (t ++ ['"']))
  | arrNil {w : List Char} : Ws w → Derives (.value (.arr [])) ('[' :: (w ++ [']']))
  | arr {vs : List Value} {t : List Char} :
      Derives (.items vs) t → Derives (.value (.arr vs)) ('[' :: t)
  | objNil {w : List Char} : Ws w → Derives (.value (.obj [])) ('{' :: (w ++ ['}']))
  | obj {fs : List Field} {t : List Char} :
      Derives (.fields fs) t → Derives (.value (.obj (fs.map Field.member))) ('{' :: t)
  | lastItem {v : Value} {w t w' : List Char} :
      Ws w → Derives (.value v) t → Ws w' → Derives (.items [v]) (w ++ (t ++ (w' ++ [']'])))
  | item {v : Value} {vs : List Value} {w t w' t' : List Char} :
      Ws w → Derives (.value v) t → Ws w' → Derives (.items vs) t' →
      Derives (.items (v :: vs)) (w ++ (t ++ (w' ++ ',' :: t')))
  | lastField {f : Field} :
      Lead f.key f.lead → Derives (.value f.value) f.raw → Ws f.trail →
      Derives (.fields [f]) (f.text ++ ['}'])
  | field {f : Field} {fs : List Field} {t : List Char} :
      Lead f.key f.lead → Derives (.value f.value) f.raw → Ws f.trail → Derives (.fields fs) t →
      Derives (.fields (f :: fs)) (f.text ++ ',' :: t)

theorem ws_nil : Ws [] := fun _ h => absurd h List.not_mem_nil

/-- What is skipped is white space, and what is left does not begin with any. -/
theorem skipWs_split (cs : List Char) : ∃ w, Ws w ∧ cs = w ++ skipWs cs :=
  ⟨cs.takeWhile isWs, fun _ h => List.mem_takeWhile_imp h, List.takeWhile_append_dropWhile.symm⟩

/-- White space is skipped up to the first character that is none. -/
theorem skipWs_append {w : List Char} (hw : Ws w) {c : Char} {r : List Char}
    (hc : isWs c = false) : skipWs (w ++ c :: r) = c :: r := by
  rw [skipWs, List.dropWhile_append, List.dropWhile_eq_nil_iff.mpr hw]
  simp [hc]

@[simp] theorem upto_append (t r : List Char) : upto (t ++ r) r = t := by
  simp [upto]

/-- A character that a value can begin with: no white space and no closing bracket. -/
def startsValue (c : Char) : Prop := isWs c = false ∧ c ≠ ']' ∧ c ≠ '}'

theorem startsValue_of_numberChar {c : Char} (h : isNumberChar c) : startsValue c := by
  refine ⟨?_, ?_, ?_⟩
  · by_contra hw
    simp only [Bool.not_eq_false, isWs, Bool.or_eq_true, beq_iff_eq] at hw
    rcases hw with ((rfl | rfl) | rfl) | rfl <;> exact absurd h (by decide)
  · rintro rfl
    exact absurd h (by decide)
  · rintro rfl
    exact absurd h (by decide)

/-- A number literal begins with one of its characters. -/
theorem Number.head (x : Number) : ∃ c t, x.text = c :: t ∧ isNumberChar c := by
  rcases h : x.text with _ | ⟨c, t⟩
  · have := x.ok.2
    rw [h] at this
    exact absurd this (by decide)
  · have := x.ok.1
    rw [h, List.all_cons, Bool.and_eq_true] at this
    exact ⟨c, t, rfl, this.1⟩

theorem Derives.head {v : Value} {t : List Char} (h : Derives (.value v) t) :
    ∃ c t', t = c :: t' ∧ startsValue c := by
  cases h with
  | num x =>
    obtain ⟨c, t', hx, hc⟩ := x.head
    exact ⟨c, t', hx, startsValue_of_numberChar hc⟩
  | _ => exact ⟨_, _, rfl, by decide, by decide, by decide⟩

/-! ### Reading is sound -/

/-- A word that is read was there, and stands for its own value. -/
theorem word_sound {w cs r : List Char} {v v' : Value} (h : word w v cs = some (v', r)) :
    v' = v ∧ cs = w ++ r := by
  simp only [word] at h
  split at h
  · next hw =>
    obtain ⟨t, rfl⟩ := hw
    simp only [List.drop_left, Option.some.injEq, Prod.mk.injEq] at h
    exact ⟨h.1.symm, by rw [h.2]⟩
  · cases h

/-- A number that is read was there, and its text is derived as its value. -/
theorem number_sound {cs r : List Char} {v : Value} (h : number cs = some (v, r)) :
    ∃ t, cs = t ++ r ∧ Derives (.value v) t := by
  simp only [number] at h
  split at h
  · cases h
    exact ⟨_, List.takeWhile_append_dropWhile.symm, .num _⟩
  · cases h

/-- A key that is read was there, with its colon and the white space around it. -/
theorem key_sound {cs lead r : List Char} {k : String} (h : key cs = some (k, lead, r)) :
    cs = lead ++ r ∧ Lead k lead := by
  simp only [key] at h
  split at h
  · next t ht =>
    split at h
    · next k' r₁ hb =>
      split at h
      · next r₂ hr =>
        obtain ⟨w₁, hw₁, h₁⟩ := skipWs_split cs
        obtain ⟨t', rfl, hchars⟩ := chars_of_body hb
        obtain ⟨w₂, hw₂, h₂⟩ := skipWs_split r₁
        obtain ⟨w₃, hw₃, h₃⟩ := skipWs_split r₂
        simp only [Option.some.injEq, Prod.mk.injEq] at h
        obtain ⟨rfl, rfl, rfl⟩ := h
        have hcs : cs = (w₁ ++ '"' :: (t' ++ '"' :: (w₂ ++ ':' :: w₃))) ++ skipWs r₂ := by
          rw [ht, h₂, hr, h₃] at h₁
          rw [h₁]
          simp
        have hup : upto cs (skipWs r₂) = w₁ ++ '"' :: (t' ++ '"' :: (w₂ ++ ':' :: w₃)) := by
          rw [hcs, upto_append]
        rw [hup]
        exact ⟨hcs, w₁, t', w₂, w₃, hw₁, by simpa using hchars, hw₂, hw₃, rfl⟩
      · cases h
    · cases h
  · cases h

/-- **Soundness**: what is read is derived, for values, item lists and member lists at once. -/
theorem read_sound (n : Nat) :
    (∀ cs v r, value n cs = some (v, r) → ∃ t, cs = t ++ r ∧ Derives (.value v) t) ∧
    (∀ cs vs r, items n cs = some (vs, r) → ∃ t, cs = t ++ r ∧ Derives (.items vs) t) ∧
    (∀ cs fs r, fields n cs = some (fs, r) → ∃ t, cs = t ++ r ∧ Derives (.fields fs) t) := by
  induction n with
  | zero =>
    refine ⟨?_, ?_, ?_⟩
    · intro cs v r h
      cases h
    · intro cs vs r h
      cases h
    · intro cs fs r h
      cases h
  | succ n ih =>
    obtain ⟨ihv, ihi, ihf⟩ := ih
    refine ⟨?_, ?_, ?_⟩
    · intro cs v r h
      simp only [value] at h
      split at h
      · obtain ⟨⟨s, r'⟩, hb, he⟩ := Option.map_eq_some_iff.mp h
        cases he
        obtain ⟨t, rfl, ht⟩ := chars_of_body hb
        exact ⟨'"' :: (t ++ ['"']), by simp, .str (by simpa using ht)⟩
      · next cs =>
        obtain ⟨w, hw, hcs⟩ := skipWs_split cs
        split at h
        · next r' hr =>
          cases h
          rw [hr] at hcs
          exact ⟨'[' :: (w ++ [']']), by simp [hcs], .arrNil hw⟩
        · obtain ⟨⟨vs, r'⟩, hi, he⟩ := Option.map_eq_some_iff.mp h
          cases he
          obtain ⟨t, rfl, ht⟩ := ihi _ _ _ hi
          exact ⟨'[' :: t, rfl, .arr ht⟩
      · next cs =>
        obtain ⟨w, hw, hcs⟩ := skipWs_split cs
        split at h
        · next r' hr =>
          cases h
          rw [hr] at hcs
          exact ⟨'{' :: (w ++ ['}']), by simp [hcs], .objNil hw⟩
        · obtain ⟨⟨fs, r'⟩, hf, he⟩ := Option.map_eq_some_iff.mp h
          cases he
          obtain ⟨t, rfl, ht⟩ := ihf _ _ _ hf
          exact ⟨'{' :: t, rfl, .obj ht⟩
      · obtain ⟨rfl, rfl⟩ := word_sound h
        exact ⟨_, rfl, .null⟩
      · obtain ⟨rfl, rfl⟩ := word_sound h
        exact ⟨_, rfl, .true⟩
      · obtain ⟨rfl, rfl⟩ := word_sound h
        exact ⟨_, rfl, .false⟩
      · exact number_sound h
    · intro cs vs r h
      simp only [items] at h
      split at h
      · next v r₁ hv =>
        obtain ⟨w, hw, hcs⟩ := skipWs_split cs
        obtain ⟨t, ht, hd⟩ := ihv _ _ _ hv
        obtain ⟨w', hw', hr₁⟩ := skipWs_split r₁
        rw [ht] at hcs
        split at h
        · next r₂ hr =>
          cases h
          rw [hr] at hr₁
          exact ⟨_, by simp [hcs, hr₁], .lastItem hw hd hw'⟩
        · next r₂ hr =>
          obtain ⟨⟨vs', r₃⟩, hi, he⟩ := Option.map_eq_some_iff.mp h
          cases he
          obtain ⟨t', rfl, ht'⟩ := ihi _ _ _ hi
          rw [hr] at hr₁
          exact ⟨_, by simp [hcs, hr₁], .item hw hd hw' ht'⟩
        · cases h
      · cases h
    · intro cs fs r h
      rw [fields] at h
      simp only at h
      split at h
      · next k lead r₀ hk =>
        obtain ⟨rfl, hlead⟩ := key_sound hk
        split at h
        · next v r₁ hv =>
          obtain ⟨t, rfl, hd⟩ := ihv _ _ _ hv
          obtain ⟨w, hw, hr₁⟩ := skipWs_split r₁
          have htrail : upto r₁ (skipWs r₁) = w := by
            nth_rewrite 1 [hr₁]
            exact upto_append ..
          simp only [upto_append, htrail] at h
          split at h
          · next r₂ hr =>
            cases h
            rw [hr] at hr₁
            exact ⟨_, by simp [hr₁, Field.text], .lastField hlead hd hw⟩
          · next r₂ hr =>
            obtain ⟨⟨fs', r₃⟩, hf, he⟩ := Option.map_eq_some_iff.mp h
            cases he
            obtain ⟨t', rfl, ht'⟩ := ihf _ _ _ hf
            rw [hr] at hr₁
            exact ⟨_, by simp [hr₁, Field.text], .field hlead hd hw ht'⟩
          · cases h
        · cases h
      · cases h

/-! ### Reading is complete -/

/-- The text after a value does not continue a number. -/
def Ends (r : List Char) : Prop := ∀ c ∈ r.head?, isNumberChar c = false

theorem ends_cons {c : Char} {r : List Char} (h : isNumberChar c = false) : Ends (c :: r) := by
  intro c' hc
  cases hc
  exact h

theorem isNumberChar_ws {c : Char} (h : isWs c = true) : isNumberChar c = false := by
  simp only [isWs, Bool.or_eq_true, beq_iff_eq] at h
  rcases h with ((rfl | rfl) | rfl) | rfl <;> decide

/-- White space ends a number, and so does what may come after it. -/
theorem Ends.ws {w r : List Char} (hw : Ws w) (hr : Ends r) : Ends (w ++ r) := by
  rcases w with _ | ⟨c, w⟩
  · exact hr
  · exact ends_cons (isNumberChar_ws (hw c (List.mem_cons_self ..)))

/-- A number is read from its text if what follows does not continue it. -/
theorem number_complete (x : Number) {r : List Char} (hr : Ends r) :
    number (x.text ++ r) = some (.num x, r) := by
  have hall : ∀ c ∈ x.text, isNumberChar c = true := List.all_eq_true.mp x.ok.1
  have hr' : r.takeWhile isNumberChar = [] ∧ r.dropWhile isNumberChar = r := by
    rcases r with _ | ⟨c, r⟩
    · exact ⟨rfl, rfl⟩
    · have := hr c rfl
      simp [this]
  have htake : (x.text ++ r).takeWhile isNumberChar = x.text := by
    rw [List.takeWhile_append_of_pos hall, hr'.1, List.append_nil]
  have hdrop : (x.text ++ r).dropWhile isNumberChar = r := by
    rw [List.dropWhile_append_of_pos hall, hr'.2]
  simp only [number]
  rw [dif_pos (by rw [htake]; exact x.ok.2), hdrop]
  congr 4

/-- A key is read from its text, with its colon and the white space around it, if a character
follows that is no white space. -/
theorem key_complete {k : String} {lead : List Char} (h : Lead k lead) {c : Char} {r : List Char}
    (hc : isWs c = false) : key (lead ++ c :: r) = some (k, lead, c :: r) := by
  obtain ⟨w₁, t, w₂, w₃, hw₁, ht, hw₂, hw₃, rfl⟩ := h
  have e : (w₁ ++ '"' :: (t ++ '"' :: (w₂ ++ ':' :: w₃))) ++ c :: r =
      w₁ ++ '"' :: (t ++ '"' :: (w₂ ++ ':' :: (w₃ ++ c :: r))) := by simp
  simp only [key]
  rw [e, skipWs_append hw₁ (by decide)]
  simp only [ht.reads]
  rw [skipWs_append hw₂ (by decide)]
  simp only [skipWs_append hw₃ hc]
  rw [← e, upto_append]
  simp

/-- Reading as a given category with some fuel, leaving the text `r`. -/
def Reads : Cat → Nat → List Char → List Char → Prop
  | .value v, n, cs, r => value n cs = some (v, r)
  | .items vs, n, cs, r => items n cs = some (vs, r)
  | .fields fs, n, cs, r => fields n cs = some (fs, r)

theorem value_word {w : List Char} {v : Value} (r : List Char) :
    word w v (w ++ r) = some (v, r) := by
  simp [word]

/-- The text of an item list begins with an item, never with the closing bracket. -/
theorem items_start {vs : List Value} {t : List Char} (h : Derives (.items vs) t) (r : List Char) :
    ∃ c t', skipWs (t ++ r) = c :: t' ∧ c ≠ ']' := by
  cases h with
  | lastItem hw hv _ =>
    obtain ⟨c, t', rfl, hc⟩ := hv.head
    exact ⟨c, _, by rw [List.append_assoc, List.append_assoc]; exact skipWs_append hw hc.1, hc.2.1⟩
  | item hw hv _ _ =>
    obtain ⟨c, t', rfl, hc⟩ := hv.head
    exact ⟨c, _, by rw [List.append_assoc, List.append_assoc]; exact skipWs_append hw hc.1, hc.2.1⟩

/-- The text of a member begins with the quote of its key. -/
theorem lead_start {k : String} {lead : List Char} (h : Lead k lead) (u : List Char) :
    ∃ t, skipWs (lead ++ u) = '"' :: t := by
  obtain ⟨w₁, t, w₂, w₃, hw₁, -, -, -, rfl⟩ := h
  rw [List.append_assoc, List.cons_append]
  exact ⟨_, skipWs_append hw₁ (by decide)⟩

/-- The text of a member list begins with the quote of its first key. -/
theorem fields_start {fs : List Field} {t : List Char} (h : Derives (.fields fs) t)
    (r : List Char) : ∃ t', skipWs (t ++ r) = '"' :: t' := by
  cases h with
  | lastField hl _ _ =>
    simp only [Field.text, List.append_assoc]
    exact lead_start hl _
  | field hl _ _ _ =>
    simp only [Field.text, List.append_assoc]
    exact lead_start hl _

/-- **Completeness**: what is derived is read, with its length as fuel and
whatever follows it. -/
theorem Derives.complete {c : Cat} {t : List Char} (h : Derives c t) :
    ∀ n r, t.length ≤ n → Ends r → Reads c n (t ++ r) r := by
  induction h with
  | null =>
    rintro (_ | n) r hn -
    · cases hn
    · exact value_word r
  | true =>
    rintro (_ | n) r hn -
    · cases hn
    · exact value_word r
  | false =>
    rintro (_ | n) r hn -
    · cases hn
    · exact value_word r
  | num x =>
    rintro (_ | n) r hn hr
    · obtain ⟨c, t, hx, -⟩ := x.head
      rw [hx] at hn
      cases hn
    · have hnum := number_complete x hr
      obtain ⟨c, t, hx, hc⟩ := x.head
      rw [Reads, value]
      · exact hnum
      all_goals
        rintro cs h
        rw [hx] at h
        obtain rfl := (List.cons.inj h).1
        exact absurd hc (by decide)
  | str ht =>
    rintro (_ | n) r hn -
    · cases hn
    · simp [Reads, value, ht.reads]
  | @arrNil w hw =>
    rintro (_ | n) r hn -
    · cases hn
    · have := skipWs_append hw (c := ']') (r := r) (by decide)
      simp [Reads, value, this]
  | @arr vs t ht ih =>
    rintro (_ | n) r hn hr
    · cases hn
    · have hi := ih n r (by simpa using hn) hr
      obtain ⟨c, t', hskip, hc⟩ := items_start ht r
      rw [Reads] at hi
      rw [Reads, List.cons_append, value, hskip]
      simp [hi, hc]
  | @objNil w hw =>
    rintro (_ | n) r hn -
    · cases hn
    · have := skipWs_append hw (c := '}') (r := r) (by decide)
      simp [Reads, value, this]
  | @obj fs t ht ih =>
    rintro (_ | n) r hn hr
    · cases hn
    · have hf := ih n r (by simpa using hn) hr
      obtain ⟨t', hskip⟩ := fields_start ht r
      rw [Reads] at hf
      rw [Reads, List.cons_append, value, hskip]
      simp [hf]
  | @lastItem v w t w' hw hv hw' ih =>
    rintro (_ | n) r hn hr
    · simp at hn
    · obtain ⟨c, t', rfl, hc⟩ := hv.head
      have hi := ih n (w' ++ ']' :: r) (by simp at hn ⊢; omega) (.ws hw' (ends_cons (by decide)))
      rw [Reads, List.cons_append] at hi
      rw [Reads, items, List.append_assoc, List.cons_append, List.cons_append,
        skipWs_append hw hc.1, List.append_assoc, List.append_assoc, List.singleton_append, hi]
      simp only [skipWs_append hw' (c := ']') (by decide)]
  | @item v vs w t w' t' hw hv hw' _ ihv ihi =>
    rintro (_ | n) r hn hr
    · simp at hn
    · obtain ⟨c, t₁, rfl, hc⟩ := hv.head
      have h₁ := ihv n (w' ++ ',' :: (t' ++ r)) (by simp at hn ⊢; omega)
        (.ws hw' (ends_cons (by decide)))
      have h₂ := ihi n r (by simp at hn ⊢; omega) hr
      rw [Reads, List.cons_append] at h₁
      rw [Reads] at h₂
      rw [Reads, items, List.append_assoc, List.cons_append, List.cons_append,
        skipWs_append hw hc.1, List.append_assoc, List.append_assoc, List.cons_append, h₁]
      simp only [skipWs_append hw' (c := ',') (by decide), h₂]
      rfl
  | @lastField f hl hv hw ih =>
    rintro (_ | n) r hn hr
    · simp [Field.text] at hn
    · obtain ⟨c, t, hraw, hc⟩ := hv.head
      have h₁ := ih n (f.trail ++ '}' :: r) (by simp [Field.text] at hn ⊢; omega)
        (.ws hw (ends_cons (by decide)))
      have h₂ := key_complete hl (r := t ++ (f.trail ++ '}' :: r)) hc.1
      have e : f.text ++ ['}'] ++ r = f.lead ++ c :: (t ++ (f.trail ++ '}' :: r)) := by
        simp [Field.text, hraw]
      rw [Reads, hraw, List.cons_append] at h₁
      rw [Reads, fields, e]
      simp only [h₂, h₁, skipWs_append hw (c := '}') (by decide)]
      rw [← List.cons_append, ← hraw, upto_append, upto_append]
  | @field f fs t hl hv hw ht ihv ihf =>
    rintro (_ | n) r hn hr
    · simp [Field.text] at hn
    · obtain ⟨c, t₁, hraw, hc⟩ := hv.head
      have h₁ := ihv n (f.trail ++ ',' :: (t ++ r)) (by simp [Field.text] at hn ⊢; omega)
        (.ws hw (ends_cons (by decide)))
      have h₂ := key_complete hl (r := t₁ ++ (f.trail ++ ',' :: (t ++ r))) hc.1
      have h₃ := ihf n r (by simp [Field.text] at hn ⊢; omega) hr
      have e : f.text ++ ',' :: t ++ r = f.lead ++ c :: (t₁ ++ (f.trail ++ ',' :: (t ++ r))) := by
        simp [Field.text, hraw]
      rw [Reads, hraw, List.cons_append] at h₁
      rw [Reads] at h₃
      rw [Reads, fields, e]
      simp only [h₂, h₁, skipWs_append hw (c := ',') (by decide), h₃]
      rw [← List.cons_append, ← hraw, upto_append, upto_append]
      rfl

/-! ## Whole texts -/

/-- The value a whole text stands for. The grammar is that of the standard, and nothing more: a text may
be nested as deep as it likes (`serde_json` gives up at a depth of 128, see `Shallow`), a number may
be as large as it likes, and an escape of half a surrogate pair is an error wherever it stands, in
members that nobody looks at too. -/
def parse (cs : List Char) : Option Value :=
  match value cs.length (skipWs cs) with
  | some (v, r) => if skipWs r = [] then some v else none
  | none => none

/-- The members of a text that is an object, as they were read. -/
def rootFields (cs : List Char) : Option (List Field) :=
  match skipWs cs with
  | '{' :: t =>
    match skipWs t with
    | '}' :: r => if skipWs r = [] then some [] else none
    | _ =>
      match fields t.length t with
      | some (fs, r) => if skipWs r = [] then some fs else none
      | none => none
  | _ => none

theorem ws_of_skipWs {r : List Char} (h : skipWs r = []) : Ws r :=
  List.dropWhile_eq_nil_iff.mp h

theorem skipWs_of_ws {w : List Char} (h : Ws w) : skipWs w = [] :=
  List.dropWhile_eq_nil_iff.mpr h

theorem Ws.ends {w : List Char} (h : Ws w) : Ends w := by
  have := Ends.ws h (r := []) (by rintro c hc; cases hc)
  rwa [List.append_nil] at this

/-- A text parses as a value exactly if the value is derived from it, with white space before and
behind. -/
theorem parse_iff {cs : List Char} {v : Value} :
    parse cs = some v ↔
      ∃ w t w', Ws w ∧ Derives (.value v) t ∧ Ws w' ∧ cs = w ++ (t ++ w') := by
  constructor
  · intro h
    simp only [parse] at h
    split at h
    · next v' r hv =>
      split at h
      · next hr =>
        cases h
        obtain ⟨w, hw, hcs⟩ := skipWs_split cs
        obtain ⟨t, ht, hd⟩ := (read_sound _).1 _ _ _ hv
        exact ⟨w, t, r, hw, hd, ws_of_skipWs hr, by rw [hcs, ht]⟩
      · cases h
    · cases h
  · rintro ⟨w, t, w', hw, hd, hw', rfl⟩
    obtain ⟨c, t', rfl, hc⟩ := hd.head
    have hread := hd.complete (w ++ (c :: t' ++ w')).length w' (by simp; omega) hw'.ends
    rw [Reads] at hread
    simp only [parse]
    rw [List.cons_append, skipWs_append hw hc.1, ← List.cons_append]
    simp only [hread, skipWs_of_ws hw', if_pos]

/-- A member as the writer writes it, without white space. -/
def written (m : String × Value) : Field := ⟨quote m.1 ++ [':'], m.1, render m.2, m.2, []⟩

theorem lead_written (k : String) : Lead k (quote k ++ [':']) :=
  ⟨[], _, [], [], ws_nil, chars_escape k.toList, ws_nil, ws_nil, by simp [quote]⟩

@[simp] theorem map_member_written (ms : List (String × Value)) :
    (ms.map written).map Field.member = ms := by
  simp [Function.comp_def, written, Field.member]

mutual

/-- What the writer writes for a value is derived as this value. -/
theorem derives_render : ∀ v : Value, Derives (.value v) (render v)
  | .null => .null
  | .bool true => .true
  | .bool false => .false
  | .num x => .num x
  | .str s => .str (chars_escape s.toList)
  | .arr [] => .arrNil ws_nil
  | .arr (v :: vs) => .arr (derives_items (v :: vs) (List.cons_ne_nil _ _))
  | .obj [] => .objNil ws_nil
  | .obj (m :: ms) => by
    have h := Derives.obj (derives_members (m :: ms) (List.cons_ne_nil _ _))
    rwa [map_member_written] at h

/-- What the writer writes for some items is derived as these items. -/
theorem derives_items : ∀ vs : List Value, vs ≠ [] → Derives (.items vs) (renderItems vs)
  | [], h => absurd rfl h
  | [v], _ => .lastItem ws_nil (derives_render v) ws_nil
  | v :: w :: vs, _ =>
    .item ws_nil (derives_render v) ws_nil (derives_items (w :: vs) (List.cons_ne_nil _ _))

/-- What the writer writes for some members is derived as these members. -/
theorem derives_members : ∀ ms : List (String × Value), ms ≠ [] →
    Derives (.fields (ms.map written)) (renderMembers ms)
  | [], h => absurd rfl h
  | [(k, v)], _ => by
    have h := Derives.lastField (f := written (k, v)) (lead_written k) (derives_render v) ws_nil
    simpa [written, Field.text, renderMembers] using h
  | (k, v) :: m :: ms, _ => by
    have h := Derives.field (f := written (k, v)) (lead_written k) (derives_render v) ws_nil
      (derives_members (m :: ms) (List.cons_ne_nil _ _))
    simpa [written, Field.text, renderMembers] using h

end

/-- **Round trip**: a value that has been written is read back as what it was. -/
theorem parse_render (v : Value) : parse (render v) = some v :=
  parse_iff.mpr ⟨[], render v, [], ws_nil, derives_render v, ws_nil, by simp⟩

/-- Different values are written differently. -/
theorem render_injective : Function.Injective render := fun v w h =>
  Option.some.inj ((parse_render v).symm.trans (h ▸ parse_render w))

instance : DecidableEq Value := fun v w => decidable_of_iff (render v = render w)
  render_injective.eq_iff

end Json
