import Oxana.Json.Parse

/-!
# Strings are shorter than the texts they are in

A string that a text has as a value, or as an item or a member of its value, is
shorter than the text: every character takes at least one to write, and there
are quotes.
-/

namespace Json

/-- The inside of a string is at least as long as what it says, its closing quote not counted. -/
theorem length_of_body {hi : Option Nat} {cs s r : List Char} (h : body hi cs = some (s, r)) :
    s.length + r.length < cs.length := by
  fun_induction body hi cs generalizing s with
  | case2 hi cs hhi =>
    cases h
    simp
  | case5 a b x y cs u hu hhigh _ ih =>
    have := ih h
    simp only [List.length_cons]
    omega
  | case7 a b x y cs u hu hhigh hlow _ ih =>
    obtain ⟨⟨s', r'⟩, hb, he⟩ := Option.map_eq_some_iff.mp h
    cases he
    have := ih hb
    simp only [List.length_cons] at this ⊢
    omega
  | case8 a b x y cs u hhi hu hlow _ ih =>
    obtain ⟨⟨s', r'⟩, hb, he⟩ := Option.map_eq_some_iff.mp h
    cases he
    have := ih hb
    simp only [List.length_cons] at this ⊢
    omega
  | case10 e cs hne c hc _ ih =>
    obtain ⟨⟨s', r'⟩, hb, he⟩ := Option.map_eq_some_iff.mp h
    cases he
    have := ih hb
    simp only [List.length_cons] at this ⊢
    omega
  | case14 hi c cs hq hb hlt ih =>
    obtain ⟨⟨s', r'⟩, hb', he⟩ := Option.map_eq_some_iff.mp h
    cases he
    have := ih hb'
    simp only [List.length_cons] at this ⊢
    omega
  | _ => cases h

/-- What is written between quotes is at least as long as the string it says. -/
theorem Chars.length_le {s t : List Char} (h : Chars s t) : s.length ≤ t.length := by
  have hlt := length_of_body (h.reads [])
  simp only [List.length_append, List.length_cons, List.length_nil] at hlt
  omega

/-- The strings that a category shows on its surface: itself, its items, or the keys and values of
its members. -/
def Cat.shows (s : String) : Cat → Prop
  | .value v => v = .str s ∨ (∃ vs, v = .arr vs ∧ .str s ∈ vs) ∨
      ∃ ms, v = .obj ms ∧ .str s ∈ ms.map Prod.snd
  | .items vs => .str s ∈ vs
  | .fields fs => .str s ∈ fs.map Field.value

/-- A string on the surface of a category is shorter than each text derived as it. -/
theorem Derives.length_lt {c : Cat} {t : List Char} (h : Derives c t) {s : String}
    (hs : c.shows s) : s.length < t.length := by
  induction h with
  | null => simp [Cat.shows] at hs
  | true => simp [Cat.shows] at hs
  | false => simp [Cat.shows] at hs
  | num x => simp [Cat.shows] at hs
  | @str s' t hchars =>
    obtain rfl : s' = s := by simpa [Cat.shows] using hs
    have hle := hchars.length_le
    rw [String.length_toList] at hle
    simp only [List.length_cons, List.length_append]
    omega
  | arrNil => simp [Cat.shows] at hs
  | objNil => simp [Cat.shows] at hs
  | arr _ ih =>
    have := ih (by simpa [Cat.shows] using hs)
    simp only [List.length_cons]
    omega
  | obj _ ih =>
    have := ih (by simpa [Cat.shows, Field.member, Function.comp_def] using hs)
    simp only [List.length_cons]
    omega
  | lastItem _ hv _ ih =>
    have := ih (.inl (by simpa [Cat.shows, eq_comm] using hs))
    simp only [List.length_append]
    omega
  | item _ _ _ _ ihv ihs =>
    simp only [List.length_append, List.length_cons]
    rcases List.mem_cons.mp hs with hs | hs
    · have := ihv (.inl hs.symm)
      omega
    · have := ihs hs
      omega
  | lastField _ _ _ ih =>
    have := ih (.inl (by simpa [Cat.shows, eq_comm] using hs))
    simp only [Field.text, List.length_append]
    omega
  | field _ _ _ _ ihv ihs =>
    simp only [Field.text, List.length_append, List.length_cons]
    rcases List.mem_cons.mp hs with hs | hs
    · have := ihv (.inl hs.symm)
      omega
    · have := ihs hs
      omega

/-- A string on the surface of the value that a text parses to is shorter than the text. -/
theorem length_lt_of_parse {cs : List Char} {v : Value} (h : parse cs = some v) {s : String}
    (hs : (Cat.value v).shows s) : s.length < cs.length := by
  obtain ⟨w, t, w', -, hd, -, rfl⟩ := parse_iff.mp h
  have := hd.length_lt hs
  simp only [List.length_append]
  omega

end Json
