import Oxana.Redis.Utf8

/-!
# Cutting texts at bytes

A text is cut at an offset in bytes, and an offset may lie inside of a character. The cut then
panics. Here that is a result like any other (`Stop.panicked`), and it stays visible through
every operation that cuts: also through those that look for a character and cut there without
a check.

`splitAt_append`, `splitOnce_append` and `rsplitOnce_append` say what the cuts are, in terms of
characters. `splitOnce_cases` and `rsplitOnce_cases` leave no case in which looking for an ASCII
character panics.
-/

namespace Text

open Redis

/-- How an operation on texts ends without a result. -/
inductive Stop where
  /-- there is none: `None` -/
  | absent
  /-- it panicked -/
  | panicked
  deriving DecidableEq, Repr

/-- `Option::ok_or` none: absence as an ending without a result. -/
def orAbsent {α : Type} : Option α → Except Stop α
  | some a => .ok a
  | none => .error .absent

/-- `u8::is_utf8_char_boundary`: whether a byte begins a character. -/
def beginsChar (b : UInt8) : Bool := -0x40 ≤ b.toInt8

/-- `str::is_char_boundary`: whether a text can be cut at a position. -/
def isCharBoundary (s : String) (index : ℕ) : Bool :=
  index == 0 ||
    match (bytes s)[index]? with
    | none => index == s.utf8ByteSize
    | some b => beginsChar b

/-! ## Boundaries -/

theorem forall_byte {P : UInt8 → Prop} (h : ∀ v : BitVec 8, P ⟨v⟩) (b : UInt8) : P b :=
  h b.toBitVec

theorem beginsChar_of_first : ∀ b : UInt8, b.IsUTF8FirstByte → beginsChar b = true := by
  refine forall_byte ?_
  decide +kernel

theorem beginsChar_continuation : ∀ b : UInt8, beginsChar (b &&& 0x3f ||| 0x80) = false := by
  refine forall_byte ?_
  decide +kernel

/-- Among the bytes of a character only the first one passes for the beginning of a character. -/
theorem first_of_mem_utf8EncodeChar {c : Char} {b : UInt8} (hb : b ∈ String.utf8EncodeChar c)
    (h : beginsChar b = true) : b.IsUTF8FirstByte := by
  have hfirst : ∀ {a : UInt8} {l : List UInt8}, String.utf8EncodeChar c = a :: l →
      a.IsUTF8FirstByte := by
    intro a l hc
    have := UInt8.isUTF8FirstByte_getElem_zero_utf8EncodeChar (c := c)
    simpa only [hc, List.getElem_cons_zero] using this
  have hrest : ∀ {a : UInt8}, b = a &&& 0x3f ||| 0x80 → b.IsUTF8FirstByte := by
    rintro a rfl
    rw [beginsChar_continuation] at h
    cases h
  have hsize : c.utf8Size = 1 ∨ c.utf8Size = 2 ∨ c.utf8Size = 3 ∨ c.utf8Size = 4 := by
    have := c.utf8Size_pos
    have := c.utf8Size_le_four
    omega
  rcases hsize with hs | hs | hs | hs
  · have hc := String.utf8EncodeChar_eq_singleton hs
    rw [hc, List.mem_singleton] at hb
    exact hb ▸ hfirst hc
  · have hc := String.utf8EncodeChar_eq_cons_cons hs
    rw [hc, List.mem_cons, List.mem_singleton] at hb
    rcases hb with hb | hb
    · exact hb ▸ hfirst hc
    · exact hrest hb
  · have hc := String.utf8EncodeChar_eq_cons_cons_cons hs
    rw [hc, List.mem_cons, List.mem_cons, List.mem_singleton] at hb
    rcases hb with hb | hb | hb
    · exact hb ▸ hfirst hc
    · exact hrest hb
    · exact hrest hb
  · have hc := String.utf8EncodeChar_eq_cons_cons_cons_cons hs
    rw [hc, List.mem_cons, List.mem_cons, List.mem_cons, List.mem_singleton] at hb
    rcases hb with hb | hb | hb | hb
    · exact hb ▸ hfirst hc
    · exact hrest hb
    · exact hrest hb
    · exact hrest hb

theorem bytes_eq_flatMap (s : String) : bytes s = s.toList.flatMap String.utf8EncodeChar := by
  conv_lhs => rw [← String.ofList_toList (s := s)]
  exact List.toList_data_toByteArray

/-- Among the bytes of a text only the first ones of its characters pass for the beginning of a
character. -/
theorem first_of_mem_bytes {s : String} {b : UInt8} (hb : b ∈ bytes s)
    (h : beginsChar b = true) : b.IsUTF8FirstByte := by
  rw [bytes_eq_flatMap, List.mem_flatMap] at hb
  obtain ⟨c, -, hb⟩ := hb
  exact first_of_mem_utf8EncodeChar hb h

/-- The check on one byte finds exactly the positions between characters. -/
theorem isCharBoundary_iff_isValid {s : String} {index : ℕ} :
    isCharBoundary s index = true ↔ String.Pos.Raw.IsValid s ⟨index⟩ := by
  rw [isCharBoundary, Bool.or_eq_true, beq_iff_eq]
  rcases Nat.lt_or_ge index s.utf8ByteSize with hlt | hge
  · have hsize : index < s.toByteArray.size := hlt
    have hget : (bytes s)[index]? = some s.toByteArray[index] := by
      rw [bytes, Array.getElem?_toList]
      exact Array.getElem?_eq_getElem hsize
    rw [hget, String.Pos.Raw.isValid_iff_isUTF8FirstByte]
    constructor
    · rintro (rfl | h)
      · exact .inr ⟨hlt, s.isValidUTF8.isUTF8FirstByte_getElem_zero hlt⟩
      · exact .inr ⟨hlt, first_of_mem_bytes (List.mem_of_getElem? hget) h⟩
    · rintro (h | ⟨_, h⟩)
      · have := congrArg String.Pos.Raw.byteIdx h
        simp only [String.byteIdx_rawEndPos] at this
        omega
      · exact .inr (beginsChar_of_first _ h)
  · have hget : (bytes s)[index]? = none :=
      List.getElem?_eq_none (by rw [length_bytes]; exact hge)
    simp only [hget, beq_iff_eq]
    constructor
    · intro h
      have hindex : index = s.utf8ByteSize := by omega
      rw [hindex]
      exact String.Pos.Raw.isValid_rawEndPos
    · intro h
      have := String.Pos.Raw.le_iff.mp h.le_rawEndPos
      simp only [String.byteIdx_rawEndPos] at this
      omega

/-- A position is one between characters exactly if the text can be parted there. -/
theorem isCharBoundary_iff {s : String} {index : ℕ} :
    isCharBoundary s index = true ↔ ∃ a b, s = a ++ b ∧ a.utf8ByteSize = index := by
  rw [isCharBoundary_iff_isValid, String.Pos.Raw.isValid_iff_exists_append]
  constructor
  · rintro ⟨a, b, h, hindex⟩
    exact ⟨a, b, h, (congrArg String.Pos.Raw.byteIdx hindex).symm⟩
  · rintro ⟨a, b, h, rfl⟩
    exact ⟨a, b, h, rfl⟩

example : (isCharBoundary "né" 1, isCharBoundary "né" 2, isCharBoundary "né" 3) =
    (true, false, true) := by decide +kernel

/-! ## Cuts -/

/-- `str::split_at`: a text is cut in two, or the call panics inside a character. -/
def splitAt (s : String) (mid : ℕ) : Except Stop (String × String) :=
  if h : isCharBoundary s mid = true then
    let pos := s.pos ⟨mid⟩ (isCharBoundary_iff_isValid.mp h)
    .ok ((s.sliceTo pos).copy, (s.sliceFrom pos).copy)
  else .error .panicked

/-- Cut around an ASCII character that stands at an offset. -/
def cutAround (s : String) (start : ℕ) : Except Stop (String × String) := do
  let (before, rest) ← splitAt s start
  let (_, after) ← splitAt rest 1
  pure (before, after)

/-- `str::split_once`, for an ASCII character: it is looked for among the bytes. -/
def splitOnce (c : Char) (s : String) : Except Stop (String × String) := do
  let start ← orAbsent ((bytes s).idxOf? c.val.toUInt8)
  cutAround s start

/-- `str::rsplit_once`, for an ASCII character: it is looked for among the bytes, from the end. -/
def rsplitOnce (c : Char) (s : String) : Except Stop (String × String) := do
  let fromEnd ← orAbsent ((bytes s).reverse.idxOf? c.val.toUInt8)
  cutAround s (s.utf8ByteSize - 1 - fromEnd)

/-- A text is split between two of its parts, at the offset that the length of the first one gives.
-/
theorem splitAt_append (a b : String) : splitAt (a ++ b) a.utf8ByteSize = .ok (a, b) := by
  have h : isCharBoundary (a ++ b) a.utf8ByteSize = true :=
    isCharBoundary_iff.mpr ⟨a, b, rfl, rfl⟩
  have hsplits := String.Pos.splits ((a ++ b).pos ⟨a.utf8ByteSize⟩ (isCharBoundary_iff_isValid.mp h))
  obtain ⟨ha, hb⟩ := hsplits.eq ⟨rfl, rfl⟩
  simp only [splitAt, h, dif_pos, ha, hb]

theorem bytes_singleton {c : Char} (hc : c.utf8Size = 1) :
    bytes (String.singleton c) = [c.val.toUInt8] := by
  rw [bytes_eq_flatMap, String.toList_singleton, List.flatMap_singleton,
    String.utf8EncodeChar_eq_singleton hc]

/-- A text is cut around a character of one byte, into what is before it and what is behind it. -/
theorem cutAround_append {c : Char} (hc : c.utf8Size = 1) (a b : String) :
    cutAround (a ++ (String.singleton c ++ b)) a.utf8ByteSize = .ok (a, b) := by
  have hone : (String.singleton c).utf8ByteSize = 1 := by
    rw [← length_bytes, bytes_singleton hc, List.length_singleton]
  have hrest := splitAt_append (String.singleton c) b
  rw [hone] at hrest
  simp only [cutAround, splitAt_append, hrest, bind, Except.bind, pure, Except.pure]

/-- The byte of an ASCII character stands for nothing else: it is among the bytes of a text exactly
if the character is in it. -/
theorem mem_bytes_iff {c : Char} (hc : c.utf8Size = 1) {s : String} :
    c.val.toUInt8 ∈ bytes s ↔ c ∈ s.toList := by
  constructor
  · intro h
    obtain ⟨x, y, hxy⟩ := List.append_of_mem h
    have hfirst : c.val.toUInt8.IsUTF8FirstByte := first_byte (bytes_singleton hc)
    have hbegins := beginsChar_of_first _ hfirst
    have hboundary : isCharBoundary s x.length = true := by
      rw [isCharBoundary, hxy, List.getElem?_append_right (Nat.le_refl _), Nat.sub_self,
        List.getElem?_cons_zero, Bool.or_eq_true]
      exact .inr hbegins
    obtain ⟨s₁, s₂, rfl, -, h₂⟩ := split_of_valid hxy (isCharBoundary_iff_isValid.mp hboundary)
    have hprefix : bytes (String.singleton c) <+: bytes s₂ := by
      rw [bytes_singleton hc, h₂]
      exact ⟨y, rfl⟩
    have hmem : c ∈ s₂.toList :=
      (prefix_of_bytes.mp hprefix).subset (by simp)
    rw [String.toList_append]
    exact List.mem_append_right _ hmem
  · intro h
    rw [bytes_eq_flatMap]
    refine List.mem_flatMap.mpr ⟨c, h, ?_⟩
    rw [String.utf8EncodeChar_eq_singleton hc]
    exact List.mem_singleton_self _

theorem idxOf?_append_cons {α : Type} [DecidableEq α] {l : List α} {a : α} (h : a ∉ l)
    (r : List α) : (l ++ a :: r).idxOf? a = some l.length := by
  induction l with
  | nil => simp [List.idxOf?_cons]
  | cons d l ih =>
    rw [List.mem_cons, not_or] at h
    have hd : (d == a) = false := beq_false_of_ne fun hda => h.1 hda.symm
    rw [List.cons_append, List.idxOf?_cons, hd, ih h.2]
    rfl

/-- A text is split at the first of the characters that are looked for. -/
theorem splitOnce_append {c : Char} (hc : c.utf8Size = 1) {a : String} (ha : c ∉ a.toList)
    (b : String) : splitOnce c (a ++ (String.singleton c ++ b)) = .ok (a, b) := by
  have hmem : c.val.toUInt8 ∉ bytes a := fun h => ha ((mem_bytes_iff hc).mp h)
  have hidx : (bytes (a ++ (String.singleton c ++ b))).idxOf? c.val.toUInt8 =
      some a.utf8ByteSize := by
    rw [bytes_append, bytes_append, bytes_singleton hc, ← length_bytes]
    exact idxOf?_append_cons hmem (bytes b)
  simp only [splitOnce, hidx, orAbsent, bind, Except.bind]
  exact cutAround_append hc a b

/-- A text without the character is not split. -/
theorem splitOnce_absent {c : Char} (hc : c.utf8Size = 1) {s : String} (h : c ∉ s.toList) :
    splitOnce c s = .error .absent := by
  have hidx : (bytes s).idxOf? c.val.toUInt8 = none :=
    List.idxOf?_eq_none_iff.mpr fun hmem => h ((mem_bytes_iff hc).mp hmem)
  rw [splitOnce, hidx]
  rfl

/-- A text is split from behind at the last of the characters that are looked for. -/
theorem rsplitOnce_append {c : Char} (hc : c.utf8Size = 1) {b : String} (hb : c ∉ b.toList)
    (a : String) : rsplitOnce c (a ++ (String.singleton c ++ b)) = .ok (a, b) := by
  have hmem : c.val.toUInt8 ∉ (bytes b).reverse := by
    rw [List.mem_reverse, mem_bytes_iff hc]
    exact hb
  have hidx : (bytes (a ++ (String.singleton c ++ b))).reverse.idxOf? c.val.toUInt8 =
      some b.utf8ByteSize := by
    rw [bytes_append, bytes_append, bytes_singleton hc, List.singleton_append,
      List.reverse_append, List.reverse_cons, List.append_assoc, List.singleton_append,
      idxOf?_append_cons hmem, List.length_reverse, length_bytes]
  have hone : (String.singleton c).utf8ByteSize = 1 := by
    rw [← length_bytes, bytes_singleton hc, List.length_singleton]
  have hstart : (a ++ (String.singleton c ++ b)).utf8ByteSize - 1 - b.utf8ByteSize =
      a.utf8ByteSize := by
    rw [String.utf8ByteSize_append, String.utf8ByteSize_append, hone]
    omega
  simp only [rsplitOnce, hidx, orAbsent, bind, Except.bind, hstart]
  exact cutAround_append hc a b

/-- A text without the character is not split from behind either. -/
theorem rsplitOnce_absent {c : Char} (hc : c.utf8Size = 1) {s : String} (h : c ∉ s.toList) :
    rsplitOnce c s = .error .absent := by
  have hidx : (bytes s).reverse.idxOf? c.val.toUInt8 = none := by
    refine List.idxOf?_eq_none_iff.mpr fun hmem => h ((mem_bytes_iff hc).mp ?_)
    simpa using hmem
  rw [rsplitOnce, hidx]
  rfl

/-- A text is split around the first of the characters, or there is none in it. It never panics. -/
theorem splitOnce_cases {c : Char} (hc : c.utf8Size = 1) (s : String) :
    (∃ a b, c ∉ a.toList ∧ s = a ++ (String.singleton c ++ b) ∧ splitOnce c s = .ok (a, b)) ∨
      splitOnce c s = .error .absent := by
  by_cases h : c ∈ s.toList
  · left
    obtain ⟨x, y, hxy, hx⟩ := List.eq_append_cons_of_mem h
    have ha : c ∉ (String.ofList x).toList := by simpa using hx
    have hs : s = String.ofList x ++ (String.singleton c ++ String.ofList y) :=
      String.toList_injective (by simp [hxy])
    refine ⟨_, _, ha, hs, ?_⟩
    rw [hs]
    exact splitOnce_append hc ha _
  · right
    exact splitOnce_absent hc h

/-- A text is split from behind around the last of the characters, or there is none in it. It never
panics. -/
theorem rsplitOnce_cases {c : Char} (hc : c.utf8Size = 1) (s : String) :
    (∃ a b, c ∉ b.toList ∧ s = a ++ (String.singleton c ++ b) ∧ rsplitOnce c s = .ok (a, b)) ∨
      rsplitOnce c s = .error .absent := by
  by_cases h : c ∈ s.toList
  · left
    obtain ⟨x, y, hxy, hx⟩ := List.eq_append_cons_of_mem (List.mem_reverse.mpr h)
    have hlist : s.toList = y.reverse ++ c :: x.reverse := by
      simpa using congrArg List.reverse hxy
    have hb : c ∉ (String.ofList x.reverse).toList := by simpa using hx
    have hs : s = String.ofList y.reverse ++ (String.singleton c ++ String.ofList x.reverse) :=
      String.toList_injective (by simp [hlist])
    refine ⟨_, _, hb, hs, ?_⟩
    rw [hs]
    exact rsplitOnce_append hc hb _
  · right
    exact rsplitOnce_absent hc h

end Text
