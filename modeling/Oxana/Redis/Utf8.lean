import Oxana.Redis.Glob

/-!
# Texts and their bytes

The server compares bytes, and the bytes it stores are texts in UTF-8. A text begins or ends with
another exactly if its bytes do (`prefix_of_bytes`, `suffix_of_bytes`): the bytes of a text begin
with the first byte of a character, and that never stands inside of one.
-/

namespace Redis

/-- Different texts have different bytes. -/
theorem bytes_injective : Function.Injective bytes := fun s t h => by
  rw [bytes, bytes, Array.toList_inj] at h
  exact String.toByteArray_inj.mp (ByteArray.ext h)

/-- A text has as many bytes as its length in UTF-8 says. -/
theorem length_bytes (s : String) : (bytes s).length = s.utf8ByteSize := by
  rw [bytes, Array.length_toList]
  exact String.size_toByteArray

/-- A text splits where its bytes do, if the place is one between two characters. -/
theorem split_of_valid {s : String} {a b : List UInt8} (h : bytes s = a ++ b)
    (hv : String.Pos.Raw.IsValid s ⟨a.length⟩) :
    ∃ s₁ s₂, s = s₁ ++ s₂ ∧ bytes s₁ = a ∧ bytes s₂ = b := by
  obtain ⟨s₁, s₂, rfl, hlen⟩ := String.Pos.Raw.isValid_iff_exists_append.mp hv
  rw [bytes_append] at h
  have hl : (bytes s₁).length = a.length := by
    rw [length_bytes]
    exact (congrArg String.Pos.Raw.byteIdx hlen).symm
  obtain ⟨h₁, h₂⟩ := List.append_inj h hl
  exact ⟨s₁, s₂, rfl, h₁, h₂⟩

/-- The byte of a text at an offset is the one that follows as many bytes. -/
theorem byte_eq {s : String} {a b : List UInt8} {c : UInt8} (h : bytes s = a ++ c :: b)
    (hlt : a.length < s.toByteArray.size) : s.toByteArray[a.length] = c := by
  have hc : (bytes s)[a.length]? = some c := by
    rw [h, List.getElem?_append_right (Nat.le_refl _), Nat.sub_self]
    rfl
  have hget : (bytes s)[a.length]? = some s.toByteArray[a.length] := by
    rw [bytes, Array.getElem?_toList]
    exact Array.getElem?_eq_getElem hlt
  exact Option.some.inj (hget.symm.trans hc)

/-- The first byte of a text is one that begins a character. -/
theorem first_byte {s : String} {c : UInt8} {a : List UInt8} (h : bytes s = c :: a) :
    c.IsUTF8FirstByte := by
  have hpos : 0 < s.toByteArray.size := by
    rw [String.size_toByteArray, ← length_bytes, h]
    exact Nat.succ_pos _
  have hget : s.toByteArray[0] = c := byte_eq (a := []) h hpos
  exact hget ▸ s.isValidUTF8.isUTF8FirstByte_getElem_zero hpos

/-- The bytes of a text begin with those of another one exactly if the text begins with that one,
character by character. -/
theorem prefix_of_bytes {s t : String} : bytes t <+: bytes s ↔ t.toList <+: s.toList := by
  constructor
  · rintro ⟨b, hb⟩
    have hvalid : String.Pos.Raw.IsValid s ⟨(bytes t).length⟩ := by
      refine String.Pos.Raw.isValid_iff_isValidUTF8_extract_zero.mpr ⟨?_, ?_⟩
      · rw [String.Pos.Raw.le_iff]
        have := congrArg List.length hb
        rw [List.length_append, length_bytes s] at this
        simp only [String.byteIdx_rawEndPos]
        omega
      · have : s.toByteArray.extract 0 (bytes t).length = t.toByteArray := by
          refine ByteArray.ext (Array.toList_inj.mp ?_)
          rw [ByteArray.data_extract, Array.toList_extract, List.extract_eq_take_drop]
          exact (congrArg (List.take _) hb.symm).trans (List.take_left' rfl)
        rw [this]
        exact t.isValidUTF8
    obtain ⟨s₁, s₂, rfl, h₁, -⟩ := split_of_valid hb.symm hvalid
    rw [bytes_injective h₁, String.toList_append]
    exact List.prefix_append ..
  · rintro ⟨u, hu⟩
    obtain rfl : s = t ++ String.ofList u := String.toList_injective (by simp [hu])
    rw [bytes_append]
    exact List.prefix_append ..

/-- The bytes of a text end with those of another one exactly if the text ends with that one,
character by character. -/
theorem suffix_of_bytes {s t : String} : bytes t <:+ bytes s ↔ t.toList <:+ s.toList := by
  constructor
  · rintro ⟨b, hb⟩
    have hvalid : String.Pos.Raw.IsValid s ⟨b.length⟩ := by
      rw [String.Pos.Raw.isValid_iff_isUTF8FirstByte]
      have hlen : b.length + (bytes t).length = s.utf8ByteSize := by
        rw [← length_bytes, ← hb, List.length_append]
      cases ht : bytes t with
      | nil =>
        left
        rw [ht, List.length_nil, Nat.add_zero] at hlen
        rw [hlen]
        rfl
      | cons c a =>
        right
        rw [ht] at hlen
        have hlt : (⟨b.length⟩ : String.Pos.Raw) < s.rawEndPos := by
          rw [String.Pos.Raw.lt_iff, String.byteIdx_rawEndPos]
          simp at hlen ⊢
          omega
        refine ⟨hlt, ?_⟩
        have : s.getUTF8Byte ⟨b.length⟩ hlt = c := by
          refine byte_eq (b := a) ?_ _
          rw [← hb, ht]
        rw [this]
        exact first_byte ht
    obtain ⟨s₁, s₂, rfl, -, h₂⟩ := split_of_valid hb.symm hvalid
    rw [bytes_injective h₂, String.toList_append]
    exact List.suffix_append ..
  · rintro ⟨u, hu⟩
    obtain rfl : s = String.ofList u ++ t := String.toList_injective (by simp [hu])
    rw [bytes_append]
    exact List.suffix_append ..

end Redis
