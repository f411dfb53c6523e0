import Oxana.Json.Value

/-!
# The keys of dynamic queues

The key of a dynamic queue is its prefix and a text that is made of the queue's fields. The text
separates what it puts together by `:` and `=`, but these may also stand in what is put together.
`Alike` lists what the text does not tell apart, and `suffix_injective_iff` says that this is all.
-/

namespace Oxana

open Json

/-! ## The text of a value -/

/-- `join(":")`: texts with colons between them. -/
def joinColon : List String → String
  | [] => ""
  | [s] => s
  | s :: t :: ss => s ++ ":" ++ joinColon (t :: ss)

/-- The text of a boolean in the suffix of a queue. -/
def boolText (b : Bool) : String := if b then "true" else "false"

mutual

/-- `value_to_queue_key`: the suffix that a value gives to a queue. -/
def valueToQueueKey : Value → String
  | .null => ""
  | .str s => s
  | .num n => String.ofList n.text
  | .bool b => boolText b
  | .arr a => joinColon (itemTexts a)
  | .obj object => joinColon (memberTexts object)

/-- One text for each item of an array, an empty array having one as well. -/
def itemTexts : List Value → List String
  | [] => []
  | v :: vs => valueToQueueKey v :: itemTexts vs

/-- One text for each member of an object, with its name. -/
def memberTexts : List (String × Value) → List String
  | [] => []
  | (k, v) :: ms => (k ++ "=" ++ valueToQueueKey v) :: memberTexts ms

end

/-- The derived `Queue::key` of a dynamic queue. A queue that cannot be serialized counts as
`null`. -/
def dynamicQueueKey (pre : String) (queue : Option Value) : String :=
  pre ++ "#" ++ valueToQueueKey (queue.getD .null)

example : dynamicQueueKey "test_dynamic_queue"
    (some (.obj [("name", .str "John"), ("age", .int 30), ("is_student", .bool true)])) =
      "test_dynamic_queue#name=John:age=30:is_student=true" := by decide +kernel

/-- The keys of two instances of a queue differ exactly if their suffixes do. -/
theorem dynamicQueueKey_inj {pre : String} {v v' : Value} :
    dynamicQueueKey pre (some v) = dynamicQueueKey pre (some v') ↔
      valueToQueueKey v = valueToQueueKey v' := by
  rw [dynamicQueueKey, dynamicQueueKey, String.append_right_inj]
  rfl

/-! ## What it does not tell apart -/

/-- Values that are read alike: the smallest congruence in which everything that is written as a
string is that string, one item is as good as the list of it, and the separators may as well stand
in the strings. -/
inductive Alike : Value → Value → Prop
  | refl (v : Value) : Alike v v
  | symm {v v' : Value} : Alike v v' → Alike v' v
  | trans {v v' v'' : Value} : Alike v v' → Alike v' v'' → Alike v v''
  /-- `null`, no items and no fields are the empty string -/
  | null : Alike .null (.str "")
  | noItems : Alike (.arr []) (.str "")
  | noFields : Alike (.obj []) (.str "")
  /-- booleans and numbers are what they are written as -/
  | bool (b : Bool) : Alike (.bool b) (.str (boolText b))
  | num (n : Number) : Alike (.num n) (.str (String.ofList n.text))
  /-- one item is that item -/
  | item (v : Value) : Alike (.arr [v]) v
  /-- two strings are the string with a `:` in it -/
  | colon (s t : String) (vs : List Value) :
      Alike (.arr (.str s :: .str t :: vs)) (.arr (.str (s ++ ":" ++ t) :: vs))
  /-- a field is the string with a `=` in it -/
  | field (k s : String) : Alike (.obj [(k, .str s)]) (.str (k ++ "=" ++ s))
  /-- several fields are as many items -/
  | fields (m m' : String × Value) (ms : List (String × Value)) :
      Alike (.obj (m :: m' :: ms)) (.arr [.obj [m], .obj (m' :: ms)])
  /-- inside an array -/
  | inArray (vs ws : List Value) {v v' : Value} :
      Alike v v' → Alike (.arr (vs ++ v :: ws)) (.arr (vs ++ v' :: ws))
  /-- inside a field -/
  | inField (k : String) {v v' : Value} : Alike v v' → Alike (.obj [(k, v)]) (.obj [(k, v')])

theorem itemTexts_append (vs ws : List Value) :
    itemTexts (vs ++ ws) = itemTexts vs ++ itemTexts ws := by
  induction vs with
  | nil => rfl
  | cons v vs ih => rw [List.cons_append, itemTexts, itemTexts, ih, List.cons_append]

/-- Joining with colons does not tell whether a colon was in a part or between two parts. -/
theorem joinColon_merge (s t : String) (ss : List String) :
    joinColon ((s ++ ":" ++ t) :: ss) = joinColon (s :: t :: ss) := by
  cases ss with
  | nil => rfl
  | cons u us => simp only [joinColon, String.append_assoc]

/-- **Soundness**: values that are alike have the same text. -/
theorem Alike.text {v v' : Value} (h : Alike v v') : valueToQueueKey v = valueToQueueKey v' := by
  induction h with
  | refl v => rfl
  | symm _ ih => exact ih.symm
  | trans _ _ ih₁ ih₂ => exact ih₁.trans ih₂
  | null => rfl
  | noItems => rfl
  | noFields => rfl
  | bool b => rfl
  | num n => rfl
  | item v => rfl
  | colon s t vs => exact (joinColon_merge s t (itemTexts vs)).symm
  | field k s => rfl
  | fields m m' ms => rfl
  | inArray vs ws _ ih =>
    rw [valueToQueueKey, valueToQueueKey, itemTexts_append, itemTexts_append, itemTexts, itemTexts,
      ih]
  | inField k _ ih =>
    rw [valueToQueueKey, valueToQueueKey, memberTexts, memberTexts, ih]
    rfl

/-! ## Every value is alike to its text -/

/-- An array of strings is alike its strings joined by colons. -/
theorem alike_joinColon (ss : List String) : Alike (.arr (ss.map .str)) (.str (joinColon ss)) := by
  match ss with
  | [] => exact .noItems
  | [s] => exact .item (.str s)
  | s :: t :: ss =>
    have ih := alike_joinColon ((s ++ ":" ++ t) :: ss)
    rw [joinColon_merge] at ih
    exact (Alike.colon s t (ss.map .str)).trans ih
termination_by ss.length

mutual

/-- Every value is alike its own text. -/
theorem alike_text : ∀ v : Value, Alike v (.str (valueToQueueKey v))
  | .null => .null
  | .bool b => .bool b
  | .num n => .num n
  | .str _ => .refl _
  | .arr vs => (alike_items [] vs).trans (alike_joinColon (itemTexts vs))
  | .obj ms => alike_members ms

/-- The items of an array can be replaced by their texts, one after the other. -/
theorem alike_items : ∀ done vs : List Value,
    Alike (.arr (done ++ vs)) (.arr (done ++ (itemTexts vs).map .str))
  | _, [] => .refl _
  | done, v :: vs => by
    have hhead := Alike.inArray done vs (alike_text v)
    have htail := alike_items (done ++ [.str (valueToQueueKey v)]) vs
    rw [List.append_assoc, List.append_assoc] at htail
    exact hhead.trans htail

/-- An object is alike the texts of its members joined by colons. -/
theorem alike_members : ∀ ms : List (String × Value),
    Alike (.obj ms) (.str (joinColon (memberTexts ms)))
  | [] => .noFields
  | [(k, v)] => (Alike.inField k (alike_text v)).trans (.field k _)
  | (k, v) :: m' :: ms => by
    have hhead : Alike (.obj [(k, v)]) (.str (k ++ "=" ++ valueToQueueKey v)) :=
      (Alike.inField k (alike_text v)).trans (.field k _)
    have htail := alike_members (m' :: ms)
    have hitems := ((Alike.fields (k, v) m' ms).trans (.inArray [] _ hhead)).trans
      (.inArray [.str (k ++ "=" ++ valueToQueueKey v)] [] htail)
    exact hitems.trans (alike_joinColon [_, _])

end

/-- **Completeness**: values with the same text are alike, so alike is what the suffix sees of a
value. -/
theorem alike_iff {v v' : Value} : Alike v v' ↔ valueToQueueKey v = valueToQueueKey v' := by
  refine ⟨Alike.text, fun h => (alike_text v).trans ?_⟩
  rw [h]
  exact (alike_text v').symm

/-- **Different instances have different suffixes** exactly if they are not alike: the suffix of an
instance tells its values apart up to where a colon or a separator comes from, and no further. -/
theorem suffix_injective_iff (v v' : Value) :
    (v ≠ v' → valueToQueueKey v ≠ valueToQueueKey v') ↔ v = v' ∨ ¬Alike v v' := by
  rw [alike_iff, or_iff_not_imp_left]

/-- A separator within a field: two different instances of a queue whose suffixes are the same, so
that they share one queue. -/
theorem suffix_collision : ∃ v v' : Value, v ≠ v' ∧
    v = .obj [("region", .str "eu:tenant=a"), ("tenant", .str "b")] ∧
    v' = .obj [("region", .str "eu"), ("tenant", .str "a:tenant=b")] ∧
    valueToQueueKey v = valueToQueueKey v' := by
  refine ⟨_, _, fun h => ?_, rfl, rfl, by decide +kernel⟩
  simp only [Value.obj.injEq, List.cons.injEq, Prod.mk.injEq, Value.str.injEq] at h
  exact absurd h.1.2 (by decide)

end Oxana
