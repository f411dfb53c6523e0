import Oxana.Json.Parse
import Mathlib.Algebra.Order.Group.Unbundled.Int

/-!
# What a piece of a text says about the whole

A client that keeps only the beginning or only the end of an object's text can
still recognise one of its members in another text. For a common **beginning**
this is because the reader is deterministic: members that end inside the common
part are read alike (`member_of_common_beginning`).

For a common **end** the texts have to be scanned from the left, through a part
that may differ in every way. `scan` tracks the nesting depth and whether the
position is inside a string. The common end closes exactly one bracket it has
not opened, so in a well-formed text it begins at depth one; and since it
begins with a comma, a quote and a letter, it cannot begin inside a string,
where that quote would close the string and the letter would be a stray
(`fields_of_common_end`).
-/

namespace Json

/-! ## Scanning -/

/-- Where in a text a position is: between tokens, within a word, or within a string. -/
inductive Mode where
  /-- between tokens, or in a word or a number -/
  | out
  /-- right after a closing quote -/
  | shut
  /-- inside a string -/
  | str
  /-- inside a string, after a backslash -/
  | esc
  /-- in no well-formed text -/
  | dead
  deriving DecidableEq

/-- A position: the nesting depth and the mode. -/
abbrev Pos := Int × Mode

/-- Where the next character leads from a position. -/
def step : Pos → Char → Pos
  | (d, .out), c =>
    if c = '"' then (d, .str)
    else if c = '{' ∨ c = '[' then (d + 1, .out)
    else if c = '}' ∨ c = ']' then (d - 1, .out)
    else (d, .out)
  | (d, .shut), c =>
    if c = ',' ∨ c = ':' ∨ isWs c then (d, .out)
    else if c = '}' ∨ c = ']' then (d - 1, .out)
    else (d, .dead)
  | (d, .str), c => if c = '"' then (d, .shut) else if c = '\\' then (d, .esc) else (d, .str)
  | (d, .esc), _ => (d, .str)
  | (d, .dead), _ => (d, .dead)

/-- Where a text leads from a position, character by character. -/
def scan (p : Pos) (cs : List Char) : Pos := cs.foldl step p

@[simp] theorem scan_nil (p : Pos) : scan p [] = p := rfl

@[simp] theorem scan_cons (p : Pos) (c : Char) (cs : List Char) :
    scan p (c :: cs) = scan (step p c) cs := rfl

@[simp] theorem scan_append (p : Pos) (a b : List Char) :
    scan p (a ++ b) = scan (scan p a) b := List.foldl_append

/-- The arrays and objects of a text are nested at most 127 deep. That is as deep as `serde_json` reads:
it gives up on a text that is nested deeper, where `parse` goes on. -/
def Shallow (text : List Char) : Prop := ∀ start ∈ text.inits, (scan (0, .out) start).1 ≤ 127

instance (text : List Char) : Decidable (Shallow text) :=
  inferInstanceAs (Decidable (∀ start ∈ text.inits, _))

/-- A position outside of strings, at depth `d`. -/
def AtBase (d : Int) (p : Pos) : Prop := p = (d, .out) ∨ p = (d, .shut)

theorem AtBase.out (d : Int) : AtBase d (d, .out) := .inl rfl

theorem AtBase.comma {d : Int} {p : Pos} (h : AtBase d p) : step p ',' = (d, .out) := by
  rcases h with rfl | rfl <;> rfl

theorem AtBase.colon {d : Int} {p : Pos} (h : AtBase d p) : step p ':' = (d, .out) := by
  rcases h with rfl | rfl <;> rfl

theorem AtBase.close {d : Int} {p : Pos} (h : AtBase d p) {c : Char} (hc : c = '}' ∨ c = ']') :
    step p c = (d - 1, .out) := by
  rcases h with rfl | rfl <;> rcases hc with rfl | rfl <;> rfl

theorem step_ws {d : Int} {c : Char} (h : isWs c = true) : step (d, .out) c = (d, .out) := by
  simp only [isWs, Bool.or_eq_true, beq_iff_eq] at h
  rcases h with ((rfl | rfl) | rfl) | rfl <;> rfl

/-- White space keeps a scan outside of strings and at its depth. -/
theorem AtBase.ws {d : Int} {p : Pos} (h : AtBase d p) {w : List Char} (hw : Ws w) :
    AtBase d (scan p w) := by
  induction w generalizing p with
  | nil => exact h
  | cons c w ih =>
    have hc := hw c (List.mem_cons_self ..)
    have hstep : step p c = (d, .out) := by
      rcases h with rfl | rfl
      · exact step_ws hc
      · simp [step, hc]
    rw [scan_cons, hstep]
    exact ih (.out d) fun c' hc' => hw c' (List.mem_cons_of_mem _ hc')

theorem scan_ws {d : Int} {w : List Char} (hw : Ws w) : scan (d, .out) w = (d, .out) := by
  induction w with
  | nil => rfl
  | cons c w ih =>
    rw [scan_cons, step_ws (hw c (List.mem_cons_self ..))]
    exact ih fun c' hc' => hw c' (List.mem_cons_of_mem _ hc')

/-! ## What is met on the way -/

/-- `P` holds of every position met in the text and the character there. -/
def Meets (P : Pos → Char → Prop) : Pos → List Char → Prop
  | _, [] => True
  | p, c :: cs => P p c ∧ Meets P (step p c) cs

section Meets

variable {P Q : Pos → Char → Prop}

/-- What holds along a text and along the one after it holds along both of them. -/
theorem Meets.append {p : Pos} {a b : List Char} (ha : Meets P p a) (hb : Meets P (scan p a) b) :
    Meets P p (a ++ b) := by
  induction a generalizing p with
  | nil => exact hb
  | cons c a ih => exact ⟨ha.1, ih ha.2 hb⟩

theorem Meets.mono {p : Pos} {a : List Char} (h : Meets P p a) (hPQ : ∀ p c, P p c → Q p c) :
    Meets Q p a := by
  induction a generalizing p with
  | nil => trivial
  | cons c a ih => exact ⟨hPQ _ _ h.1, ih h.2⟩

/-- What holds along a text holds at each of its characters, with the position that the text before
it leads to. -/
theorem Meets.at {p : Pos} {a b : List Char} {c : Char} (h : Meets P p (a ++ c :: b)) :
    P (scan p a) c := by
  induction a generalizing p with
  | nil => exact h.1
  | cons c' a ih => exact ih h.2

end Meets

/-- The position is never below depth `d`. -/
def Deep (d : Int) (p : Pos) (_ : Char) : Prop := d ≤ p.1

/-- The position is never below depth `d`, and no comma stands at that depth. -/
def Quiet (d : Int) (p : Pos) (c : Char) : Prop := d ≤ p.1 ∧ (c = ',' → ¬ AtBase d p)

theorem Deep.quiet {d : Int} {p : Pos} {c : Char} (h : Deep (d + 1) p c) : Quiet d p c := by
  refine ⟨by unfold Deep at h; omega, ?_⟩
  rintro - (rfl | rfl)
  · simp only [Deep] at h
    omega
  · simp only [Deep] at h
    omega

/-- Characters that are no commas and do not move the scan make a quiet text. -/
theorem meets_still {d : Int} {t : List Char}
    (h : ∀ c ∈ t, c ≠ ',' ∧ step (d, .out) c = (d, .out)) :
    Meets (Quiet d) (d, .out) t ∧ scan (d, .out) t = (d, .out) := by
  induction t with
  | nil => exact ⟨trivial, rfl⟩
  | cons c t ih =>
    obtain ⟨hc, hs⟩ := h c (List.mem_cons_self ..)
    obtain ⟨h₁, h₂⟩ := ih fun c' hc' => h c' (List.mem_cons_of_mem _ hc')
    refine ⟨⟨⟨le_refl _, fun hcomma => absurd hcomma hc⟩, ?_⟩, ?_⟩
    · rw [hs]
      exact h₁
    · rw [scan_cons, hs]
      exact h₂

theorem meets_ws {d : Int} {p : Pos} (hp : AtBase d p) {w : List Char} (hw : Ws w) :
    Meets (Quiet d) p w := by
  induction w generalizing p with
  | nil => trivial
  | cons c w ih =>
    have hc := hw c (List.mem_cons_self ..)
    refine ⟨⟨?_, ?_⟩, ?_⟩
    · rcases hp with rfl | rfl <;> exact le_refl _
    · rintro rfl
      exact absurd hc (by decide)
    · have := hp.ws (w := [c]) (fun c' hc' => by rw [List.mem_singleton.mp hc']; exact hc)
      exact ih this fun c' hc' => hw c' (List.mem_cons_of_mem _ hc')

/-- The inside of a string with its closing quote is quiet, whatever it says, and leads back out of
the string. -/
theorem scan_inside {d : Int} {t : List Char} (h : Inside t) :
    Meets (Quiet d) (d, .str) (t ++ ['"']) ∧ scan (d, .str) (t ++ ['"']) = (d, .shut) := by
  have hstr : ∀ c, Quiet d (d, .str) c := fun c => ⟨le_refl _, by rintro - (h | h) <;> cases h⟩
  have hesc : ∀ c, Quiet d (d, .esc) c := fun c => ⟨le_refl _, by rintro - (h | h) <;> cases h⟩
  induction h with
  | nil => exact ⟨⟨hstr _, trivial⟩, rfl⟩
  | @plain c t hq hb _ ih =>
    have hs : step (d, .str) c = (d, .str) := by simp [step, hq, hb]
    exact ⟨⟨hstr _, by rw [hs]; exact ih.1⟩, by rw [List.cons_append, scan_cons, hs]; exact ih.2⟩
  | @escaped c t _ ih => exact ⟨⟨hstr _, hesc _, ih.1⟩, ih.2⟩

/-- A string with its quotes is quiet, whatever it says, and leads back to the position before it.
-/
theorem scan_quoted {d : Int} {t : List Char} (h : Inside t) :
    Meets (Quiet d) (d, .out) ('"' :: (t ++ ['"'])) ∧
      scan (d, .out) ('"' :: (t ++ ['"'])) = (d, .shut) :=
  ⟨⟨⟨le_refl _, fun h => absurd h (by decide)⟩, (scan_inside h).1⟩, (scan_inside h).2⟩

/-! ## Scanning derived texts -/

/-- How a derived text scans: a value from depth `d` back to it, a list from
inside its bracket to outside. -/
def Scans : Cat → Int → List Char → Prop
  | .value _, d, t => Meets (Quiet d) (d, .out) t ∧ AtBase d (scan (d, .out) t)
  | .items _, d, t => Meets (Deep (d + 1)) (d + 1, .out) t ∧ scan (d + 1, .out) t = (d, .out)
  | .fields _, d, t => Meets (Deep (d + 1)) (d + 1, .out) t ∧ scan (d + 1, .out) t = (d, .out)

theorem Meets.deep {d : Int} {p : Pos} {t : List Char} (h : Meets (Quiet d) p t) :
    Meets (Deep d) p t :=
  h.mono fun _ _ hq => hq.1

theorem Meets.quiet {d : Int} {p : Pos} {t : List Char} (h : Meets (Deep (d + 1)) p t) :
    Meets (Quiet d) p t :=
  h.mono fun _ _ hq => Deep.quiet hq

theorem step_numberChar {d : Int} {c : Char} (h : isNumberChar c) :
    c ≠ ',' ∧ step (d, .out) c = (d, .out) := by
  have h₁ : c ≠ '"' ∧ c ≠ '{' ∧ c ≠ '[' ∧ c ≠ '}' ∧ c ≠ ']' ∧ c ≠ ',' := by
    refine ⟨?_, ?_, ?_, ?_, ?_, ?_⟩ <;> rintro rfl <;> exact absurd h (by decide)
  exact ⟨h₁.2.2.2.2.2, by simp [step, h₁]⟩

/-- A key with its colon and the white space around it is quiet, and leads back to the position
before it. -/
theorem scan_lead {d : Int} {k : String} {lead : List Char} (h : Lead k lead) :
    Meets (Quiet d) (d, .out) lead ∧ scan (d, .out) lead = (d, .out) := by
  obtain ⟨w₁, t, w₂, w₃, hw₁, ht, hw₂, hw₃, rfl⟩ := h
  have e : w₁ ++ '"' :: (t ++ '"' :: (w₂ ++ ':' :: w₃)) =
      w₁ ++ ('"' :: (t ++ ['"']) ++ (w₂ ++ ':' :: w₃)) := by simp
  obtain ⟨hq, hs⟩ := scan_quoted (d := d) ht.inside
  have hbase : AtBase d (scan (d, .shut) w₂) := AtBase.ws (.inr rfl) hw₂
  rw [e]
  constructor
  · refine (meets_ws (.out d) hw₁).append ?_
    rw [scan_ws hw₁]
    refine hq.append ?_
    rw [hs]
    refine (meets_ws (.inr rfl) hw₂).append ⟨⟨?_, fun hc => absurd hc (by decide)⟩, ?_⟩
    · rcases hbase with h | h <;> rw [h]
    · rw [hbase.colon]
      exact meets_ws (.out d) hw₃
  · rw [scan_append, scan_ws hw₁, scan_append, hs, scan_append, scan_cons, hbase.colon,
      scan_ws hw₃]

/-- The text of a member is quiet if the text of its value is. -/
theorem scan_field {d : Int} {f : Field} (hl : Lead f.key f.lead)
    (hv : Meets (Quiet d) (d, .out) f.raw ∧ AtBase d (scan (d, .out) f.raw)) (hw : Ws f.trail) :
    Meets (Quiet d) (d, .out) f.text ∧ AtBase d (scan (d, .out) f.text) := by
  obtain ⟨h₁, h₂⟩ := scan_lead (d := d) hl
  constructor
  · refine h₁.append ?_
    rw [h₂]
    exact hv.1.append (meets_ws hv.2 hw)
  · rw [Field.text, scan_append, h₂, scan_append]
    exact hv.2.ws hw

/-- The last character of a list closes its bracket: the scan is one level higher behind it, and has
not been there before. -/
theorem scan_close {d : Int} {p : Pos} (h : AtBase (d + 1) p) {c : Char}
    (hc : c = '}' ∨ c = ']') : Meets (Deep (d + 1)) p [c] ∧ scan p [c] = (d, .out) := by
  refine ⟨⟨?_, trivial⟩, ?_⟩
  · rcases h with rfl | rfl <;> exact le_refl _
  · rw [scan_cons, h.close hc, Int.add_sub_cancel]
    rfl

/-- After a comma between two elements the scan of a list goes on at the depth of the list. -/
theorem scan_comma {d : Int} {p : Pos} (h : AtBase (d + 1) p) {t : List Char}
    (ht : Meets (Deep (d + 1)) (d + 1, .out) t ∧ scan (d + 1, .out) t = (d, .out)) :
    Meets (Deep (d + 1)) p (',' :: t) ∧ scan p (',' :: t) = (d, .out) := by
  refine ⟨⟨?_, ?_⟩, ?_⟩
  · rcases h with rfl | rfl <;> exact le_refl _
  · rw [h.comma]
    exact ht.1
  · rw [scan_cons, h.comma]
    exact ht.2

/-- Behind an opening bracket the scan is one level deeper, and what ends with the closing one is
quiet from outside. -/
theorem scan_open {d : Int} {c : Char} (hc : c = '{' ∨ c = '[') {t : List Char}
    (ht : Meets (Deep (d + 1)) (d + 1, .out) t ∧ scan (d + 1, .out) t = (d, .out)) :
    Meets (Quiet d) (d, .out) (c :: t) ∧ AtBase d (scan (d, .out) (c :: t)) := by
  have hs : step (d, .out) c = (d + 1, .out) := by rcases hc with rfl | rfl <;> rfl
  have hcomma : c ≠ ',' := by rcases hc with rfl | rfl <;> decide
  refine ⟨⟨⟨le_refl _, fun h => absurd h hcomma⟩, ?_⟩, ?_⟩
  · rw [hs]
    exact ht.1.quiet
  · rw [scan_cons, hs, ht.2]
    exact .out d

/-- Every text that is derived is scanned as it should be: a value, an item list or a member list,
at whatever depth. -/
theorem Derives.scans {c : Cat} {t : List Char} (h : Derives c t) : ∀ d, Scans c d t := by
  have hstill : ∀ {d : Int} {t : List Char},
      (∀ c ∈ t, c ≠ ',' ∧ step (d, .out) c = (d, .out)) →
        Meets (Quiet d) (d, .out) t ∧ AtBase d (scan (d, .out) t) := fun {d t} h => by
    obtain ⟨h₁, h₂⟩ := meets_still h
    exact ⟨h₁, by rw [h₂]; exact .out d⟩
  have hwclose : ∀ {d : Int} {w : List Char} {c : Char}, Ws w → c = '}' ∨ c = ']' →
      Meets (Deep (d + 1)) (d + 1, .out) (w ++ [c]) ∧
        scan (d + 1, .out) (w ++ [c]) = (d, .out) := fun {d w c} hw hc => by
    obtain ⟨h₁, h₂⟩ := scan_close (.out (d + 1)) hc
    refine ⟨(meets_ws (.out _) hw).deep.append ?_, ?_⟩
    · rwa [scan_ws hw]
    · rwa [scan_append, scan_ws hw]
  induction h with
  | null => exact fun d => hstill (by simp [step])
  | true => exact fun d => hstill (by simp [step])
  | false => exact fun d => hstill (by simp [step])
  | num x =>
    exact fun d => hstill fun c hc => step_numberChar (List.all_eq_true.mp x.ok.1 c hc)
  | str ht =>
    intro d
    obtain ⟨h₁, h₂⟩ := scan_quoted (d := d) ht.inside
    exact ⟨h₁, .inr h₂⟩
  | arrNil hw => exact fun d => scan_open (.inr rfl) (hwclose hw (.inr rfl))
  | arr _ ih => exact fun d => scan_open (.inr rfl) (ih d)
  | objNil hw => exact fun d => scan_open (.inl rfl) (hwclose hw (.inl rfl))
  | obj _ ih => exact fun d => scan_open (.inl rfl) (ih d)
  | lastItem hw _ hw' ih =>
    intro d
    obtain ⟨h₁, h₂⟩ := ih (d + 1)
    obtain ⟨h₃, h₄⟩ := scan_close (h₂.ws hw') (c := ']') (.inr rfl)
    refine ⟨(meets_ws (.out _) hw).deep.append ?_, ?_⟩
    · rw [scan_ws hw]
      exact h₁.deep.append ((meets_ws h₂ hw').deep.append h₃)
    · rw [scan_append, scan_ws hw, scan_append, scan_append, h₄]
  | item hw _ hw' _ ihv ihi =>
    intro d
    obtain ⟨h₁, h₂⟩ := ihv (d + 1)
    obtain ⟨h₃, h₄⟩ := scan_comma (h₂.ws hw') (ihi d)
    refine ⟨(meets_ws (.out _) hw).deep.append ?_, ?_⟩
    · rw [scan_ws hw]
      exact h₁.deep.append ((meets_ws h₂ hw').deep.append h₃)
    · rw [scan_append, scan_ws hw, scan_append, scan_append, h₄]
  | lastField hl _ hw ih =>
    intro d
    obtain ⟨h₁, h₂⟩ := scan_field hl (ih (d + 1)) hw
    obtain ⟨h₃, h₄⟩ := scan_close h₂ (c := '}') (.inl rfl)
    exact ⟨h₁.deep.append h₃, by rw [scan_append, h₄]⟩
  | field hl _ hw _ ihv ihf =>
    intro d
    obtain ⟨h₁, h₂⟩ := scan_field hl (ihv (d + 1)) hw
    obtain ⟨h₃, h₄⟩ := scan_comma h₂ (ihf d)
    exact ⟨h₁.deep.append h₃, by rw [scan_append, h₄]⟩

/-! ## Objects -/

/-- An object's text: white space, members in braces, white space. -/
def ObjectText (fs : List Field) (cs : List Char) : Prop :=
  ∃ w t w', Ws w ∧ Ws w' ∧ cs = w ++ '{' :: (t ++ w') ∧
    (Derives (.fields fs) t ∨ fs = [] ∧ ∃ w₀, Ws w₀ ∧ t = w₀ ++ ['}'])

/-- The members of an object are read from a text exactly if it is an object's text with these
members. -/
theorem rootFields_iff {cs : List Char} {fs : List Field} :
    rootFields cs = some fs ↔ ObjectText fs cs := by
  constructor
  · intro h
    obtain ⟨w, hw, hcs⟩ := skipWs_split cs
    simp only [rootFields] at h
    split at h
    · next t ht =>
      rw [ht] at hcs
      obtain ⟨w₀, hw₀, ht₀⟩ := skipWs_split t
      split at h
      · next r hr =>
        split at h
        · next hr' =>
          cases h
          rw [hr] at ht₀
          exact ⟨w, w₀ ++ ['}'], r, hw, ws_of_skipWs hr', by simp [hcs, ht₀],
            .inr ⟨rfl, w₀, hw₀, rfl⟩⟩
        · cases h
      · split at h
        · next fs' r hf =>
          split at h
          · next hr =>
            cases h
            obtain ⟨t', rfl, hd⟩ := (read_sound _).2.2 _ _ _ hf
            exact ⟨w, t', r, hw, ws_of_skipWs hr, hcs, .inl hd⟩
          · cases h
        · cases h
    · cases h
  · rintro ⟨w, t, w', hw, hw', rfl, hd | ⟨rfl, w₀, hw₀, rfl⟩⟩
    · have hread := hd.complete (t ++ w').length w' (by simp) hw'.ends
      obtain ⟨t', hskip⟩ := fields_start hd w'
      rw [Reads] at hread
      simp only [rootFields]
      simp only [skipWs_append hw (c := '{') (by decide), hskip, hread, skipWs_of_ws hw', if_pos]
      rfl
    · have e : w₀ ++ ['}'] ++ w' = w₀ ++ '}' :: w' := by simp
      simp only [rootFields]
      simp only [e, skipWs_append hw (c := '{') (by decide),
        skipWs_append hw₀ (c := '}') (by decide), skipWs_of_ws hw', if_pos]

/-- The members of the object that a text parses to are those of the object's text. -/
theorem parse_obj_iff {cs : List Char} {ms : List (String × Value)} :
    parse cs = some (.obj ms) ↔ ∃ fs, rootFields cs = some fs ∧ ms = fs.map Field.member := by
  rw [parse_iff]
  constructor
  · rintro ⟨w, t, w', hw, hd, hw', rfl⟩
    cases hd with
    | objNil hw₀ =>
      exact ⟨[], rootFields_iff.mpr ⟨w, _, w', hw, hw', rfl, .inr ⟨rfl, _, hw₀, rfl⟩⟩, rfl⟩
    | @obj fs t hd => exact ⟨fs, rootFields_iff.mpr ⟨w, t, w', hw, hw', rfl, .inl hd⟩, rfl⟩
  · rintro ⟨fs, h, rfl⟩
    obtain ⟨w, t, w', hw, hw', rfl, hd | ⟨rfl, w₀, hw₀, rfl⟩⟩ := rootFields_iff.mp h
    · exact ⟨w, '{' :: t, w', hw, .obj hd, hw', rfl⟩
    · exact ⟨w, '{' :: (w₀ ++ ['}']), w', hw, .objNil hw₀, hw', rfl⟩

/-! ## A common end -/

/-- A comma in a member list, at the depth of the list, stands between two members: the text before
it and the text behind it are the texts of the members before and behind it. -/
theorem Derives.boundary {c : Cat} {t : List Char} (h : Derives c t) :
    ∀ fs, c = .fields fs → ∀ d a b, t = a ++ ',' :: b → AtBase (d + 1) (scan (d + 1, .out) a) →
      ∃ fs₁ fs₂, fs = fs₁ ++ fs₂ ∧ Derives (.fields fs₂) b := by
  induction h with
  | @lastField f hl hv hw _ =>
    rintro fs ⟨⟩ d a b he hbase
    obtain ⟨hq, -⟩ := scan_field hl (hv.scans (d + 1)) hw
    -- the comma would stand inside the member
    rcases List.append_eq_append_iff.mp he with ⟨u, rfl, hu⟩ | ⟨u, hu, he'⟩
    · rcases u with _ | ⟨c', u⟩
      · simp at hu
      · simp at hu
    · rcases u with _ | ⟨c', u⟩
      · simp at he'
      · obtain ⟨rfl, -⟩ := List.cons.inj he'
        rw [hu] at hq
        exact absurd hbase (hq.at.2 rfl)
  | @field f fs' t hl hv hw ht _ ih =>
    rintro fs ⟨⟩ d a b he hbase
    obtain ⟨hq, hend⟩ := scan_field hl (hv.scans (d + 1)) hw
    rcases List.append_eq_append_iff.mp he with ⟨u, rfl, hu⟩ | ⟨u, hu, he'⟩
    · rcases u with _ | ⟨c', u⟩
      · -- exactly the comma after this member
        simp only [List.nil_append, List.cons.injEq, true_and] at hu
        subst hu
        exact ⟨[f], fs', rfl, ht⟩
      · -- behind it
        simp only [List.cons_append, List.cons.injEq] at hu
        obtain ⟨rfl, rfl⟩ := hu
        rw [scan_append, scan_cons, hend.comma] at hbase
        obtain ⟨fs₁, fs₂, rfl, hd⟩ := ih fs' rfl d u b rfl hbase
        exact ⟨f :: fs₁, fs₂, rfl, hd⟩
    · rcases u with _ | ⟨c', u⟩
      · simp only [List.nil_append, List.cons.injEq, true_and] at he'
        subst he'
        exact ⟨[f], fs', rfl, ht⟩
      · obtain ⟨rfl, -⟩ := List.cons.inj he'
        rw [hu] at hq
        exact absurd hbase (hq.at.2 rfl)
  | _ => rintro fs ⟨⟩

/-- A member list is read in one way only, with the white space behind it. -/
theorem fields_unique {fs fs' : List Field} {t t' w w' : List Char} (h : Derives (.fields fs) t)
    (h' : Derives (.fields fs') t') (hw : Ws w) (hw' : Ws w') (he : t ++ w = t' ++ w') :
    fs = fs' := by
  have h₁ := h.complete (t ++ w).length w (by simp) hw.ends
  have h₂ := h'.complete (t ++ w).length w' (by rw [he]; simp) hw'.ends
  rw [Reads] at h₁ h₂
  rw [← he, h₁] at h₂
  exact (Prod.mk.inj (Option.some.inj h₂)).1

/-- A scan that is dead stays so, whatever follows. -/
theorem scan_dead (d : Int) (cs : List Char) : scan (d, .dead) cs = (d, .dead) := by
  induction cs with
  | nil => rfl
  | cons c cs ih => exact ih

/-- A text beginning with a comma, a quote and a letter is dead when it begins inside a string:
there the quote would end the string, and no string is followed by a letter. -/
theorem scan_inverted {c : Char} (hc : ¬ (c = ',' ∨ c = ':' ∨ isWs c) ∧ ¬ (c = '}' ∨ c = ']'))
    {p : Pos} (hp : ∀ d, ¬ AtBase d p) (cs : List Char) :
    ∃ d, scan p (',' :: '"' :: c :: cs) = (d, .dead) := by
  obtain ⟨d, m⟩ := p
  refine ⟨d, ?_⟩
  cases m with
  | out => exact absurd (.inl rfl) (hp d)
  | shut => exact absurd (.inr rfl) (hp d)
  | str =>
    have : scan (d, .str) (',' :: '"' :: c :: cs) = scan (step (d, .shut) c) cs := rfl
    rw [this, step, if_neg hc.1, if_neg hc.2]
    exact scan_dead d cs
  | esc =>
    have : scan (d, .esc) (',' :: '"' :: c :: cs) = scan (step (d, .shut) c) cs := rfl
    rw [this, step, if_neg hc.1, if_neg hc.2]
    exact scan_dead d cs
  | dead => exact scan_dead d _

/-- The text of an object leads a scan from the outside back to the outside. -/
theorem ObjectText.scan {fs : List Field} {cs : List Char} (h : ObjectText fs cs) :
    scan (0, .out) cs = (0, .out) := by
  obtain ⟨w, t, w', hw, hw', rfl, hd⟩ := h
  have hin : Json.scan (0 + 1, .out) t = (0, .out) := by
    rcases hd with hd | ⟨-, w₀, hw₀, rfl⟩
    · exact (hd.scans 0).2
    · rw [scan_append, scan_ws hw₀]
      rfl
  have hstep : step (0, .out) '{' = (0 + 1, .out) := rfl
  rw [scan_append, scan_ws hw, scan_cons, hstep, scan_append, hin, scan_ws hw']

/-- **Common end.** If an object's text ends with a comma and members `fs₂`,
the first of them with a key that begins with a letter right after the comma,
then every object whose text ends the same way has these members. -/
theorem fields_of_common_end {fs fs₂ : List Field} {cs a t w : List Char} {c : Char}
    (h : ObjectText fs cs) (hd : Derives (.fields fs₂) t) (hw : Ws w)
    (hcs : cs = a ++ ',' :: (t ++ w))
    (hc : ¬ (c = ',' ∨ c = ':' ∨ isWs c) ∧ ¬ (c = '}' ∨ c = ']'))
    (ht : ∃ t', t = '"' :: c :: t') : ∃ fs₁, fs = fs₁ ++ fs₂ := by
  have hscan := h.scan
  -- the end begins outside of strings
  have hbase : ∃ d, AtBase d (Json.scan (0, .out) a) := by
    by_contra hno
    obtain ⟨t', rfl⟩ := ht
    rw [hcs, scan_append] at hscan
    obtain ⟨d, hdead⟩ := scan_inverted hc (fun d hd => hno ⟨d, hd⟩) (t' ++ w)
    rw [List.cons_append, List.cons_append, hdead] at hscan
    cases hscan
  obtain ⟨d, hbase⟩ := hbase
  -- at depth one, because it closes one bracket
  have hone : d = 1 := by
    have hd' := (hd.scans (d - 1)).2
    rw [Int.sub_add_cancel] at hd'
    rw [hcs, scan_append, scan_cons, hbase.comma, scan_append, hd', scan_ws hw] at hscan
    have := (Prod.mk.inj hscan).1
    omega
  subst hone
  obtain ⟨w₀, t₀, w₁, hw₀, hw₁, hcs₀, hobj⟩ := h
  have hstep : step (0, .out) '{' = (1, .out) := rfl
  -- the comma stands between the braces
  rw [hcs] at hcs₀
  obtain ⟨b, hb, hrest⟩ : ∃ b, a = w₀ ++ '{' :: b ∧ b ++ ',' :: (t ++ w) = t₀ ++ w₁ := by
    rcases List.append_eq_append_iff.mp hcs₀ with ⟨u, hu, he⟩ | ⟨u, rfl, he⟩
    · rcases u with _ | ⟨c', u⟩
      · simp at he
      · obtain ⟨rfl, -⟩ := List.cons.inj he
        exact absurd (hw₀ ',' (by rw [hu]; simp)) (by decide)
    · rcases u with _ | ⟨c', u⟩
      · simp at he
      · obtain ⟨rfl, he'⟩ := List.cons.inj he
        exact ⟨u, rfl, he'.symm⟩
  rw [hb, scan_append, scan_ws hw₀, scan_cons, hstep] at hbase
  obtain ⟨b', hb'⟩ : ∃ b', t₀ = b ++ ',' :: b' ∧ t ++ w = b' ++ w₁ := by
    rcases List.append_eq_append_iff.mp hrest with ⟨u, rfl, he⟩ | ⟨u, rfl, he⟩
    · rcases u with _ | ⟨c', u⟩
      · simp only [List.nil_append] at he
        exact absurd (hw₁ ',' (by rw [← he]; simp)) (by decide)
      · obtain ⟨rfl, he'⟩ := List.cons.inj he
        exact ⟨u, rfl, he'⟩
    · exact absurd (hw₁ ',' (by rw [he]; simp)) (by decide)
  obtain ⟨rfl, hb'⟩ := hb'
  rcases hobj with hobj | ⟨-, w₂, hw₂, he⟩
  · obtain ⟨fs₁, fs₂', rfl, hd'⟩ := hobj.boundary fs rfl 0 b b' rfl hbase
    rw [fields_unique hd hd' hw hw₁ hb']
    exact ⟨fs₁, rfl⟩
  · -- an empty object has no comma at all
    have : ',' ∈ w₂ ++ ['}'] := by rw [← he]; simp
    rcases List.mem_append.mp this with h | h
    · exact absurd (hw₂ ',' h) (by decide)
    · simp at h

/-! ## A common beginning -/

/-- The text of a member says what the member says. -/
structure Field.Wf (f : Field) : Prop where
  /-- its key -/
  lead : Lead f.key f.lead
  /-- its value -/
  value : Derives (.value f.value) f.raw
  /-- white space -/
  trail : Ws f.trail

/-- The texts of members with the commas after them. -/
def joined (fs : List Field) : List Char := fs.flatMap fun f => f.text ++ [',']

/-- Inversion: a member list is its first member, and then its end or a comma and the other members.
-/
theorem Derives.uncons {fs : List Field} {t : List Char} (h : Derives (.fields fs) t) :
    ∃ f fs', fs = f :: fs' ∧ f.Wf ∧
      ((fs' = [] ∧ t = f.text ++ ['}']) ∨
        ∃ t', t = f.text ++ ',' :: t' ∧ Derives (.fields fs') t') := by
  cases h with
  | @lastField f hl hv hw => exact ⟨f, [], rfl, ⟨hl, hv, hw⟩, .inl ⟨rfl, rfl⟩⟩
  | @field f fs' t' hl hv hw ht => exact ⟨f, fs', rfl, ⟨hl, hv, hw⟩, .inr ⟨t', rfl, ht⟩⟩

/-- A string value is read without a look at what follows it. -/
theorem value_str {s : String} {t : List Char} (h : Derives (.value (.str s)) t) (n : Nat)
    (r : List Char) : value (n + 1) (t ++ r) = some (.str s, r) := by
  cases h with
  | str ht => simp [value, ht.reads]

/-- From the text of a member its key is read, with the colon and the white space around it. -/
theorem key_of_lead {f : Field} (h : f.Wf) (u : List Char) :
    key (f.lead ++ (f.raw ++ u)) = some (f.key, f.lead, f.raw ++ u) := by
  obtain ⟨c, t, hraw, hc⟩ := h.value.head
  rw [hraw, List.cons_append]
  exact key_complete h.lead hc.1

/-- Two members that begin alike are alike, when the value is a string or both are seen to end. -/
theorem member_unique {f g : Field} (hf : f.Wf) (hg : g.Wf) {u v : List Char}
    (he : g.lead ++ (g.raw ++ u) = f.lead ++ (f.raw ++ v)) (hu : Ends u)
    (hv : Ends v ∨ ∃ s, f.value = .str s) : g.member = f.member ∧ u = v := by
  have hk := key_of_lead hg u
  rw [he, key_of_lead hf v] at hk
  simp only [Option.some.injEq, Prod.mk.injEq] at hk
  obtain ⟨hkey, -, hrest⟩ := hk
  have h₁ := hg.value.complete ((g.raw ++ u).length + 1) u (by simp; omega) hu
  have h₂ : value ((f.raw ++ v).length + 1) (f.raw ++ v) = some (f.value, v) := by
    rcases hv with hv | ⟨s, hs⟩
    · exact hf.value.complete _ v (by simp; omega) hv
    · have hd := hf.value
      rw [hs] at hd ⊢
      exact value_str hd _ v
  rw [Reads, ← hrest, h₂] at h₁
  simp only [Option.some.injEq, Prod.mk.injEq] at h₁
  exact ⟨Prod.ext hkey.symm h₁.1.symm, h₁.2.symm⟩

theorem ends_after {f : Field} (h : f.Wf) {c : Char} (hc : c = ',' ∨ c = '}') (t : List Char) :
    Ends (f.trail ++ c :: t) :=
  .ws h.trail (ends_cons (by rcases hc with rfl | rfl <;> decide))

/-- **Common beginning.** If the texts of two member lists begin with the same
members and then with the same lead and the same string value, they both have
that member. -/
theorem member_of_common_beginning {f : Field} (hf : f.Wf) (hstr : ∃ s, f.value = .str s)
    {fs₁ : List Field} (h₁ : ∀ g ∈ fs₁, g.Wf) {fs : List Field} {t w v : List Char}
    (hd : Derives (.fields fs) t)
    (he : t ++ w = joined fs₁ ++ (f.lead ++ (f.raw ++ v))) : f.member ∈ fs.map Field.member := by
  induction fs₁ generalizing fs t with
  | nil =>
    obtain ⟨g, fs', rfl, hg, hrest⟩ := hd.uncons
    obtain ⟨c, u, hc, hu⟩ : ∃ c u, (c = ',' ∨ c = '}') ∧ t ++ w = g.text ++ c :: u := by
      rcases hrest with ⟨-, rfl⟩ | ⟨t', rfl, -⟩
      · exact ⟨'}', w, .inr rfl, by simp⟩
      · exact ⟨',', t' ++ w, .inl rfl, by simp⟩
    rw [hu, Field.text, List.append_assoc, List.append_assoc] at he
    obtain ⟨hm, -⟩ := member_unique hf hg he (ends_after hg hc u) (.inr hstr)
    rw [List.map_cons, hm]
    exact List.mem_cons_self ..
  | cons f₁ fs₁ ih =>
    obtain ⟨g, fs', rfl, hg, hrest⟩ := hd.uncons
    have hf₁ := h₁ f₁ (List.mem_cons_self ..)
    have hj : joined (f₁ :: fs₁) ++ (f.lead ++ (f.raw ++ v)) =
        f₁.lead ++ (f₁.raw ++ (f₁.trail ++ ',' :: (joined fs₁ ++ (f.lead ++ (f.raw ++ v))))) := by
      simp [joined, Field.text]
    obtain ⟨c, u, hc, hu⟩ : ∃ c u, (c = ',' ∨ c = '}') ∧ t ++ w = g.text ++ c :: u := by
      rcases hrest with ⟨-, rfl⟩ | ⟨t', rfl, -⟩
      · exact ⟨'}', w, .inr rfl, by simp⟩
      · exact ⟨',', t' ++ w, .inl rfl, by simp⟩
    have he' := he
    rw [hu, hj, Field.text, List.append_assoc, List.append_assoc] at he'
    obtain ⟨-, htail⟩ := member_unique hf₁ hg he' (ends_after hg hc u)
      (.inl (ends_after hf₁ (.inl rfl) _))
    -- after the member, both texts go on with the comma
    have hskip := congrArg skipWs htail
    rw [skipWs_append hg.trail (by rcases hc with rfl | rfl <;> decide),
      skipWs_append hf₁.trail (by decide)] at hskip
    obtain ⟨rfl, rfl⟩ := List.cons.inj hskip
    rcases hrest with ⟨-, rfl⟩ | ⟨t', rfl, hd'⟩
    · simp at hu
    · have : t' ++ w = joined fs₁ ++ (f.lead ++ (f.raw ++ v)) := by simpa using hu
      exact List.mem_cons_of_mem _ (ih (fun g hg => h₁ g (List.mem_cons_of_mem _ hg)) hd' this)

/-- A member list can be split at each of its members: its text is the text of those before, of this
one and of those behind. -/
theorem Derives.split {fs₁ fs₂ : List Field} {f : Field} {t : List Char}
    (h : Derives (.fields (fs₁ ++ f :: fs₂)) t) :
    ∃ t₂, t = joined fs₁ ++ t₂ ∧ Derives (.fields (f :: fs₂)) t₂ ∧ (∀ g ∈ fs₁, g.Wf) ∧ f.Wf := by
  induction fs₁ generalizing t with
  | nil =>
    obtain ⟨g, fs', he, hg, -⟩ := h.uncons
    obtain ⟨rfl, -⟩ := List.cons.inj he
    exact ⟨t, rfl, h, fun g hg => absurd hg List.not_mem_nil, hg⟩
  | cons f₁ fs₁ ih =>
    obtain ⟨g, fs', he, hg, hrest⟩ := h.uncons
    obtain ⟨rfl, rfl⟩ := List.cons.inj he
    rcases hrest with ⟨hnil, -⟩ | ⟨t', rfl, hd⟩
    · simp at hnil
    · obtain ⟨t₂, rfl, hd₂, hwf, hf⟩ := ih hd
      refine ⟨t₂, by simp [joined], hd₂, ?_, hf⟩
      intro g' hg'
      rcases List.mem_cons.mp hg' with rfl | hg'
      · exact hg
      · exact hwf g' hg'

end Json
