import Oxana.Envelope
import Oxana.Json.Scan

/-!
# Snapshots of stored payloads

Before a unique job is replaced, the queue it is waiting on has to be known,
and it has to be the queue at the moment of the replacement. The producer reads
the payload, takes the queue from it, and hands the server something to compare
the payload with. That need not be all of it: job arguments and state can be
large, and one of them stands before the queue and the other behind it, so the
shorter side together with the queue member is enough.

`EnqueueSnapshot.parse` builds the comparison and `EnqueueSnapshot.matches`
performs it. `matches_sound` says that it is enough: a payload that passes
names the same queue, whatever else is in it.
-/

namespace Oxana

open Json

/-- The number of bytes that a text takes in UTF-8. -/
def byteLen (cs : List Char) : Nat := (cs.map Char.utf8Size).sum

/-- Which part of the payload is compared with the snapshot. -/
inductive EnqueueSnapshotComparison where
  /-- all of it -/
  | exact
  /-- the end, beginning with the queue member -/
  | suffix
  /-- the beginning, ending with the queue member -/
  | initial
  deriving DecidableEq, Repr

/-- What a producer remembers of a stored payload. -/
structure EnqueueSnapshot where
  /-- the part to compare -/
  expected : String
  /-- the queue the payload names -/
  queue : String
  /-- which part it is -/
  comparison : EnqueueSnapshotComparison
  deriving DecidableEq

/-- The only member with a key, and the members before it. -/
def locate (k : String) (fs : List Field) : Option (List Field × Field) :=
  match fs.filter fun f => f.key = k with
  | [f] => some (fs.takeWhile fun f => f.key ≠ k, f)
  | _ => none

/-- The comma, key and colon of a queue member as envelopes are written. -/
def queueKey : List Char := [',', '"', 'q', 'u', 'e', 'u', 'e', '"', ':']

/-- The text of an object up to the value of the member behind `fs₁`. -/
def textBefore (cs : List Char) (fs₁ : List Field) (f : Field) : List Char :=
  cs.takeWhile isWs ++ '{' :: (joined fs₁ ++ f.lead)

/-- `EnqueueSnapshot::parse`; `none` is a JSON error. -/
def EnqueueSnapshot.parse (payload : String) : Option EnqueueSnapshot :=
  let cs := payload.toList
  match rootFields cs with
  | some fs =>
    match locate "queue" fs with
    | some (fs₁, f) =>
      match f.value with
      | .str queue =>
        let before := textBefore cs fs₁ f
        let start := before.length - queueKey.length
        if queueKey.isSuffixOf before then
          -- keep the smaller side
          if byteLen (before ++ f.raw) ≤ byteLen (cs.drop start) then
            some ⟨String.ofList (before ++ f.raw), queue, .initial⟩
          else some ⟨String.ofList (cs.drop start), queue, .suffix⟩
        else some ⟨payload, queue, .exact⟩
      | _ => none
    | none => none
  | none =>
    -- a struct of one field may also come as an array of one element
    match Json.parse cs with
    | some (.arr [.str queue]) => some ⟨payload, queue, .exact⟩
    | _ => none

/-- The comparison that the server performs with a snapshot. -/
def EnqueueSnapshot.matches (s : EnqueueSnapshot) (payload : String) : Bool :=
  match s.comparison with
  | .exact => payload = s.expected
  | .suffix => s.expected.toList.isSuffixOf payload.toList
  | .initial => s.expected.toList.isPrefixOf payload.toList

/-! ## Where the queue member stands -/

theorem locate_eq_some {k : String} {fs fs₁ : List Field} {f : Field}
    (h : locate k fs = some (fs₁, f)) :
    f.key = k ∧ (fs.filter fun f => decide (f.key = k)) = [f] ∧ ∃ fs₂, fs = fs₁ ++ f :: fs₂ := by
  simp only [locate] at h
  split at h
  · next g hg =>
    simp only [Option.some.injEq, Prod.mk.injEq] at h
    obtain ⟨rfl, rfl⟩ := h
    have hkey : g.key = k := by
      have : g ∈ fs.filter fun f => decide (f.key = k) := by rw [hg]; exact List.mem_cons_self ..
      simpa using (List.mem_filter.mp this).2
    refine ⟨hkey, hg, ?_⟩
    -- the first member that stops `takeWhile` is the one the filter finds
    clear hkey
    induction fs with
    | nil => simp at hg
    | cons a fs ih =>
      by_cases ha : a.key = k
      · rw [List.filter_cons_of_pos (by simpa using ha)] at hg
        obtain ⟨rfl, -⟩ := List.cons.inj hg
        exact ⟨fs, by simp [ha]⟩
      · rw [List.filter_cons_of_neg (by simpa using ha)] at hg
        obtain ⟨fs₂, h₂⟩ := ih hg
        refine ⟨fs₂, ?_⟩
        rw [List.takeWhile_cons_of_pos (by simpa using ha), List.cons_append, ← h₂]
  · cases h

/-- The text of an object can be split at any of its members. -/
theorem ObjectText.split {fs₁ fs₂ : List Field} {f : Field} {cs : List Char}
    (h : ObjectText (fs₁ ++ f :: fs₂) cs) :
    ∃ t w, Ws w ∧ cs = cs.takeWhile isWs ++ '{' :: (joined fs₁ ++ (t ++ w)) ∧
      Derives (.fields (f :: fs₂)) t ∧ (∀ g ∈ fs₁, g.Wf) ∧ f.Wf := by
  obtain ⟨w, t, w', hw, hw', rfl, hd | ⟨hnil, -⟩⟩ := h
  · obtain ⟨t₂, rfl, hd₂, hwf, hf⟩ := hd.split
    refine ⟨t₂, w', hw', ?_, hd₂, hwf, hf⟩
    rw [List.takeWhile_append_of_pos hw]
    simp [isWs]
  · simp at hnil

/-- Inside a string no comma is followed by a quote that begins another. -/
theorem not_inside_comma_quote {y z : List Char} : ¬ Inside (y ++ ',' :: '"' :: z) := by
  intro h
  generalize ht : y ++ ',' :: '"' :: z = t at h
  induction h generalizing y with
  | nil => simp at ht
  | @plain c t hq hb hin ih =>
    rcases y with _ | ⟨c', y⟩
    · obtain ⟨rfl, rfl⟩ := List.cons.inj ht
      cases hin with
      | plain hq' _ _ => exact hq' rfl
    · exact ih (List.cons.inj ht).2
  | @escaped c t hin ih =>
    rcases y with _ | ⟨c', _ | ⟨c'', y⟩⟩
    · cases ht
    · simp only [List.cons_append, List.nil_append, List.cons.injEq] at ht
      obtain ⟨-, rfl, rfl⟩ := ht
      cases hin with
      | plain hq' _ _ => exact hq' rfl
    · simp only [List.cons_append, List.cons.injEq] at ht
      exact ih ht.2.2

/-- White space ends with no other character. -/
theorem ws_nil_of_last {a b w : List Char} {c : Char} (hw : Ws w) (hc : isWs c = false)
    (h : a ++ [c] = b ++ w) : w = [] := by
  rcases List.eq_nil_or_concat' w with hw' | ⟨w', c', rfl⟩
  · exact hw'
  · rw [← List.append_assoc, List.append_singleton_inj] at h
    have := hw c' (by simp)
    rw [← h.2, hc] at this
    cases this

/-- The key in front of the queue's value is written without escapes or white
space, right behind a comma. -/
theorem lead_of_queueKey {k : String} {lead x : List Char} (hl : Lead k lead)
    (h : queueKey <:+ x ++ lead) : (∃ u, x = u ++ [',']) ∧ lead = queueKey.tail := by
  obtain ⟨w₁, t, w₂, w₃, hw₁, ht, hw₂, hw₃, rfl⟩ := hl
  obtain ⟨u, hu⟩ := h
  have h₃ : w₃ = [] := by
    refine ws_nil_of_last (a := u ++ [',', '"', 'q', 'u', 'e', 'u', 'e', '"']) (c := ':')
      (b := x ++ w₁ ++ '"' :: (t ++ '"' :: (w₂ ++ [':']))) hw₃ (by decide) ?_
    simpa [queueKey] using hu
  subst h₃
  have hu₂ : u ++ [',', '"', 'q', 'u', 'e', 'u', 'e'] ++ ['"'] =
      x ++ w₁ ++ '"' :: (t ++ ['"']) ++ w₂ := by
    have : (u ++ [',', '"', 'q', 'u', 'e', 'u', 'e', '"']) ++ [':'] =
        (x ++ w₁ ++ '"' :: (t ++ '"' :: w₂)) ++ [':'] := by simpa [queueKey] using hu
    have := (List.append_singleton_inj.mp this).1
    simpa using this
  have h₂ : w₂ = [] := ws_nil_of_last hw₂ (by decide) hu₂
  subst h₂
  have hu₁ : (u ++ [',']) ++ '"' :: ['q', 'u', 'e', 'u', 'e'] = (x ++ w₁) ++ '"' :: t := by
    have : (u ++ [',', '"', 'q', 'u', 'e', 'u', 'e']) ++ ['"'] = (x ++ w₁ ++ '"' :: t) ++ ['"'] := by
      simpa using hu₂
    have := (List.append_singleton_inj.mp this).1
    simpa using this
  have hboth : t = ['q', 'u', 'e', 'u', 'e'] ∧ u ++ [','] = x ++ w₁ := by
    rcases List.append_eq_append_iff.mp hu₁ with ⟨v, hv, he⟩ | ⟨v, hv, he⟩
    · rcases v with _ | ⟨c, v⟩
      · exact ⟨(List.cons.inj he).2.symm, by simpa using hv.symm⟩
      · -- a quote inside the word
        have : '"' ∈ ['q', 'u', 'e', 'u', 'e'] := by
          rw [(List.cons.inj he).2]
          simp
        simp at this
    · rcases v with _ | ⟨c, v⟩
      · exact ⟨(List.cons.inj he).2, by simpa using hv⟩
      · -- a comma and a bare quote inside the key
        obtain ⟨rfl, rfl⟩ : '"' = c ∧ t = v ++ ['"', 'q', 'u', 'e', 'u', 'e'] := List.cons.inj he
        rcases List.eq_nil_or_concat' v with rfl | ⟨v', c', rfl⟩
        · have := (List.append_singleton_inj.mp hv).2
          cases this
        · rw [← List.cons_append, ← List.append_assoc, List.append_singleton_inj] at hv
          obtain ⟨-, rfl⟩ := hv
          have hin := ht.inside
          rw [List.append_assoc] at hin
          exact absurd hin not_inside_comma_quote
  obtain ⟨rfl, hx⟩ := hboth
  have h₁ : w₁ = [] := ws_nil_of_last hw₁ (by decide) hx
  subst h₁
  exact ⟨⟨u, by simpa using hx.symm⟩, rfl⟩

/-- The last character of a text that is not white space is the same, however
the text is read. -/
theorem last_unique {a b w w' : List Char} {c c' : Char} (hw : Ws w) (hw' : Ws w')
    (hc : isWs c = false) (hc' : isWs c' = false) (h : a ++ c :: w = b ++ c' :: w') : c = c' := by
  have e : ∀ (x y : List Char) (z : Char), isWs z = false → Ws y →
      (x ++ z :: y).reverse.dropWhile isWs = z :: x.reverse := by
    intro x y z hz hy
    have hy' : Ws y.reverse := fun c hc => hy c (List.mem_reverse.mp hc)
    rw [List.reverse_append, List.reverse_cons, List.append_assoc, List.singleton_append]
    exact skipWs_append hy' hz
  have h₁ := e a w c hc hw
  rw [h, e b w' c' hc' hw'] at h₁
  exact (List.cons.inj h₁).1.symm

/-- The bracket a derived text ends with, if it ends with one. -/
def Closes : Cat → List Char → Prop
  | .fields _, t => ∃ t', t = t' ++ ['}']
  | .items _, t => ∃ t', t = t' ++ [']']
  | .value (.arr _), t => ∃ t', t = t' ++ [']']
  | .value _, _ => True

theorem closes_of_derives {c : Cat} {t : List Char} (h : Derives c t) : Closes c t := by
  induction h with
  | @arrNil w _ => exact ⟨'[' :: w, rfl⟩
  | arr _ ih =>
    obtain ⟨t', rfl⟩ := ih
    exact ⟨'[' :: t', rfl⟩
  | @lastItem v w t w' _ _ _ _ => exact ⟨w ++ (t ++ w'), by simp⟩
  | @item v vs w t w' _ _ _ _ _ _ ih =>
    obtain ⟨t', rfl⟩ := ih
    exact ⟨w ++ (t ++ (w' ++ ',' :: t')), by simp⟩
  | @lastField f _ _ _ _ => exact ⟨f.text, rfl⟩
  | @field f _ _ _ _ _ _ _ ih =>
    obtain ⟨t', rfl⟩ := ih
    exact ⟨f.text ++ ',' :: t', by simp⟩
  | _ => trivial

theorem array_start {vs : List Value} {t : List Char} (h : Derives (.value (.arr vs)) t) :
    ∃ t', t = '[' :: t' := by
  cases h with
  | arrNil _ => exact ⟨_, rfl⟩
  | arr _ => exact ⟨_, rfl⟩

/-! ## Soundness -/

/-- The queue of an envelope is that of its only queue member, or the third item of an array if it
is written as one. -/
theorem queue_of_decode {p : String} {e : JobEnvelope} (h : JobEnvelope.decode p = some e) :
    (∃ fs, rootFields p.toList = some fs ∧ fs ≠ [] ∧
      ∀ f ∈ fs, f.key = "queue" → f.value = .str e.queue) ∨
    ∃ a b q d, Json.parse p.toList = some (.arr [a, b, q, d]) := by
  obtain ⟨v, hv, he⟩ := Option.bind_eq_some_iff.mp h
  rw [JobEnvelope.ofJson.eq_def] at he
  split at he
  · next ms =>
    left
    obtain ⟨fs, hfs, rfl⟩ := parse_obj_iff.mp hv
    simp only [Option.bind_eq_bind, Option.bind_eq_some_iff, Option.pure_def] at he
    obtain ⟨id, -, job, -, queue, hq, jm, -, he⟩ := he
    cases he
    refine ⟨fs, hfs, ?_, fun f hf hk => ?_⟩
    · rintro rfl
      cases hq
    -- all members with this key are the one that was read
    simp only [required, fieldOf] at hq
    have hmem : f.member ∈ (fs.map Field.member).filter fun m => decide (m.1 = "queue") :=
      List.mem_filter.mpr ⟨List.mem_map_of_mem hf, by simp [Field.member, hk]⟩
    split at hq
    · next v hv =>
      split at hv
      · cases hv
      · next m hm =>
        rw [hm, List.mem_singleton] at hmem
        cases hv
        rw [← hmem] at hq
        rcases hval : f.value with _ | _ | _ | q | _ | _
        all_goals simp only [Field.member, hval, decodeString] at hq
        all_goals cases hq
        rfl
      · cases hv
    · cases hq
  · next a b q d => exact .inr ⟨a, b, q, d, hv⟩
  · cases he

/-- The snapshot of an object that is compared in part. -/
structure Cut (s : EnqueueSnapshot) (cs : List Char) where
  /-- the members before the queue -/
  fs₁ : List Field
  /-- the queue -/
  f : Field
  /-- the members behind it -/
  fs₂ : List Field
  /-- their text -/
  text : ObjectText (fs₁ ++ f :: fs₂) cs
  /-- the queue's key -/
  key : f.key = "queue"
  /-- the value of that member is the queue of the snapshot -/
  value : f.value = .str s.queue
  /-- it is written as envelopes write it -/
  written : queueKey <:+ textBefore cs fs₁ f

/-- What `parse` can return: a comparison of the whole payload, of its beginning, or of its end. -/
theorem EnqueueSnapshot.parse_cases {p : String} {s : EnqueueSnapshot}
    (h : EnqueueSnapshot.parse p = some s) :
    (s.comparison = .exact ∧ s.expected = p ∧
      ((∃ fs f, rootFields p.toList = some fs ∧ f ∈ fs ∧ f.key = "queue" ∧
        f.value = .str s.queue) ∨ Json.parse p.toList = some (.arr [.str s.queue]))) ∨
    ∃ o : Cut s p.toList,
      (s.comparison = .initial ∧
        s.expected.toList = textBefore p.toList o.fs₁ o.f ++ o.f.raw) ∨
      (s.comparison = .suffix ∧ s.expected.toList =
        p.toList.drop ((textBefore p.toList o.fs₁ o.f).length - queueKey.length)) := by
  rw [EnqueueSnapshot.parse] at h
  simp only at h
  split at h
  · next fs hfs =>
    split at h
    · next fs₁ f hloc =>
      obtain ⟨hkey, -, fs₂, rfl⟩ := locate_eq_some hloc
      split at h
      · next queue hq =>
        split at h
        · next hsuf =>
          rw [List.isSuffixOf_iff_suffix] at hsuf
          right
          split at h
          · cases h
            exact ⟨⟨fs₁, f, fs₂, rootFields_iff.mp hfs, hkey, hq, hsuf⟩, .inl ⟨rfl, by simp⟩⟩
          · cases h
            exact ⟨⟨fs₁, f, fs₂, rootFields_iff.mp hfs, hkey, hq, hsuf⟩, .inr ⟨rfl, by simp⟩⟩
        · cases h
          exact .inl ⟨rfl, rfl, .inl ⟨_, f, hfs, by simp, hkey, hq⟩⟩
      · cases h
    · cases h
  · split at h
    · next queue hq =>
      cases h
      exact .inl ⟨rfl, rfl, .inr hq⟩
    · cases h

/-- The text of an object around its queue member can be cut at the comma in front of it. -/
theorem Cut.split {s : EnqueueSnapshot} {cs : List Char} (o : Cut s cs) :
    ∃ t w, Ws w ∧ cs = cs.takeWhile isWs ++ '{' :: (joined o.fs₁ ++ (t ++ w)) ∧
      Derives (.fields (o.f :: o.fs₂)) t ∧ (∀ g ∈ o.fs₁, g.Wf) ∧ o.f.Wf :=
  ObjectText.split o.text

/-- The end of the text, from the comma before the queue on, is the rest of the object. -/
theorem Cut.ending {s : EnqueueSnapshot} {cs : List Char} (o : Cut s cs) :
    ∃ t w, Ws w ∧ Derives (.fields (o.f :: o.fs₂)) t ∧ (∃ t', t = '"' :: 'q' :: t') ∧
      cs.drop ((textBefore cs o.fs₁ o.f).length - queueKey.length) = ',' :: (t ++ w) := by
  obtain ⟨t, w, hw, hcs, hd, -, hf⟩ := o.split
  have hwr := o.written
  have e : textBefore cs o.fs₁ o.f =
      (cs.takeWhile isWs ++ '{' :: joined o.fs₁) ++ o.f.lead := by simp [textBefore]
  rw [e] at hwr
  obtain ⟨⟨u, hu⟩, hlead⟩ := lead_of_queueKey hf.lead hwr
  refine ⟨t, w, hw, hd, ?_, ?_⟩
  · obtain ⟨g, fs', hg, -, hrest⟩ := hd.uncons
    obtain ⟨rfl, -⟩ := List.cons.inj hg
    rcases hrest with ⟨-, rfl⟩ | ⟨t', rfl, -⟩
    · exact ⟨_, by rw [Field.text, hlead]; rfl⟩
    · exact ⟨_, by rw [Field.text, hlead]; rfl⟩
  · have hcs' : cs = u ++ ',' :: (t ++ w) := by
      have : cs = (cs.takeWhile isWs ++ '{' :: joined o.fs₁) ++ (t ++ w) := by
        rw [List.append_assoc, List.cons_append]
        exact hcs
      rw [hu] at this
      rw [this]
      simp
    have hlen : (textBefore cs o.fs₁ o.f).length - queueKey.length = u.length := by
      rw [e, hu, hlead]
      simp [queueKey]
    rw [hlen]
    nth_rewrite 1 [hcs']
    exact List.drop_left

/-- An object that begins with members is not the empty object. -/
theorem members_start {fs₁ : List Field} {f : Field} (hwf : ∀ g ∈ fs₁, g.Wf) (hf : f.Wf)
    {w₀ w' u : List Char} (hw₀ : Ws w₀) :
    w₀ ++ ['}'] ++ w' ≠ joined fs₁ ++ (f.lead ++ u) := by
  intro h
  have hclose : skipWs (w₀ ++ ['}'] ++ w') = '}' :: w' := by
    rw [List.append_assoc]
    exact skipWs_append hw₀ (by decide)
  obtain ⟨t, hopen⟩ : ∃ t, skipWs (joined fs₁ ++ (f.lead ++ u)) = '"' :: t := by
    cases fs₁ with
    | nil => exact lead_start hf.lead u
    | cons g fs₁ =>
      rw [joined, List.flatMap_cons]
      simp only [Field.text, List.append_assoc]
      exact lead_start (hwf g (List.mem_cons_self ..)).lead _
  rw [h, hopen] at hclose
  cases hclose

/-- **Soundness of the comparison**: an object that passes has the queue of the snapshot for a
member. -/
theorem EnqueueSnapshot.member_of_matches {p p' : String} {s : EnqueueSnapshot} {fs' : List Field}
    (hs : EnqueueSnapshot.parse p = some s) (hm : s.matches p')
    (hfs' : rootFields p'.toList = some fs') :
    ∃ f ∈ fs', f.key = "queue" ∧ f.value = .str s.queue := by
  -- it is enough to find the queue member among those of the other text
  have hfound {f : Field} (hkey : f.key = "queue") (hval : f.value = .str s.queue)
      (hmem : f.member ∈ fs'.map Field.member) :
      ∃ f ∈ fs', f.key = "queue" ∧ f.value = .str s.queue := by
    obtain ⟨g, hg, hgf⟩ := List.mem_map.mp hmem
    obtain ⟨hk, hv⟩ := Prod.mk.inj hgf
    exact ⟨g, hg, hk.trans hkey, hv.trans hval⟩
  rcases EnqueueSnapshot.parse_cases hs with ⟨hc, hex, horigin⟩ | ⟨o, hcmp⟩
  · -- the whole payload
    obtain rfl : p' = p := by simpa [EnqueueSnapshot.matches, hc, hex] using hm
    rcases horigin with ⟨fs, f, hfs, hf, hkey, hval⟩ | harr
    · rw [hfs] at hfs'
      cases hfs'
      exact ⟨f, hf, hkey, hval⟩
    · have := parse_obj_iff.mpr ⟨fs', hfs', rfl⟩
      rw [harr] at this
      cases this
  · obtain ⟨t, w, hw, hcs, hd, hwf, hf⟩ := o.split
    rcases hcmp with ⟨hc, hex⟩ | ⟨hc, hex⟩
    · -- the beginning
      obtain ⟨v, hv⟩ : s.expected.toList <+: p'.toList := by
        simpa [EnqueueSnapshot.matches, hc] using hm
      have hp' : p'.toList = p.toList.takeWhile isWs ++
          '{' :: (joined o.fs₁ ++ (o.f.lead ++ (o.f.raw ++ v))) := by
        rw [← hv, hex]
        simp [textBefore]
      have hws : Ws (p.toList.takeWhile isWs) := fun _ h => List.mem_takeWhile_imp h
      have hskip : skipWs p'.toList = '{' :: (joined o.fs₁ ++ (o.f.lead ++ (o.f.raw ++ v))) := by
        rw [hp']
        exact skipWs_append hws (by decide)
      obtain ⟨w₀, t', w', hw₀, hw', he', hobj⟩ := rootFields_iff.mp hfs'
      rw [he', skipWs_append hw₀ (by decide)] at hskip
      have htext := (List.cons.inj hskip).2
      rcases hobj with hd' | ⟨rfl, w₁, hw₁, rfl⟩
      · exact hfound o.key o.value (member_of_common_beginning hf ⟨_, o.value⟩ hwf hd' htext)
      · exact absurd htext (members_start hwf hf hw₁)
    · -- the end
      obtain ⟨t, w, hw, hd, hq, hend⟩ := o.ending
      obtain ⟨a, ha⟩ : s.expected.toList <:+ p'.toList := by
        simpa [EnqueueSnapshot.matches, hc] using hm
      rw [hex, hend] at ha
      obtain ⟨fs₁, rfl⟩ := fields_of_common_end (rootFields_iff.mp hfs') hd hw ha.symm (by decide) hq
      exact hfound o.key o.value (List.mem_map_of_mem (by simp))

/-- A stored envelope that passes the comparison names the queue of the snapshot. -/
theorem EnqueueSnapshot.queue_of_matches {p p' : String} {s : EnqueueSnapshot} {e : JobEnvelope}
    (hs : EnqueueSnapshot.parse p = some s) (hm : s.matches p')
    (he : JobEnvelope.decode p' = some e) : e.queue = s.queue := by
  rcases queue_of_decode he with ⟨fs', hfs', -, hall⟩ | ⟨a, b, q, d, harr⟩
  · obtain ⟨f, hf, hkey, hval⟩ := EnqueueSnapshot.member_of_matches hs hm hfs'
    have hvalue := hall f hf hkey
    rw [hval] at hvalue
    injection hvalue with hqueue
    exact hqueue.symm
  -- an envelope may also come as an array, which passes no comparison with an object
  · obtain ⟨w₀, t', w', hw₀, hd', hw', he'⟩ := parse_iff.mp harr
    rcases EnqueueSnapshot.parse_cases hs with ⟨hc, hex, horigin⟩ | ⟨o, hcmp⟩
    · obtain rfl : p' = p := by simpa [EnqueueSnapshot.matches, hc, hex] using hm
      rcases horigin with ⟨fs, f, hfs, -⟩ | harr'
      · have := parse_obj_iff.mpr ⟨fs, hfs, rfl⟩
        rw [harr] at this
        cases this
      · rw [harr] at harr'
        cases harr'
    · rcases hcmp with ⟨hc, hex⟩ | ⟨hc, hex⟩
      · obtain ⟨v, hv⟩ : s.expected.toList <+: p'.toList := by
          simpa [EnqueueSnapshot.matches, hc] using hm
        have hws : Ws (p.toList.takeWhile isWs) := fun _ h => List.mem_takeWhile_imp h
        have hskip : skipWs p'.toList = '{' :: (joined o.fs₁ ++ (o.f.lead ++ (o.f.raw ++ v))) := by
          rw [← hv, hex]
          simpa [textBefore] using skipWs_append hws (c := '{') (by decide)
        obtain ⟨t'', rfl⟩ := array_start hd'
        rw [he', List.cons_append, skipWs_append hw₀ (by decide)] at hskip
        cases hskip
      · -- an array ends with another bracket
        obtain ⟨t, w, hw, hd, hq, hend⟩ := o.ending
        obtain ⟨a, ha⟩ : s.expected.toList <:+ p'.toList := by
          simpa [EnqueueSnapshot.matches, hc] using hm
        rw [hex, hend] at ha
        obtain ⟨t₁, rfl⟩ := closes_of_derives hd
        obtain ⟨t₂, rfl⟩ := closes_of_derives hd'
        have : (a ++ ',' :: t₁) ++ '}' :: w = (w₀ ++ t₂) ++ ']' :: w' := by
          rw [he'] at ha
          simpa using ha
        have := last_unique hw hw' (by decide) (by decide) this
        cases this

/-- A payload passes the comparison with the snapshot that was taken of it. -/
theorem EnqueueSnapshot.matches_self {p : String} {s : EnqueueSnapshot}
    (hs : EnqueueSnapshot.parse p = some s) : s.matches p := by
  rcases EnqueueSnapshot.parse_cases hs with ⟨hc, hex, -⟩ | ⟨o, ⟨hc, hex⟩ | ⟨hc, hex⟩⟩
  · simp [EnqueueSnapshot.matches, hc, hex]
  · obtain ⟨t, w, hw, hcs, hd, hwf, hf⟩ := o.split
    obtain ⟨g, fs', hg, -, hrest⟩ := hd.uncons
    obtain ⟨rfl, -⟩ := List.cons.inj hg
    have : s.expected.toList <+: p.toList := by
      rw [hex]
      rcases hrest with ⟨-, rfl⟩ | ⟨t', rfl, -⟩
      · exact ⟨o.f.trail ++ '}' :: w, Eq.trans (by simp [textBefore, Field.text]) hcs.symm⟩
      · exact ⟨o.f.trail ++ ',' :: (t' ++ w),
          Eq.trans (by simp [textBefore, Field.text]) hcs.symm⟩
    simpa [EnqueueSnapshot.matches, hc] using this
  · have : s.expected.toList <:+ p.toList := by
      rw [hex]
      exact List.drop_suffix ..
    simpa [EnqueueSnapshot.matches, hc] using this

end Oxana
