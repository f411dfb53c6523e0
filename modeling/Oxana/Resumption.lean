import Mathlib.Data.List.Basic

/-!
# Work that is resumed

Items of a sequence are handed out one after the other, and how many have been completed is
remembered when an attempt at the whole is interrupted. The next attempt goes on behind the last
completed item. `Run` is what can happen; of any run it follows that nothing is left out and that
only what was interrupted is handed out again.
-/

namespace Resumption

variable {α : Type}

/-- What happens to a job that works through items. -/
inductive Event (α : Type) where
  /-- an attempt begins behind so many items -/
  | begins (cursor : ℕ)
  /-- it hands out an item -/
  | yields (value : α) (index : ℕ)
  /-- it is remembered that an item is completed -/
  | completes (index : ℕ)
  /-- there are no more items -/
  | reachesEnd
  /-- the attempt is interrupted -/
  | stops

/-- Where an attempt is: there is none, or it is between items or at one. -/
inductive Position where
  /-- there is none -/
  | idle
  /-- between two items -/
  | between
  /-- at one that is not completed -/
  | within
  deriving DecidableEq

/-- What can happen at a position when `c` items are completed, and how many are completed and what
the position is afterwards. -/
inductive Step (items : List α) : ℕ → Position → Event α → ℕ → Position → Prop
  | begins {c : ℕ} : Step items c .idle (.begins c) c .between
  | yields {c : ℕ} {v : α} : items[c]? = some v → Step items c .between (.yields v c) c .within
  | completes {c : ℕ} : Step items c .within (.completes c) (c + 1) .between
  | reachesEnd {c : ℕ} : items.length ≤ c → Step items c .between .reachesEnd c .idle
  | stops {c : ℕ} {p : Position} : p ≠ .idle → Step items c p .stops c .idle

/-- `Run items h c p`: all this has happened, `c` items are completed, and the attempt is there. -/
inductive Run (items : List α) : List (Event α) → ℕ → Position → Prop
  | fresh : Run items [] 0 .idle
  | next {h : List (Event α)} {e : Event α} {c c' : ℕ} {p p' : Position} : Run items h c p →
      Step items c p e c' p' → Run items (h ++ [e]) c' p'

/-- What has been handed out in a history, with the positions. -/
def yielded (h : List (Event α)) : List (α × ℕ) :=
  h.filterMap fun
    | .yields v i => some (v, i)
    | _ => none

/-- The positions of what has been completed in a history. -/
def completed (h : List (Event α)) : List ℕ :=
  h.filterMap fun
    | .completes i => some i
    | _ => none

section Append

variable (h h' : List (Event α))

@[simp] theorem yielded_append : yielded (h ++ h') = yielded h ++ yielded h' :=
  List.filterMap_append

@[simp] theorem completed_append : completed (h ++ h') = completed h ++ completed h' :=
  List.filterMap_append

end Append

variable {items : List α} {h a b d : List (Event α)} {c i s : ℕ} {p : Position} {v v' : α}

/-- An item is among the completed ones if the history has the event of its completion. -/
theorem mem_completed : i ∈ completed h ↔ .completes i ∈ h := by
  constructor
  · intro hi
    obtain ⟨e, he, hsome⟩ := List.mem_filterMap.mp hi
    cases e with
    | completes j =>
      cases hsome
      exact he
    | begins => cases hsome
    | yields => cases hsome
    | reachesEnd => cases hsome
    | stops => cases hsome
  · exact fun hi => List.mem_filterMap.mpr ⟨_, hi, rfl⟩

/-- An event of a history that grows by one is the last one, or it was there before. -/
theorem snoc_split {β : Type} {l a b : List β} {x y : β} (h : l ++ [x] = a ++ y :: b) :
    (l = a ∧ x = y ∧ b = []) ∨ ∃ b', b = b' ++ [x] ∧ l = a ++ y :: b' := by
  rcases List.eq_nil_or_concat b with rfl | ⟨b', z, rfl⟩
  · obtain ⟨rfl, hxy⟩ := List.append_inj' h rfl
    exact .inl ⟨rfl, List.singleton_inj.mp hxy, rfl⟩
  · right
    rw [List.concat_eq_append, ← List.cons_append, ← List.append_assoc] at h
    obtain ⟨rfl, hxz⟩ := List.append_inj' h rfl
    exact ⟨b', by rw [List.concat_eq_append, List.singleton_inj.mp hxz], rfl⟩

/-! ## Histories -/

/-- What came first in the history of a run was the history of a run itself. -/
theorem Run.before (hr : Run items h c p) (hsplit : h = a ++ b) : ∃ c' p', Run items a c' p' := by
  induction hr generalizing b with
  | fresh =>
    obtain ⟨rfl, rfl⟩ := List.append_eq_nil_iff.mp hsplit.symm
    exact ⟨0, .idle, .fresh⟩
  | next hr hstep ih =>
    rcases List.eq_nil_or_concat b with rfl | ⟨b', e, rfl⟩
    · rw [List.append_nil] at hsplit
      exact hsplit ▸ ⟨_, _, hr.next hstep⟩
    · rw [List.concat_eq_append, ← List.append_assoc] at hsplit
      exact ih (List.append_inj' hsplit rfl).1

/-- What came last in the history of a run was a step from where the run had come. -/
theorem Run.last {e : Event α} (hr : Run items (h ++ [e]) c p) :
    ∃ c' p', Run items h c' p' ∧ Step items c' p' e c p := by
  generalize hl : h ++ [e] = l at hr
  cases hr with
  | fresh => exact absurd hl (List.append_ne_nil_of_right_ne_nil h (List.cons_ne_nil e []))
  | next hr hstep =>
    obtain ⟨rfl, he⟩ := List.append_inj' hl rfl
    obtain rfl := List.singleton_inj.mp he
    exact ⟨_, _, hr, hstep⟩

/-- The items are completed in order, each of them once. -/
theorem Run.completed (hr : Run items h c p) : completed h = List.range c := by
  induction hr with
  | fresh => rfl
  | next _ hstep ih =>
    rw [completed_append, ih]
    cases hstep with
    | completes => exact List.range_succ.symm
    | begins => exact List.append_nil _
    | yields _ => exact List.append_nil _
    | reachesEnd _ => exact List.append_nil _
    | stops _ => exact List.append_nil _

/-! ## Nothing is left out -/

/-- What is completed, or being worked on, has been handed out. -/
theorem Run.mem_yielded (hr : Run items h c p) (hv : items[i]? = some v)
    (hi : i < c ∨ p = .within ∧ i = c) : (v, i) ∈ yielded h := by
  induction hr with
  | fresh => simp at hi
  | @next h e c c' p p' _ hstep ih =>
    rw [yielded_append, List.mem_append]
    cases hstep with
    | completes =>
      left
      refine ih ?_
      rcases hi with hi | ⟨hp, -⟩
      · rcases Nat.lt_succ_iff_lt_or_eq.mp hi with hi | hi
        · exact .inl hi
        · exact .inr ⟨rfl, hi⟩
      · cases hp
    | yields hc =>
      rcases hi with hi | ⟨-, rfl⟩
      · exact .inl (ih (.inl hi))
      · obtain rfl : _ = v := Option.some.inj (hc.symm.trans hv)
        exact .inr List.mem_cons_self
    | begins =>
      rcases hi with hi | ⟨hp, -⟩
      · exact .inl (ih (.inl hi))
      · cases hp
    | reachesEnd _ =>
      rcases hi with hi | ⟨hp, -⟩
      · exact .inl (ih (.inl hi))
      · cases hp
    | stops _ =>
      rcases hi with hi | ⟨hp, -⟩
      · exact .inl (ih (.inl hi))
      · cases hp

/-- **Nothing is left out**: when an attempt reaches the end, every item has been handed out. -/
theorem Run.all_yielded (hr : Run items h c p) (hsplit : h = a ++ .reachesEnd :: b)
    (hv : items[i]? = some v) : (v, i) ∈ yielded a := by
  rw [List.append_cons] at hsplit
  obtain ⟨c', p', hr'⟩ := hr.before hsplit
  obtain ⟨c, p, hr, hstep⟩ := hr'.last
  cases hstep with
  | reachesEnd hend =>
    have hlt := (List.getElem?_eq_some_iff.mp hv).1
    exact hr.mem_yielded hv (.inl (by omega))

/-! ## Order -/

/-- A list that begins another one and goes on as it should still begins it. -/
theorem prefix_snoc {β : Type} {l m : List β} {x : β} (h : l <+: m) (hx : m[l.length]? = some x) :
    l ++ [x] <+: m := by
  obtain ⟨t, rfl⟩ := h
  rw [List.getElem?_append_right (Nat.le_refl _), Nat.sub_self] at hx
  cases t with
  | nil => cases hx
  | cons y t =>
    cases hx
    exact ⟨t, by rw [List.append_assoc]; rfl⟩

/-- Since an attempt has begun, it has handed out the items behind those that were completed, in
order. -/
theorem Run.since (hr : Run items h c p) (hsplit : h = a ++ .begins s :: b)
    (hb : ∀ s', .begins s' ∉ b) : yielded b <+: items.zipIdx.drop s ∧
      (p = .between → s + (yielded b).length = c) ∧
      (p = .within → s + (yielded b).length = c + 1) := by
  induction hr generalizing b with
  | fresh => exact absurd hsplit.symm (List.append_ne_nil_of_right_ne_nil a (List.cons_ne_nil _ b))
  | @next h e c c' p p' hr hstep ih =>
    rcases snoc_split hsplit with ⟨-, he, rfl⟩ | ⟨b, rfl, hold⟩
    · subst he
      cases hstep with
      | begins => exact ⟨List.nil_prefix, fun _ => rfl, nofun⟩
    · obtain ⟨hbegun, hbetween, hwithin⟩ := ih hold
        fun s' hs' => hb s' (List.mem_append_left _ hs')
      rw [yielded_append]
      cases hstep with
      | begins => exact absurd (List.mem_append_right b (List.mem_singleton_self _)) (hb c)
      | yields hv =>
        have hlen := hbetween rfl
        refine ⟨prefix_snoc hbegun ?_, nofun, fun _ => ?_⟩
        · rw [List.getElem?_drop, hlen, List.getElem?_zipIdx, hv]
          simp
        · rw [List.length_append]
          simp only [yielded, List.filterMap_cons, List.filterMap_nil, List.length_cons,
            List.length_nil] at hlen ⊢
          omega
      | completes =>
        have hlen := hwithin rfl
        refine ⟨?_, fun _ => ?_, nofun⟩
        · simpa [yielded] using hbegun
        · simpa [yielded] using hlen
      | reachesEnd _ =>
        refine ⟨?_, nofun, nofun⟩
        simpa [yielded] using hbegun
      | stops _ =>
        refine ⟨?_, nofun, nofun⟩
        simpa [yielded] using hbegun

/-- **In order**: what any attempt hands out begins behind the items completed before. -/
theorem Run.in_order (hr : Run items h c p) (hsplit : h = a ++ .begins s :: b ++ d)
    (hb : ∀ s', .begins s' ∉ b) : yielded b <+: items.zipIdx.drop s := by
  obtain ⟨_, _, hr'⟩ := hr.before hsplit
  exact (hr'.since rfl hb).1

/-! ## Once more -/

/-- What has been handed out is completed, or its attempt was interrupted, or the attempt is still
at it. -/
theorem Run.after_yield (hr : Run items h c p) (hsplit : h = a ++ .yields v i :: b) :
    .completes i ∈ b ∨ .stops ∈ b ∨ (p = .within ∧ i = c) := by
  induction hr generalizing b with
  | fresh => exact absurd hsplit.symm (List.append_ne_nil_of_right_ne_nil a (List.cons_ne_nil _ b))
  | @next h e c c' p p' hr hstep ih =>
    rcases snoc_split hsplit with ⟨-, he, rfl⟩ | ⟨b, rfl, hold⟩
    · subst he
      cases hstep with
      | yields _ => exact .inr (.inr ⟨rfl, rfl⟩)
    · rcases ih hold with hin | hin | ⟨rfl, rfl⟩
      · exact .inl (List.mem_append_left _ hin)
      · exact .inr (.inl (List.mem_append_left _ hin))
      · cases hstep with
        | completes => exact .inl (List.mem_append_right _ (List.mem_singleton_self _))
        | stops _ => exact .inr (.inl (List.mem_append_right _ (List.mem_singleton_self _)))

/-- **Once more only after an interruption**: an item that is handed out again has not been
completed, and an attempt was interrupted in between. -/
theorem Run.again (hr : Run items h c p)
    (hsplit : h = a ++ .yields v i :: b ++ .yields v' i :: d) :
    .stops ∈ b ∧ .completes i ∉ a ++ b := by
  rw [List.append_cons] at hsplit
  obtain ⟨_, _, hr'⟩ := hr.before hsplit
  obtain ⟨_, _, hr, hstep⟩ := hr'.last
  cases hstep with
  | yields _ =>
    have hnot : .completes i ∉ a ++ .yields v i :: b := by
      rw [← mem_completed, hr.completed]
      exact by simp
    have hnot' : .completes i ∉ a ++ b := fun h => hnot (by
      rcases List.mem_append.mp h with h | h
      · exact List.mem_append_left _ h
      · exact List.mem_append_right _ (List.mem_cons_of_mem _ h))
    refine ⟨?_, hnot'⟩
    rcases hr.after_yield rfl with h | h | ⟨h, -⟩
    · exact absurd (List.mem_append_right a h) hnot'
    · exact h
    · cases h

/-! ## Progress -/

/-- The number of completed items grows from one part of a run to the next. -/
theorem Run.grows {c' : ℕ} {p' : Position} (hr : Run items h c p) (hr' : Run items (h ++ b) c' p') :
    c ≤ c' := by
  have hlen := congrArg List.length hr'.completed
  rw [completed_append, List.length_append, hr.completed, List.length_range,
    List.length_range] at hlen
  omega

end Resumption
