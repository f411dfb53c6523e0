import Oxana.Interleave.Account
import Oxana.Releases
import Oxana.Runtime

/-!
# Answering for claims

What a process has to answer for are the ids on its processing list, until it is told to stop. This
is the account of it, with a rule for each combinator the tasks are written with, and what becomes
of the claims of jobs that are built, executed and finished: if that succeeds, they are gone, and if
it does not, at most these claims are left.
-/

namespace Oxana

open Redis Interleave Call

variable {H : Handle} {α β : Type}

/-! ## The account -/

/-- The ids of these jobs, with repetitions and without an order. -/
def idsOf (es : List JobEnvelope) : Multiset JobId := (es.map (·.id) : List JobId)

namespace Memory

/-- The jobs that wait for somebody to take them over. -/
def kept (m : Memory) : Multiset JobId :=
  (m.jobs.map (·.2) : List JobId) + idsOf (m.batched.map (·.2)) +
    (m.spawned.flatMap (·.ids) : List JobId) + (m.joinset.flatMap (·.ids) : List JobId)

/-- Unless everything stops, nothing is in a channel from which nobody receives any more. -/
def Open (m : Memory) : Prop :=
  m.cancelled = false → (∀ p ∈ m.jobs, p.1 ∉ m.stopped) ∧ ∀ p ∈ m.batched, p.1 ∉ m.closed

/-- A step within the process: it stops everything, it passes jobs on between the client and the
memory, of which none is lost and none is new, or the memory keeps all that the client had in its
hands. -/
inductive Passes : Hands JobId → Hands JobId → Memory → Memory → Prop
  | closes {h h' : Hands JobId} {m m' : Memory} : m'.cancelled = true → Passes h h' m m'
  | passes {T T' : Multiset JobId} {m m' : Memory} : m'.cancelled = m.cancelled →
      (m.Open → m'.Open) → m.kept + T = m'.kept + T' → Passes (some T) (some T') m m'
  | leaves {T : Multiset JobId} {m m' : Memory} : m'.cancelled = m.cancelled →
      (m.Open → m'.Open) → m.kept + T ≤ m'.kept → Passes (some T) (some 0) m m'

end Memory

/-- What a process has to answer for are its claims, as long as it has not been told to stop. -/
def Handle.account (H : Handle) : Account (World Memory) JobId where
  valid w := StoredUnder H.keys w.store ∧ w.ghost.Open
  claims w := w.store.list H.currentProcessingQueue
  kept w := w.ghost.kept
  closed w := w.ghost.cancelled = true

/-! ## Rules -/

/-- What a call leaves in the hands of the client: as `Q` says if it returns a value, and as `E`
says if it returns an error. -/
def HandedBack (Q : α → Hands JobId → Prop) (E : Hands JobId → Prop) :
    Except OxanaError α → Hands JobId → Prop
  | .ok a, h => Q a h
  | .error _, h => E h

/-- The call answers for what is in the hands of the client; `Q` holds of what it returns and of
what is left, or `E` of what is left after an error. -/
abbrev Call.Answers (H : Handle) (Q : α → Hands JobId → Prop) (E : Hands JobId → Prop)
    (h : Hands JobId) (x : Call Memory α) : Prop :=
  H.account.Answers (HandedBack Q E) h x

namespace Call.Answers

variable {Q : α → Hands JobId → Prop} {R : β → Hands JobId → Prop} {E F : Hands JobId → Prop}
  {h : Hands JobId}

theorem pure {a : α} (ha : Q a h) : Answers H Q E h (pure a) := ha

theorem fail {e : OxanaError} (he : E h) : Answers H Q E h (fail e) := he

theorem hang : Answers H Q E h (hang : Call Memory α) := trivial

theorem ask {k : Choice → Call Memory α} (hk : ∀ c, Answers H Q E h (k c)) :
    Answers H Q E h (ask k) := hk

/-- A call whose errors are caught answers for its claims if it does until then, and if what is done
with the result or the error goes on with them. -/
theorem catching {x : Call Memory α} {f : Except OxanaError α → Call Memory β}
    (hx : Answers H Q E h x) (hok : ∀ a h', Q a h' → Answers H R F h' (f (.ok a)))
    (herr : ∀ e h', E h' → Answers H R F h' (f (.error e))) : Answers H R F h (catching x f) := by
  refine Account.Answers.bind hx fun r h' hr => ?_
  cases r with
  | ok a => exact hok a h' hr
  | error e => exact herr e h' hr

/-- A sequence of calls answers for its claims if the first one does, and the second goes on with
what is left of them. -/
theorem bind {x : Call Memory α} {f : α → Call Memory β} (hx : Answers H Q E h x)
    (hf : ∀ a h', Q a h' → Answers H R E h' (f a)) : Answers H R E h (x >>= f) := by
  refine Account.Answers.bind hx fun r h' hr => ?_
  cases r with
  | ok a => exact hf a h' hr
  | error e => exact hr

theorem mono {x : Call Memory α} {Q' : α → Hands JobId → Prop} (hx : Answers H Q E h x)
    (hQ : ∀ a h', Q a h' → Q' a h') (hE : ∀ h', E h' → F h') : Answers H Q' F h x := by
  refine Account.Answers.mono hx fun r h' hr => ?_
  cases r with
  | ok a => exact hQ a h' hr
  | error e => exact hE h' hr

/-- The client may not know more than that everything stops; then it answers for nothing. -/
theorem forget {x : Call Memory α} (hx : Answers H Q E h x) :
    Answers H (fun a h' => h' = none ∧ ∃ h₀, Q a h₀) (fun h' => h' = none ∧ ∃ h₀, E h₀) none x := by
  refine Account.Answers.mono (Account.Answers.forget hx) fun r h' hr => ?_
  cases r with
  | ok a => exact hr
  | error e => exact hr

/-- What is done in memory alone answers for the claims if it passes them on. -/
theorem locally {f : Memory → α × Memory} (hf : ∀ m, (h = none → m.cancelled = true) →
      ∃ h', Q (f m).1 h' ∧ m.Passes h h' (f m).2) : Answers H Q E h (locally f) := by
  intro w hw hknown
  obtain ⟨h', hQ, hpass⟩ := hf w.ghost hknown
  refine ⟨h', ?_, hQ⟩
  cases hpass with
  | closes hclosed =>
    refine .close ⟨hw.1, fun hopen => ?_⟩ hclosed
    rw [hclosed] at hopen
    cases hopen
  | @passes T T' _ _ hsame hopen heq =>
    refine .of_le ⟨hw.1, hopen hw.2⟩ (fun hc => hsame.trans hc) (fun U hU => ?_) ?_
    · rw [← add_assoc] at hU ⊢
      exact hU.trans (le_of_eq (congrArg (· + U) heq))
    · refine Multiset.le_iff_count.mpr fun id => ?_
      have hid := congrArg (Multiset.count id) heq
      simp only [Account.booked, Handle.account, Multiset.count_add, Multiset.count_sub] at hid ⊢
      omega
  | leaves hsame hopen hle =>
    refine .of_le ⟨hw.1, hopen hw.2⟩ (fun hc => hsame.trans hc) (fun U hU => ?_)
      (Multiset.zero_le _)
    rw [← add_assoc] at hU ⊢
    rw [add_zero]
    exact hU.trans (add_le_add hle le_rfl)

/-- A request answers for the claims if it trades them, whether or not its reply arrives. -/
theorem send {l : Request} {x : Script α} (hlost : E h)
    (hx : ∀ w, H.account.valid w → ∃ h', H.account.Trades h h' w (w.after x) ∧ E h' ∧
      ∀ a, (x w.store).1 = .ok a → Q a h') : Answers H Q E h (send l x) := by
  refine .ask fun c => ?_
  rcases c.delivery with _ | _ | _
  · exact .fail hlost
  · intro w hw _
    obtain ⟨h', htr, hE, -⟩ := hx w hw
    exact ⟨h', htr, hE⟩
  · intro w hw _
    obtain ⟨h', htr, hE, hQ⟩ := hx w hw
    refine ⟨h', htr, ?_⟩
    show HandedBack Q E (replyOf (x w.store).1) h'
    rcases hr : (x w.store).1 with e | a
    · exact hE
    · exact hQ a hr

end Call.Answers

/-- At most these items are in the hands of the client, each at most as often as it is in `T`. -/
def AtMost (T : Multiset JobId) (h : Hands JobId) : Prop := ∃ T' ≤ T, h = some T'

theorem AtMost.refl (T : Multiset JobId) : AtMost T (some T) := ⟨T, le_rfl, rfl⟩

theorem AtMost.mono {T U : Multiset JobId} {h : Hands JobId} (hw : AtMost T h) (hle : T ≤ U) :
    AtMost U h := by
  obtain ⟨T', hT', rfl⟩ := hw
  exact ⟨T', hT'.trans hle, rfl⟩

/-- Whatever a request does that takes claims away at most: what the client then has in its hands by
the books is no more than before. -/
theorem Tends.booked_le {T : Multiset JobId} {w w' : World Memory}
    (h : Tends H w.store w'.store) (hkept : w'.ghost = w.ghost) : H.account.booked T w w' ≤ T := by
  have hsame : H.account.kept w' = H.account.kept w := congrArg Memory.kept hkept
  refine Multiset.le_iff_count.mpr fun id => ?_
  have hclaims : (H.account.claims w').count id ≤ (H.account.claims w).count id :=
    Multiset.count_le_of_le id h.claims
  simp only [Account.booked, hsame, Multiset.count_add, Multiset.count_sub]
  omega

/-- A request that takes one claim of each of these ids away frees the client of one of each. -/
theorem Frees.answers {ids : List JobId} {T : Multiset JobId} {l : Request} {x : Script α}
    (hx : Frees H ids x) :
    Answers H (fun _ h' => h' = some T) (AtMost (ids + T)) (some (ids + T)) (send l x) := by
  refine .send (.refl _) fun w hw => ?_
  obtain ⟨htends, hfrees⟩ := hx w.store
  have hvalid : H.account.valid (w.after x) := ⟨htends.storedUnder hw.1, hw.2⟩
  rcases hr : (x w.store).1 with e | a
  · have hle : H.account.booked (ids + T) w (w.after x) ≤ ids + T := Tends.booked_le htends rfl
    refine ⟨_, .of_booked hvalid id, ⟨_, hle, rfl⟩, fun a ha => ?_⟩
    cases ha
  · have hreleased : H.account.claims (w.after x) = H.account.claims w - ids :=
      (hfrees a hr).released
    refine ⟨some T, .of_le hvalid id (fun U hU => ?_) ?_, ⟨T, ?_, rfl⟩, fun _ _ => rfl⟩
    · rw [hreleased]
      refine tsub_le_iff_right.mpr (hU.trans (le_of_eq ?_))
      show w.ghost.kept + (ids + T + U) = w.ghost.kept + (T + U) + ids
      rw [add_assoc (ids : Multiset JobId), add_comm (ids : Multiset JobId) (T + U), ← add_assoc]
    · refine Multiset.le_iff_count.mpr fun id => ?_
      have hkept : H.account.kept (w.after x) = H.account.kept w := rfl
      simp only [Account.booked, hreleased, hkept, Multiset.count_add, Multiset.count_sub]
      omega
    · exact Multiset.le_add_left _ _

/-- A request that takes all claims of an id away frees the client of it. -/
theorem Clears.answers {id : JobId} {l : Request} {x : Script α} (hx : Clears H id x) :
    Answers H (fun _ h' => h' = some 0) (AtMost {id}) (some {id}) (send l x) := by
  refine .send (.refl _) fun w hw => ?_
  obtain ⟨htends, hclears⟩ := hx w.store
  have hvalid : H.account.valid (w.after x) := ⟨htends.storedUnder hw.1, hw.2⟩
  rcases hr : (x w.store).1 with e | a
  · have hle : H.account.booked {id} w (w.after x) ≤ {id} := Tends.booked_le htends rfl
    refine ⟨_, .of_booked hvalid (fun hc => hc), ⟨_, hle, rfl⟩, fun a ha => ?_⟩
    cases ha
  · refine ⟨some 0, .of_le hvalid (fun hc => hc) (fun U hU => ?_) (Multiset.zero_le _),
      ⟨0, Multiset.zero_le _, rfl⟩, fun _ _ => rfl⟩
    -- of the id nothing is left, and the others were covered without it
    refine Multiset.le_iff_count.mpr fun id' => ?_
    by_cases hid : id' = id
    · subst hid
      have hgone : Multiset.count id' (H.account.claims (w.after x)) = 0 :=
        Multiset.count_eq_zero.mpr (hclears a hr)
      rw [hgone]
      exact Nat.zero_le _
    · refine (Multiset.count_le_of_le id' htends.claims).trans ?_
      have hcovered := Multiset.le_iff_count.mp hU id'
      simp only [Multiset.count_add, Multiset.count_singleton, if_neg hid, zero_add] at hcovered ⊢
      exact hcovered

section Process

variable {Q : α → Hands JobId → Prop} {E : Hands JobId → Prop} {h : Hands JobId}

/-- A call that leaves everything as it is, followed by another one that answers for the claims. -/
theorem Call.Answers.after {T : Multiset JobId} {P : β → Prop} {x : Call Memory β}
    {f : β → Call Memory α}
    (hx : Answers H (fun b h' => h' = some T ∧ P b) (fun h' => h' = some T) (some T) x)
    (hf : ∀ b, P b → Answers H Q (AtMost T) (some T) (f b)) :
    Answers H Q (AtMost T) (some T) (x >>= f) := by
  refine (hx.mono (F := AtMost T) (fun _ _ hh => hh) ?_).bind fun b h' hh => ?_
  · rintro h' rfl
    exact .refl T
  · obtain ⟨rfl, hb⟩ := hh
    exact hf b hb

end Process

end Oxana
