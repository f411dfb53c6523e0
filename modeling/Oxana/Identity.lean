import Oxana.Cron
import Oxana.Executor
import Oxana.Holding
import Oxana.Json.Length

/-!
# What a job is, apart from what happens to it

A job keeps its id, what it is and how it was enqueued from its first to its last
transition; its retries, its error, its state and the mark of its last start
change. `JobEnvelope.identity` is the part that stays.

Where it stays is said of the store as a whole (`jobContents`): every payload
stored under the job's id and every list item that is an envelope of the job has
this identity, and everything else in lists and sorted sets was mentioned there
before or is the job's id.
-/

namespace Oxana

open Redis Interleave Call

/-! ## Identity -/

/-- What no transition of a job changes. -/
structure JobIdentity where
  /-- under which it is stored -/
  id : JobId
  /-- the id in the metadata -/
  metaId : JobId
  /-- the queue it belongs to -/
  queue : String
  /-- under which the worker is registered -/
  name : String
  /-- the serialized job -/
  args : Json.Value
  /-- whether it comes from the on-demand catalog -/
  onDemand : Option Bool
  /-- whether the id is deterministic -/
  unique : Bool
  /-- for unique jobs -/
  onConflict : Option JobConflictStrategy
  /-- when it was built -/
  createdAt : Int64
  /-- when it is due -/
  scheduledAt : Int64
  /-- whether an interrupted attempt is repeated -/
  resurrect : Bool
  /-- what it counts for a throttled queue -/
  throttleCost : Option UInt64

namespace JobEnvelope

/-- The identity of the job in an envelope. -/
def identity (e : JobEnvelope) : JobIdentity where
  id := e.id
  metaId := e.jobMeta.id
  queue := e.queue
  name := e.job.name
  args := e.job.args
  onDemand := e.jobMeta.onDemand
  unique := e.jobMeta.unique
  onConflict := e.jobMeta.onConflict
  createdAt := e.jobMeta.createdAt
  scheduledAt := e.jobMeta.scheduledAt
  resurrect := e.jobMeta.resurrect
  throttleCost := e.jobMeta.throttleCost

/-- The envelope with the mark of the on-demand catalog. -/
def markedOnDemand (e : JobEnvelope) : JobEnvelope :=
  { e with jobMeta := { e.jobMeta with onDemand := some true } }

/-- The envelopes that are built, of jobs whose arguments are values as they are
held in memory. -/
inductive Constructed : JobEnvelope → Prop
  /-- `JobEnvelope::new` -/
  | new (uuid : JobId) (now now' : Int64) (queue : String) {job : Job} :
      canon job.args = job.args → Constructed (.new uuid now now' queue job)
  /-- `JobEnvelope::new_scheduled` -/
  | scheduled (uuid : JobId) (now now' now'' at' : Int64) (queue : String) {job : Job} :
      canon job.args = job.args →
      Constructed ((JobEnvelope.new uuid now now' queue job).withScheduledAt now'' at')
  /-- `JobEnvelope::new_cron` -/
  | cron {t scheduledAt : Int64} {queue : String} {occurrenceId : JobId} {job : Job}
      {resurrect declaredUnique : Bool} {e : JobEnvelope} : canon job.args = job.args →
      newCron t queue occurrenceId job scheduledAt resurrect = some (e, declaredUnique) →
      Constructed e
  /-- one from the catalog -/
  | onDemand {e : JobEnvelope} : Constructed e → Constructed e.markedOnDemand

/-- Envelopes that the library constructs have their id twice, the same both times, and their
arguments as they are read again. -/
theorem Constructed.consistent {e : JobEnvelope} (h : e.Constructed) :
    e.jobMeta.id = e.id ∧ canon e.job.args = e.job.args := by
  induction h with
  | new _ _ _ _ hargs => exact ⟨rfl, hargs⟩
  | scheduled _ _ _ _ _ _ hargs => exact ⟨rfl, hargs⟩
  | @cron t scheduledAt queue occurrenceId job resurrect declaredUnique e hargs hnew =>
    rw [newCron] at hnew
    split at hnew
    · cases hnew
    · cases hid : job.uniqueJobId with
      | none =>
        rw [hid] at hnew
        cases hnew
        exact ⟨rfl, hargs⟩
      | some id =>
        rw [hid] at hnew
        cases hnew
        exact ⟨rfl, hargs⟩
  | onDemand _ ih => exact ih

/-- The id of an envelope is shorter than its text, since the text contains it in quotes. -/
theorem id_length_lt {p : String} {e : JobEnvelope} (h : decode p = some e) :
    e.id.length < p.length := by
  rw [decode] at h
  obtain ⟨v, hv, he⟩ := Option.bind_eq_some_iff.mp h
  have hstring {v : Json.Value} (hv : decodeString v = some e.id) : v = .str e.id := by
    cases v with
    | str s =>
      cases hv
      rfl
    | null => cases hv
    | bool => cases hv
    | num => cases hv
    | arr => cases hv
    | obj => cases hv
  have hshows : (Json.Cat.value v).shows e.id := by
    cases v with
    | obj ms =>
      rw [ofJson] at he
      obtain ⟨id, hid, he⟩ := Option.bind_eq_some_iff.mp he
      obtain ⟨_, -, he⟩ := Option.bind_eq_some_iff.mp he
      obtain ⟨_, -, he⟩ := Option.bind_eq_some_iff.mp he
      obtain ⟨_, -, he⟩ := Option.bind_eq_some_iff.mp he
      cases he
      refine .inr (.inr ⟨ms, rfl, ?_⟩)
      rw [required, fieldOf] at hid
      split at hid
      · next v hfield =>
        split at hfield
        · cases hfield
        · next m hm =>
          cases hfield
          have hmem : m ∈ ms.filter fun m => m.1 = "id" := hm ▸ List.mem_singleton_self m
          exact List.mem_map.mpr ⟨m, (List.mem_filter.mp hmem).1, hstring hid⟩
        · cases hfield
      · cases hid
    | arr vs =>
      refine .inr (.inl ⟨vs, rfl, ?_⟩)
      rw [ofJson.eq_def] at he
      split at he
      · next h => cases h
      · next id _ _ _ h =>
        cases h
        obtain ⟨s, hs, he⟩ := Option.bind_eq_some_iff.mp he
        obtain ⟨_, -, he⟩ := Option.bind_eq_some_iff.mp he
        obtain ⟨_, -, he⟩ := Option.bind_eq_some_iff.mp he
        obtain ⟨_, -, he⟩ := Option.bind_eq_some_iff.mp he
        cases he
        rw [hstring hs]
        exact List.mem_cons_self
      · cases he
    | null => cases he
    | bool => cases he
    | num => cases he
    | str => cases he
  have hlt := Json.length_lt_of_parse hv hshows
  rwa [String.length_toList] at hlt

/-! ## Envelopes of one job -/

/-- The envelope is one of the job `e₀`: after it was written and read again, what identifies a job
is the same. -/
def Continues (e₀ e : JobEnvelope) : Prop := e.normalize.identity = e₀.identity

/-- The text is an envelope that continues the job `e₀`. -/
def Spells (e₀ : JobEnvelope) (x : String) : Prop := ∃ e, x = e.encode ∧ Continues e₀ e

variable {e₀ e : JobEnvelope}

/-- The envelope that is enqueued continues itself. -/
theorem Constructed.continues (h : e₀.Constructed) : Continues e₀ e₀ := by
  have hargs : e₀.normalize.identity = { e₀.identity with args := canon e₀.job.args } := rfl
  rw [Continues, hargs, h.consistent.2]
  rfl

theorem Continues.id_eq (h : Continues e₀ e) : e.id = e₀.id := congrArg JobIdentity.id h

/-- What is read from a text that spells the job has its identity, and continues it. -/
theorem Spells.decode {x : String} (h : Spells e₀ x) (hx : JobEnvelope.decode x = some e) :
    e.identity = e₀.identity ∧ Continues e₀ e := by
  obtain ⟨e', rfl, he'⟩ := h
  rw [decode_encode] at hx
  cases hx
  refine ⟨he', ?_⟩
  rw [Continues, normalize_normalize]
  exact he'

/-- A text that spells the job can be read, and what is read has its identity. -/
theorem Spells.readable {x : String} (h : Spells e₀ x) :
    ∃ e, JobEnvelope.decode x = some e ∧ e.identity = e₀.identity := by
  obtain ⟨e, rfl, he⟩ := h
  exact ⟨e.normalize, decode_encode e, he⟩

/-- A new attempt, a saved state, a reset state and an error leave the identity of a job alone. -/
theorem Continues.transition (h : Continues e₀ e) (t : Int64) (state : Json.Value)
    (error : String) :
    Continues e₀ (e.withStartedAt t) ∧ Continues e₀ (e.withState state) ∧
      Continues e₀ e.withoutState ∧ Continues e₀ (e.withError error) := ⟨h, h, h, h⟩

/-- A retry writes the id into the metadata, where it is already, so it leaves the identity alone
too. -/
theorem Continues.withRetriesIncremented (h : Continues e₀ e) (hid : e₀.jobMeta.id = e₀.id)
    (error : String) : Continues e₀ (e.withRetriesIncremented error) := by
  have hmeta : (e.withRetriesIncremented error).normalize.identity =
      { e.normalize.identity with metaId := e.id } := rfl
  have hsame : { e₀.identity with metaId := e₀.identity.id } = e₀.identity := by
    rw [identity, hid]
  calc (e.withRetriesIncremented error).normalize.identity
    _ = { e.normalize.identity with metaId := e.id } := hmeta
    _ = { e₀.identity with metaId := e₀.identity.id } := by rw [h, h.id_eq, identity]
    _ = e₀.identity := hsame

end JobEnvelope

open JobEnvelope

/-! ## Texts that mention ids -/

/-- What these texts mention: themselves, and what is the id of an envelope that is mentioned. -/
inductive Mentioned (texts : String → Prop) : String → Prop
  | text {x : String} : texts x → Mentioned texts x
  | inside {x : String} {e : JobEnvelope} : Mentioned texts x → decode x = some e →
      Mentioned texts e.id

/-- What is an item of a list or a member of a sorted set. -/
def Listed (s : Store) (x : String) : Prop :=
  (∃ k, x ∈ s.list k) ∨ ∃ k score, (s.zset k).lookup x = some score

/-- The text is not an envelope under this id. -/
def ForeignTo (id : JobId) (x : String) : Prop := ∀ e, decode x = some e → e.id ≠ id

/-- No text mentions an envelope under the id when only the id comes along, since an envelope inside
a text is shorter than it. -/
theorem foreign_of_mentioned {texts : String → Prop} {id : JobId}
    (htexts : ∀ x, Mentioned texts x → ForeignTo id x) {x : String}
    (h : Mentioned (fun x => x = id ∨ texts x) x) : ForeignTo id x := by
  have hshort : Mentioned texts x ∨ x.length ≤ id.length := by
    induction h with
    | text hx =>
      rcases hx with rfl | hx
      · exact .inr (le_refl _)
      · exact .inl (.text hx)
    | inside _ he ih =>
      rcases ih with hx | hle
      · exact .inl (.inside hx he)
      · exact .inr ((id_length_lt he).le.trans hle)
  rcases hshort with hx | hle
  · exact htexts x hx
  · rintro e he rfl
    exact absurd (id_length_lt he) (not_lt.mpr hle)

/-! ## The store -/

/-- What the store may hold: under the id of the job its envelopes, in lists these and what was
mentioned in the beginning, and in sorted sets what was mentioned. -/
def jobContents (K : StorageKeys) (e₀ : JobEnvelope) (s₀ : Store) : Contents where
  hash := K.jobs
  field f v := f = e₀.id → Spells e₀ v
  item x := Mentioned (fun x => x = e₀.id ∨ Listed s₀ x) x ∨ Spells e₀ x
  member x := Mentioned (fun x => x = e₀.id ∨ Listed s₀ x) x

section Job

variable {γ : Type} {K : StorageKeys} {e₀ : JobEnvelope} {s₀ : Store}

/-- In the beginning the store holds the job as it was enqueued, and nothing else under its id. -/
theorem jobContents_start (h : e₀.Constructed)
    (hstored : payloadOf K.jobs s₀ e₀.id = some e₀.encode) : (jobContents K e₀ s₀).Hold s₀ := by
  refine ⟨?_, fun k x hx => .inl (.text (.inr (.inl ⟨k, hx⟩))),
    fun k x score hx => .text (.inr (.inr ⟨k, score, hx⟩))⟩
  rintro f v hf rfl
  obtain rfl : e₀.encode = v := Option.some.inj (hstored.symm.trans hf)
  exact ⟨e₀, rfl, h.continues⟩

/-- An envelope that continues the job may be written under its id. -/
theorem jobContents_accepts_job {e : JobEnvelope} (he : Continues e₀ e) :
    (jobContents K e₀ s₀).Accepts e.id e.encode :=
  have hid : Mentioned (fun x => x = e₀.id ∨ Listed s₀ x) e.id := .text (.inl he.id_eq)
  ⟨fun _ => ⟨e, rfl, he⟩, .inl hid, hid⟩

/-- So may any other envelope that is read from a list, since it is not one of the job. -/
theorem jobContents_accepts (hforeign : ∀ x, Mentioned (Listed s₀) x → ForeignTo e₀.id x)
    {x : String} {e : JobEnvelope} (hx : (jobContents K e₀ s₀).item x) (he : decode x = some e) :
    (jobContents K e₀ s₀).Accepts e.id e.encode := by
  rcases hx with hx | hx
  · have hid := hx.inside he
    exact ⟨fun h => absurd h (foreign_of_mentioned hforeign hx e he), .inl hid, hid⟩
  · exact jobContents_accepts_job (hx.decode he).2

/-! ## The transitions of one job -/

/-- One transition, of calls that nobody interferes with; they may succeed or fail, and requests and
replies may get lost. With the world go the envelopes that workers have in memory. -/
inductive JobStep (K : StorageKeys) (id : JobId) :
    World γ × List JobEnvelope → World γ × List JobEnvelope → Prop
  /-- a worker loads the job it has claimed, and holds its envelope from then on -/
  | loads {H : Handle} {w w' : World γ} {held : List JobEnvelope} {e : JobEnvelope} : H.keys = K →
      Solo (fun _ => True) (getClaimedJob H id) w (.ok (some e)) w' →
      JobStep K id (w, held) (w', e :: held)
  /-- a worker marks the start of jobs it holds, with their state or without, maybe that of other
  jobs too -/
  | starts {H : Handle} {w w' : World γ} {held es : List JobEnvelope}
      {r : Except OxanaError (List JobEnvelope)} : H.keys = K →
      (∀ e ∈ es, e.id = id → ∃ e' ∈ held, e = e' ∨ e = e'.withoutState) →
      Solo (fun _ => True) (setStartedAtBatch H es) w r w' →
      JobStep K id (w, held) (w', r.toOption.getD [] ++ held)
  /-- a worker saves a state with the job -/
  | updates {H : Handle} {w w' : World γ} {held : List JobEnvelope} {r : Except OxanaError Unit}
      (state : Json.Value) : H.keys = K →
      Solo (fun _ => True) (updateState H id state) w r w' → JobStep K id (w, held) (w', held)
  /-- a worker has the job retried -/
  | retries {H : Handle} {w w' : World γ} {held : List JobEnvelope} {r : Except OxanaError Unit}
      (delay : UInt64) (error : String) : H.keys = K →
      Solo (fun _ => True) (retryIn H id delay error) w r w' → JobStep K id (w, held) (w', held)
  /-- a worker gives up the job and writes its envelope to the dead list -/
  | kills {H : Handle} {w w' : World γ} {held : List JobEnvelope} {r : Except OxanaError Unit}
      {e : JobEnvelope} (error : String) : H.keys = K → e ∈ held → e.id = id →
      Solo (fun _ => True) (kill H e error) w r w' → JobStep K id (w, held) (w', held)
  /-- the due jobs of a set become ready -/
  | promotes {w w' : World γ} {held : List JobEnvelope} {r : Except OxanaError Nat} (set : Key) :
      Solo (fun _ => True) (enqueueScheduled K set) w r w' → JobStep K id (w, held) (w', held)
  /-- all jobs that wait for a retry become ready -/
  | promotesRetries {w w' : World γ} {held : List JobEnvelope} {r : Except OxanaError Nat} :
      Solo (fun _ => True) (retryAllNow K) w r w' → JobStep K id (w, held) (w', held)
  /-- a worker claims a job -/
  | claims {H : Handle} {w w' : World γ} {held : List JobEnvelope}
      {r : Except OxanaError (Option JobId)} (queue : String) : H.keys = K →
      Solo (fun _ => True) (dequeue H queue) w r w' → JobStep K id (w, held) (w', held)
  /-- the claims of dead processes are released -/
  | resurrects {w w' : World γ} {held : List JobEnvelope} {r : Except OxanaError Unit}
      (threshold : Nat) :
      Solo (fun _ => True) (resurrect K threshold) w r w' → JobStep K id (w, held) (w', held)
  /-- the jobs on the dead list are revived -/
  | revives {w w' : World γ} {held : List JobEnvelope} {r : Except OxanaError Nat}
      (uuid : String) :
      Solo (fun _ => True) (reviveAllDead K (claimKeyOf K uuid)) w r w' →
      JobStep K id (w, held) (w', held)
  /-- Time passes. -/
  | passes {w w' : World γ} {held : List JobEnvelope} : w'.store = w.store →
      JobStep K id (w, held) (w', held)

/-- The store holds what it may, and the envelopes in memory are of the job. -/
structure Identified (K : StorageKeys) (e₀ : JobEnvelope) (s₀ : Store)
    (p : World γ × List JobEnvelope) : Prop where
  /-- the store -/
  store : (jobContents K e₀ s₀).Hold p.1.store
  /-- the envelopes -/
  held : ∀ e ∈ p.2, e.id = e₀.id → Continues e₀ e

/-- **One transition** of the job, whichever it is, keeps its identity. -/
theorem JobStep.identified (hbuilt : e₀.Constructed)
    (hforeign : ∀ x, Mentioned (Listed s₀) x → ForeignTo e₀.id x)
    {p q : World γ × List JobEnvelope} (h : JobStep K e₀.id p q) (hp : Identified K e₀ s₀ p) :
    Identified K e₀ s₀ q := by
  obtain ⟨hstore, hheld⟩ := hp
  -- a payload under the id is one of the job
  have hread : ∀ x e, (jobContents K e₀ s₀).field e₀.id x → decode x = some e →
      Continues e₀ e := fun x e hx he => ((hx rfl).decode he).2
  have hmoves : ∀ x, (jobContents K e₀ s₀).member x → (jobContents K e₀ s₀).item x :=
    fun _ => .inl
  cases h with
  | loads hK hrun =>
    subst hK
    obtain ⟨hstore, hfound⟩ := (getClaimedJob_retains rfl e₀.id).solo hrun hstore
    refine ⟨hstore, fun e' he' hid => ?_⟩
    rcases List.mem_cons.mp he' with rfl | he'
    · obtain ⟨x, hx, he⟩ := hfound _ rfl e' rfl
      exact hread x e' hx he
    · exact hheld e' he' hid
  | @starts H w w' held es r hK hes hrun =>
    subst hK
    have hstart : ∀ e ∈ es, e.id = e₀.id → Continues e₀ e := by
      intro e he hid
      obtain ⟨e', he', rfl | rfl⟩ := hes e he hid
      · exact hheld e he' hid
      · exact hheld e' he' hid
    obtain ⟨hstore, hstarted⟩ := (setStartedAtBatch_retains fun e he t hid =>
      ⟨e.withStartedAt t, rfl, hstart e he hid⟩).solo hrun hstore
    refine ⟨hstore, fun e' he' hid => ?_⟩
    rcases List.mem_append.mp he' with he' | he'
    · cases r with
      | error _ => cases he'
      | ok started =>
        obtain ⟨t, rfl⟩ := hstarted started rfl
        obtain ⟨e, he, rfl⟩ := List.mem_map.mp he'
        exact hstart e he hid
    · exact hheld e' he' hid
  | updates state hK hrun =>
    subst hK
    refine ⟨((updateState_retains rfl fun x e hx he hid => ?_).solo hrun hstore).1, hheld⟩
    exact ⟨e.withState state, rfl, hread x e hx he⟩
  | retries delay error hK hrun =>
    subst hK
    refine ⟨((retryIn_retains rfl fun x e hx he => ?_).solo hrun hstore).1, hheld⟩
    have hcont := (hread x e hx he).withRetriesIncremented hbuilt.consistent.1 error
    exact ⟨fun _ => ⟨_, rfl, hcont⟩, .text (.inl hcont.id_eq)⟩
  | @kills H w w' held r e error hK he hid hrun =>
    have hentry : (jobContents K e₀ s₀).item (e.withError error).encode :=
      .inr ⟨e.withError error, rfl, hheld e he hid⟩
    exact ⟨((kill_retains hentry).solo hrun hstore).1, hheld⟩
  | promotes set hrun =>
    exact ⟨((enqueueScheduled_retains rfl hmoves set).solo hrun hstore).1, hheld⟩
  | promotesRetries hrun => exact ⟨((retryAllNow_retains rfl hmoves).solo hrun hstore).1, hheld⟩
  | claims queue hK hrun => exact ⟨((dequeue_retains queue).solo hrun hstore).1, hheld⟩
  | resurrects threshold hrun =>
    exact ⟨((resurrect_retains threshold).solo hrun hstore).1, hheld⟩
  | revives uuid hrun =>
    have hclaim : claimKeyOf K uuid ≠ K.jobs := (claimKeyOf_ne K uuid).1.symm
    refine ⟨((reviveAllDead_retains hclaim fun x e hx he => ?_).solo hrun hstore).1, hheld⟩
    exact jobContents_accepts hforeign hx he
  | passes hsame =>
    refine ⟨?_, hheld⟩
    rw [hsame]
    exact hstore

/-- Any number of transitions, one after the other, keep the identity of the job. -/
theorem identified_of_steps (hbuilt : e₀.Constructed)
    (hforeign : ∀ x, Mentioned (Listed s₀) x → ForeignTo e₀.id x)
    {p q : World γ × List JobEnvelope} (h : Relation.ReflTransGen (JobStep K e₀.id) p q)
    (hp : Identified K e₀ s₀ p) : Identified K e₀ s₀ q := by
  induction h with
  | refl => exact hp
  | tail _ hstep ih => exact hstep.identified hbuilt hforeign ih

/-- **Transitions keep the identity of a job.** From when its envelope is stored, however often it
is started, updated, retried, promoted, claimed, resurrected, killed and revived: what is stored
under its id is an envelope with the identity of the first one; so is every entry of a list that is
an envelope of the job; and nothing else comes into lists and sorted sets but the id of the job and
what they mentioned before. There, no other envelope may claim to be of this job. -/
theorem transitions_keep_identity (hbuilt : e₀.Constructed) {w₀ w : World γ}
    {held : List JobEnvelope} (hstored : payloadOf K.jobs w₀.store e₀.id = some e₀.encode)
    (hforeign : ∀ x, Mentioned (Listed w₀.store) x → ForeignTo e₀.id x)
    (h : Relation.ReflTransGen (JobStep K e₀.id) (w₀, []) (w, held)) :
    (∀ x, payloadOf K.jobs w.store e₀.id = some x →
      ∃ e, decode x = some e ∧ e.identity = e₀.identity) ∧
    (∀ k, ∀ x ∈ w.store.list k, ∀ e, decode x = some e → e.id = e₀.id →
      e.identity = e₀.identity) ∧
    (∀ k, ∀ x ∈ w.store.list k, Mentioned (fun x => x = e₀.id ∨ Listed w₀.store x) x ∨
      ∃ e, decode x = some e ∧ e.identity = e₀.identity) ∧
    ∀ k x score, (w.store.zset k).lookup x = some score →
      Mentioned (fun x => x = e₀.id ∨ Listed w₀.store x) x := by
  obtain ⟨⟨hfield, hitem, hmember⟩, -⟩ := identified_of_steps hbuilt hforeign h
    ⟨jobContents_start hbuilt hstored, fun _ he => absurd he List.not_mem_nil⟩
  refine ⟨fun x hx => (hfield e₀.id x hx rfl).readable, fun k x hx e he hid => ?_,
    fun k x hx => (hitem k x hx).imp_right Spells.readable, hmember⟩
  rcases hitem k x hx with hmentioned | hspells
  · exact absurd hid (foreign_of_mentioned hforeign hmentioned e he)
  · exact (hspells.decode he).1

end Job

/-! ## A job that is given up -/

/-- The handle of the worker of the sample. -/
def undertaker : Handle := ⟨.new "app", "p", none⟩

/-- The world in which this worker has claimed a job. -/
def claimedMail : World Unit :=
  ⟨(Store.empty.put undertaker.keys.jobs (.hash [(mail.id, mail.encode)])).put
    undertaker.currentProcessingQueue (.list [mail.id]), 0, ()⟩

theorem claimedMail_fits : claimedMail.store.Fits undertaker.keys.jobs .hash :=
  (Store.fits_put_self _).put _ fun h => absurd h.symm (current_ne undertaker).1

/-- The payload of the claimed job is the envelope of the mail. -/
theorem claimedMail_payload :
    payloadOf undertaker.keys.jobs claimedMail.store mail.id = some mail.encode := by
  rw [payloadOf, claimedMail, Store.hash_put_ne _ (current_ne undertaker).1.symm,
    Store.hash_put_self]
  exact List.lookup_cons_self

/-- Only the id of the mail is in any list or set of this store. -/
theorem claimedMail_listed {x : String} (h : Listed claimedMail.store x) : x = mail.id := by
  let C : Contents :=
    ⟨undertaker.keys.jobs, fun _ _ => True, fun x => x = mail.id, fun x => x = mail.id⟩
  have hempty : C.Hold Store.empty :=
    ⟨fun _ _ _ => trivial, fun _ _ h => absurd h List.not_mem_nil, fun _ _ _ h => by cases h⟩
  have hstore : C.Hold claimedMail.store :=
    (hempty.put_hash fun _ _ _ _ => trivial).put_list fun x hx => List.mem_singleton.mp hx
  rcases h with ⟨k, hx⟩ | ⟨k, score, hx⟩
  · exact hstore.item k x hx
  · exact hstore.member k x score hx

/-- No text in this store mentions another envelope under the id of the mail. -/
theorem claimedMail_foreign {x : String} (h : Mentioned (Listed claimedMail.store) x) :
    ForeignTo mail.id x := by
  have hid : decode mail.id = none := by decide +kernel
  have hsame : x = mail.id := by
    induction h with
    | text hx => exact claimedMail_listed hx
    | inside _ he ih =>
      rw [ih, hid] at he
      cases he
  intro e he
  rw [hsame, hid] at he
  cases he

/-- The worker loads the job that it has claimed. -/
theorem claimedMail_loaded : Solo (fun _ => True) (getClaimedJob undertaker mail.id) claimedMail
    (.ok (some mail.normalize)) claimedMail := by
  have hget : (hget undertaker.keys.jobs mail.id claimedMail.store).1 =
      .ok (some mail.encode) := by
    rw [hget_run claimedMail_fits, claimedMail_payload]
  have hsend := Returns.send (l := .hget) claimedMail hget
  rw [World.after_read (hget_snd ..)] at hsend
  have hsnapshot : Returns (transitionSnapshot undertaker.keys mail.id)
      [⟨.hget, claimedMail, claimedMail⟩] (some (mail.encode, mail.normalize)) := by
    refine hsend.bind ?_
    exact (Returns.decoded (decode_encode mail)).bind (.pure _)
  have hload : Returns (getClaimedJob undertaker mail.id) [⟨.hget, claimedMail, claimedMail⟩]
      (some mail.normalize) :=
    .ask { rounds := 0 } (Returns.connection.bind (hsnapshot.bind (.pure _)))
  exact Prog.solo_of_trace hload rfl ⟨rfl, rfl⟩

/-- The worker gives up the job that it has loaded. -/
theorem claimedMail_killed : ∃ r, Solo (fun _ => True) (kill undertaker mail.normalize "boom")
    claimedMail r (claimedMail.after (finishDead undertaker.keys.jobs undertaker.keys.dead
      undertaker.currentProcessingQueue mail.id (mail.normalize.withError "boom").encode 0)) :=
  ⟨_, {}, trivial, {}, trivial, rfl, rfl⟩

/-- A worker loads a job and gives it up; what is on the dead list then is still the same job. -/
theorem mail_keeps_identity : ∃ (w : World Unit) (held : List JobEnvelope),
    Relation.ReflTransGen (JobStep undertaker.keys mail.id) (claimedMail, []) (w, held) ∧
    w.store.list undertaker.keys.dead ≠ [] ∧
    ∀ x ∈ w.store.list undertaker.keys.dead, ∀ e, decode x = some e → e.id = mail.id →
      e.identity = mail.identity := by
  obtain ⟨r, hkill⟩ := claimedMail_killed
  have hrun : Relation.ReflTransGen (JobStep undertaker.keys mail.id) (claimedMail, []) _ :=
    (Relation.ReflTransGen.single (.loads rfl claimedMail_loaded)).tail
      (.kills "boom" rfl List.mem_cons_self rfl hkill)
  refine ⟨_, _, hrun, ?_, (transitions_keep_identity (.new "a" 3 5 "mail" rfl) claimedMail_payload
    (fun x => claimedMail_foreign) hrun).2.1 _⟩
  have hproc := current_ne undertaker
  have hdead := finishDead_ok (s := claimedMail.store) StorageKeys.jobs_ne_dead hproc.1.symm
    hproc.2.1.symm claimedMail_fits (((Store.fits_empty .list).put _ fun h =>
      absurd h StorageKeys.jobs_ne_dead.symm).put _ fun h => absurd h hproc.2.1.symm)
    ((Store.fits_put_self _)) mail.id (mail.normalize.withError "boom").encode 0
  rw [World.after, hdead, Store.list_put_self, bury, if_neg (lt_irrefl 0)]
  exact List.cons_ne_nil _ _

end Oxana
