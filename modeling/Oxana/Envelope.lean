import Oxana.Json.Parse

/-!
# Job envelopes and their JSON

An envelope is what the jobs hash stores, as compact JSON: the job's name and
arguments, the queue it belongs to and its metadata. Writing follows the order
of the fields; optional fields that are absent are left out.

Reading accepts more than is written: unknown members are ignored, a few
missing ones have defaults, a struct may come as an array of its fields, and
a unit variant as an object with a `null`. It rejects a repeated field. What
is written reads back, up to the normal form of the two free-form values
(`decode_encode`): a repeated key inside the arguments keeps its last value,
and a `null` state is no state.
-/

namespace Oxana

open Json

/-- Identifies a job; unique jobs have a deterministic one. -/
abbrev JobId := String

/-- What to do when a unique job is already there. -/
inductive JobConflictStrategy where
  /-- leave the existing job alone -/
  | skip
  /-- replace it -/
  | replace
  deriving DecidableEq, Repr

/-- The job itself: the name of its worker and its arguments. -/
structure JobData where
  /-- under which the worker is registered -/
  name : String
  /-- the serialized job -/
  args : Value
  deriving DecidableEq

/-- The metadata of a job, with what decides how it is enqueued. Times are in microseconds. -/
structure JobMeta where
  /-- the id of the job -/
  id : JobId
  /-- enqueued through the on-demand catalog -/
  onDemand : Option Bool
  /-- failed attempts so far -/
  retries : UInt32
  /-- the id is deterministic -/
  unique : Bool
  /-- for unique jobs -/
  onConflict : Option JobConflictStrategy
  /-- when it was built -/
  createdAt : Int64
  /-- when it is due -/
  scheduledAt : Int64
  /-- when the current attempt began -/
  startedAt : Option Int64
  /-- what the handler left for the next attempt -/
  state : Option Value
  /-- whether an interrupted attempt is repeated -/
  resurrect : Bool
  /-- of the last attempt -/
  error : Option String
  /-- what it counts for a throttled queue -/
  throttleCost : Option UInt64
  deriving DecidableEq

/-- A job as it is stored: its id, its queue, the job itself and its metadata. -/
structure JobEnvelope where
  /-- under which it is stored -/
  id : JobId
  /-- the job itself -/
  job : JobData
  /-- the queue it belongs to -/
  queue : String
  /-- its metadata -/
  jobMeta : JobMeta
  deriving DecidableEq

/-- What a job says about itself when it is enqueued. -/
structure Job where
  /-- under which the worker is registered -/
  name : String
  /-- the serialized job -/
  args : Value
  /-- the deterministic id of a unique job -/
  uniqueJobId : Option JobId
  /-- for unique jobs -/
  onConflict : JobConflictStrategy
  /-- whether an interrupted attempt is repeated -/
  shouldResurrect : Bool
  /-- what it counts for a throttled queue -/
  throttleCost : Option UInt64

namespace JobEnvelope

/-- `JobEnvelope::new`; the clock is read twice, once for each of the two times. -/
def new (uuid : JobId) (now now' : Int64) (queue : String) (job : Job) : JobEnvelope where
  id := job.uniqueJobId.getD uuid
  queue := queue
  job := ⟨job.name, job.args⟩
  jobMeta :=
    { id := job.uniqueJobId.getD uuid
      onDemand := none
      retries := 0
      unique := job.uniqueJobId.isSome
      onConflict := if job.uniqueJobId.isSome then some job.onConflict else none
      createdAt := now
      scheduledAt := now'
      startedAt := none
      state := none
      resurrect := job.shouldResurrect
      error := none
      throttleCost := job.throttleCost }

/-- `JobEnvelope::with_scheduled_at`: the envelope for a later time. -/
def withScheduledAt (e : JobEnvelope) (now at' : Int64) : JobEnvelope :=
  { e with jobMeta := { e.jobMeta with scheduledAt := max at' now } }

/-- `JobEnvelope::with_error`: the envelope with the error of its last attempt. -/
def withError (e : JobEnvelope) (error : String) : JobEnvelope :=
  { e with jobMeta := { e.jobMeta with error := some error } }

/-- `JobEnvelope::with_retries_incremented`; the counter wraps. -/
def withRetriesIncremented (e : JobEnvelope) (error : String) : JobEnvelope :=
  { e with jobMeta := { e.jobMeta with
      id := e.id, retries := e.jobMeta.retries + 1, startedAt := none, error := some error } }

/-- The envelope with the mark of the beginning of an attempt. -/
def withStartedAt (e : JobEnvelope) (now : Int64) : JobEnvelope :=
  { e with jobMeta := { e.jobMeta with startedAt := some now } }

/-- The envelope with the state that a handler leaves. -/
def withState (e : JobEnvelope) (state : Value) : JobEnvelope :=
  { e with jobMeta := { e.jobMeta with state := some state } }

/-- Whether the envelope is a unique one that replaces what is stored under its id. -/
def replaces (e : JobEnvelope) : Bool :=
  e.jobMeta.unique && decide (e.jobMeta.onConflict = some .replace)

/-- Whether the envelope is a unique one that is skipped if something is stored under its id. -/
def skips (e : JobEnvelope) : Bool :=
  e.jobMeta.unique && decide (e.jobMeta.onConflict ≠ some .replace)

end JobEnvelope

/-- An ordinary job on the queue `mail`. -/
def mail : JobEnvelope := .new "a" 3 5 "mail" ⟨"Mail", .null, none, .skip, true, none⟩

/-! ## Writing -/

/-- A member that is left out when its value is absent. -/
def member? (k : String) (v : Option Value) : List (String × Value) :=
  match v with
  | some v => [(k, v)]
  | none => []

/-- The text of a conflict strategy; variant names are in snake case. -/
def JobConflictStrategy.toJson : JobConflictStrategy → Value
  | .skip => .str "skip"
  | .replace => .str "replace"

def JobData.toJson (j : JobData) : Value := .obj [("name", .str j.name), ("args", j.args)]

def JobMeta.members (m : JobMeta) : List (String × Value) :=
  [("id", .str m.id)] ++ member? "on_demand" (m.onDemand.map .bool) ++
  [("retries", .int m.retries.toNat)] ++ [("unique", .bool m.unique)] ++
  member? "on_conflict" (m.onConflict.map (·.toJson)) ++
  [("created_at", .int m.createdAt.toInt)] ++ [("scheduled_at", .int m.scheduledAt.toInt)] ++
  member? "started_at" (m.startedAt.map fun t => .int t.toInt) ++ member? "state" m.state ++
  [("resurrect", .bool m.resurrect)] ++ member? "error" (m.error.map .str) ++
  member? "throttle_cost" (m.throttleCost.map fun c => .int c.toNat)

def JobEnvelope.toJson (e : JobEnvelope) : Value :=
  .obj [("id", .str e.id), ("job", e.job.toJson), ("queue", .str e.queue),
    ("meta", .obj e.jobMeta.members)]

/-- `serde_json::to_string` of an envelope: the payload under which it is stored. -/
def JobEnvelope.encode (e : JobEnvelope) : String := String.ofList (render e.toJson)

/-! ## Reading -/

/-- Insert into an ordered map: a key that is there keeps its place. -/
def upsert (k : String) (v : Value) : List (String × Value) → List (String × Value)
  | [] => [(k, v)]
  | (k', v') :: ms => if k' = k then (k, v) :: ms else (k', v') :: upsert k v ms

mutual

/-- A free-form value as it is held in memory: objects are ordered maps. -/
def canon : Value → Value
  | .arr vs => .arr (canonItems vs)
  | .obj ms => .obj ((canonMembers ms).foldl (fun acc m => upsert m.1 m.2 acc) [])
  | v => v

def canonItems : List Value → List Value
  | [] => []
  | v :: vs => canon v :: canonItems vs

def canonMembers : List (String × Value) → List (String × Value)
  | [] => []
  | (k, v) :: ms => (k, canon v) :: canonMembers ms

end

/-- A field of a struct: `none` when it is repeated, `some none` when it is
missing. -/
def fieldOf (ms : List (String × Value)) (k : String) : Option (Option Value) :=
  match ms.filter fun m => m.1 = k with
  | [] => some none
  | [m] => some (some m.2)
  | _ => none

/-- Decode a member that has to be there. -/
def required {α : Type} (ms : List (String × Value)) (k : String) (d : Value → Option α) :
    Option α :=
  match fieldOf ms k with
  | some (some v) => d v
  | _ => none

/-- Decode a member with a value for when it is missing. -/
def withDefault {α : Type} (ms : List (String × Value)) (k : String) (d : Value → Option α)
    (a : α) : Option α :=
  match fieldOf ms k with
  | some (some v) => d v
  | some none => some a
  | none => none

def decodeString : Value → Option String
  | .str s => some s
  | _ => none

def decodeBool : Value → Option Bool
  | .bool b => some b
  | _ => none

def decodeInt : Value → Option Int
  | .num x => x.toInt?
  | _ => none

def decodeInt64 (v : Value) : Option Int64 :=
  (decodeInt v).bind fun z =>
    if -2 ^ 63 ≤ z ∧ z < 2 ^ 63 then some (Int64.ofInt z) else none

def decodeUInt32 (v : Value) : Option UInt32 :=
  (decodeInt v).bind fun z => if 0 ≤ z ∧ z < 2 ^ 32 then some (UInt32.ofNat z.toNat) else none

def decodeUInt64 (v : Value) : Option UInt64 :=
  (decodeInt v).bind fun z => if 0 ≤ z ∧ z < 2 ^ 64 then some (UInt64.ofNat z.toNat) else none

/-- Decode something optional, for which `null` is absence. -/
def decodeOption {α : Type} (d : Value → Option α) : Value → Option (Option α)
  | .null => some none
  | v => (d v).map some

def JobConflictStrategy.ofJson : Value → Option JobConflictStrategy
  | .str s => variant s
  | .obj [(s, .null)] => variant s
  | _ => none
where
  variant (s : String) : Option JobConflictStrategy :=
    if s = "skip" then some .skip else if s = "replace" then some .replace else none

def JobData.ofJson : Value → Option JobData
  | .obj ms => do
    let name ← required ms "name" decodeString
    let args ← required ms "args" fun v => some (canon v)
    pure ⟨name, args⟩
  | .arr [name, args] => do pure ⟨← decodeString name, canon args⟩
  | _ => none

/-- Decode the state of a job, if it has one. -/
def decodeState : Value → Option (Option Value) := decodeOption fun v => some (canon v)

def JobMeta.ofJson : Value → Option JobMeta
  | .obj ms => do
    let id ← required ms "id" decodeString
    let onDemand ← withDefault ms "on_demand" (decodeOption decodeBool) none
    let retries ← required ms "retries" decodeUInt32
    let unique ← required ms "unique" decodeBool
    let onConflict ← withDefault ms "on_conflict" (decodeOption JobConflictStrategy.ofJson) none
    let createdAt ← required ms "created_at" decodeInt64
    let scheduledAt ← withDefault ms "scheduled_at" decodeInt64 0
    let startedAt ← withDefault ms "started_at" (decodeOption decodeInt64) none
    let state ← withDefault ms "state" decodeState none
    let resurrect ← withDefault ms "resurrect" decodeBool true
    let error ← withDefault ms "error" (decodeOption decodeString) none
    let throttleCost ← withDefault ms "throttle_cost" (decodeOption decodeUInt64) none
    pure ⟨id, onDemand, retries, unique, onConflict, createdAt, scheduledAt, startedAt, state,
      resurrect, error, throttleCost⟩
  | .arr [id, onDemand, retries, unique, onConflict, createdAt, scheduledAt, startedAt, state,
      resurrect, error, throttleCost] => do
    pure ⟨← decodeString id, ← decodeOption decodeBool onDemand, ← decodeUInt32 retries,
      ← decodeBool unique, ← decodeOption JobConflictStrategy.ofJson onConflict,
      ← decodeInt64 createdAt, ← decodeInt64 scheduledAt, ← decodeOption decodeInt64 startedAt,
      ← decodeState state, ← decodeBool resurrect, ← decodeOption decodeString error,
      ← decodeOption decodeUInt64 throttleCost⟩
  | _ => none

def JobEnvelope.ofJson : Value → Option JobEnvelope
  | .obj ms => do
    let id ← required ms "id" decodeString
    let job ← required ms "job" JobData.ofJson
    let queue ← required ms "queue" decodeString
    let jobMeta ← required ms "meta" JobMeta.ofJson
    pure ⟨id, job, queue, jobMeta⟩
  | .arr [id, job, queue, jobMeta] => do
    pure ⟨← decodeString id, ← JobData.ofJson job, ← decodeString queue, ← JobMeta.ofJson jobMeta⟩
  | _ => none

/-- `serde_json::from_str` of an envelope; `none` is a JSON error. -/
def JobEnvelope.decode (payload : String) : Option JobEnvelope :=
  (parse payload.toList).bind JobEnvelope.ofJson

/-! ## Reading back what was written -/

/-- The two free-form values as they are held in memory. -/
def JobEnvelope.normalize (e : JobEnvelope) : JobEnvelope :=
  { e with
    job := { e.job with args := canon e.job.args }
    jobMeta := { e.jobMeta with
      state := e.jobMeta.state.bind fun v => if v = .null then none else some (canon v) } }

@[simp] theorem JobEnvelope.normalize_id (e : JobEnvelope) : e.normalize.id = e.id := rfl

@[simp] theorem JobEnvelope.normalize_queue (e : JobEnvelope) :
    e.normalize.queue = e.queue := rfl

/-- An integer is read back from the value that is written for it. -/
theorem decodeInt_int (z : Int) : decodeInt (.int z) = some z := Number.toInt?_ofInt z

theorem decodeInt64_int (x : Int64) : decodeInt64 (.int x.toInt) = some x := by
  rw [decodeInt64, decodeInt_int, Option.bind_some, if_pos ⟨x.le_toInt, x.toInt_lt⟩]
  exact congrArg some (Int64.toInt_inj.mp (Int64.toInt_ofInt_of_le x.le_toInt x.toInt_lt))

theorem decodeUInt32_int (x : UInt32) : decodeUInt32 (.int x.toNat) = some x := by
  have h : (x.toNat : Int) < 2 ^ 32 := by exact_mod_cast x.toNat_lt
  rw [decodeUInt32, decodeInt_int, Option.bind_some, if_pos ⟨by omega, h⟩]
  simp

theorem decodeUInt64_int (x : UInt64) : decodeUInt64 (.int x.toNat) = some x := by
  have h : (x.toNat : Int) < 2 ^ 64 := by exact_mod_cast x.toNat_lt
  rw [decodeUInt64, decodeInt_int, Option.bind_some, if_pos ⟨by omega, h⟩]
  simp

/-- How a job behaves in a conflict is read back as it was written. -/
theorem ofJson_toJson_conflict (c : JobConflictStrategy) :
    JobConflictStrategy.ofJson c.toJson = some c := by
  cases c <;> rfl

/-- What the filter of `fieldOf` keeps of an optional member: the member, if it is there and has the
key that is asked for. -/
theorem filter_member? (k k' : String) (v : Option Value) :
    ((member? k v).filter fun m => decide (m.1 = k')) = if k = k' then member? k v else [] := by
  cases v with
  | none => simp [member?]
  | some v =>
    by_cases h : k = k'
    · simp [member?, h]
    · simp [member?, h]

/-- A field that has been written is found and read, whatever else is written. -/
theorem required_of_filter {α : Type} (ms : List (String × Value)) {k : String} {v : Value}
    (h : (ms.filter fun m => decide (m.1 = k)) = [(k, v)]) (d : Value → Option α) :
    required ms k d = d v := by
  simp [required, fieldOf, h]

/-- A field with a default is read as its value if it has been written, and as the default if not.
-/
theorem withDefault_of_filter {α : Type} (ms : List (String × Value)) {k : String}
    {v : Option Value} (h : (ms.filter fun m => decide (m.1 = k)) = member? k v)
    (d : Value → Option α) (a : α) :
    withDefault ms k d a = v.elim (some a) d := by
  cases v with
  | none => simp [withDefault, fieldOf, h, member?]
  | some v => simp [withDefault, fieldOf, h, member?]

/-- A field with a default that is always written is read as its value. -/
theorem withDefault_of_written {α : Type} (ms : List (String × Value)) {k : String} {v : Value}
    (h : (ms.filter fun m => decide (m.1 = k)) = [(k, v)]) (d : Value → Option α) (a : α) :
    withDefault ms k d a = d v :=
  withDefault_of_filter ms (v := some v) h d a

/-- An optional value that is written as it is, or not at all, is read back, as long as no value is
written as `null`. -/
theorem decodeOption_map {α : Type} {d : Value → Option α} {j : α → Value}
    (hd : ∀ a, d (j a) = some a) (hj : ∀ a, j a ≠ .null) (o : Option α) :
    (o.map j).elim (some none) (decodeOption d) = some o := by
  cases o with
  | none => rfl
  | some a =>
    simp only [Option.map_some, Option.elim_some]
    rw [decodeOption.eq_def]
    split
    · next h => exact absurd h (hj a)
    · rw [hd a]
      rfl

/-- A state is read as the value it is held as in memory; `null` is no state. -/
theorem decodeState_eq (v : Value) :
    decodeState v = some (if v = .null then none else some (canon v)) := by
  cases v with
  | null => rfl
  | _ => simp [decodeState, decodeOption]

/-- The metadata of a job are read back as they were written, but for the order of the members in a
state. -/
theorem ofJson_members (m : JobMeta) :
    JobMeta.ofJson (.obj m.members) =
      some { m with state := m.state.bind fun v => if v = .null then none else some (canon v) } := by
  have hid := required_of_filter m.members (k := "id") (v := .str m.id)
    (by simp [JobMeta.members, filter_member?]) decodeString
  have hdemand := withDefault_of_filter m.members (k := "on_demand")
    (v := m.onDemand.map .bool) (by simp [JobMeta.members, filter_member?])
    (decodeOption decodeBool) none
  have hretries := required_of_filter m.members (k := "retries")
    (v := .int m.retries.toNat) (by simp [JobMeta.members, filter_member?]) decodeUInt32
  have hunique := required_of_filter m.members (k := "unique") (v := .bool m.unique)
    (by simp [JobMeta.members, filter_member?]) decodeBool
  have hconflict := withDefault_of_filter m.members (k := "on_conflict")
    (v := m.onConflict.map (·.toJson)) (by simp [JobMeta.members, filter_member?])
    (decodeOption JobConflictStrategy.ofJson) none
  have hcreated := required_of_filter m.members (k := "created_at")
    (v := .int m.createdAt.toInt) (by simp [JobMeta.members, filter_member?]) decodeInt64
  have hscheduled := withDefault_of_written m.members (k := "scheduled_at")
    (v := .int m.scheduledAt.toInt) (by simp [JobMeta.members, filter_member?]) decodeInt64 0
  have hstarted := withDefault_of_filter m.members (k := "started_at")
    (v := m.startedAt.map fun t => .int t.toInt) (by simp [JobMeta.members, filter_member?])
    (decodeOption decodeInt64) none
  have hstate := withDefault_of_filter m.members (k := "state") (v := m.state)
    (by simp [JobMeta.members, filter_member?]) decodeState none
  have hresurrect := withDefault_of_written m.members (k := "resurrect")
    (v := .bool m.resurrect) (by simp [JobMeta.members, filter_member?]) decodeBool true
  have herror := withDefault_of_filter m.members (k := "error")
    (v := m.error.map .str) (by simp [JobMeta.members, filter_member?])
    (decodeOption decodeString) none
  have hcost := withDefault_of_filter m.members (k := "throttle_cost")
    (v := m.throttleCost.map fun c => .int c.toNat) (by simp [JobMeta.members, filter_member?])
    (decodeOption decodeUInt64) none
  rw [decodeOption_map (d := decodeBool) (j := .bool) (fun _ => rfl) (fun _ h => nomatch h)] at hdemand
  rw [decodeOption_map (d := decodeString) (j := .str) (fun _ => rfl) (fun _ h => nomatch h)]
    at herror
  rw [decodeOption_map ofJson_toJson_conflict (fun c h => by cases c <;> cases h)] at hconflict
  rw [decodeOption_map decodeInt64_int (fun _ h => nomatch h)] at hstarted
  rw [decodeOption_map decodeUInt64_int (fun _ h => nomatch h)] at hcost
  have hstate' : withDefault m.members "state" decodeState none =
      some (m.state.bind fun v => if v = .null then none else some (canon v)) := by
    rw [hstate]
    cases m.state with
    | none => rfl
    | some v => exact decodeState_eq v
  simp only [JobMeta.ofJson, hid, hdemand, hretries, hunique, hconflict, hcreated, hscheduled,
    hstarted, hstate', hresurrect, herror, hcost, decodeString, decodeBool, decodeUInt32_int,
    decodeInt64_int, Option.bind_eq_bind, Option.bind_some, Option.pure_def]

/-- An envelope is read back as it was written, in its normal form. -/
theorem ofJson_toJson (e : JobEnvelope) : JobEnvelope.ofJson e.toJson = some e.normalize := by
  simp [JobEnvelope.toJson, JobEnvelope.ofJson, required, fieldOf, decodeString, JobData.toJson,
    JobData.ofJson, ofJson_members, JobEnvelope.normalize]

/-- **Round trip** of stored envelopes: what is stored for an envelope is read back as the envelope
in its normal form. -/
theorem decode_encode (e : JobEnvelope) : JobEnvelope.decode e.encode = some e.normalize := by
  rw [JobEnvelope.decode, JobEnvelope.encode, String.toList_ofList, parse_render,
    Option.bind_some, ofJson_toJson]

/-! ## Reading twice -/

/-- A member with a name that is not there yet goes to the end of an object. -/
theorem upsert_new {k : String} {v : Value} {ms : List (String × Value)}
    (h : k ∉ ms.map (·.1)) : upsert k v ms = ms ++ [(k, v)] := by
  induction ms with
  | nil => rfl
  | cons m ms ih =>
    rw [List.map_cons, List.mem_cons, not_or] at h
    rw [upsert, if_neg (fun he => h.1 he.symm), ih h.2]
    rfl

theorem map_fst_upsert (k : String) (v : Value) (ms : List (String × Value)) :
    (upsert k v ms).map (·.1) =
      if k ∈ ms.map (·.1) then ms.map (·.1) else ms.map (·.1) ++ [k] := by
  induction ms with
  | nil => rfl
  | cons m ms ih =>
    rw [upsert]
    by_cases hk : m.1 = k
    · rw [if_pos hk]
      simp [hk]
    · have hk' : ¬ k = m.1 := fun h => hk h.symm
      rw [if_neg hk, List.map_cons, ih]
      simp only [List.map_cons, List.mem_cons, hk', false_or]
      split <;> rfl

/-- Names stay different when a member is written. -/
theorem nodup_upsert {k : String} {v : Value} {ms : List (String × Value)}
    (h : (ms.map (·.1)).Nodup) : ((upsert k v ms).map (·.1)).Nodup := by
  rw [map_fst_upsert]
  split
  · exact h
  next hk =>
    refine List.nodup_append.mpr ⟨h, List.pairwise_singleton _ k, ?_⟩
    rintro a ha b hb rfl
    exact hk (List.mem_singleton.mp hb ▸ ha)

theorem mem_upsert {k : String} {v : Value} {ms : List (String × Value)} {m : String × Value}
    (h : m ∈ upsert k v ms) : m = (k, v) ∨ m ∈ ms := by
  induction ms with
  | nil => exact .inl (List.mem_singleton.mp h)
  | cons m' ms ih =>
    rw [upsert] at h
    split at h
    · rcases List.mem_cons.mp h with h | h
      · exact .inl h
      · exact .inr (List.mem_cons_of_mem _ h)
    · rcases List.mem_cons.mp h with h | h
      · exact .inr (h ▸ List.mem_cons_self)
      · exact (ih h).imp_right (List.mem_cons_of_mem _)

/-- The members of an object as it is held in memory: their names are different, and each of them
was there. -/
theorem foldl_upsert_spec (ms : List (String × Value)) :
    ((ms.foldl (fun acc m => upsert m.1 m.2 acc) []).map (·.1)).Nodup ∧
      ∀ m ∈ ms.foldl (fun acc m => upsert m.1 m.2 acc) [], m ∈ ms := by
  have hloop : ∀ acc : List (String × Value), (acc.map (·.1)).Nodup →
      ((ms.foldl (fun acc m => upsert m.1 m.2 acc) acc).map (·.1)).Nodup ∧
        ∀ m ∈ ms.foldl (fun acc m => upsert m.1 m.2 acc) acc, m ∈ acc ∨ m ∈ ms := by
    induction ms with
    | nil => exact fun acc hacc => ⟨hacc, fun m hm => .inl hm⟩
    | cons m ms ih =>
      intro acc hacc
      obtain ⟨hnd, hmem⟩ := ih (upsert m.1 m.2 acc) (nodup_upsert hacc)
      refine ⟨hnd, fun m' hm' => ?_⟩
      rcases hmem m' hm' with h | h
      · rcases mem_upsert h with rfl | h
        · exact .inr List.mem_cons_self
        · exact .inl h
      · exact .inr (List.mem_cons_of_mem _ h)
  obtain ⟨hnd, hmem⟩ := hloop [] List.nodup_nil
  exact ⟨hnd, fun m hm => (hmem m hm).resolve_left List.not_mem_nil⟩

/-- Members with different names are kept as they are, and in their order. -/
theorem foldl_upsert_of_nodup {ms : List (String × Value)} (h : (ms.map (·.1)).Nodup) :
    ms.foldl (fun acc m => upsert m.1 m.2 acc) [] = ms := by
  have hloop : ∀ acc : List (String × Value), ((acc ++ ms).map (·.1)).Nodup →
      ms.foldl (fun acc m => upsert m.1 m.2 acc) acc = acc ++ ms := by
    clear h
    induction ms with
    | nil => exact fun acc _ => (List.append_nil acc).symm
    | cons m ms ih =>
      intro acc hacc
      have hnew : m.1 ∉ acc.map (·.1) := by
        rw [List.map_append, List.map_cons, List.nodup_append] at hacc
        exact fun hm => hacc.2.2 m.1 hm m.1 List.mem_cons_self rfl
      have hacc' : (((acc ++ [m]) ++ ms).map (·.1)).Nodup := by
        rwa [List.append_assoc, List.singleton_append]
      rw [List.foldl_cons, upsert_new hnew, ih _ hacc', List.append_assoc, List.singleton_append]
  exact hloop [] h

theorem canonMembers_eq_map (ms : List (String × Value)) :
    canonMembers ms = ms.map fun m => (m.1, canon m.2) := by
  induction ms with
  | nil => rfl
  | cons m ms ih => rw [canonMembers, ih]; rfl

mutual

/-- What is held in memory is written and read back as it is. -/
theorem canon_canon : ∀ v : Value, canon (canon v) = canon v
  | .arr vs => by rw [canon, canon, canonItems_canonItems vs]
  | .obj ms => by
    obtain ⟨hnd, hmem⟩ := foldl_upsert_spec (canonMembers ms)
    have hfix := canonMembers_fixed ms
    rw [canon, canon, canonMembers_eq_map]
    have hself : ((canonMembers ms).foldl (fun acc m => upsert m.1 m.2 acc) []).map
        (fun m => (m.1, canon m.2)) =
          (canonMembers ms).foldl (fun acc m => upsert m.1 m.2 acc) [] := by
      refine (List.map_congr_left fun m hm => ?_).trans (List.map_id _)
      rw [hfix m (hmem m hm)]
      rfl
    rw [hself, foldl_upsert_of_nodup hnd]
  | .null => rfl
  | .bool _ => rfl
  | .num _ => rfl
  | .str _ => rfl

theorem canonItems_canonItems : ∀ vs : List Value, canonItems (canonItems vs) = canonItems vs
  | [] => rfl
  | v :: vs => by rw [canonItems, canonItems, canon_canon v, canonItems_canonItems vs]

theorem canonMembers_fixed : ∀ ms : List (String × Value), ∀ m ∈ canonMembers ms,
    canon m.2 = m.2
  | [], m, h => absurd h List.not_mem_nil
  | (k, v) :: ms, m, h => by
    rw [canonMembers] at h
    rcases List.mem_cons.mp h with rfl | h
    · exact canon_canon v
    · exact canonMembers_fixed ms m h

end

theorem canon_eq_null {v : Value} : canon v = .null ↔ v = .null := by
  cases v <;> simp [canon]

/-- An envelope that was read is written and read back as it is. -/
theorem JobEnvelope.normalize_normalize (e : JobEnvelope) : e.normalize.normalize = e.normalize := by
  have hstate : ((e.jobMeta.state.bind fun v => if v = .null then none else some (canon v)).bind
      fun v => if v = .null then none else some (canon v)) =
        e.jobMeta.state.bind fun v => if v = .null then none else some (canon v) := by
    cases e.jobMeta.state with
    | none => rfl
    | some v =>
      by_cases hv : v = .null
      · simp [hv]
      · simp [hv, canon_eq_null, canon_canon]
  simp only [JobEnvelope.normalize, canon_canon, hstate]

end Oxana
