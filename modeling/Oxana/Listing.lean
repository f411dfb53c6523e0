import Oxana.Delays
import Oxana.Redis.Range

/-!
# Lists of jobs

Four lists can be looked at: a queue, the dead jobs, and the jobs that wait for a retry or for their
time. The caller says how many jobs to skip and how many to return, and this becomes a range of
positions for the server. The number and the offset have 64 bits; the sum of the two wraps, and the
bounds of the range are read as signed numbers.

The result is what was asked for unless that goes wrong, a payload cannot be read, or nothing is
asked for at the very beginning, where the range has one element (`lists_slice_iff`).
-/

namespace Oxana

open Redis Interleave Call

variable {γ : Type}

/-! ## The operations -/

/-- What the caller of a listing asks for. -/
structure QueueListOpts where
  /-- the number of jobs to return, at most -/
  count : UInt64
  /-- the number of jobs to skip -/
  offset : UInt64

/-- `saturating_sub(1)` of an unsigned number. -/
def saturatingPred (n : UInt64) : UInt64 := if n = 0 then 0 else n - 1

/-- The position of the first job that is asked for, as it is sent. -/
def QueueListOpts.start (opts : QueueListOpts) : ℤ := opts.offset.toInt64.toInt

/-- The position of the last job that is asked for, as it is sent. -/
def QueueListOpts.stop (opts : QueueListOpts) : ℤ :=
  (saturatingPred (opts.offset + opts.count)).toInt64.toInt

section Operations

variable (K : StorageKeys)

/-- Payloads; one that cannot be read is an error. -/
def decodedAll (xs : List String) : Call γ (List JobEnvelope) :=
  match xs.mapM JobEnvelope.decode with
  | some es => pure es
  | none => fail .json

/-- `get_many`: the envelopes that are stored for some ids, those that are. -/
def getMany (ids : List JobId) : Call γ (List JobEnvelope) := do
  connection
  let payloads ← send .hmget (hmget K.jobs ids)
  decodedAll payloads.reduceOption

/-- `list_queue_jobs`: a range of the jobs on a ready list. -/
def listQueueJobs (queue : String) (opts : QueueListOpts) : Call γ (List JobEnvelope) := do
  connection
  let ids ← send .lrange (lrangeBetween (K.namespaceQueue queue) opts.start opts.stop)
  if ids = [] then pure [] else getMany K ids

/-- `list_dead`: a range of the dead jobs. -/
def listDead (opts : QueueListOpts) : Call γ (List JobEnvelope) := do
  connection
  let entries ← send .lrange (lrangeBetween K.dead opts.start opts.stop)
  pure (entries.filterMap JobEnvelope.decode)

/-- `list_retries` and `list_scheduled`, but for the set. -/
def listSet (k : Key) (opts : QueueListOpts) : Call γ (List JobEnvelope) := do
  connection
  let ids ← send .zrange (zrangeBetween k opts.start opts.stop)
  if ids = [] then pure [] else getMany K ids

/-- `list_retries`: a range of the jobs that wait for a retry. -/
def listRetries (opts : QueueListOpts) : Call γ (List JobEnvelope) := listSet K K.retry opts

/-- `list_scheduled`: a range of the scheduled jobs. -/
def listScheduled (opts : QueueListOpts) : Call γ (List JobEnvelope) := listSet K K.schedule opts

/-- `enqueued_count`: the number of jobs on a ready list. -/
def enqueuedCount (queue : String) : Call γ UInt64 := do
  connection
  let count ← send .llen (llen (K.namespaceQueue queue))
  pure (UInt64.ofNat count)

/-- `dead_count`: the number of dead jobs. -/
def deadCount : Call γ UInt64 := do
  connection
  let count ← send .llen (llen K.dead)
  pure (UInt64.ofNat count)

/-- `retries_count` and `scheduled_count`, but for the set. -/
def setCount (k : Key) : Call γ UInt64 := do
  connection
  let count ← send .zcard (zcard k)
  pure (UInt64.ofNat count)

/-- `retries_count`: the number of jobs that wait for a retry. -/
def retriesCount : Call γ UInt64 := setCount K.retry

/-- `scheduled_count`: the number of scheduled jobs. -/
def scheduledCount : Call γ UInt64 := setCount K.schedule

end Operations

/-! ## The lists -/

/-- What can be listed by the dashboard. -/
inductive JobList where
  /-- the jobs of a queue -/
  | queue (name : String)
  /-- the dead jobs -/
  | dead
  /-- the jobs that wait for a retry -/
  | retries
  /-- the jobs that wait for their time -/
  | scheduled

namespace JobList

variable (K : StorageKeys) (s : Store)

/-- The operation that lists a range of it. -/
def list : JobList → QueueListOpts → Call γ (List JobEnvelope)
  | queue name => listQueueJobs K name
  | dead => listDead K
  | retries => listRetries K
  | scheduled => listScheduled K

/-- The operation that counts it. -/
def count : JobList → Call γ UInt64
  | queue name => enqueuedCount K name
  | dead => deadCount K
  | retries => retriesCount K
  | scheduled => scheduledCount K

/-- The entries that it lists: ids, or the payloads of dead jobs. -/
def entries : JobList → List String
  | queue name => s.list (K.namespaceQueue name)
  | dead => s.list K.dead
  | retries => (s.zset K.retry).map Prod.fst
  | scheduled => (s.zset K.schedule).map Prod.fst

/-- The keys that a listing reads hold the types it expects: the list or the sorted set, and the
jobs hash where payloads are looked up. -/
def Typed : JobList → Prop
  | queue name => s.Fits (K.namespaceQueue name) .list ∧ s.Fits K.jobs .hash
  | dead => s.Fits K.dead .list
  | retries => s.Fits K.retry .zset ∧ s.Fits K.jobs .hash
  | scheduled => s.Fits K.schedule .zset ∧ s.Fits K.jobs .hash

/-- The payload of an entry; that of a dead job is the entry itself. -/
def payload : JobList → String → Option String
  | dead, entry => some entry
  | _, entry => payloadOf K.jobs s entry

/-- The job that is shown for an entry, if there is one. -/
def job (l : JobList) (entry : String) : Option JobEnvelope :=
  (l.payload K s entry).bind JobEnvelope.decode

/-- Nothing keeps the list from being shown: the payload is not there or can be read, or the entry
may be left out. -/
def legible (l : JobList) (entry : String) : Bool :=
  match l with
  | dead => true
  | _ => (l.payload K s entry).isNone || (l.job K s entry).isSome

end JobList

/-- The part of a list that the caller asks for. -/
def QueueListOpts.slice {α : Type} (opts : QueueListOpts) (l : List α) : List α :=
  (l.drop opts.offset.toNat).take opts.count.toNat

/-! ## What they return -/

section Returns

variable {K : StorageKeys} {w w' : World γ} {r : Except OxanaError (List JobEnvelope)}

theorem mapM_decode (xs : List String) : xs.mapM JobEnvelope.decode =
    if xs.all fun x => (JobEnvelope.decode x).isSome then some (xs.filterMap JobEnvelope.decode)
    else none := by
  induction xs with
  | nil => rfl
  | cons x xs ih =>
    cases hdec : JobEnvelope.decode x with
    | none => simp [List.mapM_cons, hdec]
    | some e =>
      rw [List.mapM_cons, ih, List.all_cons, hdec]
      cases hall : xs.all fun x => (JobEnvelope.decode x).isSome with
      | true => simp [hdec]
      | false => simp

/-- Decoding all the payloads succeeds when each of them decodes, and is an error of the decoder
otherwise; it takes no request. -/
theorem solo_decodedAll {xs : List String} : Solo Reliable (decodedAll xs) w r w' ↔
    w' = w ∧ r = if xs.all fun x => (JobEnvelope.decode x).isSome then
      .ok (xs.filterMap JobEnvelope.decode) else .error .json := by
  rw [decodedAll, mapM_decode]
  cases hall : xs.all fun x => (JobEnvelope.decode x).isSome with
  | true => simp [solo_pure, and_comm]
  | false => simp [solo_fail, and_comm]

/-- The jobs of some ids are loaded in one request; ids without a payload are left out, and one
payload that does not decode is an error. -/
theorem solo_getMany {ids : List JobId} (hfits : w.store.Fits K.jobs .hash) :
    Solo Reliable (getMany K ids) w r w' ↔ w' = w ∧ r =
      if ids.all fun id => (payloadOf K.jobs w.store id).isNone ||
          ((payloadOf K.jobs w.store id).bind JobEnvelope.decode).isSome
      then .ok (ids.filterMap fun id => (payloadOf K.jobs w.store id).bind JobEnvelope.decode)
      else .error .json := by
  rw [getMany, solo_connection_bind, hmget, solo_read_bind hfits, solo_decodedAll]
  have hpayloads : (ids.map fun f => (w.store.hash K.jobs).lookup f).reduceOption =
      ids.filterMap (payloadOf K.jobs w.store) := by
    change (ids.map fun f => (w.store.hash K.jobs).lookup f).filterMap id = _
    rw [List.filterMap_map]
    rfl
  have hall : ((ids.filterMap (payloadOf K.jobs w.store)).all fun x =>
      (JobEnvelope.decode x).isSome) = ids.all fun id => (payloadOf K.jobs w.store id).isNone ||
        ((payloadOf K.jobs w.store id).bind JobEnvelope.decode).isSome := by
    rw [List.all_filterMap]
    congr 1
    funext id
    cases payloadOf K.jobs w.store id with
    | none => rfl
    | some x => rfl
  rw [hpayloads, hall, List.filterMap_filterMap]

/-- The jobs of some ids are loaded with one request, and with none when there are no ids. -/
theorem solo_jobs {ids : List JobId} (hfits : w.store.Fits K.jobs .hash) :
    Solo Reliable (if ids = [] then pure [] else getMany K ids) w r w' ↔ w' = w ∧ r =
      if ids.all fun id => (payloadOf K.jobs w.store id).isNone ||
          ((payloadOf K.jobs w.store id).bind JobEnvelope.decode).isSome
      then .ok (ids.filterMap fun id => (payloadOf K.jobs w.store id).bind JobEnvelope.decode)
      else .error .json := by
  split
  · next hnil =>
    subst hnil
    rw [solo_pure, and_comm]
    simp
  · exact solo_getMany hfits

variable {opts : QueueListOpts}

/-- Taking a range of a list and mapping it can be done in either order. -/
theorem between_map {α β : Type} (f : α → β) (a b : ℤ) (l : List α) :
    between a b (l.map f) = (between a b l).map f := by
  simp [between]

/-- **What a list returns**: the jobs in the range that is asked of the server, in its order, or an
error when a payload does not decode. -/
theorem solo_list {l : JobList} (htyped : l.Typed K w.store) :
    Solo Reliable (l.list K opts) w r w' ↔ w' = w ∧ r =
      if (between opts.start opts.stop (l.entries K w.store)).all (l.legible K w.store)
      then .ok ((between opts.start opts.stop (l.entries K w.store)).filterMap (l.job K w.store))
      else .error .json := by
  cases l with
  | queue name =>
    rw [JobList.list, listQueueJobs, solo_connection_bind, lrangeBetween, solo_read_bind htyped.1,
      solo_jobs htyped.2]
    rfl
  | dead =>
    rw [JobList.list, listDead, solo_connection_bind, lrangeBetween, solo_read_bind htyped,
      solo_pure, and_comm]
    have hjob : JobList.dead.job K w.store = JobEnvelope.decode := rfl
    simp [JobList.entries, JobList.legible, hjob]
  | retries =>
    rw [JobList.list, listRetries, listSet, solo_connection_bind, zrangeBetween,
      solo_read_bind htyped.1, solo_jobs htyped.2, JobList.entries, between_map]
    rfl
  | scheduled =>
    rw [JobList.list, listScheduled, listSet, solo_connection_bind, zrangeBetween,
      solo_read_bind htyped.1, solo_jobs htyped.2, JobList.entries, between_map]
    rfl

/-- Counting the entries of a list takes a request, and changes nothing. -/
theorem solo_count_bind {l : JobList} (htyped : l.Typed K w.store) {α : Type}
    {f : UInt64 → Call γ α} {r : Except OxanaError α} :
    Solo Reliable (l.count K >>= f) w r w' ↔
      Solo Reliable (f (UInt64.ofNat (l.entries K w.store).length)) w r w' := by
  cases l with
  | queue name =>
    rw [JobList.count, enqueuedCount, bind_assoc, solo_connection_bind, bind_assoc, llen,
      solo_read_bind htyped.1, pure_bind]
    rfl
  | dead =>
    rw [JobList.count, deadCount, bind_assoc, solo_connection_bind, bind_assoc, llen,
      solo_read_bind htyped, pure_bind]
    rfl
  | retries =>
    rw [JobList.count, retriesCount, setCount, bind_assoc, solo_connection_bind, bind_assoc, zcard,
      solo_read_bind htyped.1, pure_bind, JobList.entries, List.length_map]
  | scheduled =>
    rw [JobList.count, scheduledCount, setCount, bind_assoc, solo_connection_bind, bind_assoc,
      zcard, solo_read_bind htyped.1, pure_bind, JobList.entries, List.length_map]

end Returns

/-! ## When they return what is asked for -/

section Slice

variable {K : StorageKeys} {w w' : World γ} {r : Except OxanaError (List JobEnvelope)}
  {opts : QueueListOpts} {l : JobList}

/-- An unsigned number is read as a signed one without a change below 2 ^ 63, and is negative from
there on. -/
theorem toInt_toInt64_eq (n : UInt64) :
    n.toInt64.toInt = if n.toNat < 2 ^ 63 then (n.toNat : ℤ) else n.toNat - 2 ^ 64 := by
  rcases toInt_toInt64_cases n with ⟨hlt, hcast⟩ | ⟨hbig, hcast⟩
  · rw [if_pos hlt, hcast]
  · rw [if_neg (Nat.not_lt_of_le hbig), hcast]

theorem toNat_saturatingPred (n : UInt64) : (saturatingPred n).toNat = n.toNat - 1 := by
  rw [saturatingPred]
  split
  · next h => simp [h]
  · next h =>
    have hpos : n.toNat ≠ 0 := fun hzero => h (UInt64.toNat_inj.mp hzero)
    have hone : (1 : UInt64) ≤ n := by
      rw [UInt64.le_iff_toNat_le]
      simp
      omega
    rw [UInt64.toNat_sub_of_le _ _ hone]
    rfl

/-- The bounds of the range are those that are asked for. -/
structure QueueListOpts.Exact (opts : QueueListOpts) : Prop where
  /-- the first position -/
  start : opts.start = opts.offset.toNat
  /-- the last one -/
  stop : opts.stop = (opts.offset.toNat + opts.count.toNat - 1 : ℕ)

/-- The positions asked of the server are exact if signed numbers have room for the last of them. -/
theorem exact_iff : opts.Exact ↔
    opts.offset.toNat < 2 ^ 63 ∧ opts.offset.toNat + opts.count.toNat ≤ 2 ^ 63 := by
  have hoffset := opts.offset.toNat_lt
  have hcount := opts.count.toNat_lt
  have hstart := toInt_toInt64_eq opts.offset
  have hstop := toInt_toInt64_eq (saturatingPred (opts.offset + opts.count))
  rw [toNat_saturatingPred, UInt64.toNat_add] at hstop
  constructor
  · rintro ⟨h₁, h₂⟩
    rw [QueueListOpts.start, hstart] at h₁
    rw [QueueListOpts.stop, hstop] at h₂
    split at h₁
    · split at h₂
      · omega
      · omega
    · omega
  · rintro ⟨h₁, h₂⟩
    refine ⟨?_, ?_⟩
    · rw [QueueListOpts.start, hstart, if_pos h₁]
    · rw [QueueListOpts.stop, hstop, if_pos (by omega)]
      omega

/-- With exact positions the range is what is asked for, or the first element if that is nothing at
the very beginning. -/
theorem QueueListOpts.Exact.between_eq {α : Type} (h : opts.Exact) (xs : List α) :
    between opts.start opts.stop xs =
      if opts.offset.toNat + opts.count.toNat = 0 then xs.take 1 else opts.slice xs := by
  rw [h.start, h.stop, between_natCast, QueueListOpts.slice]
  split
  · next hnone =>
    have hoffset : opts.offset.toNat = 0 := by omega
    have hcount : opts.count.toNat = 0 := by omega
    simp [hoffset, hcount]
  · next hsome =>
    congr 1
    omega

/-- **A slice**: the call returns the jobs at the positions that are asked for, in their order. -/
structure ListsSlice (K : StorageKeys) (l : JobList) (opts : QueueListOpts) (s : Store)
    (r : Except OxanaError (List JobEnvelope)) : Prop where
  /-- nothing has wrapped -/
  exact : opts.Exact
  /-- those without a payload are left out, and so are dead jobs that cannot be read -/
  jobs : r = .ok ((opts.slice (l.entries K s)).filterMap (l.job K s))
  /-- they are no more than was asked for -/
  count : ∀ jobs, r = .ok jobs → jobs.length ≤ opts.count.toNat

/-- When nothing is asked for at the very beginning, the slice is empty. -/
theorem QueueListOpts.slice_nil {α : Type} (h : opts.offset.toNat + opts.count.toNat = 0)
    (xs : List α) : opts.slice xs = [] := by
  have hcount : opts.count.toNat = 0 := by omega
  simp [QueueListOpts.slice, hcount]

theorem answer_eq_ok {shown xs : List String} {legible : String → Bool}
    {job : String → Option JobEnvelope} :
    (if shown.all legible then .ok (shown.filterMap job) else .error .json :
      Except OxanaError (List JobEnvelope)) = .ok (xs.filterMap job) ↔
      (∀ entry ∈ shown, legible entry = true) ∧ shown.filterMap job = xs.filterMap job := by
  rw [← List.all_eq_true]
  cases shown.all legible with
  | true => simp
  | false => simp

/-- **When a list returns a slice.** The last position has to fit into a signed number, the payloads
must be readable, and if nothing is asked for at the very beginning, the first entry must not have a
job. -/
theorem lists_slice_iff (htyped : l.Typed K w.store)
    (h : Solo Reliable (l.list K opts) w r w') :
    ListsSlice K l opts w.store r ↔
      (opts.offset.toNat < 2 ^ 63 ∧ opts.offset.toNat + opts.count.toNat ≤ 2 ^ 63) ∧
      (∀ entry ∈ opts.slice (l.entries K w.store), l.legible K w.store entry = true) ∧
      (opts.offset.toNat + opts.count.toNat = 0 → ∀ entry,
        (l.entries K w.store).head? = some entry →
          l.legible K w.store entry = true ∧ l.job K w.store entry = none) := by
  obtain ⟨-, hr⟩ := (solo_list htyped).mp h
  -- with exact bounds, the answer is right if the range is legible and shows what the slice shows
  have hanswer (hexact : opts.Exact) :
      r = .ok ((opts.slice (l.entries K w.store)).filterMap (l.job K w.store)) ↔
        (∀ entry ∈ opts.slice (l.entries K w.store), l.legible K w.store entry = true) ∧
        (opts.offset.toNat + opts.count.toNat = 0 → ∀ entry,
          (l.entries K w.store).head? = some entry →
            l.legible K w.store entry = true ∧ l.job K w.store entry = none) := by
    rw [hr, answer_eq_ok, hexact.between_eq]
    by_cases hnone : opts.offset.toNat + opts.count.toNat = 0
    · rw [if_pos hnone, QueueListOpts.slice_nil hnone]
      cases l.entries K w.store with
      | nil => simp [hnone]
      | cons entry rest => simp [hnone]
    · rw [if_neg hnone]
      exact ⟨fun h => ⟨h.1, fun hzero => absurd hzero hnone⟩, fun h => ⟨h.1, rfl⟩⟩
  rw [← exact_iff]
  constructor
  · rintro ⟨hexact, hjobs, -⟩
    exact ⟨hexact, (hanswer hexact).mp hjobs⟩
  · rintro ⟨hexact, hcond⟩
    have hjobs := (hanswer hexact).mpr hcond
    refine ⟨hexact, hjobs, fun jobs hok => ?_⟩
    rw [hjobs] at hok
    rw [← Except.ok.inj hok]
    exact (List.length_filterMap_le ..).trans (List.length_take_le ..)

end Slice

/-! ## One dead job -/

section DeadPost

/-- The dead job of the sample. -/
def deadPost : JobEnvelope := .new "b" 3 5 "mail" ⟨"Welcome", .null, none, .skip, true, none⟩

/-- The world in which it is the only entry of the dead list. -/
def deadPosts : World Unit :=
  ⟨Store.empty.put (StorageKeys.new "app").dead (.list [deadPost.encode]), 0, ()⟩

theorem deadPosts_typed : JobList.dead.Typed (.new "app") deadPosts.store := Store.fits_put_self _

theorem deadPosts_entries :
    JobList.dead.entries (.new "app") deadPosts.store = [deadPost.encode] := by
  rw [JobList.entries, deadPosts]
  exact Store.list_put_self _

/-- The options of a listing that asks for the first ten jobs. -/
def tenJobs : QueueListOpts := ⟨10, 0⟩

/-- The options of a listing that asks for no job at all. -/
def noJobs : QueueListOpts := ⟨0, 0⟩

/-- Ten jobs are asked for of a list with one dead job: the answer is the slice that was asked for,
since its payload can be read. -/
theorem deadPosts_listed : ∃ r w', Solo Reliable (listDead (.new "app") tenJobs) deadPosts r w' ∧
    (ListsSlice (.new "app") .dead tenJobs deadPosts.store r ↔
      (tenJobs.offset.toNat < 2 ^ 63 ∧ tenJobs.offset.toNat + tenJobs.count.toNat ≤ 2 ^ 63) ∧
      (∀ entry ∈ tenJobs.slice (JobList.dead.entries (.new "app") deadPosts.store),
        JobList.dead.legible (.new "app") deadPosts.store entry = true) ∧
      (tenJobs.offset.toNat + tenJobs.count.toNat = 0 → ∀ entry,
        (JobList.dead.entries (.new "app") deadPosts.store).head? = some entry →
          JobList.dead.legible (.new "app") deadPosts.store entry = true ∧
            JobList.dead.job (.new "app") deadPosts.store entry = none)) := by
  have hrun : Solo Reliable (JobList.dead.list (.new "app") tenJobs) deadPosts _ _ :=
    (solo_list deadPosts_typed).mpr ⟨rfl, rfl⟩
  exact ⟨_, _, hrun, lists_slice_iff deadPosts_typed hrun⟩

/-- When none is asked for of a list with one job, that one is returned: the slice that was asked
for is empty, and the answer is not. -/
theorem noJobs_listed : ∃ r w', Solo Reliable (listDead (.new "app") noJobs) deadPosts r w' ∧
    r = .ok [deadPost.normalize] ∧ ¬ ListsSlice (.new "app") .dead noJobs deadPosts.store r := by
  have hrun : Solo Reliable (JobList.dead.list (.new "app") noJobs) deadPosts _ _ :=
    (solo_list deadPosts_typed).mpr ⟨rfl, rfl⟩
  have hone : between noJobs.start noJobs.stop [deadPost.encode] = [deadPost.encode] := by
    decide +kernel
  have hjob : JobList.dead.job (.new "app") deadPosts.store deadPost.encode =
      some deadPost.normalize := by
    rw [JobList.job, JobList.payload, Option.bind_some, decode_encode]
  have hanswer : (if (between noJobs.start noJobs.stop
        (JobList.dead.entries (.new "app") deadPosts.store)).all
          (JobList.dead.legible (.new "app") deadPosts.store) then
      .ok ((between noJobs.start noJobs.stop
        (JobList.dead.entries (.new "app") deadPosts.store)).filterMap
          (JobList.dead.job (.new "app") deadPosts.store)) else .error .json :
      Except OxanaError (List JobEnvelope)) = .ok [deadPost.normalize] := by
    rw [deadPosts_entries, hone]
    simp [JobList.legible, hjob]
  rw [hanswer] at hrun
  refine ⟨_, _, hrun, rfl, fun h => ?_⟩
  have hcount : 1 ≤ noJobs.count.toNat := h.count [deadPost.normalize] rfl
  exact absurd hcount (by decide)

end DeadPost

end Oxana
