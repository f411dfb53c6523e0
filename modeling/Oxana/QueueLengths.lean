import Oxana.EnqueueAlone
import Oxana.Float64
import Oxana.Listing
import Oxana.Table
import Mathlib.Data.List.ReduceOption

/-!
# Lengths and latencies of many queues

For the statistics the lengths of all queues are read in batches: first the id of the next job of each
queue, then the lengths of those queues for which none was kept, then the payloads of the jobs. The
three lists of replies are gone through together with the names of the queues, and each name takes
from a list what belongs to it. Nothing is shifted: every queue gets the length that a read of its own
would return, and the latency that a read of its own would return, but in seconds where that read
returns microseconds (`batched_reads`).
-/

namespace Oxana

open Redis Interleave Call

variable {γ : Type}

/-! ## The operations -/

/-- `effective_scheduled_at_micros`: when the job was due. -/
def JobMeta.effectiveScheduledAtMicros (m : JobMeta) : Int64 :=
  if 0 < m.scheduledAt then m.scheduledAt else m.createdAt

/-- How long a job has been waiting at some time, in microseconds. -/
def latencyAt (t : Int) (e : JobEnvelope) : Int64 :=
  Int64.ofInt t - e.jobMeta.effectiveScheduledAtMicros

/-- The latency as `latency_micros` returns it: the microseconds as a double. -/
def latencyInMicros (t : Int) (e : JobEnvelope) : ℚ := Float64.ofInt64 (latencyAt t e)

/-- The latency as `queue_lengths_and_latencies` writes it down: that double, divided by a
million. -/
def latencyInSeconds (t : Int) (e : JobEnvelope) : ℚ :=
  Float64.div (Float64.ofInt64 (latencyAt t e)) 1000000

/-- `STATS_READ_BATCH_SIZE`: how many queues are read at once. -/
def statsReadBatchSize : ℕ := 500

section Operations

variable (H : Handle)

/-- `latency_micros`: how long the next job of a queue has been due. -/
def latencyMicros (queue : String) : Call γ ℚ := do
  connection
  let result ← send .lindex (lindexLast (H.keys.namespaceQueue queue))
  match result with
  | none => pure 0
  | some jobId => do
    let envelope ← getJobOn H jobId
    match envelope with
    | none => pure 0
    | some envelope => do
      let t ← now
      pure (latencyInMicros t envelope)

/-- Payloads, where some may be missing; one that cannot be read is an error. -/
def decodedRecords (records : List (Option String)) : Call γ (List (Option JobEnvelope)) :=
  match records.mapM fun
    | none => some none
    | some record => (JobEnvelope.decode record).map some with
  | some envelopes => pure envelopes
  | none => fail .json

/-- `jobs_w_conn`: the envelopes that are stored for some ids. -/
def jobsOn (ids : List JobId) : Call γ (List (Option JobEnvelope)) :=
  if ids = [] then pure []
  else do
    let records ← send .hmget (hmget H.keys.jobs ids)
    decodedRecords records

/-- The latency of a queue, from the id of its next job and the payloads that are left. -/
def headLatency (head : Option JobId) (envelopes : List (Option JobEnvelope)) : Call γ ℚ :=
  match head, envelopes with
  | some _, some envelope :: _ => do
    let t ← now
    pure (latencyInSeconds t envelope)
  | _, _ => pure 0

/-- The loop over the queues of a batch, with the ids of their next jobs, the lengths that were read
and the payloads. There is no result if a length is missing. -/
def fillLive (snapshots : Table String ℕ) : List (String × Option JobId) → List ℕ →
    List (Option JobEnvelope) → Table String (ℕ × ℚ) → Call γ (Option (Table String (ℕ × ℚ)))
  | [], _, _, live => pure (some live)
  | (key, head) :: rest, lengths, envelopes, live => do
    let latency ← headLatency head envelopes
    let envelopes := if head.isSome then envelopes.tail else envelopes
    match snapshots.find key, lengths with
    | some count, lengths =>
      fillLive snapshots rest lengths envelopes (live.modify key (0, 0) fun _ => (count, latency))
    | none, count :: lengths =>
      fillLive snapshots rest lengths envelopes (live.modify key (0, 0) fun _ => (count, latency))
    | none, [] => pure none

/-- The lengths of the queues for which none was kept. -/
def missingLengths (snapshots : Table String ℕ) (keys : List String) : Call γ (List ℕ) :=
  let missing := keys.filter fun key => (snapshots.find key).isNone
  if missing = [] then pure []
  else pipe .llen (missing.map fun key => llen (H.keys.namespaceQueue key))

/-- One batch of queues is read, and written down. -/
def readBatch (snapshots : Table String ℕ) (keys : List String) (live : Table String (ℕ × ℚ)) :
    Call γ (Option (Table String (ℕ × ℚ))) := do
  let heads ← pipe .lindex (keys.map fun key => lindexLast (H.keys.namespaceQueue key))
  let lengths ← missingLengths H snapshots keys
  let envelopes ← jobsOn H heads.reduceOption
  fillLive snapshots (keys.zip heads) lengths envelopes live

/-- The batches are read one after the other. -/
def readBatches (snapshots : Table String ℕ) : List (List String) → Table String (ℕ × ℚ) →
    Call γ (Option (Table String (ℕ × ℚ)))
  | [], live => pure (some live)
  | keys :: rest, live => do
    let live ← readBatch H snapshots keys live
    match live with
    | some live => readBatches snapshots rest live
    | none => pure none

/-- `queue_lengths_and_latencies`: the lengths and latencies of all queues. -/
def queueLengthsAndLatencies (keys : List String) (snapshots : Table String ℕ) :
    Call γ (Option (Table String (ℕ × ℚ))) :=
  readBatches H snapshots (keys.toChunks statsReadBatchSize) Table.empty

end Operations

/-! ## What the queues hold -/

section Stored

variable (K : StorageKeys) (s : Store)

/-- The id of the next job of a queue, at the end of its list. -/
def tailOf (queue : String) : Option JobId := (s.list (K.namespaceQueue queue)).getLast?

/-- A job, if its payload is there and can be read. -/
def storedJob (id : JobId) : Option JobEnvelope :=
  (payloadOf K.jobs s id).bind JobEnvelope.decode

/-- The latency of a queue at some time, in microseconds. A queue without a next job, and one
whose next job has no payload, has none. -/
def tailLatency (t : Int) (queue : String) : ℚ :=
  (((tailOf K s queue).bind (storedJob K s)).map (latencyInMicros t)).getD 0

/-- The length of a queue, as it was kept or as it is. -/
def knownLength (snapshots : Table String ℕ) (queue : String) : ℕ :=
  (snapshots.find queue).getD (s.list (K.namespaceQueue queue)).length

/-- The keys of some queues hold what they should, and the payloads of their next jobs can be
read. -/
structure QueuesReadable (queues : String → Prop) : Prop where
  /-- queues are lists -/
  lists : ∀ queue, queues queue → s.Fits (K.namespaceQueue queue) .list
  /-- payloads are in a hash -/
  jobs : s.Fits K.jobs .hash
  /-- no payload is broken -/
  payloads : ∀ queue, queues queue → ∀ id, tailOf K s queue = some id → ∀ payload,
    payloadOf K.jobs s id = some payload → (JobEnvelope.decode payload).isSome = true

end Stored

/-! ## One read -/

section Reads

variable {w w' : World γ}

/-- A pipeline of reads of keys of the right type returns what is read, and changes nothing. -/
theorem solo_pipe_reads {α ι : Type} {l : Request} {kd : Kind} {key : ι → Key} {f : ι → Store → α}
    {r : Except OxanaError (List α)} {ks : List ι} (hfits : ∀ k ∈ ks, w.store.Fits (key k) kd) :
    Solo Reliable (pipe l (ks.map fun k => onKind kd (key k) fun s => (f k s, s))) w r w' ↔
      r = .ok (ks.map fun k => f k w.store) ∧ w' = w := by
  induction ks generalizing r w' with
  | nil =>
    constructor
    · intro h
      obtain ⟨c, hc, h⟩ := solo_ask.mp h
      rw [show c.delivery = .answered from hc] at h
      exact h
    · exact fun h => solo_ask.mpr ⟨{}, rfl, h⟩
  | cons k ks ih =>
    have hrest (k') (hk : k' ∈ ks) : w.store.Fits (key k') kd :=
      hfits k' (List.mem_cons_of_mem _ hk)
    have hread : (onKind kd (key k) (fun s => (f k s, s)) w.store).1 = .ok (f k w.store) := by
      rw [onKind_ok (hfits k List.mem_cons_self)]
    have hafter : w.after (onKind kd (key k) fun s => (f k s, s)) = w :=
      World.after_read (onKind_read ..)
    constructor
    · intro h
      obtain ⟨c, hc, h⟩ := solo_ask.mp h
      rw [show c.delivery = .answered from hc] at h
      obtain ⟨rs, w₁, hpipe, hjoin⟩ := solo_catching.mp h
      change Solo Reliable _ (w.after (onKind kd (key k) fun s => (f k s, s))) rs w₁ at hpipe
      rw [hafter] at hpipe
      obtain ⟨rfl, rfl⟩ := (ih hrest).mp hpipe
      obtain ⟨hr, rfl⟩ : r = joinReplies (replyOf (onKind kd (key k) (fun s => (f k s, s))
        w₁.store).1) (.ok (ks.map fun k => f k w₁.store)) ∧ w' = w₁ := hjoin
      rw [hread] at hr
      exact ⟨hr, rfl⟩
    · rintro ⟨rfl, rfl⟩
      refine solo_pipe_reliable hread ?_
      rw [hafter]
      exact (ih hrest).mpr ⟨rfl, rfl⟩

theorem solo_pipe_reads_bind {α β ι : Type} {l : Request} {kd : Kind} {key : ι → Key}
    {f : ι → Store → α} {g : List α → Call γ β} {r : Except OxanaError β} {ks : List ι}
    (hfits : ∀ k ∈ ks, w.store.Fits (key k) kd) :
    Solo Reliable (pipe l (ks.map fun k => onKind kd (key k) fun s => (f k s, s)) >>= g) w r w' ↔
      Solo Reliable (g (ks.map fun k => f k w.store)) w r w' := by
  rw [solo_bind]
  constructor
  · rintro (⟨as, w₁, h, hg⟩ | ⟨e, h, -⟩)
    · obtain ⟨has, rfl⟩ := (solo_pipe_reads hfits).mp h
      obtain rfl := Except.ok.inj has
      exact hg
    · cases ((solo_pipe_reads hfits).mp h).1
  · exact fun hg => .inl ⟨_, w, (solo_pipe_reads hfits).mpr ⟨rfl, rfl⟩, hg⟩

variable {H : Handle}

/-- The payloads of some jobs are read in one pipeline, and what cannot be decoded is an error. -/
theorem solo_jobsOn_bind {β : Type} {g : List (Option JobEnvelope) → Call γ β}
    {r : Except OxanaError β} {ids : List JobId} (hfits : w.store.Fits H.keys.jobs .hash)
    (hpayloads : ∀ id ∈ ids, ∀ payload, payloadOf H.keys.jobs w.store id = some payload →
      (JobEnvelope.decode payload).isSome = true) :
    Solo Reliable (jobsOn H ids >>= g) w r w' ↔
      Solo Reliable (g (ids.map (storedJob H.keys w.store))) w r w' := by
  have hdecoded : (decodedRecords (ids.map fun f => (w.store.hash H.keys.jobs).lookup f) :
      Call γ _) = pure (ids.map (storedJob H.keys w.store)) := by
    have hmapM : ((ids.map fun f => (w.store.hash H.keys.jobs).lookup f).mapM fun
        | none => some none
        | some record => (JobEnvelope.decode record).map some) =
          some (ids.map (storedJob H.keys w.store)) := by
      induction ids with
      | nil => rfl
      | cons id ids ih =>
        have hrest := ih fun id hid => hpayloads id (List.mem_cons_of_mem _ hid)
        rw [List.map_cons, List.mapM_cons, hrest, List.map_cons, storedJob]
        cases hpay : payloadOf H.keys.jobs w.store id with
        | none =>
          rw [payloadOf] at hpay
          rw [hpay]
          rfl
        | some payload =>
          obtain ⟨e, he⟩ := Option.isSome_iff_exists.mp
            (hpayloads id List.mem_cons_self payload hpay)
          rw [payloadOf] at hpay
          rw [hpay]
          simp [he]
    rw [decodedRecords, hmapM]
  rw [jobsOn]
  split
  · next hnil =>
    subst hnil
    rw [pure_bind]
    rfl
  · rw [bind_assoc, hmget, solo_read_bind hfits, hdecoded, pure_bind]

/-- One job is read by itself, and what cannot be decoded is an error. -/
theorem solo_getJobOn_bind {β : Type} {g : Option JobEnvelope → Call γ β} {r : Except OxanaError β}
    {id : JobId} (hfits : w.store.Fits H.keys.jobs .hash)
    (hpayload : ∀ payload, payloadOf H.keys.jobs w.store id = some payload →
      (JobEnvelope.decode payload).isSome = true) :
    Solo Reliable (getJobOn H id >>= g) w r w' ↔
      Solo Reliable (g (storedJob H.keys w.store id)) w r w' := by
  rw [getJobOn, transitionSnapshot, bind_assoc, bind_assoc, hget, solo_read_bind hfits, storedJob]
  change Solo Reliable ((match payloadOf H.keys.jobs w.store id with
    | none => pure none
    | some p => _) >>= _) w r w' ↔ _
  cases hpay : payloadOf H.keys.jobs w.store id with
  | none => rfl
  | some payload =>
    obtain ⟨e, he⟩ := Option.isSome_iff_exists.mp (hpayload payload hpay)
    simp only [decoded, he, pure_bind, Option.map_some, Option.bind_some]

/-- The latency of one queue is that of the job at its end, and zero when the queue is empty. -/
theorem solo_latencyMicros {queue : String} {r : Except OxanaError ℚ}
    (h : QueuesReadable H.keys w.store (· = queue)) :
    Solo Reliable (latencyMicros H queue) w r w' ↔
      r = .ok (tailLatency H.keys w.store w.clock queue) ∧ w' = w := by
  have hlast : (w.store.list (H.keys.namespaceQueue queue)).getLast? =
      tailOf H.keys w.store queue := rfl
  rw [latencyMicros, solo_connection_bind, lindexLast, solo_read_bind (h.lists queue rfl),
    tailLatency]
  cases htail : tailOf H.keys w.store queue with
  | none =>
    simp only [hlast, htail]
    exact solo_pure
  | some jobId =>
    simp only [hlast, htail]
    rw [solo_getJobOn_bind h.jobs (h.payloads queue rfl jobId htail)]
    rw [Option.bind_some]
    cases storedJob H.keys w.store jobId with
    | none => exact solo_pure
    | some envelope =>
      rw [solo_now_bind]
      exact solo_pure

/-! ## A batch -/

/-- What is written down for a queue: its length and its latency. -/
def liveEntry (K : StorageKeys) (w : World γ) (snapshots : Table String ℕ) (queue : String) :
    ℕ × ℚ :=
  (knownLength K w.store snapshots queue, Float64.div (tailLatency K w.store w.clock queue) 1000000)

/-- What is written down for some queues, one after the other. -/
def insertLive (K : StorageKeys) (w : World γ) (snapshots : Table String ℕ)
    (live : Table String (ℕ × ℚ)) (queue : String) : Table String (ℕ × ℚ) :=
  live.modify queue (0, 0) fun _ => liveEntry K w snapshots queue

variable {snapshots : Table String ℕ}

/-- A queue with a next job takes the first of the payloads that were read for the batch. -/
theorem solo_headLatency_bind {K : StorageKeys} {β : Type} {g : ℚ → Call γ β}
    {r : Except OxanaError β} (queue : String) (heads : List (Option JobId)) :
    Solo Reliable (headLatency (tailOf K w.store queue)
      ((tailOf K w.store queue :: heads).reduceOption.map (storedJob K w.store)) >>= g) w r w' ↔
      Solo Reliable (g (Float64.div (tailLatency K w.store w.clock queue) 1000000)) w r w' := by
  rw [tailLatency]
  cases tailOf K w.store queue with
  | none =>
    rw [Option.bind_none, Option.map_none, Option.getD_none, Float64.div_of_zero]
    rfl
  | some id =>
    rw [List.reduceOption_cons_of_some, List.map_cons, Option.bind_some]
    cases storedJob K w.store id with
    | none =>
      rw [Option.map_none, Option.getD_none, Float64.div_of_zero]
      rfl
    | some envelope =>
      rw [headLatency, bind_assoc, solo_now_bind, pure_bind]
      rfl

/-- What a queue leaves of these payloads is left for the queues after it. -/
theorem tail_envelopes {K : StorageKeys} {s : Store} (queue : String)
    (heads : List (Option JobId)) :
    (if (tailOf K s queue).isSome then
      ((tailOf K s queue :: heads).reduceOption.map (storedJob K s)).tail
    else (tailOf K s queue :: heads).reduceOption.map (storedJob K s)) =
      heads.reduceOption.map (storedJob K s) := by
  cases tailOf K s queue with
  | none => rw [List.reduceOption_cons_of_none]; rfl
  | some id => rw [List.reduceOption_cons_of_some]; rfl

/-- **The loop over a batch.** Each queue takes its own replies, and none is left over. -/
theorem solo_fillLive {K : StorageKeys} (keys : List String) (live : Table String (ℕ × ℚ))
    {r : Except OxanaError (Option (Table String (ℕ × ℚ)))} :
    Solo Reliable (fillLive snapshots (keys.zip (keys.map (tailOf K w.store)))
      ((keys.filter fun key => (snapshots.find key).isNone).map fun key =>
        (w.store.list (K.namespaceQueue key)).length)
      ((keys.map (tailOf K w.store)).reduceOption.map (storedJob K w.store)) live) w r w' ↔
      r = .ok (some (keys.foldl (insertLive K w snapshots) live)) ∧ w' = w := by
  induction keys generalizing live with
  | nil => exact solo_pure
  | cons key keys ih =>
    rw [List.map_cons, List.zip_cons_cons, fillLive, solo_headLatency_bind, tail_envelopes]
    cases hfind : snapshots.find key with
    | some count =>
      have hentry : liveEntry K w snapshots key =
          (count, Float64.div (tailLatency K w.store w.clock key) 1000000) := by
        rw [liveEntry, knownLength, hfind, Option.getD_some]
      rw [List.filter_cons_of_neg (by simp [hfind]), List.foldl_cons, ← ih, insertLive, hentry]
    | none =>
      have hentry : liveEntry K w snapshots key = ((w.store.list (K.namespaceQueue key)).length,
          Float64.div (tailLatency K w.store w.clock key) 1000000) := by
        rw [liveEntry, knownLength, hfind, Option.getD_none]
      rw [List.filter_cons_of_pos (by simp [hfind]), List.map_cons, List.foldl_cons, ← ih,
        insertLive, hentry]

/-- Fewer queues ask for less of what is stored. -/
theorem QueuesReadable.mono {K : StorageKeys} {s : Store} {p p' : String → Prop}
    (h : QueuesReadable K s p) (hsub : ∀ queue, p' queue → p queue) : QueuesReadable K s p' :=
  ⟨fun queue hq => h.lists queue (hsub queue hq), h.jobs,
    fun queue hq => h.payloads queue (hsub queue hq)⟩

/-- The lengths that are not known yet are read in one pipeline, and one reply belongs to each
queue. -/
theorem solo_missingLengths_bind {β : Type} {g : List ℕ → Call γ β} {r : Except OxanaError β}
    {keys : List String} (h : QueuesReadable H.keys w.store (· ∈ keys)) :
    Solo Reliable (missingLengths H snapshots keys >>= g) w r w' ↔
      Solo Reliable (g ((keys.filter fun key => (snapshots.find key).isNone).map fun key =>
        (w.store.list (H.keys.namespaceQueue key)).length)) w r w' := by
  rw [missingLengths]
  split
  · next hnil =>
    rw [hnil]
    rfl
  · exact solo_pipe_reads_bind fun key hkey => h.lists key (List.mem_of_mem_filter hkey)

/-- A batch of queues: its lengths and the jobs at the ends of its lists are read, and written down
queue by queue. -/
theorem solo_readBatch_bind {β : Type} {g : Option (Table String (ℕ × ℚ)) → Call γ β}
    {r : Except OxanaError β} {keys : List String} (h : QueuesReadable H.keys w.store (· ∈ keys))
    (live : Table String (ℕ × ℚ)) :
    Solo Reliable (readBatch H snapshots keys live >>= g) w r w' ↔
      Solo Reliable (g (some (keys.foldl (insertLive H.keys w snapshots) live))) w r w' := by
  have hpayloads (id) (hid : id ∈ (keys.map (tailOf H.keys w.store)).reduceOption) (payload)
      (hpay : payloadOf H.keys.jobs w.store id = some payload) :
      (JobEnvelope.decode payload).isSome = true := by
    obtain ⟨key, hkey, htail⟩ := List.mem_map.mp (List.reduceOption_mem_iff.mp hid)
    exact h.payloads key hkey id htail payload hpay
  rw [readBatch, bind_assoc]
  refine (solo_pipe_reads_bind fun key hkey => h.lists key hkey).trans ?_
  change Solo Reliable ((missingLengths H snapshots keys >>= fun lengths =>
    jobsOn H (keys.map (tailOf H.keys w.store)).reduceOption >>= fun envelopes =>
      fillLive snapshots (keys.zip (keys.map (tailOf H.keys w.store))) lengths envelopes live) >>= g)
        w r w' ↔ _
  rw [bind_assoc, solo_missingLengths_bind h, bind_assoc, solo_jobsOn_bind h.jobs hpayloads, solo_bind]
  constructor
  · rintro (⟨a, w₁, hfill, hg⟩ | ⟨e, hfill, -⟩)
    · obtain ⟨ha, rfl⟩ := (solo_fillLive keys live).mp hfill
      obtain rfl := Except.ok.inj ha
      exact hg
    · cases ((solo_fillLive keys live).mp hfill).1
  · exact fun hg => .inl ⟨_, w, (solo_fillLive keys live).mpr ⟨rfl, rfl⟩, hg⟩

/-- All batches of queues, one after the other, write down what would be read for each queue alone.
-/
theorem solo_readBatches {batches : List (List String)}
    (h : QueuesReadable H.keys w.store (· ∈ batches.flatten)) (live : Table String (ℕ × ℚ))
    {r : Except OxanaError (Option (Table String (ℕ × ℚ)))} :
    Solo Reliable (readBatches H snapshots batches live) w r w' ↔
      r = .ok (some (batches.flatten.foldl (insertLive H.keys w snapshots) live)) ∧ w' = w := by
  induction batches generalizing live with
  | nil => exact solo_pure
  | cons keys rest ih =>
    rw [List.flatten_cons] at h ⊢
    rw [readBatches, solo_readBatch_bind (h.mono fun _ => List.mem_append_left _), List.foldl_append]
    exact ih (h.mono fun _ => List.mem_append_right _) _

/-- What has been written down in the end for a queue: its own length and latency, if it was among
the queues. -/
theorem find_foldl_insertLive {K : StorageKeys} (keys : List String) (queue : String) :
    (keys.foldl (insertLive K w snapshots) Table.empty).find queue =
      if queue ∈ keys then some (liveEntry K w snapshots queue) else none := by
  have hcollect : keys.foldl (insertLive K w snapshots) Table.empty =
      Table.collect id (0, 0) (fun _ queue => liveEntry K w snapshots queue) keys := rfl
  rw [hcollect, Table.find_collect, List.map_id]
  split
  · next hmem =>
    have hne : (keys.filter fun key => id key = queue) ≠ [] :=
      List.ne_nil_of_mem (List.mem_filter.mpr ⟨hmem, decide_eq_true rfl⟩)
    congr 1
    rw [← List.dropLast_append_getLast hne, List.foldl_append, List.foldl_cons, List.foldl_nil]
    have hlast := List.getLast_mem hne
    rw [show (keys.filter fun key => id key = queue).getLast hne = queue from
      of_decide_eq_true (List.mem_filter.mp hlast).2]
  · rfl

/-- The call has one result for all queues, whatever the batches are. -/
theorem solo_queueLengthsAndLatencies {keys : List String}
    (h : QueuesReadable H.keys w.store (· ∈ keys))
    {r : Except OxanaError (Option (Table String (ℕ × ℚ)))} :
    Solo Reliable (queueLengthsAndLatencies H keys snapshots) w r w' ↔
      r = .ok (some (keys.foldl (insertLive H.keys w snapshots) Table.empty)) ∧ w' = w := by
  have hflatten : (keys.toChunks statsReadBatchSize).flatten = keys := flatten_toChunks ..
  rw [queueLengthsAndLatencies, solo_readBatches (by rw [hflatten]; exact h), hflatten]

/-- **Batched statistics are single reads, in seconds.** With queues that hold what they should and
payloads that can be read, the call returns a table of exactly the queues that were asked for. Each
has the length that was kept for it or else the one that `enqueued_count` returns, and as its latency
the quotient of what `latency_micros` returns by a million, a division of doubles. -/
theorem batched_reads (snapshots : Table String ℕ) {keys : List String}
    (h : QueuesReadable H.keys w.store (· ∈ keys)) :
    ∃ live : Table String (ℕ × ℚ),
      (∀ r w', Solo Reliable (queueLengthsAndLatencies H keys snapshots) w r w' ↔
        r = .ok (some live) ∧ w' = w) ∧
      (∀ queue, (live.find queue).isSome = true ↔ queue ∈ keys) ∧
      ∀ queue ∈ keys, ∃ count latency,
        live.find queue = some (count, Float64.div latency 1000000) ∧
        (∀ n, snapshots.find queue = some n → count = n) ∧
        (snapshots.find queue = none → ∀ r w', Solo Reliable (enqueuedCount H.keys queue) w r w' ↔
          r = .ok (UInt64.ofNat count) ∧ w' = w) ∧
        (∀ r w', Solo Reliable (latencyMicros H queue) w r w' ↔ r = .ok latency ∧ w' = w) ∧
        ((tailOf H.keys w.store queue).bind (payloadOf H.keys.jobs w.store) = none →
          latency = 0) := by
  refine ⟨keys.foldl (insertLive H.keys w snapshots) Table.empty,
    fun r w' => solo_queueLengthsAndLatencies h, fun queue => ?_, fun queue hqueue => ?_⟩
  · rw [find_foldl_insertLive]
    split
    · next hmem => simp [hmem]
    · next hmem => simp [hmem]
  · refine ⟨knownLength H.keys w.store snapshots queue, tailLatency H.keys w.store w.clock queue,
      ?_, fun n hn => ?_, fun hnone r w' => ?_, fun r w' => ?_, fun hnone => ?_⟩
    · rw [find_foldl_insertLive, if_pos hqueue]
      rfl
    · rw [knownLength, hn, Option.getD_some]
    · rw [enqueuedCount, solo_connection_bind, llen, solo_read_bind (h.lists queue hqueue),
        solo_pure, knownLength, hnone, Option.getD_none]
    · exact solo_latencyMicros (h.mono fun key hkey => hkey ▸ hqueue)
    · rw [tailLatency]
      cases htail : tailOf H.keys w.store queue with
      | none => rfl
      | some id =>
        rw [htail, Option.bind_some] at hnone
        rw [Option.bind_some, storedJob, hnone]
        rfl

end Reads

/-! ## One job -/

section OnePost

/-- The handle of the observer of the sample. -/
def observer : Handle := ⟨.new "app", "host", none⟩

/-- The world in which one job is in the queue for mails. -/
def onePost : World Unit :=
  ⟨(Store.empty.put (observer.keys.namespaceQueue "mail") (.list ["b"])).put observer.keys.jobs
    (.hash [("b", deadPost.encode)]), 1000, ()⟩

theorem onePost_readable :
    QueuesReadable observer.keys onePost.store (· ∈ ["mail", "idle", "mail"]) := by
  have hmail : observer.keys.namespaceQueue "mail" ≠ observer.keys.jobs := by decide +kernel
  have hidle : observer.keys.namespaceQueue "idle" ≠ observer.keys.jobs := by decide +kernel
  have hother : observer.keys.namespaceQueue "idle" ≠ observer.keys.namespaceQueue "mail" := by
    decide +kernel
  refine ⟨fun queue hqueue => ?_, Store.fits_put_self _, fun queue hqueue id _ payload hpay => ?_⟩
  · have hkept : (Store.empty.put (observer.keys.namespaceQueue "mail") (.list ["b"])).Fits
        (observer.keys.namespaceQueue "mail") .list := Store.fits_put_self _
    have hnone : Store.empty.Fits (observer.keys.namespaceQueue "idle") .list := .inl rfl
    have hcases : queue = "mail" ∨ queue = "idle" ∨ queue = "mail" := by simpa using hqueue
    rcases hcases with rfl | rfl | rfl
    · exact hkept.put _ fun h => absurd h hmail
    · exact (hnone.put _ fun h => absurd h hother).put _ fun h => absurd h hidle
    · exact hkept.put _ fun h => absurd h hmail
  · rw [payloadOf, onePost, Store.hash_put_self] at hpay
    have hpayload : payload = deadPost.encode := by
      by_cases hid : id = "b"
      · simpa [hid, eq_comm] using hpay
      · simp [List.lookup_cons, beq_false_of_ne hid] at hpay
    rw [hpayload, decode_encode]
    rfl

/-- Three reads of two queues: the queue with a job is found twice, and the idle one shows nothing.
-/
theorem onePost_read : ∃ live : Table String (ℕ × ℚ),
    (∀ r w', Solo Reliable (queueLengthsAndLatencies observer ["mail", "idle", "mail"] Table.empty)
      onePost r w' ↔ r = .ok (some live) ∧ w' = onePost) ∧
    (∀ queue, (live.find queue).isSome = true ↔ queue ∈ ["mail", "idle", "mail"]) ∧
    ∀ queue ∈ ["mail", "idle", "mail"], ∃ count latency,
      live.find queue = some (count, Float64.div latency 1000000) ∧
      ∀ r w', Solo Reliable (latencyMicros observer queue) onePost r w' ↔
        r = .ok latency ∧ w' = onePost := by
  obtain ⟨live, hrun, hkeys, hentries⟩ := batched_reads Table.empty onePost_readable
  refine ⟨live, hrun, hkeys, fun queue hqueue => ?_⟩
  obtain ⟨count, latency, hfind, -, -, hsingle, -⟩ := hentries queue hqueue
  exact ⟨count, latency, hfind, hsingle⟩

/-- The job has been waiting for 995 microseconds, and that many the single read returns. The batched
read writes down a double near 0.000995. -/
theorem onePost_seconds : ∃ live : Table String (ℕ × ℚ),
    (∀ r w', Solo Reliable (queueLengthsAndLatencies observer ["mail", "idle", "mail"] Table.empty)
      onePost r w' ↔ r = .ok (some live) ∧ w' = onePost) ∧
    ∃ count latency, live.find "mail" = some (count, latency) ∧
      ¬ ∀ r w', Solo Reliable (latencyMicros observer "mail") onePost r w' ↔
        r = .ok latency ∧ w' = onePost := by
  have hentry : (["mail", "idle", "mail"].foldl (insertLive observer.keys onePost Table.empty)
      Table.empty).find "mail" = some (liveEntry observer.keys onePost Table.empty "mail") := by
    rw [find_foldl_insertLive, if_pos List.mem_cons_self]
  refine ⟨_, fun r w' => solo_queueLengthsAndLatencies onePost_readable, _, _, hentry,
    fun hsame => ?_⟩
  have hsingle : Solo Reliable (latencyMicros observer "mail") onePost
      (.ok (tailLatency observer.keys onePost.store onePost.clock "mail")) onePost ↔ _ :=
    solo_latencyMicros (onePost_readable.mono fun queue hqueue => hqueue ▸ List.mem_cons_self)
  have hequal := Except.ok.inj ((hsame _ _).mp (hsingle.mpr ⟨rfl, rfl⟩)).1
  exact absurd hequal (by decide +kernel)

end OnePost

end Oxana
