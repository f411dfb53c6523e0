import Oxana.Labelled

/-!
# Enqueueing, with its requests spelled out

The label of a step says what kind of request it is. For an account of what an
enqueue request has written that is not enough: one has to know which envelopes
a call of the script was about. Here are the operations once more, with the
arguments of the script as the label of its call. Nothing else is different
(`enqueueList_erase`, `tryEnqueue_erase`): told apart are only the labels.
-/

namespace Oxana

open Redis Interleave

/-- A request as it is sent, with the arguments of the script if it is one. -/
inductive Sent where
  /-- any but a call of `enqueue.lua` -/
  | request (r : Request)
  /-- a call of `enqueue.lua` and its arguments -/
  | submission (destination : JobDestination) (snapshots : Snapshots) (pending : List JobEnvelope)

/-- Which kind of request it is, without its arguments. -/
def Sent.kind : Sent → Request
  | .request r => r
  | .submission _ _ pending => .enqueue (pending.map (·.id))

variable {γ α β : Type}

/-- A client that may fail and whose requests are spelled out. -/
abbrev Itemized (γ α : Type) : Type := Labelled Sent γ α

namespace Itemized

/-- A client that does not call the script. -/
abbrev plain (x : Call γ α) : Itemized γ α := Labelled.plain Sent.request x

/-- The client as it is without the arguments of its requests. -/
def erase (x : Itemized γ α) : Call γ α := Prog.relabel Sent.kind x

section Operations

variable (K : StorageKeys)

/-- Call the script with these envelopes and snapshots. -/
def submit (destination : JobDestination) (snapshots : Snapshots) (pending : List JobEnvelope) :
    Itemized γ EnqueueReply :=
  Prog.relabel (fun _ => .submission destination snapshots pending)
    (send (.enqueue (pending.map (·.id)))
      (enqueueCall K destination snapshots pending))

/-- Call the script until no snapshot has changed under it. -/
def enqueueLoop (destination : JobDestination) (pending : List JobEnvelope) :
    Nat → Snapshots → Itemized γ (List JobId)
  | 0, _ => Labelled.hang
  | n + 1, snapshots => do
    let reply ← submit K destination snapshots pending
    if reply.changed = [] then pure (writtenOf pending reply.outcomes)
    else do
      let snapshots ← plain (addSnapshots reply.changed snapshots)
      enqueueLoop destination pending n snapshots

/-- The part of a chunk after its reads: the script is called, if anything is left. -/
def enqueuePending (destination : JobDestination) (snapshots : Snapshots)
    (pending : List JobEnvelope) : Itemized γ (List JobId) :=
  if pending = [] then pure []
  else Labelled.ask fun c => enqueueLoop K destination pending c.rounds snapshots

/-- A chunk with unique jobs, less those this request has already written. -/
def enqueueUnique (destination : JobDestination) (pending : List JobEnvelope) :
    Itemized γ (List JobId) :=
  if pending = [] then pure []
  else do
    let snapshots ← plain (readSnapshots K (replacementIds pending []))
    let existing ← plain (readExisting K (skipIds pending snapshots))
    enqueuePending K destination snapshots
      (dropExisting (snapshotSkips pending snapshots ++ existing) pending)

/-- `enqueue_chunk_w_conn`: ordinary jobs by a pipeline, unique ones by the script. -/
def enqueueChunk (envelopes : List JobEnvelope) (destination : JobDestination)
    (written : List JobId) : Itemized γ (List JobId) :=
  if envelopes.all fun e => !e.jobMeta.unique then do
    let _ ← plain (pipe .hset (envelopes.flatMap (ordinaryWrites K destination)))
    pure written
  else do
    let new ← enqueueUnique K destination (pendingOf written envelopes [])
    pure (new ++ written)

/-- The chunks of a request, one after the other. -/
def enqueueChunks (destination : JobDestination) :
    List (List JobEnvelope) → List JobId → Itemized γ Unit
  | [], _ => pure ()
  | c :: cs, written => do
    let written ← enqueueChunk K c destination written
    enqueueChunks destination cs written

/-- `enqueue_list`: the envelopes are enqueued chunk by chunk. -/
def enqueueList (envelopes : List JobEnvelope) : Itemized γ (List JobId) :=
  if envelopes = [] then pure []
  else do
    plain connection
    enqueueChunks K .queue (enqueueListChunks envelopes) []
    pure (envelopes.map (·.id))

/-- `try_enqueue`: one envelope is enqueued, and its id returned if it has been written. -/
def tryEnqueue (e : JobEnvelope) : Itemized γ (Option JobId) := do
  plain connection
  let written ← enqueueChunk K [e] .queue []
  pure (if !e.jobMeta.unique || e.id ∈ written then some e.id else none)

end Operations

/-! ## Nothing else is different -/

/-- A call that returns at once stays that when its items are erased. -/
@[simp] theorem pure_erase (a : α) : (pure a : Itemized γ α).erase = pure a := rfl

@[simp] theorem hang_erase : erase (Labelled.hang : Itemized γ α) = Call.hang := rfl

@[simp] theorem ask_erase (k : Choice → Itemized γ α) :
    erase (Labelled.ask k) = Call.ask fun c => erase (k c) := rfl

/-- Erasing commutes with making one call after another. -/
@[simp] theorem bind_erase (x : Itemized γ α) (f : α → Itemized γ β) :
    (x >>= f).erase = x.erase >>= fun a => (f a).erase := by
  refine (Prog.relabel_bind ..).trans (congrArg (Prog.bind x.erase) (funext fun r => ?_))
  cases r with
  | ok a => rfl
  | error e => rfl

@[simp] theorem plain_erase (x : Call γ α) : (plain x).erase = x :=
  (Prog.relabel_relabel ..).trans (Prog.relabel_id x)

@[simp] theorem ite_erase {p : Prop} [Decidable p] (x y : Itemized γ α) :
    (if p then x else y).erase = if p then x.erase else y.erase := by
  split <;> rfl

/-- The one request of a sender becomes again what it was when its items are forgotten. -/
@[simp] theorem submit_erase (K : StorageKeys) (destination : JobDestination)
    (snapshots : Snapshots) (pending : List JobEnvelope) :
    (submit K destination snapshots pending : Itemized γ EnqueueReply).erase =
      send (.enqueue (pending.map (·.id)))
      (enqueueCall K destination snapshots pending) := by
  refine (Prog.relabel_relabel ..).trans (congrArg Prog.ask (funext fun c => ?_))
  obtain ⟨delivery⟩ := c
  cases delivery with
  | lost => rfl
  | replyLost => rfl
  | answered => rfl

variable (K : StorageKeys) (destination : JobDestination)

/-- Without its items, the loop of the sender that says what it writes is the loop of the sender. -/
theorem enqueueLoop_erase (pending : List JobEnvelope) (n : Nat) (m : Snapshots) :
    (enqueueLoop K destination pending n m : Itemized γ (List JobId)).erase =
      Oxana.enqueueLoop K destination pending n m := by
  induction n generalizing m with
  | zero => rfl
  | succ n ih =>
    rw [enqueueLoop, Oxana.enqueueLoop]
    simp only [bind_erase, submit_erase, ite_erase, pure_erase, plain_erase, ih]

theorem enqueuePending_erase (m : Snapshots) (pending : List JobEnvelope) :
    (enqueuePending K destination m pending : Itemized γ (List JobId)).erase =
      Oxana.enqueuePending K destination m pending := by
  rw [enqueuePending, Oxana.enqueuePending]
  simp only [ite_erase, pure_erase, ask_erase, enqueueLoop_erase]

theorem enqueueUnique_erase (pending : List JobEnvelope) :
    (enqueueUnique K destination pending : Itemized γ (List JobId)).erase =
      Oxana.enqueueUnique K destination pending := by
  rw [enqueueUnique, Oxana.enqueueUnique]
  simp only [ite_erase, pure_erase, bind_erase, plain_erase, enqueuePending_erase]

/-- Without its items, enqueueing a chunk is what it was. -/
theorem enqueueChunk_erase (es : List JobEnvelope) (written : List JobId) :
    (enqueueChunk K es destination written : Itemized γ (List JobId)).erase =
      Oxana.enqueueChunk K es destination written := by
  rw [enqueueChunk, Oxana.enqueueChunk]
  simp only [ite_erase, pure_erase, bind_erase, plain_erase, enqueueUnique_erase]

theorem enqueueChunks_erase (cs : List (List JobEnvelope)) (written : List JobId) :
    (enqueueChunks K destination cs written : Itemized γ Unit).erase =
      Oxana.enqueueChunks K destination cs written := by
  induction cs generalizing written with
  | nil => rfl
  | cons c cs ih =>
    rw [enqueueChunks, Oxana.enqueueChunks]
    simp only [bind_erase, enqueueChunk_erase, ih]

/-- Without its items, enqueueing a list of jobs is what it was. -/
theorem enqueueList_erase (es : List JobEnvelope) :
    (enqueueList K es : Itemized γ (List JobId)).erase = Oxana.enqueueList K es := by
  rw [enqueueList, Oxana.enqueueList]
  simp only [ite_erase, pure_erase, bind_erase, plain_erase, enqueueChunks_erase]

/-- Without its items, enqueueing one job is what it was. -/
theorem tryEnqueue_erase (e : JobEnvelope) :
    (tryEnqueue K e : Itemized γ (Option JobId)).erase = Oxana.tryEnqueue K e := by
  rw [tryEnqueue, Oxana.tryEnqueue]
  simp only [bind_erase, plain_erase, enqueueChunk_erase, pure_erase]

/-! ## How a trace begins -/

section Traces

variable {tr : List (Prog.Event Sent (World γ))} {q : Prog Sent (World γ) Choice (Except OxanaError β)}

/-- The script is called at most once: a trace of this request is empty, and then there is no reply,
or it is the one event of the call. -/
theorem trace_submit {K : StorageKeys} {destination : JobDestination} {m : Snapshots}
    {pending : List JobEnvelope} {q : Prog Sent (World γ) Choice (Except OxanaError EnqueueReply)}
    (h : Prog.Trace (submit K destination m pending : Itemized γ EnqueueReply) tr q) :
    (tr = [] ∧ ∀ reply, q ≠ .ret (.ok reply)) ∨
      ∃ w, tr = [⟨.submission destination m pending, w,
          w.after (enqueueCall K destination m pending)⟩] ∧
        ∀ reply, q = .ret (.ok reply) →
          (enqueueCall K destination m pending w.store).1 = .ok reply := by
  obtain ⟨tr', q', rfl, rfl, h'⟩ := Prog.Trace.of_relabel h
  by_cases hq : ∃ reply, q' = .ret (.ok reply)
  · obtain ⟨reply, rfl⟩ := hq
    obtain ⟨w, rfl, hreply⟩ := Call.Returns.send_inv h'
    refine .inr ⟨w, rfl, fun reply' hr => ?_⟩
    cases hr
    exact hreply
  · have hno : ∀ reply, q'.relabel (fun _ => Sent.submission destination m pending) ≠
        .ret (.ok reply) := fun reply hr => hq ⟨reply, Prog.ret_of_relabel hr.symm⟩
    rcases Call.trace_send h' with rfl | ⟨w, rfl⟩
    · exact .inl ⟨rfl, hno⟩
    · exact .inr ⟨w, rfl, fun reply hr => absurd hr (hno reply)⟩

end Traces

end Itemized

end Oxana
