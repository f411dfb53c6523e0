import Mathlib.Data.List.Basic
import Oxana.Envelope
import Oxana.Interleave.Channel

/-!
# Batchers

The jobs of a batch worker go through a channel to a task that collects them. It waits for a first
job, then for more until the batch is full, its time is up, nobody can send any more or the runtime
is cancelled. A cancelled batcher closes its channel and runs what is still in it.

One step of a batcher is the branch one `select!` takes, up to the next one. Which of the branches
that are ready it takes is left open, and so is when the time of a batch is up.
-/

namespace Oxana

open Interleave (Channel)

/-! ## What is batched -/

/-- How the jobs of a worker are batched. A size is a `usize` in the source, and twice the size must be
no more than a channel can hold; a size that breaks either bound panics or runs out of memory in
`spawn_batcher`, before a batcher runs. -/
structure WorkerBatchConfig where
  /-- the number of jobs of a full batch; here it has no bound -/
  size : ℕ
  /-- how long a batch waits for its jobs, in nanoseconds -/
  timeout : ℕ
  /-- the assertion of `WorkerBatchConfig::new` -/
  size_pos : 0 < size

/-- The permit a job was claimed under, by number. -/
abbrev QueuePermit := ℕ

/-- A job that was claimed for a batch worker and has not been started yet, with the permit it was
claimed under. -/
structure PendingJob where
  /-- the job -/
  envelope : JobEnvelope
  /-- released when the job is done -/
  permit : QueuePermit

/-- What jobs are batched by: only jobs of the same worker and of the same queue come into one
batch. -/
structure BatchKey where
  /-- the name of the job -/
  worker : String
  /-- the queue it was enqueued in -/
  queue : String
  deriving DecidableEq

/-- `BatchKey::from_envelope`: the worker and the queue of an envelope. -/
def BatchKey.fromEnvelope (e : JobEnvelope) : BatchKey := ⟨e.job.name, e.queue⟩

/-- The key by which a claimed job is batched. -/
def PendingJob.key (job : PendingJob) : BatchKey := .fromEnvelope job.envelope

/-! ## The task -/

/-- Where a batcher waits between two steps: in one of the `select!` loops, or nowhere if it has
returned. -/
inductive BatcherStage where
  /-- `run_batcher`, for the first job of a batch -/
  | idle
  /-- `run_batcher`, for the other jobs -/
  | gathering
  /-- `flush_batcher`, for what is left in the closed channel -/
  | flushing
  /-- it has returned -/
  | returned
  deriving DecidableEq

/-- The branch of a `select!` that is taken when the batcher wakes up; which of those that are ready
is left open. -/
inductive Wakeup where
  /-- `rx.recv()` -/
  | recv
  /-- the time of the batch is up -/
  | timeout
  /-- the runtime is cancelled -/
  | cancelled

/-- The task of a batcher with its channel, and beside it a record of the jobs it received and of
the batches it spawned. -/
structure Batcher where
  /-- how it batches -/
  config : WorkerBatchConfig
  /-- where it waits -/
  stage : BatcherStage
  /-- the channel its jobs come through -/
  rx : Channel PendingJob
  /-- the batch it is collecting -/
  pending : List PendingJob
  /-- every job it has received, in order -/
  received : List PendingJob
  /-- the batches it has spawned, in order -/
  batches : List (List PendingJob)

namespace Batcher

/-- What `spawn_batcher` starts, with room for two batches in the channel. -/
def new (config : WorkerBatchConfig) : Batcher :=
  ⟨config, .idle, .new (config.size * 2), [], [], []⟩

variable (b : Batcher)

/-- `spawn_batch`: what is pending is handed to a task, if there is anything. -/
def spawnBatch : Batcher :=
  if b.pending.isEmpty then b
  else { b with pending := [], batches := b.batches ++ [b.pending] }

/-- A job comes out of the channel and is pushed onto the batch. -/
def push (job : PendingJob) (rx : Channel PendingJob) : Batcher :=
  { b with rx, pending := b.pending ++ [job], received := b.received ++ [job] }

/-- Whether the batch has all its jobs. -/
def full : Bool := b.config.size ≤ b.pending.length

/-- The batcher goes on to another stage. -/
def goes (stage : BatcherStage) : Batcher := { b with stage }

/-- The cancelled batcher calls `flush_batcher`, which first closes the channel. -/
def flush : Batcher := { b with rx := b.rx.close, stage := .flushing }

/-- Returns, which drops the receiver and so closes the channel. -/
def returns : Batcher := { b with rx := b.rx.close, stage := .returned }

/-- One step of `run_batcher` or `flush_batcher`. `cancelled` tells whether the runtime is
cancelled, `senders` whether anyone can still send a job. -/
def step (cancelled senders : Bool) (w : Wakeup) : Option Batcher :=
  match b.stage, w with
  | .idle, .recv =>
    if b.pending.isEmpty then
      match b.rx.recv senders with
      | .message job rx =>
        if (b.push job rx).full || b.config.timeout = 0 then some (b.push job rx).spawnBatch
        else some ((b.push job rx).goes .gathering)
      | .finished => some b.returns
      | .nothing => none
    else none
  | .idle, .cancelled => if b.pending.isEmpty && cancelled then some b.flush else none
  | .gathering, .recv =>
    match b.rx.recv senders with
    | .message job rx =>
      if (b.push job rx).full then some ((b.push job rx).spawnBatch.goes .idle)
      else some (b.push job rx)
    | .finished => some b.spawnBatch.returns
    | .nothing => none
  | .gathering, .timeout => some (b.spawnBatch.goes .idle)
  | .gathering, .cancelled => if cancelled then some b.flush else none
  | .flushing, .recv =>
    match b.rx.recv senders with
    | .message job rx =>
      if (b.push job rx).full then some (b.push job rx).spawnBatch else some (b.push job rx)
    | .finished => some b.spawnBatch.returns
    | .nothing => none
  | _, _ => none

/-! ## What a step does -/

section

variable {b : Batcher}

/-- Spawning a batch leaves nothing pending, and adds the batch unless it is empty. -/
theorem spawnBatch_eq : b.spawnBatch = { b with
    pending := [], batches := if b.pending.isEmpty then b.batches else b.batches ++ [b.pending] } := by
  simp only [spawnBatch]
  split
  next h =>
    rw [List.isEmpty_iff] at h
    rw [← h]
  next => rfl

/-- A step receives a job, which may fill the batch, finds the end of the channel, finds that the
time is up, or flushes because the runtime is cancelled. -/
theorem step_cases {cancelled senders : Bool} {w : Wakeup} {b' : Batcher}
    (h : b.step cancelled senders w = some b') :
    (∃ job rx stage, b.rx.recv senders = .message job rx ∧ b.stage ≠ .returned ∧
      stage ≠ .returned ∧ (stage = .flushing → b.stage = .flushing) ∧
      (b' = (b.push job rx).spawnBatch.goes stage ∨
        stage ≠ .idle ∧ (b.push job rx).full = false ∧ b' = (b.push job rx).goes stage)) ∨
    (b.rx.recv senders = .finished ∧ b' = b.spawnBatch.returns) ∨
    (b.stage = .gathering ∧ b' = b.spawnBatch.goes .idle) ∨
    (b.stage ≠ .returned ∧ cancelled = true ∧ b' = b.flush) := by
  simp only [step] at h
  split at h
  next hs =>
    split at h
    next hp =>
      split at h
      next job rx hr =>
        left
        split at h
        next =>
          cases h
          refine ⟨job, rx, .idle, hr, by simp [hs], by simp, nofun, .inl ?_⟩
          rw [spawnBatch_eq]
          simp only [goes, push, hs]
        next hf =>
          cases h
          rw [Bool.not_eq_true, Bool.or_eq_false_iff] at hf
          exact ⟨job, rx, .gathering, hr, by simp [hs], by simp, nofun,
            .inr ⟨by simp, hf.1, rfl⟩⟩
      next hr =>
        cases h
        refine .inr (.inl ⟨hr, ?_⟩)
        rw [spawnBatch, if_pos hp]
      next => cases h
    next => cases h
  next hs =>
    split at h
    next hc =>
      cases h
      exact .inr (.inr (.inr ⟨by simp [hs], by simp_all, rfl⟩))
    next => cases h
  next hs =>
    split at h
    next job rx hr =>
      left
      split at h
      next =>
        cases h
        exact ⟨job, rx, .idle, hr, by simp [hs], by simp, nofun, .inl rfl⟩
      next hf =>
        cases h
        refine ⟨job, rx, .gathering, hr, by simp [hs], by simp, nofun,
          .inr ⟨by simp, by simpa using hf, ?_⟩⟩
        simp only [goes, push, hs]
    next hr =>
      cases h
      exact .inr (.inl ⟨hr, rfl⟩)
    next => cases h
  next hs =>
    cases h
    exact .inr (.inr (.inl ⟨hs, rfl⟩))
  next hs =>
    split at h
    next hc =>
      cases h
      exact .inr (.inr (.inr ⟨by simp [hs], hc, rfl⟩))
    next => cases h
  next hs =>
    split at h
    next job rx hr =>
      left
      split at h
      next =>
        cases h
        refine ⟨job, rx, .flushing, hr, by simp [hs], by simp, fun _ => hs, .inl ?_⟩
        rw [spawnBatch_eq]
        simp only [goes, push, hs]
      next hf =>
        cases h
        refine ⟨job, rx, .flushing, hr, by simp [hs], by simp, fun _ => hs,
          .inr ⟨by simp, by simpa using hf, ?_⟩⟩
        simp only [goes, push, hs]
    next hr =>
      cases h
      exact .inr (.inl ⟨hr, rfl⟩)
    next => cases h
  next => cases h

/-! ## The batches are what was received -/

/-- The batches and what is pending are what was received, and no batch is empty or too large. -/
structure Tallied (b : Batcher) : Prop where
  partition : b.batches.flatten ++ b.pending = b.received
  sized : ∀ batch ∈ b.batches, batch ≠ [] ∧ batch.length ≤ b.config.size
  bounded : b.pending.length ≤ b.config.size

/-- Between two steps the pending batch is also not full yet, and it is empty where a new batch is
waited for. -/
structure Sound (b : Batcher) : Prop extends Tallied b where
  short : b.pending.length < b.config.size
  empty : b.stage = .idle ∨ b.stage = .returned → b.pending = []
  closed : b.stage = .flushing ∨ b.stage = .returned → b.rx.closed = true
  room : 0 < b.rx.capacity

/-- A new batcher has received nothing and spawned nothing. -/
theorem sound_new (config : WorkerBatchConfig) : (new config).Sound where
  partition := rfl
  sized := by
    intro batch h
    cases h
  bounded := Nat.zero_le _
  short := config.size_pos
  empty := fun _ => rfl
  closed := fun h => by rcases h with h | h <;> cases h
  room := Nat.mul_pos config.size_pos Nat.two_pos

/-- A spawned batch leaves nothing pending, and what has been received is still accounted for. -/
theorem Tallied.spawnBatch (h : b.Tallied) : b.spawnBatch.Tallied := by
  rw [spawnBatch_eq]
  refine ⟨?_, ?_, Nat.zero_le _⟩
  · rw [← h.partition, List.append_nil]
    simp only
    split
    next hp => rw [List.isEmpty_iff.mp hp, List.append_nil]
    next => rw [List.flatten_append, List.flatten_singleton]
  · intro batch hb
    simp only at hb ⊢
    split at hb
    next => exact h.sized batch hb
    next hp =>
      rcases List.mem_append.mp hb with hb | hb
      · exact h.sized batch hb
      · rw [List.mem_singleton.mp hb]
        exact ⟨by simpa using hp, h.bounded⟩

/-- What was spawned goes to a stage in which nothing is pending. -/
theorem Tallied.sound_spawnBatch (h : b.Tallied) {stage : BatcherStage}
    (hc : stage = .flushing ∨ stage = .returned → b.rx.closed = true)
    (hroom : 0 < b.rx.capacity) : (b.spawnBatch.goes stage).Sound := by
  have ht := h.spawnBatch
  rw [spawnBatch_eq] at ht ⊢
  exact ⟨⟨ht.partition, ht.sized, ht.bounded⟩, b.config.size_pos, fun _ => rfl, hc, hroom⟩

/-- A job pushed onto a batch that was not full does not make it too large. -/
theorem Sound.push (h : b.Sound) (job : PendingJob) (rx : Channel PendingJob) :
    (b.push job rx).Tallied := by
  refine ⟨?_, h.sized, ?_⟩
  · show b.batches.flatten ++ (b.pending ++ [job]) = b.received ++ [job]
    rw [← List.append_assoc, h.partition]
  · show (b.pending ++ [job]).length ≤ b.config.size
    rw [List.length_append]
    exact h.short

/-- Every step of a batcher keeps the tally: what it has received is in its batches or pending, in
order. -/
theorem Sound.step (h : b.Sound) {cancelled senders : Bool} {w : Wakeup} {b' : Batcher}
    (hstep : b.step cancelled senders w = some b') : b'.Sound := by
  obtain ⟨job, rx, stage, hr, hs, hs', hf, hb⟩ | ⟨hr, rfl⟩ | ⟨hs, rfl⟩ | ⟨hs, hc, rfl⟩ :=
    step_cases hstep
  · have hp := h.push job rx
    have hclosed : stage = .flushing ∨ stage = .returned → rx.closed = true := by
      rintro (hstage | hstage)
      · rw [(Channel.recv_message hr).2]
        exact h.closed (.inl (hf hstage))
      · exact absurd hstage hs'
    have hroom : 0 < rx.capacity := by
      rw [(Channel.recv_message hr).2]
      exact h.room
    rcases hb with rfl | ⟨hidle, hfull, rfl⟩
    · exact hp.sound_spawnBatch hclosed hroom
    · refine ⟨⟨hp.partition, hp.sized, hp.bounded⟩, ?_, ?_, hclosed, hroom⟩
      · exact Nat.lt_of_not_le (of_decide_eq_false hfull)
      · rintro (hstage | hstage)
        · exact absurd hstage hidle
        · exact absurd hstage hs'
  · have hsp : (b.spawnBatch.goes .idle).Sound := h.toTallied.sound_spawnBatch (by simp) h.room
    exact ⟨⟨hsp.partition, hsp.sized, hsp.bounded⟩, hsp.short, fun _ => hsp.empty (.inl rfl),
      fun _ => rfl, hsp.room⟩
  · exact h.toTallied.sound_spawnBatch (by simp) h.room
  · refine ⟨⟨h.partition, h.sized, h.bounded⟩, h.short, ?_, fun _ => rfl, h.room⟩
    rintro (hstage | hstage) <;> cases hstage

/-- The tally is not concerned by what senders do to the channel. -/
theorem Sound.withRx (h : b.Sound) {rx : Channel PendingJob} (hrx : rx.closed = b.rx.closed)
    (hcap : rx.capacity = b.rx.capacity) : ({ b with rx } : Batcher).Sound :=
  ⟨⟨h.partition, h.sized, h.bounded⟩, h.short, h.empty, fun hs => hrx.trans (h.closed hs),
    hcap ▸ h.room⟩

/-! ## What is delivered -/

/-- The jobs a batcher has received and those in its channel, in the order they were sent. -/
def delivered (b : Batcher) : List PendingJob := b.received ++ b.rx.queue

/-- Receiving is not losing: what has been delivered is received or still in the channel. -/
theorem step_delivered {cancelled senders : Bool} {w : Wakeup} {b' : Batcher}
    (h : b.step cancelled senders w = some b') : b'.delivered = b.delivered := by
  have hpush {job : PendingJob} {rx : Channel PendingJob}
      (hr : b.rx.recv senders = .message job rx) :
      (b.received ++ [job]) ++ rx.queue = b.received ++ b.rx.queue := by
    rw [(Channel.recv_message hr).1, List.append_assoc, List.singleton_append]
  obtain ⟨job, rx, stage, hr, -, -, -, rfl | ⟨-, -, rfl⟩⟩ | ⟨-, rfl⟩ | ⟨-, rfl⟩ | ⟨-, -, rfl⟩ :=
    step_cases h
  · rw [spawnBatch_eq]
    exact hpush hr
  · exact hpush hr
  · rw [spawnBatch_eq]
    rfl
  · rw [spawnBatch_eq]
    rfl
  · rfl

/-- A batcher does not touch the places given to senders. -/
theorem step_promised {cancelled senders : Bool} {w : Wakeup} {b' : Batcher}
    (h : b.step cancelled senders w = some b') : b'.rx.promised = b.rx.promised := by
  have hpush {job : PendingJob} {rx : Channel PendingJob}
      (hr : b.rx.recv senders = .message job rx) : rx.promised = b.rx.promised := by
    rw [(Channel.recv_message hr).2]
  obtain ⟨job, rx, stage, hr, -, -, -, rfl | ⟨-, -, rfl⟩⟩ | ⟨-, rfl⟩ | ⟨-, rfl⟩ | ⟨-, -, rfl⟩ :=
    step_cases h
  · rw [spawnBatch_eq]
    exact hpush hr
  · exact hpush hr
  · rw [spawnBatch_eq]
    rfl
  · rw [spawnBatch_eq]
    rfl
  · rfl

/-- A batcher returns only at the end of its channel. -/
theorem step_returned {cancelled senders : Bool} {w : Wakeup} {b' : Batcher}
    (h : b.step cancelled senders w = some b') (hb' : b'.stage = .returned) :
    b.rx.Finished senders ∧ b'.rx = b.rx.close := by
  obtain ⟨job, rx, stage, -, -, hs, -, rfl | ⟨-, -, rfl⟩⟩ | ⟨hr, rfl⟩ | ⟨-, rfl⟩ | ⟨-, -, rfl⟩ :=
    step_cases h
  · exact absurd hb' hs
  · exact absurd hb' hs
  · refine ⟨Channel.recv_finished.mp hr, ?_⟩
    rw [spawnBatch_eq]
    rfl
  · cases hb'
  · cases hb'

/-! ## Getting rid of what it has -/

/-- Every job that was sent to the batcher is in a batch it has spawned: its channel and its pending
batch are empty. -/
structure Drained (b : Batcher) : Prop where
  queue : b.rx.queue = []
  pending : b.pending = []

/-- How far a batcher is from being drained: each step that takes a job lowers it. -/
def rank (b : Batcher) : ℕ := 2 * b.rx.queue.length + if b.pending = [] then 0 else 1

theorem rank_spawnBatch_goes (stage : BatcherStage) :
    (b.spawnBatch.goes stage).rank = 2 * b.rx.queue.length := by
  rw [spawnBatch_eq]
  rfl

theorem rank_le : b.rank ≤ 2 * b.rx.queue.length + 1 := by
  simp only [rank]
  split <;> omega

/-- A batcher that is not drained has a step to take that brings it nearer, as long as no place of
its channel is given out. -/
theorem Sound.nearer (h : b.Sound) (cancelled senders : Bool) (hp : b.rx.promised = 0)
    (hret : b.stage = .returned → b.rx.queue = []) (hd : ¬ b.Drained) :
    ∃ w b', b.step cancelled senders w = some b' ∧ b'.rank < b.rank := by
  cases hq : b.rx.queue with
  | cons job rest =>
    -- it receives the next job
    obtain ⟨rx, hrecv, hrx⟩ : ∃ rx, b.rx.recv senders = .message job rx ∧ rx.queue = rest :=
      ⟨_, Channel.recv_cons hq senders, rfl⟩
    have hrank : 2 * rx.queue.length + 1 < b.rank := by
      rw [rank, hq, hrx, List.length_cons]
      omega
    have hspawn (stage : BatcherStage) :
        ((b.push job rx).spawnBatch.goes stage).rank < b.rank := by
      rw [rank_spawnBatch_goes]
      exact Nat.lt_of_succ_lt hrank
    have hpush (stage : BatcherStage) :
        ((b.push job rx).goes stage).rank < b.rank :=
      Nat.lt_of_le_of_lt rank_le hrank
    cases hs : b.stage with
    | idle =>
      have hempty := h.empty (.inl hs)
      by_cases hf : ((b.push job rx).full || b.config.timeout = 0) = true
      · refine ⟨.recv, (b.push job rx).spawnBatch, ?_, hspawn (b.push job rx).spawnBatch.stage⟩
        simp only [Batcher.step]
        simp only [hs, hrecv, hempty, List.isEmpty_nil, if_true, if_pos hf]
      · refine ⟨.recv, _, ?_, hpush .gathering⟩
        simp only [Batcher.step]
        simp only [hs, hrecv, hempty, List.isEmpty_nil, if_true, if_neg hf]
    | gathering =>
      by_cases hf : (b.push job rx).full = true
      · refine ⟨.recv, _, ?_, hspawn .idle⟩
        simp only [Batcher.step]
        simp only [hs, hrecv, if_pos hf]
      · refine ⟨.recv, b.push job rx, ?_, hpush b.stage⟩
        simp only [Batcher.step]
        simp only [hs, hrecv, if_neg hf]
    | flushing =>
      by_cases hf : (b.push job rx).full = true
      · refine ⟨.recv, (b.push job rx).spawnBatch, ?_, ?_⟩
        · simp only [Batcher.step]
          simp only [hs, hrecv, if_pos hf]
        · exact hspawn (b.push job rx).spawnBatch.stage
      · refine ⟨.recv, b.push job rx, ?_, hpush b.stage⟩
        simp only [Batcher.step]
        simp only [hs, hrecv, if_neg hf]
    | returned =>
      rw [hret hs] at hq
      cases hq
  | nil =>
    -- it spawns what is pending
    have hpending : b.pending ≠ [] := fun hpend => hd ⟨hq, hpend⟩
    have hrank : b.rank = 1 := by rw [rank, hq, if_neg hpending, List.length_nil]
    cases hs : b.stage with
    | idle => exact absurd (h.empty (.inl hs)) hpending
    | gathering =>
      refine ⟨.timeout, b.spawnBatch.goes .idle, ?_, ?_⟩
      · simp only [Batcher.step]
        simp only [hs]
      · rw [rank_spawnBatch_goes, hq, hrank]
        exact Nat.one_pos
    | flushing =>
      have hfin : b.rx.recv senders = .finished :=
        Channel.recv_finished.mpr ⟨hq, .inl ⟨h.closed (.inl hs), hp⟩⟩
      refine ⟨.recv, b.spawnBatch.returns, ?_, ?_⟩
      · simp only [Batcher.step]
        simp only [hs, hfin]
      · have := rank_spawnBatch_goes (b := b) .returned
        rw [hq] at this
        rw [hrank]
        exact this ▸ Nat.one_pos
    | returned => exact absurd (h.empty (.inr hs)) hpending

end

end Batcher

end Oxana
