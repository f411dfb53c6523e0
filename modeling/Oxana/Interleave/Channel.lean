import Mathlib.Data.List.Basic

/-!
# Bounded channels

A channel of many senders and one receiver. A sender first **reserves** a place and then puts its
message there, so a receiver that closes the channel in between still gets that message: a closed
channel gives out no more places, and it is finished only when every place given out was used and
every message was received. A channel all of whose senders are gone is finished once it is empty.
-/

namespace Interleave

variable {α : Type}

/-- A bounded channel: messages in their order, places that are promised, and whether it has been
closed. -/
structure Channel (α : Type) where
  /-- how many messages and promised places it holds at most -/
  capacity : ℕ
  /-- sent and not received, the oldest first -/
  queue : List α
  /-- the places given to senders that have not put their message yet -/
  promised : ℕ
  /-- the receiver accepts no new messages -/
  closed : Bool

/-- What a receiver finds: a message, nothing yet, or that nothing can come any more. -/
inductive Channel.Receipt (α : Type) where
  /-- the oldest message, and the channel without it -/
  | message (a : α) (rest : Channel α)
  /-- the end: nothing will come any more -/
  | finished
  /-- nothing yet -/
  | nothing

namespace Channel

/-- An empty and open channel in which no place is promised. -/
def new (capacity : ℕ) : Channel α := ⟨capacity, [], 0, false⟩

/-- Gives a place to a sender, when the channel is open and has one. -/
def reserve (c : Channel α) : Option (Channel α) :=
  if c.closed = false ∧ c.queue.length + c.promised < c.capacity then
    some { c with promised := c.promised + 1 }
  else none

/-- A sender puts its message in the place it was given. -/
def put (c : Channel α) (a : α) : Channel α :=
  { c with queue := c.queue ++ [a], promised := c.promised - 1 }

/-- The receiver closes the channel, after which nothing can be sent; what is in it can still be
received. -/
def close (c : Channel α) : Channel α := { c with closed := true }

/-- The receiver asks for a message; `senders` tells whether anyone can still send. -/
def recv (c : Channel α) (senders : Bool) : Receipt α :=
  match c.queue with
  | a :: rest => .message a { c with queue := rest }
  | [] => if (c.closed = true ∧ c.promised = 0) ∨ senders = false then .finished else .nothing

/-- Nothing will come any more: the channel is empty, and it is closed with no place given out or
nobody can send. -/
structure Finished (c : Channel α) (senders : Bool) : Prop where
  empty : c.queue = []
  shut : (c.closed = true ∧ c.promised = 0) ∨ senders = false

/-- A channel that is finished stays so when senders go away; none ever come back. -/
theorem Finished.mono {c : Channel α} {senders senders' : Bool} (h : c.Finished senders)
    (hle : senders' = true → senders = true) : c.Finished senders' := by
  refine ⟨h.empty, h.shut.imp_right fun hs => ?_⟩
  cases senders'
  · rfl
  · exact (hs ▸ hle rfl : false = true).symm

/-- The message that is received was the oldest one, and nothing else about the channel changes. -/
theorem recv_message {c rest : Channel α} {senders : Bool} {a : α}
    (h : c.recv senders = .message a rest) :
    c.queue = a :: rest.queue ∧ rest = { c with queue := rest.queue } := by
  simp only [recv] at h
  cases hq : c.queue with
  | nil =>
    rw [hq] at h
    simp only at h
    split at h <;> cases h
  | cons b bs =>
    rw [hq] at h
    simp only [Receipt.message.injEq] at h
    obtain ⟨rfl, rfl⟩ := h
    exact ⟨rfl, rfl⟩

/-- The receiver is told that a channel is finished exactly if nothing will come any more. -/
theorem recv_finished {c : Channel α} {senders : Bool} :
    c.recv senders = .finished ↔ c.Finished senders := by
  simp only [recv]
  cases hq : c.queue with
  | nil =>
    simp only
    constructor
    · intro h
      refine ⟨hq, ?_⟩
      by_contra hn
      rw [if_neg hn] at h
      cases h
    · exact fun h => if_pos h.shut
  | cons a as =>
    refine ⟨nofun, fun h => ?_⟩
    rw [h.empty] at hq
    cases hq

/-- A channel with messages always gives the oldest one, closed or not. -/
theorem recv_cons {c : Channel α} {a : α} {rest : List α} (h : c.queue = a :: rest)
    (senders : Bool) : c.recv senders = .message a { c with queue := rest } := by
  simp only [recv, h]

/-- A place is given out exactly if the channel is open and not all of its places are taken or
promised. -/
theorem reserve_eq_some {c c' : Channel α} :
    c.reserve = some c' ↔ c.closed = false ∧ c.queue.length + c.promised < c.capacity ∧
      c' = { c with promised := c.promised + 1 } := by
  simp only [reserve]
  split
  next h => exact ⟨fun h' => ⟨h.1, h.2, (Option.some.inj h').symm⟩, fun h' => by rw [h'.2.2]⟩
  next h => exact ⟨nofun, fun h' => absurd ⟨h'.1, h'.2.1⟩ h⟩

end Channel

end Interleave
