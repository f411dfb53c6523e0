import Oxana.Alone
import Oxana.ReviveDead
import Oxana.Sweep
import Oxana.Redis.Contents

/-!
# Conditions on the store that transitions keep

Which conditions on the stored payloads, on list items and on members of sorted sets
(`Redis.Contents`) the transitions keep. What they move from one place to another has to be allowed
there as well: a member of a sorted set becomes an item. What they write must be allowed where it is
written (`Redis.Contents.Accepts`).
-/

namespace Oxana

open Redis Script Interleave

/-! ## Scripts -/

section Scripts

variable {C : Contents} {jobs schedule retry dead processing set queue : Key} {id : JobId}
  {payload : String}

/-- The type checks of a script write nothing. -/
theorem checkTypes_keeps {I : Store → Prop} (transition : String) (ks : List (Key × Kind)) :
    Keeps I (checkTypes transition ks) fun _ => True := by
  refine .read (fun s => ?_) fun _ _ _ _ => trivial
  rcases checkTypes_checks transition ks s with ⟨_, h, -⟩ | ⟨_, h⟩
  · rw [h]
  · rw [h]

/-- A retry stores a payload and a member of the retry set, both of which what is held has to
accept. -/
theorem retryFailed_keeps {score : Int} (hfield : jobs = C.hash → C.field id payload)
    (hmember : C.member id) :
    Keeps C.Hold (retryFailed jobs retry processing id payload score) fun _ => True :=
  (checkTypes_keeps _ _).bind fun _ _ => (Keeps.hset hfield).bind fun _ _ =>
    (Keeps.zadd hmember).bind fun _ _ => .lremFirst id

/-- A job that is given up leaves a copy on the dead list, which has to be accepted there. -/
theorem finishDead_keeps {limit : Nat} (hitem : C.item payload) :
    Keeps C.Hold (finishDead jobs dead processing id payload limit) fun _ => True := by
  refine (checkTypes_keeps _ _).bind fun _ _ => (Keeps.lpush hitem).bind fun _ _ =>
    (Keeps.hdel [id]).bind fun _ _ => (Keeps.lremFirst id).bind fun _ _ => ?_
  split
  · exact .ltrim limit
  · exact .pure trivial

/-- A promotion takes a member out of the delayed set and puts its id on a ready list. -/
theorem promoteScheduled_keeps {score : Int} (hmoves : ∀ x, C.member x → C.item x) :
    Keeps C.Hold (promoteScheduled jobs set queue id payload score) fun _ => True := by
  refine (checkTypes_keeps _ _).bind fun _ _ => (Keeps.zscore id).bind fun t ht => ?_
  by_cases hscore : t ≠ some score
  · rw [if_pos hscore]
    exact .pure trivial
  · rw [if_neg hscore]
    have hitem : C.item id := hmoves id (ht (not_not.mp hscore ▸ Option.some_ne_none score))
    refine (Keeps.hget id).bind fun p _ => ?_
    split
    · exact .pure trivial
    · split
      · exact (Keeps.lpush hitem).bind fun _ _ => (Keeps.zrem id).bind fun _ _ => .pure trivial
      · exact (Keeps.zrem id).bind fun _ _ => .pure trivial

/-- A recovery moves an id from a processing list to a ready list, or drops it. -/
theorem resurrectClaim_keeps (again : Bool) :
    Keeps C.Hold (resurrectClaim jobs processing queue id payload again) fun _ => True := by
  refine (checkTypes_keeps _ _).bind fun _ _ => (Keeps.lpos id).bind fun claimed hclaimed => ?_
  cases claimed with
  | false => exact .pure trivial
  | true =>
    have hrelease : Keeps C.Hold (lremFirst processing id >>= fun _ => Pure.pure 1)
        fun _ => True := (Keeps.lremFirst id).bind fun _ _ => .pure trivial
    refine (Keeps.hget id).bind fun p _ => ?_
    split
    · exact .pure trivial
    · split
      · split
        · exact (Keeps.lpush (hclaimed rfl)).bind fun _ _ => hrelease
        · exact (Keeps.hdel [id]).bind fun _ _ => hrelease
      · exact hrelease

/-- Claiming the dead list renames it, so its entries are what they were. -/
theorem claimDead_keeps (h : set ≠ C.hash) : Keeps C.Hold (claimDead dead set) fun _ => True := by
  refine fun s hs => ⟨?_, fun _ _ => trivial⟩
  rw [claimDead]
  split
  · exact hs
  · next v hv => exact hs.copy hs.drop hv h

/-- Appending to the dead list keeps what is held when every entry that is appended is accepted. -/
theorem rpush_keeps {items : List String} (h : ∀ x ∈ items, C.item x) :
    Keeps C.Hold (rpush dead items) fun _ => True := by
  refine .onKind fun s hs => hs.put_list fun y hy => ?_
  rcases List.mem_append.mp hy with hy | hy
  · exact hs.item dead y hy
  · exact h y hy

/-! ## The enqueue script -/

theorem demandType_keeps {I : Store → Prop} (types : Types) (key : Option Key) (expected : Kind) :
    Keeps I (demandType types key expected) fun _ => True := by
  refine .read (fun s => ?_) fun _ _ _ _ => trivial
  cases key with
  | none => rfl
  | some k =>
    rcases demandType_checks types k expected s with ⟨_, h, -⟩ | ⟨_, h⟩
    · rw [h]
    · rw [h]

/-- Comparing the snapshots with the store writes nothing. -/
theorem checkSnapshots_keeps (keys : List Key) (as : List SnapshotArg) (known : Known) :
    Keeps C.Hold (checkSnapshots keys jobs as known) fun _ => True := by
  induction as generalizing known with
  | nil => exact .pure trivial
  | cons a as ih => exact (Keeps.hget a.id).bind fun _ _ => (ih _).bind fun _ _ => .pure trivial

/-- Every write that `enqueue.lua` plans is of one of its inputs, so it is accepted because the
inputs are. -/
theorem planInputs_keeps (keys : List Key) {as : List InputArg}
    (has : ∀ a ∈ as, C.Accepts a.id a.payload) (known : Known) :
    Keeps C.Hold (planInputs keys jobs as known) fun plan =>
      ∀ w ∈ plan.1, C.Accepts w.id w.payload := by
  induction as generalizing known with
  | nil => exact .pure fun _ h => absurd h List.not_mem_nil
  | cons a as ih =>
    have hone : Keeps C.Hold (planInput keys jobs a known) fun p =>
        ∀ w ∈ p.1, C.Accepts w.id w.payload := by
      have hstored : Keeps C.Hold (storedBefore jobs a known) fun _ => True := by
        rw [storedBefore]
        split
        · exact .pure trivial
        · split
          · exact .pure trivial
          · refine Keeps.bind (x := hexists jobs a.id) (Q := fun _ => True) ?_ fun _ _ => .pure trivial
            exact .read (fun s => hexists_snd ..) fun _ _ _ _ => trivial
      refine hstored.bind fun stored _ => .pure fun w hw => ?_
      rw [planWith] at hw
      split at hw
      · cases hw
      · obtain rfl := Option.mem_some.mp hw
        exact has a List.mem_cons_self
    refine hone.bind fun p hp => ?_
    refine (ih (fun b hb => has b (List.mem_cons_of_mem a hb)) _).bind fun plan hplan =>
      .pure fun w hw => ?_
    rcases List.mem_append.mp hw with hw | hw
    · exact hp w (Option.mem_toList.mp hw)
    · exact hplan w hw

/-- The checks that `enqueue.lua` makes before it writes write nothing. -/
theorem preflight_keeps (scheduled : Bool) (ws : List Write) (types : Types) :
    Keeps C.Hold (preflight schedule retry scheduled ws types) fun _ => True := by
  induction ws generalizing types with
  | nil => exact .pure trivial
  | cons w ws ih =>
    have hplace : Keeps C.Hold (preflightPlace schedule scheduled w types) fun _ => True := by
      rw [preflightPlace]
      split
      · exact demandType_keeps _ _ _
      · exact demandType_keeps _ _ _
    have hone : Keeps C.Hold (preflightWrite schedule retry scheduled w types) fun _ => True := by
      refine hplace.bind fun _ _ => ?_
      split
      · exact (demandType_keeps _ _ _).bind fun _ _ => (demandType_keeps _ _ _).bind fun _ _ =>
          (demandType_keeps _ _ _).bind fun _ _ => demandType_keeps _ _ _
      · exact .pure trivial
    exact hone.bind fun _ _ => ih _

theorem onKey_keeps {I : Store → Prop} {key : Option Key} {x : Key → Script Unit}
    (h : ∀ k, Keeps I (x k) fun _ => True) : Keeps I (onKey key x) fun _ => True := by
  cases key with
  | none => exact .fail _
  | some k => exact h k

/-- One write of `enqueue.lua`: the payload is stored, and the id joins the list or the set it is
meant for. -/
theorem commitWrite_keeps (scheduled : Bool) {w : Write} (h : C.Accepts w.id w.payload) :
    Keeps C.Hold (commitWrite jobs schedule retry scheduled w) fun _ => True := by
  obtain ⟨hfield, hitem, hmember⟩ := h
  have hplace : Keeps C.Hold (hset jobs w.id w.payload >>= fun _ =>
      if scheduled then zadd schedule w.score w.id
      else onKey w.newQueue fun k => lpush k w.id) fun _ => True := by
    refine (Keeps.hset fun _ => hfield).bind fun _ _ => ?_
    split
    · exact .zadd hmember
    · exact onKey_keeps fun k => .lpush hitem
  rw [commitWrite]
  split
  · refine (Keeps.zrem w.id).bind fun _ _ => (Keeps.zrem w.id).bind fun _ _ =>
      (onKey_keeps fun k => .lremAll w.id).bind fun _ _ => ?_
    split
    · exact (onKey_keeps fun k => .lremAll w.id).bind fun _ _ => hplace
    · exact hplace
  · exact hplace

/-- `enqueue.lua` writes nothing but its inputs, so it keeps what is held when every one of them is
accepted. -/
theorem enqueueScript_keeps {queueKeys : List Key} {scheduled : Bool} {snapshots : List SnapshotArg}
    {inputs : List InputArg} (h : ∀ a ∈ inputs, C.Accepts a.id a.payload) :
    Keeps C.Hold (enqueueScript jobs schedule retry queueKeys scheduled snapshots inputs)
      fun _ => True := by
  refine (demandType_keeps _ _ _).bind fun types _ =>
    (checkSnapshots_keeps _ snapshots _).bind fun found _ => ?_
  split
  · exact .pure trivial
  · exact (planInputs_keeps _ h _).bind fun plan hplan => (preflight_keeps _ _ _).bind fun _ _ =>
      (Keeps.forEach fun w hw => commitWrite_keeps _ (hplan w hw)).bind fun _ _ => .pure trivial

end Scripts

/-! ## Calls -/

/-- Every step of the call keeps the conditions, and what it returns satisfies `Q`. -/
abbrev Call.Retains {γ α : Type} (C : Contents) (Q : α → Prop) (x : Call γ α) : Prop :=
  Call.Always (fun _ w => C.Hold w.store) (fun _ _ w' => C.Hold w'.store) Q x

section Calls

open Call

variable {γ α : Type} {C : Contents} {K : StorageKeys} {H : Handle} {id : JobId}

theorem Call.Retains.send {l : Request} {x : Script α} {Q : α → Prop} (hx : Script.Keeps C.Hold x Q) :
    Retains (γ := γ) C Q (send l x) :=
  Always.send (fun w hw => (hx w.store hw).1) fun w a hw ha => (hx w.store hw).2 a ha

theorem Call.Retains.pipelined {xs : List (Request × Script α)}
    (hxs : ∀ x ∈ xs, Script.Keeps C.Hold x.2 fun _ => True) :
    Retains (γ := γ) C (fun _ => True) (pipelined xs) :=
  (Always.pipelined (Q := fun _ _ => True) (fun x hx w hw => (hxs x hx w.store hw).1)
    fun _ _ _ _ _ _ => trivial).mono fun _ _ => trivial

theorem Call.Retains.pipe {l : Request} {xs : List (Script α)}
    (hxs : ∀ x ∈ xs, Script.Keeps C.Hold x fun _ => True) :
    Retains (γ := γ) C (fun _ => True) (pipe l xs) :=
  (Always.pipe (Q := fun _ _ => True) (fun x hx w hw => (hxs x hx w.store hw).1)
    fun _ _ _ _ _ _ => trivial).mono fun _ _ => trivial

/-- An envelope read under an id comes from an allowed payload. -/
def ReadsAllowed (C : Contents) (id : JobId) (found : Option JobEnvelope) : Prop :=
  ∀ e, found = some e → ∃ p, C.field id p ∧ JobEnvelope.decode p = some e

/-- Taking the snapshot for a transition reads a payload and writes nothing. -/
theorem transitionSnapshot_retains (hhash : K.jobs = C.hash) (id : JobId) :
    Retains (γ := γ) C (fun found => ReadsAllowed C id (found.map (·.2)))
      (transitionSnapshot K id) := by
  refine (Retains.send (Script.Keeps.hget id)).bind fun payload hpayload => ?_
  cases payload with
  | none => exact .pure fun e he => nomatch he
  | some p =>
    have hp : C.field id p := hpayload hhash p rfl
    refine Always.bind (Q := fun e => JobEnvelope.decode p = some e) ?_ fun e he => .pure ?_
    · rw [decoded]
      split
      · next e he => exact .pure he
      · exact .fail _
    · rintro e' ⟨⟩
      exact ⟨p, hp, he⟩

theorem getJobOn_retains (hhash : H.keys.jobs = C.hash) (id : JobId) :
    Retains (γ := γ) C (ReadsAllowed C id) (getJobOn H id) :=
  (transitionSnapshot_retains hhash id).bind fun _ h => .pure h

theorem getJob_retains (hhash : H.keys.jobs = C.hash) (id : JobId) :
    Retains (γ := γ) C (ReadsAllowed C id) (getJob H id) :=
  Always.connection.bind fun _ _ => getJobOn_retains hhash id

theorem getClaimedJob_retains (hhash : H.keys.jobs = C.hash) (id : JobId) :
    Retains (γ := γ) C (ReadsAllowed C id) (getClaimedJob H id) := by
  refine .ask fun c => ?_
  induction c.rounds with
  | zero => exact getJob_retains hhash id
  | succ n ih =>
    refine (getJob_retains hhash id).catching (fun e he => .pure he) fun e => ?_
    split
    · next h => cases h
    · exact ih
    · exact .fail _

theorem dequeue_retains (queue : String) :
    Retains (γ := γ) C (fun _ => True) (dequeue H queue) :=
  Always.connection.bind fun _ _ => (Retains.send (Script.Keeps.lmove _ _)).mono fun _ _ => trivial

theorem setStartedAtBatch_retains {es : List JobEnvelope}
    (hes : ∀ e ∈ es, ∀ t, C.field e.id (e.withStartedAt t).encode) :
    Retains (γ := γ) C (fun started => ∃ t, started = es.map (·.withStartedAt t))
      (setStartedAtBatch H es) := by
  refine (Always.now (Q := fun _ => True) (fun w hw => hw) fun _ _ => trivial).bind fun t _ => ?_
  refine Always.bind (Q := fun _ => True) ?_ fun _ _ => .pure ⟨_, rfl⟩
  rw [updateJobs]
  split
  · exact .pure trivial
  · refine Always.connection.bind fun _ _ => Retains.send (Script.Keeps.hsetMultiple fun _ p hp => ?_)
    obtain ⟨e', he', rfl⟩ := List.mem_map.mp hp
    obtain ⟨e, he, rfl⟩ := List.mem_map.mp he'
    exact hes e he _

/-- Keeping a state for a job stores the envelope that was read, with the new state in it. -/
theorem updateState_retains (hhash : H.keys.jobs = C.hash) {state : Json.Value}
    (h : ∀ p e, C.field id p → JobEnvelope.decode p = some e →
      C.field e.id (e.withState state).encode) :
    Retains (γ := γ) C (fun _ => True) (updateState H id state) := by
  refine (getJob_retains hhash id).bind fun found hfound => ?_
  cases found with
  | none => exact .fail _
  | some e =>
    obtain ⟨p, hp, he⟩ := hfound e rfl
    exact Always.connection.bind fun _ _ => Retains.send (.hset fun _ => h p e hp he)

/-- A retry in some time stores the envelope that was read, with one retry more. -/
theorem retryIn_retains (hhash : H.keys.jobs = C.hash) {delay : UInt64} {error : String}
    (h : ∀ p e, C.field id p → JobEnvelope.decode p = some e →
      C.field e.id (e.withRetriesIncremented error).encode ∧ C.member e.id) :
    Retains (γ := γ) C (fun _ => True) (retryIn H id delay error) := by
  refine Always.connection.bind fun _ _ => (getJobOn_retains hhash id).bind fun found hfound => ?_
  cases found with
  | none => exact Retains.send (.lremFirst id)
  | some e =>
    obtain ⟨p, hp, he⟩ := hfound e rfl
    obtain ⟨hfield, hmember⟩ := h p e hp he
    exact (Always.now (Q := fun _ => True) (fun w hw => hw) fun _ _ => trivial).bind fun t _ =>
      Retains.send (retryFailed_keeps (fun _ => hfield) hmember)

/-- Giving a job up puts its envelope, with the error in it, on the dead list. -/
theorem kill_retains {e : JobEnvelope} {error : String} (h : C.item (e.withError error).encode) :
    Retains (γ := γ) C (fun _ => True) (kill H e error) :=
  Always.connection.bind fun _ _ => Retains.send (finishDead_keeps h)

/-! ## Sweeps -/

/-- Each job that is due is promoted by a request of its own, and what is held is kept by each of
them. -/
theorem promoteScheduledJobs_retains (hhash : K.jobs = C.hash)
    (hmoves : ∀ x, C.member x → C.item x) (set : Key) (jobs : List (JobId × Int)) :
    Retains (γ := γ) C (fun _ => True) (promoteScheduledJobs K set jobs) := by
  induction jobs with
  | nil => exact .pure trivial
  | cons job jobs ih =>
    have hone : Retains (γ := γ) C (fun _ => True) (promoteOne K set job.1 job.2) := by
      refine (transitionSnapshot_retains hhash job.1).catching
        (fun found _ => Retains.send (promoteScheduled_keeps hmoves)) fun e => ?_
      split
      · next h => cases h
      · exact .pure trivial
      · exact .fail _
    exact hone.bind fun _ _ => ih.bind fun _ _ => .pure trivial

theorem enqueueScheduled_retains (hhash : K.jobs = C.hash)
    (hmoves : ∀ x, C.member x → C.item x) (set : Key) :
    Retains (γ := γ) C (fun _ => True) (enqueueScheduled K set) := by
  refine (Always.now (Q := fun _ => True) (fun w hw => hw) fun _ _ => trivial).bind fun t _ =>
    Always.connection.bind fun _ _ => Always.bind (Q := fun _ => True) (Retains.send ?_) fun jobs _ =>
      promoteScheduledJobs_retains hhash hmoves set jobs
  exact .read (fun s => zrangeByScore_snd ..) fun _ _ _ _ => trivial

theorem retryAllNow_retains (hhash : K.jobs = C.hash) (hmoves : ∀ x, C.member x → C.item x) :
    Retains (γ := γ) C (fun _ => True) (retryAllNow K) := by
  refine Always.connection.bind fun _ _ => Always.bind (Q := fun _ => True) (Retains.send ?_)
    fun jobs _ => promoteScheduledJobs_retains hhash hmoves K.retry jobs
  exact .read (fun s => zrangeWithScores_snd ..) fun _ _ _ _ => trivial

/-- Each request of a sweep, whichever it is, keeps what is held. -/
theorem SweepStep.retains {dead : List String} {l : Request} {w w' : World γ}
    (h : SweepStep K dead l w w') (hw : C.Hold w.store) : C.Hold w'.store := by
  cases h with
  | reads => exact hw
  | resurrects hp queue id payload again => exact (resurrectClaim_keeps again w.store hw).1
  | unregisters hp hx =>
    simp only [unregister, List.mem_cons, List.not_mem_nil, or_false] at hx
    rcases hx with rfl | rfl
    · exact (Script.Keeps.zrem _ w.store hw).1
    · exact (Script.Keeps.hdel _ w.store hw).1

/-- A sweep keeps what is held: it moves ids, and stores no payload that has not been stored. -/
theorem resurrect_retains (threshold : Nat) :
    Retains (γ := γ) C (fun _ => True) (resurrect K threshold) := by
  refine Always.connection.bind fun _ _ => ?_
  refine ((deadProcessIds_found threshold).weaken (fun _ _ h => h) fun _ w w' hw hsame => ?_).bind
    fun dead _ => (resurrectProcesses_steps fun _ h => h).weaken (fun _ _ h => h)
      fun _ w w' hw hstep => SweepStep.retains hstep hw
  rw [hsame]
  exact hw

/-! ## Enqueueing -/

/-- Enqueueing a chunk keeps what is held when each of its envelopes is accepted. -/
theorem enqueueChunk_retains {es : List JobEnvelope}
    (hes : ∀ e ∈ es, C.Accepts e.id e.encode) (destination : JobDestination)
    (written : List JobId) :
    Retains (γ := γ) C (fun _ => True) (enqueueChunk K es destination written) := by
  rw [enqueueChunk]
  split
  · refine (Retains.pipe fun x hx => ?_).bind fun _ _ => .pure trivial
    obtain ⟨e, he, hx⟩ := List.mem_flatMap.mp hx
    obtain ⟨hfield, hitem, hmember⟩ := hes e he
    simp only [ordinaryWrites, List.mem_cons, List.not_mem_nil, or_false] at hx
    rcases hx with rfl | rfl
    · exact .hset fun _ => hfield
    · cases destination with
      | queue => exact .lpush hitem
      | schedule => exact .zadd hmember
  · have hloop (pending : List JobEnvelope) (hpending : ∀ e ∈ pending, e ∈ es) (n : Nat)
        (m : Snapshots) :
        Retains (γ := γ) C (fun _ => True) (enqueueLoop K destination pending n m) := by
      induction n generalizing m with
      | zero => exact .hang
      | succ n ih =>
        have hcall : Script.Keeps C.Hold (enqueueCall K destination m pending) fun _ => True := by
          refine enqueueScript_keeps fun a ha => ?_
          obtain ⟨e, he, rfl⟩ := List.mem_map.mp ha
          exact hes e (hpending e he)
        refine (Retains.send hcall).bind fun reply _ => ?_
        split
        · exact .pure trivial
        · rcases addSnapshots_cases (γ := γ) reply.changed m with ⟨m', hm'⟩ | hm'
          · rw [hm']
            exact ih m'
          · rw [hm']
            exact .fail _
    refine Always.bind (Q := fun _ => True) ?_ fun _ _ => .pure trivial
    rw [enqueueUnique]
    split
    · exact .pure trivial
    · refine (readSnapshots_always (fun _ _ hw => hw) (nodup_replacementIds _ []).1).bind
        fun m _ => (readExisting_always (fun _ _ hw => hw) _).bind fun existing _ => ?_
      rw [enqueuePending]
      split
      · exact .pure trivial
      · exact .ask fun c => hloop _ (fun e he => mem_of_mem_pendingOf (List.mem_filter.mp he).1) _ _

theorem enqueue_retains {e : JobEnvelope} (he : C.Accepts e.id e.encode) :
    Retains (γ := γ) C (fun _ => True) (enqueue K e) := by
  refine Always.connection.bind fun _ _ =>
    (enqueueChunk_retains (fun e' he' => ?_) .queue []).bind fun _ _ => .pure trivial
  rw [List.mem_singleton.mp he']
  exact he

/-- Reviving the entries of the claimed list enqueues envelopes that have been read from it, so
these have to be accepted. -/
theorem reviveEntries_retains {claimKey : Key}
    (h : ∀ x e, C.item x → JobEnvelope.decode x = some e → C.Accepts e.id e.encode)
    {entries : List String} (hentries : ∀ x ∈ entries, C.item x) (n : Nat) :
    Retains (γ := γ) C (fun _ => True) (reviveEntries K claimKey entries n) := by
  induction entries generalizing n with
  | nil => exact .pure trivial
  | cons x entries ih =>
    have ih := ih fun y hy => hentries y (List.mem_cons_of_mem x hy)
    rw [reviveEntries]
    split
    · exact ih n
    · next e he =>
      have hrestore : Retains (γ := γ) C (fun _ => True)
          (restoreClaimedDeadEntries K claimKey (x :: entries)) := by
        refine Always.connection.bind fun _ _ => ?_
        rw [if_neg (List.cons_ne_nil x entries)]
        refine (Retains.pipelined fun y hy => ?_).bind fun _ _ => .pure trivial
        simp only [List.mem_cons, List.not_mem_nil, or_false] at hy
        rcases hy with rfl | rfl
        · exact rpush_keeps hentries
        · exact .del
      refine (enqueue_retains (h x e (hentries x List.mem_cons_self) he)).catching
        (fun _ _ => ih (n + 1)) fun e => ?_
      exact hrestore.catching (fun _ _ => .fail _) fun _ => .fail _

/-- Reviving the whole dead list keeps what is held when every envelope that is read from an entry
is accepted. -/
theorem reviveAllDead_retains {claimKey : Key} (hclaim : claimKey ≠ C.hash)
    (h : ∀ x e, C.item x → JobEnvelope.decode x = some e → C.Accepts e.id e.encode) :
    Retains (γ := γ) C (fun _ => True) (reviveAllDead K claimKey) := by
  refine Always.connection.bind fun _ _ =>
    (Retains.send (claimDead_keeps hclaim)).bind fun claimed _ => ?_
  cases claimed with
  | false => exact .pure trivial
  | true =>
    exact (Retains.send Script.Keeps.lrange).bind fun entries hentries =>
      (reviveEntries_retains h hentries 0).bind fun n _ => Always.connection.bind fun _ _ =>
        (Retains.send Script.Keeps.del).bind fun _ _ => .pure trivial

/-- A call that nobody interferes with keeps what its steps keep, and its answer is as they say. -/
theorem Call.Retains.solo {x : Call γ α} {Q : α → Prop} {allowed : Choice → Prop} {w w' : World γ}
    {r : Except OxanaError α} (hx : Retains C Q x) (h : Solo allowed x w r w')
    (hw : C.Hold w.store) : C.Hold w'.store ∧ ∀ a, r = .ok a → Q a :=
  Prog.Solo.keeps (I := fun w : World γ => C.Hold w.store)
    (Q := fun r : Except OxanaError α => ∀ a, r = .ok a → Q a) h hx hw

end Calls

end Oxana
