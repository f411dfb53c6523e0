import Oxana.Scripts
import Oxana.Keys

/-!
# What each transition does

One lemma for each script with fixed keys: on any store whatever it returns its
own error reply and changes nothing, or its keys have the expected types and it
does exactly this. Everything later about these scripts is derived from here.

Two of them take a ready list that may be any key of the storage. It cannot be
the jobs hash or the set the job is taken from when something is written to it,
because these are then known to be there (`ne_of_zset_member`,
`ne_of_hash_field`).
-/

namespace Oxana

open Redis Script

/-- The payload that is stored for an id. -/
def payloadOf (jobs : Key) (s : Store) (id : JobId) : Option String := (s.hash jobs).lookup id

theorem hget_run {jobs : Key} {s : Store} (h : s.Fits jobs .hash) (id : JobId) :
    hget jobs id s = (.ok (payloadOf jobs s id), s) := hget_ok h id

theorem hexists_run {jobs : Key} {s : Store} (h : s.Fits jobs .hash) (id : JobId) :
    hexists jobs id s = (.ok (payloadOf jobs s id).isSome, s) := hexists_ok h id

/-- The script has given up on a type check, and has written nothing. -/
def Refused {α : Type} (x : Script α) (s : Store) : Prop := ∃ m, x s = (.error (.reply m), s)

/-- The type checks of a script change nothing, and succeed exactly if every key has its type. -/
theorem checkTypes_checks (transition : String) (ks : List (Key × Kind)) (s : Store) :
    Checks (checkTypes transition ks) s fun _ => ∀ p ∈ ks, s.Fits p.1 p.2 := by
  induction ks with
  | nil => exact .ret fun _ h => absurd h List.not_mem_nil
  | cons p ks ih =>
    obtain ⟨k, kd⟩ := p
    have htype : type k s = (.ok (s.kind k), s) := rfl
    simp only [checkTypes]
    by_cases hbad : s.kind k ≠ none ∧ s.kind k ≠ some kd
    · right
      rw [bind_ok htype, if_pos hbad]
      exact ⟨_, rfl⟩
    · have hfits : s.Fits k kd := by
        by_cases hn : s.kind k = none
        · exact .inl hn
        · exact .inr (by_contra fun hk => hbad ⟨hn, hk⟩)
      simp only [Checks]
      rw [bind_ok htype, if_neg hbad]
      rcases ih with ⟨a, ha, hks⟩ | hm
      · refine .inl ⟨a, ha, fun p hp => ?_⟩
        rcases List.mem_cons.mp hp with rfl | hp
        · exact hfits
        · exact hks p hp
      · exact .inr hm

theorem checkTypes_ok {transition : String} {ks : List (Key × Kind)} {s : Store}
    (h : ∀ p ∈ ks, s.Fits p.1 p.2) : checkTypes transition ks s = (.ok (), s) := by
  induction ks with
  | nil => rfl
  | cons p ks ih =>
    obtain ⟨k, kd⟩ := p
    have htype : type k s = (.ok (s.kind k), s) := rfl
    have hgood : ¬ (s.kind k ≠ none ∧ s.kind k ≠ some kd) := fun hbad =>
      (h (k, kd) List.mem_cons_self).elim hbad.1 hbad.2
    simp only [checkTypes]
    rw [bind_ok htype, if_neg hgood]
    exact ih fun p hp => h p (List.mem_cons_of_mem _ hp)

/-- A script that checks its types either refuses or goes on with `x`, and then every key has its
type. -/
theorem refused_or_run {α : Type} (transition : String) (ks : List (Key × Kind)) (x : Script α)
    (s : Store) :
    Refused (checkTypes transition ks >>= fun _ => x) s ∨
      ((∀ p ∈ ks, s.Fits p.1 p.2) ∧ (checkTypes transition ks >>= fun _ => x) s = x s) := by
  rcases checkTypes_checks transition ks s with ⟨a, ha, hks⟩ | ⟨m, hm⟩
  · exact .inr ⟨hks, bind_ok ha⟩
  · exact .inl ⟨m, by rw [bind_apply, hm]⟩

section Fixed

variable {jobs retry dead processing : Key} {s : Store}

/-- `retry_failed.lua` stores the payload, adds the retry, and releases the claim. -/
theorem retryFailed_ok (hjr : jobs ≠ retry) (hjp : jobs ≠ processing) (hrp : retry ≠ processing)
    (hj : s.Fits jobs .hash) (hr : s.Fits retry .zset) (hp : s.Fits processing .list)
    (id : JobId) (payload : String) (score : Int) :
    retryFailed jobs retry processing id payload score s =
      (.ok (), ((s.put jobs (.hash (setField id payload (s.hash jobs)))).put retry
        (.zset (setScore id score (s.zset retry)))).put processing
          (.list ((s.list processing).erase id))) := by
  have hrun : checkTypes "retry transition" [(jobs, .hash), (retry, .zset), (processing, .list)] s =
      (.ok (), s) := by
    refine checkTypes_ok fun p hm => ?_
    simp only [List.mem_cons, List.not_mem_nil, or_false] at hm
    rcases hm with rfl | rfl | rfl
    · exact hj
    · exact hr
    · exact hp
  rw [retryFailed, bind_ok hrun, bind_ok (hset_ok hj id payload),
    bind_ok (zadd_ok (hr.put _ fun h => absurd h.symm hjr) score id),
    lremFirst_ok ((hp.put _ fun h => absurd h.symm hjp).put _ fun h => absurd h.symm hrp)]
  simp [hjr.symm, hjp.symm, hrp.symm]

/-- `retry_failed.lua` refuses, or does all of this. -/
theorem retryFailed_cases (hjr : jobs ≠ retry) (hjp : jobs ≠ processing) (hrp : retry ≠ processing)
    (id : JobId) (payload : String) (score : Int) :
    Refused (retryFailed jobs retry processing id payload score) s ∨
      (s.Fits jobs .hash ∧ s.Fits retry .zset ∧ s.Fits processing .list ∧
        retryFailed jobs retry processing id payload score s =
          (.ok (), ((s.put jobs (.hash (setField id payload (s.hash jobs)))).put retry
            (.zset (setScore id score (s.zset retry)))).put processing
              (.list ((s.list processing).erase id)))) := by
  rcases refused_or_run "retry transition" [(jobs, .hash), (retry, .zset), (processing, .list)]
    (do
      hset jobs id payload
      zadd retry score id
      lremFirst processing id) s with h | ⟨h, -⟩
  · exact .inl h
  · have hj : s.Fits jobs .hash := h (jobs, .hash) (by simp)
    have hr : s.Fits retry .zset := h (retry, .zset) (by simp)
    have hp : s.Fits processing .list := h (processing, .list) (by simp)
    exact .inr ⟨hj, hr, hp, retryFailed_ok hjr hjp hrp hj hr hp id payload score⟩

/-- The store once a payload and one claim have been dropped. -/
def acknowledge (jobs processing : Key) (s : Store) (id : JobId) : Store :=
  (s.put jobs (.hash (unset id (s.hash jobs)))).put processing
    (.list ((s.list processing).erase id))

/-- Acknowledging a job keeps the types of the payloads and of the processing list. -/
theorem acknowledge_fits (hjp : jobs ≠ processing) (hj : s.Fits jobs .hash)
    (hp : s.Fits processing .list) (id : JobId) :
    (acknowledge jobs processing s id).Fits jobs .hash ∧
      (acknowledge jobs processing s id).Fits processing .list :=
  ⟨(hj.put _ fun _ => rfl).put _ fun h => absurd h hjp,
    (hp.put _ fun h => absurd h.symm hjp).put _ fun _ => rfl⟩

theorem acknowledge_run (hjp : jobs ≠ processing) (hj : s.Fits jobs .hash)
    (hp : s.Fits processing .list) (ids : List JobId) :
    (forEach ids fun id => do
      hdel jobs [id]
      lremFirst processing id) s = (.ok (), ids.foldl (acknowledge jobs processing) s) := by
  induction ids generalizing s with
  | nil => rfl
  | cons id ids ih =>
    obtain ⟨hj', hp'⟩ := acknowledge_fits hjp hj hp id
    have hone : (do
        hdel jobs [id]
        lremFirst processing id : Script Unit) s = (.ok (), acknowledge jobs processing s id) := by
      rw [bind_ok (hdel_ok hj id), lremFirst_ok (hp.put _ fun h => absurd h.symm hjp)]
      simp [acknowledge, hjp.symm]
    rw [forEach, bind_ok hone, ih hj' hp']
    rfl

/-- `finish_success.lua` refuses, or drops the payloads and claims of its jobs, one after the other.
-/
theorem finishSuccess_cases (hjp : jobs ≠ processing) (ids : List JobId) :
    Refused (finishSuccess jobs processing ids) s ∨
      (s.Fits jobs .hash ∧ s.Fits processing .list ∧
        finishSuccess jobs processing ids s =
          (.ok (), ids.foldl (acknowledge jobs processing) s)) := by
  rcases refused_or_run "acknowledgment" [(jobs, .hash), (processing, .list)]
    (forEach ids fun id => do
      hdel jobs [id]
      lremFirst processing id) s with h | ⟨h, hrun⟩
  · exact .inl h
  · have hj : s.Fits jobs .hash := h (jobs, .hash) (by simp)
    have hp : s.Fits processing .list := h (processing, .list) (by simp)
    exact .inr ⟨hj, hp, by rw [finishSuccess, hrun, acknowledge_run hjp hj hp]⟩

/-- The dead list after one more entry, limited in its length. -/
def bury (limit : Nat) (payload : String) (l : List String) : List String :=
  if limit > 0 then (payload :: l).take limit else payload :: l

/-- `finish_dead.lua` adds the entry, drops payload and claim, and trims the dead list. -/
theorem finishDead_ok (hjd : jobs ≠ dead) (hjp : jobs ≠ processing) (hdp : dead ≠ processing)
    (hj : s.Fits jobs .hash) (hd : s.Fits dead .list) (hp : s.Fits processing .list)
    (id : JobId) (payload : String) (limit : Nat) :
    finishDead jobs dead processing id payload limit s =
      (.ok (), ((s.put jobs (.hash (unset id (s.hash jobs)))).put processing
        (.list ((s.list processing).erase id))).put dead
          (.list (bury limit payload (s.list dead)))) := by
  have hrun : checkTypes "dead transition" [(jobs, .hash), (dead, .list), (processing, .list)] s =
      (.ok (), s) := by
    refine checkTypes_ok fun p hm => ?_
    simp only [List.mem_cons, List.not_mem_nil, or_false] at hm
    rcases hm with rfl | rfl | rfl
    · exact hj
    · exact hd
    · exact hp
  have hj' := hj.put (k := dead) (.list (payload :: s.list dead)) fun h => absurd h hjd
  have hp' := (hp.put (k := dead) (.list (payload :: s.list dead)) fun _ => rfl).put
    (k := jobs) (.hash (unset id (s.hash jobs))) fun h => absurd h.symm hjp
  have hd' := ((hd.put (k := dead) (.list (payload :: s.list dead)) fun _ => rfl).put
    (k := jobs) (.hash (unset id (s.hash jobs))) fun h => absurd h.symm hjd).put
    (k := processing) (.list ((s.list processing).erase id)) fun h => absurd h hdp
  have hhash : (s.put dead (.list (payload :: s.list dead))).hash jobs = s.hash jobs := by
    simp [hjd]
  have hlist : ((s.put dead (.list (payload :: s.list dead))).put jobs
      (.hash (unset id (s.hash jobs)))).list processing = s.list processing := by
    simp [hjp.symm, hdp.symm]
  rw [finishDead, bind_ok hrun, bind_ok (lpush_ok hd payload), bind_ok (hdel_ok hj' id), hhash,
    bind_ok (lremFirst_ok hp' id), hlist]
  have hmove : ((s.put dead (.list (payload :: s.list dead))).put jobs
      (.hash (unset id (s.hash jobs)))).put processing (.list ((s.list processing).erase id)) =
        ((s.put jobs (.hash (unset id (s.hash jobs)))).put processing
          (.list ((s.list processing).erase id))).put dead (.list (payload :: s.list dead)) := by
    rw [Store.put_comm _ _ hjd.symm, Store.put_comm _ _ hdp]
  by_cases hl : limit > 0
  · rw [if_pos hl, ltrim_ok hd', bury, if_pos hl, hmove]
    simp
  · rw [if_neg hl, pure_apply, bury, if_neg hl, hmove]

/-- `finish_dead.lua` refuses, or does all of this. -/
theorem finishDead_cases (hjd : jobs ≠ dead) (hjp : jobs ≠ processing) (hdp : dead ≠ processing)
    (id : JobId) (payload : String) (limit : Nat) :
    Refused (finishDead jobs dead processing id payload limit) s ∨
      (s.Fits jobs .hash ∧ s.Fits dead .list ∧ s.Fits processing .list ∧
        finishDead jobs dead processing id payload limit s =
          (.ok (), ((s.put jobs (.hash (unset id (s.hash jobs)))).put processing
            (.list ((s.list processing).erase id))).put dead
              (.list (bury limit payload (s.list dead))))) := by
  rcases refused_or_run "dead transition" [(jobs, .hash), (dead, .list), (processing, .list)]
    (do
      lpush dead payload
      hdel jobs [id]
      lremFirst processing id
      if limit > 0 then ltrim dead limit) s with h | ⟨h, -⟩
  · exact .inl h
  · have hj : s.Fits jobs .hash := h (jobs, .hash) (by simp)
    have hd : s.Fits dead .list := h (dead, .list) (by simp)
    have hp : s.Fits processing .list := h (processing, .list) (by simp)
    exact .inr ⟨hj, hd, hp, finishDead_ok hjd hjp hdp hj hd hp id payload limit⟩

end Fixed

/-! ## A ready list that may be any key -/

/-- A sorted set with a member is there, so no list can be expected under the same key. -/
theorem ne_of_zset_member {s : Store} {set queue : Key} {x : String} {score : Int}
    (hset : s.Fits set .zset) (hq : s.Fits queue .list)
    (h : (s.zset set).lookup x = some score) : queue ≠ set := by
  rintro rfl
  rw [Store.zset_of_absent (hset.absent hq (by decide))] at h
  cases h

/-- A hash with a field is there, so no list can be expected under the same key. -/
theorem ne_of_hash_field {s : Store} {jobs queue : Key} {f v : String}
    (hj : s.Fits jobs .hash) (hq : s.Fits queue .list)
    (h : (s.hash jobs).lookup f = some v) : queue ≠ jobs := by
  rintro rfl
  rw [Store.hash_of_absent (hj.absent hq (by decide))] at h
  cases h

section Moves

variable (jobs set queue : Key) {processing : Key} {s : Store}

/-- `promote_scheduled.lua`: nothing if the snapshot is stale; otherwise the
entry goes, and the job is on the ready list if it is stored. -/
theorem promoteScheduled_cases (id : JobId) (payloadArg : String) (score : Int) :
    Refused (promoteScheduled jobs set queue id payloadArg score) s ∨
    promoteScheduled jobs set queue id payloadArg score s = (.ok 0, s) ∨
    (s.Fits jobs .hash ∧ s.Fits set .zset ∧ s.Fits queue .list ∧
      (s.zset set).lookup id = some score ∧ payloadOf jobs s id = expectedPayload payloadArg ∧
      ((payloadOf jobs s id = none ∧ promoteScheduled jobs set queue id payloadArg score s =
          (.ok 0, s.put set (.zset (unset id (s.zset set))))) ∨
        (queue ≠ set ∧ queue ≠ jobs ∧ (∃ p, payloadOf jobs s id = some p) ∧
          promoteScheduled jobs set queue id payloadArg score s =
            (.ok 1, (s.put queue (.list (id :: s.list queue))).put set
              (.zset (unset id (s.zset set))))))) := by
  rcases refused_or_run "scheduled transition" [(jobs, .hash), (set, .zset), (queue, .list)]
    (do
      let sc ← zscore set id
      if sc ≠ some score then return 0
      let payload ← hget jobs id
      if payload ≠ expectedPayload payloadArg then return 0
      if payload.isSome then lpush queue id
      zrem set id
      return if payload.isSome then 1 else 0) s with h | ⟨h, hrun⟩
  · exact .inl h
  · right
    have hj : s.Fits jobs .hash := h (jobs, .hash) (by simp)
    have hs : s.Fits set .zset := h (set, .zset) (by simp)
    have hq : s.Fits queue .list := h (queue, .list) (by simp)
    rw [promoteScheduled, hrun, bind_ok (zscore_ok hs id)]
    by_cases hsc : (s.zset set).lookup id = some score
    · rw [if_neg (not_not.mpr hsc), bind_ok (hget_run hj id)]
      by_cases hp : payloadOf jobs s id = expectedPayload payloadArg
      · rw [if_neg (not_not.mpr hp)]
        refine .inr ⟨hj, hs, hq, hsc, hp, ?_⟩
        rcases hpay : payloadOf jobs s id with _ | p
        · left
          refine ⟨rfl, ?_⟩
          simp only [Option.isSome_none, Bool.false_eq_true, if_false]
          rw [bind_ok (zrem_ok hs id), pure_apply]
        · right
          have hqs := ne_of_zset_member hs hq hsc
          refine ⟨hqs, ne_of_hash_field hj hq hpay, ⟨p, rfl⟩, ?_⟩
          simp only [Option.isSome_some, if_true]
          rw [bind_ok (lpush_ok hq id),
            bind_ok (zrem_ok (hs.put _ fun h => absurd h.symm hqs) id), pure_apply]
          simp [hqs.symm]
      · rw [if_pos hp]
        exact .inl rfl
    · rw [if_pos hsc]
      exact .inl rfl

/-- What `promote_scheduled.lua` does when the keys have their types. -/
theorem promoteScheduled_run (hj : s.Fits jobs .hash) (hs : s.Fits set .zset)
    (hq : s.Fits queue .list) (hqs : queue ≠ set) (id : JobId) (payloadArg : String)
    (score : Int) :
    promoteScheduled jobs set queue id payloadArg score s =
      if (s.zset set).lookup id = some score ∧
          payloadOf jobs s id = expectedPayload payloadArg then
        if (payloadOf jobs s id).isSome then
          (.ok 1, (s.put queue (.list (id :: s.list queue))).put set
            (.zset (unset id (s.zset set))))
        else (.ok 0, s.put set (.zset (unset id (s.zset set))))
      else (.ok 0, s) := by
  have hrun : checkTypes "scheduled transition" [(jobs, .hash), (set, .zset), (queue, .list)] s =
      (.ok (), s) := by
    refine checkTypes_ok fun p hm => ?_
    simp only [List.mem_cons, List.not_mem_nil, or_false] at hm
    rcases hm with rfl | rfl | rfl
    · exact hj
    · exact hs
    · exact hq
  rw [promoteScheduled, bind_ok hrun, bind_ok (zscore_ok hs id)]
  by_cases hsc : (s.zset set).lookup id = some score
  · rw [if_neg (not_not.mpr hsc), bind_ok (hget_run hj id)]
    by_cases hp : payloadOf jobs s id = expectedPayload payloadArg
    · rw [if_neg (not_not.mpr hp), if_pos (And.intro hsc hp)]
      cases hsome : (payloadOf jobs s id).isSome with
      | true =>
        simp only [if_true]
        rw [bind_ok (lpush_ok hq id),
          bind_ok (zrem_ok (hs.put _ fun h => absurd h.symm hqs) id), pure_apply,
          Store.zset_put_ne _ hqs.symm]
      | false =>
        simp only [Bool.false_eq_true, if_false]
        rw [bind_ok (zrem_ok hs id), pure_apply]
    · rw [if_pos hp, if_neg fun h => hp h.2]
      rfl
  · rw [if_pos hsc, if_neg fun h => hsc h.1]
    rfl

variable {jobs} in
/-- `resurrect_claim.lua`: nothing if the claim is gone or the snapshot is
stale; otherwise the claim goes, and a stored job is on the ready list or is
dropped. -/
theorem resurrectClaim_cases (hjp : jobs ≠ processing) (id : JobId) (payloadArg : String)
    (resurrect : Bool) :
    Refused (resurrectClaim jobs processing queue id payloadArg resurrect) s ∨
    (resurrectClaim jobs processing queue id payloadArg resurrect s = (.ok 0, s) ∧
      (id ∈ s.list processing → payloadOf jobs s id ≠ expectedPayload payloadArg)) ∨
    (s.Fits jobs .hash ∧ s.Fits processing .list ∧ s.Fits queue .list ∧
      id ∈ s.list processing ∧ payloadOf jobs s id = expectedPayload payloadArg ∧
      ((payloadOf jobs s id = none ∧
          resurrectClaim jobs processing queue id payloadArg resurrect s =
            (.ok 1, s.put processing (.list ((s.list processing).erase id)))) ∨
        (queue ≠ jobs ∧ (∃ p, payloadOf jobs s id = some p) ∧ resurrect = true ∧
          resurrectClaim jobs processing queue id payloadArg resurrect s =
            (.ok 1, (s.put queue (.list (id :: s.list queue))).put processing
              (.list (((s.put queue (.list (id :: s.list queue))).list processing).erase id)))) ∨
        ((∃ p, payloadOf jobs s id = some p) ∧ resurrect = false ∧
          resurrectClaim jobs processing queue id payloadArg resurrect s =
            (.ok 1, acknowledge jobs processing s id)))) := by
  rcases refused_or_run "recovery transition" [(jobs, .hash), (processing, .list), (queue, .list)]
    (do
      let claimed ← lpos processing id
      if !claimed then return 0
      let payload ← hget jobs id
      if payload ≠ expectedPayload payloadArg then return 0
      if payload.isSome then
        if resurrect then lpush queue id
        else hdel jobs [id]
      lremFirst processing id
      return 1) s with h | ⟨h, hrun⟩
  · exact .inl h
  · right
    have hj : s.Fits jobs .hash := h (jobs, .hash) (by simp)
    have hp : s.Fits processing .list := h (processing, .list) (by simp)
    have hq : s.Fits queue .list := h (queue, .list) (by simp)
    rw [resurrectClaim, hrun, bind_ok (lpos_ok hp id)]
    by_cases hc : id ∈ s.list processing
    · rw [if_neg (by simp [hc]), bind_ok (hget_run hj id)]
      by_cases he : payloadOf jobs s id = expectedPayload payloadArg
      · rw [if_neg (not_not.mpr he)]
        refine .inr ⟨hj, hp, hq, hc, he, ?_⟩
        rcases hpay : payloadOf jobs s id with _ | p
        · left
          refine ⟨rfl, ?_⟩
          simp only [Option.isSome_none, Bool.false_eq_true, if_false]
          rw [bind_ok (lremFirst_ok hp id), pure_apply]
        · right
          simp only [Option.isSome_some, if_true]
          cases resurrect with
          | true =>
            refine .inl ⟨ne_of_hash_field hj hq hpay, ⟨p, rfl⟩, rfl, ?_⟩
            simp only [if_true]
            rw [bind_ok (lpush_ok hq id), bind_ok (lremFirst_ok (hp.put _ fun _ => rfl) id),
              pure_apply]
          | false =>
            refine .inr ⟨⟨p, rfl⟩, rfl, ?_⟩
            simp only [Bool.false_eq_true, if_false]
            rw [bind_ok (hdel_ok hj id),
              bind_ok (lremFirst_ok (hp.put _ fun h => absurd h.symm hjp) id), pure_apply]
            simp [acknowledge, hjp.symm]
      · rw [if_pos he]
        exact .inl ⟨rfl, fun _ => he⟩
    · rw [if_pos (by simp [hc])]
      exact .inl ⟨rfl, fun h => absurd h hc⟩

end Moves

end Oxana
