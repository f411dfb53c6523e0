import Oxana.Calls
import Oxana.Transitions

/-!
# Retention

`cleanup` reads the jobs hash page by page, collects the ids whose payload is
malformed or whose retention is over, and drops them all in one go at the end.
The retention of a job should begin when it becomes due. Two things are
missing for that: the time a job waits for its next *attempt* is the score of
its entry in the retry set, which is not looked at, and a job that is dropped
may have been written anew since its page was read.

`cleanup_of_undisturbed` says when the call nevertheless drops only what may be
dropped: when no job collected from a page has been written since, and none has
an entry due within the retention time. `cleanup_drops_waiting` is a run in
which a job is dropped that waits for an attempt in the future.
-/

namespace Oxana

open Redis Interleave

variable {γ : Type} {K : StorageKeys}

/-- The retention of a job is over at time `t` (in seconds): seven days have
passed since it was created, since it was scheduled for, and since every entry
it has in the schedule or the retry set was due. -/
def RetentionOver (K : StorageKeys) (t : Int) (s : Store) (id : JobId) (e : JobEnvelope) : Prop :=
  retentionStartSecs e < t - jobExpireTime ∧ ∀ set ∈ [K.schedule, K.retry], ∀ score,
    (s.zset set).lookup id = some score → score.tdiv 1000000 < t - jobExpireTime

/-- Whatever payload a step of the call removes is malformed, or its retention
was over by the clock the call has read. -/
def RemovesOnlyRetired (K : StorageKeys) (tr : List (Prog.Event Request (World γ))) : Prop :=
  ∀ w : World γ, tr.head? = some ⟨.now, w, w⟩ → ∀ e ∈ tr, ∀ id p env,
    payloadOf K.jobs e.pre.store id = some p → payloadOf K.jobs e.post.store id = none →
    JobEnvelope.decode p = some env → RetentionOver K (w.clock / 1000000) e.pre.store id env

/-- What the store must be like when the collected payloads are dropped, given
the pages read before. It is about all jobs that are stored when a page is read,
whether or not the page returns them. -/
structure Undisturbed (K : StorageKeys) (t : Int) (tr : List (Prog.Event Request (World γ)))
    (s : Store) : Prop where
  /-- a job that looked expired on its page has not been written anew -/
  same : ∀ e ∈ tr, e.label = .hscan → ∀ id p, payloadOf K.jobs e.pre.store id = some p →
    expired t p → ∀ p', payloadOf K.jobs s id = some p' → p' = p
  /-- a job that looks expired has no entry due within the retention time -/
  idle : ∀ id p, payloadOf K.jobs s id = some p → expired t p → ∀ set ∈ [K.schedule, K.retry],
    ∀ score, (s.zset set).lookup id = some score → score.tdiv 1000000 < t - jobExpireTime

/-- A payload that counts as expired is older than jobs are kept, by its own times. -/
theorem retentionStart_of_expired {t : Int} {p : String} {e : JobEnvelope}
    (h : expired t p) (he : JobEnvelope.decode p = some e) :
    retentionStartSecs e < t - jobExpireTime := by
  simp only [expired] at h
  rw [he] at h
  exact of_decide_eq_true h

theorem expired_encode (t : Int) (e : JobEnvelope) :
    expired t e.encode = decide (retentionStartSecs e < t - jobExpireTime) := by
  rw [expired, decode_encode]
  rfl

/-! ## What a call removes -/

/-- A job that looked expired on one of the pages. -/
def LookedExpired (K : StorageKeys) (t : Int) (tr : List (Prog.Event Request (World γ)))
    (id : JobId) : Prop :=
  ∃ e ∈ tr, e.label = .hscan ∧ ∃ p, payloadOf K.jobs e.pre.store id = some p ∧ expired t p

/-- Pages are read from the stores the trace says. -/
def PageIn (K : StorageKeys) (t : Int) (tr : List (Prog.Event Request (World γ)))
    (l : Request) (w : World γ) : Prop :=
  l = .hscan → ∀ id p, payloadOf K.jobs w.store id = some p → expired t p →
    LookedExpired K t tr id

/-- A step that removes only payloads that looked expired. -/
def RemovesLooked (K : StorageKeys) (t : Int) (tr : List (Prog.Event Request (World γ)))
    (l : Request) (w w' : World γ) : Prop :=
  ∀ id p, payloadOf K.jobs w.store id = some p → payloadOf K.jobs w'.store id = none →
    l = .hdel ∧ LookedExpired K t tr id

/-- A step that leaves the store alone removes nothing. -/
theorem removesLooked_of_eq {t : Int} {tr : List (Prog.Event Request (World γ))} {l : Request}
    {w w' : World γ} (h : w'.store = w.store) : RemovesLooked K t tr l w w' := by
  intro id p hp hn
  rw [h, hp] at hn
  cases hn

/-- What a page of a scan shows was stored when the page was read. -/
theorem hscanPage_inv {k : Key} {fields : List String} {s : Store}
    {page : List (String × String)} (h : (hscanPage k fields s).1 = .ok page) :
    ∀ p ∈ page, payloadOf k s p.1 = some p.2 := by
  obtain ⟨-, rfl⟩ := onKind_inv h
  intro p hp
  obtain ⟨f, -, hf⟩ := List.mem_filterMap.mp hp
  obtain ⟨v, hv, rfl⟩ := Option.map_eq_some_iff.mp hf
  exact hv

/-- Reading all pages changes nothing, and what is collected looked expired on one of them. -/
theorem cleanupPages_always {t : Int} {tr : List (Prog.Event Request (World γ))} {n : Nat}
    {ids : List JobId} (hids : ∀ id ∈ ids, LookedExpired K t tr id) :
    Call.Always (PageIn K t tr) (RemovesLooked K t tr) (fun ids => ∀ id ∈ ids,
      LookedExpired K t tr id) (cleanupPages K t n ids) := by
  induction n generalizing ids with
  | zero => exact .hang
  | succ n ih =>
    refine .ask fun c => ?_
    refine .bind (Q := fun page => ∀ p ∈ page, expired t p.2 → LookedExpired K t tr p.1)
      (.send (fun w _ => removesLooked_of_eq (onKind_read ..)) ?_) fun page hpage => ?_
    · exact fun w page hw hr p hp hx => hw rfl p.1 p.2 (hscanPage_inv hr p hp) hx
    · have hall : ∀ id ∈ ids ++ (page.filter fun p => expired t p.2).map (·.1),
          LookedExpired K t tr id := by
        intro id hid
        rcases List.mem_append.mp hid with hid | hid
        · exact hids id hid
        · obtain ⟨p, hp, rfl⟩ := List.mem_map.mp hid
          exact hpage p (List.mem_filter.mp hp).1 (List.mem_filter.mp hp).2
      split
      · exact .pure hall
      · exact ih hall

/-- `HDEL` removes nothing but the fields that it is given. -/
theorem payloadOf_hdel {jobs : Key} {ids : List JobId} {s : Store} {id : JobId} {p : String}
    (hp : payloadOf jobs s id = some p) (hn : payloadOf jobs (hdel jobs ids s).2 id = none) :
    id ∈ ids := by
  by_contra hid
  refine absurd hn ?_
  unfold hdel onKind
  split
  · rw [payloadOf, Store.hash_put_self, lookup_foldl_unset hid]
    exact fun h => nomatch hp.symm.trans h
  · exact fun h => nomatch hp.symm.trans h

/-- The deletion removes only payloads that looked expired. -/
theorem cleanupDrop_always {E : Request → World γ → Prop} {t : Int}
    {tr : List (Prog.Event Request (World γ))} {ids : List JobId}
    (hids : ∀ id ∈ ids, LookedExpired K t tr id) :
    Call.Always E (RemovesLooked K t tr) (fun _ => True) (cleanupDrop K ids) := by
  simp only [cleanupDrop]
  split
  · refine .bind (Q := fun _ => True) (.send ?_ fun _ _ _ _ => trivial) fun _ _ => .pure trivial
    exact fun w _ id p hp hn => ⟨rfl, hids id (payloadOf_hdel hp hn)⟩
  · exact .pure trivial

/-- Only payloads that looked expired on one of the pages of the call are removed by it. -/
theorem cleanup_removes_looked {tr : List (Prog.Event Request (World γ))}
    {q : Prog Request (World γ) Choice (Except OxanaError Nat)}
    (h : Prog.Trace (cleanup K) tr q) {w : World γ} (hw : tr.head? = some ⟨.now, w, w⟩) :
    ∀ e ∈ tr, RemovesLooked K (w.clock / 1000000) tr e.label e.pre e.post := by
  rcases Call.trace_connection h with rfl | hrun
  · cases hw
  rcases Call.trace_now hrun with rfl | ⟨w', tr, rfl, hpages⟩
  · cases hw
  obtain rfl : w' = w := by
    injection Option.some.inj hw
  have hrest : Call.Always (PageIn K (w'.clock / 1000000) (⟨.now, w', w'⟩ :: tr))
      (RemovesLooked K (w'.clock / 1000000) (⟨.now, w', w'⟩ :: tr)) (fun _ => True)
      (do
        let ids ← Call.ask fun c => cleanupPages K (w'.clock / 1000000) c.rounds []
        cleanupDrop K ids) := by
    refine .bind (.ask fun c => cleanupPages_always ?_) fun ids hids => cleanupDrop_always hids
    exact fun _ h => absurd h List.not_mem_nil
  intro e he
  rcases List.mem_cons.mp he with rfl | he
  · exact removesLooked_of_eq rfl
  · refine (hrest.trace hpages fun e he hl id p hp hx => ?_).1 e he
    exact ⟨e, List.mem_cons_of_mem _ he, hl, p, hp, hx⟩

/-- **When a waiting job is spared.** In every run of the call, whatever other
clients do meanwhile: if at the time of the deletion no job collected from a
page has been written anew and none of them has an entry due within the
retention time, only retired payloads are removed. -/
theorem cleanup_of_undisturbed (K : StorageKeys) {tr : List (Prog.Event Request (World γ))}
    {q : Prog Request (World γ) Choice (Except OxanaError Nat)}
    (h : Prog.Trace (cleanup K) tr q)
    (hun : ∀ w : World γ, tr.head? = some ⟨.now, w, w⟩ → ∀ e ∈ tr, e.label = .hdel →
      Undisturbed K (w.clock / 1000000) tr e.pre.store) :
    RemovesOnlyRetired K tr := by
  intro w hw e he id p env hp hn henv
  obtain ⟨hl, e', he', hl', p', hp', hx⟩ := cleanup_removes_looked h hw e he id p hp hn
  have hu := hun w hw e he hl
  obtain rfl := hu.same e' he' hl' id p' hp' hx p hp
  exact ⟨retentionStart_of_expired hx henv, hu.idle id p hp hx⟩

/-- The job `mail` is stored, eight days after it was created, and waits for
retries as told. -/
def mailKept (K : StorageKeys) (retries : List (String × Int)) : World Unit where
  store := (Store.empty.put K.jobs (.hash [("a", mail.encode)])).put K.retry (.zset retries)
  clock := 691200000000
  ghost := ()

section Kept

variable (K) (retries : List (String × Int))

theorem mailKept_hash : (mailKept K retries).store.hash K.jobs = [("a", mail.encode)] := by
  simp [mailKept, StorageKeys.jobs_ne_retry]

theorem mailKept_fits : (mailKept K retries).store.Fits K.jobs .hash :=
  (Store.fits_put_self _).put _ fun h => absurd h StorageKeys.jobs_ne_retry

/-- The steps of a call: one page with the job, then the deletion. -/
def mailCleanup : List (Prog.Event Request (World Unit)) :=
  [⟨.now, mailKept K retries, mailKept K retries⟩,
    ⟨.hscan, mailKept K retries, (mailKept K retries).after (hscanPage K.jobs ["a"])⟩,
    ⟨.hdel, mailKept K retries, (mailKept K retries).after (hdel K.jobs ["a"])⟩]

theorem mailCleanup_returns : Call.Returns (cleanup K) (mailCleanup K retries) 1 := by
  let w := mailKept K retries
  have hpage : (hscanPage K.jobs ["a"] w.store).1 = .ok [("a", mail.encode)] := by
    rw [hscanPage, onKind_ok (mailKept_fits K retries)]
    simp [mailKept_hash]
  have hdrop : (hdel K.jobs ["a"] w.store).1 = .ok () := by
    rw [hdel_ok (mailKept_fits K retries)]
  have hexp : expired (w.clock / 1000000) mail.encode = true := by
    rw [expired_encode]
    exact (by decide : decide (retentionStartSecs mail < 691200 - jobExpireTime) = true)
  have hpages : Call.Returns (cleanupPages K (w.clock / 1000000) 1 [])
      [⟨.hscan, w, w.after (hscanPage K.jobs ["a"])⟩] ["a"] := by
    refine .ask { Call.fine with page := ["a"] } (.bind (.send w hpage) ?_)
    have : ([] ++ ([("a", mail.encode)].filter fun p => expired (w.clock / 1000000) p.2).map
        (·.1) : List JobId) = ["a"] := by
      simp [hexp]
    simp only [this]
    exact .pure _
  have hask : Call.Returns (Call.ask fun c => cleanupPages K (w.clock / 1000000) c.rounds [])
      [⟨.hscan, w, w.after (hscanPage K.jobs ["a"])⟩] ["a"] :=
    .ask Call.fine hpages
  have hlast : Call.Returns (cleanupDrop K ["a"]) [⟨.hdel, w, w.after (hdel K.jobs ["a"])⟩] 1 :=
    .bind (.send w hdrop) (.pure 1)
  exact .bind .connection (.bind (.now w) (hask.bind hlast))

theorem mailCleanup_pre : ∀ e ∈ mailCleanup K retries, e.pre = mailKept K retries := by
  simp [mailCleanup]

end Kept

/-- The message is eight days old and waits for nothing: the call returns that it has dropped one
payload, and it was one that may be dropped. -/
theorem cleanup_drops_old :
    Call.Returns (cleanup (.new "")) (mailCleanup (.new "") []) 1 ∧
      RemovesOnlyRetired (.new "") (mailCleanup (.new "") []) := by
  have h := mailCleanup_returns (.new "") []
  refine ⟨h, cleanup_of_undisturbed (.new "") h fun w hw e he hl => ?_⟩
  rw [mailCleanup_pre _ _ e he]
  refine ⟨fun e' he' _ id p hp _ p' hp' => ?_, fun id p _ _ set hset score hsc => ?_⟩
  · rw [mailCleanup_pre _ _ e' he', hp'] at hp
    exact Option.some.inj hp
  · have hnone : (mailKept (.new "") []).store.zset set = [] := by
      rcases List.mem_cons.mp hset with rfl | hset
      · simp [mailKept, Store.zset, Store.empty, StorageKeys.schedule_ne_retry,
          StorageKeys.jobs_ne_schedule.symm]
      · obtain rfl := List.mem_singleton.mp hset
        simp [mailKept]
    rw [hnone] at hsc
    cases hsc

/-- **A job waiting for a retry is dropped**: its next attempt is due at second
`700000`, which is still to come at second `691200`. -/
theorem cleanup_drops_waiting :
    Call.Returns (cleanup (.new "")) (mailCleanup (.new "") [("a", 700000000000)]) 1 ∧
      ¬ RemovesOnlyRetired (.new "") (mailCleanup (.new "") [("a", 700000000000)]) := by
  refine ⟨mailCleanup_returns _ _, fun hretired => ?_⟩
  have hgone : payloadOf (StorageKeys.new "").jobs ((mailKept (.new "")
      [("a", 700000000000)]).after (hdel (StorageKeys.new "").jobs ["a"])).store "a" = none := by
    rw [World.after, hdel_ok (mailKept_fits ..)]
    simp [payloadOf]
  have hover := hretired _ rfl _ (List.mem_cons_of_mem _ (List.mem_cons_of_mem _
    (List.mem_singleton_self _))) "a" mail.encode mail.normalize
    (by simp [payloadOf, mailKept_hash]) hgone (decode_encode mail)
  have hdue := hover.2 (StorageKeys.new "").retry (by simp) 700000000000 (by simp [mailKept])
  exact absurd hdue (by decide)

end Oxana
