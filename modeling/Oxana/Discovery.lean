import Oxana.EnqueueAlone

/-!
# Discovering dynamic queues

The workers of a dynamic queue look for keys that match the name of its prefix, and take the names
of its queues from these. A name that begins with the name of the storage is taken for a key as it
is, when a job is enqueued and when a worker claims one, so that both use the same list
(`discovered_iff`). But such a key does not have the form that the names are taken from.
-/

namespace Oxana

open Redis Interleave Call

variable {γ : Type}

/-! ## The search -/

/-- `strip_prefix`: what stands behind a prefix, if the string begins with it. -/
def stripPrefix (s pre : String) : Option String :=
  if startsWith s pre then some (String.ofList (s.toList.drop pre.toList.length)) else none

/-- A prefix can be stripped exactly from what begins with it, and what is left is the rest. -/
theorem stripPrefix_eq_some {s pre rest : String} :
    stripPrefix s pre = some rest ↔ s = pre ++ rest := by
  rw [stripPrefix, startsWith]
  constructor
  · intro h
    split at h
    · next hpre =>
      obtain ⟨l, hl⟩ := List.isPrefixOf_iff_prefix.mp hpre
      obtain rfl := Option.some.inj h
      rw [← hl, List.drop_left, ← String.toList_inj, String.toList_append, String.toList_ofList, hl]
    · cases h
  · rintro rfl
    have hpre : pre.toList.isPrefixOf (pre ++ rest).toList = true := by
      rw [String.toList_append]
      exact List.isPrefixOf_iff_prefix.mpr (List.prefix_append ..)
    rw [if_pos hpre, String.toList_append, List.drop_left, String.ofList_toList]

section Search

variable (K : StorageKeys)

/-- The names of the queues of some keys, without their prefixes. -/
def queueNames (keys : List Key) : List String :=
  keys.filterMap fun key => stripPrefix key (K.queuePrefix ++ ":")

/-- `queues`: the names of the queues whose lists match a pattern. -/
def queues (pattern : String) : Call γ (List String) := do
  connection
  let keys ← ask fun c => scanKeys (K.namespaceQueue pattern) c.rounds
  pure (queueNames K keys.dedup)

/-- The call can return the names of these queues, in the case in which the server has returned
every key that matches the pattern. -/
def Discovers (pattern : String) (w : World γ) (names : List String) (w' : World γ) : Prop :=
  ∃ keys, ScansAll (K.namespaceQueue pattern) w keys w' ∧ names = queueNames K keys.dedup

end Search

variable {K : StorageKeys} {pattern queue : String} {w w' : World γ} {names : List String}

/-- A search that returns everything is a run of the call. -/
theorem Discovers.solo (h : Discovers K pattern w names w') :
    Call.Solo (fun _ => True) (queues K pattern) w (.ok names) w' := by
  obtain ⟨keys, hscan, rfl⟩ := h
  exact solo_bind.mpr (.inl ⟨(), w, ⟨{}, trivial, rfl, rfl⟩,
    solo_bind.mpr (.inl ⟨keys, w', hscan.run, rfl, rfl⟩)⟩)

variable (queue) in
/-- A queue is found by the key that begins as the keys of queues do: exactly if there is such a
key, and it matches the pattern. -/
theorem Discovers.mem_iff (h : Discovers K pattern w names w') :
    w' = w ∧ (queue ∈ names ↔ (w.store.get (K.queuePrefix ++ ":" ++ queue)).isSome = true ∧
      globMatch (K.namespaceQueue pattern) (K.queuePrefix ++ ":" ++ queue) = true) := by
  obtain ⟨keys, hscan, rfl⟩ := h
  refine ⟨hscan.same, ?_⟩
  rw [← hscan.mem_iff, queueNames, List.mem_filterMap]
  constructor
  · rintro ⟨key, hkey, hname⟩
    rw [← stripPrefix_eq_some.mp hname]
    exact List.mem_dedup.mp hkey
  · exact fun hkey => ⟨_, List.mem_dedup.mpr hkey, stripPrefix_eq_some.mpr rfl⟩

/-! ## Which queues are found -/

/-- The search for a prefix can find the queue: the pattern matches its key, and a name that looks
like a key belongs to a key that exists. -/
structure Discoverable (K : StorageKeys) (pre queue : String) (s : Store) : Prop where
  /-- the pattern matches -/
  pattern : globMatch (K.namespaceQueue (pre ++ "*")) (K.queuePrefix ++ ":" ++ queue) = true
  /-- the name is not taken for a key, or another key has its place -/
  key : K.Plain queue ∨ (s.get (K.queuePrefix ++ ":" ++ queue)).isSome = true

/-- Names that do not begin with that of the storage are found, if there is nothing in it and in the
prefix that means something else in a pattern. -/
theorem discoverable_of_plain {pre suffix : String} (hns : Literal K.nspace) (hpre : Literal pre)
    (h : K.Plain (pre ++ "#" ++ suffix)) (s : Store) :
    Discoverable K pre (pre ++ "#" ++ suffix) s := by
  have hstar : ¬(startsWith (pre ++ "*") K.nspace = true) := by
    intro hstarts
    rw [startsWith, List.isPrefixOf_iff_prefix, String.toList_append] at hstarts
    rcases List.prefix_concat_iff.mp hstarts with heq | hprefix
    · -- the star would be in the name of the storage
      have hname : K.nspace = pre ++ "*" := by
        rw [← String.toList_inj, heq, String.toList_append]
        rfl
      have hspecial := hns 42 (by
        rw [hname, bytes_append]
        exact List.mem_append_right _ (by decide))
      exact absurd hspecial (by decide)
    · have hplain : startsWith (pre ++ "#" ++ suffix) K.nspace = true := by
        rw [startsWith, List.isPrefixOf_iff_prefix, String.append_assoc, String.toList_append]
        exact hprefix.trans (List.prefix_append ..)
      rw [h] at hplain
      cases hplain
  refine ⟨?_, .inl h⟩
  have hlit : Literal (K.queuePrefix ++ ":" ++ pre) := by
    refine Literal.append (Literal.append (Literal.append hns ?_) ?_) hpre
    · decide +kernel
    · decide +kernel
  have hmatch := globMatch_star hlit ("#" ++ suffix)
  rw [StorageKeys.namespaceQueue, if_neg hstar]
  simpa only [String.append_assoc] using hmatch

/-- What is pushed to a queue is claimed from it, the oldest job first. -/
theorem solo_dequeue {H : Handle} {allowed : Choice → Prop} {next : Option JobId}
    (h : Call.Solo allowed (dequeue H queue) w (.ok next) w') :
    next = (w.store.list (H.keys.namespaceQueue queue)).getLast? := by
  obtain ⟨hreply, -⟩ := solo_send_ok (solo_connection_ok h)
  simp only [lmove] at hreply
  split at hreply
  · split at hreply
    · next hnone => exact (Except.ok.inj hreply).symm.trans hnone.symm
    · next x hlast =>
      split at hreply
      · exact (Except.ok.inj hreply).symm.trans hlast.symm
      · cases hreply
  · cases hreply

/-- **A dynamic queue is discovered**, and its workers claim from the list that jobs are enqueued
to, exactly if it is `Discoverable`: whatever its name is, and whatever else is stored. -/
theorem discovered_iff {H : Handle} {allowed : Choice → Prop} {pre suffix : String}
    {e : JobEnvelope} {id : JobId} {next : Option JobId} {w w₁ w₂ w₃ : World γ}
    (hqueue : e.queue = pre ++ "#" ++ suffix)
    (henqueue : Call.Solo allowed (tryEnqueue H.keys e) w (.ok (some id)) w₁)
    (hqueues : Discovers H.keys (pre ++ "*") w₁ names w₂)
    (hdequeue : Call.Solo allowed (dequeue H (pre ++ "#" ++ suffix)) w₂ (.ok next) w₃) :
    (pre ++ "#" ++ suffix ∈ names ∧ ∃ waiting,
      w₁.store.list (H.keys.namespaceQueue e.queue) = id :: waiting ∧
        next = (id :: waiting).getLast?) ↔
      Discoverable H.keys pre (pre ++ "#" ++ suffix) w₁.store := by
  obtain ⟨rfl, henqueued⟩ := solo_tryEnqueue henqueue
  obtain ⟨waiting, hready⟩ := henqueued.ready
  obtain ⟨rfl, hmem⟩ := hqueues.mem_iff (pre ++ "#" ++ suffix)
  have hnext := solo_dequeue hdequeue
  rw [hmem]
  constructor
  · rintro ⟨⟨hkey, hmatch⟩, -⟩
    exact ⟨hmatch, .inr hkey⟩
  · rintro ⟨hmatch, hkey⟩
    refine ⟨⟨hkey.elim (fun hplain => ?_) fun h => h, hmatch⟩, waiting, hready, ?_⟩
    · -- the list of the queue has the key the search looks for
      rw [hqueue, StorageKeys.namespaceQueue, if_neg (by rw [hplain]; decide)] at hready
      cases hget : w₂.store.get (H.keys.queuePrefix ++ ":" ++ (pre ++ "#" ++ suffix)) with
      | some v => rfl
      | none =>
        rw [Store.list, hget] at hready
        cases hready
    · rw [hnext, ← hqueue, hready]

/-! ## Two queues -/

section Runs

/-- A job of the sample for some queue. -/
def letterFor (queue : String) : JobEnvelope :=
  .new "a" 3 5 queue ⟨"Letter", .null, none, .skip, true, none⟩

/-- The world in which it is the only job. -/
def letterWaiting (queue : String) : World Unit where
  store := place (.new "app") .queue (letterFor queue)
    (record (.new "app") (letterFor queue) Store.empty)
  clock := 0
  ghost := ()

theorem letter_enqueued
    (h : (StorageKeys.new "app").jobs ≠ (StorageKeys.new "app").namespaceQueue queue) :
    Call.Solo Reliable (tryEnqueue (.new "app") (letterFor queue))
      (⟨Store.empty, 0, ()⟩ : World Unit) (.ok (some "a")) (letterWaiting queue) :=
  solo_tryEnqueue_ordinary rfl (Store.fits_empty _) (Store.fits_empty _) h

/-- Nothing else is there but the jobs hash and the ready list of the queue. -/
theorem letter_keys {k : Key} (h : ((letterWaiting queue).store.get k).isSome = true) :
    k ∈ [(StorageKeys.new "app").jobs, (StorageKeys.new "app").namespaceQueue queue] := by
  by_contra hno
  simp only [List.mem_cons, List.not_mem_nil, or_false, not_or] at hno
  have hget : (letterWaiting queue).store.get k = Store.empty.get k :=
    (Store.get_put_ne _ hno.2).trans (Store.get_put_ne _ hno.1)
  rw [hget] at h
  cases h

/-- A search that returns all keys there are finds the queues with a ready list. -/
theorem letter_discovers (queue pattern : String) :
    Discovers (.new "app") pattern (letterWaiting queue)
      (queueNames (.new "app") (List.dedup
        ([(StorageKeys.new "app").jobs, (StorageKeys.new "app").namespaceQueue queue].filter fun k =>
          ((letterWaiting queue).store.get k).isSome ∧
            globMatch ((StorageKeys.new "app").namespaceQueue pattern) k)))
      (letterWaiting queue) :=
  ⟨_, scansAll_page _ fun _ hk _ => letter_keys hk, rfl⟩

/-- A queue whose name does not begin with that of the storage is found, and its job is claimed. -/
theorem mail_discovered : ∃ names, ∃ w : World Unit,
    Discovers (.new "app") "mail*" (letterWaiting "mail#1") names (letterWaiting "mail#1") ∧
    Call.Solo Reliable (dequeue ⟨.new "app", "p", none⟩ "mail#1") (letterWaiting "mail#1")
      (.ok (some "a")) w ∧
    (("mail#1" ∈ names ∧ ∃ waiting, (letterWaiting "mail#1").store.list
        ((StorageKeys.new "app").namespaceQueue "mail#1") = "a" :: waiting ∧
          some "a" = ("a" :: waiting).getLast?) ↔
      Discoverable (.new "app") "mail" "mail#1" (letterWaiting "mail#1").store) := by
  have hdequeue : Call.Solo Reliable (dequeue ⟨.new "app", "p", none⟩ "mail#1")
      (letterWaiting "mail#1") (.ok (some "a")) _ :=
    solo_connection_bind.mpr (solo_send_reliable.mpr ⟨by rfl, rfl⟩)
  exact ⟨_, _, letter_discovers "mail#1" "mail*", hdequeue, discovered_iff
    (H := ⟨.new "app", "p", none⟩) (show (letterFor "mail#1").queue = "mail" ++ "#" ++ "1" from rfl)
    (letter_enqueued (by decide)) (letter_discovers "mail#1" "mail*") hdequeue⟩

/-- A queue whose name begins with that of the storage is missed, although its job is enqueued. -/
theorem app_mail_missed : ∃ names, ∃ w : World Unit,
    Call.Solo Reliable (tryEnqueue (.new "app") (letterFor "app_mail#1")) ⟨Store.empty, 0, ()⟩
      (.ok (some "a")) w ∧
    Discovers (.new "app") "app_mail*" w names w ∧ "app_mail#1" ∉ names ∧
    w.store.list ((StorageKeys.new "app").namespaceQueue "app_mail#1") = ["a"] := by
  refine ⟨_, _, letter_enqueued (by decide), letter_discovers "app_mail#1" "app_mail*", ?_, ?_⟩
  · rw [((letter_discovers "app_mail#1" "app_mail*").mem_iff "app_mail#1").2]
    intro hfound
    exact absurd (letter_keys hfound.1) (by decide)
  · rw [letterWaiting, place]
    exact Store.list_put_self _

end Runs

end Oxana
