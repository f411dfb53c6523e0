import Oxana.Calls
import Oxana.Dashboard
import Oxana.Interleave.Pair

/-!
# Changing a queue's settings at runtime

The state and the concurrency of a queue are stored as one JSON text. Either is
changed by reading that text and writing it back. When two clients do so at
the same time, one may overwrite what the other has written in between
(`pause_lost`). `settings_kept_iff` says exactly when both settings are kept.
-/

namespace Oxana

open Redis Script Interleave Call

variable {γ : Type}

/-! ## The operations -/

section Operations

variable (K : StorageKeys)

/-- A stored configuration, or the error of the decoder. -/
def parsedConfig : Option String → Call γ (Option QueueRuntimeConfig)
  | none => pure none
  | some text => match QueueRuntimeConfig.decode text with
    | some config => pure (some config)
    | none => fail .json

/-- `queue_config_w_conn`, behind a connection of its own -/
def readQueueConfig (l : Request) (queue : String) : Call γ (Option QueueRuntimeConfig) := do
  connection
  let text ← send l (hget K.queueConfigs queue)
  parsedConfig text

/-- `StorageInternal::queue_config`: what is stored for a queue. -/
def queueConfig (queue : String) : Call γ (Option QueueRuntimeConfig) :=
  readQueueConfig K .hget queue

/-- `StorageInternal::set_queue_config`: a configuration is stored for a queue. -/
def setQueueConfig (queue : String) (config : QueueRuntimeConfig) : Call γ Unit := do
  connection
  send .hset (hset K.queueConfigs queue config.encode)

/-- `Storage::set_queue_state`: the stored configuration is read, and written with the state. -/
def setQueueState (queueKey : String) (q : QueueConfig) (state : QueueState) : Call γ Unit := do
  let config ← queueConfig K queueKey
  let config := config.getD {}
  let config := if q.concurrency.isDynamic then config else { config with concurrency := none }
  setQueueConfig K queueKey { config with state := state }

/-- `validate_dynamic_concurrency`: an error where it cannot be changed. -/
def validateDynamicConcurrency (queueKey : String) (concurrency : QueueConcurrency) :
    Call γ Unit :=
  if concurrency.isDynamic then pure ()
  else fail (.config ("Queue " ++ queueKey ++ " has fixed concurrency and cannot be overridden"))

/-- `runtime_concurrency_reset_default`: the concurrency that a queue inherits. -/
def runtimeConcurrencyResetDefault (queueKey : String) (q : QueueConfig) : Call γ UInt64 :=
  match q.kind with
  | .static _ => pure q.concurrency.defaultConcurrency
  | .dynamic pre =>
    if queueKey = pre then pure q.concurrency.defaultConcurrency
    else do
      let config ← readQueueConfig K .hgetBase pre
      let base := (config.map (·.withDefaults q.concurrency.storedRuntimeDefault)).getD
        q.concurrency.storedRuntimeDefault
      pure (base.concurrency.getD q.concurrency.defaultConcurrency)

/-- `Storage::set_queue_concurrency`: the stored configuration is read, and written with the number.
-/
def setQueueConcurrency (queueKey : String) (q : QueueConfig) (concurrency : UInt64) :
    Call γ Unit := do
  validateDynamicConcurrency queueKey q.concurrency
  let defaultConcurrency ← runtimeConcurrencyResetDefault K queueKey q
  let existing ← queueConfig K queueKey
  if concurrency = defaultConcurrency ∧ existing = none then pure ()
  else setQueueConfig K queueKey { existing.getD {} with
    concurrency := if concurrency ≠ defaultConcurrency then some concurrency else none }

end Operations

/-! ## What they do -/

variable {K : StorageKeys} {q : QueueConfig} {queueKey : String} {s : Store}

/-- What is stored for the queues, as far as it can be read. -/
def storedConfigs (K : StorageKeys) (s : Store) : StoredConfigs := fun queue =>
  ((s.hash K.queueConfigs).lookup queue).bind QueueRuntimeConfig.decode

/-- A write of a configuration changes what is stored for that queue, and nothing of the others. -/
theorem storedConfigs_hset (h : s.Fits K.queueConfigs .hash) (config : QueueRuntimeConfig)
    (queue : String) :
    (hset K.queueConfigs queueKey config.encode s).2.Fits K.queueConfigs .hash ∧
      storedConfigs K (hset K.queueConfigs queueKey config.encode s).2 queue =
        if queue = queueKey then some config else storedConfigs K s queue := by
  rw [hset_ok h]
  refine ⟨Store.fits_put_self _, ?_⟩
  rw [storedConfigs, Store.hash_put_self]
  split
  · next hq => rw [hq, lookup_setField_self, Option.bind_some, QueueRuntimeConfig.decode_encode]
  · next hq => rw [lookup_setField_ne hq, storedConfigs]

/-- A configuration with another state, and its concurrency as it was. -/
def withState (state : QueueState) (config : Option QueueRuntimeConfig) : QueueRuntimeConfig :=
  { config.getD {} with state := state }

/-- A configuration with another concurrency, which is left out if it is the
inherited one. -/
def withConcurrency (inherited concurrency : UInt64) (config : Option QueueRuntimeConfig) :
    QueueRuntimeConfig :=
  { config.getD {} with
    concurrency := if concurrency ≠ inherited then some concurrency else none }

section Returns

variable {tr : List (Prog.Event Request (World γ))}

/-- An event that reads what is stored for a queue. -/
structure Reads (K : StorageKeys) (queue : String) (config : Option QueueRuntimeConfig)
    (e : Prog.Event Request (World γ)) : Prop where
  /-- nothing changes -/
  post : e.post = e.pre
  /-- the key has its type -/
  fits : e.pre.store.Fits K.queueConfigs .hash
  /-- this is stored -/
  stored : storedConfigs K e.pre.store queue = config

/-- An event that writes the configuration of a queue, and no other. -/
structure Writes (K : StorageKeys) (queue : String) (config : QueueRuntimeConfig)
    (e : Prog.Event Request (World γ)) : Prop where
  /-- it is the write -/
  label : e.label = .hset
  /-- the key has its type -/
  fits : e.pre.store.Fits K.queueConfigs .hash
  /-- this is stored then -/
  stored : ∀ queue', storedConfigs K e.post.store queue' =
    if queue' = queue then some config else storedConfigs K e.pre.store queue'

/-- A write of a configuration leaves the configurations of other queues alone. -/
theorem Writes.others {queue : String} {config : QueueRuntimeConfig}
    {e : Prog.Event Request (World γ)} (h : Writes K queue config e) {queue' : String}
    (hqueue : queue' ≠ queue) :
    storedConfigs K e.post.store queue' = storedConfigs K e.pre.store queue' := by
  rw [h.stored, if_neg hqueue]

/-- Parsing what was read takes no step, and returns the configuration that is stored, if there is
one. -/
theorem parsedConfig_returns {text : Option String} {c : Option QueueRuntimeConfig}
    (h : Call.Returns (parsedConfig text) tr c) :
    tr = [] ∧ text.bind QueueRuntimeConfig.decode = c := by
  rcases text with _ | text
  · obtain ⟨rfl, rfl⟩ := h.pure_inv
    exact ⟨rfl, rfl⟩
  · rw [parsedConfig] at h
    rcases hdec : QueueRuntimeConfig.decode text with _ | config
    · rw [hdec] at h
      exact h.fail_inv.elim
    · rw [hdec] at h
      obtain ⟨rfl, rfl⟩ := h.pure_inv
      exact ⟨rfl, hdec⟩

/-- Reading a configuration is one step that changes nothing. -/
theorem readQueueConfig_returns {l : Request} {queue : String} {c : Option QueueRuntimeConfig}
    (h : Call.Returns (readQueueConfig K l queue) tr c) :
    ∃ e : Prog.Event Request (World γ), tr = [e] ∧ e.label = l ∧ Reads K queue c e := by
  obtain ⟨text, tr₁, tr₂, rfl, hsend, hparse⟩ := h.connection_inv.bind_inv
  obtain ⟨w, rfl, hreply⟩ := hsend.send_inv
  obtain ⟨rfl, hc⟩ := parsedConfig_returns hparse
  obtain ⟨hfits, htext⟩ := onKind_inv hreply
  refine ⟨_, rfl, rfl, World.after_read (hget_snd ..), hfits, ?_⟩
  rw [storedConfigs, ← hc, ← htext]

/-- Storing a configuration is one step that writes it. -/
theorem setQueueConfig_returns {queue : String} {config : QueueRuntimeConfig}
    (h : Call.Returns (setQueueConfig K queue config) tr ()) :
    ∃ e : Prog.Event Request (World γ), tr = [e] ∧ Writes K queue config e := by
  obtain ⟨w, rfl, hreply⟩ := h.connection_inv.send_inv
  obtain ⟨hfits, -⟩ := onKind_inv hreply
  exact ⟨_, rfl, rfl, hfits, fun queue' => (storedConfigs_hset hfits config queue').2⟩

/-- A change of the state is a read of the configuration and a write of it with the new state. -/
theorem setQueueState_returns (hdyn : q.concurrency.isDynamic = true) {state : QueueState}
    (h : Call.Returns (setQueueState K queueKey q state) tr ()) :
    ∃ (e₁ e₂ : Prog.Event Request (World γ)) (c : Option QueueRuntimeConfig), tr = [e₁, e₂] ∧
      e₁.label = .hget ∧ Reads K queueKey c e₁ ∧
      Writes K queueKey (withState state c) e₂ := by
  obtain ⟨c, tr₁, tr₂, rfl, hread, hwrite⟩ := h.bind_inv
  obtain ⟨e₁, rfl, hl, hr⟩ := readQueueConfig_returns hread
  simp only [hdyn, if_true] at hwrite
  obtain ⟨e₂, rfl, hw⟩ := setQueueConfig_returns hwrite
  exact ⟨e₁, e₂, c, rfl, hl, hr, hw⟩

/-- The concurrency a queue has when none is stored for it. -/
def inheritedConcurrency (stored : StoredConfigs) (queueKey : String) (q : QueueConfig) : UInt64 :=
  match q.kind with
  | .static _ => q.concurrency.defaultConcurrency
  | .dynamic pre =>
    if queueKey = pre then q.concurrency.defaultConcurrency
    else (queueConfigOrDefault stored pre q.concurrency.storedRuntimeDefault).concurrency.getD
      q.concurrency.defaultConcurrency

/-- The concurrency that a queue inherits depends on other queues only, so writes to its own
configuration do not change it. -/
theorem inheritedConcurrency_congr {stored stored' : StoredConfigs}
    (h : ∀ queue, queue ≠ queueKey → stored queue = stored' queue) :
    inheritedConcurrency stored queueKey q = inheritedConcurrency stored' queueKey q := by
  simp only [inheritedConcurrency]
  cases q.kind with
  | static key => rfl
  | dynamic pre =>
    by_cases hk : queueKey = pre
    · simp only [if_pos hk]
    · simp only [if_neg hk, queueConfigOrDefault, h pre (Ne.symm hk)]

/-- How the inherited concurrency is read: at most the base queue is looked up, and nothing is
written. -/
theorem runtimeConcurrencyResetDefault_returns {n : UInt64}
    (h : Call.Returns (runtimeConcurrencyResetDefault K queueKey q) tr n) :
    (∀ e ∈ tr, e.post = e.pre ∧ e.label = .hgetBase) ∧
      ∀ stored : StoredConfigs, (∀ e ∈ tr, ∀ queue, queue ≠ queueKey →
        storedConfigs K e.pre.store queue = stored queue) →
          n = inheritedConcurrency stored queueKey q := by
  have hnone : ∀ {n' : UInt64}, tr = [] ∧ n = n' →
      (∀ stored, inheritedConcurrency stored queueKey q = n') →
      (∀ e ∈ tr, e.post = e.pre ∧ e.label = .hgetBase) ∧
        ∀ stored : StoredConfigs, (∀ e ∈ tr, ∀ queue, queue ≠ queueKey →
          storedConfigs K e.pre.store queue = stored queue) →
            n = inheritedConcurrency stored queueKey q := by
    rintro n' ⟨rfl, rfl⟩ hn
    exact ⟨fun _ he => absurd he List.not_mem_nil, fun stored _ => (hn stored).symm⟩
  simp only [runtimeConcurrencyResetDefault] at h
  rcases hkind : q.kind with key | pre
  · simp only [hkind] at h
    exact hnone h.pure_inv fun stored => by simp only [inheritedConcurrency, hkind]
  · simp only [hkind] at h
    by_cases hk : queueKey = pre
    · rw [if_pos hk] at h
      exact hnone h.pure_inv fun stored => by simp only [inheritedConcurrency, hkind, if_pos hk]
    · rw [if_neg hk] at h
      obtain ⟨c, tr₁, tr₂, rfl, hread, hret⟩ := h.bind_inv
      obtain ⟨e, rfl, hl, hr⟩ := readQueueConfig_returns hread
      obtain ⟨rfl, rfl⟩ := hret.pure_inv
      refine ⟨fun e' he => ?_, fun stored hstored => ?_⟩
      · rw [List.mem_singleton.mp he]
        exact ⟨hr.post, hl⟩
      · have hbase := hstored e (List.mem_singleton_self e) pre (Ne.symm hk)
        simp only [inheritedConcurrency, hkind, if_neg hk, queueConfigOrDefault]
        rw [← hbase, hr.stored]

/-- A change of the concurrency: possibly a read of the base queue, then a read of the
configuration, and a write unless there is nothing to do. -/
theorem setQueueConcurrency_returns {concurrency : UInt64}
    (h : Call.Returns (setQueueConcurrency K queueKey q concurrency) tr ()) :
    ∃ (base last : List (Prog.Event Request (World γ))) (e : Prog.Event Request (World γ))
      (c : Option QueueRuntimeConfig) (n : UInt64), tr = base ++ e :: last ∧
      (∀ e' ∈ base, e'.post = e'.pre ∧ e'.label = .hgetBase) ∧
      (∀ stored : StoredConfigs, (∀ e' ∈ base, ∀ queue, queue ≠ queueKey →
        storedConfigs K e'.pre.store queue = stored queue) →
          n = inheritedConcurrency stored queueKey q) ∧
      e.label = .hget ∧ Reads K queueKey c e ∧
      ((last = [] ∧ concurrency = n ∧ c = none) ∨ ∃ e', last = [e'] ∧ Writes K queueKey
        (withConcurrency n concurrency c) e') := by
  obtain ⟨_, tr₀, tr₁, rfl, hvalid, hrest⟩ := h.bind_inv
  have hnil : tr₀ = [] := by
    simp only [validateDynamicConcurrency] at hvalid
    split at hvalid
    · exact hvalid.pure_inv.1
    · exact hvalid.fail_inv.elim
  subst hnil
  obtain ⟨n, base, tr₂, rfl, hdefault, hset⟩ := hrest.bind_inv
  obtain ⟨hbase, hn⟩ := runtimeConcurrencyResetDefault_returns hdefault
  obtain ⟨c, tr₃, last, rfl, hread, hwrite⟩ := hset.bind_inv
  obtain ⟨e, rfl, hl, hr⟩ := readQueueConfig_returns hread
  refine ⟨base, last, e, c, n, rfl, hbase, hn, hl, hr, ?_⟩
  by_cases hno : concurrency = n ∧ c = none
  · rw [if_pos hno] at hwrite
    exact .inl ⟨hwrite.pure_inv.1, hno⟩
  · rw [if_neg hno] at hwrite
    exact .inr (setQueueConfig_returns hwrite)

end Returns

/-! ## Both settings -/

section Both

variable {w w' : World γ} {tr : List (Side × Prog.Event Request (World γ))}
  {state : QueueState} {concurrency : UInt64}

/-- Whenever this client writes the configuration of the queue, it is still what the client has
read: nobody has written in between. -/
def AsRead (K : StorageKeys) (queueKey : String) (side : Side)
    (tr : List (Side × Prog.Event Request (World γ))) : Prop :=
  ∀ e e' : Prog.Event Request (World γ), (side, e) ∈ tr → (side, e') ∈ tr → e.label = .hget →
    e'.label = .hset →
    storedConfigs K e'.pre.store queueKey = storedConfigs K e.pre.store queueKey

/-- A client that reads once and writes at most once writes as it has read exactly if, when it
writes, the configuration is still the one that it has read. -/
theorem asRead_iff (es last : List (Prog.Event Request (World γ))) {side : Side}
    {r : Prog.Event Request (World γ)} (hes : ∀ e, (side, e) ∈ tr ↔ e ∈ es ++ r :: last)
    (hr : r.label = .hget) (hbase : ∀ e ∈ es, e.label = .hgetBase)
    (hlast : ∀ e ∈ last, e.label = .hset) :
    AsRead K queueKey side tr ↔
      ∀ e ∈ last, storedConfigs K e.pre.store queueKey = storedConfigs K r.pre.store queueKey := by
  constructor
  · intro h e he
    refine h r e ((hes r).mpr ?_) ((hes e).mpr ?_) hr (hlast e he)
    · exact List.mem_append_right _ (List.mem_cons_self ..)
    · exact List.mem_append_right _ (List.mem_cons_of_mem _ he)
  · intro h e e' he he' hget hset
    have hread : e = r := by
      rcases List.mem_append.mp ((hes e).mp he) with he | he
      · rw [hbase e he] at hget
        cases hget
      · rcases List.mem_cons.mp he with rfl | he
        · rfl
        · rw [hlast e he] at hget
          cases hget
    have hwrite : e' ∈ last := by
      rcases List.mem_append.mp ((hes e').mp he') with he' | he'
      · rw [hbase e' he'] at hset
        cases hset
      · rcases List.mem_cons.mp he' with rfl | he'
        · rw [hr] at hset
          cases hset
        · exact he'
    rw [hread]
    exact h e' hwrite

variable {inherited : UInt64}

/-- How two calls on one queue can go: one after the other; or both read before
either writes, and the last write wins. -/
inductive SettingsOutcome (K : StorageKeys) (queueKey : String) (inherited concurrency : UInt64)
    (state : QueueState) (tr : List (Side × Prog.Event Request (World γ)))
    (config config' : Option QueueRuntimeConfig) : Prop where
  /-- there was nothing to do for the concurrency -/
  | nothing : AsRead K queueKey .left tr → AsRead K queueKey .right tr →
      concurrency = inherited → config = none → config' = some (withState state config) →
        SettingsOutcome K queueKey inherited concurrency state tr config config'
  /-- first the state -/
  | state : AsRead K queueKey .left tr → AsRead K queueKey .right tr →
      config' = some (withConcurrency inherited concurrency (some (withState state config))) →
        SettingsOutcome K queueKey inherited concurrency state tr config config'
  /-- first the concurrency -/
  | concurrency : AsRead K queueKey .left tr → AsRead K queueKey .right tr →
      config' = some (withState state (some (withConcurrency inherited concurrency config))) →
        SettingsOutcome K queueKey inherited concurrency state tr config config'
  /-- the concurrency is overwritten -/
  | stateLast : (AsRead K queueKey .left tr ↔
      some (withConcurrency inherited concurrency config) = config) →
      AsRead K queueKey .right tr → config' = some (withState state config) →
        SettingsOutcome K queueKey inherited concurrency state tr config config'
  /-- the state is overwritten -/
  | concurrencyLast : AsRead K queueKey .left tr →
      (AsRead K queueKey .right tr ↔ some (withState state config) = config) →
      config' = some (withConcurrency inherited concurrency config) →
        SettingsOutcome K queueKey inherited concurrency state tr config config'

/-- The last element of two lists that are joined is the last of the second one, or of the first if
the second is empty. -/
theorem concat_eq_append {α : Type} {xs ys zs : List α} {x : α} (h : xs ++ [x] = ys ++ zs) :
    (∃ zs', zs = zs' ++ [x] ∧ xs = ys ++ zs') ∨ (zs = [] ∧ ys = xs ++ [x]) := by
  rcases List.eq_nil_or_concat' zs with rfl | ⟨zs', z, rfl⟩
  · exact .inr ⟨rfl, by rw [h, List.append_nil]⟩
  · rw [← List.append_assoc] at h
    obtain ⟨hxs, hx⟩ := List.append_inj' h rfl
    exact .inl ⟨zs', by rw [hx], hxs⟩

/-- What the two calls have done, and in which order. -/
structure Updates (K : StorageKeys) (queueKey : String) (w : World γ)
    (tr : List (Side × Prog.Event Request (World γ))) (w' : World γ)
    (e₁ e₂ e₃ : Prog.Event Request (World γ)) (base last : List (Prog.Event Request (World γ)))
    (c d : Option QueueRuntimeConfig) (state : QueueState) : Prop where
  /-- the one client reads -/
  readLeft : Reads K queueKey c e₁
  /-- the one client writes the configuration it has read, with the new state -/
  writeLeft : Writes K queueKey (withState state c) e₂
  /-- so does the other -/
  readRight : Reads K queueKey d e₃
  /-- which has read another queue before -/
  idle : ∀ e ∈ base, e.post = e.pre
  /-- in some order -/
  order : ∃ u₁ u₂ u₃, base ++ e₃ :: last = u₁ ++ (u₂ ++ u₃) ∧ Prog.Chained w u₁ e₁.pre ∧
    Prog.Chained e₁.post u₂ e₂.pre ∧ Prog.Chained e₂.post u₃ w'
  /-- the configuration is as the one client has read it -/
  left : AsRead K queueKey .left tr ↔
    storedConfigs K e₂.pre.store queueKey = storedConfigs K e₁.pre.store queueKey
  /-- the configuration of the queue is, until the end, as the other client has read it -/
  right : AsRead K queueKey .right tr ↔
    ∀ e ∈ last, storedConfigs K e.pre.store queueKey = storedConfigs K e₃.pre.store queueKey

section Updates

variable {e₁ e₂ e₃ : Prog.Event Request (World γ)}
  {base last : List (Prog.Event Request (World γ))} {c d : Option QueueRuntimeConfig}

theorem Updates.reads (h : Updates K queueKey w tr w' e₁ e₂ e₃ base last c d state) :
    ∀ e ∈ base ++ [e₃], e.post = e.pre := by
  intro e he
  rcases List.mem_append.mp he with he | he
  · exact h.idle e he
  · rw [List.mem_singleton.mp he]
    exact h.readRight.post

/-- When there is nothing to write for the concurrency, the state that is written is kept. -/
theorem Updates.nothing (h : Updates K queueKey w tr w' e₁ e₂ e₃ base [] c d state)
    (hc : concurrency = inherited) (hd : d = none) :
    SettingsOutcome K queueKey inherited concurrency state tr (storedConfigs K w.store queueKey)
      (storedConfigs K w'.store queueKey) := by
  obtain ⟨u₁, u₂, u₃, hu, hchain₁, hchain₂, hchain₃⟩ := h.order
  have hidle : ∀ e ∈ u₁ ++ (u₂ ++ u₃), e.post = e.pre := hu ▸ h.reads
  obtain ⟨hpre₁, hall₁⟩ := hchain₁.idle fun e he => hidle e (List.mem_append_left _ he)
  obtain ⟨hpre₂, hall₂⟩ := hchain₂.idle fun e he =>
    hidle e (List.mem_append_right _ (List.mem_append_left _ he))
  obtain ⟨hw', hall₃⟩ := hchain₃.idle fun e he =>
    hidle e (List.mem_append_right _ (List.mem_append_right _ he))
  rw [h.readLeft.post, hpre₁] at hpre₂ hall₂
  have hstored : storedConfigs K w.store queueKey = c := by rw [← hpre₁, h.readLeft.stored]
  have hpost : storedConfigs K e₂.post.store queueKey = some (withState state c) := by
    rw [h.writeLeft.stored, if_pos rfl]
  have hnone : storedConfigs K w.store queueKey = none := by
    have he₃ : e₃ ∈ u₁ ++ (u₂ ++ u₃) :=
      hu ▸ List.mem_append_right _ (List.mem_cons_self ..)
    have hread := h.readRight.stored
    rcases List.mem_append.mp he₃ with he | he
    · rw [hall₁ e₃ he, hd] at hread
      exact hread
    · rcases List.mem_append.mp he with he | he
      · rw [hall₂ e₃ he, hd] at hread
        exact hread
      · rw [hall₃ e₃ he, hpost, hd] at hread
        cases hread
  refine .nothing (h.left.mpr ?_) (h.right.mpr fun e he => absurd he List.not_mem_nil) hc hnone ?_
  · rw [hpre₁, hpre₂]
  · rw [hw', hpost, hstored]

/-- When both clients write, both settings are kept exactly if the later one has read what the
earlier one wrote. -/
theorem Updates.write {e₄ : Prog.Event Request (World γ)}
    (h : Updates K queueKey w tr w' e₁ e₂ e₃ base [e₄] c d state)
    (hw₄ : Writes K queueKey (withConcurrency inherited concurrency d) e₄) :
    SettingsOutcome K queueKey inherited concurrency state tr (storedConfigs K w.store queueKey)
      (storedConfigs K w'.store queueKey) := by
  obtain ⟨u₁, rest, u₃, hu, hchain₁, hchain₂, hchain₃⟩ := h.order
  have hpost₂ : storedConfigs K e₂.post.store queueKey = some (withState state c) := by
    rw [h.writeLeft.stored, if_pos rfl]
  have hpost₄ : storedConfigs K e₄.post.store queueKey =
      some (withConcurrency inherited concurrency d) := by
    rw [hw₄.stored, if_pos rfl]
  have hright : AsRead K queueKey .right tr ↔
      storedConfigs K e₄.pre.store queueKey = storedConfigs K e₃.pre.store queueKey :=
    h.right.trans List.forall_mem_singleton
  have hreads := h.reads
  have he₃ : e₃ ∈ base ++ [e₃] := List.mem_append_right _ (List.mem_singleton_self _)
  have hw : base ++ [e₃] ++ [e₄] = u₁ ++ (rest ++ u₃) := by
    rw [← hu, List.append_assoc, List.singleton_append]
  rcases concat_eq_append hw with ⟨v, hv, hrs⟩ | ⟨hnil, rfl⟩
  · have hidle : ∀ e ∈ u₁ ++ v, e.post = e.pre := hrs ▸ hreads
    obtain ⟨hpre₁, hall₁⟩ := hchain₁.idle fun e he => hidle e (List.mem_append_left _ he)
    have hstored : storedConfigs K w.store queueKey = c := by rw [← hpre₁, h.readLeft.stored]
    rw [h.readLeft.post, hpre₁] at hchain₂
    rcases concat_eq_append hv.symm with ⟨v', rfl, rfl⟩ | ⟨rfl, rfl⟩
    · -- the other writes last, and has read before the write or after it
      obtain ⟨hpre₂, hall₂⟩ := hchain₂.idle fun e he =>
        hidle e (List.mem_append_right _ (List.mem_append_left _ he))
      obtain ⟨x, hchain, hpre₄, rfl⟩ := hchain₃.split
      obtain ⟨rfl, hall₃⟩ := hchain.idle fun e he =>
        hidle e (List.mem_append_right _ (List.mem_append_right _ he))
      have hleft : AsRead K queueKey .left tr := h.left.mpr (by rw [hpre₁, hpre₂])
      have hbefore : e₃.pre = w → SettingsOutcome K queueKey inherited concurrency state tr
          (storedConfigs K w.store queueKey) (storedConfigs K e₄.post.store queueKey) := by
        intro hpre₃
        have hd : d = storedConfigs K w.store queueKey := by
          rw [← hpre₃, h.readRight.stored]
        refine .concurrencyLast hleft (hright.trans ?_) (by rw [hpost₄, hd])
        rw [hpre₄, hpost₂, hpre₃, hstored]
      rcases List.mem_append.mp (hrs ▸ he₃) with he | he
      · exact hbefore (hall₁ e₃ he)
      · rcases List.mem_append.mp he with he | he
        · exact hbefore (hall₂ e₃ he)
        · have hpre₃ := hall₃ e₃ he
          have hd : d = some (withState state c) := by
            rw [← hpost₂, ← hpre₃, h.readRight.stored]
          refine .state hleft (hright.mpr (by rw [hpre₃, hpre₄])) ?_
          rw [hpost₄, hd, hstored]
    · -- it writes between the read and the write of the one
      obtain ⟨x, hchain, hpre₄, hpre₂⟩ := hchain₂.split
      obtain ⟨rfl, hall⟩ := hchain.idle fun e he => hidle e (List.mem_append_right _ he)
      obtain rfl : e₂.post = w' := hchain₃
      have hpre₃ : e₃.pre = x := by
        rcases List.mem_append.mp (hrs ▸ he₃) with he | he
        · exact hall₁ e₃ he
        · exact hall e₃ he
      have hd : d = storedConfigs K x.store queueKey := by rw [← hpre₃, h.readRight.stored]
      refine .stateLast (h.left.trans ?_) (hright.mpr (by rw [hpre₃, hpre₄]))
        (by rw [hpost₂, hstored])
      rw [← hpre₂, hpost₄, hpre₁, hd]
  · -- it is done before
    obtain ⟨rfl, rfl⟩ := List.append_eq_nil_iff.mp hnil
    obtain ⟨x, hchain, hpre₄, hpre₁⟩ := hchain₁.split
    obtain ⟨rfl, hall⟩ := hchain.idle hreads
    have hpre₂ : e₁.pre = e₂.pre := h.readLeft.post.symm.trans hchain₂
    obtain rfl : e₂.post = w' := hchain₃
    have hpre₃ := hall e₃ he₃
    have hd : d = storedConfigs K x.store queueKey := by rw [← hpre₃, h.readRight.stored]
    have hc : c = some (withConcurrency inherited concurrency d) := by
      rw [← hpost₄, hpre₁, h.readLeft.stored]
    refine .concurrency (h.left.mpr (by rw [hpre₂])) (hright.mpr (by rw [hpre₃, hpre₄])) ?_
    rw [hpost₂, hc, hd]

end Updates

/-- Every interleaving of the two calls has one of these outcomes. -/
theorem settings_outcome (hdyn : q.concurrency.isDynamic = true)
    (h : Run (setQueueState K queueKey q state) (setQueueConcurrency K queueKey q concurrency) w tr
      (.ret (.ok ())) (.ret (.ok ())) w') :
    SettingsOutcome K queueKey (inheritedConcurrency (storedConfigs K w.store) queueKey q)
      concurrency state tr (storedConfigs K w.store queueKey)
      (storedConfigs K w'.store queueKey) ∧
      ∀ queue, queue ≠ queueKey →
        storedConfigs K w'.store queue = storedConfigs K w.store queue := by
  obtain ⟨e₁, e₂, c, hlefts, hl₁, hr₁, hw₂⟩ := setQueueState_returns hdyn h.trace_left
  obtain ⟨base, last, e₃, d, n, hrights, hbase, hn, hl₃, hr₃, hlast⟩ :=
    setQueueConcurrency_returns h.trace_right
  have hlast' : (∀ e ∈ last, e.label = .hset ∧ ∀ queue, queue ≠ queueKey →
      storedConfigs K e.post.store queue = storedConfigs K e.pre.store queue) := by
    rintro e he
    rcases hlast with ⟨rfl, -⟩ | ⟨e₄, rfl, hw₄⟩
    · exact absurd he List.not_mem_nil
    · rw [List.mem_singleton.mp he]
      exact ⟨hw₄.label, fun _ => hw₄.others⟩
  have hothers := h.chained.always
    (I := fun x => ∀ queue, queue ≠ queueKey →
      storedConfigs K x.store queue = storedConfigs K w.store queue) (fun _ _ => rfl) ?_
  · have hinherited := hn (storedConfigs K w.store) fun e he =>
      hothers.2 e (List.mem_map.mpr ⟨(.right, e), Run.mem_rights.mp
        (hrights ▸ List.mem_append_left _ he), rfl⟩)
    have hup : Updates K queueKey w tr w' e₁ e₂ e₃ base last c d state := by
      refine ⟨hr₁, hw₂, hr₃, fun e he => (hbase e he).1, ?_, ?_, ?_⟩
      · rw [← hrights]
        exact h.around hlefts
      · refine (asRead_iff [] [e₂] (fun e => ?_) hl₁ (fun e he => ?_)
          fun e he => ?_).trans List.forall_mem_singleton
        · rw [← Run.mem_lefts, hlefts]
          exact Iff.rfl
        · exact absurd he List.not_mem_nil
        · rw [List.mem_singleton.mp he]
          exact hw₂.label
      · refine asRead_iff base last (fun e => ?_) hl₃ (fun e he => (hbase e he).2) fun e he =>
          (hlast' e he).1
        rw [← Run.mem_rights, hrights]
    refine ⟨?_, hothers.1⟩
    rw [← hinherited]
    rcases hlast with ⟨rfl, hc, hd⟩ | ⟨e₄, rfl, hw₄⟩
    · exact hup.nothing hc hd
    · exact hup.write hw₄
  · rintro e he hpre queue hqueue
    obtain ⟨⟨side, e'⟩, hmem, rfl⟩ := List.mem_map.mp he
    rw [← hpre queue hqueue]
    cases side with
    | left =>
      have hmem' := Run.mem_lefts.mpr hmem
      rw [hlefts] at hmem'
      rcases List.mem_cons.mp hmem' with rfl | hmem'
      · rw [hr₁.post]
      · rw [List.mem_singleton.mp hmem']
        exact hw₂.others hqueue
    | right =>
      have hmem' := Run.mem_rights.mpr hmem
      rw [hrights] at hmem'
      rcases List.mem_append.mp hmem' with hmem' | hmem'
      · rw [(hbase _ hmem').1]
      · rcases List.mem_cons.mp hmem' with rfl | hmem'
        · rw [hr₃.post]
        · exact (hlast' _ hmem').2 queue hqueue

/-! ## The effective configuration -/

theorem queueConfigOrDefault_concurrency (stored : StoredConfigs) (queue : String)
    (config : QueueRuntimeConfig) : (queueConfigOrDefault stored queue config).concurrency =
      ((stored queue).getD {}).concurrency.or config.concurrency := by
  rw [queueConfigOrDefault]
  cases stored queue with
  | none => rfl
  | some own => rfl

/-- What is stored for a queue counts, with the inherited concurrency if it has none of its own. -/
theorem workerConfig_concurrency (hdyn : q.concurrency.isDynamic = true)
    (hkey : ∀ key, q.kind = .static key → queueKey = key) (stored : StoredConfigs) :
    (q.workerConfig stored queueKey).concurrency =
      some (((stored queueKey).getD {}).concurrency.getD
        (inheritedConcurrency stored queueKey q)) := by
  obtain ⟨kind, concurrency⟩ := q
  cases concurrency with
  | fixed n => cases hdyn
  | dynamic n =>
    rw [QueueConfig.workerConfig, runtimeQueueConfig, QueueConcurrency.effectiveRuntimeConfig]
    cases kind with
    | static key =>
      obtain rfl := hkey key rfl
      simp only [QueueConfig.keyOrPrefix, if_true, queueConfigOrDefault_concurrency,
        inheritedConcurrency, Option.getD_or]
      rfl
    | dynamic pre =>
      by_cases hk : queueKey = (⟨.dynamic pre, .dynamic n⟩ : QueueConfig).keyOrPrefix
      · simp only [if_pos hk, queueConfigOrDefault_concurrency, inheritedConcurrency, Option.getD_or]
        rw [if_pos (show queueKey = pre from hk)]
        rfl
      · simp only [if_neg hk, queueConfigOrDefault_concurrency, inheritedConcurrency, Option.getD_or]
        rw [if_neg (show ¬queueKey = pre from hk)]
        rfl

/-- The state that a worker goes by is the one that is stored. -/
theorem workerConfig_state {config : QueueRuntimeConfig} {stored : StoredConfigs}
    (h : stored queueKey = some config) :
    (q.workerConfig stored queueKey).state = config.state := by
  rw [QueueConfig.workerConfig, runtimeQueueConfig]
  split
  · next hk =>
    rw [queueConfigOrDefault, h]
    rfl
  · rw [queueConfigOrDefault, h]
    rfl

/-- A new concurrency that is stored, or dropped because it is the inherited one, is the one that
counts. -/
theorem withConcurrency_getD (config : Option QueueRuntimeConfig) :
    (withConcurrency inherited concurrency config).concurrency.getD inherited = concurrency := by
  rw [withConcurrency]
  split
  · rfl
  · next hc => exact (not_not.mp hc).symm

/-- **Both settings are kept** exactly if each client that writes finds the
configuration as it has read it, or the queue had the setting already that is
overwritten then. -/
theorem settings_kept_iff (hdyn : q.concurrency.isDynamic = true)
    (hkey : ∀ key, q.kind = .static key → queueKey = key)
    (h : Run (setQueueState K queueKey q state) (setQueueConcurrency K queueKey q concurrency) w tr
      (.ret (.ok ())) (.ret (.ok ())) w') :
    q.workerConfig (storedConfigs K w'.store) queueKey = ⟨some concurrency, state⟩ ↔
      (AsRead K queueKey .left tr ∨
        (q.workerConfig (storedConfigs K w.store) queueKey).concurrency = some concurrency) ∧
      (AsRead K queueKey .right tr ∨
        ((storedConfigs K w.store queueKey).getD {}).state = state) := by
  obtain ⟨houtcome, hothers⟩ := settings_outcome hdyn h
  have hinherited := inheritedConcurrency_congr (q := q) hothers
  have hstart := workerConfig_concurrency hdyn hkey (storedConfigs K w.store)
  have hend : ∀ config, storedConfigs K w'.store queueKey = some config →
      (q.workerConfig (storedConfigs K w'.store) queueKey = ⟨some concurrency, state⟩ ↔
        config.concurrency.getD (inheritedConcurrency (storedConfigs K w.store) queueKey q) =
          concurrency ∧ config.state = state) := by
    intro config hconfig
    have hconcurrency := workerConfig_concurrency hdyn hkey (storedConfigs K w'.store)
    rw [hinherited, hconfig, Option.getD_some] at hconcurrency
    rw [← workerConfig_state hconfig (q := q), ← Option.some.injEq (_ : UInt64), ← hconcurrency]
    exact QueueRuntimeConfig.ext_iff
  rw [hstart, Option.some.injEq]
  cases houtcome with
  | nothing hleft hright hc hnone hfinal =>
    rw [hend _ hfinal, hnone]
    exact ⟨fun _ => ⟨.inl hleft, .inl hright⟩, fun _ => ⟨hc.symm, rfl⟩⟩
  | state hleft hright hfinal =>
    rw [hend _ hfinal, withConcurrency_getD]
    exact ⟨fun _ => ⟨.inl hleft, .inl hright⟩, fun _ => ⟨rfl, rfl⟩⟩
  | concurrency hleft hright hfinal =>
    rw [hend _ hfinal]
    exact ⟨fun _ => ⟨.inl hleft, .inl hright⟩, fun _ =>
      ⟨withConcurrency_getD (storedConfigs K w.store queueKey), rfl⟩⟩
  | stateLast hleft hright hfinal =>
    rw [hend _ hfinal]
    refine ⟨fun hkept => ⟨.inr hkept.1, .inl hright⟩, fun hcond => ⟨?_, rfl⟩⟩
    rcases hcond.1 with hread | hsame
    · rw [withState, ← hleft.mp hread]
      exact withConcurrency_getD (storedConfigs K w.store queueKey)
    · exact hsame
  | concurrencyLast hleft hright hfinal =>
    rw [hend _ hfinal, withConcurrency_getD]
    refine ⟨fun hkept => ⟨.inl hleft, .inr hkept.2⟩, fun hcond => ⟨rfl, ?_⟩⟩
    rcases hcond.2 with hread | hsame
    · rw [withConcurrency, ← hright.mp hread]
      rfl
    · exact hsame

end Both

/-! ## One queue and two clients -/

section Runs

/-- The queue of the sample, whose concurrency can be changed. -/
def mailQueue : QueueConfig := ⟨.static "mail", .dynamic 2⟩

variable {w : World Unit}

/-- The world after a write of its configuration. -/
def World.configured (w : World Unit) (config : QueueRuntimeConfig) : World Unit :=
  w.after (hset (StorageKeys.new "").queueConfigs "mail" config.encode)

theorem configured_stored (h : w.store.Fits (StorageKeys.new "").queueConfigs .hash)
    (config : QueueRuntimeConfig) :
    (w.configured config).store.Fits (StorageKeys.new "").queueConfigs .hash ∧
      ((w.configured config).store.hash (StorageKeys.new "").queueConfigs).lookup "mail" =
        some config.encode := by
  rw [World.configured, World.after, hset_ok h]
  exact ⟨Store.fits_put_self _, by rw [Store.hash_put_self, lookup_setField_self]⟩

theorem mail_read {config : Option QueueRuntimeConfig}
    (h : w.store.Fits (StorageKeys.new "").queueConfigs .hash)
    (hconfig : (w.store.hash (StorageKeys.new "").queueConfigs).lookup "mail" =
      config.map QueueRuntimeConfig.encode) :
    Call.Returns (queueConfig (.new "") "mail") [⟨.hget, w, w⟩] config := by
  have hsend := Call.Returns.send (l := .hget)
    (x := hget (StorageKeys.new "").queueConfigs "mail") w (congrArg Prod.fst (hget_ok h "mail"))
  rw [World.after_read (hget_snd ..), hconfig] at hsend
  refine Call.Returns.connection.bind (hsend.bind ?_)
  cases config with
  | none => exact .pure none
  | some config =>
    rw [Option.map_some, parsedConfig, QueueRuntimeConfig.decode_encode]
    exact .pure (some config)

theorem mail_write (h : w.store.Fits (StorageKeys.new "").queueConfigs .hash)
    (config : QueueRuntimeConfig) : Call.Returns (setQueueConfig (.new "") "mail" config)
      [⟨.hset, w, w.configured config⟩] () :=
  Call.Returns.connection.bind (.send w (congrArg Prod.fst (hset_ok h "mail" config.encode)))

/-- The pause has read the configuration of the queue, and is about to write it. -/
theorem pause_reads (config : Option QueueRuntimeConfig)
    (h : w.store.Fits (StorageKeys.new "").queueConfigs .hash)
    (hconfig : (w.store.hash (StorageKeys.new "").queueConfigs).lookup "mail" =
      config.map QueueRuntimeConfig.encode) :
    Prog.Trace (setQueueState (.new "") "mail" mailQueue .paused) [⟨.hget, w, w⟩]
      (setQueueConfig (.new "") "mail" (withState .paused config)) :=
  Prog.Trace.bind (mail_read h hconfig) (.refl _)

/-- The change of the concurrency has read the configuration as well, and what it wants is not the
default. -/
theorem resize_reads (config : Option QueueRuntimeConfig)
    (h : w.store.Fits (StorageKeys.new "").queueConfigs .hash)
    (hconfig : (w.store.hash (StorageKeys.new "").queueConfigs).lookup "mail" =
      config.map QueueRuntimeConfig.encode) :
    Prog.Trace (setQueueConcurrency (.new "") "mail" mailQueue 5) [⟨.hget, w, w⟩]
      (setQueueConfig (.new "") "mail" (withConcurrency 2 5 config)) :=
  Prog.Trace.bind (mail_read h hconfig) (.refl _)

/-- The pause and the change of the concurrency are made one after the other, so that each finds
what it has read, and both are kept. -/
theorem pause_kept : ∃ tr, ∃ w' : World Unit,
    Run (setQueueState (.new "") "mail" mailQueue .paused)
      (setQueueConcurrency (.new "") "mail" mailQueue 5) ⟨Store.empty, 0, ()⟩ tr
      (.ret (.ok ())) (.ret (.ok ())) w' ∧
    (mailQueue.workerConfig (storedConfigs (.new "") w'.store) "mail" = ⟨some 5, .paused⟩ ↔
      (AsRead (.new "") "mail" .left tr ∨
        (mailQueue.workerConfig (storedConfigs (.new "") Store.empty) "mail").concurrency =
          some 5) ∧
      (AsRead (.new "") "mail" .right tr ∨
        ((storedConfigs (.new "") Store.empty "mail").getD {}).state = .paused)) := by
  have hfits : Store.empty.Fits (StorageKeys.new "").queueConfigs .hash := Store.fits_empty _
  have hstored := configured_stored (w := ⟨Store.empty, 0, ()⟩) hfits (withState .paused none)
  have hrun := ((Run.of_left (pause_reads none hfits rfl) ⟨rfl, rfl⟩
    (setQueueConcurrency (.new "") "mail" mailQueue 5)).append
      (Run.of_left (mail_write hfits (withState .paused none)) ⟨rfl, rfl⟩ _)).append
    ((Run.of_right (resize_reads (some _) hstored.1 hstored.2) ⟨rfl, rfl⟩ _).append
      (Run.of_right (mail_write hstored.1 _) ⟨rfl, rfl⟩ _))
  exact ⟨_, _, hrun, settings_kept_iff rfl (fun key hkey => by cases hkey; rfl) hrun⟩

/-- Both clients read the configuration before either writes it: the pause is written first, and
then overwritten by the new concurrency. -/
theorem pause_lost : ∃ tr, ∃ w' : World Unit,
    Run (setQueueState (.new "") "mail" mailQueue .paused)
      (setQueueConcurrency (.new "") "mail" mailQueue 5) ⟨Store.empty, 0, ()⟩ tr
      (.ret (.ok ())) (.ret (.ok ())) w' ∧
    mailQueue.workerConfig (storedConfigs (.new "") w'.store) "mail" = ⟨some 5, .active⟩ := by
  have hfits : Store.empty.Fits (StorageKeys.new "").queueConfigs .hash := Store.fits_empty _
  have hpaused := configured_stored (w := ⟨Store.empty, 0, ()⟩) hfits (withState .paused none)
  have hread := (Run.of_left (pause_reads (w := ⟨Store.empty, 0, ()⟩) none hfits rfl)
    ⟨rfl, rfl⟩ _).append (Run.of_right (resize_reads none hfits rfl) ⟨rfl, rfl⟩ _)
  have hwrite := (Run.of_left (mail_write (w := ⟨Store.empty, 0, ()⟩) hfits (withState .paused none))
    ⟨rfl, rfl⟩ _).append (Run.of_right (mail_write hpaused.1 (withConcurrency 2 5 none))
      ⟨rfl, rfl⟩ _)
  refine ⟨_, _, hread.append hwrite, ?_⟩
  have hfinal := (configured_stored hpaused.1 (withConcurrency 2 5 none)).2
  rw [QueueConfig.workerConfig, runtimeQueueConfig,
    if_pos (show "mail" = mailQueue.keyOrPrefix from rfl), queueConfigOrDefault, storedConfigs,
    hfinal, Option.bind_some, QueueRuntimeConfig.decode_encode]
  rfl

end Runs

end Oxana
