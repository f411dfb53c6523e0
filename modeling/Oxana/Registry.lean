import Oxana.Batcher
import Oxana.Storage
import Mathlib.Logic.Function.Basic

/-!
# The registry of workers

Workers are registered under the names of their jobs, one after the other. A job that was renamed
declares its former names, and these become aliases as long as no job of that name is registered
and no other job has claimed them before. A later registration under the same name replaces an
earlier one, together with its schedule and its entry for jobs on demand.

What the four maps hold is a function of the registrations so far (`Describes`), and everything
else is read off from that. The factories and the schedules of the `cron` crate are parameters.
-/

namespace Oxana

/-! ## Registrations -/

/-- Builds a job for a queue out of its arguments. -/
abbrev JobEnvelopeFactory := String → Json.Value → Except OxanaError JobEnvelope

/-- Builds the job of an occurrence: for a queue, with an id, a time and whether an interrupted
attempt is repeated. It also tells whether the job declares its id itself. -/
abbrev CronEnvelopeFactory :=
  String → JobId → Int64 → Bool → Except OxanaError (JobEnvelope × Bool)

/-- A job that can be enqueued by hand from the dashboard. -/
structure OnDemandJobRegistration where
  /-- what its arguments look like -/
  argsTemplate : Json.Value
  /-- how it is built -/
  enqueueFactory : JobEnvelopeFactory

/-- When the jobs of a worker are enqueued. -/
inductive WorkerConfigKind where
  /-- when a job is enqueued -/
  | normal
  /-- by the clock as well -/
  | cron (schedule queueKey : String) (resurrect : Bool)

/-- A worker, as it is registered; `F` and `G` are the factories of its jobs and of its batches. -/
structure WorkerConfig (F G : Type) where
  /-- the name of the job -/
  name : String
  /-- its former names -/
  legacyNames : List String
  /-- how a job is built -/
  factory : F
  /-- how a batch is built -/
  batchFactory : G
  /-- how jobs are batched, if they are -/
  batchConfig : Option WorkerBatchConfig
  /-- how they are enqueued by hand, if they can be -/
  onDemand : Option OnDemandJobRegistration
  /-- when it is called -/
  kind : WorkerConfigKind

/-- What is kept of a worker to build its jobs. -/
structure WorkerFactories (F G : Type) where
  /-- how a job is built -/
  factory : F
  /-- how a batch is built -/
  batchFactory : G
  /-- how jobs are batched, if they are -/
  batchConfig : Option WorkerBatchConfig
  /-- how the job of an occurrence is built -/
  cronEnvelopeFactory : Option CronEnvelopeFactory

/-- A cron job as the registry keeps it, without its name, which is the key it is kept under. -/
structure WorkerRegistry.CronJob (S : Type) where
  /-- the occurrences -/
  schedule : S
  /-- the queue the jobs go to -/
  queueKey : String
  /-- whether an interrupted attempt is repeated -/
  resurrect : Bool

/-- The arguments of `register_worker_with`, for one worker. -/
structure Registration (F G : Type) where
  /-- the worker -/
  config : WorkerConfig F G
  /-- how the job of an occurrence is built -/
  cronEnvelopeFactory : Option CronEnvelopeFactory

/-- The registered workers, with everything that is looked up of them; `S` is a schedule. -/
structure WorkerRegistry (F G S : Type) where
  /-- by the name of the job -/
  jobs : String → Option (WorkerFactories F G)
  /-- names that stand for another one -/
  aliases : String → Option String
  /-- the schedules, by the name of the job -/
  schedules : String → Option (WorkerRegistry.CronJob S)
  /-- the jobs that can be enqueued by hand, by their names -/
  onDemandJobs : String → Option OnDemandJobRegistration

variable {F G S : Type}

namespace WorkerRegistry

/-- The registry in which nothing is registered. -/
def new : WorkerRegistry F G S := ⟨fun _ => none, fun _ => none, fun _ => none, fun _ => none⟩

/-- `register_legacy_name`: another name under which jobs of a worker may be stored. -/
def registerLegacyName (r : WorkerRegistry F G S) (canonicalName legacyName : String) :
    WorkerRegistry F G S :=
  if legacyName = canonicalName then r
  else if (r.jobs legacyName).isSome then r
  else
    match r.aliases legacyName with
    | some _ => r
    | none => { r with aliases := Function.update r.aliases legacyName (some canonicalName) }

/-- `register_worker_with`; there is no result if it panics, which it does for a cron worker without
a factory and for a schedule that cannot be read. -/
def registerWorkerWith (fromStr : String → Option S) (r : WorkerRegistry F G S)
    (x : Registration F G) : Option (WorkerRegistry F G S) :=
  let name := x.config.name
  let factories : WorkerFactories F G := ⟨x.config.factory, x.config.batchFactory,
    x.config.batchConfig, x.cronEnvelopeFactory⟩
  let r := { r with
    aliases := Function.update r.aliases name none
    onDemandJobs := Function.update r.onDemandJobs name x.config.onDemand
    jobs := Function.update r.jobs name (some factories) }
  match x.config.kind with
  | .normal => some (x.config.legacyNames.foldl (fun r legacy => r.registerLegacyName name legacy)
      { r with schedules := Function.update r.schedules name none })
  | .cron schedule queueKey resurrect =>
    if x.cronEnvelopeFactory.isNone then none
    else (fromStr schedule).map fun schedule =>
      let cronJob : CronJob S := ⟨schedule, queueKey, resurrect⟩
      x.config.legacyNames.foldl (fun r legacy => r.registerLegacyName name legacy)
        { r with schedules := Function.update r.schedules name (some cronJob) }

/-- `resolve_name`: the name under which a worker is registered, for any of its names. -/
def resolveName (r : WorkerRegistry F G S) (name : String) : String :=
  if (r.jobs name).isSome then name else (r.aliases name).getD name

/-- `factories_for`: what is kept of the worker of a name. -/
def factoriesFor (r : WorkerRegistry F G S) (name : String) : Option (WorkerFactories F G) :=
  r.jobs (r.resolveName name)

/-- `batch_config`: how the jobs of a name are batched, if they are. -/
def batchConfig (r : WorkerRegistry F G S) (name : String) : Option WorkerBatchConfig :=
  (r.factoriesFor name).bind (·.batchConfig)

/-- `cron_envelope`; there is no result if it panics. -/
def cronEnvelope (r : WorkerRegistry F G S) (name : String) (scheduledAt : Int64) :
    Option (Except OxanaError (JobEnvelope × Bool)) :=
  match r.schedules name with
  | none => some (.error .generic)
  | some cronJob =>
    ((r.factoriesFor name).bind (·.cronEnvelopeFactory)).map fun factory =>
      factory cronJob.queueKey (name ++ "-" ++ toString scheduledAt.toInt) scheduledAt
        cronJob.resurrect

/-- The registry after these registrations, if none of them panics. -/
def registerAll (fromStr : String → Option S) (xs : List (Registration F G)) :
    Option (WorkerRegistry F G S) :=
  xs.foldlM (registerWorkerWith fromStr) new

end WorkerRegistry

/-! ## What the maps hold -/

/-- The latest registration of a name in a sequence. -/
def latest (xs : List (Registration F G)) (name : String) : Option (Registration F G) :=
  xs.reverse.find? fun x => x.config.name = name

/-- The job that was the first to declare a former name. -/
def firstClaim (xs : List (Registration F G)) (name : String) : Option String :=
  (xs.find? fun x => name ∈ x.config.legacyNames).map (·.config.name)

namespace Registration

variable (fromStr : String → Option S) (x : Registration F G)

/-- What is kept of the worker of a registration. -/
def factories : WorkerFactories F G :=
  ⟨x.config.factory, x.config.batchFactory, x.config.batchConfig, x.cronEnvelopeFactory⟩

/-- The registration is one of a cron worker. -/
def IsCron : Prop := ∃ schedule queueKey resurrect, x.config.kind = .cron schedule queueKey resurrect

/-- What is kept of the schedule of a registration, if it has one. -/
def cronJob : Option (WorkerRegistry.CronJob S) :=
  match x.config.kind with
  | .normal => none
  | .cron schedule queueKey resurrect =>
    (fromStr schedule).map fun schedule => ⟨schedule, queueKey, resurrect⟩

/-- The registration does not panic: a cron worker has a factory for its envelopes, and a schedule
that can be read. -/
def Valid : Prop :=
  x.IsCron → x.cronEnvelopeFactory.isSome = true ∧ (x.cronJob fromStr).isSome = true

end Registration

/-- The registry is that of these registrations. -/
structure Describes (fromStr : String → Option S) (xs : List (Registration F G))
    (r : WorkerRegistry F G S) : Prop where
  /-- a job is what was registered last under its name -/
  jobs : ∀ name, r.jobs name = (latest xs name).map (·.factories)
  /-- any other name stands for the first job that declared it -/
  aliases : ∀ name, r.aliases name = if (latest xs name).isSome then none else firstClaim xs name
  /-- the schedule of a name is that of the job that was registered last under it -/
  schedules : ∀ name, r.schedules name = (latest xs name).bind (·.cronJob fromStr)
  /-- the entry of a name for jobs on demand is that of the job that was registered last under it -/
  onDemandJobs : ∀ name, r.onDemandJobs name = (latest xs name).bind (·.config.onDemand)
  /-- none of the registrations panicked -/
  valid : ∀ x ∈ xs, x.Valid fromStr

/-! ## One registration -/

section Step

variable {fromStr : String → Option S} {xs : List (Registration F G)} {x : Registration F G}
  {r r' : WorkerRegistry F G S} {name : String}

theorem latest_concat :
    latest (xs ++ [x]) name = if x.config.name = name then some x else latest xs name := by
  by_cases h : x.config.name = name
  · simp [latest, h]
  · simp [latest, h]

theorem firstClaim_concat : firstClaim (xs ++ [x]) name =
    (firstClaim xs name).or (if name ∈ x.config.legacyNames then some x.config.name else none) := by
  by_cases h : name ∈ x.config.legacyNames
  · cases hfirst : xs.find? fun x => name ∈ x.config.legacyNames with
    | none => simp [firstClaim, List.find?_append, hfirst, h]
    | some y => simp [firstClaim, List.find?_append, hfirst]
  · cases hfirst : xs.find? fun x => name ∈ x.config.legacyNames with
    | none => simp [firstClaim, List.find?_append, hfirst, h]
    | some y => simp [firstClaim, List.find?_append, hfirst]

/-- Declaring a former name changes neither the jobs nor the schedules nor the entries for jobs on
demand; all it can touch are the aliases. -/
theorem registerLegacyName_frame (legacy : String) :
    (r.registerLegacyName name legacy).jobs = r.jobs ∧
      (r.registerLegacyName name legacy).schedules = r.schedules ∧
      (r.registerLegacyName name legacy).onDemandJobs = r.onDemandJobs := by
  rw [WorkerRegistry.registerLegacyName]
  split
  · exact ⟨rfl, rfl, rfl⟩
  · split
    · exact ⟨rfl, rfl, rfl⟩
    · split
      · exact ⟨rfl, rfl, rfl⟩
      · exact ⟨rfl, rfl, rfl⟩

/-- Declaring a former name changes no alias but its own. It changes this one only if no job has the
name and no other job has declared it before. -/
theorem registerLegacyName_aliases (hname : (r.jobs name).isSome = true) (legacy a : String) :
    (r.registerLegacyName name legacy).aliases a =
      if a = legacy ∧ (r.jobs a).isSome = false then (r.aliases a).or (some name)
      else r.aliases a := by
  rw [WorkerRegistry.registerLegacyName]
  by_cases hself : legacy = name
  · subst hself
    by_cases ha : a = legacy
    · simp [ha, hname]
    · simp [ha]
  · by_cases hjob : (r.jobs legacy).isSome = true
    · by_cases ha : a = legacy
      · simp [ha, hself, hjob]
      · simp [ha, hself, hjob]
    · cases halias : r.aliases legacy with
      | some target =>
        by_cases ha : a = legacy
        · simp [ha, hself, hjob, halias]
        · simp [ha, hself, hjob]
      | none =>
        by_cases ha : a = legacy
        · simp [ha, hself, hjob, halias]
        · simp [ha, hself, hjob]

/-- All former names. -/
theorem registerLegacyNames (legacyNames : List String) (hname : (r.jobs name).isSome = true)
    (hr : legacyNames.foldl (fun r legacy => r.registerLegacyName name legacy) r = r') :
    r'.jobs = r.jobs ∧ r'.schedules = r.schedules ∧ r'.onDemandJobs = r.onDemandJobs ∧
      ∀ a, r'.aliases a = if a ∈ legacyNames ∧ (r.jobs a).isSome = false
        then (r.aliases a).or (some name) else r.aliases a := by
  induction legacyNames generalizing r with
  | nil =>
    subst hr
    simp
  | cons legacy legacyNames ih =>
    obtain ⟨hjobs, hschedules, hdemand⟩ :
        (r.registerLegacyName name legacy).jobs = r.jobs ∧
          (r.registerLegacyName name legacy).schedules = r.schedules ∧
          (r.registerLegacyName name legacy).onDemandJobs = r.onDemandJobs :=
      registerLegacyName_frame legacy
    rw [List.foldl_cons] at hr
    obtain ⟨ihjobs, ihschedules, ihdemand, ihaliases⟩ := ih (by rw [hjobs]; exact hname) hr
    refine ⟨ihjobs.trans hjobs, ihschedules.trans hschedules, ihdemand.trans hdemand, fun a => ?_⟩
    rw [ihaliases a, hjobs, registerLegacyName_aliases hname legacy a]
    by_cases hfree : (r.jobs a).isSome = false
    · by_cases ha : a = legacy
      · subst ha
        have htwice : ((r.aliases a).or (some name)).or (some name) =
            (r.aliases a).or (some name) := by
          cases r.aliases a with
          | none => rfl
          | some target => rfl
        simp only [hfree, and_true, if_true, List.mem_cons, true_or, htwice, ite_self]
      · simp [hfree, ha]
    · simp [hfree]

/-- **One more registration.** -/
theorem Describes.step (h : Describes fromStr xs r)
    (hx : r.registerWorkerWith fromStr x = some r') : Describes fromStr (xs ++ [x]) r' := by
  -- whatever its kind, the maps are updated under its name, and then come the former names
  obtain ⟨cronJob, hcronJob, hvalid, hr'⟩ : ∃ cronJob, cronJob = x.cronJob fromStr ∧
      x.Valid fromStr ∧ x.config.legacyNames.foldl
        (fun r legacy => r.registerLegacyName x.config.name legacy)
        { jobs := Function.update r.jobs x.config.name (some x.factories)
          aliases := Function.update r.aliases x.config.name none
          schedules := Function.update r.schedules x.config.name cronJob
          onDemandJobs := Function.update r.onDemandJobs x.config.name x.config.onDemand } = r' := by
    rw [WorkerRegistry.registerWorkerWith] at hx
    cases hkind : x.config.kind with
    | normal =>
      rw [hkind] at hx
      refine ⟨none, by rw [Registration.cronJob, hkind], ?_, Option.some.inj hx⟩
      rintro ⟨schedule, queueKey, resurrect, hcron⟩
      rw [hkind] at hcron
      cases hcron
    | cron schedule queueKey resurrect =>
      rw [hkind] at hx
      cases hfactory : x.cronEnvelopeFactory with
      | none => simp [hfactory] at hx
      | some factory =>
        cases hparse : fromStr schedule with
        | none => simp [hfactory, hparse] at hx
        | some parsed =>
          have htable : x.cronJob fromStr = some ⟨parsed, queueKey, resurrect⟩ := by
            rw [Registration.cronJob, hkind]
            simp [hparse]
          simp only [hfactory, hparse, Option.isNone_some, Bool.false_eq_true, if_false,
            Option.map_some, Option.some.injEq] at hx
          refine ⟨_, htable.symm, fun _ => ⟨by rw [hfactory]; rfl, by rw [htable]; rfl⟩, ?_⟩
          rw [Registration.factories, hfactory]
          exact hx
  obtain ⟨hjobs, hschedules, hdemand, haliases⟩ :=
    registerLegacyNames x.config.legacyNames (by simp) hr'
  simp only at hjobs hschedules hdemand haliases
  refine ⟨fun name => ?_, fun name => ?_, fun name => ?_, fun name => ?_, fun y hy => ?_⟩
  · rw [hjobs, latest_concat]
    by_cases hname : x.config.name = name
    · simp [hname]
    · simp [hname, Function.update_of_ne (Ne.symm hname), h.jobs]
  · rw [haliases name, latest_concat, firstClaim_concat]
    by_cases hname : x.config.name = name
    · simp [hname]
    · have hne : name ≠ x.config.name := Ne.symm hname
      simp only [Function.update_of_ne hne, h.jobs, h.aliases, if_neg hname]
      cases hlatest : latest xs name with
      | none => by_cases hin : name ∈ x.config.legacyNames <;> simp [hin]
      | some y => simp
  · rw [hschedules, latest_concat, hcronJob]
    by_cases hname : x.config.name = name
    · simp [hname]
    · simp [hname, Function.update_of_ne (Ne.symm hname), h.schedules]
  · rw [hdemand, latest_concat]
    by_cases hname : x.config.name = name
    · simp [hname]
    · simp [hname, Function.update_of_ne (Ne.symm hname), h.onDemandJobs]
  · rcases List.mem_append.mp hy with hy | hy
    · exact h.valid y hy
    · rw [List.mem_singleton.mp hy]
      exact hvalid

/-- All of them. -/
theorem describes_of_registerAll (h : WorkerRegistry.registerAll fromStr xs = some r) :
    Describes fromStr xs r := by
  induction xs using List.reverseRecOn generalizing r with
  | nil =>
    obtain rfl := Option.some.inj h
    exact ⟨fun _ => rfl, fun _ => rfl, fun _ => rfl, fun _ => rfl, fun _ hx => nomatch hx⟩
  | append_singleton xs x ih =>
    rw [WorkerRegistry.registerAll, List.foldlM_append, Option.bind_eq_bind,
      Option.bind_eq_some_iff] at h
    obtain ⟨r₁, hfirst, hlast⟩ := h
    rw [List.foldlM_cons, Option.bind_eq_bind, Option.bind_eq_some_iff] at hlast
    obtain ⟨r₂, hx, hnil⟩ := hlast
    obtain rfl := Option.some.inj hnil
    exact (ih hfirst).step hx

end Step

/-! ## The invariant -/

/-- What can be relied on in a registry, whatever was registered and in whatever order: which names
are known, and what they stand for. -/
structure WorkerRegistry.Lawful (fromStr : String → Option S) (xs : List (Registration F G))
    (r : WorkerRegistry F G S) : Prop where
  /-- no alias is the name of a job -/
  alias_free : ∀ name, (r.aliases name).isSome = true → r.jobs name = none
  /-- every alias stands for a job -/
  alias_target : ∀ name target, r.aliases name = some target → (r.jobs target).isSome = true
  /-- a job is found under its name, as it was registered last -/
  registered : ∀ name x, latest xs name = some x →
    r.resolveName name = name ∧ r.factoriesFor name = some x.factories
  /-- other names stand for the first job that declared them -/
  alias_first : ∀ name, latest xs name = none → r.aliases name = firstClaim xs name
  /-- a name that is no job's keeps the target it has had, whatever other names are registered later
  -/
  alias_kept : ∀ ys zs r₁ name target, xs = ys ++ zs →
    WorkerRegistry.registerAll fromStr ys = some r₁ → r₁.aliases name = some target →
    (∀ x ∈ zs, x.config.name ≠ name) → r.aliases name = some target
  /-- there is a schedule for the jobs that were last registered with one -/
  scheduled : ∀ name, (r.schedules name).isSome = true ↔ ∃ x, latest xs name = some x ∧ x.IsCron
  /-- there is an entry for those that were last registered as jobs on demand -/
  on_demand : ∀ name, (r.onDemandJobs name).isSome = true ↔
    ∃ x, latest xs name = some x ∧ x.config.onDemand.isSome = true
  /-- the envelope of an occurrence can be built for every job that has a schedule -/
  cron_envelope : ∀ name scheduledAt, (r.schedules name).isSome = true →
    (r.cronEnvelope name scheduledAt).isSome = true

section Invariant

variable {fromStr : String → Option S} {xs : List (Registration F G)} {x : Registration F G}
  {r : WorkerRegistry F G S} {name target : String}

theorem latest_eq_some (h : latest xs name = some x) : x ∈ xs ∧ x.config.name = name := by
  have hfind := List.find?_some h
  exact ⟨List.mem_reverse.mp (List.mem_of_find?_eq_some h), by simpa using hfind⟩

theorem latest_isSome (hx : x ∈ xs) : (latest xs x.config.name).isSome = true := by
  rw [latest, List.find?_isSome]
  exact ⟨x, List.mem_reverse.mpr hx, by simp⟩

/-- A job that has declared a former name has been registered. -/
theorem latest_of_firstClaim (h : firstClaim xs name = some target) :
    (latest xs target).isSome = true := by
  obtain ⟨x, hx, rfl⟩ := Option.map_eq_some_iff.mp h
  exact latest_isSome (List.mem_of_find?_eq_some hx)

theorem firstClaim_append {ys zs : List (Registration F G)} (h : firstClaim ys name = some target) :
    firstClaim (ys ++ zs) name = some target := by
  obtain ⟨x, hx, rfl⟩ := Option.map_eq_some_iff.mp h
  simp [firstClaim, List.find?_append, hx]

theorem latest_append_none {ys zs : List (Registration F G)} (h : latest ys name = none)
    (hzs : ∀ x ∈ zs, x.config.name ≠ name) : latest (ys ++ zs) name = none := by
  rw [latest, List.find?_eq_none] at h ⊢
  intro x hx
  rcases List.mem_append.mp (List.mem_reverse.mp hx) with hin | hin
  · exact h x (List.mem_reverse.mpr hin)
  · simpa using hzs x hin

theorem Describes.alias_eq_some (h : Describes fromStr xs r) (ha : r.aliases name = some target) :
    latest xs name = none ∧ firstClaim xs name = some target := by
  rw [h.aliases] at ha
  cases hlatest : latest xs name with
  | none =>
    rw [hlatest] at ha
    exact ⟨rfl, ha⟩
  | some x =>
    rw [hlatest] at ha
    cases ha

theorem Describes.registered (h : Describes fromStr xs r) (hx : latest xs name = some x) :
    r.resolveName name = name ∧ r.factoriesFor name = some x.factories := by
  have hjob : r.jobs name = some x.factories := by rw [h.jobs, hx, Option.map_some]
  have hname : r.resolveName name = name := by simp [WorkerRegistry.resolveName, hjob]
  exact ⟨hname, by rw [WorkerRegistry.factoriesFor, hname, hjob]⟩

/-- A schedule comes from a registration of a cron worker. -/
theorem Describes.scheduled (h : Describes fromStr xs r) : (r.schedules name).isSome = true ↔
    ∃ x, latest xs name = some x ∧ x.IsCron := by
  rw [h.schedules]
  cases hlatest : latest xs name with
  | none => simp
  | some x =>
    simp only [Option.bind_some, Option.some.injEq, exists_eq_left']
    constructor
    · intro htable
      cases hkind : x.config.kind with
      | normal =>
        rw [Registration.cronJob, hkind] at htable
        cases htable
      | cron schedule queueKey resurrect => exact ⟨schedule, queueKey, resurrect, hkind⟩
    · exact fun hcron => (h.valid x (latest_eq_some hlatest).1 hcron).2

/-- Its job can be built, for there is no cron worker without a factory. -/
theorem Describes.cron_envelope (h : Describes fromStr xs r) (scheduledAt : Int64)
    (hs : (r.schedules name).isSome = true) : (r.cronEnvelope name scheduledAt).isSome = true := by
  obtain ⟨x, hlatest, hcron⟩ := h.scheduled.mp hs
  obtain ⟨cronJob, hjob⟩ := Option.isSome_iff_exists.mp hs
  obtain ⟨factory, hfactory⟩ :=
    Option.isSome_iff_exists.mp (h.valid x (latest_eq_some hlatest).1 hcron).1
  have hkept : x.factories.cronEnvelopeFactory = some factory := hfactory
  simp [WorkerRegistry.cronEnvelope, hjob, (h.registered hlatest).2, hkept]

/-- **Whatever is registered in whatever order**, the registry is lawful if no registration panicked:
a job is found under its name as it was registered last, no former name hides a job, every former
name leads to the first job that declared it and goes on doing so, and schedules and entries for
jobs on demand are those of the last registrations. -/
theorem registry_lawful (h : WorkerRegistry.registerAll fromStr xs = some r) :
    r.Lawful fromStr xs := by
  have hr := describes_of_registerAll h
  refine ⟨fun name ha => ?_, fun name target ha => ?_, fun name x hx => hr.registered hx,
    fun name hnone => ?_, fun ys zs r₁ name target hxs hys ha hzs => ?_, fun name => hr.scheduled,
    fun name => ?_, fun name scheduledAt => hr.cron_envelope scheduledAt⟩
  · obtain ⟨target, ha⟩ := Option.isSome_iff_exists.mp ha
    rw [hr.jobs, (hr.alias_eq_some ha).1, Option.map_none]
  · rw [hr.jobs, Option.isSome_map]
    exact latest_of_firstClaim (hr.alias_eq_some ha).2
  · rw [hr.aliases, hnone]
    rfl
  · subst hxs
    obtain ⟨hnone, hfirst⟩ := (describes_of_registerAll hys).alias_eq_some ha
    rw [hr.aliases, latest_append_none hnone hzs]
    exact firstClaim_append hfirst
  · rw [hr.onDemandJobs]
    cases hlatest : latest xs name with
    | none => simp
    | some x => simp

end Invariant

/-! ## A job that was renamed -/

section Renamed

/-- A worker of the sample with nothing but a name. -/
def plainWorker (name : String) (legacyNames : List String) (kind : WorkerConfigKind) :
    Registration Unit Unit :=
  ⟨⟨name, legacyNames, (), (), none, none, kind⟩, some fun _ _ _ _ => .error .generic⟩

/-- Two jobs claim the name of a third one, which is registered at last. -/
def renamedWorkers : List (Registration Unit Unit) :=
  [plainWorker "Letter" ["Mail"] .normal, plainWorker "Parcel" ["Mail", "Letter"] .normal,
    plainWorker "Mail" ["Post"] (.cron "@daily" "mail" true)]

/-- Three workers are registered, the last under a name that the others have claimed as a legacy
name: no registration panics, and the registry is lawful. -/
theorem renamedWorkers_lawful : ∃ r : WorkerRegistry Unit Unit String,
    WorkerRegistry.registerAll some renamedWorkers = some r ∧ r.Lawful some renamedWorkers :=
  ⟨_, rfl, registry_lawful rfl⟩

end Renamed

end Oxana
