import Oxana.Envelope

/-!
# Queues and their runtime configuration

A queue is registered with a concurrency that is either fixed or a default for
the one that is stored at runtime. What is stored may leave the concurrency
out, and a sub-queue of a dynamic queue inherits from its base queue
(`withDefaults`). Runtime configurations are stored as JSON
(`QueueRuntimeConfig.decode_encode`).
-/

namespace Oxana

open Json

/-- `QueueState`: whether jobs of the queue are executed. -/
inductive QueueState where
  | active
  | paused
  deriving DecidableEq, Repr

/-- `QueueState::is_active`: whether they are. -/
def QueueState.isActive : QueueState → Bool
  | active => true
  | paused => false

/-- `QueueRuntimeConfig`: what can be set while workers run. -/
@[ext]
structure QueueRuntimeConfig where
  /-- how many jobs at a time, if that is set -/
  concurrency : Option UInt64 := none
  /-- whether jobs are processed -/
  state : QueueState := .active
  deriving DecidableEq, Repr

namespace QueueRuntimeConfig

/-- `QueueRuntimeConfig::new`: an active queue with this concurrency. -/
def new (concurrency : UInt64) : QueueRuntimeConfig := ⟨some concurrency, .active⟩

/-- `QueueRuntimeConfig::with_defaults`: the configuration, made complete. -/
def withDefaults (config defaults : QueueRuntimeConfig) : QueueRuntimeConfig :=
  { config with concurrency := config.concurrency.or defaults.concurrency }

end QueueRuntimeConfig

/-- `QueueConcurrency`: how many jobs of a queue run at once, and whether that can be changed. -/
inductive QueueConcurrency where
  /-- as registered -/
  | fixed (concurrency : UInt64)
  /-- as stored, if it is -/
  | dynamic (default : UInt64)
  deriving DecidableEq, Repr

namespace QueueConcurrency

/-- `QueueConcurrency::default_concurrency`: the number, unless it has been changed. -/
def defaultConcurrency : QueueConcurrency → UInt64
  | fixed concurrency => concurrency
  | dynamic default => default

/-- `QueueConcurrency::is_dynamic`: whether it can be changed. -/
def isDynamic : QueueConcurrency → Bool
  | fixed _ => false
  | dynamic _ => true

/-- `QueueConcurrency::stored_runtime_default`: what is assumed where nothing is stored. -/
def storedRuntimeDefault (c : QueueConcurrency) : QueueRuntimeConfig :=
  ⟨if c.isDynamic then some c.defaultConcurrency else none, .active⟩

/-- `QueueConcurrency::effective_runtime_config` -/
def effectiveRuntimeConfig (c : QueueConcurrency) (config : QueueRuntimeConfig) :
    QueueRuntimeConfig :=
  ⟨some (match c with
    | fixed concurrency => concurrency
    | dynamic default => config.concurrency.getD default), config.state⟩

end QueueConcurrency

/-- `QueueKind`: one queue, or one for each instance of a struct. -/
inductive QueueKind where
  /-- one queue -/
  | static (key : String)
  /-- a queue for every suffix -/
  | dynamic (pre : String)
  deriving DecidableEq, Repr

/-- `QueueConfig`: a queue as it is registered. -/
structure QueueConfig where
  /-- its name -/
  kind : QueueKind
  /-- how many jobs at a time -/
  concurrency : QueueConcurrency
  deriving DecidableEq, Repr

/-- `QueueConfig::key_or_prefix`: its name, or the beginning of its names. -/
def QueueConfig.keyOrPrefix (q : QueueConfig) : String :=
  match q.kind with
  | .static key => key
  | .dynamic pre => pre

/-! ## Stored configurations -/

/-- The text of a state; variant names are in snake case. -/
def QueueState.toJson : QueueState → Value
  | active => .str "active"
  | paused => .str "paused"

def QueueState.ofJson : Value → Option QueueState
  | .str s => variant s
  | .obj [(s, .null)] => variant s
  | _ => none
where
  variant (s : String) : Option QueueState :=
    if s = "active" then some .active else if s = "paused" then some .paused else none

namespace QueueRuntimeConfig

def members (c : QueueRuntimeConfig) : List (String × Value) :=
  member? "concurrency" (c.concurrency.map fun n => .int n.toNat) ++ [("state", c.state.toJson)]

/-- `serde_json::to_string` of a runtime configuration. -/
def encode (c : QueueRuntimeConfig) : String := String.ofList (render (.obj c.members))

def ofJson : Value → Option QueueRuntimeConfig
  | .obj ms => do
    let concurrency ← withDefault ms "concurrency" (decodeOption decodeUInt64) none
    let state ← withDefault ms "state" QueueState.ofJson .active
    pure ⟨concurrency, state⟩
  | .arr [] => some ⟨none, .active⟩
  | .arr [concurrency] => do pure ⟨← decodeOption decodeUInt64 concurrency, .active⟩
  | .arr [concurrency, state] => do
    pure ⟨← decodeOption decodeUInt64 concurrency, ← QueueState.ofJson state⟩
  | _ => none

/-- `serde_json::from_str` of a runtime configuration; `none` is a JSON error. -/
def decode (text : String) : Option QueueRuntimeConfig := (parse text.toList).bind ofJson

/-- The members of a configuration are read back as that configuration. -/
theorem ofJson_members (c : QueueRuntimeConfig) : ofJson (.obj c.members) = some c := by
  have hconcurrency := withDefault_of_filter c.members (k := "concurrency")
    (v := c.concurrency.map fun n => .int n.toNat) (by simp [members, filter_member?])
    (decodeOption decodeUInt64) none
  have hstate := withDefault_of_written c.members (k := "state") (v := c.state.toJson)
    (by simp [members, filter_member?]) QueueState.ofJson .active
  rw [decodeOption_map decodeUInt64_int (fun _ h => nomatch h)] at hconcurrency
  have hvariant : QueueState.ofJson c.state.toJson = some c.state := by
    cases c.state with
    | active => rfl
    | paused => rfl
  simp only [ofJson, hconcurrency, hstate, hvariant, Option.bind_eq_bind, Option.bind_some,
    Option.pure_def]

/-- **Round trip**: a configuration is read back from its text as it was written. -/
theorem decode_encode (c : QueueRuntimeConfig) : decode c.encode = some c := by
  rw [decode, encode, String.toList_ofList, parse_render, Option.bind_some, ofJson_members]

end QueueRuntimeConfig

end Oxana
