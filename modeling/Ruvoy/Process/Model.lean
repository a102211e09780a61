import Ruvoy.Lib.Runs
import Ruvoy.Request.Env

/-!
# The runtime of the process

`crates/ruvoy-envoy-fiber/src/runtime.rs`: the one runtime of a process, which the bootstrap extension
starts, filter configurations join and Envoy's shutdown or the end of the process stops. Any number of
threads may do so at any time; what they share is two cells that are set once and a slot that is
emptied once.

* `RuntimeSettings.parse`, `FilterConfig.parse`, `UpstreamConfig.intoSettings`: the configurations,
  with what an accepted one promises;
* `ProcessRuntime`, `ensureCompatible`, `terminalStartupFailure`: what is in the cell;
* `Place`, `State`, `Action`, `step`, `system`: the threads.
-/

set_option autoImplicit false

namespace Ruvoy.Process

open Runs
open Ruvoy.Request (trim)

/-! ## Configurations -/

/-- `RuntimeSettings`, as it is read: what has a default may be left out. -/
structure RuntimeFields where
  rackup : List Char
  maxInflightRequests : Option ℕ := none
  shutdownTimeoutMs : Option ℕ := none
  diagnostics : Option Bool := none

/-- `UpstreamConfig`, as it is read. -/
structure UpstreamFields where
  clusters : List String
  timeoutMs : Option ℕ := none
  maxResponseBytes : Option ℕ := none
  streamBufferBytes : Option ℕ := none

/-- `ContextConfig`. -/
structure ContextConfig where
  metadataNamespaces : List String := []
  deriving DecidableEq

/-- `FilterConfig`, as it is read. -/
structure FilterFields where
  /-- The rackup is named. -/
  rackup : Bool := false
  context : Option ContextConfig := none
  upstream : Option UpstreamFields := none

/-- `std::str::from_utf8`, and `serde_json` for the two configurations. -/
structure Reading where
  fromUtf8 : Bytes → Option (List Char)
  runtimeFields : List Char → Except String RuntimeFields
  filterFields : List Char → Except String FilterFields

/-- `DEFAULT_MAX_INFLIGHT_REQUESTS`. -/
def defaultMaxInflightRequests : ℕ := 1024

/-- `DEFAULT_SHUTDOWN_TIMEOUT_MS`. -/
def defaultShutdownTimeoutMs : ℕ := 10000

/-- `DEFAULT_UPSTREAM_TIMEOUT_MS`. -/
def defaultUpstreamTimeoutMs : ℕ := 15000

/-- `DEFAULT_MAX_UPSTREAM_RESPONSE_BYTES`. -/
def defaultMaxUpstreamResponseBytes : ℕ := 1024 * 1024

/-- `DEFAULT_STREAM_BUFFER_BYTES`. -/
def defaultStreamBufferBytes : ℕ := 1024 * 1024

/-- Settings under which a runtime can serve. -/
structure RuntimeSettings where
  rackup : List Char
  maxInflightRequests : ℕ
  shutdownTimeoutMs : ℕ
  diagnostics : Bool
  named : rackup ≠ []
  inflight_pos : 0 < maxInflightRequests
  timeout_pos : 0 < shutdownTimeoutMs

/-- `RuntimeSettings::parse`. -/
def RuntimeSettings.parse (c : Reading) (config : Bytes) : Except BridgeError RuntimeSettings :=
  match c.fromUtf8 config with
  | none => .error (.Startup "bootstrap extension configuration must contain valid UTF-8")
  | some text =>
    if trim text = [] then
      .error (.Startup "bootstrap extension configuration must name a rackup file")
    else
      match c.runtimeFields (trim text) with
      | .error error => .error (.Startup s!"invalid bootstrap extension configuration: {error}")
      | .ok fields =>
        let maxInflight := fields.maxInflightRequests.getD defaultMaxInflightRequests
        let timeout := fields.shutdownTimeoutMs.getD defaultShutdownTimeoutMs
        if hr : fields.rackup = [] then .error (.Startup "rackup must not be empty")
        else if hm : maxInflight = 0 then
          .error (.Startup "max_inflight_requests must be a positive integer")
        else if ht : timeout = 0 then
          .error (.Startup "shutdown_timeout_ms must be a positive integer")
        else
          .ok ⟨fields.rackup, maxInflight, timeout, fields.diagnostics.getD false, hr,
            Nat.pos_of_ne_zero hm, Nat.pos_of_ne_zero ht⟩

/-- What `FilterConfig::parse` answers a configuration that names the rackup. -/
def moved : BridgeError :=
  .Startup ("the rackup is configured on the ruvoy bootstrap extension, not on the filter; " ++
    "the filter configuration is a JSON object with optional context and upstream")

/-- `FilterConfig::parse`. -/
def FilterFields.parse (c : Reading) (config : Bytes) : Except BridgeError FilterFields :=
  match c.fromUtf8 config with
  | none => .error (.Startup "filter configuration must contain valid UTF-8")
  | some text =>
    if trim text = [] then .ok {}
    else if (trim text).head? ≠ some '\x7b' then .error moved
    else
      match c.filterFields (trim text) with
      | .error error => .error (.Startup s!"invalid filter configuration: {error}")
      | .ok fields => if fields.rackup then .error moved else .ok fields

/-- Settings under which a call may succeed. -/
structure UpstreamSettings where
  clusters : List String
  timeoutMs : ℕ
  maxResponseBytes : ℕ
  streamBufferBytes : ℕ
  listed : clusters ≠ []
  cluster_named : "" ∉ clusters
  timeout_pos : 0 < timeoutMs
  response_pos : 0 < maxResponseBytes
  buffer_pos : 0 < streamBufferBytes

def invalid (message : String) : Except BridgeError UpstreamSettings :=
  .error (.Startup s!"invalid filter configuration: {message}")

/-- `into_settings`. -/
def UpstreamFields.intoSettings (f : UpstreamFields) : Except BridgeError UpstreamSettings :=
  let timeout := f.timeoutMs.getD defaultUpstreamTimeoutMs
  let maxResponse := f.maxResponseBytes.getD defaultMaxUpstreamResponseBytes
  let buffer := f.streamBufferBytes.getD defaultStreamBufferBytes
  if hl : f.clusters = [] then invalid "upstream.clusters must name at least one cluster"
  else if hn : "" ∈ f.clusters then invalid "upstream.clusters must not contain an empty name"
  else if ht : timeout = 0 then invalid "upstream.timeout_ms must be positive"
  else if hr : maxResponse = 0 then invalid "upstream.max_response_bytes must be positive"
  else if hb : buffer = 0 then invalid "upstream.stream_buffer_bytes must be positive"
  else
    .ok ⟨f.clusters, timeout, maxResponse, buffer, hl, hn, Nat.pos_of_ne_zero ht,
      Nat.pos_of_ne_zero hr, Nat.pos_of_ne_zero hb⟩

/-! ## The runtime -/

/-- `ProcessRuntimeConfig`, with the canonical path of the rackup. -/
structure ProcessRuntimeConfig where
  rackup : String
  maxInflightRequests : ℕ
  shutdownTimeoutMs : ℕ
  diagnosticsEnabled : Bool
  deriving DecidableEq, Repr

/-- `Ready`: a client of the runtime, by the thread that it runs on. -/
structure Ready where
  runtimeThreadId : String
  diagnosticsEnabled : Bool
  deriving DecidableEq, Repr

structure ProcessRuntime where
  config : ProcessRuntimeConfig
  /-- An error when the application did not load. -/
  ready : Except BridgeError Ready

/-- `terminal_startup_failure`. -/
def terminalStartupFailure (error : BridgeError) : BridgeError :=
  .Startup (error.display ++ ". The Ruby VM is created once per process, so Envoy must be restarted " ++
    "after fixing this.")

namespace ProcessRuntime

/-- `ensure_compatible`. -/
def ensureCompatible (r : ProcessRuntime) (requested : ProcessRuntimeConfig) :
    Except BridgeError Unit :=
  if r.config = requested then .ok ()
  else .error (.Startup ("Ruvoy is already running with a different rackup; this process cannot " ++
    "serve a second configuration. The Ruby VM is created once per process, so restart Envoy " ++
    "to change it. active rackup=" ++ r.config.rackup ++ " requested rackup=" ++ requested.rackup))

/-- `ProcessRuntime::ready`. -/
def join (r : ProcessRuntime) : Except BridgeError Ready := r.ready.mapError terminalStartupFailure

end ProcessRuntime

/-- What is in the cell once it is set. -/
abbrev Started : Type := Except BridgeError ProcessRuntime

/-- What `start` makes of the cell. -/
def joined (cell : Started) (requested : ProcessRuntimeConfig) : Except BridgeError Ready :=
  match cell with
  | .error error => .error (terminalStartupFailure error)
  | .ok runtime => do
    runtime.ensureCompatible requested
    runtime.join

/-- What `ready` makes of it. -/
def entered (cell : Option Started) : Except BridgeError Ready :=
  match cell with
  | none => .error (.Startup ("the Ruby runtime is not configured: add the ruvoy bootstrap extension " ++
    "under bootstrap_extensions, which names the rackup"))
  | some (.error error) => .error (terminalStartupFailure error)
  | some (.ok runtime) => runtime.join

/-- `ProcessRuntimeConfig::new`, with what `canonical_rackup` gives. -/
def ProcessRuntimeConfig.new (settings : RuntimeSettings) (rackup : Except BridgeError String) :
    Except BridgeError ProcessRuntimeConfig :=
  rackup.map fun rackup =>
    ⟨rackup, settings.maxInflightRequests, settings.shutdownTimeoutMs, settings.diagnostics⟩

/-- `ProcessRuntime::start`, with what `FiberRuntime::start_rackup_with_limit_retained` gives: no
runtime, or one with the error of the application or the thread it runs on. -/
def ProcessRuntime.start (config : ProcessRuntimeConfig)
    (startup : Except BridgeError (Except BridgeError String)) : Started :=
  startup.map fun loaded =>
    ⟨config, loaded.map fun thread => ⟨thread, config.diagnosticsEnabled⟩⟩

/-- `FiberRackConfig`. -/
structure FiberRackConfig where
  ready : Ready
  context : Option ContextConfig
  upstream : Option UpstreamSettings

/-! ## The threads -/

/-- Where a thread is. -/
inductive Place
  | outside
  /-- In `start`, about to register the hook. -/
  | hooking (config : ProcessRuntimeConfig)
  /-- At `get_or_init`. -/
  | joining (config : ProcessRuntimeConfig)
  /-- In `ProcessRuntime::start`, inside `get_or_init`. -/
  | starting (config : ProcessRuntimeConfig)
  /-- `start` returned. -/
  | started (requested : Option ProcessRuntimeConfig) (result : Except BridgeError Ready)
  /-- In `FiberRackConfig::start`, about to call `ready`. -/
  | filtering (context : Option ContextConfig) (upstream : Option UpstreamSettings)
  /-- `FiberRackConfig::start` returned. -/
  | filtered (result : Except BridgeError FiberRackConfig)
  /-- In `shutdown_with_timeout`. -/
  | stopping
  /-- `shutdown` returned. -/
  | stopped (result : Except BridgeError Bool)

structure State where
  /-- `PROCESS_SHUTDOWN_HOOK`. -/
  hook : Option (Except BridgeError Unit) := none
  /-- `PROCESS_RUNTIME`, and the thread that runs the closure for it. -/
  cell : Option Started := none
  initializing : Option ℕ := none
  /-- The `FiberRuntime` is in its slot. -/
  runtime : Bool := false
  threads : ℕ → Place := fun _ => .outside
  /-- How often `atexit` and `ProcessRuntime::start` were called. -/
  hooks : ℕ := 0
  starts : ℕ := 0

inductive Action
  /-- `start`, with what `canonical_rackup` gives. -/
  | start (i : ℕ) (settings : RuntimeSettings) (rackup : Except BridgeError String)
  /-- With whether `atexit` takes the hook. -/
  | hook (i : ℕ) (registered : Bool)
  | join (i : ℕ)
  /-- The runtime thread has reported. -/
  | report (i : ℕ) (startup : Except BridgeError (Except BridgeError String))
  | filter (i : ℕ) (config : Bytes)
  | ready (i : ℕ)
  | shutdown (i : ℕ)
  | finish (i : ℕ) (result : Except BridgeError Unit)

namespace State

variable (s : State)

def put (i : ℕ) (p : Place) : State := { s with threads := Function.update s.threads i p }

end State

/-- What `PROCESS_SHUTDOWN_HOOK.get_or_init` sets. -/
def registerHook (registered : Bool) : Except BridgeError Unit :=
  if registered then .ok ()
  else .error (.Startup "failed to register the Ruvoy process shutdown hook")

/-- `FiberRackConfig::start`, up to `ready`. -/
def beginFilter (c : Reading) (config : Bytes) : Place :=
  match FilterFields.parse c config with
  | .error error => .filtered (.error error)
  | .ok fields =>
    match fields.upstream with
    | none => .filtering fields.context none
    | some upstream =>
      match upstream.intoSettings with
      | .error error => .filtered (.error error)
      | .ok settings => .filtering fields.context (some settings)

def step (c : Reading) (s : State) : Action → Option State
  | .start i settings rackup =>
    match s.threads i with
    | .outside =>
      match ProcessRuntimeConfig.new settings rackup with
      | .error error => some (s.put i (.started none (.error error)))
      | .ok config => some (s.put i (.hooking config))
    | _ => none
  | .hook i registered =>
    match s.threads i with
    | .hooking config =>
      match s.hook with
      | none =>
        let result := registerHook registered
        let s := { s with hook := some result, hooks := s.hooks + 1 }
        some (match result with
          | .ok _ => s.put i (.joining config)
          | .error error => s.put i (.started none (.error error)))
      | some (.ok _) => some (s.put i (.joining config))
      | some (.error error) => some (s.put i (.started none (.error error)))
    | _ => none
  | .join i =>
    match s.threads i with
    | .joining config =>
      match s.cell with
      | some cell => some (s.put i (.started (some config) (joined cell config)))
      | none =>
        -- one thread runs the closure, the others wait for it
        if s.initializing = none then
          some { s.put i (.starting config) with initializing := some i, starts := s.starts + 1 }
        else none
    | _ => none
  | .report i startup =>
    match s.threads i with
    | .starting config =>
      let cell := ProcessRuntime.start config startup
      some ({ s with cell := some cell, initializing := none, runtime := cell.toBool }.put i
        (.started (some config) (joined cell config)))
    | _ => none
  | .filter i config =>
    match s.threads i with
    | .outside => some (s.put i (beginFilter c config))
    | _ => none
  | .ready i =>
    match s.threads i with
    | .filtering context upstream =>
      some (s.put i (.filtered ((entered s.cell).map fun ready => ⟨ready, context, upstream⟩)))
    | _ => none
  | .shutdown i =>
    match s.threads i with
    | .outside =>
      -- the slot is there when the cell has a runtime, and `take` empties it
      if s.runtime then some ({ s with runtime := false }.put i .stopping)
      else some (s.put i (.stopped (.ok false)))
    | _ => none
  | .finish i result =>
    match s.threads i with
    | .stopping => some (s.put i (.stopped (result.map fun _ => true)))
    | _ => none

def system (c : Reading) : System State Action where
  init s := s = {}
  step := step c

end Ruvoy.Process
