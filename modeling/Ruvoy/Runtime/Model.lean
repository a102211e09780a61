import Ruvoy.Lib.Runs
import Ruvoy.Rack.Answer

/-!
# The fiber runtime from a submitted call to its answer

`FiberRuntimeClient::submit`, `FiberBridge::drain` and `FiberBridge::execute` of `src/fiber.rs`, with
the reactor loop of `ruby/fiber_runner.rb`: any number of calls, each from a thread of its own, and one
shutdown of a runtime that has started. Every call has a fiber, which runs `respond` of `Ruvoy.Rack`.
A step is one operation on the channel, one on the wake socket, or one of a fiber.

* `Command`, `Place`, `Task`: what is sent, and a call with what `submit` returned for it;
* `Stage`: where the reactor thread is, from its loop to the end of the VM;
* `State`, `Action`, `step`, `system`;
* `Notes`, `noted`: which calls were sent when.
-/

set_option autoImplicit false

namespace Ruvoy.Runtime

open Runs

/-- `FiberCommand`, a call by its number. -/
inductive Command
  | Call (i : ℕ)
  | Admin
  | Drain
  | Shutdown
  deriving DecidableEq, Repr

def Command.isCall : Command → Bool
  | .Call _ => true
  | _ => false

/-- Where a call is. -/
inductive Place
  | outside
  /-- In `send_and_wake`, with a permit. -/
  | admitted
  /-- `submit` gave it back. -/
  | refused
  | queued
  /-- Taken off the channel, and its fiber does not run yet. -/
  | batched
  /-- In `build_env` or `app.call`. -/
  | calling
  /-- The application has returned: in `respond`. -/
  | responding
  /-- `call_streaming` returned an error. -/
  | failing (error : BridgeError)
  | done
  /-- Dropped with the channel. -/
  | dropped
  deriving DecidableEq, Repr

/-- The application has had the response queue. -/
def Place.begun : Place → Bool
  | .responding | .failing _ | .done => true
  | _ => false

/-- A call, with the response the application is going to return for it, if it returns one. -/
structure Task (V : Type) where
  /-- `respond`, with the response queue of the call. -/
  fiber : Rack.State V
  place : Place := .outside
  /-- Between the send and the signal. -/
  signalling : Bool := false
  /-- What `submit` returned. -/
  result : Option (Except BridgeError Unit) := none

/-- Where the reactor thread is. -/
inductive Stage
  /-- In `io.wait_readable`. -/
  | waiting
  /-- In `bridge.drain`, at the channel. -/
  | receiving
  /-- In `envelopes.each`. -/
  | starting
  /-- In `parent.wait_all`, with every task stopped. -/
  | stopping
  /-- `ack_shutdown` was called. -/
  | stopped
  /-- The VM is cleaned up: the command receiver is dropped. -/
  | exited
  /-- The wake reader is dropped too. -/
  | closed
  /-- `bridge.drain` raised. The VM is leaked, and with it the command receiver. -/
  | failed
  deriving DecidableEq, Repr

/-- The command receiver is gone. -/
def Stage.gone : Stage → Bool
  | .exited | .closed => true
  | _ => false

structure State (V : Type) where
  tasks : ℕ → Task V
  commands : List Command := []
  stage : Stage := .waiting
  /-- The envelopes of this pass that have no fiber yet. -/
  batch : List ℕ := []
  running : List ℕ := []
  shuttingDown : Bool := false
  /-- `request_shutdown` has sent its command. -/
  shutdownSent : Bool := false
  /-- Some client is left. The runtime has one until its shutdown. -/
  clients : Bool := true
  capacity : ℕ
  /-- The permits in use. -/
  inflight : ℕ := 0

inductive Action
  /-- `try_acquire`, in `submit`. -/
  | acquire (i : ℕ)
  | send (i : ℕ)
  /-- `wake::signal`, after which `submit` returns. -/
  | signal (i : ℕ)
  /-- `FiberRuntimeClient::admin` or `drain` sends its command. -/
  | tell (draining : Bool)
  | shutdown
  /-- The last client is dropped. -/
  | dropClients
  /-- `io.wait_readable` returns, with or without a reason, and `drain` gets to the channel. -/
  | wake
  | receive
  /-- `parent.async`, or the end of the pass. -/
  | start
  /-- `parent.wait_all` returns. -/
  | finish
  | exit
  | close
  /-- `app.call` returns. -/
  | returns (i : ℕ)
  /-- `build_env` fails, or `app.call` raises, or the task is stopped in it. -/
  | fails (i : ℕ) (error : BridgeError)
  /-- A step of `respond`. -/
  | fiber (i : ℕ) (a : Rack.Action)
  /-- `call_streaming` returns. -/
  | leave (i : ℕ)
  | pushFailure (i : ℕ)
  /-- Somebody else works on the response queue. -/
  | queue (i : ℕ) (op : QueueOp)
  deriving DecidableEq

/-- What a worker does to a response queue, from the submit on. -/
def consumes : QueueOp → Bool
  | .takeNext | .cancel | .setPaused _ | .unpark => true
  | _ => false

namespace State

variable {V : Type} (s : State V)

def put (i : ℕ) (k : Task V) : State V := { s with tasks := Function.update s.tasks i k }

@[simp] theorem put_tasks (i : ℕ) (k : Task V) : (s.put i k).tasks = Function.update s.tasks i k := rfl

/-- The response queue of a call. -/
def stream (i : ℕ) : Tracked := (s.tasks i).fiber.stream

def acquire (i : ℕ) : State V :=
  if s.inflight < s.capacity then
    { s with
      tasks := Function.update s.tasks i { s.tasks i with place := .admitted }
      inflight := s.inflight + 1 }
  else s.put i { s.tasks i with place := .refused, result := some (.error .Overloaded) }

/-- `command_tx.send` fails, and drops the call with its permit. -/
def refuse (i : ℕ) : State V :=
  { s with
    tasks := Function.update s.tasks i
      { s.tasks i with place := .refused, result := some (.error .RuntimeStopped) }
    inflight := s.inflight - 1 }

def enqueue (i : ℕ) : State V :=
  { s with
    tasks := Function.update s.tasks i { s.tasks i with place := .queued, signalling := true }
    commands := s.commands ++ [.Call i] }

def send (i : ℕ) : State V := if s.stage.gone then s.refuse i else s.enqueue i

/-- What `wake::signal` returns. -/
def signalled : Except BridgeError Unit :=
  if s.stage = .closed then .error (.Io "Broken pipe (os error 32)") else .ok ()

/-- What is in the channel after another command was sent. -/
def tell (c : Command) : List Command := if s.stage.gone then s.commands else s.commands ++ [c]

/-- A call is taken off the channel, and `rest` is left. -/
def unqueue (i : ℕ) (rest : List Command) : State V :=
  { s with
    tasks := Function.update s.tasks i { s.tasks i with place := .batched }
    commands := rest
    batch := s.batch ++ [i] }

/-- `command_rx.try_recv`, and what `drain` makes of it. -/
def receive : State V :=
  match s.commands with
  | [] => { s with stage := .starting, shuttingDown := !s.clients }
  | .Call i :: rest => s.unqueue i rest
  | .Shutdown :: rest => { s with commands := rest, stage := .starting, shuttingDown := true }
  | _ :: rest => { s with commands := rest }

/-- A fiber starts, and `rest` is left to start. -/
def async (i : ℕ) (rest : List ℕ) : State V :=
  { s with
    tasks := Function.update s.tasks i { s.tasks i with place := .calling }
    batch := rest
    running := s.running ++ [i] }

/-- The next fiber starts, or the pass is over. Which tasks it stops then, their fibers hear of. -/
def start : State V :=
  match s.batch with
  | [] => { s with stage := if s.shuttingDown then .stopping else .waiting }
  | i :: rest => s.async i rest

/-- The receiver is dropped, and with it the calls that are still in the channel. -/
def exit : State V :=
  { s with
    tasks := fun i =>
      let k := s.tasks i
      if k.place = .queued then { k with place := .dropped } else k
    commands := []
    stage := .exited
    inflight := s.inflight - s.commands.countP Command.isCall }

/-- `execute` returns, and the task leaves `running`. -/
def complete (i : ℕ) (fiber : Rack.State V) : State V :=
  { s with
    tasks := Function.update s.tasks i { s.tasks i with place := .done, fiber := fiber }
    running := s.running.erase i
    inflight := s.inflight - 1 }

end State

def step {V : Type} (s : State V) : Action → Option (State V)
  | .acquire i =>
    if s.clients = true ∧ (s.tasks i).place = .outside then some (s.acquire i) else none
  | .send i =>
    if s.clients = true ∧ (s.tasks i).place = .admitted then some (s.send i) else none
  | .signal i =>
    if s.clients = true ∧ (s.tasks i).signalling = true then
      some (s.put i { s.tasks i with signalling := false, result := some s.signalled })
    else none
  | .tell draining =>
    if s.clients = true then some { s with commands := s.tell (if draining then .Drain else .Admin) }
    else none
  | .shutdown =>
    if s.shutdownSent = false then
      some { s with commands := s.tell .Shutdown, shutdownSent := true }
    else none
  | .dropClients => if s.shutdownSent = true then some { s with clients := false } else none
  | .wake =>
    if s.stage = .waiting then
      -- `wake::drain` fails once no writer is left
      some { s with stage := if s.clients then .receiving else .failed }
    else none
  | .receive => if s.stage = .receiving then some s.receive else none
  | .start => if s.stage = .starting then some s.start else none
  | .finish =>
    if s.stage = .stopping ∧ s.running = [] then some { s with stage := .stopped } else none
  | .exit => if s.stage = .stopped then some s.exit else none
  | .close => if s.stage = .exited then some { s with stage := .closed } else none
  | .returns i =>
    if (s.tasks i).place = .calling then
      some (s.put i { s.tasks i with
        place := .responding
        fiber := { (s.tasks i).fiber with pc := .respond } })
    else none
  | .fails i error =>
    if (s.tasks i).place = .calling then
      some (s.put i { s.tasks i with place := .failing error })
    else none
  | .fiber i a =>
    if (s.tasks i).place = .responding then
      (Rack.step (s.tasks i).fiber a).map fun fiber => s.put i { s.tasks i with fiber := fiber }
    else none
  | .leave i =>
    match (s.tasks i).place, (s.tasks i).fiber.pc with
    | .responding, .returned (.ok _) => some (s.complete i (s.tasks i).fiber)
    | .responding, .returned (.error e) => some (s.put i { s.tasks i with place := .failing e })
    | _, _ => none
  | .pushFailure i =>
    match (s.tasks i).place with
    | .failing e =>
      let fiber := (s.tasks i).fiber
      some (s.complete i { fiber with stream := fiber.stream.push (.Failed e) })
    | _ => none
  | .queue i op =>
    let fiber := (s.tasks i).fiber
    if consumes op = true ∨ (s.tasks i).place.begun = true then
      some (s.put i { s.tasks i with fiber := { fiber with stream := fiber.stream.apply op } })
    else none

/-- A runtime that has started, with the calls that are going to be submitted to it. -/
def system (V : Type) : System (State V) Action where
  init s := ∃ (calls : ℕ → Rack.Call V) (sizes : ℕ → ℕ) (capacity : ℕ), s =
    { tasks := fun i => { fiber := { call := calls i, stream := Tracked.new (sizes i) } }
      capacity := capacity }
  step := step

/-! ## Notes of a run -/

/-- Calls that came late. -/
structure Notes where
  /-- Sent once the reactor had taken its last command. -/
  late : List ℕ := []
  /-- Sent after the `Shutdown`, into the channel. -/
  behind : List ℕ := []

def note {V : Type} (s : State V) (a : Action) (n : Notes) : Notes :=
  match a with
  | .send i =>
    { late := if s.shuttingDown then i :: n.late else n.late
      behind := if s.shutdownSent && !s.stage.gone then i :: n.behind else n.behind }
  | _ => n

def noted (V : Type) : System (State V × Notes) Action := (system V).recording {} note

end Ruvoy.Runtime
