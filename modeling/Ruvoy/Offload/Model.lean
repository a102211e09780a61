import Ruvoy.Lib.Runs
import Ruvoy.Offload.Semaphore

/-!
# Calls moved off the runtime thread

`Ruvoy::Offload` of `ruby/offload.rb`: any number of fibers call it, each call on a thread of its own,
at most `limit` of them at a time when there is a limit. A caller may be interrupted any number of
times, wherever it waits: the reactor stops the fiber of a request whose client has gone at every pass.

* `Limit`, `Offload`, `Offload.new`: the limit;
* `Ending`, `Raised`: how a block ends on its thread, and what a caller is raised;
* `Place`, `Thread`, `Call`, `State`, `Action`, `step`, `system`: the callers and their threads, with
  any semaphore.
-/

set_option autoImplicit false

namespace Ruvoy.Offloaded

open Runs

/-- What a caller is raised. -/
inductive Raised (E : Type)
  | argumentError (message : String)
  | typeError (message : String)
  /-- What the block raised, an interruption, or `ThreadError`. -/
  | exception (e : E)
  deriving DecidableEq, Repr

/-- What is given for `limit`. -/
inductive Limit
  | nil
  | integer (n : ℤ)
  /-- Anything else, by its `inspect`. -/
  | other (inspect : String)
  deriving DecidableEq, Repr

/-- `Ruvoy::Offload`, by the limit of its semaphore if it has one. -/
structure Offload where
  limit : Option ℕ
  positive : ∀ n, limit = some n → 0 < n

/-- `Offload.new`. -/
def Offload.new {E : Type} : Limit → Except (Raised E) Offload
  | .nil => .ok ⟨none, fun _ h => by cases h⟩
  | .integer n =>
    if h : 0 < n then .ok ⟨some n.toNat, fun m hm => by cases hm; omega⟩
    else .error (.argumentError s!"limit must be a positive Integer, got {n}")
  | .other inspect => .error (.argumentError s!"limit must be a positive Integer, got {inspect}")

/-- How a block ends on its thread. -/
inductive Ending (V E : Type)
  | returned (v : V)
  | raised (e : E)
  /-- The block kills its thread, whose value is nil then. -/
  | killed
  deriving DecidableEq, Repr

/-- Where a caller is. -/
inductive Place (V E : Type)
  | outside
  /-- In `@semaphore.acquire`. -/
  | waiting
  /-- In `thread.value`. -/
  | running
  /-- In `thread.join`, with the first interruption. -/
  | interrupted (e : E)
  | returned (v : V)
  | raised (r : Raised E)
  deriving DecidableEq, Repr

/-- The thread of a call. -/
inductive Thread (V E : Type)
  | none
  | running
  | finished (ending : Ending V E)
  deriving DecidableEq, Repr

/-- One call of `Offload#call`. -/
structure Call (V E : Type) where
  place : Place V E := .outside
  thread : Thread V E := .none
  /-- What interrupted the caller, in order. -/
  interruptions : List E := []
  /-- What `Thread.new` raised. -/
  uncreated : Option E := none
  deriving DecidableEq

structure State (S : Semaphore) (V E : Type) where
  offload : Offload
  /-- `@semaphore`. -/
  semaphore : Option S.Inner
  calls : ℕ → Call V E := fun _ => {}

inductive Action (V E : Type)
  /-- `call`, with whether a block is given, and what `Thread.new` raises. -/
  | call (i : ℕ) (given : Bool) (created : Except E Unit)
  /-- The semaphore lets a caller in. -/
  | acquire (i : ℕ) (created : Except E Unit)
  /-- The block ends on its thread. -/
  | finish (i : ℕ) (ending : Ending V E)
  | interrupt (i : ℕ) (e : E)
  /-- The caller goes on after its thread. -/
  | resume (i : ℕ)

namespace State

variable {S : Semaphore} {V E : Type} (s : State S V E)

def put (i : ℕ) (k : Call V E) : State S V E := { s with calls := Function.update s.calls i k }

/-- `run`, up to the wait: the thread is created. -/
def run (i : ℕ) : Except E Unit → State S V E
  | .ok _ => s.put i { s.calls i with place := .running, thread := .running }
  | .error e => s.put i { s.calls i with place := .raised (.exception e), uncreated := some e }

/-- The semaphore, if there is one, has the place back. -/
def release (i : ℕ) : State S V E := { s with semaphore := s.semaphore.map (S.release · i) }

end State

/-- What `thread.value` gives, as `run` reads it. -/
def settled {V E : Type} : Ending V E → Place V E
  | .returned v => .returned v
  | .raised e => .raised (.exception e)
  | .killed => .raised (.typeError "exception class/object expected")

def step {S : Semaphore} {V E : Type} (s : State S V E) : Action V E → Option (State S V E)
  | .call i given created =>
    match (s.calls i).place with
    | .outside =>
      if !given then some (s.put i { s.calls i with
        place := .raised (.argumentError "a block is required") })
      else
        match s.semaphore with
        | some q => some ({ s with semaphore := some (S.ask q i) }.put i
            { s.calls i with place := .waiting })
        | none => some (s.run i created)
    | _ => none
  | .acquire i created =>
    match (s.calls i).place, s.semaphore with
    | .waiting, some q =>
      (S.letIn q i).map fun q =>
        let t := { s with semaphore := some q }.run i created
        match created with
        | .ok _ => t
        | .error _ => t.release i
    | _, _ => none
  | .finish i ending =>
    match (s.calls i).thread with
    | .running => some (s.put i { s.calls i with thread := .finished ending })
    | _ => none
  | .interrupt i e =>
    let k := { s.calls i with interruptions := (s.calls i).interruptions ++ [e] }
    match (s.calls i).place with
    | .waiting =>
      some ({ s with semaphore := s.semaphore.map (S.leave · i) }.put i
        { k with place := .raised (.exception e) })
    | .running => some (s.put i { k with place := .interrupted e })
    | .interrupted _ => some (s.put i k)
    | _ => none
  | .resume i =>
    match (s.calls i).place, (s.calls i).thread with
    | .running, .finished ending =>
      some ((s.put i { s.calls i with place := settled ending }).release i)
    | .interrupted e, .finished _ =>
      some ((s.put i { s.calls i with place := .raised (.exception e) }).release i)
    | _, _ => none

/-- An offload that nobody has called yet. -/
def State.fresh (S : Semaphore) (V E : Type) (offload : Offload) : State S V E where
  offload := offload
  semaphore := offload.limit.map S.new

/-- Any offload, with a semaphore where it has a limit. -/
def system (S : Semaphore) (V E : Type) : System (State S V E) (Action V E) where
  init s := ∃ offload, s = .fresh S V E offload
  step := step

end Ruvoy.Offloaded
