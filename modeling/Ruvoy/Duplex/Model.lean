import Ruvoy.Exchange.Model

/-!
# The reading side of a duplex stream

`Stream#read` and `Stream#readpartial` of `ruby/stream.rb`, over a queue that a producer fills. A call
runs `fill`: it drains the queue into the buffer of the stream, asks whether that is enough, and parks
when it is not. Every step is one lock acquisition, and the producer's steps come between any two.

* `Answer`: what a call returns or raises;
* `State` and the steps of a call, under the names of the source;
* `Action`, `step`, `system`: the calls of one fiber, and a producer that refills the queue as far as
  its budget goes.
-/

set_option autoImplicit false

namespace Ruvoy.Duplex

open Runs
open Exchange (Call Gate)

/-- What a call returns, or raises. -/
inductive Answer
  | data (bytes : Bytes)
  /-- `nil`, from `read` at the end. -/
  | nothing
  /-- `EOFError`, from `readpartial` at the end. -/
  | eof
  | raised (error : BridgeError)
  deriving DecidableEq, Repr

structure State where
  source : Tracked
  /-- `@buffer` and `@failure`. -/
  buffer : Bytes := []
  failure : Option BridgeError := none
  bytesRead : ℕ := 0
  /-- The call in progress, and how far its `fill` has come in this round. -/
  place : Option (Call × Gate) := none
  answers : List Answer := []

namespace State

variable (s : State)

def enter (c : Call) (g : Gate) : State := { s with place := some (c, g) }

/-- The call is over. -/
def conclude (a : Answer) : State := { s with place := none, answers := s.answers ++ [a] }

/-- `give`. -/
def give (length : ℕ) : State :=
  { s with
    buffer := s.buffer.drop length
    bytesRead := s.bytesRead + (s.buffer.take length).length }.conclude (.data (s.buffer.take length))

/-- `finished?`. -/
def finished : Bool := s.failure.isSome || s.source.stream.isFinished

/-- The buffer holds what the call waits for. -/
def satisfied : Call → Bool
  | .readAll => false
  | .read length => decide (s.buffer.length ≥ length)
  | .readPartial _ => !s.buffer.isEmpty

/-- One round of the loop of `drain`. -/
def drain (c : Call) : State :=
  if s.failure.isSome then s.enter c .check
  else
    let t := { s with source := s.source.takeNext }
    match s.source.stream.takeNext.1 with
    | some (.Chunk chunk) => { t with buffer := s.buffer ++ chunk }
    | some (.Failed error) => { t with failure := some error }.enter c .check
    | _ => t.enter c .check

/-- What a call does after `fill`: a failure surfaces once nothing is left. -/
def answer : Call → State
  | .readAll =>
    if s.buffer.isEmpty then s.conclude (s.failure.elim (.data []) .raised)
    else s.give s.buffer.length
  | .read length =>
    if s.buffer.isEmpty then s.conclude (s.failure.elim .nothing .raised)
    else s.give (min length s.buffer.length)
  | .readPartial length =>
    if s.buffer.isEmpty then s.conclude (s.failure.elim .eof .raised)
    else s.give (min length s.buffer.length)

/-- The block that `fill` is given. -/
def check (c : Call) : State :=
  if s.satisfied c || s.finished then s.answer c else s.enter c .park

/-- The variable of the one reading fiber. -/
def readerVariable : Variable := 0

/-- The next step of the call in progress, when it does not wait. -/
def next : Option State :=
  match s.place with
  | some (c, .take) => some (s.drain c)
  | some (c, .check) => some (s.check c)
  | some (c, .park) =>
    some ({ s with source := s.source.park readerVariable }.enter c
      (if (s.source.stream.park readerVariable).1 then .parked else .take))
  | some (c, .leave) => some ({ s with source := s.source.unpark }.enter c .take)
  | some (_, .parked) | none => none

end State

inductive Action
  | call (c : Call)
  /-- The fiber goes on with its call. -/
  | next
  /-- The wait is over. -/
  | wake
  /-- The producer pushes what there is room for, ends the stream, fails it or is gone. -/
  | push (bytes : Bytes)
  | finish
  | fail (error : BridgeError)
  | cancel
  deriving DecidableEq, Repr

def step (s : State) : Action → Option State
  | .call c =>
    if s.place = none then some (if c = .read 0 then s.give 0 else s.enter c .take) else none
  | .next => s.next
  | .wake =>
    match s.place with
    | some (c, .parked) => some (s.enter c .leave)
    | _ => none
  | .push bytes => some { s with source := s.source.pushWithinBudget bytes }
  | .finish => some { s with source := s.source.push .End }
  | .fail error => some { s with source := s.source.push (.Failed error) }
  | .cancel => some { s with source := s.source.cancel }

/-- A stream over an empty queue of any budget, with what was read ahead of it. -/
def system : System State Action where
  init s := ∃ budget buffered, s = { source := Tracked.new budget, buffer := buffered }
  step := step

end Ruvoy.Duplex
