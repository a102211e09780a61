import Ruvoy.Exchange.Model

/-!
# A relay between two duplex streams

`Stream#relay` of `ruby/stream.rb`, with what it runs: `copy`, `readpartial`, `write`, `close` of both
streams, and the waiting and closing of `UpstreamStream` in `ruby/upstream.rb`. A relay starts one
fiber for each direction and collects how they end. A direction reads one stream and writes the
other, so it has the reading half of the one and the writing half of the other to itself.

* `Copy`, `Copy.next`: a direction, and what `copy` does next; every step is one lock acquisition;
* `State`, `step`, `system`: both directions, the fiber of the relay, and the workers, which push into
  the sources and take from the sinks between any two steps. The fibers share one thread and change
  places only where one waits; here they may change places anywhere.
-/

set_option autoImplicit false

namespace Ruvoy.Relay

open Runs
open Exchange (Gate TimeOut)

/-- `Stream::RELAY_BYTES`. -/
def relayBytes : ℕ := 64 * 1024

/-! ## One direction -/

/-- How far a round of `Stream.write` has come. -/
inductive WriteGate
  /-- At the head of the loop, and about to test `writable?`. -/
  | test
  | park
  | parked
  /-- Woken, about to `unpark`. -/
  | leave
  | write
  deriving DecidableEq, Repr

/-- What a direction raises, and the relay with it. -/
inductive RelayError
  /-- What `readpartial` raises once nothing is left. -/
  | failed (error : BridgeError)
  /-- `Ruvoy::UpstreamTimeout`. -/
  | timedOut
  /-- `IOError`: the stream was closed before. -/
  | notOpened
  deriving DecidableEq, Repr

/-- How a direction ended. -/
inductive Ending
  /-- `EOFError`: the other side sees the end as well. -/
  | eof
  /-- `Errno::EPIPE`: nobody is left to write to. -/
  | refused
  | raised (error : RelayError)
  deriving DecidableEq, Repr

inductive Place
  /-- About to call `readpartial`. -/
  | enter
  /-- In the `fill` of `readpartial`. -/
  | read (g : Gate)
  /-- In `UpstreamWaiting#await`, past its timeout. -/
  | timingOut (k : TimeOut)
  /-- In `Stream.write`, with this much left of a piece of `size` bytes. -/
  | write (size : ℕ) (left : Bytes) (g : WriteGate)
  /-- `EOFError` was raised: about to close the write side. -/
  | closeWrite
  | ended (e : Ending)
  | stopped
  deriving DecidableEq, Repr

/-- One direction: the reading half of `from`, the writing half of `to`, and its fiber. -/
structure Copy where
  source : Tracked
  /-- `@buffer` and `@failure` of `from`. -/
  buffer : Bytes := []
  failure : Option BridgeError := none
  readClosed : Bool := false
  bytesRead : ℕ := 0
  sink : Tracked
  writeClosed : Bool := false
  bytesWritten : ℕ := 0
  /-- `from` is a `Ruvoy::UpstreamStream`. -/
  upstream : Bool := false
  place : Place := .enter
  /-- What was read and is not going to be written. -/
  dropped : Bytes := []

namespace Copy

variable (c : Copy)

def goto (p : Place) : Copy := { c with place := p }

/-- `finished?`. -/
def finished : Bool := c.failure.isSome || c.source.stream.isFinished

/-- One round of the loop of `drain`. -/
def drain : Copy :=
  if c.failure.isSome then c.goto (.read .check)
  else
    let d := { c with source := c.source.takeNext }
    match c.source.stream.takeNext.1 with
    | some (.Chunk chunk) => { d with buffer := c.buffer ++ chunk }
    | some (.Failed error) => { d with failure := some error }.goto (.read .check)
    | _ => d.goto (.read .check)

/-- `to.write` of what was read. -/
def send (piece : Bytes) : Copy :=
  if c.writeClosed then { c with dropped := piece }.goto (.ended (.raised .notOpened))
  else c.goto (.write piece.length piece .test)

/-- What `readpartial` does after `fill`. -/
def answer : Copy :=
  if c.buffer.isEmpty then
    c.goto (c.failure.elim .closeWrite fun error => .ended (.raised (.failed error)))
  else
    { c with
      buffer := c.buffer.drop relayBytes
      bytesRead := c.bytesRead + (c.buffer.take relayBytes).length }.send (c.buffer.take relayBytes)

/-- The block that `fill` is given. -/
def check : Copy :=
  if !c.buffer.isEmpty || c.finished then c.answer else c.goto (.read .park)

/-- The variable of the direction's fiber. -/
def fiberVariable : Variable := 0

/-- `to.close_write`. -/
def closeWrite : Copy :=
  if c.writeClosed then c else { c with writeClosed := true, sink := c.sink.push .End }

/-- `sink.write`: what was taken is gone from the piece; `nil` raises `Errno::EPIPE`. -/
def writeStep (size : ℕ) (left : Bytes) : Copy :=
  match (c.sink.stream.pushChunkWithinBudget left).1 with
  | some taken =>
    { c with sink := c.sink.pushWithinBudget left }.goto (.write size (left.drop taken) .test)
  | none =>
    { c with sink := c.sink.pushWithinBudget left, readClosed := true, dropped := left }.goto
      (.ended .refused)

/-- The next step of `copy`, when it does not wait. -/
def next : Option Copy :=
  match c.place with
  | .enter =>
    some (c.goto (if c.readClosed then .ended (.raised .notOpened) else .read .take))
  | .read .take => some c.drain
  | .read .check => some c.check
  | .read .park =>
    some ({ c with source := c.source.park fiberVariable }.goto
      (.read (if (c.source.stream.park fiberVariable).1 then .parked else .take)))
  | .read .leave => some ({ c with source := c.source.unpark }.goto (.read .take))
  | .timingOut .unpark =>
    some ({ c with source := c.source.unpark }.goto (.timingOut .cancelResponse))
  | .timingOut .cancelResponse =>
    some ({ c with source := c.source.cancel }.goto (.timingOut .cancelRequest))
  | .timingOut .cancelRequest => some (c.goto (.ended (.raised .timedOut)))
  | .write size [] .test => some ({ c with bytesWritten := c.bytesWritten + size }.goto .enter)
  | .write size left .test =>
    some (c.goto (.write size left (if c.sink.stream.isSaturated then .park else .write)))
  | .write size left .park =>
    some ({ c with sink := c.sink.parkWriter fiberVariable }.goto
      (.write size left (if (c.sink.stream.parkWriter fiberVariable).1 then .parked else .write)))
  | .write size left .leave =>
    some ({ c with sink := c.sink.unpark }.goto (.write size left .write))
  | .write size left .write => some (c.writeStep size left)
  | .closeWrite => some (c.closeWrite.goto (.ended .eof))
  | .read .parked | .write _ _ .parked | .ended _ | .stopped => none

/-- The wait of a parked fiber is over. -/
def woken : Option Copy :=
  match c.place with
  | .read .parked => some (c.goto (.read .leave))
  | .write size left .parked => some (c.goto (.write size left .leave))
  | _ => none

/-- The other side has made progress, so the reactor resolves the variable. -/
def ready : Bool :=
  match c.place with
  | .read .parked =>
    decide (0 < c.source.stream.bufferedBytes) || c.source.stream.ended || c.source.stream.cancelled
  | .write _ _ .parked => c.sink.stream.cancelled || !c.sink.stream.full
  | _ => false

/-- `stop`: the `ensure` of `Park.on` gives the variable back. -/
def stop : Copy :=
  match c.place with
  | .ended _ | .stopped => c
  | .read .parked | .read .leave | .timingOut .unpark =>
    { c with source := c.source.unpark }.goto .stopped
  | .write _ left .parked | .write _ left .leave =>
    { c with sink := c.sink.unpark, dropped := left }.goto .stopped
  | .write _ left _ => { c with dropped := left }.goto .stopped
  | _ => c.goto .stopped

/-- The ending, once there is one. -/
def ending : Option Ending :=
  match c.place with
  | .ended e => some e
  | _ => none

end Copy

/-! ## The relay -/

/-- The two directions: from the stream the relay is called on to the other, and back. -/
inductive Direction
  | out
  | back
  deriving DecidableEq, Repr

/-- `close` of one stream: its reading half is the source of one direction, its writing half the
sink of the other. -/
inductive Closing
  | halves
  /-- `StreamChannel::close`, of an upstream stream. -/
  | cancelResponse
  | cancelRequest
  deriving DecidableEq, Repr

/-- How the relay comes out. -/
inductive Result
  | returned
  | raised (error : RelayError)
  /-- Its own fiber was stopped. -/
  | interrupted
  deriving DecidableEq, Repr

/-- Where the fiber of the relay is. -/
inductive Main
  /-- At `endings.pop`, after so many without a failure. -/
  | collect (popped : ℕ)
  /-- Closing the stream that direction `d` reads. -/
  | closing (d : Direction) (k : Closing)
  /-- In the `ensure`, about to stop direction `d`. -/
  | stopping (d : Direction) (r : Result)
  | done (r : Result)
  deriving DecidableEq, Repr

def Direction.other : Direction → Direction
  | .out => .back
  | .back => .out

/-- The failure in an ending. -/
def Ending.failure : Ending → Option RelayError
  | .raised error => some error
  | _ => none

structure State where
  out : Copy
  back : Copy
  /-- The queue of endings. -/
  endings : List Ending := []
  main : Main := .collect 0

namespace State

variable (s : State)

def copy : Direction → Copy
  | .out => s.out
  | .back => s.back

def setCopy : Direction → Copy → State
  | .out, c => { s with out := c }
  | .back, c => { s with back := c }

/-- A direction goes on to `c`, and reports its ending when it comes to one. -/
def advance (d : Direction) (c : Copy) : State :=
  { s.setCopy d c with endings := s.endings ++ c.ending.toList }

/-- The queue that direction `d` writes into is cancelled. -/
def cancelSink (d : Direction) : State :=
  s.setCopy d { s.copy d with sink := (s.copy d).sink.cancel }

/-- A direction's next step. The last of a `time_out` cancels the queue of the channel that the
other direction writes into. -/
def nextStep (d : Direction) : Option State :=
  (s.copy d).next.map fun c =>
    (if (s.copy d).place = .timingOut .cancelRequest then s.cancelSink d.other else s).advance d c

/-- `close_read` of the stream that direction `d` reads, and its `close_write`. -/
def closeHalves (d : Direction) : State :=
  (s.setCopy d { s.copy d with readClosed := true }).setCopy d.other (s.copy d.other).closeWrite

/-- `other` is closed first, then `self`; the `ensure` is last. -/
def afterClosing : Direction → Main
  | .back => .closing .out .halves
  | .out => .stopping .out .returned

/-- The next step of the fiber of the relay, when it does not wait. -/
def mainStep : Option State :=
  match s.main with
  | .collect popped =>
    match s.endings with
    | [] => none
    | e :: rest =>
      some { s with
        endings := rest
        main := match e.failure with
          | some error => .stopping .out (.raised error)
          | none => if popped = 0 then .collect 1 else .closing .back .halves }
  | .closing d .halves =>
    some { s.closeHalves d with
      main := if (s.copy d).upstream then .closing d .cancelResponse else afterClosing d }
  | .closing d .cancelResponse =>
    some { s.setCopy d { s.copy d with source := (s.copy d).source.cancel } with
      main := .closing d .cancelRequest }
  | .closing d .cancelRequest => some { s.cancelSink d.other with main := afterClosing d }
  | .stopping .out r => some { s with out := s.out.stop, main := .stopping .back r }
  | .stopping .back r => some { s with back := s.back.stop, main := .done r }
  | .done _ => none

end State

/-- What a worker does to a queue that it fills. -/
def fills : QueueOp → Bool
  | .pushChunk _ | .pushChunkWithinBudget _ | .pushChunkIfRoom _ | .pushEnd | .pushFailure _
  | .cancel => true
  | _ => false

/-- What a worker does to a queue that it empties. -/
def empties : QueueOp → Bool
  | .takeNext | .cancel | .setPaused _ => true
  | _ => false

inductive Action
  /-- A worker fills the queue that direction `d` reads. -/
  | source (d : Direction) (op : QueueOp)
  /-- A worker empties the queue that direction `d` writes into. -/
  | sink (d : Direction) (op : QueueOp)
  | next (d : Direction)
  /-- The reactor resolves the variable, since the other side has made progress. -/
  | wake (d : Direction)
  /-- It resolves it for progress that was seen before the wait. -/
  | wakeStale (d : Direction)
  /-- The idle timeout of an upstream stream. -/
  | timeOut (d : Direction)
  | main
  /-- The fiber of the relay is stopped. -/
  | interrupt
  deriving DecidableEq, Repr

def step (s : State) : Action → Option State
  | .source d op =>
    if fills op then some (s.setCopy d { s.copy d with source := (s.copy d).source.apply op })
    else none
  | .sink d op =>
    if empties op then some (s.setCopy d { s.copy d with sink := (s.copy d).sink.apply op })
    else none
  | .next d => s.nextStep d
  | .wake d => if (s.copy d).ready then (s.copy d).woken.map (s.setCopy d) else none
  | .wakeStale d => (s.copy d).woken.map (s.setCopy d)
  | .timeOut d =>
    if (s.copy d).upstream ∧ (s.copy d).place = .read .parked then
      some (s.setCopy d ((s.copy d).goto (.timingOut .unpark)))
    else none
  | .main => s.mainStep
  | .interrupt =>
    match s.main with
    | .collect _ => if s.endings = [] then some { s with main := .stopping .out .interrupted } else none
    | _ => none

/-- A direction of a relay that begins: no fiber waits at its queues yet, a failure is kept once it
was taken, and a write side that is closed has ended its queue. Only the queue a filter answers from is
ever paused, and no fiber reads that one. -/
structure Copy.Begins (c : Copy) : Prop where
  place : c.place = .enter
  dropped : c.dropped = []
  source : c.source.stream.waiter = none
  sink : c.sink.stream.waiter = none
  unpaused : c.source.stream.paused = false
  failure : ∀ e, c.failure = some e ↔ .Failed e ∈ c.source.taken
  closed : c.writeClosed = true → c.sink.stream.cancelled = true ∨ c.sink.stream.ended = true

/-- A relay of two streams: what `out` reads is the stream it is called on. -/
def system (out back : Copy) : System State Action where
  init s := s = { out := out, back := back }
  step := step

end Ruvoy.Relay
