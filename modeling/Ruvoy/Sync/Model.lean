import Ruvoy.Reactor.Serial
import Ruvoy.Stream.Collect

/-!
# The filter of the serial runtime

`SyncRackFilter` of `crates/ruvoy-envoy-sync/src/worker.rs`, one for each stream, with
`RuntimeClient::submit` and the request loop of `src/sync.rs` behind it. A request is collected in
full, sent to the runtime with a completion, and answered when the completion has scheduled an event.
A callback that submits is cut between `command_tx.send` and `wake::signal`, and the turn of the
runtime thread between `try_recv`, the end of `rack::call` and `scheduler.commit`.

* `Request`, `Reply`, `SyncRackFilter`: the data, with `copyHeaders` and
  `copyReceivedBody`;
* `Stream`: a filter, and what Envoy has done with its stream;
* `State` and its operations: all streams and the runtime thread, whose loop is that of `Serial`;
* `Action`, `step`, `system`.
-/

set_option autoImplicit false

namespace Ruvoy.Sync

open Runs

/-- `MAX_REQUEST_BODY_BYTES`. -/
def maxRequestBodyBytes : ℕ := 2 * 1024 * 1024

/-- `RESPONSE_EVENT_ID`. -/
def responseEventId : ℕ := 1

/-- `as_bytes`. -/
def utf8 (s : String) : Bytes := s.toUTF8.toList

/-- What the filter sets of a request. -/
structure Request where
  method : String
  path : String
  headers : List (String × Bytes)
  body : Bytes := []
  deriving DecidableEq

/-- What `rack::call` comes to. -/
abbrev Answer : Type := Except BridgeError Response

/-- What `send_response` is called with. -/
structure Reply where
  status : ℕ
  headers : List (String × Bytes)
  body : Bytes
  details : String
  deriving DecidableEq, Repr

inductive FilterState
  | Collecting
  | Waiting
  | Responded
  deriving DecidableEq, Repr

/-- What the request callbacks return. -/
inductive Status
  | StopIteration
  | StopIterationAndBuffer
  | StopIterationNoBuffer
  deriving DecidableEq, Repr

/-- What the filters of a configuration share, and what they are told from outside. -/
structure Config where
  diagnosticsEnabled : Bool
  runtimeThreadId : String
  /-- `worker_thread_id`, of the filter of a stream. -/
  workerThreadId : ℕ → String
  /-- `String::from_utf8_lossy`. -/
  lossy : Bytes → String
  /-- `get_request_header_value`, of Envoy, for these request headers. -/
  requestHeader : List (Bytes × Bytes) → String → Option Bytes
  /-- The error of a write to a socket whose other end is closed. -/
  brokenPipe : String

structure SyncRackFilter where
  request : Option Request := none
  result : Option Answer := none
  state : FilterState := .Collecting

/-! ## Copying the request -/

/-- `copy_headers`. -/
def copyHeaders (c : Config) (headers : List (Bytes × Bytes)) : Request where
  method := ((c.requestHeader headers ":method").map c.lossy).getD "GET"
  path := ((c.requestHeader headers ":path").map c.lossy).getD "/"
  headers := headers.map fun header => (c.lossy header.1, header.2)

/-- `copy_received_body`. -/
def SyncRackFilter.copyReceivedBody (f : SyncRackFilter) (received : Option (List Bytes)) :
    Option SyncRackFilter :=
  let received := (received.map List.flatten).getD []
  match f.request with
  | none => none
  | some request =>
    if maxRequestBodyBytes < request.body.length + received.length then none
    else some { f with request := some { request with body := request.body ++ received } }

/-! ## A stream -/

structure Stream where
  filter : SyncRackFilter := {}
  /-- What `on_request_headers` was called with. -/
  headers : Option (List (Bytes × Bytes)) := none
  /-- What came with each call of `on_request_body`. -/
  frames : List Bytes := []
  /-- The last request callback was made. -/
  ended : Bool := false
  /-- What the request callbacks returned. -/
  statuses : List Status := []
  /-- Committed by the scheduler and not handed over. -/
  events : List ℕ := []
  replies : List Reply := []
  /-- The stream is gone, and its filter with it. -/
  destroyed : Bool := false

namespace Stream

variable (x : Stream)

def bridgeError (status : ℕ) (body details : String) : Reply where
  status := status
  headers := [("content-type", utf8 "text/plain"), ("x-ruvoy-error", utf8 "true")]
  body := utf8 body
  details := details

def rackResponse (c : Config) (n : ℕ) (response : Response) : Reply where
  status := response.status
  headers :=
    ((response.headers.filter fun h => h.1.toList.head? ≠ some ':').map fun h => (h.1, utf8 h.2)) ++
      if c.diagnosticsEnabled then
        [("x-ruvoy-runtime-rust-thread-id", utf8 c.runtimeThreadId),
          ("x-ruvoy-worker-rust-thread-id", utf8 (c.workerThreadId n))]
      else []
  body := response.body
  details := "ruvoy_sync_rack_response"

/-- The filter is done, and has Envoy send a reply. -/
def respond (reply : Reply) : Stream :=
  { x with filter := { x.filter with state := .Responded }, replies := x.replies ++ [reply] }

/-- `send_bridge_error`. -/
def sendBridgeError (status : ℕ) (body details : String) : Stream :=
  x.respond (bridgeError status body details)

/-- `send_rack_response`. -/
def sendRackResponse (c : Config) (n : ℕ) (response : Response) : Stream :=
  x.respond (rackResponse c n response)

def returning (status : Status) : Stream := { x with statuses := x.statuses ++ [status] }

/-- `slot.take()`. -/
def takeResult : Stream := { x with filter := { x.filter with result := none } }

/-- `on_scheduled`. -/
def onScheduled (c : Config) (n eventId : ℕ) : Stream :=
  if eventId ≠ responseEventId ∨ x.filter.state ≠ .Waiting then x
  else
    match x.filter.result with
    | some (.ok response) => x.takeResult.sendRackResponse c n response
    | some (.error error) => x.takeResult.sendBridgeError 500 error.display "ruvoy_sync_ruby_error"
    | none =>
      x.sendBridgeError 500 "scheduler event arrived without a result" "ruvoy_sync_missing_result"

end Stream

/-! ## The streams and the runtime thread -/

/-- A call on its way: the stream whose filter its completion belongs to, and the request. -/
structure Job where
  stream : ℕ
  request : Request
  deriving DecidableEq

inductive Command
  | Call (job : Job)
  | ForceGc
  | Shutdown
  deriving DecidableEq

def Command.kind : Command → Serial.Command
  | .Call _ => .Call
  | .ForceGc => .ForceGc
  | .Shutdown => .Shutdown

def Command.job : Command → Option Job
  | .Call job => some job
  | _ => none

/-- What the runtime thread does in its loop. -/
inductive Turn
  /-- Waiting, draining or receiving. -/
  | loop
  /-- In `rack::call`. -/
  | running (job : Job)
  /-- The completion has filled the slot and not committed the event. -/
  | committing (stream : ℕ)
  deriving DecidableEq

def Turn.job : Turn → Option Job
  | .running job => some job
  | _ => none

structure State where
  /-- The loop, with the channel and the wake socket. -/
  runtime : Serial.State
  /-- The channel again, with what its calls carry. -/
  channel : List Command := []
  turn : Turn := .loop
  /-- `wake_reader` and `command_rx`, which go in this order when `main` returns. -/
  readerOpen : Bool := true
  receiverOpen : Bool := true
  streams : ℕ → Stream := fun _ => {}
  /-- Streams whose callback is between `command_tx.send` and `wake::signal`. -/
  signalling : List ℕ := []
  /-- Other clients that are. -/
  others : ℕ := 0
  /-- The calls that were sent, and those that were run with what they came to: for the theorems. -/
  accepted : List Job := []
  answered : List (Job × Answer) := []

namespace State

variable (s : State)

def update (n : ℕ) (f : Stream → Stream) : State :=
  { s with streams := Function.update s.streams n (f (s.streams n)) }

/-- Envoy may call the filter of a stream. -/
def Calm (n : ℕ) : Prop := n ∉ s.signalling ∧ (s.streams n).destroyed = false

instance (n : ℕ) : Decidable (s.Calm n) := inferInstanceAs (Decidable (_ ∧ _))

/-- `command_tx.send`, while the receiver is there. -/
def send (command : Command) : Option State :=
  (Serial.step s.runtime (.send command.kind)).map fun runtime =>
    { s with runtime := runtime, channel := s.channel ++ [command] }

/-- `submit`, up to `wake::signal`. -/
def submit (n : ℕ) : Option State :=
  match (s.streams n).filter.request with
  | none => some (s.update n (·.sendBridgeError 500 "missing owned request" "ruvoy_sync_missing_request"))
  | some request =>
    let s := s.update n fun x => { x with filter := { x.filter with request := none } }
    if s.receiverOpen then
      let job : Job := ⟨n, request⟩
      (s.send (.Call job)).map fun s =>
        { s with signalling := s.signalling ++ [n], accepted := s.accepted ++ [job] }
    else
      some (s.update n
        (·.sendBridgeError 503 BridgeError.RuntimeStopped.display "ruvoy_sync_submit_failed"))

/-- The rest of `submit`. -/
def signal (c : Config) (n : ℕ) : Option State :=
  if s.readerOpen then
    (Serial.step s.runtime .signal).map fun runtime =>
      { s with runtime := runtime, signalling := s.signalling.erase n }.update n fun x =>
        { x with filter := { x.filter with state := .Waiting } }
  else
    some ({ s with signalling := s.signalling.erase n }.update n
      (·.sendBridgeError 503 (BridgeError.Io c.brokenPipe).display "ruvoy_sync_submit_failed"))

def onRequestHeaders (c : Config) (n : ℕ) (headers : List (Bytes × Bytes)) (endOfStream : Bool) :
    Option State :=
  let s := s.update n fun x =>
    { x.returning .StopIteration with
      headers := some headers
      ended := endOfStream
      filter := { x.filter with request := some (copyHeaders c headers) } }
  if endOfStream then s.submit n else some s

def onRequestBody (n : ℕ) (received : Option (List Bytes)) (endOfStream : Bool) : Option State :=
  let s := s.update n fun x =>
    { x with frames := x.frames ++ [(received.map List.flatten).getD []], ended := endOfStream }
  if (s.streams n).filter.state ≠ .Collecting then
    some (s.update n (·.returning .StopIterationNoBuffer))
  else
    match (s.streams n).filter.copyReceivedBody received with
    | none =>
      some (s.update n fun x =>
        (x.sendBridgeError 413 "request body exceeds the 2 MiB limit"
          "ruvoy_sync_body_too_large").returning .StopIterationNoBuffer)
    | some filter =>
      if endOfStream then
        (s.update n fun x => { x.returning .StopIterationNoBuffer with filter := filter }).submit n
      else some (s.update n fun x => { x.returning .StopIterationAndBuffer with filter := filter })

def onRequestTrailers (n : ℕ) : Option State :=
  let s := s.update n fun x => { x.returning .StopIteration with ended := true }
  if (s.streams n).filter.state = .Collecting then s.submit n else some s

/-- `try_recv`. -/
def receive : Option State :=
  (Serial.step s.runtime .receive).map fun runtime =>
    match s.channel with
    | .Call job :: rest => { s with runtime := runtime, channel := rest, turn := .running job }
    | channel => { s with runtime := runtime, channel := channel.tail }

/-- The application has answered: the completion fills the slot. -/
def answer (job : Job) (result : Answer) : State :=
  { s with turn := .committing job.stream, answered := s.answered ++ [(job, result)] }.update
    job.stream fun x => { x with filter := { x.filter with result := some result } }

/-- `scheduler.commit`, which does nothing for a stream that is gone. -/
def commit (n : ℕ) : State :=
  { s with turn := .loop }.update n fun x =>
    if x.destroyed then x else { x with events := x.events ++ [responseEventId] }

end State

inductive Action
  | requestHeaders (n : ℕ) (headers : List (Bytes × Bytes)) (endOfStream : Bool)
  /-- With what `get_received_request_body` gives. -/
  | requestBody (n : ℕ) (received : Option (List Bytes)) (endOfStream : Bool)
  | requestTrailers (n : ℕ)
  /-- The callback of a stream goes on to `wake::signal`. -/
  | signal (n : ℕ)
  /-- Envoy hands over an event of a stream. -/
  | scheduled (n : ℕ)
  | destroy (n : ℕ)
  /-- `force_gc` or `shutdown` of another client. -/
  | send (command : Command)
  | signalOther
  | wake
  | read
  | receive
  | answer (result : Answer)
  | commit
  | dropReader
  | dropReceiver

/-- Envoy calls `on_request_headers` first, and nothing more of the request after its end. -/
def step (c : Config) (s : State) : Action → Option State
  | .requestHeaders n headers endOfStream =>
    if s.Calm n ∧ (s.streams n).headers = none then s.onRequestHeaders c n headers endOfStream else none
  | .requestBody n received endOfStream =>
    if s.Calm n ∧ (s.streams n).headers ≠ none ∧ (s.streams n).ended = false then
      s.onRequestBody n received endOfStream
    else none
  | .requestTrailers n =>
    if s.Calm n ∧ (s.streams n).headers ≠ none ∧ (s.streams n).ended = false then
      s.onRequestTrailers n
    else none
  | .signal n => if n ∈ s.signalling then s.signal c n else none
  | .scheduled n =>
    if s.Calm n then
      match (s.streams n).events with
      | [] => none
      | event :: rest => some (s.update n fun x => { x with events := rest }.onScheduled c n event)
    else none
  | .destroy n =>
    if s.Calm n then some (s.update n fun x => { x with destroyed := true, events := [] }) else none
  | .send command =>
    if command.job = none ∧ s.receiverOpen then
      (s.send command).map fun s => { s with others := s.others + 1 }
    else none
  | .signalOther =>
    if 0 < s.others then
      if s.readerOpen then
        (Serial.step s.runtime .signal).map fun runtime =>
          { s with runtime := runtime, others := s.others - 1 }
      else some { s with others := s.others - 1 }
    else none
  | .wake =>
    if s.turn = .loop then (Serial.step s.runtime .wake).map fun runtime => { s with runtime := runtime }
    else none
  | .read =>
    if s.turn = .loop then (Serial.step s.runtime .read).map fun runtime => { s with runtime := runtime }
    else none
  | .receive => if s.turn = .loop then s.receive else none
  | .answer result =>
    match s.turn with
    | .running job => some (s.answer job result)
    | _ => none
  | .commit =>
    match s.turn with
    | .committing n => some (s.commit n)
    | _ => none
  | .dropReader =>
    if s.runtime.stage = .stopped ∧ s.turn = .loop then some { s with readerOpen := false } else none
  | .dropReceiver => if s.readerOpen = false then some { s with receiverOpen := false } else none

/-- Streams that have not begun, and a runtime that was just started, with a wake socket of any
size. -/
def system (c : Config) : System State Action where
  init s := ∃ capacity, s = { runtime := { socket := .empty capacity } }
  step := step c

end Ruvoy.Sync
