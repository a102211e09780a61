import Ruvoy.Lib.Runs
import Ruvoy.Lib.Table
import Ruvoy.Stream.History

/-!
# The upstream calls and streams of one request

`Upstreams` and `StreamChannel` of `src/upstream.rs`, the worker's half in
`crates/ruvoy-envoy-fiber/src/upstream.rs` and the upstream callbacks of `FiberRackFilter` in
`worker.rs`, with the fibers that queue calls and streams, Envoy, and the reactor.

A step is one lock acquisition or one access to a shared flag. The worker has two lists of work: what
is left of the callback that runs (`handler`), where nothing is asked of Envoy but statistics, and
what is left of `send_upstream_calls` or `abandon_upstreams` (`outer`). Envoy may call back between
callbacks and from inside the calls that `outer` makes of it; it reports the end of the request only
between callbacks, since no upstream call touches the downstream. Wakers schedule an event, and an
event may come at any time here, so they leave no trace. Header names and values of Envoy are given
as `from_utf8_lossy` reads them.

* `refusal`, `headOf`, `answer`, `deliver`, `withTrace`: what is said of a call;
* `OpenStream` and its handlers: a stream that was started, by what Envoy reports of it. A handler
  gives the stream as it is then and the accesses left to make (`Micro`);
* `State`, `State.micro`, `State.outerStep`, `Action`, `step`, `system`.
-/

set_option autoImplicit false

namespace Ruvoy.Upstream

open Runs

/-- `Vec<(String, Vec<u8>)>`. -/
abbrev Fields : Type := List (String × Bytes)

abbrev Headers : Type := List (String × String)

/-- How a call to a cluster ended, as the calling fiber saw it. -/
inductive CallOutcome
  | Completed
  | Refused
  | TimedOut
  | Overflow
  | TooLarge
  | Reset
  | Abandoned
  deriving DecidableEq, Repr

/-- The settings read on the way of a call. -/
structure UpstreamSettings where
  maxResponseBytes : ℕ
  streamBufferBytes : ℕ

/-- A call or a streamed call, by the number of its response stream or channel. -/
inductive Item
  | call (n : ℕ)
  | stream (n : ℕ)
  deriving DecidableEq, Repr

/-- One of the queues. -/
inductive Ref
  | call (n : ℕ)
  | response (n : ℕ)
  | request (n : ℕ)
  deriving DecidableEq, Repr

/-- One call on its way to the worker; its timeout in nanoseconds. -/
structure UpstreamRequest where
  response : ℕ
  cluster : String
  headers : Fields
  body : Bytes
  timeout : ℕ

def UpstreamRequest.item (r : UpstreamRequest) : Item := .call r.response

/-- One streamed call on its way to the worker. -/
structure UpstreamStreamRequest where
  channel : ℕ
  cluster : String
  headers : Fields
  timeout : ℕ

def UpstreamStreamRequest.item (r : UpstreamStreamRequest) : Item := .stream r.channel

/-- Both directions of one streamed call. -/
structure StreamChannel where
  response : Tracked
  request : Tracked
  resetWanted : Bool := false
  timedOut : Bool := false
  trailers : Option Headers := none

/-- `StreamChannel::new`. -/
def StreamChannel.new (budget : ℕ) : StreamChannel := { response := .new budget, request := .new budget }

/-! ## Calls -/

/-- `envoy_dynamic_module_type_http_callout_init_result`. -/
inductive InitResult
  | Success
  | ClusterNotFound
  | CannotCreateRequest
  | MissingRequiredHeaders
  | DuplicateCalloutId
  deriving DecidableEq, Repr

/-- Why Envoy turned a call or stream away, or nothing when it took it. -/
def refusal (result : InitResult) (cluster : String) : Option String :=
  match result with
  | .Success => none
  | .ClusterNotFound => some s!"cluster {cluster} does not exist"
  | .CannotCreateRequest =>
    some (s!"cluster {cluster} turned the call away at once, for example because it has no " ++
      "healthy host or a circuit breaker is open")
  | .MissingRequiredHeaders => some "the call is missing :method, :path or host"
  | .DuplicateCalloutId => some "Envoy handed out a call id that was already in use"

/-- `envoy_dynamic_module_type_http_callout_result`. -/
inductive CalloutResult
  | Success
  | Reset
  | ExceedResponseBufferLimit
  deriving DecidableEq, Repr

/-- The outcome a failure the worker found stands for. -/
def failed : BridgeError → CallOutcome
  | .UpstreamOverflow _ => .Overflow
  | .UpstreamTooLarge _ => .TooLarge
  | _ => .Reset

/-- `str::parse::<u16>`. -/
def parseU16 (text : String) : Option ℕ :=
  let digits := match text.toList with
    | '+' :: rest => rest
    | digits => digits
  if digits.isEmpty || !digits.all Char.isDigit then none
  else
    let n := digits.foldl (fun n c => 10 * n + (c.toNat - '0'.toNat)) 0
    if n < 65536 then some n else none

/-- The status and fields of a response head; nothing without a valid `:status`. -/
def headOf (headers : Headers) : Option ResponseHead :=
  let status := headers.foldl (fun status h => if h.1 = ":status" then parseU16 h.2 else status) none
  status.map fun status => ⟨status, headers.filter fun h => !h.1.startsWith ":", 0⟩

def answer (headers : Headers) (body : List Bytes) (maxResponseBytes : ℕ) :
    Except BridgeError (ResponseHead × Bytes) :=
  let size := (body.map List.length).sum
  if size > maxResponseBytes then
    .error (.UpstreamTooLarge
      s!"the {size} byte response body is over the {maxResponseBytes} byte limit")
  else
    match headOf headers with
    | none => .error (.Upstream "the response carried no valid :status")
    | some head => .ok (head, body.flatten)

/-- `deliver`: what is pushed, and the outcome. -/
def deliver (result : CalloutResult) (headers : Option Headers) (body : Option (List Bytes))
    (maxResponseBytes : ℕ) : List StreamItem × CallOutcome :=
  let outcome := match result with
    | .Success => answer (headers.getD []) (body.getD []) maxResponseBytes
    | .Reset => .error (.Upstream "the upstream stream was reset")
    | .ExceedResponseBufferLimit =>
      .error (.UpstreamTooLarge "the response exceeded Envoy's buffer limit")
  match outcome with
  | .ok (head, body) =>
    (.Head head :: (if body.isEmpty then [] else [.Chunk body]) ++ [.End], .Completed)
  | .error error => ([.Failed error], failed error)

/-- `TRACE_HEADERS`. -/
def traceHeaders : List String :=
  ["traceparent", "tracestate", "x-request-id", "b3", "x-b3-traceid", "x-b3-spanid",
    "x-b3-parentspanid", "x-b3-sampled", "x-b3-flags"]

/-- The headers a call goes out with: the application's, then whatever of the request's trace context
it did not set. -/
def withTrace (headers trace : Fields) : Fields :=
  headers ++ trace.filter fun field => !headers.any (·.1 == field.1)

/-- A deadline in whole milliseconds, at least one. -/
def deadlineMs (timeout : ℕ) : ℕ := max (min (timeout / 1000000) (2 ^ 64 - 1)) 1

/-- A call that was sent and not yet answered. -/
structure PendingCall where
  response : ℕ
  cluster : String

def PendingCall.item (c : PendingCall) : Item := .call c.response

/-! ## Streams -/

/-- `envoy_dynamic_module_type_http_stream_reset_reason`. -/
inductive ResetReason
  | ConnectionFailure
  | ConnectionTermination
  | LocalReset
  | LocalRefusedStreamReset
  | Overflow
  | RemoteReset
  | RemoteRefusedStreamReset
  | ProtocolError
  deriving DecidableEq, Repr

/-- `reset_reason`. -/
def resetReason : ResetReason → String
  | .ConnectionFailure => "the upstream could not be reached"
  | .ConnectionTermination => "the upstream connection closed"
  | .LocalReset => "the stream was reset locally"
  | .LocalRefusedStreamReset => "the stream was refused locally"
  | .Overflow => "Envoy turned the stream away, for example because a circuit breaker is open"
  | .RemoteReset => "the upstream reset the stream"
  | .RemoteRefusedStreamReset => "the upstream refused the stream"
  | .ProtocolError => "the upstream broke the HTTP protocol"

/-- A stream that was started and that Envoy has not yet reported finished. -/
structure OpenStream where
  channel : ℕ
  cluster : String
  /-- How the stream ended, once it has. -/
  outcome : Option CallOutcome := none
  /-- The request body has gone out to its end. -/
  requestEnded : Bool := false
  /-- The response has ended or failed; whatever else Envoy reports is dropped. -/
  responseEnded : Bool := false
  /-- The reset has been sent, so it is not sent again. -/
  resetSent : Bool := false
  /-- The upstream agreed to switch protocols, so the exchange is now a byte stream. -/
  upgraded : Bool := false

def OpenStream.item (stream : OpenStream) : Item := .stream stream.channel

/-- One access of a callback to what it shares, or the statistics it keeps. -/
inductive Micro
  | push (r : Ref) (item : StreamItem)
  /-- `data_arrived`, about to deliver the bytes. -/
  | data (handle : ℕ) (bytes : Bytes) (endStream : Bool)
  /-- `data_arrived`, about to ask how the fiber stopped the stream. -/
  | stopped (handle : ℕ)
  /-- `reset_by_envoy`, about to ask how the fiber stopped the stream. -/
  | resetStopped (stream : OpenStream) (reason : ResetReason)
  | setTrailers (channel : ℕ) (trailers : Headers)
  | cancelRequest (channel : ℕ)
  | wantReset (channel : ℕ)
  | wake (r : Ref)
  /-- `writer_owed_wakeup` of a request queue, and the wake of its writer. -/
  | checkWriter (channel : ℕ)
  | count (item : Item) (cluster : String) (outcome : CallOutcome)

/-- `StreamChannel::fail`. -/
def channelFail (channel : ℕ) (error : BridgeError) : List Micro :=
  [.push (.response channel) (.Failed error), .cancelRequest channel, .wantReset channel]

/-- `wake_stream`. -/
def wakeStream (channel : ℕ) : List Micro := [.wake (.response channel), .checkWriter channel]

namespace OpenStream

variable (stream : OpenStream)

/-- `outcome.get_or_insert`. -/
def settle (outcome : CallOutcome) : OpenStream :=
  { stream with outcome := some (stream.outcome.getD outcome) }

/-- `end`. -/
def finish : OpenStream × List Micro :=
  ({ stream.settle .Completed with responseEnded := true },
    [.push (.response stream.channel) .End])

def fail (error : BridgeError) : OpenStream × List Micro :=
  ({ stream.settle (failed error) with responseEnded := true }, channelFail stream.channel error)

/-- `gone`. -/
def gone (r : OpenStream × List Micro) : OpenStream × List Micro :=
  (r.1, r.2 ++ [.cancelRequest r.1.channel])

/-- `outcome`. -/
def counted : CallOutcome := stream.outcome.getD .Abandoned

/-- `stopped_by_fiber`, given whether the channel timed out. -/
def stoppedByFiber (timedOut : Bool) : CallOutcome :=
  if timedOut then .TimedOut else if stream.upgraded then .Completed else .Abandoned

def headersArrived (headers : Headers) (endStream : Bool) : OpenStream × List Micro :=
  if stream.responseEnded then (stream, [])
  else
    match headOf headers with
    | none => stream.fail (.Upstream "the response carried no valid :status")
    | some head =>
      let push := Micro.push (.response stream.channel) (.Head head)
      let stream := { stream with upgraded := head.status == 101 }
      if endStream then (stream.finish.1, push :: stream.finish.2) else (stream, [push])

/-- `data_arrived`, up to the delivery. -/
def dataArrived (handle : ℕ) (data : List Bytes) (endStream : Bool) : OpenStream × List Micro :=
  if stream.responseEnded then (stream, [])
  else if data.flatten.isEmpty then if endStream then stream.finish else (stream, [])
  else (stream, [.data handle data.flatten endStream])

def trailersArrived (trailers : Headers) : OpenStream × List Micro :=
  if stream.responseEnded then (stream, [])
  else (stream.finish.1, .setTrailers stream.channel trailers :: stream.finish.2)

def completed : OpenStream × List Micro :=
  gone (if stream.responseEnded then (stream, []) else stream.finish)

/-- `reset_by_envoy`, once it is known how the fiber stopped the stream. -/
def resetByEnvoy (reason : ResetReason) : OpenStream × List Micro :=
  let stream := if reason = .Overflow then stream.settle .Refused else stream
  gone (if stream.responseEnded then (stream, [])
    else stream.fail (.Upstream (resetReason reason)))

def abandon : OpenStream × List Micro :=
  let stream := stream.settle (if stream.upgraded then .Completed else .Abandoned)
  gone (if stream.responseEnded then (stream, [])
    else stream.fail (.Upstream "the request finished before the stream did"))

/-- A stream that Envoy is done with: its fibers are woken and it is counted. -/
def close (r : OpenStream × List Micro) : List Micro :=
  r.2 ++ wakeStream r.1.channel ++ [.count r.1.item r.1.cluster r.1.counted]

/-- `on_http_stream_reset`. -/
def onReset (reason : ResetReason) : List Micro :=
  if stream.upgraded && !stream.resetSent then close stream.completed
  else if stream.resetSent && stream.outcome.isNone then [.resetStopped stream reason]
  else close (stream.resetByEnvoy reason)

end OpenStream

/-! ## The state -/

/-- What is left of `send_upstream_calls` and `abandon_upstreams`. -/
inductive Outer
  /-- About to take the queued calls. -/
  | takeCalls
  | takeStreams (calls : List UpstreamRequest)
  | sendCall (request : UpstreamRequest)
  /-- In `send_http_callout`. -/
  | inCallout (request : UpstreamRequest)
  /-- In `start`, about to ask whether a reset is wanted. -/
  | startStream (request : UpstreamStreamRequest)
  /-- About to take the first of the body. -/
  | firstItem (request : UpstreamStreamRequest)
  /-- In `start_http_stream`. -/
  | inStart (request : UpstreamStreamRequest) (requestEnded : Bool)
  /-- `pump_streams`, about to list the handles. -/
  | pump
  /-- In `next_action`, about to ask whether a reset is wanted. -/
  | pumpOne (handle : ℕ)
  /-- In `next_action`, about to take an item of the body. -/
  | pumpTake (handle : ℕ)
  /-- In `reset_http_stream`. -/
  | inReset (handle : ℕ)
  /-- In `send_http_stream_data`. -/
  | inSend (handle : ℕ)
  /-- The loop over the actions is over. -/
  | pumpWriter (handle : ℕ)
  /-- `abandon_upstreams`, of `on_stream_complete` when it counts. -/
  | abandon (counting : Bool)

/-- Inside a call of Envoy, which may call back. -/
def Outer.inEnvoy : Outer → Bool
  | .inCallout _ | .inStart .. | .inReset _ | .inSend _ => true
  | _ => false

/-- What the worker has asked of Envoy. -/
inductive EnvoyRequest
  | callout (call : ℕ) (cluster : String) (headers : Fields) (body : Option Bytes) (timeoutMs : ℕ)
  | start (channel : ℕ) (cluster : String) (headers : Fields) (body : Option Bytes)
    (endStream : Bool) (timeoutMs : ℕ)
  | send (handle : ℕ) (data : Bytes) (endStream : Bool)
  | reset (handle : ℕ)
  deriving DecidableEq, Repr

/-- Where the Ruby thread is in `StreamChannel::close` and `StreamChannel::time_out`. -/
inductive Ruby
  | idle
  | closeResponse (channel : ℕ)
  | closeRequest (channel : ℕ)
  | wantReset (channel : ℕ)
  deriving DecidableEq, Repr

inductive Stage
  | live
  /-- `on_stream_complete` was called. -/
  | complete
  /-- `drop` was called. -/
  | dropped
  deriving DecidableEq, Repr

/-- What a filter with a route begins with. -/
structure Config where
  settings : UpstreamSettings
  metrics : Bool := true
  /-- `get_request_header_value` of the request. -/
  requestHeader : String → Option Bytes := fun _ => none

structure State where
  config : Config
  /-- `queued`, `streams` and `closed` of `Calls`. -/
  queued : List UpstreamRequest := []
  streams : List UpstreamStreamRequest := []
  closed : Bool := false
  /-- The filter holds its `Upstreams`. -/
  upstreams : Bool := true
  trace : Option Fields := none
  /-- `upstream_calls` and `upstream_streams`. -/
  inFlight : Table PendingCall := ∅
  openStreams : Table OpenStream := ∅
  /-- The response streams of calls and the channels of streams, by number; those from `nextCall` and
  `nextChannel` on are still to be made. -/
  calls : ℕ → Tracked := fun _ => .new config.settings.maxResponseBytes
  channels : ℕ → StreamChannel := fun _ => .new config.settings.streamBufferBytes
  nextCall : ℕ := 0
  nextChannel : ℕ := 0
  handler : List Micro := []
  outer : List Outer := []
  stage : Stage := .live
  ruby : Ruby := .idle
  /-- The ids and handles Envoy has given out, and those it has reported finished. -/
  callouts : List ℕ := []
  handles : List ℕ := []
  answered : List ℕ := []
  finished : List ℕ := []
  requests : List EnvoyRequest := []
  wakeups : List Ref := []
  resolving : List Ref := []
  /-- What `queue` and `queue_stream` took and refused, what was handed out of them, what
  `count_call` was called for and what was counted. -/
  accepted : List Item := []
  refused : List Item := []
  handed : List Item := []
  settled : List Item := []
  counted : List (Item × String × CallOutcome) := []

namespace State

variable (s : State)

/-- The worker is between callbacks. -/
def idle : Bool := s.handler.isEmpty && s.outer.isEmpty

/-- Envoy may call back: between callbacks, or from inside a call. -/
def callable : Bool :=
  s.stage != .dropped && s.handler.isEmpty && (s.outer.head?.map Outer.inEnvoy).getD true

def setCall (n : ℕ) (f : Tracked → Tracked) : State :=
  { s with calls := Function.update s.calls n (f (s.calls n)) }

def setChannel (n : ℕ) (f : StreamChannel → StreamChannel) : State :=
  { s with channels := Function.update s.channels n (f (s.channels n)) }

/-- An operation on one of the queues. -/
def onQueue (r : Ref) (f : Tracked → Tracked) : State :=
  match r with
  | .call n => s.setCall n f
  | .response n => s.setChannel n fun c => { c with response := f c.response }
  | .request n => s.setChannel n fun c => { c with request := f c.request }

/-- `count_call`. -/
def countCall (item : Item) (cluster : String) (outcome : CallOutcome) : State :=
  { s with
    settled := s.settled ++ [item]
    counted := if s.config.metrics then s.counted ++ [(item, cluster, outcome)] else s.counted }

/-- A stream of the table after a handler, with the accesses it leaves. -/
def update (handle : ℕ) (r : OpenStream × List Micro) (rest : List Micro) : State :=
  { s with openStreams := s.openStreams.insert handle r.1, handler := r.2 ++ rest }

/-- The delivery of `data_arrived`. -/
def deliverData (handle : ℕ) (bytes : Bytes) (endStream : Bool) (rest : List Micro) : State :=
  match s.openStreams.lookup handle with
  | none => { s with handler := rest }
  | some stream =>
    let t := s.onQueue (.response stream.channel) (·.pushIfRoom bytes)
    match ((s.channels stream.channel).response.stream.pushChunkIfRoom bytes).1 with
    | some true => if endStream then t.update handle stream.finish rest else { t with handler := rest }
    | some false =>
      t.update handle (stream.fail (.UpstreamOverflow
        ("the upstream sent faster than the application read, past the stream's " ++ "buffer"))) rest
    | none => t.update handle ({ stream with responseEnded := true }, [.stopped handle]) rest

/-- One access of the callback that runs. -/
def micro (m : Micro) (rest : List Micro) : State :=
  match m with
  | .push r item => { s.onQueue r (·.push item) with handler := rest }
  | .data handle bytes endStream => s.deliverData handle bytes endStream rest
  | .stopped handle =>
    match s.openStreams.lookup handle with
    | none => { s with handler := rest }
    | some stream =>
      let timedOut := (s.channels stream.channel).timedOut
      s.update handle (stream.settle (stream.stoppedByFiber timedOut), []) rest
  | .resetStopped stream reason =>
    let timedOut := (s.channels stream.channel).timedOut
    let stream := { stream with outcome := some (stream.stoppedByFiber timedOut) }
    { s with handler := OpenStream.close (stream.resetByEnvoy reason) ++ rest }
  | .setTrailers n trailers =>
    { s.setChannel n ({ · with trailers := some trailers }) with handler := rest }
  | .cancelRequest n => { s.onQueue (.request n) (·.cancel) with handler := rest }
  | .wantReset n => { s.setChannel n ({ · with resetWanted := true }) with handler := rest }
  | .wake r => { s with wakeups := s.wakeups ++ [r], handler := rest }
  | .checkWriter n =>
    { s with
      handler := if (s.channels n).request.stream.writerOwedWakeup then .wake (.request n) :: rest
        else rest }
  | .count item cluster outcome => { s.countCall item cluster outcome with handler := rest }

/-- The trace context of the request, read when its first call goes out. -/
def readTrace : Fields :=
  traceHeaders.filterMap fun name => (s.config.requestHeader name).map fun value => (name, value)

/-- What `next_action` comes to with an item of the body. -/
def sendItem (handle : ℕ) (stream : OpenStream) (rest : List Outer) : Option StreamItem → State
  | some (.Chunk chunk) =>
    { s with requests := s.requests ++ [.send handle chunk false], outer := .inSend handle :: rest }
  | some .End =>
    { s with
      openStreams := s.openStreams.insert handle { stream with requestEnded := true }
      requests := s.requests ++ [.send handle [] true]
      outer := .inSend handle :: rest }
  | _ => { s with outer := .pumpWriter handle :: rest }

/-- One access of `send_upstream_calls`, or the return of a call that brings nothing. -/
def outerStep (o : Outer) (rest : List Outer) : Option State :=
  match o with
  | .takeCalls =>
    some { s with
      queued := []
      handed := s.handed ++ s.queued.map (·.item)
      outer := .takeStreams s.queued :: rest }
  | .takeStreams calls =>
    some { s with
      streams := []
      handed := s.handed ++ s.streams.map (·.item)
      trace := if calls.isEmpty && s.streams.isEmpty then s.trace
        else some (s.trace.getD s.readTrace)
      outer := calls.map .sendCall ++ s.streams.map .startStream ++ .pump :: rest }
  | .sendCall r =>
    some { s with
      requests := s.requests ++ [.callout r.response r.cluster
        (withTrace r.headers (s.trace.getD [])) (if r.body.isEmpty then none else some r.body)
        (deadlineMs r.timeout)]
      outer := .inCallout r :: rest }
  | .startStream r =>
    if (s.channels r.channel).resetWanted then
      some { s with handler := [.count r.item r.cluster .Abandoned], outer := rest }
    else some { s with outer := .firstItem r :: rest }
  | .firstItem r =>
    let first := (s.channels r.channel).request.stream.takeNext.1
    let body := match first with
      | some (.Chunk chunk) => some chunk
      | _ => none
    let requestEnded := first == some .End
    let t := s.onQueue (.request r.channel) (·.takeNext)
    some { t with
      requests := s.requests ++ [.start r.channel r.cluster
        (withTrace r.headers (s.trace.getD [])) body requestEnded
        (if r.timeout = 0 then 0 else deadlineMs r.timeout)]
      outer := .inStart r requestEnded :: rest }
  | .pumpOne handle =>
    match s.openStreams.lookup handle with
    | none => some { s with outer := .pumpWriter handle :: rest }
    | some stream =>
      if (s.channels stream.channel).resetWanted then
        if stream.resetSent then some { s with outer := .pumpWriter handle :: rest }
        else some { s with
          openStreams := s.openStreams.insert handle { stream with resetSent := true }
          requests := s.requests ++ [.reset handle]
          outer := .inReset handle :: rest }
      else if stream.requestEnded then some { s with outer := .pumpWriter handle :: rest }
      else some { s with outer := .pumpTake handle :: rest }
  | .pumpTake handle =>
    match s.openStreams.lookup handle with
    | none => some { s with outer := .pumpWriter handle :: rest }
    | some stream =>
      let item := (s.channels stream.channel).request.stream.takeNext.1
      some ((s.onQueue (.request stream.channel) (·.takeNext)).sendItem handle stream rest item)
  | .inReset handle | .inSend handle => some { s with outer := .pumpOne handle :: rest }
  | .pumpWriter handle =>
    match s.openStreams.lookup handle with
    | none => some { s with outer := rest }
    | some stream =>
      some { s with
        handler := if (s.channels stream.channel).request.stream.writerOwedWakeup then
          [.wake (.request stream.channel)] else []
        outer := rest }
  | .inCallout _ | .inStart .. | .pump | .abandon _ => none

/-- Envoy returns from `send_http_callout` or `start_http_stream`. -/
def envoyReturns (result : InitResult) (id : ℕ) : Option State :=
  match s.handler, s.outer with
  | [], .inCallout r :: rest =>
    match refusal result r.cluster with
    | none =>
      if id ∈ s.callouts then none
      else some { s with
        inFlight := s.inFlight.insert id ⟨r.response, r.cluster⟩
        callouts := id :: s.callouts
        outer := rest }
    | some text =>
      some { s with
        handler := [.push (.call r.response) (.Failed (.Upstream text)), .wake (.call r.response),
          .count r.item r.cluster .Refused]
        outer := rest }
  | [], .inStart r requestEnded :: rest =>
    match refusal result r.cluster with
    | none =>
      if id ∈ s.handles then none
      else some { s with
        openStreams := s.openStreams.insert id
          { channel := r.channel, cluster := r.cluster, requestEnded := requestEnded }
        handles := id :: s.handles
        outer := rest }
    | some text =>
      some { s with
        handler := channelFail r.channel (.Upstream text) ++ wakeStream r.channel ++
          [.count r.item r.cluster .Refused]
        outer := rest }
  | _, _ => none

/-- The calls that `abandon_upstreams` fails. -/
def abandonCall (c : PendingCall) : List Micro :=
  [.push (.call c.response) (.Failed (.Upstream "the request finished before the call did")),
    .wake (.call c.response)]

def abandonQueued (r : UpstreamStreamRequest) : List Micro :=
  channelFail r.channel (.Upstream "the request finished before the stream did") ++
    wakeStream r.channel

def abandonOpen (stream : OpenStream) : List Micro :=
  stream.abandon.2 ++ wakeStream stream.channel

/-- `abandon_upstreams`, with the orders in which the tables are drained. The tables are the worker's
alone and nothing here asks anything of Envoy, so both are drained at the lock of the queues. -/
def abandonUpstreams (counting : Bool) (rest : List Outer) (calls handles : List ℕ) : State :=
  let unsent := if s.upstreams then s.queued else []
  let unsentStreams := if s.upstreams then s.streams else []
  let waiting := unsent.map (fun r => ⟨r.response, r.cluster⟩) ++ s.inFlight.pick calls
  let opened := s.openStreams.pick handles
  let ended := waiting.map (fun c => Micro.count c.item c.cluster .Abandoned) ++
    unsentStreams.map (fun r => Micro.count r.item r.cluster .Abandoned) ++
    opened.map (fun o => Micro.count o.item o.cluster o.abandon.1.counted)
  { s with
    upstreams := false
    closed := s.closed || s.upstreams
    queued := if s.upstreams then [] else s.queued
    streams := if s.upstreams then [] else s.streams
    handed := s.handed ++ unsent.map (·.item) ++ unsentStreams.map (·.item)
    inFlight := ∅
    openStreams := ∅
    handler := waiting.flatMap abandonCall ++ unsentStreams.flatMap abandonQueued ++
      opened.flatMap abandonOpen ++ (if counting then ended else [])
    outer := rest }

/-- The order in which a hash map lists its entries is chosen. -/
def ordered (calls handles : List ℕ) : Option State :=
  match s.handler, s.outer with
  | [], .pump :: rest =>
    if handles.Perm s.openStreams.keys then some { s with outer := handles.map .pumpOne ++ rest }
    else none
  | [], .abandon counting :: rest =>
    if calls.Perm s.inFlight.keys ∧ handles.Perm s.openStreams.keys then
      some (s.abandonUpstreams counting rest calls handles)
    else none
  | _, _ => none

/-! ## The callbacks -/

def onHttpCalloutDone (id : ℕ) (result : CalloutResult) (headers : Option Headers)
    (body : Option (List Bytes)) : State :=
  match s.inFlight.lookup id with
  | none => s
  | some call =>
    let (items, outcome) := deliver result headers body s.config.settings.maxResponseBytes
    { s with
      inFlight := s.inFlight.erase id
      handler := items.map (.push (.call call.response)) ++
        [.count call.item call.cluster outcome, .wake (.call call.response)] }

/-- A callback on a stream that stays open. -/
def onOpenStream (handle : ℕ) (f : OpenStream → OpenStream × List Micro) : State :=
  match s.openStreams.lookup handle with
  | none => s
  | some stream => s.update handle (f stream) (wakeStream stream.channel)

/-- A callback on a stream that is finished. -/
def onFinished (handle : ℕ) (f : OpenStream → List Micro) : State :=
  match s.openStreams.lookup handle with
  | none => s
  | some stream => { s with openStreams := s.openStreams.erase handle, handler := f stream }

/-! ## The fibers -/

/-- `Upstreams::queue`, with a response stream of its own. -/
def queue (cluster : String) (headers : Fields) (body : Bytes) (timeout : ℕ) : State :=
  let n := s.nextCall
  let t := { s with nextCall := n + 1 }
  if s.closed then { t with refused := s.refused ++ [.call n] }
  else { t with
    queued := s.queued ++ [⟨n, cluster, headers, body, timeout⟩]
    accepted := s.accepted ++ [.call n] }

/-- `Upstreams::queue_stream`, with a channel of its own, ended at once when there is no body. -/
def queueStream (cluster : String) (headers : Fields) (timeout : ℕ) (hasBody : Bool) : State :=
  let n := s.nextChannel
  let opened := if hasBody then s else s.onQueue (.request n) (·.push .End)
  let t := { opened with nextChannel := n + 1 }
  if s.closed then { t with refused := s.refused ++ [.stream n] }
  else { t with
    streams := s.streams ++ [⟨n, cluster, headers, timeout⟩]
    accepted := s.accepted ++ [.stream n] }

end State

/-- What a fiber does with a call or a channel it has. -/
inductive FiberOp
  /-- On the response of a call, or either side of a channel. -/
  | take (r : Ref)
  | park (r : Ref) (v : Variable)
  | unpark (r : Ref)
  /-- On the request body of a channel. -/
  | write (channel : ℕ) (bytes : Bytes)
  | finish (channel : ℕ)
  | parkWriter (channel : ℕ) (v : Variable)
  | close (channel : ℕ)
  | timeOut (channel : ℕ)
  deriving DecidableEq

/-- What a fiber reads from. -/
def Ref.readable : Ref → Bool
  | .request _ => false
  | _ => true

/-- The queue a fiber uses. -/
def FiberOp.ref : FiberOp → Ref
  | .take r | .park r _ | .unpark r => r
  | .write n _ | .finish n | .parkWriter n _ | .close n | .timeOut n => .request n

namespace State

variable (s : State)

/-- The call or channel of the queue was made. -/
def made : Ref → Bool
  | .call n => decide (n < s.nextCall)
  | .response n | .request n => decide (n < s.nextChannel)

def fiber : FiberOp → Option State
  | .take r => if r.readable then some (s.onQueue r (·.takeNext)) else none
  | .park r v => if r.readable then some (s.onQueue r (·.park v)) else none
  | .unpark r => some (s.onQueue r (·.unpark))
  | .write n bytes => some (s.onQueue (.request n) (·.pushWithinBudget bytes))
  | .finish n => some (s.onQueue (.request n) (·.push .End))
  | .parkWriter n v => some (s.onQueue (.request n) (·.parkWriter v))
  | .close n => some { s.onQueue (.response n) (·.cancel) with ruby := .closeRequest n }
  | .timeOut n =>
    some { s.setChannel n ({ · with timedOut := true }) with ruby := .closeResponse n }

/-- The Ruby thread goes on in `StreamChannel::close`. -/
def rubyStep : Option State :=
  match s.ruby with
  | .idle => none
  | .closeResponse n => some { s.onQueue (.response n) (·.cancel) with ruby := .closeRequest n }
  | .closeRequest n => some { s.onQueue (.request n) (·.cancel) with ruby := .wantReset n }
  | .wantReset n => some { s.setChannel n ({ · with resetWanted := true }) with ruby := .idle }

end State

inductive Action
  /-- The fibers, on the Ruby thread. -/
  | queue (cluster : String) (headers : Fields) (body : Bytes) (timeout : ℕ)
  | queueStream (cluster : String) (headers : Fields) (timeout : ℕ) (hasBody : Bool)
  | fiber (op : FiberOp)
  | ruby
  /-- `on_scheduled`, `on_stream_complete` and `drop`. -/
  | event
  | complete
  | drop
  /-- What Envoy reports. -/
  | calloutDone (id : ℕ) (result : CalloutResult) (headers : Option Headers)
    (body : Option (List Bytes))
  | streamHeaders (handle : ℕ) (headers : Headers) (endStream : Bool)
  | streamData (handle : ℕ) (data : List Bytes) (endStream : Bool)
  | streamTrailers (handle : ℕ) (trailers : Headers)
  | streamComplete (handle : ℕ)
  | streamReset (handle : ℕ) (reason : ResetReason)
  /-- The worker goes on. -/
  | work
  /-- Envoy returns from a call with a result. -/
  | returns (result : InitResult) (id : ℕ)
  /-- The order of the keys of the two tables. -/
  | order (calls handles : List ℕ)
  /-- The reactor takes the owed wakeups, and resolves one. -/
  | takeWakeups
  | resolve
  deriving DecidableEq

/-- Envoy may report something of an open handle. -/
def State.reports (s : State) (handle : ℕ) : Bool :=
  s.callable && s.handles.contains handle && !s.finished.contains handle

def step (s : State) : Action → Option State
  | .queue cluster headers body timeout =>
    if s.ruby = .idle then some (s.queue cluster headers body timeout) else none
  | .queueStream cluster headers timeout hasBody =>
    if s.ruby = .idle then some (s.queueStream cluster headers timeout hasBody) else none
  | .fiber op => if s.ruby = .idle ∧ s.made op.ref then s.fiber op else none
  | .ruby => s.rubyStep
  | .event =>
    if s.idle ∧ s.stage ≠ .dropped then
      some { s with outer := if s.upstreams then [.takeCalls] else [] }
    else none
  | .complete =>
    if s.idle ∧ s.stage = .live then some { s with stage := .complete, outer := [.abandon true] }
    else none
  | .drop =>
    if s.idle ∧ s.stage = .complete then some { s with stage := .dropped, outer := [.abandon false] }
    else none
  | .calloutDone id result headers body =>
    if s.callable ∧ id ∈ s.callouts ∧ id ∉ s.answered then
      some { s.onHttpCalloutDone id result headers body with answered := id :: s.answered }
    else none
  | .streamHeaders handle headers endStream =>
    if s.reports handle then
      some (s.onOpenStream handle (·.headersArrived headers endStream))
    else none
  | .streamData handle data endStream =>
    if s.reports handle then
      some (s.onOpenStream handle (·.dataArrived handle data endStream))
    else none
  | .streamTrailers handle trailers =>
    if s.reports handle then some (s.onOpenStream handle (·.trailersArrived trailers)) else none
  | .streamComplete handle =>
    if s.reports handle then
      some { s.onFinished handle (fun o => OpenStream.close o.completed) with
        finished := handle :: s.finished }
    else none
  | .streamReset handle reason =>
    if s.reports handle then
      some { s.onFinished handle (·.onReset reason) with finished := handle :: s.finished }
    else none
  | .work =>
    match s.handler, s.outer with
    | m :: rest, _ => some (s.micro m rest)
    | [], o :: rest => s.outerStep o rest
    | [], [] => none
  | .returns result id => s.envoyReturns result id
  | .order calls handles => s.ordered calls handles
  | .takeWakeups =>
    if s.resolving = [] then some { s with wakeups := [], resolving := s.wakeups } else none
  | .resolve =>
    match s.resolving with
    | r :: rest => some { s.onQueue r (·.unpark) with resolving := rest }
    | [] => none

/-- A filter with a route, with any settings. -/
def system : System State Action where
  init s := ∃ config, s = { config := config }
  step := step

end Ruvoy.Upstream
