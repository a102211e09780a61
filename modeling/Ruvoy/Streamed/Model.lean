import Ruvoy.Upstream.Model

/-!
# One streamed call

A streamed call from where `open_stream` queued it to where its outcome is counted: what the fibers do
with its channel, what the worker asks of Envoy for it, and what Envoy reports of it. The handlers of
`OpenStream` and what they leave to do (`Micro`) are those of the upstream model; its other calls and
streams are left out, and with them the tables. Its channel and its handle go by the number `0`.

A step is one lock acquisition or one access to a shared flag. While the worker is between a look at the
reset flag and the take that follows it, no callback runs.

* `Phase`, `Pump`: how far the worker is with the stream;
* `State`, `State.micro`, `State.phaseStep`: the accesses of a callback, and those of
  `send_upstream_calls`;
* `Action`, `step`, `system`.
-/

set_option autoImplicit false

namespace Ruvoy.Streamed

open Runs
open Upstream

/-- How far the worker is in `pump_streams`. -/
inductive Pump
  | rest
  /-- In `next_action`: no reset is wanted, about to take of the body. -/
  | take
  /-- In `reset_http_stream` or `send_http_stream_data`. -/
  | inEnvoy
  deriving DecidableEq, Repr

/-- How far the worker is with the stream. -/
inductive Phase
  /-- On the list of the route, or taken from it. -/
  | queued
  /-- In `start`: no reset is wanted, about to take the first of the body. -/
  | first
  /-- In `start_http_stream`. -/
  | starting (requestEnded : Bool)
  /-- In the table. -/
  | opened (stream : OpenStream) (pump : Pump)
  | over

structure State where
  /-- What was queued, with the trace context it goes out with. -/
  request : UpstreamStreamRequest
  trace : Fields
  channel : StreamChannel
  phase : Phase := .queued
  /-- What is left of the callback that runs. -/
  handler : List Micro := []
  ruby : Ruby := .idle
  /-- `on_stream_complete` was called. -/
  requestOver : Bool := false
  /-- What the worker has asked of Envoy. -/
  requests : List EnvoyRequest := []
  counted : List CallOutcome := []

namespace State

variable (s : State)

/-- A stream that `open_stream` queued. -/
def queue (request : UpstreamStreamRequest) (trace : Fields) (budget : ℕ) (hasBody : Bool) : State :=
  let channel := StreamChannel.new budget
  { request := request
    trace := trace
    channel := if hasBody then channel else { channel with request := channel.request.push .End } }

def onResponse (f : Tracked → Tracked) : State :=
  { s with channel := { s.channel with response := f s.channel.response } }

def onRequest (f : Tracked → Tracked) : State :=
  { s with channel := { s.channel with request := f s.channel.request } }

/-! ## The callbacks -/

/-- The stream after a handler, with the accesses it leaves. -/
def update (pump : Pump) (r : OpenStream × List Micro) (rest : List Micro) : State :=
  { s with phase := .opened r.1 pump, handler := r.2 ++ rest }

/-- The delivery of `data_arrived`. -/
def deliverData (stream : OpenStream) (pump : Pump) (bytes : Bytes) (endStream : Bool)
    (rest : List Micro) : State :=
  let t := s.onResponse (·.pushIfRoom bytes)
  match (s.channel.response.stream.pushChunkIfRoom bytes).1 with
  | some true =>
    if endStream then t.update pump stream.finish rest else t.update pump (stream, []) rest
  | some false =>
    t.update pump (stream.fail (.UpstreamOverflow
      ("the upstream sent faster than the application read, past the stream's " ++ "buffer"))) rest
  | none => t.update pump ({ stream with responseEnded := true }, [.stopped 0]) rest

/-- One access of the callback that runs. -/
def micro (m : Micro) (rest : List Micro) : State :=
  match m with
  | .push (.response _) item => { s.onResponse (·.push item) with handler := rest }
  | .data _ bytes endStream =>
    match s.phase with
    | .opened stream pump => s.deliverData stream pump bytes endStream rest
    | _ => { s with handler := rest }
  | .stopped _ =>
    match s.phase with
    | .opened stream pump =>
      s.update pump (stream.settle (stream.stoppedByFiber s.channel.timedOut), []) rest
    | _ => { s with handler := rest }
  | .resetStopped stream reason =>
    let stream := { stream with outcome := some (stream.stoppedByFiber s.channel.timedOut) }
    { s with handler := OpenStream.close (stream.resetByEnvoy reason) ++ rest }
  | .setTrailers _ trailers =>
    { s with channel := { s.channel with trailers := some trailers }, handler := rest }
  | .cancelRequest _ => { s.onRequest (·.cancel) with handler := rest }
  | .wantReset _ => { s with channel := { s.channel with resetWanted := true }, handler := rest }
  | .count _ _ outcome => { s with counted := s.counted ++ [outcome], handler := rest }
  | .push .. | .wake _ | .checkWriter _ => { s with handler := rest }

/-- A callback on a stream that stays in the table. -/
def onOpenStream (f : OpenStream → OpenStream × List Micro) : Option State :=
  match s.handler, s.phase with
  | _ :: _, _ | [], .opened _ .take => none
  | [], .opened stream pump => some (s.update pump (f stream) (wakeStream 0))
  | [], _ => none

/-- A callback on a stream that is finished. -/
def onFinished (f : OpenStream → List Micro) : Option State :=
  match s.handler, s.phase with
  | _ :: _, _ | [], .opened _ .take => none
  | [], .opened stream _ => some { s with phase := .over, handler := f stream }
  | [], _ => none

/-! ## The worker -/

/-- What `next_action` comes to with an item of the body. -/
def sendItem (stream : OpenStream) : Option StreamItem → State
  | some (.Chunk chunk) =>
    { s with requests := s.requests ++ [.send 0 chunk false], phase := .opened stream .inEnvoy }
  | some .End =>
    { s with
      requests := s.requests ++ [.send 0 [] true]
      phase := .opened { stream with requestEnded := true } .inEnvoy }
  | _ => { s with phase := .opened stream .rest }

/-- One access of `send_upstream_calls` for this stream, when no callback runs. -/
def phaseStep : Option State :=
  match s.phase with
  | .queued =>
    if s.channel.resetWanted then
      some { s with phase := .over, handler := [.count s.request.item s.request.cluster .Abandoned] }
    else some { s with phase := .first }
  | .first =>
    let first := s.channel.request.stream.takeNext.1
    let body := match first with
      | some (.Chunk chunk) => some chunk
      | _ => none
    let requestEnded := first == some .End
    some { s.onRequest (·.takeNext) with
      requests := s.requests ++ [.start 0 s.request.cluster (withTrace s.request.headers s.trace) body
        requestEnded (if s.request.timeout = 0 then 0 else deadlineMs s.request.timeout)]
      phase := .starting requestEnded }
  | .opened stream .rest =>
    if s.channel.resetWanted then
      if stream.resetSent then none
      else some { s with
        requests := s.requests ++ [.reset 0]
        phase := .opened { stream with resetSent := true } .inEnvoy }
    else if stream.requestEnded then none
    else some { s with phase := .opened stream .take }
  | .opened stream .take =>
    some ((s.onRequest (·.takeNext)).sendItem stream s.channel.request.stream.takeNext.1)
  | .opened stream .inEnvoy => some { s with phase := .opened stream .rest }
  | .starting _ | .over => none

/-- Envoy returns from `start_http_stream`. -/
def envoyReturns (result : InitResult) : Option State :=
  match s.phase with
  | .starting requestEnded =>
    match refusal result s.request.cluster with
    | none =>
      let stream : OpenStream :=
        { channel := 0, cluster := s.request.cluster, requestEnded := requestEnded }
      some { s with phase := .opened stream .rest }
    | some text =>
      some { s with
        phase := .over
        handler := channelFail 0 (.Upstream text) ++ wakeStream 0 ++
          [.count s.request.item s.request.cluster .Refused] }
  | _ => none

/-- `abandon_upstreams`, and the count of what it ended. -/
def abandon : Option State :=
  match s.handler, s.phase with
  | [], .queued =>
    some { s with
      phase := .over
      requestOver := true
      handler := Upstream.State.abandonQueued { s.request with channel := 0 } ++
        [.count s.request.item s.request.cluster .Abandoned] }
  | [], .opened stream .rest =>
    some { s with
      phase := .over
      requestOver := true
      handler := Upstream.State.abandonOpen stream ++
        [.count stream.item stream.cluster stream.abandon.1.counted] }
  | _, _ => none

/-- The Ruby thread goes on in `StreamChannel::close`. -/
def rubyStep : Option State :=
  match s.ruby with
  | .idle => none
  | .closeResponse n => some { s.onResponse (·.cancel) with ruby := .closeRequest n }
  | .closeRequest n => some { s.onRequest (·.cancel) with ruby := .wantReset n }
  | .wantReset _ =>
    some { s with channel := { s.channel with resetWanted := true }, ruby := .idle }

end State

/-- What a fiber does with the channel. -/
inductive FiberOp
  | take
  | park (v : Variable)
  | unpark
  | write (bytes : Bytes)
  | finish
  | parkWriter (v : Variable)
  | unparkWriter
  | close
  | timeOut
  deriving DecidableEq

def State.fiber (s : State) : FiberOp → State
  | .take => s.onResponse (·.takeNext)
  | .park v => s.onResponse (·.park v)
  | .unpark => s.onResponse (·.unpark)
  | .write bytes => s.onRequest (·.pushWithinBudget bytes)
  | .finish => s.onRequest (·.push .End)
  | .parkWriter v => s.onRequest (·.parkWriter v)
  | .unparkWriter => s.onRequest (·.unpark)
  | .close => { s.onResponse (·.cancel) with ruby := .closeRequest 0 }
  | .timeOut => { s with channel := { s.channel with timedOut := true }, ruby := .closeResponse 0 }

inductive Action
  | fiber (op : FiberOp)
  /-- The Ruby thread goes on. -/
  | ruby
  /-- The worker goes on. -/
  | work
  /-- Envoy returns from `start_http_stream`. -/
  | returns (result : InitResult)
  /-- What Envoy reports. -/
  | headers (headers : Headers) (endStream : Bool)
  | data (data : List Bytes) (endStream : Bool)
  | trailers (trailers : Headers)
  | complete
  | reset (reason : ResetReason)
  /-- The request is over. -/
  | abandon
  deriving DecidableEq

def step (s : State) : Action → Option State
  | .fiber op => if s.ruby = .idle then some (s.fiber op) else none
  | .ruby => s.rubyStep
  | .work =>
    match s.handler with
    | m :: rest => some (s.micro m rest)
    | [] => s.phaseStep
  | .returns result => s.envoyReturns result
  | .headers headers endStream => s.onOpenStream (·.headersArrived headers endStream)
  | .data data endStream => s.onOpenStream (·.dataArrived 0 data endStream)
  | .trailers trailers => s.onOpenStream (·.trailersArrived trailers)
  | .complete => s.onFinished fun stream => OpenStream.close stream.completed
  | .reset reason => s.onFinished (·.onReset reason)
  | .abandon => s.abandon

/-- A stream that was just queued. -/
def system : System State Action where
  init s := ∃ request trace budget hasBody, s = .queue request trace budget hasBody
  step := step

end Ruvoy.Streamed
