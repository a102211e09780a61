import Ruvoy.Lib.Runs
import Ruvoy.Stream.History

/-!
# One request's filter

`FiberRackFilter` of `crates/ruvoy-envoy-fiber/src/worker.rs` on its Envoy worker, with the two
queues it shares with the application's fibers on the Ruby thread, the buffers and the calls of
Envoy, and the reactor that resolves wakeups. A step is one lock acquisition, together with what its
thread does up to the next one; callbacks of Envoy begin when the worker is idle, the watermark
callbacks also from inside a call that sends response data.

* `FilterState`, `EnvoyCall`, `Frame`: the filter's own state, the response calls it makes, and the
  frame a request callback is handed;
* `Forward`: where the worker is in `forward_request_body`; `Worker`: where it is in a callback;
* `State` and its operations, under the names of the source;
* `Action`, `step`, `system`.
-/

set_option autoImplicit false

namespace Ruvoy.Filter

open Runs

/-- `MAX_BUFFERED_BODY_BYTES`. -/
def maxBufferedBodyBytes : ℕ := 1024 * 1024

inductive FilterState
  | Collecting
  | Waiting
  /-- Headers are on the wire; only body chunks may follow. -/
  | Streaming
  | Responded
  deriving DecidableEq, Repr

/-- The response calls of the filter. -/
inductive EnvoyCall
  /-- `send_response`, with the headers of every local reply. -/
  | sendResponse (status : ℕ) (body : String) (details : String)
  | sendResponseHeaders (headers : List (String × String))
  /-- `send_response_data(chunk, false)`. -/
  | sendResponseData (chunk : Bytes)
  /-- `send_response_data(&[], true)`. -/
  | sendResponseEnd
  | resetStream (details : String)
  deriving DecidableEq, Repr

/-- The frame handed to the request callback that is running. -/
inductive Frame
  | none
  | own (bytes : Bytes)
  /-- What Envoy already buffered, delivered again: both accessors name the same bytes. -/
  | buffered
  deriving DecidableEq, Repr

/-- Which of Envoy's request buffers a copy reads from. -/
inductive BodySource
  | Received
  | Retained
  deriving DecidableEq, Repr

/-- Where the worker is in `forward_request_body`. -/
inductive Forward
  /-- About to ask for the spare capacity of the queue. -/
  | room
  /-- In `copy_body`, about to ask for the slices; `before` bytes came from the other buffer. -/
  | slices (source : BodySource) (limit before : ℕ)
  | copy (source : BodySource) (buffers : List Bytes) (limit copied before : ℕ)
  /-- About to pass the end on, if there is one to pass on. -/
  | finish (copied : ℕ)
  | wake (owed : Bool)
  deriving DecidableEq, Repr

/-- Where the worker is. -/
inductive Worker
  | idle
  | forward (k : Forward)
  /-- In `drain_stream`, about to take an item. -/
  | drainTake
  /-- The loop is over: about to ask whether a writer is owed a wakeup. -/
  | drainCheck
  | drainWake
  | drainDone
  /-- The low watermark: the pause is cleared and the event not yet scheduled. -/
  | belowCommit (draining : Bool)
  /-- In `drop`. -/
  | dropCancel
  | dropCheck
  | dropWake
  | dropRequest
  | dropRequestWake
  | dropped
  deriving DecidableEq, Repr

/-- Which of the request's two queues. -/
inductive Queue
  | request
  | response
  deriving DecidableEq, Repr

/-- The outcomes that are counted. -/
inductive Outcome
  | completed
  | failed
  | cancelled
  deriving DecidableEq, Repr

/-- Why a request was rejected. -/
inductive Rejection
  | admission
  | invalidRequest
  deriving DecidableEq, Repr

/-- What Envoy has called of the request side. -/
inductive Stage
  /-- No callback yet. -/
  | fresh
  | live
  /-- `on_stream_complete` was called. -/
  | complete
  deriving DecidableEq, Repr

/-- The fiber waiting for room in the response queue. -/
inductive Writer
  | running
  /-- In `variable.wait`. -/
  | parked (v : Variable)
  /-- In the `ensure` of `Park.on`. -/
  | leaving
  deriving DecidableEq, Repr

/-- What `new_http_filter` takes from the configuration. -/
structure Config where
  diagnosticsEnabled : Bool := false
  runtimeThreadId : String := ""
  workerThreadId : String := ""
  metrics : Bool := true

structure State where
  config : Config
  /-- `request_body`, `request_end_pending`, `stream`, `state` and `submitted_at` of the filter. -/
  requestBody : Bool := false
  requestEndPending : Bool := false
  stream : Bool := false
  state : FilterState := .Collecting
  submittedAt : Bool := false
  worker : Worker := .idle
  stage : Stage := .fresh
  /-- The queues, from `submit` on. -/
  request : Tracked := .new maxBufferedBodyBytes
  response : Tracked := .new maxBufferedBodyBytes
  /-- Envoy's buffer of the request body and the frame in hand. -/
  retained : Bytes := []
  frame : Frame := .none
  /-- What the client has sent, and whether it is done. -/
  client : Bytes := []
  clientDone : Bool := false
  calls : List EnvoyCall := []
  /-- The submissions, rejections and outcomes counted. -/
  submissions : ℕ := 0
  rejections : List Rejection := []
  outcomes : List Outcome := []
  /-- `submit` returned `Ok`. -/
  accepted : Bool := false
  /-- The runtime has the request and may run the application. -/
  enqueued : Bool := false
  /-- The application has published the head, and has a sink. -/
  headPushed : Bool := false
  /-- Fibers between a push, or a take, and their wake of the worker. -/
  responseWakes : ℕ := 0
  requestWakes : ℕ := 0
  /-- Scheduled events not yet delivered. -/
  responseEvents : ℕ := 0
  requestEvents : ℕ := 0
  writer : Writer := .running
  /-- `Wakeups`, and those the reactor has taken and not yet resolved. -/
  wakeups : List Queue := []
  resolving : List Queue := []
  /-- The filter let go of the response queue: `End` or `Failed` taken, or dropped. -/
  released : Bool := false

namespace State

variable (s : State)

def size : Frame → ℕ
  | .none => 0
  | .own bytes => bytes.length
  | .buffered => s.retained.length

/-- `get_received_request_body_size`. -/
def receivedSize : ℕ := s.size s.frame

/-- `received_buffered_request_body`. -/
def receivedIsRetained : Bool := s.frame == .buffered

/-- What a copy from a source reads. -/
def content : BodySource → Bytes
  | .Retained => s.retained
  | .Received =>
    match s.frame with
    | .none => []
    | .own bytes => bytes
    | .buffered => s.retained

/-- `wake_body`. -/
def wakeBody (q : Queue) : State := { s with wakeups := s.wakeups ++ [q] }

/-- The request callback returns: Envoy appends what is left of the frame to what it retains. -/
def endCallback : State :=
  { s with
    worker := .idle
    retained := s.retained ++ (match s.frame with
      | .own bytes => bytes
      | _ => [])
    frame := .none }

/-! ## The request body -/

/-- `forward_request_body`. -/
def forwardRequestBody : State :=
  if s.requestBody then { s with worker := .forward .room } else s.endCallback

/-- `drain_received_request_body` and `drain_buffered_request_body`. -/
def drainBody (copied : ℕ) : BodySource → State
  | .Retained => { s with retained := s.retained.drop copied }
  | .Received =>
    match s.frame with
    | .none => s
    | .own bytes => { s with frame := .own (bytes.drop copied) }
    | .buffered => { s with retained := s.retained.drop copied }

/-- The end of `copy_body`: drain what was copied, and go on with the frame if there is room left and
it is not the retained bytes themselves. -/
def endCopy (source : BodySource) (limit copied before : ℕ) : State :=
  let t := if copied > 0 then s.drainBody copied source else s
  match source with
  | .Retained =>
    if copied < limit && !s.receivedIsRetained then
      { t with worker := .forward (.slices .Received (limit - copied) copied) }
    else { t with worker := .forward (.finish copied) }
  | .Received => { t with worker := .forward (.finish (before + copied)) }

/-- One step of `forward_request_body`, apart from the slices Envoy hands out. -/
def forwardStep : Forward → Option State
  | .room =>
    let received := if s.receivedIsRetained then 0 else s.receivedSize
    let room := min (s.retained.length + received) s.request.stream.spareCapacity
    some { s with worker := .forward (.slices .Retained room 0) }
  | .slices source limit before =>
    if limit = 0 then some (s.endCopy source limit 0 before) else none
  | .copy source buffers limit copied before =>
    match buffers with
    | [] => some (s.endCopy source limit copied before)
    | slice :: rest =>
      let take := min slice.length (limit - copied)
      if take = 0 then some (s.endCopy source limit copied before)
      else some { s with
        request := s.request.push (.Chunk (slice.take take))
        worker := .forward (.copy source rest limit (copied + take) before) }
  | .finish copied =>
    let ended := s.requestEndPending && s.retained.length == 0 && s.receivedSize == 0
    some { s with
      request := if ended then s.request.push .End else s.request
      requestEndPending := if ended then false else s.requestEndPending
      worker := .forward (.wake (decide (copied > 0) || ended)) }
  | .wake owed => some ((if owed then s.wakeBody .request else s).endCallback)

/-! ## The response -/

/-- `report_outcome`: the first call for a request wins. -/
def reportOutcome (outcome : Outcome) : State :=
  { s with
    submittedAt := false
    outcomes := if s.config.metrics && s.submittedAt then s.outcomes ++ [outcome] else s.outcomes }

/-- `send_bridge_error`. -/
def sendBridgeError (status : ℕ) (body details : String) : State :=
  { s with
    requestBody := false
    requestEndPending := false
    state := .Responded
    calls := s.calls ++ [.sendResponse status body details] }

def reject (r : Rejection) : State :=
  { s with rejections := if s.config.metrics then s.rejections ++ [r] else s.rejections }

/-- The headers of a response head, in the order they are sent. -/
def responseHeaders (head : ResponseHead) : List (String × String) :=
  (":status", toString head.status) ::
    head.headers.filter (fun h => !h.1.startsWith ":" && !h.1.startsWith "rack.") ++
    (if s.config.diagnosticsEnabled then
      [("x-ruvoy-runtime-rust-thread-id", s.config.runtimeThreadId),
        ("x-ruvoy-worker-rust-thread-id", s.config.workerThreadId)]
    else [])

/-- `send_response_head`. -/
def sendResponseHead (head : ResponseHead) : State :=
  { s with
    state := .Streaming
    calls := s.calls ++ [.sendResponseHeaders (s.responseHeaders head)] }

/-- What `drain_stream` does with an item. -/
def drainItem : StreamItem → State
  | .Head head =>
    if s.state = .Waiting then { s.sendResponseHead head with worker := .drainTake }
    else { s with worker := .drainTake }
  | .Chunk chunk =>
    if s.state = .Streaming then
      { s with calls := s.calls ++ [.sendResponseData chunk], worker := .drainTake }
    else { s with worker := .drainTake }
  | .End =>
    let streaming := s.state = .Streaming
    let t := { s with state := .Responded, stream := false, released := true }.reportOutcome .completed
    { t with
      calls := if streaming then t.calls ++ [.sendResponseEnd] else t.calls
      worker := .idle }
  | .Failed error =>
    let localReplyPossible := s.state = .Waiting
    let t := { s with stream := false, released := true, worker := .idle }.reportOutcome .failed
    if localReplyPossible then t.sendBridgeError 500 error.display "ruvoy_fiber_ruby_error"
    else { t with state := .Responded, calls := t.calls ++ [.resetStream "ruvoy_fiber_ruby_error"] }

/-- One round of the loop of `drain_stream`. -/
def drainStep : State :=
  let t := { s with response := s.response.takeNext }
  match s.response.stream.takeNext.1 with
  | some item => t.drainItem item
  | none => { t with worker := .drainCheck }

/-- What `submit` is told by the runtime. -/
inductive Submission
  | accepted
  /-- Refused; `enqueued` when the command was sent and only the signal failed. -/
  | refused (error : BridgeError) (enqueued : Bool)
  deriving DecidableEq, Repr

/-- `submit`. -/
def submit : Submission → State
  | .accepted =>
    { s with
      requestBody := true
      stream := true
      state := .Waiting
      submittedAt := true
      accepted := true
      enqueued := true
      submissions := if s.config.metrics then s.submissions + 1 else s.submissions }
  | .refused error enqueued =>
    { s with requestBody := true, stream := false, enqueued := enqueued }.reject .admission
      |>.sendBridgeError 503 error.display "ruvoy_fiber_submit_failed"

/-- `on_request_headers` when `copy_headers` succeeds. -/
def onRequestHeaders (submission : Submission) (endOfStream : Bool) : State :=
  let t := { s.submit submission with
    stage := .live
    clientDone := endOfStream
    requestEndPending := endOfStream }
  if endOfStream then t.forwardRequestBody else t

/-- `on_request_headers` when `copy_headers` finds something missing. -/
def onInvalidRequest (message : String) (endOfStream : Bool) : State :=
  { s with stage := .live, clientDone := endOfStream }.reject .invalidRequest
    |>.sendBridgeError 400 message "ruvoy_fiber_invalid_request"

/-- `on_request_body`, with the frame and what it adds to what the client sent. -/
def onRequestBody (frame : Frame) (added : Bytes) (endOfStream : Bool) : State :=
  { s with
    frame := frame
    client := s.client ++ added
    clientDone := endOfStream
    requestEndPending := s.requestEndPending || endOfStream }.forwardRequestBody

/-- `on_request_trailers`. -/
def onRequestTrailers : State :=
  { s with clientDone := true, requestEndPending := true }.forwardRequestBody

/-- The two watermark callbacks, up to the scheduling of the event. -/
def onWatermark (paused : Bool) : State :=
  if s.stream then { s with response := s.response.setPaused paused } else s

/-- One step of the worker in the middle of a callback. -/
def workStep : Option State :=
  match s.worker with
  | .forward k => s.forwardStep k
  | .drainTake => some s.drainStep
  | .drainCheck =>
    some { s with worker := if s.response.stream.writerOwedWakeup then .drainWake else .drainDone }
  | .drainWake => some { s.wakeBody .response with worker := .drainDone }
  | .drainDone => some { s with worker := .idle }
  | .belowCommit draining =>
    some { s with
      responseEvents := s.responseEvents + 1
      worker := if draining then .drainTake else .idle }
  | .dropCancel =>
    if s.stream then
      some { s with
        stream := false
        released := true
        response := s.response.cancel
        worker := .dropCheck }
    else some { s with worker := .dropRequest }
  | .dropCheck =>
    some { s with worker := if s.response.stream.writerOwedWakeup then .dropWake else .dropRequest }
  | .dropWake => some { s.wakeBody .response with worker := .dropRequest }
  | .dropRequest =>
    if s.requestBody then
      some { s with requestBody := false, request := s.request.cancel, worker := .dropRequestWake }
    else some { s with worker := .dropped }
  | .dropRequestWake => some { s.wakeBody .request with worker := .dropped }
  | .idle | .dropped => none

/-! ## The application -/

/-- A push of the application: a fiber is then to wake the worker. -/
def produce (response : Tracked) (wake : Bool) : State :=
  { s with
    response := response
    responseWakes := if wake then s.responseWakes + 1 else s.responseWakes }

/-- A fiber asks for a wait in the response queue. -/
def parkWriter (v : Variable) : State :=
  { s with
    response := s.response.parkWriter v
    writer := if (s.response.stream.parkWriter v).1 then .parked v else .running }

/-- The reactor resolves the waiter of a queue. -/
def resolve (q : Queue) (rest : List Queue) : State :=
  match q with
  | .request => { s with request := s.request.unpark, resolving := rest }
  | .response =>
    { s with
      response := s.response.unpark
      resolving := rest
      writer := match s.response.stream.waiter, s.writer with
        | some _, .parked _ => .leaving
        | _, w => w }

end State

inductive Action
  /-- `on_request_headers`, with what `copy_headers` and `submit` come to. -/
  | headers (submission : State.Submission) (endOfStream : Bool)
  | invalid (message : String) (endOfStream : Bool)
  /-- `on_request_body` with a frame of its own. -/
  | body (bytes : Bytes) (endOfStream : Bool)
  /-- A filter ahead keeps a frame back, perhaps with the headers. -/
  | buffer (bytes : Bytes)
  /-- `on_request_body` with what Envoy already buffered. -/
  | redeliver (endOfStream : Bool)
  | trailers
  /-- `on_scheduled`. -/
  | event (q : Queue)
  | above
  | below
  /-- `on_stream_complete`. -/
  | complete
  | drop
  /-- The worker goes on. -/
  | work
  /-- Envoy hands out the slices of a buffer. -/
  | slices (buffers : List Bytes)
  /-- The fiber of the request publishes the head, or fails. -/
  | pushHead (head : ResponseHead)
  | pushFailure (error : BridgeError)
  /-- `ChunkSink::write`. -/
  | write (bytes : Bytes)
  /-- `ChunkSink::finish`, or the `push_end` of `respond`. -/
  | finish
  /-- A fiber wakes the worker for a push. -/
  | wakeResponse
  | parkWriter (v : Variable)
  /-- The wait is over: the writer is stopped. -/
  | stopWriter
  | leaveWriter
  /-- A fiber takes a piece of the request body, and then wakes the worker. -/
  | takeRequest
  | wakeRequest
  | parkReader (v : Variable)
  | leaveReader
  /-- The reactor takes the owed wakeups, and resolves one. -/
  | takeWakeups
  | resolve
  deriving DecidableEq

/-- The worker is between callbacks of a live filter. -/
def State.atRest (s : State) : Bool := s.worker == .idle && s.stage == .live

/-- A watermark callback may come, also from inside a call that sends data. -/
def State.watermarkable (s : State) : Bool :=
  s.atRest || (s.worker == .drainTake && s.stage == .live)

/-- The slices of a buffer: all of it, and none of them empty. -/
def slicesOf (content : Bytes) (buffers : List Bytes) : Bool :=
  decide (buffers.flatten = content) && buffers.all fun slice => !slice.isEmpty

def step (s : State) : Action → Option State
  | .headers submission eos =>
    if s.worker = .idle ∧ s.stage = .fresh then some (s.onRequestHeaders submission eos) else none
  | .invalid message eos =>
    if s.worker = .idle ∧ s.stage = .fresh then some (s.onInvalidRequest message eos) else none
  | .body bytes eos =>
    if s.atRest ∧ s.clientDone = false then some (s.onRequestBody (.own bytes) bytes eos) else none
  | .buffer bytes =>
    if s.worker = .idle ∧ s.stage ≠ .complete ∧ s.clientDone = false then
      some { s with retained := s.retained ++ bytes, client := s.client ++ bytes }
    else none
  | .redeliver eos =>
    if s.atRest ∧ s.clientDone = false then some (s.onRequestBody .buffered [] eos) else none
  | .trailers => if s.atRest ∧ s.clientDone = false then some s.onRequestTrailers else none
  | .event .request =>
    if s.atRest then some { s with requestEvents := s.requestEvents - 1 }.forwardRequestBody else none
  | .event .response =>
    if s.atRest then
      let t := { s with responseEvents := s.responseEvents - 1 }
      if (s.state = .Waiting ∨ s.state = .Streaming) ∧ s.stream then
        some { t with worker := .drainTake }
      else some t
    else none
  | .above => if s.watermarkable then some (s.onWatermark true) else none
  | .below =>
    if s.watermarkable then
      some (if s.stream then
        { s.onWatermark false with worker := .belowCommit (s.worker == .drainTake) } else s)
    else none
  | .complete =>
    if s.worker = .idle ∧ s.stage ≠ .complete then
      some { s.reportOutcome .cancelled with stage := .complete }
    else none
  | .drop => if s.worker = .idle then some { s with worker := .dropCancel } else none
  | .work => s.workStep
  | .slices buffers =>
    match s.worker with
    | .forward (.slices source limit before) =>
      if limit ≠ 0 ∧ slicesOf (s.content source) buffers then
        some { s with worker := .forward (.copy source buffers limit 0 before) }
      else none
    | _ => none
  | .pushHead head =>
    if s.enqueued ∧ s.headPushed = false then
      some { s.produce (s.response.push (.Head head)) (s.response.stream.push (.Head head)).1 with
        headPushed := (s.response.stream.push (.Head head)).1 }
    else none
  | .pushFailure error =>
    if s.enqueued then some (s.produce (s.response.push (.Failed error)) true) else none
  | .write bytes =>
    if s.headPushed then
      some (s.produce (s.response.pushWithinBudget bytes)
        (decide (0 < (s.response.stream.pushChunkWithinBudget bytes).1.getD 0)))
    else none
  | .finish => if s.headPushed then some (s.produce (s.response.push .End) true) else none
  | .wakeResponse =>
    if 0 < s.responseWakes then
      some { s with responseWakes := s.responseWakes - 1, responseEvents := s.responseEvents + 1 }
    else none
  | .parkWriter v => if s.headPushed ∧ s.writer = .running then some (s.parkWriter v) else none
  | .stopWriter =>
    match s.writer with
    | .parked _ => some { s with writer := .leaving }
    | _ => none
  | .leaveWriter =>
    if s.writer = .leaving then some { s with response := s.response.unpark, writer := .running }
    else none
  | .takeRequest =>
    if s.enqueued then
      some { s with
        request := s.request.takeNext
        requestWakes :=
          if s.request.stream.takeNext.1.isSome then s.requestWakes + 1 else s.requestWakes }
    else none
  | .wakeRequest =>
    if 0 < s.requestWakes then
      some { s with requestWakes := s.requestWakes - 1, requestEvents := s.requestEvents + 1 }
    else none
  | .parkReader v => if s.enqueued then some { s with request := s.request.park v } else none
  | .leaveReader => if s.enqueued then some { s with request := s.request.unpark } else none
  | .takeWakeups =>
    if s.resolving = [] then some { s with wakeups := [], resolving := s.wakeups } else none
  | .resolve =>
    match s.resolving with
    | q :: rest => some (s.resolve q rest)
    | [] => none

/-- A filter that was just made, with any configuration. -/
def system : System State Action where
  init s := ∃ config, s = { config := config }
  step := step

/-! ## What the request side leaves alone -/

section Frame

variable {s t : State}

theorem atRest_iff : s.atRest = true ↔ s.worker = .idle ∧ s.stage = .live := by
  simp [State.atRest]

theorem endCopy_frame (source : BodySource) (limit copied before : ℕ) :
    let t := s.endCopy source limit copied before
    t = { s with retained := t.retained, frame := t.frame, worker := t.worker } ∧
      ∃ k, t.worker = .forward k := by
  have hdrain : ∀ t : State, t = (if copied > 0 then s.drainBody copied source else s) →
      t = { s with retained := t.retained, frame := t.frame } := by
    rintro t rfl
    unfold State.drainBody
    repeat' split
    all_goals rfl
  have hd := hdrain _ rfl
  unfold State.endCopy
  cases source with
  | Retained =>
    dsimp only
    split
    all_goals
      refine ⟨?_, _, rfl⟩
      rw [hd]
  | Received =>
    refine ⟨?_, _, rfl⟩
    dsimp only
    rw [hd]

/-- A step of `forward_request_body`: what it may change, and where it goes on. -/
theorem forwardStep_frame {k : Forward} (ht : s.forwardStep k = some t) :
    t = { s with
      request := t.request
      requestEndPending := t.requestEndPending
      retained := t.retained
      frame := t.frame
      wakeups := t.wakeups
      worker := t.worker } ∧
      (t.worker = .idle ∨ ∃ k, t.worker = .forward k) ∧ s.wakeups <+: t.wakeups := by
  cases k with
  | room =>
    simp only [State.forwardStep, Option.some.injEq] at ht
    subst ht
    exact ⟨rfl, Or.inr ⟨_, rfl⟩, List.prefix_rfl⟩
  | slices source limit before =>
    simp only [State.forwardStep, Option.ite_none_right_eq_some, Option.some.injEq] at ht
    obtain ⟨-, rfl⟩ := ht
    obtain ⟨hs, hk⟩ := endCopy_frame (s := s) source limit 0 before
    refine ⟨?_, Or.inr hk, ?_⟩ <;> rw [hs]
  | copy source buffers limit copied before =>
    obtain ⟨hs, hk⟩ := endCopy_frame (s := s) source limit copied before
    cases buffers with
    | nil =>
      simp only [State.forwardStep, Option.some.injEq] at ht
      subst ht
      refine ⟨?_, Or.inr hk, ?_⟩ <;> rw [hs]
    | cons slice rest =>
      simp only [State.forwardStep] at ht
      split_ifs at ht <;> cases ht
      · refine ⟨?_, Or.inr hk, ?_⟩ <;> rw [hs]
      · exact ⟨rfl, Or.inr ⟨_, rfl⟩, List.prefix_rfl⟩
  | finish copied =>
    simp only [State.forwardStep, Option.some.injEq] at ht
    subst ht
    exact ⟨rfl, Or.inr ⟨_, rfl⟩, List.prefix_rfl⟩
  | wake owed =>
    simp only [State.forwardStep, Option.some.injEq] at ht
    subst ht
    split_ifs
    · exact ⟨rfl, Or.inl rfl, List.prefix_append _ _⟩
    · exact ⟨rfl, Or.inl rfl, List.prefix_rfl⟩

theorem forwardRequestBody_frame :
    let t := s.forwardRequestBody
    t = { s with retained := t.retained, frame := t.frame, worker := t.worker } ∧
      (t.worker = .idle ∨ ∃ k, t.worker = .forward k) := by
  unfold State.forwardRequestBody
  split_ifs
  · exact ⟨rfl, Or.inr ⟨_, rfl⟩⟩
  · exact ⟨rfl, Or.inl rfl⟩

end Frame

end Ruvoy.Filter
