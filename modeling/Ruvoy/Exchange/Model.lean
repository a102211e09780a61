import Ruvoy.Lib.Runs
import Ruvoy.Stream.History

/-!
# A streamed upstream exchange, from the fibers' side

`Upstream#stream` of `ruby/upstream.rb` and what it returns. The worker pushes the response into
one queue and takes the request body from another; a reading fiber runs `UpstreamBody#head` and
then `UpstreamBody#each`, or after a switch of protocols the calls of `Ruvoy::Stream`; an upload
fiber runs `Upstream#upload`. Every step is one lock acquisition.

* `Reader`: where the reading fiber is. `head`, `each` and `fill` are three loops over the same
  gates: take an item, test whether to go on, park, leave;
* `Upload`: where the upload fiber is, in `Stream.write`, at a read of the body, or closing;
* `State`, `Action`, `step`: every step of every party. The two fibers and the reactor share one
  thread, so the reactor's pass never falls between the reader's take and its park, and nothing
  falls between the two cancels of a `close` but the worker.
-/

set_option autoImplicit false

namespace Ruvoy.Exchange

open Runs

/-! ## The reading fiber -/

/-- A call of `Ruvoy::Stream` that waits for input. -/
inductive Call
  /-- `read`, to the end. -/
  | readAll
  | read (length : ℕ)
  | readPartial (length : ℕ)
  deriving DecidableEq, Repr

/-- The loop the reading fiber is in: `UpstreamBody#head`, `UpstreamBody#each`, or the `fill` of a
`Ruvoy::Stream` call. -/
inductive Loop
  | head
  | each
  | fill (call : Call)
  deriving DecidableEq, Repr

/-- How far the loop has come in this round. -/
inductive Gate
  /-- About to take an item: `@channel.head` or `@reader.next_chunk`. -/
  | take
  /-- Nothing came: about to test `is_cancelled`, or `finished?`. -/
  | check
  /-- About to `park`. -/
  | park
  /-- In `variable.wait`. -/
  | parked
  /-- Woken, about to `unpark`. -/
  | leave
  deriving DecidableEq, Repr

/-- `UpstreamWaiting#await` after a timeout: the `unpark` of `Park.on`, then the two cancels of
`StreamChannel::time_out`. -/
inductive TimeOut
  | unpark
  | cancelResponse
  | cancelRequest
  deriving DecidableEq, Repr

inductive Reader
  | inLoop (l : Loop) (g : Gate)
  /-- A `Ruvoy::Stream` that no call is reading. -/
  | idle
  | timingOut (l : Loop) (k : TimeOut)
  /-- `head` raised, or `each` returned or raised. -/
  | finished
  deriving DecidableEq, Repr

/-- What a reader raises. -/
inductive ReadError
  /-- `Ruvoy::UpstreamError`. -/
  | upstream (error : BridgeError)
  /-- `Ruvoy::UpstreamTimeout`. -/
  | timeout
  deriving DecidableEq, Repr

/-- How a read ended the response: `clean` when `each` returns, `read` gives nothing, or
`readpartial` raises `EOFError`. -/
inductive Verdict
  | clean
  | raised (error : ReadError)
  deriving DecidableEq, Repr

/-! ## The upload fiber -/

inductive Upload
  /-- No body is going up. -/
  | none
  /-- In `Stream.write`: about to test `writable?` with this much of the piece left. -/
  | test (left : Bytes)
  | park (left : Bytes)
  | parked (left : Bytes)
  | leave (left : Bytes)
  | write (left : Bytes)
  /-- About to read the next piece of the body. -/
  | read
  /-- About to `finish` the writer. -/
  | finish
  /-- The read raised: the two cancels of `StreamChannel::close`. -/
  | cancelResponse
  | cancelRequest
  | raised
  | done
  deriving DecidableEq, Repr

/-- A read of the body raised, and the channel is closed or being closed. -/
def Upload.failed : Upload → Bool
  | .cancelResponse | .cancelRequest | .raised => true
  | _ => false

/-- In the middle of `StreamChannel::close`. -/
def Upload.closing : Upload → Bool
  | .cancelResponse | .cancelRequest => true
  | _ => false

/-- What a read of the body gives. -/
inductive Piece
  | bytes (piece : Bytes)
  | eof
  | error
  deriving DecidableEq, Repr

/-! ## The exchange -/

/-- What the worker has pushed of the response. -/
inductive Worker
  | fresh
  | streaming
  /-- A delivery did not fit: the stream is about to fail. -/
  | overflowed
  /-- Ended or failed. -/
  | over
  deriving DecidableEq, Repr

structure State where
  response : Tracked
  request : Tracked
  worker : Worker := .fresh
  /-- The worker is still to run `wake_stream`: it pushed, or has a reset to send. -/
  due : Bool := false
  /-- How often the response is on the list of owed wakeups. -/
  owed : ℕ := 0
  reader : Reader := .inLoop .head .take
  /-- An upgrade was asked for. -/
  protocol : Bool := false
  /-- What the reader was given, in order. -/
  handed : Bytes := []
  /-- `@buffer` and `@failure` of a `Ruvoy::Stream`. -/
  buffer : Bytes := []
  failure : Option BridgeError := none
  verdicts : List Verdict := []
  upload : Upload := .none
  /-- `rest`: more of the body is read as it goes up. -/
  rest : Bool := false

namespace State

variable (s : State)

def enter (l : Loop) (g : Gate) : State := { s with reader := .inLoop l g }

/-- The loop is left with a verdict; a `Ruvoy::Stream` can be called again. -/
def conclude (l : Loop) (v : Verdict) : State :=
  { s with
    reader := match l with
      | .fill _ => .idle
      | _ => .finished
    verdicts := s.verdicts ++ [v] }

/-- `UpstreamChannelObject::head`, before it asks whether the stream was closed. -/
def takeHead : State :=
  let t := { s with response := s.response.takeNext }
  match s.response.stream.takeNext.1 with
  | none => t.enter .head .check
  | some (.Head head) =>
    if s.protocol && head.status == 101 then { t with reader := .idle } else t.enter .each .take
  | some (.Failed error) => t.conclude .head (.raised (.upstream error))
  | some _ =>
    t.conclude .head (.raised (.upstream (.Upstream "the response arrived without a head")))

/-- `next_chunk` in `each`, with the chunk yielded. -/
def takeEach : State :=
  let t := { s with response := s.response.takeNext }
  match s.response.stream.takeNext.1 with
  | some (.Chunk bytes) => { t with handed := s.handed ++ bytes }
  | some (.Failed error) => t.conclude .each (.raised (.upstream error))
  | _ => t.enter .each .check

/-- One round of `drain`. -/
def takeFill (c : Call) : State :=
  if s.failure.isSome then s.enter (.fill c) .check
  else
    let t := { s with response := s.response.takeNext }
    match s.response.stream.takeNext.1 with
    | some (.Chunk bytes) => { t with buffer := s.buffer ++ bytes }
    | some (.Failed error) => { t with failure := some error }.enter (.fill c) .check
    | _ => t.enter (.fill c) .check

/-- The call needs no more input than is buffered. -/
def satisfied : Call → Bool
  | .readAll => false
  | .read length => decide (s.buffer.length ≥ length)
  | .readPartial _ => !s.buffer.isEmpty

/-- `give`. -/
def give (length : ℕ) : State :=
  { s with
    reader := .idle
    handed := s.handed ++ s.buffer.take length
    buffer := s.buffer.drop length }

/-- How much a call hands out. -/
def share : Call → ℕ
  | .readAll => s.buffer.length
  | .read length | .readPartial length => min length s.buffer.length

/-- What a call does once `fill` is over: the failure, or the end of file, only from an empty
buffer. -/
def answer (c : Call) : State :=
  if s.buffer.isEmpty then
    s.conclude (.fill c) (s.failure.elim .clean fun error => .raised (.upstream error))
  else s.give (s.share c)

def takeStep : Loop → State
  | .head => s.takeHead
  | .each => s.takeEach
  | .fill c => s.takeFill c

/-- `Stream#finished?`, or `finished?` of the reader. -/
def isFinished : Bool := s.failure.isSome || s.response.stream.isFinished

def checkStep : Loop → State
  | .head =>
    if s.response.stream.isCancelled then
      s.conclude .head (.raised (.upstream (.Upstream "the stream was closed")))
    else s.enter .head .park
  | .each => if s.response.stream.isFinished then s.conclude .each .clean else s.enter .each .park
  | .fill c => if s.satisfied c || s.isFinished then s.answer c else s.enter (.fill c) .park

/-- The variable of the one reading fiber. -/
def readerVariable : Variable := 0

def parkStep (l : Loop) : State :=
  { s with response := s.response.park readerVariable }.enter l
    (if (s.response.stream.park readerVariable).1 then .parked else .take)

/-- The reading fiber's next step, when it does not wait. -/
def readStep : Option State :=
  match s.reader with
  | .inLoop l .take => some (s.takeStep l)
  | .inLoop l .check => some (s.checkStep l)
  | .inLoop l .park => some (s.parkStep l)
  | .inLoop l .leave => some ({ s with response := s.response.unpark }.enter l .take)
  | .timingOut l .unpark =>
    some { s with response := s.response.unpark, reader := .timingOut l .cancelResponse }
  | .timingOut l .cancelResponse =>
    some { s with response := s.response.cancel, due := true, reader := .timingOut l .cancelRequest }
  | .timingOut l .cancelRequest =>
    some ({ s with request := s.request.cancel }.conclude l (.raised .timeout))
  | .inLoop _ .parked | .idle | .finished => none

/-- The reader is not between a take and its park, nor between the cancels of a `time_out`. -/
def resting : Bool :=
  match s.reader with
  | .inLoop _ .check | .inLoop _ .park | .timingOut _ _ => false
  | _ => true

/-- `resolve_wakeups`, for the response queue. -/
def pass : State :=
  { s with
    owed := 0
    response := s.response.unpark
    reader := match s.reader with
      | .inLoop l .parked => if s.response.stream.waiter.isSome then .inLoop l .leave else s.reader
      | r => r }

/-- The variable of the upload fiber. -/
def uploadVariable : Variable := 1

/-- The upload fiber's next step, when it does not wait for its body. -/
def uploadStep : Option State :=
  match s.upload with
  | .test [] => some { s with upload := if s.rest then .read else .finish }
  | .test left => some { s with upload := if s.request.stream.isSaturated then .park left else .write left }
  | .park left =>
    some { s with
      request := s.request.parkWriter uploadVariable
      upload := if (s.request.stream.parkWriter uploadVariable).1 then .parked left else .write left }
  | .leave left => some { s with request := s.request.unpark, upload := .write left }
  | .write left =>
    some { s with
      request := s.request.pushWithinBudget left
      upload := match (s.request.stream.pushChunkWithinBudget left).1 with
        | some taken => .test (left.drop taken)
        | none => .finish }
  | .finish => some { s with request := s.request.push .End, upload := .done }
  | .cancelResponse =>
    some { s with response := s.response.cancel, due := true, upload := .cancelRequest }
  | .cancelRequest => some { s with request := s.request.cancel, upload := .raised }
  | .none | .parked _ | .read | .raised | .done => none

/-- `rest.read`. -/
def uploadRead : Piece → State
  | .bytes piece => { s with upload := .test piece }
  | .eof => { s with upload := .finish }
  | .error => { s with upload := .cancelResponse }

/-- A push of the worker. -/
def deliver (response : Tracked) (worker : Worker) : State :=
  { s with response := response, worker := worker, due := true }

/-- `push_chunk_if_room`; a delivery that does not fit fails the stream next. -/
def deliverChunk (chunk : Bytes) : State :=
  s.deliver (s.response.pushIfRoom chunk)
    (match (s.response.stream.pushChunkIfRoom chunk).1 with
      | some true => .streaming
      | some false => .overflowed
      | none => .over)

end State

inductive Action
  /-- The response head arrives. -/
  | head (head : ResponseHead)
  /-- A piece of the response body arrives. -/
  | chunk (bytes : Bytes)
  /-- The response ends. -/
  | complete
  /-- The response fails. -/
  | fail (error : BridgeError)
  /-- The worker's `wake_stream`. -/
  | owe
  /-- The worker takes a piece of the request body. -/
  | takeRequest
  /-- No more of the request body can go up. -/
  | cancelRequest
  /-- The reactor's pass. -/
  | pass
  /-- The reading fiber's next step. -/
  | read
  /-- A call of `Ruvoy::Stream` begins. -/
  | call (c : Call)
  /-- The idle timeout of a parked reader. -/
  | timeOut
  /-- The upload fiber's next step. -/
  | upload
  | uploadRead (piece : Piece)
  | wakeUpload
  deriving DecidableEq, Repr

def step (s : State) : Action → Option State
  | .head head =>
    if s.worker = .fresh then some (s.deliver (s.response.push (.Head head)) .streaming) else none
  | .chunk bytes => if s.worker = .streaming then some (s.deliverChunk bytes) else none
  | .complete =>
    if s.worker = .fresh ∨ s.worker = .streaming then some (s.deliver (s.response.push .End) .over)
    else none
  | .fail error =>
    if s.worker ≠ .over then some (s.deliver (s.response.push (.Failed error)) .over) else none
  | .owe => if s.due then some { s with due := false, owed := s.owed + 1 } else none
  | .takeRequest => some { s with request := s.request.takeNext }
  | .cancelRequest => if s.worker = .over then some { s with request := s.request.cancel } else none
  | .pass => if 0 < s.owed ∧ s.resting ∧ s.upload.closing = false then some s.pass else none
  | .read => if s.upload.closing then none else s.readStep
  | .call c =>
    if s.reader = .idle then
      some (if c = .read 0 then s else s.enter (.fill c) .take)
    else none
  | .timeOut =>
    match s.reader with
    | .inLoop l .parked =>
      if s.upload.closing then none else some { s with reader := .timingOut l .unpark }
    | _ => none
  | .upload => s.uploadStep
  | .uploadRead piece => if s.upload = .read then some (s.uploadRead piece) else none
  | .wakeUpload =>
    match s.upload with
    | .parked left => some { s with upload := .leave left }
    | _ => none

/-- A new exchange: nothing arrived, the reading fiber waits for the head, and what was read ahead
of the body, if there is one, begins to go up. -/
def State.start (budget : ℕ) (protocol : Bool) (body : Option Bytes) (rest : Bool) : State :=
  { response := .new budget
    request := .new budget
    protocol := protocol
    upload := body.elim .none .test
    rest := rest }

/-- `UpstreamBody::UPLOAD_BYTES`. -/
def uploadBytes : ℕ := 64 * 1024

/-- An upgrade sends no body, and a body is left to be read only behind more than one upload
piece. -/
def system : System State Action where
  init s := ∃ budget protocol body rest,
    (protocol = true → body = none) ∧
    (rest = true → ∃ piece, body = some piece ∧ uploadBytes < piece.length) ∧
    s = .start budget protocol body rest
  step := step

end Ruvoy.Exchange
