import Ruvoy.Exchange.Model
import Ruvoy.Streamed.Model

/-!
# A streamed call that uploads an IO body

`Upstream#stream` of `ruby/upstream.rb` with a body that responds to `read`: what is read ahead of it,
the fields the call goes out with, and the fiber that uploads it, beside the worker and whatever else
the fibers do with the call.

* `IOBody`: what the reads of a body give;
* `RubyText`: what Ruby makes of texts in all of Unicode, a parameter;
* `fields`, `preread`: the steps up to `open_stream`;
* `Upload`: where the upload fiber is;
* `State`, `Action`, `step`, `system`.
-/

set_option autoImplicit false

namespace Ruvoy.Streamed.Body

open Runs
open Upstream
open Exchange (uploadBytes)

/-- A body: what `read(UPLOAD_BYTES)` gives, one after the other, before it gives `nil`. -/
structure IOBody where
  pieces : List Bytes
  nonempty : ∀ piece ∈ pieces, piece ≠ []
  bounded : ∀ piece ∈ pieces, piece.length ≤ uploadBytes

def IOBody.content (body : IOBody) : Bytes := body.pieces.flatten

/-- The bytes of a text. -/
def utf8 (text : String) : Bytes := text.toList.flatMap String.utf8EncodeChar

/-- `String#downcase`, `#upcase` and `#inspect`, in all of Unicode. -/
structure RubyText where
  downcase : String → String
  upcase : String → String
  inspect : String → String

/-- What they are on texts of ASCII. -/
def asciiText : RubyText := ⟨String.toLower, String.toUpper, String.quote⟩

/-- The value of a header: what `to_s` makes of it, and of the elements of `Array(value)`. -/
structure HeaderValue where
  text : String
  elements : List String

/-- The loop of `fields` over the headers: the host, and the fields. -/
def addHeaders (text : RubyText) : List (String × HeaderValue) → String × Fields → Except String (String × Fields)
  | [], r => .ok r
  | (name, value) :: headers, (host, fields) =>
    let name := text.downcase name
    if name.startsWith ":" then
      .error s!"{name} is set from the call's arguments, not its headers"
    else if name = "host" then addHeaders text headers (value.text, fields)
    else addHeaders text headers (host, fields ++ value.elements.map fun element => (name, utf8 element))

def fields (text : RubyText) (cluster method path : String) (headers : List (String × HeaderValue))
    (body : Option Bytes) : Except String Fields :=
  if method.isEmpty then .error "method must not be empty"
  else if !path.startsWith "/" then .error s!"path must start with /, got {text.inspect path}"
  else
    (addHeaders text headers
        (cluster, [(":method", utf8 (text.upcase method)), (":path", utf8 path)])).map fun r =>
      let length := match body with
        | some bytes =>
          if r.2.all (·.1 != "content-length") then
            [("content-length", utf8 (toString bytes.length))] else []
        | none => []
      r.2 ++ length ++ [("host", utf8 r.1)]

/-- `UpstreamBody.preread`, with what was read so far: what was read in all, or nothing, and the pieces
that are left when more may follow. -/
def preread (read : Bytes) : List Bytes → Option Bytes × Option (List Bytes)
  | [] =>
    if read.length ≤ uploadBytes then (if read.isEmpty then none else some read, none)
    else (some read, some [])
  | piece :: pieces =>
    if read.length ≤ uploadBytes then preread (read ++ piece) pieces
    else (some read, some (piece :: pieces))

/-- Where the upload fiber is. -/
inductive Upload
  /-- There is none. -/
  | none
  /-- In `Stream.write`: about to test `writable?` with this much of the piece left. -/
  | test (left : Bytes)
  | park (left : Bytes)
  | parked (left : Bytes)
  | leave (left : Bytes)
  | write (left : Bytes)
  /-- About to read the next piece of the body. -/
  | read
  /-- About to `finish` the writer. -/
  | finish
  | done
  /-- `UpstreamBody#close` stopped it. -/
  | stopped
  deriving DecidableEq, Repr

structure State where
  call : Streamed.State
  /-- `rest`: what the reads of the body are still to give. -/
  rest : Option (List Bytes)
  upload : Upload

/-- The arguments of `Upstream#stream`; the timeout in nanoseconds, zero for none. -/
structure Call where
  text : RubyText
  cluster : String
  method : String
  path : String
  headers : List (String × HeaderValue)
  timeout : ℕ
  body : IOBody

/-- What is read ahead of the body. -/
def Call.ahead (c : Call) : Option Bytes × Option (List Bytes) := preread [] c.body.pieces

/-- `Upstream#stream` up to where the upload fiber begins. -/
def Call.start (c : Call) (trace : Fields) (budget : ℕ) : Except String State :=
  (fields c.text c.cluster c.method c.path c.headers (if c.ahead.2.isSome then none else c.ahead.1)).map
    fun fields =>
      { call := .queue ⟨0, c.cluster, fields, c.timeout⟩ trace budget c.ahead.1.isSome
        rest := c.ahead.2
        upload := c.ahead.1.elim .none .test }

namespace State

variable (s : State)

/-- The upload fiber uses the writer. -/
def act (op : FiberOp) (upload : Upload) : State := { s with call := s.call.fiber op, upload := upload }

/-- The request queue. -/
def sink : ResponseStream := s.call.channel.request.stream

/-- The variable of the upload fiber. -/
def uploadVariable : Variable := 1

/-- The upload fiber's next step, when it does not wait. -/
def uploadStep : Option State :=
  match s.upload with
  | .test [] => some { s with upload := if s.rest.isSome then .read else .finish }
  | .test left => some { s with upload := if s.sink.isSaturated then .park left else .write left }
  | .park left =>
    some (s.act (.parkWriter uploadVariable)
      (if (s.sink.parkWriter uploadVariable).1 then .parked left else .write left))
  | .leave left => some (s.act .unparkWriter (.write left))
  | .write left =>
    some (s.act (.write left)
      (match (s.sink.pushChunkWithinBudget left).1 with
        | some taken => .test (left.drop taken)
        | none => .finish))
  | .read =>
    match s.rest with
    | some (piece :: pieces) => some { s with rest := some pieces, upload := .test piece }
    | _ => some { s with upload := .finish }
  | .finish => some (s.act .finish .done)
  | .none | .parked _ | .done | .stopped => none

/-- The upload fiber is stopped where it waits. -/
def stop : Option State :=
  match s.upload with
  | .parked _ => some (s.act .unparkWriter .stopped)
  | .read => some { s with upload := .stopped }
  | _ => none

end State

inductive Action
  /-- The upload fiber's next step. -/
  | upload
  | wakeUpload
  | stop
  /-- Anything else that happens to the call. -/
  | other (a : Streamed.Action)
  deriving DecidableEq

/-- The upload fiber alone has the writer. -/
def writes : Streamed.Action → Bool
  | .fiber (.write _) | .fiber .finish | .fiber (.parkWriter _) | .fiber .unparkWriter => true
  | _ => false

def step (s : State) : Action → Option State
  | .upload => if s.call.ruby = .idle then s.uploadStep else none
  | .wakeUpload =>
    match s.upload with
    | .parked left => some { s with upload := .leave left }
    | _ => none
  | .stop => if s.call.ruby = .idle then s.stop else none
  | .other a =>
    if writes a then none else (Streamed.step s.call a).map fun call => { s with call := call }

/-- A call with an IO body, on a request with any trace context and with any budget. -/
def system (c : Call) : System State Action where
  init s := ∃ (up : Upstream.State) (budget : ℕ), c.start up.readTrace budget = .ok s
  step := step

end Ruvoy.Streamed.Body
