import Ruvoy.Lib.Runs
import Ruvoy.Stream.History

/-!
# One request in the Rack runtime

`respond` of `src/rack.rs` from the moment the application has returned its response, with the body
reader of `ruby/rack_streaming_body_reader.rb` and `Stream.write` of `ruby/stream.rb`, on the fiber
that runs the request. A step is one lock acquisition of the response queue, or what the body of the
application does next; in between anyone else may work on the queue.

* `Conversions`: what the code asks of Ruby values;
* `responseParts`, `acceptedProtocol`, `Call.head`: from the response array to the head;
* `Pc`, `State`, `State.proceed`: the fiber;
* `Action`, `step`, `system`.
-/

set_option autoImplicit false

namespace Ruvoy.Rack

open Runs

/-- The conversions of Ruby values that the code asks for, with the message of a failure. -/
structure Conversions (V : Type) where
  /-- `i64::try_convert`. -/
  toI64 : V → Except String ℤ
  /-- `RHash::try_convert`, as the pairs in the order of `foreach`. -/
  toHash : V → Except String (List (V × V))
  /-- `RArray::from_value`. -/
  toArray : V → Option (List V)
  /-- `String::try_convert`. -/
  toStr : V → Except String String
  /-- `{:?}` of a Rust string. -/
  debug : String → String

/-- `ruby_error`. -/
def rubyError (context error : String) : BridgeError := .Ruby s!"{context}: {error}"

/-- A failed conversion, in its context. -/
def inContext {α : Type} (context : String) : Except String α → Except BridgeError α
  | .ok a => .ok a
  | .error e => .error (rubyError context e)

abbrev Headers : Type := List (String × String)

structure ResponseParts (V : Type) where
  status : ℕ
  headers : Headers
  body : V

/-- Which methods the body answers to. -/
structure BodyMethods where
  each : Bool
  call : Bool
  close : Bool
  deriving DecidableEq, Repr

/-- The response of the application, and what else `respond` works with. -/
structure Call (V : Type) where
  conversions : Conversions V
  /-- `rack_response`. -/
  response : List V
  /-- `respond_to?` of the body in it. -/
  body : BodyMethods
  /-- The protocols the client offered to upgrade to, when it offered any. -/
  protocols : Option (List String) := none
  /-- `stage_timing_headers`. -/
  stageTimingHeaders : Headers := []
  rubyThreadObjectId : ℕ := 0

section Head

variable {V : Type} (c : Conversions V)

/-- One entry of the response headers: repeated for each string of an array. -/
def copyHeader (name : String) (value : V) : Except String Headers :=
  match c.toArray value with
  | some values => do
    let values ← values.mapM c.toStr
    return values.map fun value => (name, value)
  | none => do
    let value ← c.toStr value
    return [(name, value)]

def copyHeaders (headers : List (V × V)) : Except BridgeError Headers :=
  inContext "copying response headers" do
    let copied ← headers.mapM fun (name, value) => do
      let name ← c.toStr name
      copyHeader c name value
    return copied.flatten

/-- `u16::try_from`. -/
def toU16 (status : ℤ) : Except BridgeError ℕ :=
  if 0 ≤ status ∧ status < 65536 then .ok status.toNat
  else .error (.InvalidResponse s!"status {status} is outside the u16 range")

def responseParts (response : List V) : Except BridgeError (ResponseParts V) :=
  match response with
  | [status, headers, body] => do
    let status ← inContext "converting response status" (c.toI64 status)
    let status ← toU16 status
    let headers ← inContext "converting response headers" (c.toHash headers)
    let headers ← copyHeaders c headers
    return ⟨status, headers, body⟩
  | _ =>
    let entries := response.length
    .error (.InvalidResponse s!"expected 3 entries, got {entries}")

/-- `eq_ignore_ascii_case`. -/
def eqIgnoreAsciiCase (a b : String) : Bool := a.toLower == b.toLower

/-- The headers without `rack.protocol`, and the protocol it named, which the client must have
offered. -/
def acceptedProtocol (headers : Headers) (offered : Option (List String)) :
    Except BridgeError (Headers × Option String) :=
  match headers.find? (·.1 == "rack.protocol") with
  | none => .ok (headers, none)
  | some (_, protocol) =>
    let headers := headers.eraseP (·.1 == "rack.protocol")
    if offered.any (·.contains protocol) then
      .ok (headers.filter fun h =>
        !eqIgnoreAsciiCase h.1 "upgrade" && !eqIgnoreAsciiCase h.1 "connection", some protocol)
    else
      let named := c.debug protocol
      .error (.InvalidResponse s!"rack.protocol {named} is not one the client offered")

/-- What `respond` does before it publishes the head. -/
def Call.head (call : Call V) : Except BridgeError ResponseHead := do
  let parts ← responseParts call.conversions call.response
  let (headers, protocol) ← acceptedProtocol call.conversions parts.headers call.protocols
  let (status, headers) := match protocol with
    | some protocol => (101, headers ++ [("upgrade", protocol), ("connection", "upgrade")])
    | none => (parts.status, headers)
  return ⟨status, headers ++ call.stageTimingHeaders, call.rubyThreadObjectId⟩

end Head

/-- Where the fiber is. -/
inductive Pc
  /-- The application has returned. -/
  | respond
  | pushHead (head : ResponseHead)
  /-- In the body reader, from here to `closing`. -/
  | reader
  /-- `input.detach`, for a body that is called. -/
  | detach
  /-- In the body's own `each` or `call`. -/
  | body
  /-- In `Stream.write`, at the head of its loop. -/
  | writing (chunk : Bytes) (offset : ℕ)
  | park (chunk : Bytes) (offset : ℕ)
  | parked (v : Variable) (chunk : Bytes) (offset : ℕ)
  /-- In the `ensure` of `Park.on`. -/
  | unpark (chunk : Bytes) (offset : ℕ) (stopped : Bool)
  | push (chunk : Bytes) (offset : ℕ)
  /-- The sink refused a chunk: `return` unwinds the body's `each`. -/
  | refused
  /-- A body that was called has returned: `stream.close_write`. -/
  | closeWrite
  /-- In the `ensure` of the body reader. -/
  | ensure (result : Except String Unit)
  /-- In `body.close`. -/
  | closing (result : Except String Unit)
  | pushEnd
  /-- In `call_streaming`: `respond` has returned. -/
  | closeInput (result : Except BridgeError Unit)
  | returned (result : Except BridgeError Unit)

structure State (V : Type) where
  call : Call V
  stream : Tracked
  pc : Pc := .respond
  /-- `@write_closed` of the stream a body is called with. -/
  writeClosed : Bool := false
  /-- The variables made so far. -/
  made : ℕ := 0
  /-- How often the runtime called `body.close`. -/
  closes : ℕ := 0
  /-- The queue was neither cancelled nor ended when the head was to be pushed. -/
  openAtHead : Bool := false

namespace State

variable {V : Type} (s : State V)

/-- The body reader is over. -/
def afterReader : Except String Unit → State V
  | .ok _ => { s with pc := .pushEnd }
  | .error e => { s with pc := .closeInput (.error (rubyError "streaming response body" e)) }

/-- `Stream#close_write`. -/
def closeWrite : State V :=
  if s.writeClosed then s else { s with stream := s.stream.push .End, writeClosed := true }

/-- The fiber goes on with code of the runtime. -/
def proceed : Option (State V) :=
  match s.pc with
  | .respond =>
    match s.call.head with
    | .ok head => some { s with pc := .pushHead head }
    | .error e => some { s with pc := .closeInput (.error e) }
  | .pushHead head =>
    some { s with
      stream := s.stream.push (.Head head)
      openAtHead := !(s.stream.stream.cancelled || s.stream.stream.ended)
      pc := if (s.stream.stream.pushHead head).1 then .reader else .closeInput (.ok ()) }
  | .reader =>
    if s.call.body.each then some { s with pc := .body }
    else if s.call.body.call then some { s with pc := .detach }
    else some { s with
      pc := .ensure (.error "a Rack response body must respond to each or call") }
  | .detach => some { s with pc := .body }
  | .writing chunk offset =>
    if offset < chunk.length then
      some { s with
        pc := if s.stream.stream.isSaturated then .park chunk offset else .push chunk offset }
    else some { s with pc := .body }
  | .park chunk offset =>
    some { s with
      stream := s.stream.parkWriter s.made
      made := s.made + 1
      pc := if (s.stream.stream.parkWriter s.made).1 then .parked s.made chunk offset
        else .push chunk offset }
  | .unpark chunk offset stopped =>
    some { s with
      stream := s.stream.unpark
      pc := if stopped then .body else .push chunk offset }
  | .push chunk offset =>
    let t := { s with stream := s.stream.pushWithinBudget (chunk.drop offset) }
    match (s.stream.stream.pushChunkWithinBudget (chunk.drop offset)).1 with
    | some taken => some { t with pc := .writing chunk (offset + taken) }
    -- a body that is called hears of it by `Errno::EPIPE`
    | none => some { t with pc := if s.call.body.each then .refused else .body }
  | .closeWrite => some { s.closeWrite with pc := .ensure (.ok ()) }
  | .ensure result =>
    if s.call.body.close then some { s with closes := s.closes + 1, pc := .closing result }
    else some (s.afterReader result)
  | .pushEnd => some { s with stream := s.stream.push .End, pc := .closeInput (.ok ()) }
  | .closeInput result => some { s with pc := .returned result }
  | .body | .parked .. | .refused | .closing _ | .returned _ => none

/-- The body hands on a chunk: `each` yields it, or the stream it was called with is written to. -/
def yields (chunk : Bytes) : Option (State V) :=
  match s.pc with
  | .body =>
    -- `IOError`, which the body may rescue
    if !s.call.body.each && s.writeClosed then some s else some { s with pc := .writing chunk 0 }
  | _ => none

/-- Code of the application returns. -/
def returns : Option (State V) :=
  match s.pc with
  | .body => some { s with pc := if s.call.body.each then .ensure (.ok ()) else .closeWrite }
  | .refused => some { s with pc := .ensure (.ok ()) }
  | .closing result => some (s.afterReader result)
  | _ => none

/-- Code of the application raises, or is stopped. -/
def raises (error : String) : Option (State V) :=
  match s.pc with
  | .detach | .body | .refused => some { s with pc := .ensure (.error error) }
  | .closing _ => some (s.afterReader (.error error))
  | _ => none

/-- The reactor resolves whoever waits in the queue. -/
def resolve : State V :=
  let t := { s with stream := s.stream.unpark }
  match s.pc with
  | .parked v chunk offset =>
    if s.stream.stream.waiter = some v then { t with pc := .unpark chunk offset false } else t
  | _ => t

end State

inductive Action
  | proceed
  | yields (chunk : Bytes)
  /-- A body that was called closes the stream for writing. -/
  | closesWrite
  | returns
  | raises (error : String)
  /-- The fiber is stopped where it waits. -/
  | stop
  | resolve
  /-- The filter, or another fiber, works on the queue. -/
  | queue (op : QueueOp)
  deriving DecidableEq

def step {V : Type} (s : State V) : Action → Option (State V)
  | .proceed => s.proceed
  | .yields chunk => s.yields chunk
  | .closesWrite =>
    match s.pc with
    | .body => if s.call.body.each then none else some s.closeWrite
    | _ => none
  | .returns => s.returns
  | .raises error => s.raises error
  | .stop =>
    match s.pc with
    | .parked _ chunk offset => some { s with pc := .unpark chunk offset true }
    | _ => none
  | .resolve => some s.resolve
  | .queue op => some { s with stream := s.stream.apply op }

/-- Any response of the application, with the queue as it may be by then. -/
def system (V : Type) : System (State V) Action where
  init s := ∃ call stream, s = { call := call, stream := stream }
  step := step

end Ruvoy.Rack
