import Ruvoy.Exchange.Model
import Ruvoy.Lib.Search

/-!
# Rack input over a body that is still arriving

`ruby/request_body.rb`: every byte pulled from the queue is kept, in memory up to a limit and in a
temporary file beyond it, and a read that outruns the client parks. Every step is one lock acquisition,
together with what the fiber does up to the next one; chunks and the end arrive between any two.

* `RequestBody`: the object and its private methods, under the names of the source. The file is taken
  to hold what was written to it and to return what `pread` asks for;
* `Call`, `Value`: what the application calls, and what that returns;
* `Filling`: the call whose `fill` is running, with what its block closes on;
* `State`, `Action`, `step`, `system`: one fiber's calls, and the worker that pushes the body.
-/

set_option autoImplicit false

namespace Ruvoy.Input

open Runs
open Exchange (Gate)

/-- `READ_SIZE`. -/
def readSize : ℕ := 64 * 1024

/-- `KEPT_IN_MEMORY`. -/
def keptInMemory : ℕ := 128 * 1024

/-- Where the bytes pulled so far are: `@kept`, or `@file` once it is open. -/
inductive Storage
  | memory (kept : Bytes)
  | file (written : Bytes)
  deriving DecidableEq, Repr

/-- `byteslice` of what is kept, or `pread` of the file. -/
def Storage.slice (offset length : ℕ) : Storage → Bytes
  | .memory kept => (kept.drop offset).take length
  | .file written => (written.drop offset).take length

/-- `<<` to what is kept, or `write` to the file. -/
def Storage.append (chunk : Bytes) : Storage → Storage
  | .memory kept => .memory (kept ++ chunk)
  | .file written => .file (written ++ chunk)

structure RequestBody where
  storage : Storage := .memory []
  size : ℕ := 0
  position : ℕ := 0
  deriving DecidableEq, Repr

namespace RequestBody

variable (b : RequestBody)

def unread : ℕ := b.size - b.position

def peek (offset length : ℕ) : Bytes :=
  if 0 < min length (b.size - offset) then b.storage.slice offset (min length (b.size - offset)) else []

/-- `take`: the bytes, and the position behind them. -/
def take (length : ℕ) : Bytes × RequestBody :=
  (b.peek b.position length, { b with position := b.position + (b.peek b.position length).length })

/-- The loop of `search`, for a number of windows. -/
def searchIn (separator : Bytes) : ℕ → ℕ → Option ℕ
  | 0, _ => none
  | windows + 1, start =>
    if start < b.size then
      match Search.index (b.peek start (readSize + separator.length - 1)) separator with
      | some index => some (start + index)
      | none => searchIn separator windows (start + readSize)
    else none

/-- `search`: there are no more windows than bytes. -/
def search (separator : Bytes) (start : ℕ) : Option ℕ := b.searchIn separator (b.size - start) start

def keep (chunk : Bytes) : RequestBody :=
  let storage : Storage := match b.storage with
    | .memory kept =>
      if b.size + chunk.length > keptInMemory then .file kept else .memory kept
    | .file written => .file written
  { b with storage := storage.append chunk, size := b.size + chunk.length }

def rewind : RequestBody := { b with position := 0 }

end RequestBody

/-! ## Calls -/

inductive Call
  | read (length : Option ℕ)
  | gets (separator : Option Bytes)
  | each
  | rewind
  deriving DecidableEq, Repr

/-- What a call returns; for `each`, what it yielded. -/
inductive Value
  | nil
  | str (bytes : Bytes)
  | yielded (chunks : List Bytes)
  | zero
  | raised (error : BridgeError)
  deriving DecidableEq, Repr

/-- The call whose `fill` is running. -/
inductive Filling
  | readAll
  | read (length : ℕ)
  | getsAll
  /-- `start` is where the next search begins. -/
  | gets (separator : Bytes) (start : ℕ)
  /-- In the `read` of `each`, with the chunks yielded before. -/
  | each (yielded : List Bytes)
  deriving DecidableEq, Repr

def Filling.call : Filling → Call
  | .readAll => .read none
  | .read length => .read (some length)
  | .getsAll => .gets none
  | .gets separator _ => .gets (some separator)
  | .each _ => .each

structure State where
  source : Tracked
  /-- The chunks of the body that the worker is still to push. -/
  arriving : List Bytes
  body : RequestBody := {}
  /-- The call in progress, and how far its `fill` has come in this round. -/
  place : Option (Filling × Gate) := none
  /-- The calls that returned, in order. -/
  log : List (Call × Value) := []

namespace State

variable (s : State)

def enter (f : Filling) (g : Gate) : State := { s with place := some (f, g) }

def conclude (c : Call) (v : Value) : State := { s with place := none, log := s.log ++ [(c, v)] }

/-- `take`, and the call returns it. -/
def hand (c : Call) (length : ℕ) : State :=
  { s with body := (s.body.take length).2 }.conclude c (.str (s.body.take length).1)

/-- One round of the loop that pulls what has arrived. -/
def pull (f : Filling) : State :=
  let t := { s with source := s.source.takeNext }
  match s.source.stream.takeNext.1 with
  | some (.Chunk chunk) => { t with body := s.body.keep chunk }
  | some (.Failed error) => t.conclude f.call (.raised error)
  | _ => t.enter f .check

/-- What a call does after `fill`, with what its block found. -/
def answer (found : Option ℕ) : Filling → State
  | .readAll => s.hand (.read none) s.body.unread
  | .read length =>
    if s.body.unread = 0 then s.conclude (.read (some length)) .nil
    else s.hand (.read (some length)) (min length s.body.unread)
  | .getsAll =>
    if s.body.unread = 0 then s.conclude (.gets none) .nil else s.hand (.gets none) s.body.unread
  | .gets separator _ =>
    if s.body.unread = 0 then s.conclude (.gets (some separator)) .nil
    else s.hand (.gets (some separator))
      (found.elim s.body.unread fun index => index + separator.length - s.body.position)
  | .each yielded =>
    if s.body.unread = 0 then s.conclude .each (.yielded yielded)
    else
      { s with body := (s.body.take (min readSize s.body.unread)).2 }.enter
        (.each (yielded ++ [(s.body.take (min readSize s.body.unread)).1])) .take

/-- `finished?`. -/
def finished : Bool := s.source.stream.isFinished

/-- The block that `fill` is given. -/
def check : Filling → State
  | .readAll => if s.finished then s.answer none .readAll else s.enter .readAll .park
  | .read length =>
    if s.body.unread ≥ length || s.finished then s.answer none (.read length)
    else s.enter (.read length) .park
  | .getsAll => if s.finished then s.answer none .getsAll else s.enter .getsAll .park
  | .gets separator start =>
    let found := s.body.search separator start
    let next := max (s.body.size + 1 - separator.length) s.body.position
    if found.isSome || s.finished then s.answer found (.gets separator next)
    else s.enter (.gets separator next) .park
  | .each yielded =>
    if s.body.unread ≥ readSize || s.finished then s.answer none (.each yielded)
    else s.enter (.each yielded) .park

/-- The variable of the one reading fiber. -/
def readerVariable : Variable := 0

/-- The next step of the call in progress, when it does not wait. -/
def next : Option State :=
  match s.place with
  | some (f, .take) => some (s.pull f)
  | some (f, .check) => some (s.check f)
  | some (f, .park) =>
    some ({ s with source := s.source.park readerVariable }.enter f
      (if (s.source.stream.park readerVariable).1 then .parked else .take))
  | some (f, .leave) => some ({ s with source := s.source.unpark }.enter f .take)
  | some (_, .parked) | none => none

/-- A call begins; some return at once. -/
def begin : Call → State
  | .read none => s.enter .readAll .take
  | .read (some length) =>
    if length = 0 then s.conclude (.read (some length)) (.str []) else s.enter (.read length) .take
  | .gets none => s.enter .getsAll .take
  | .gets (some separator) => s.enter (.gets separator s.body.position) .take
  | .each => s.enter (.each []) .take
  | .rewind => { s with body := s.body.rewind }.conclude .rewind .zero

end State

inductive Action
  | call (c : Call)
  /-- The fiber goes on with its call. -/
  | next
  /-- The wait is over. -/
  | wake
  /-- The worker pushes the next chunk of the body, or the end behind the last. -/
  | push
  | finish
  deriving DecidableEq, Repr

def step (s : State) : Action → Option State
  | .call c => if s.place = none then some (s.begin c) else none
  | .next => s.next
  | .wake =>
    match s.place with
    | some (f, .parked) => some (s.enter f .leave)
    | _ => none
  | .push =>
    match s.arriving with
    | chunk :: rest => some { s with source := s.source.push (.Chunk chunk), arriving := rest }
    | [] => none
  | .finish =>
    match s.arriving with
    | [] => some { s with source := s.source.push .End }
    | _ => none

/-- A request whose body arrives in these chunks. -/
def system (chunks : List Bytes) : System State Action where
  init s := ∃ budget, s = { source := Tracked.new budget, arriving := chunks }
  step := step

end Ruvoy.Input
