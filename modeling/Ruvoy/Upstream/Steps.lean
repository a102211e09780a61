import Ruvoy.Upstream.Model

/-!
# What an upstream can do

Each action with the condition under which it may come and what it leaves, as the invariants use them.

* `Moves`: the steps of the system, one by one;
* **`step_moves`**: there are no others.
-/

set_option autoImplicit false

namespace Ruvoy.Upstream

open Runs

/-- What an action leaves, and when it may come. -/
inductive Moves (s : State) : Action → State → Prop
  -- the fibers, on the Ruby thread
  | queue (hr : s.ruby = .idle) (cluster : String) (headers : Fields) (body : Bytes) (timeout : ℕ) :
      Moves s (.queue cluster headers body timeout) (s.queue cluster headers body timeout)
  | queueStream (hr : s.ruby = .idle) (cluster : String) (headers : Fields) (timeout : ℕ)
      (hasBody : Bool) : Moves s (.queueStream cluster headers timeout hasBody)
        (s.queueStream cluster headers timeout hasBody)
  | fiber {op : FiberOp} {t : State} (hr : s.ruby = .idle) (ht : s.fiber op = some t) :
      Moves s (.fiber op) t
  | ruby {t : State} (ht : s.rubyStep = some t) : Moves s .ruby t
  -- `on_scheduled`, `on_stream_complete` and `drop`
  | event (hidle : s.idle = true) (hs : s.stage ≠ .dropped) :
      Moves s .event { s with outer := if s.upstreams then [.takeCalls] else [] }
  | complete (hidle : s.idle = true) (hs : s.stage = .live) :
      Moves s .complete { s with stage := .complete, outer := [.abandon true] }
  | drop (hidle : s.idle = true) (hs : s.stage = .complete) :
      Moves s .drop { s with stage := .dropped, outer := [.abandon false] }
  -- what Envoy reports
  | calloutDone {id : ℕ} (hc : s.callable = true) (hid : id ∈ s.callouts) (hno : id ∉ s.answered)
      (result : CalloutResult) (headers : Option Headers) (body : Option (List Bytes)) :
      Moves s (.calloutDone id result headers body)
        { s.onHttpCalloutDone id result headers body with answered := id :: s.answered }
  | streamHeaders {k : ℕ} (hr : s.reports k = true) (headers : Headers) (endStream : Bool) :
      Moves s (.streamHeaders k headers endStream)
        (s.onOpenStream k (·.headersArrived headers endStream))
  | streamData {k : ℕ} (hr : s.reports k = true) (data : List Bytes) (endStream : Bool) :
      Moves s (.streamData k data endStream) (s.onOpenStream k (·.dataArrived k data endStream))
  | streamTrailers {k : ℕ} (hr : s.reports k = true) (trailers : Headers) :
      Moves s (.streamTrailers k trailers) (s.onOpenStream k (·.trailersArrived trailers))
  | streamComplete {k : ℕ} (hr : s.reports k = true) : Moves s (.streamComplete k)
      { s.onFinished k (fun o => OpenStream.close o.completed) with finished := k :: s.finished }
  | streamReset {k : ℕ} (hr : s.reports k = true) (reason : ResetReason) :
      Moves s (.streamReset k reason)
        { s.onFinished k (·.onReset reason) with finished := k :: s.finished }
  -- the worker in the middle of a callback, and Envoy under its calls
  | micro {m : Micro} {rest : List Micro} (hh : s.handler = m :: rest) :
      Moves s .work (s.micro m rest)
  | outerStep {o : Outer} {rest : List Outer} {t : State} (hh : s.handler = [])
      (ho : s.outer = o :: rest) (ht : s.outerStep o rest = some t) : Moves s .work t
  | returns {result : InitResult} {id : ℕ} {t : State} (ht : s.envoyReturns result id = some t) :
      Moves s (.returns result id) t
  | order {calls handles : List ℕ} {t : State} (ht : s.ordered calls handles = some t) :
      Moves s (.order calls handles) t
  -- the reactor
  | takeWakeups (hnil : s.resolving = []) :
      Moves s .takeWakeups { s with wakeups := [], resolving := s.wakeups }
  | resolve {r : Ref} {rest : List Ref} (hr : s.resolving = r :: rest) :
      Moves s .resolve { s.onQueue r (·.unpark) with resolving := rest }

variable {s t : State} {a : Action}

theorem work_moves (ht : step s .work = some t) : Moves s .work t := by
  simp only [step] at ht
  split at ht
  · next hh =>
    cases ht
    exact .micro hh
  · next hh ho => exact .outerStep hh ho ht
  · cases ht

/-- **What a step can do.** -/
theorem step_moves (ht : step s a = some t) : Moves s a t := by
  cases a with
  | queue cluster headers body timeout =>
    obtain ⟨hr, rfl⟩ := of_guard ht
    exact .queue hr cluster headers body timeout
  | queueStream cluster headers timeout hasBody =>
    obtain ⟨hr, rfl⟩ := of_guard ht
    exact .queueStream hr cluster headers timeout hasBody
  | fiber op =>
    obtain ⟨⟨hr, -⟩, ht⟩ := Option.ite_none_right_eq_some.mp ht
    exact .fiber hr ht
  | ruby => exact .ruby ht
  | event =>
    obtain ⟨⟨hidle, hs⟩, rfl⟩ := of_guard ht
    exact .event hidle hs
  | complete =>
    obtain ⟨⟨hidle, hs⟩, rfl⟩ := of_guard ht
    exact .complete hidle hs
  | drop =>
    obtain ⟨⟨hidle, hs⟩, rfl⟩ := of_guard ht
    exact .drop hidle hs
  | calloutDone id result headers body =>
    obtain ⟨⟨hc, hid, hno⟩, rfl⟩ := of_guard ht
    exact .calloutDone hc hid hno result headers body
  | streamHeaders k headers endStream =>
    obtain ⟨hr, rfl⟩ := of_guard ht
    exact .streamHeaders hr headers endStream
  | streamData k data endStream =>
    obtain ⟨hr, rfl⟩ := of_guard ht
    exact .streamData hr data endStream
  | streamTrailers k trailers =>
    obtain ⟨hr, rfl⟩ := of_guard ht
    exact .streamTrailers hr trailers
  | streamComplete k =>
    obtain ⟨hr, rfl⟩ := of_guard ht
    exact .streamComplete hr
  | streamReset k reason =>
    obtain ⟨hr, rfl⟩ := of_guard ht
    exact .streamReset hr reason
  | work => exact work_moves ht
  | returns result id => exact .returns ht
  | order calls handles => exact .order ht
  | takeWakeups =>
    obtain ⟨hnil, rfl⟩ := of_guard ht
    exact .takeWakeups hnil
  | resolve =>
    simp only [step] at ht
    split at ht <;> cases ht
    next hr => exact .resolve hr

end Ruvoy.Upstream
