import Ruvoy.Filter.Model

/-!
# What a filter can do

Each action with the condition under which it may come and what it leaves, as the invariants use them.

* `Moves`: the steps of the system, one by one;
* `watermark_moves`, `event_moves`, **`step_moves`**: there are no others.
-/

set_option autoImplicit false

namespace Ruvoy.Filter

open Runs

/-- What an action leaves, and when it may come. -/
inductive Moves (s : State) : Action → State → Prop
  -- Envoy's request callbacks
  | headers (hw : s.worker = .idle) (hf : s.stage = .fresh) (submission : State.Submission) (eos : Bool) :
      Moves s (.headers submission eos) (s.onRequestHeaders submission eos)
  | invalid (hw : s.worker = .idle) (hf : s.stage = .fresh) (message : String) (eos : Bool) :
      Moves s (.invalid message eos) (s.onInvalidRequest message eos)
  | body (hw : s.worker = .idle) (hl : s.stage = .live) (hd : s.clientDone = false) (bytes : Bytes)
      (eos : Bool) : Moves s (.body bytes eos) (s.onRequestBody (.own bytes) bytes eos)
  | redeliver (hw : s.worker = .idle) (hl : s.stage = .live) (hd : s.clientDone = false) (eos : Bool) :
      Moves s (.redeliver eos) (s.onRequestBody .buffered [] eos)
  | trailers (hw : s.worker = .idle) (hl : s.stage = .live) (hd : s.clientDone = false) :
      Moves s .trailers s.onRequestTrailers
  | buffer (hw : s.worker = .idle) (hn : s.stage ≠ .complete) (hd : s.clientDone = false)
      (bytes : Bytes) : Moves s (.buffer bytes)
        { s with retained := s.retained ++ bytes, client := s.client ++ bytes }
  -- the events of the two queues, and the watermarks
  | requestEvent (hw : s.worker = .idle) (hl : s.stage = .live) : Moves s (.event .request)
      { s with requestEvents := s.requestEvents - 1 }.forwardRequestBody
  | drain (hw : s.worker = .idle) (hl : s.stage = .live)
      (hgo : (s.state = .Waiting ∨ s.state = .Streaming) ∧ s.stream = true) :
      Moves s (.event .response)
        { s with responseEvents := s.responseEvents - 1, worker := .drainTake }
  | responseEvent (hw : s.worker = .idle) (hl : s.stage = .live)
      (hno : ¬ ((s.state = .Waiting ∨ s.state = .Streaming) ∧ s.stream = true)) :
      Moves s (.event .response) { s with responseEvents := s.responseEvents - 1 }
  | above (hm : s.watermarkable = true) (hs : s.stream = true) :
      Moves s .above { s with response := s.response.setPaused true }
  | below (hm : s.watermarkable = true) (hs : s.stream = true) : Moves s .below { s with
      response := s.response.setPaused false
      worker := .belowCommit (s.worker == .drainTake) }
  /-- A watermark finds no response queue. -/
  | released {a : Action} (ha : a = .above ∨ a = .below) (hs : s.stream = false) : Moves s a s
  | complete (hw : s.worker = .idle) (hn : s.stage ≠ .complete) :
      Moves s .complete { s.reportOutcome .cancelled with stage := .complete }
  | drop (hw : s.worker = .idle) : Moves s .drop { s with worker := .dropCancel }
  -- the worker in the middle of a callback
  | work {t : State} (ht : s.workStep = some t) : Moves s .work t
  | slices {source : BodySource} {limit before : ℕ} {buffers : List Bytes}
      (hw : s.worker = .forward (.slices source limit before)) (hlimit : limit ≠ 0)
      (hb : slicesOf (s.content source) buffers = true) :
      Moves s (.slices buffers) { s with worker := .forward (.copy source buffers limit 0 before) }
  -- the application
  | pushHead (hen : s.enqueued = true) (hno : s.headPushed = false) (head : ResponseHead) :
      Moves s (.pushHead head)
        { s.produce (s.response.push (.Head head)) (s.response.stream.push (.Head head)).1 with
          headPushed := (s.response.stream.push (.Head head)).1 }
  | pushFailure (hen : s.enqueued = true) (error : BridgeError) :
      Moves s (.pushFailure error) (s.produce (s.response.push (.Failed error)) true)
  | write (hh : s.headPushed = true) (bytes : Bytes) : Moves s (.write bytes)
      (s.produce (s.response.pushWithinBudget bytes)
        (decide (0 < (s.response.stream.pushChunkWithinBudget bytes).1.getD 0)))
  | finish (hh : s.headPushed = true) : Moves s .finish (s.produce (s.response.push .End) true)
  | wakeResponse (hp : 0 < s.responseWakes) : Moves s .wakeResponse
      { s with responseWakes := s.responseWakes - 1, responseEvents := s.responseEvents + 1 }
  | parkWriter (hh : s.headPushed = true) (hr : s.writer = .running) (v : Variable) :
      Moves s (.parkWriter v) (s.parkWriter v)
  | stopWriter {v : Variable} (hv : s.writer = .parked v) :
      Moves s .stopWriter { s with writer := .leaving }
  | leaveWriter (hv : s.writer = .leaving) :
      Moves s .leaveWriter { s with response := s.response.unpark, writer := .running }
  | takeRequest (hen : s.enqueued = true) : Moves s .takeRequest { s with
      request := s.request.takeNext
      requestWakes :=
        if s.request.stream.takeNext.1.isSome then s.requestWakes + 1 else s.requestWakes }
  | wakeRequest (hp : 0 < s.requestWakes) : Moves s .wakeRequest
      { s with requestWakes := s.requestWakes - 1, requestEvents := s.requestEvents + 1 }
  | parkReader (hen : s.enqueued = true) (v : Variable) :
      Moves s (.parkReader v) { s with request := s.request.park v }
  | leaveReader (hen : s.enqueued = true) :
      Moves s .leaveReader { s with request := s.request.unpark }
  -- the reactor
  | takeWakeups (hnil : s.resolving = []) :
      Moves s .takeWakeups { s with wakeups := [], resolving := s.wakeups }
  | resolve {q : Queue} {rest : List Queue} (hq : s.resolving = q :: rest) :
      Moves s .resolve (s.resolve q rest)

variable {s t : State} {a : Action}

theorem watermark_moves (hm : s.watermarkable = true) :
    Moves s .above (s.onWatermark true) ∧ Moves s .below (if s.stream then
      { s.onWatermark false with worker := .belowCommit (s.worker == .drainTake) } else s) := by
  unfold State.onWatermark
  by_cases hs : s.stream = true
  · simp only [if_pos hs]
    exact ⟨.above hm hs, .below hm hs⟩
  · simp only [if_neg hs]
    rw [Bool.not_eq_true] at hs
    exact ⟨.released (.inl rfl) hs, .released (.inr rfl) hs⟩

theorem event_moves {q : Queue} (ht : step s (.event q) = some t) : Moves s (.event q) t := by
  cases q with
  | request =>
    obtain ⟨hrest, rfl⟩ := of_guard ht
    obtain ⟨hw, hl⟩ := atRest_iff.mp hrest
    exact .requestEvent hw hl
  | response =>
    obtain ⟨hrest, ht⟩ := Option.ite_none_right_eq_some.mp ht
    obtain ⟨hw, hl⟩ := atRest_iff.mp hrest
    dsimp only at ht
    split_ifs at ht with hgo <;> cases ht
    · exact .drain hw hl hgo
    · exact .responseEvent hw hl hgo

/-- **What a step can do.** -/
theorem step_moves (ht : step s a = some t) : Moves s a t := by
  cases a with
  | headers submission eos =>
    obtain ⟨⟨hw, hf⟩, rfl⟩ := of_guard ht
    exact .headers hw hf submission eos
  | invalid message eos =>
    obtain ⟨⟨hw, hf⟩, rfl⟩ := of_guard ht
    exact .invalid hw hf message eos
  | body bytes eos =>
    obtain ⟨⟨hrest, hd⟩, rfl⟩ := of_guard ht
    exact .body (atRest_iff.mp hrest).1 (atRest_iff.mp hrest).2 hd bytes eos
  | redeliver eos =>
    obtain ⟨⟨hrest, hd⟩, rfl⟩ := of_guard ht
    exact .redeliver (atRest_iff.mp hrest).1 (atRest_iff.mp hrest).2 hd eos
  | trailers =>
    obtain ⟨⟨hrest, hd⟩, rfl⟩ := of_guard ht
    exact .trailers (atRest_iff.mp hrest).1 (atRest_iff.mp hrest).2 hd
  | buffer bytes =>
    obtain ⟨⟨hw, hn, hd⟩, rfl⟩ := of_guard ht
    exact .buffer hw hn hd bytes
  | event q => exact event_moves ht
  | above =>
    obtain ⟨hm, rfl⟩ := of_guard ht
    exact (watermark_moves hm).1
  | below =>
    obtain ⟨hm, rfl⟩ := of_guard ht
    exact (watermark_moves hm).2
  | complete =>
    obtain ⟨⟨hw, hn⟩, rfl⟩ := of_guard ht
    exact .complete hw hn
  | drop =>
    obtain ⟨hw, rfl⟩ := of_guard ht
    exact .drop hw
  | work => exact .work ht
  | slices buffers =>
    simp only [step] at ht
    split at ht
    case h_2 => cases ht
    next hw =>
      obtain ⟨⟨hlimit, hb⟩, rfl⟩ := of_guard ht
      exact .slices hw hlimit hb
  | pushHead head =>
    obtain ⟨⟨hen, hno⟩, rfl⟩ := of_guard ht
    exact .pushHead hen hno head
  | pushFailure error =>
    obtain ⟨hen, rfl⟩ := of_guard ht
    exact .pushFailure hen error
  | write bytes =>
    obtain ⟨hh, rfl⟩ := of_guard ht
    exact .write hh bytes
  | finish =>
    obtain ⟨hh, rfl⟩ := of_guard ht
    exact .finish hh
  | wakeResponse =>
    obtain ⟨hp, rfl⟩ := of_guard ht
    exact .wakeResponse hp
  | parkWriter v =>
    obtain ⟨⟨hh, hr⟩, rfl⟩ := of_guard ht
    exact .parkWriter hh hr v
  | stopWriter =>
    simp only [step] at ht
    split at ht <;> cases ht
    next hv => exact .stopWriter hv
  | leaveWriter =>
    obtain ⟨hv, rfl⟩ := of_guard ht
    exact .leaveWriter hv
  | takeRequest =>
    obtain ⟨hen, rfl⟩ := of_guard ht
    exact .takeRequest hen
  | wakeRequest =>
    obtain ⟨hp, rfl⟩ := of_guard ht
    exact .wakeRequest hp
  | parkReader v =>
    obtain ⟨hen, rfl⟩ := of_guard ht
    exact .parkReader hen v
  | leaveReader =>
    obtain ⟨hen, rfl⟩ := of_guard ht
    exact .leaveReader hen
  | takeWakeups =>
    obtain ⟨hnil, rfl⟩ := of_guard ht
    exact .takeWakeups hnil
  | resolve =>
    simp only [step] at ht
    split at ht <;> cases ht
    next hq => exact .resolve hq

end Ruvoy.Filter
