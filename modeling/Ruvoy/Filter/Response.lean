import Ruvoy.Filter.Steps

/-!
# One response for a request

The response calls of the filter are those that the items it took call for, and the items were
accepted from one producer: a failure, or a head with what follows it.

* `Produced`: what the queue accepts of the application;
* `Wire`: the calls made and the items taken, by the state of the filter;
* `Counted`: the submission and the outcome of a request;
* `Word`: the calls Envoy may be made;
* **`response_well_formed`**: what holds of every run.
-/

set_option autoImplicit false

namespace Ruvoy.Filter

open Runs

/-- What the queue accepted: a failure alone, or a head and items that are no heads. -/
def Produced (accepted : List StreamItem) : Bool → Prop
  | true => ∃ head rest, accepted = .Head head :: rest ∧ ∀ x ∈ rest, x.isHead = false
  | false => accepted = [] ∨ ∃ error, accepted = [.Failed error]

/-- In `drain_stream`, or in a watermark callback from inside it. -/
def Worker.draining : Worker → Bool
  | .drainTake => true
  | .belowCommit draining => draining
  | _ => false

/-- The call that the last item of a response calls for. -/
def lastCall : StreamItem → EnvoyCall
  | .Failed _ => .resetStream "ruvoy_fiber_ruby_error"
  | _ => .sendResponseEnd

/-- The calls that a head and the chunks behind it call for. -/
def State.streamed (s : State) (head : ResponseHead) (chunks : List Bytes) : List EnvoyCall :=
  .sendResponseHeaders (s.responseHeaders head) :: chunks.map .sendResponseData

/-- The items that make up a head and the chunks behind it. -/
def streamedItems (head : ResponseHead) (chunks : List Bytes) : List StreamItem :=
  .Head head :: chunks.map .Chunk

/-- The items taken and the calls made, once the response is over. -/
inductive Settled (s : State) : Prop
  /-- The request was never submitted. -/
  | rejected (status : ℕ) (body details : String) (taken : s.response.taken = [])
    (calls : s.calls = [.sendResponse status body details])
  | failed (error : BridgeError) (taken : s.response.taken = [.Failed error])
    (calls : s.calls = [.sendResponse 500 error.display "ruvoy_fiber_ruby_error"])
  | streamed (head : ResponseHead) (chunks : List Bytes) (last : StreamItem)
    (terminal : last.terminal = true) (taken : s.response.taken = streamedItems head chunks ++ [last])
    (calls : s.calls = s.streamed head chunks ++ [lastCall last])

/-- The items taken and the calls made, by the state of the filter. -/
def Wire (s : State) : FilterState → Prop
  | .Collecting =>
    s.response.stream.cancelled = false ∧ s.response.taken = [] ∧ s.calls = []
  | .Waiting => s.response.taken = [] ∧ s.calls = []
  | .Streaming =>
    ∃ head chunks, s.response.taken = streamedItems head chunks ∧ s.calls = s.streamed head chunks
  | .Responded => s.response.stream.cancelled = false ∧ Settled s

/-- How a request that reached the application ended, by what was taken. -/
def outcomeOf (taken : List StreamItem) : Outcome :=
  if .End ∈ taken then .completed
  else if taken.any StreamItem.terminal then .failed
  else .cancelled

/-- Headers may still go out, or are out. -/
def FilterState.answering (f : FilterState) : Bool := f == .Waiting || f == .Streaming

/-- What was counted of the request. -/
structure Counted (s : State) : Prop where
  submissions : s.submissions = if s.accepted && s.config.metrics then 1 else 0
  pending : s.submittedAt = true →
    s.accepted = true ∧ s.outcomes = [] ∧ s.state.answering = true
  settled : s.submittedAt = false → s.accepted = true → s.config.metrics = true →
    s.outcomes = [outcomeOf s.response.taken]
  refused : s.accepted = false → s.outcomes = []

structure ResponseInv (s : State) : Prop where
  fresh : s.stage = .fresh → s.state = .Collecting ∧ s.accepted = false
  produced : Produced s.response.accepted s.headPushed
  wire : Wire s s.state
  held : s.stream = true → s.response.stream.cancelled = false ∧ s.state.answering = true
  draining : s.worker.draining = true → s.stream = true ∧ s.stage = .live
  running : s.stream = true → s.stage = .live → s.submittedAt = true
  ended : s.stage = .complete → s.submittedAt = false
  counted : Counted s

variable {s t : State}

theorem ResponseInv.init (config : Config) : ResponseInv { config := config } where
  fresh _ := ⟨rfl, rfl⟩
  produced := Or.inl rfl
  wire := ⟨rfl, rfl, rfl⟩
  held := by rintro ⟨⟩
  draining := by rintro ⟨⟩
  running := by rintro ⟨⟩
  ended := by rintro ⟨⟩
  counted := ⟨rfl, by rintro ⟨⟩, by rintro _ ⟨⟩, fun _ => rfl⟩

/-! ## Steps beside the response -/

/-- What the invariant speaks of, apart from the queue and where the worker is. -/
structure SameFilter (t s : State) : Prop where
  config : t.config = s.config
  state : t.state = s.state
  calls : t.calls = s.calls
  stream : t.stream = s.stream
  stage : t.stage = s.stage
  submittedAt : t.submittedAt = s.submittedAt
  accepted : t.accepted = s.accepted
  submissions : t.submissions = s.submissions
  outcomes : t.outcomes = s.outcomes

theorem wire_congr (hc : t.config = s.config) (hcalls : t.calls = s.calls)
    (ht : t.response.taken = s.response.taken)
    (hcan : t.response.stream.cancelled = s.response.stream.cancelled) {f : FilterState}
    (h : Wire s f) : Wire t f := by
  have hstr : t.streamed = s.streamed := by
    unfold State.streamed State.responseHeaders
    rw [hc]
  cases f with
  | Collecting => exact ⟨hcan.trans h.1, ht.trans h.2.1, hcalls.trans h.2.2⟩
  | Waiting => exact ⟨ht.trans h.1, hcalls.trans h.2⟩
  | Streaming =>
    obtain ⟨head, chunks, htaken, hsent⟩ := h
    exact ⟨head, chunks, ht.trans htaken, by rw [hcalls, hsent, hstr]⟩
  | Responded =>
    obtain ⟨hcan', hset⟩ := h
    refine ⟨hcan.trans hcan', ?_⟩
    cases hset with
    | rejected status body details htaken hsent =>
      exact .rejected status body details (ht.trans htaken) (hcalls.trans hsent)
    | failed error htaken hsent => exact .failed error (ht.trans htaken) (hcalls.trans hsent)
    | streamed head chunks last hlast htaken hsent =>
      exact .streamed head chunks last hlast (ht.trans htaken) (by rw [hcalls, hsent, hstr])

theorem Counted.frame (h : Counted s) (hs : SameFilter t s)
    (ht : t.response.taken = s.response.taken) : Counted t where
  submissions := by rw [hs.submissions, hs.accepted, hs.config]; exact h.submissions
  pending := by rw [hs.submittedAt, hs.accepted, hs.outcomes, hs.state]; exact h.pending
  settled := by rw [hs.submittedAt, hs.accepted, hs.config, hs.outcomes, ht]; exact h.settled
  refused := by rw [hs.accepted, hs.outcomes]; exact h.refused

theorem ResponseInv.frame (h : ResponseInv s) (hs : SameFilter t s)
    (ht : t.response.taken = s.response.taken)
    (hcan : t.response.stream.cancelled = s.response.stream.cancelled)
    (hp : Produced t.response.accepted t.headPushed)
    (hw : t.worker.draining = true → s.worker.draining = true ∨ s.stream = true ∧ s.stage = .live) :
    ResponseInv t where
  fresh := by rw [hs.stage, hs.state, hs.accepted]; exact h.fresh
  produced := hp
  wire := by rw [hs.state]; exact wire_congr hs.config hs.calls ht hcan h.wire
  held := by rw [hs.stream, hs.state, hcan]; exact h.held
  draining hd := by
    rw [hs.stream, hs.stage]
    exact (hw hd).elim h.draining id
  running := by rw [hs.stream, hs.stage, hs.submittedAt]; exact h.running
  ended := by rw [hs.stage, hs.submittedAt]; exact h.ended
  counted := h.counted.frame hs ht

theorem ResponseInv.beside (h : ResponseInv s) (hs : SameFilter t s)
    (ha : t.response.accepted = s.response.accepted)
    (ht : t.response.taken = s.response.taken)
    (hcan : t.response.stream.cancelled = s.response.stream.cancelled)
    (hp : t.headPushed = s.headPushed)
    (hw : t.worker.draining = true → s.worker.draining = true ∨ s.stream = true ∧ s.stage = .live) :
    ResponseInv t := by
  refine h.frame hs ht hcan ?_ hw
  rw [ha, hp]
  exact h.produced

/-! ## The application -/

theorem produced_head (h : Produced s.response.accepted false) (head : ResponseHead) :
    Produced (s.response.push (.Head head)).accepted (s.response.stream.push (.Head head)).1 := by
  rcases s.response.push_cases (.Head head) with ⟨hshut, hq⟩ | ⟨hc, he, ha, -, -⟩
  · rw [hq, ResponseStream.push_of_shut hshut]
    exact h
  · rw [ha, (ResponseStream.push_of_open hc he _).1]
    rcases h with hnil | ⟨error, hfail⟩
    · exact ⟨head, [], by rw [hnil]; rfl, by rintro _ ⟨⟩⟩
    · -- a queue that accepted a failure has ended
      rw [← s.response.any_terminal, hfail] at he
      cases he

theorem Produced.append {accepted : List StreamItem} (h : Produced accepted true) {x : StreamItem}
    (hx : x.isHead = false) : Produced (accepted ++ [x]) true := by
  obtain ⟨head, rest, ha, hrest⟩ := h
  refine ⟨head, rest ++ [x], by rw [ha]; rfl, fun y hy => ?_⟩
  rcases List.mem_append.mp hy with hy | hy
  · exact hrest y hy
  · rw [List.mem_singleton.mp hy]
    exact hx

theorem produced_push (h : Produced s.response.accepted true) {x : StreamItem}
    (hx : x.isHead = false) : Produced (s.response.push x).accepted true := by
  rcases s.response.push_cases x with ⟨-, hq⟩ | ⟨-, -, ha, -, -⟩
  · rw [hq]
    exact h
  · rw [ha]
    exact h.append hx

theorem produced_failure {headPushed : Bool} (h : Produced s.response.accepted headPushed)
    (error : BridgeError) : Produced (s.response.push (.Failed error)).accepted headPushed := by
  cases headPushed with
  | true => exact produced_push h rfl
  | false =>
    rcases s.response.push_cases (.Failed error) with ⟨-, hq⟩ | ⟨-, he, ha, -, -⟩
    · rw [hq]
      exact h
    · rw [ha]
      rcases h with hnil | ⟨error', hfail⟩
      · exact Or.inr ⟨error, by rw [hnil]; rfl⟩
      · rw [← s.response.any_terminal, hfail] at he
        cases he

theorem produced_write (h : Produced s.response.accepted true) (bytes : Bytes) :
    Produced (s.response.pushWithinBudget bytes).accepted true := by
  rcases s.response.pushWithinBudget_cases bytes with ha | ⟨c, ha⟩
  · rw [ha]
    exact h
  · rw [ha]
    exact h.append rfl

/-! ## The drain -/

/-- The first item accepted is the head, or the failure that came before one. -/
theorem Produced.first {x : StreamItem} {rest : List StreamItem} {headPushed : Bool}
    (h : Produced (x :: rest) headPushed) : (∃ head, x = .Head head) ∨ ∃ error, x = .Failed error := by
  cases headPushed with
  | true =>
    obtain ⟨head, _, ha, -⟩ := h
    exact Or.inl ⟨head, (List.cons.inj ha).1⟩
  | false =>
    rcases h with hnil | ⟨error, hfail⟩
    · cases hnil
    · exact Or.inr ⟨error, (List.cons.inj hfail).1⟩

/-- What is accepted behind a head is no head. -/
theorem Produced.behind {head : ResponseHead} {rest : List StreamItem} {headPushed : Bool}
    (h : Produced (.Head head :: rest) headPushed) {x : StreamItem} (hx : x ∈ rest) :
    x.isHead = false := by
  cases headPushed with
  | true =>
    obtain ⟨_, _, ha, hrest⟩ := h
    rw [(List.cons.inj ha).2] at hx
    exact hrest x hx
  | false =>
    rcases h with hnil | ⟨error, hfail⟩
    · cases hnil
    · cases (List.cons.inj hfail).1

theorem outcomeOf_streamed_end (head : ResponseHead) (chunks : List Bytes) :
    outcomeOf (streamedItems head chunks ++ [.End]) = .completed := by
  simp [outcomeOf]

theorem outcomeOf_failed {taken : List StreamItem} (h : .End ∉ taken) (error : BridgeError) :
    outcomeOf (taken ++ [.Failed error]) = .failed := by
  simp [outcomeOf, h]

theorem end_not_streamed (head : ResponseHead) (chunks : List Bytes) :
    .End ∉ streamedItems head chunks := by
  simp [streamedItems]

/-- Nothing that ends a response was taken while headers may still go out, or only they and chunks
are out. -/
theorem Wire.outcome_of_answering {f : FilterState} (h : Wire s f) (hf : f.answering = true) :
    outcomeOf s.response.taken = .cancelled := by
  match f with
  | .Waiting => rw [h.1]; rfl
  | .Streaming =>
    obtain ⟨head, chunks, ht, -⟩ := h
    rw [ht, outcomeOf, if_neg (end_not_streamed head chunks)]
    simp [streamedItems, List.any_map]
  | .Collecting | .Responded => cases hf

/-- `report_outcome` counts one outcome of a request that reached the application. -/
theorem Counted.report (h : Counted s) {o : Outcome} (hcfg : t.config = s.config)
    (hacc : t.accepted = s.accepted) (hsub : t.submissions = s.submissions)
    (hat : t.submittedAt = false)
    (hout : t.outcomes = (s.reportOutcome o).outcomes)
    (ho : s.submittedAt = true → outcomeOf t.response.taken = o)
    (hkeep : s.submittedAt = false → t.response.taken = s.response.taken) : Counted t := by
  refine ⟨by rw [hsub, hacc, hcfg]; exact h.submissions, by rw [hat]; rintro ⟨⟩, fun _ hok hm => ?_, ?_⟩
  · rw [hacc] at hok
    rw [hcfg] at hm
    cases hs : s.submittedAt with
    | true =>
      obtain ⟨-, hnone, -⟩ := h.pending hs
      rw [hout, State.reportOutcome, hm, hs, hnone, ho hs]
      rfl
    | false =>
      rw [hout, State.reportOutcome, hm, hs, hkeep hs]
      exact h.settled hs hok hm
  · intro hno
    rw [hacc] at hno
    have hs : s.submittedAt = false := by
      by_contra hn
      have hok := (h.pending (by simpa using hn)).1
      rw [hno] at hok
      cases hok
    rw [hout, State.reportOutcome, hs, Bool.and_false]
    exact h.refused hno

theorem ResponseInv.goOn (h : ResponseInv s) (hd : s.worker.draining = true)
    (ha : t.response.accepted = s.response.accepted) (hp : t.headPushed = s.headPushed)
    (hcan : t.response.stream.cancelled = s.response.stream.cancelled)
    (hcfg : t.config = s.config) (hstream : t.stream = s.stream) (hstage : t.stage = s.stage)
    (hat : t.submittedAt = s.submittedAt) (hacc : t.accepted = s.accepted)
    (hsub : t.submissions = s.submissions) (hout : t.outcomes = s.outcomes)
    (hstate : t.state = .Streaming) (hwire : Wire t .Streaming) : ResponseInv t := by
  obtain ⟨hheld, hlive⟩ := h.draining hd
  have hs := h.running hheld hlive
  obtain ⟨hok, hnone, -⟩ := h.counted.pending hs
  refine ⟨?_, ?_, ?_, ?_, ?_, ?_, ?_, ?_, ?_, ?_, ?_⟩
  · rw [hstage, hlive]
    rintro ⟨⟩
  · rw [ha, hp]
    exact h.produced
  · rw [hstate]
    exact hwire
  · intro _
    rw [hcan, hstate]
    exact ⟨(h.held hheld).1, rfl⟩
  · intro _
    rw [hstream, hstage]
    exact ⟨hheld, hlive⟩
  · intro _ _
    rw [hat]
    exact hs
  · rw [hstage, hlive]
    rintro ⟨⟩
  · rw [hsub, hacc, hcfg]
    exact h.counted.submissions
  · intro _
    rw [hacc, hout, hstate]
    exact ⟨hok, hnone, rfl⟩
  · rw [hat, hs]
    rintro ⟨⟩
  · rw [hacc, hok]
    rintro ⟨⟩

theorem ResponseInv.finish (h : ResponseInv s) (hd : s.worker.draining = true) {o : Outcome}
    (ha : t.response.accepted = s.response.accepted) (hp : t.headPushed = s.headPushed)
    (hcfg : t.config = s.config) (hstream : t.stream = false) (hstage : t.stage = s.stage)
    (hat : t.submittedAt = false) (hacc : t.accepted = s.accepted)
    (hsub : t.submissions = s.submissions) (hout : t.outcomes = (s.reportOutcome o).outcomes)
    (hstate : t.state = .Responded) (hw : t.worker = .idle) (hwire : Wire t .Responded)
    (ho : outcomeOf t.response.taken = o) : ResponseInv t := by
  obtain ⟨hheld, hlive⟩ := h.draining hd
  have hs := h.running hheld hlive
  refine ⟨?_, ?_, ?_, ?_, ?_, ?_, ?_, ?_⟩
  · rw [hstage, hlive]
    rintro ⟨⟩
  · rw [ha, hp]
    exact h.produced
  · rw [hstate]
    exact hwire
  · rw [hstream]
    rintro ⟨⟩
  · rw [hw]
    rintro ⟨⟩
  · rw [hstream]
    rintro ⟨⟩
  · exact fun _ => hat
  · refine h.counted.report hcfg hacc hsub hat hout (fun _ => ho) fun hn => ?_
    rw [hs] at hn
    cases hn

/-- **One round of the loop of `drain_stream`.** -/
theorem ResponseInv.drainStep (h : ResponseInv s) (hw : s.worker = .drainTake) :
    ResponseInv s.drainStep := by
  have hd : s.worker.draining = true := by rw [hw]; rfl
  obtain ⟨hheld, -⟩ := h.draining hd
  obtain ⟨hcan, hans⟩ := h.held hheld
  have hcan' : s.response.takeNext.stream.cancelled = s.response.stream.cancelled :=
    ResponseStream.takeNext_cancelled
  have hwire := h.wire
  rcases s.response.takeNext_cases with ⟨-, hnone, hq⟩ | ⟨x, rest, hitems, hsome, ha, htaken, -⟩
  · unfold State.drainStep
    rw [hnone, hq]
    exact h.beside ⟨rfl, rfl, rfl, rfl, rfl, rfl, rfl, rfl, rfl⟩ rfl rfl rfl rfl (by rintro ⟨⟩)
  · have hprod := h.produced
    rw [← s.response.conserve hcan, hitems] at hprod
    cases hstate : s.state with
    | Waiting =>
      rw [hstate] at hwire
      obtain ⟨hnil, hcalls⟩ := hwire
      rw [hnil] at hprod htaken
      -- nothing was taken before, so this is the first item
      rcases hprod.first with ⟨head, rfl⟩ | ⟨error, rfl⟩
      · simp only [State.drainStep, hsome, State.drainItem, hstate, if_true]
        refine h.goOn hd ha rfl hcan' rfl rfl rfl rfl rfl rfl rfl rfl ⟨head, [], htaken, ?_⟩
        show s.calls ++ _ = _
        rw [hcalls]
        rfl
      · simp only [State.drainStep, hsome, State.drainItem, hstate, if_true]
        refine h.finish (o := .failed) hd ha rfl rfl rfl rfl rfl rfl rfl rfl rfl rfl ⟨?_, ?_⟩ ?_
        · exact hcan'.trans hcan
        · refine .failed error htaken ?_
          show s.calls ++ _ = _
          rw [hcalls]
          rfl
        · show outcomeOf s.response.takeNext.taken = _
          rw [htaken]
          rfl
    | Streaming =>
      rw [hstate] at hwire
      obtain ⟨head, chunks, htaken', hcalls⟩ := hwire
      rw [htaken'] at hprod htaken
      have hx : x.isHead = false :=
        hprod.behind (List.mem_append_right _ List.mem_cons_self)
      cases x with
      | Head _ => cases hx
      | Chunk chunk =>
        simp only [State.drainStep, hsome, State.drainItem, hstate, if_true]
        refine h.goOn hd ha rfl hcan' rfl rfl rfl rfl rfl rfl rfl rfl
          ⟨head, chunks ++ [chunk], ?_, ?_⟩
        · show s.response.takeNext.taken = _
          rw [htaken]
          simp [streamedItems]
        · show s.calls ++ _ = _
          rw [hcalls]
          simp [State.streamed, State.responseHeaders]
      | End =>
        simp only [State.drainStep, hsome, State.drainItem, hstate, if_true]
        refine h.finish (o := .completed) hd ha rfl rfl rfl rfl rfl rfl rfl rfl rfl rfl ⟨?_, ?_⟩ ?_
        · exact hcan'.trans hcan
        · refine .streamed head chunks .End rfl htaken ?_
          show s.calls ++ _ = _
          rw [hcalls]
          rfl
        · show outcomeOf s.response.takeNext.taken = _
          rw [htaken]
          exact outcomeOf_streamed_end head chunks
      | Failed error =>
        simp only [State.drainStep, hsome, State.drainItem, hstate, reduceCtorEq, if_false]
        refine h.finish (o := .failed) hd ha rfl rfl rfl rfl rfl rfl rfl rfl rfl rfl ⟨?_, ?_⟩ ?_
        · exact hcan'.trans hcan
        · refine .streamed head chunks (.Failed error) rfl htaken ?_
          show s.calls ++ _ = _
          rw [hcalls]
          rfl
        · show outcomeOf s.response.takeNext.taken = _
          rw [htaken]
          exact outcomeOf_failed (end_not_streamed head chunks) error
    | Collecting | Responded =>
      rw [hstate] at hans
      cases hans

/-! ## Every step -/

theorem SameFilter.of_request (hs : t = { s with
      request := t.request
      requestEndPending := t.requestEndPending
      retained := t.retained
      frame := t.frame
      client := t.client
      clientDone := t.clientDone
      requestEvents := t.requestEvents
      wakeups := t.wakeups
      worker := t.worker }) : SameFilter t s := by
  refine ⟨?_, ?_, ?_, ?_, ?_, ?_, ?_, ?_, ?_⟩ <;> rw [hs]

theorem ResponseInv.ofRequest (h : ResponseInv s) (hs : t = { s with
      request := t.request
      requestEndPending := t.requestEndPending
      retained := t.retained
      frame := t.frame
      client := t.client
      clientDone := t.clientDone
      requestEvents := t.requestEvents
      wakeups := t.wakeups
      worker := t.worker })
    (hw : t.worker.draining = true → s.worker.draining = true) : ResponseInv t := by
  refine h.beside (.of_request hs) ?_ ?_ ?_ ?_ fun hd => Or.inl (hw hd) <;> rw [hs]

theorem not_draining_of_forward {w : Worker} (h : w = .idle ∨ ∃ k, w = .forward k) :
    w.draining = false := by
  rcases h with rfl | ⟨k, rfl⟩ <;> rfl

theorem ResponseInv.dropCancel (h : ResponseInv s) (hheld : s.stream = true) :
    ResponseInv { s with
      stream := false
      released := true
      response := s.response.cancel
      worker := .dropCheck } := by
  have hans := (h.held hheld).2
  refine ⟨h.fresh, h.produced, ?_, by rintro ⟨⟩, by rintro ⟨⟩, by rintro ⟨⟩, h.ended, ?_⟩
  · show Wire _ s.state
    have hwire := h.wire
    cases hf : s.state with
    | Waiting =>
      rw [hf] at hwire
      exact hwire
    | Streaming =>
      rw [hf] at hwire
      exact hwire
    | Collecting | Responded =>
      rw [hf] at hans
      cases hans
  · exact ⟨h.counted.submissions, h.counted.pending, h.counted.settled, h.counted.refused⟩

theorem ResponseInv.workStep (h : ResponseInv s) (ht : s.workStep = some t) : ResponseInv t := by
  cases hw : s.worker with
  | forward k =>
    simp only [State.workStep, hw] at ht
    obtain ⟨hs, hk, -⟩ := forwardStep_frame ht
    refine h.ofRequest ?_ fun hd => ?_
    · rw [hs]
    · rw [not_draining_of_forward hk] at hd
      cases hd
  | drainTake =>
    simp only [State.workStep, hw, Option.some.injEq] at ht
    subst ht
    exact h.drainStep hw
  | belowCommit draining =>
    simp only [State.workStep, hw, Option.some.injEq] at ht
    subst ht
    refine h.beside ⟨rfl, rfl, rfl, rfl, rfl, rfl, rfl, rfl, rfl⟩ rfl rfl rfl rfl fun hd => ?_
    rw [hw]
    cases draining with
    | true => exact Or.inl rfl
    | false => cases hd
  | drainCheck | dropCheck =>
    simp only [State.workStep, hw, Option.some.injEq] at ht
    subst ht
    refine h.beside ⟨rfl, rfl, rfl, rfl, rfl, rfl, rfl, rfl, rfl⟩ rfl rfl rfl rfl fun hd => ?_
    dsimp only at hd
    split_ifs at hd <;> cases hd
  | drainWake | drainDone | dropWake | dropRequestWake =>
    simp only [State.workStep, hw, Option.some.injEq] at ht
    subst ht
    exact h.beside ⟨rfl, rfl, rfl, rfl, rfl, rfl, rfl, rfl, rfl⟩ rfl rfl rfl rfl (by rintro ⟨⟩)
  | dropCancel =>
    simp only [State.workStep, hw] at ht
    split_ifs at ht with hheld <;> cases ht
    · exact h.dropCancel hheld
    · exact h.beside ⟨rfl, rfl, rfl, rfl, rfl, rfl, rfl, rfl, rfl⟩ rfl rfl rfl rfl (by rintro ⟨⟩)
  | dropRequest =>
    simp only [State.workStep, hw] at ht
    split_ifs at ht <;> cases ht <;>
      exact h.beside ⟨rfl, rfl, rfl, rfl, rfl, rfl, rfl, rfl, rfl⟩ rfl rfl rfl rfl (by rintro ⟨⟩)
  | idle | dropped => simp [State.workStep, hw] at ht

/-- What `submit` comes to, before the body is looked at. -/
theorem ResponseInv.submit (h : ResponseInv s) (hw : s.worker = .idle) (hf : s.stage = .fresh)
    (submission : State.Submission) (eos : Bool) :
    ResponseInv { s.submit submission with
      stage := .live
      clientDone := eos
      requestEndPending := eos } := by
  obtain ⟨hstate, hacc⟩ := h.fresh hf
  have hwire := h.wire
  rw [hstate] at hwire
  obtain ⟨hcan, htaken, hcalls⟩ := hwire
  have hsub := h.counted.submissions
  rw [hacc, Bool.false_and, if_neg Bool.false_ne_true] at hsub
  have hout := h.counted.refused hacc
  cases submission with
  | accepted =>
    refine ⟨by rintro ⟨⟩, h.produced, ⟨htaken, hcalls⟩, fun _ => ⟨hcan, rfl⟩, fun hd => ?_,
      fun _ _ => rfl, by rintro ⟨⟩, ?_, fun _ => ⟨rfl, hout, rfl⟩, by rintro ⟨⟩, by rintro ⟨⟩⟩
    · have hd' : s.worker.draining = true := hd
      rw [hw] at hd'
      cases hd'
    · show (if s.config.metrics then s.submissions + 1 else s.submissions) =
        if (true && s.config.metrics) then 1 else 0
      rw [hsub, Bool.true_and]
  | refused error enqueued =>
    have hat : s.submittedAt = false := by
      by_contra hn
      have hans := (h.counted.pending (by simpa using hn)).2.2
      rw [hstate] at hans
      cases hans
    refine ⟨by rintro ⟨⟩, h.produced, ⟨hcan, ?_⟩, by rintro ⟨⟩, fun hd => ?_,
      by rintro ⟨⟩, by rintro ⟨⟩, h.counted.submissions, fun hs => ?_, fun _ hok => ?_, fun _ => hout⟩
    · refine .rejected 503 error.display "ruvoy_fiber_submit_failed" htaken ?_
      show s.calls ++ _ = _
      rw [hcalls]
      rfl
    · have hd' : s.worker.draining = true := hd
      rw [hw] at hd'
      cases hd'
    · exact absurd (hat.symm.trans hs) Bool.false_ne_true
    · exact absurd (hacc.symm.trans hok) Bool.false_ne_true

theorem ResponseInv.forwardRequestBody (h : ResponseInv s) : ResponseInv s.forwardRequestBody := by
  obtain ⟨hs, hk⟩ := forwardRequestBody_frame (s := s)
  refine h.ofRequest ?_ fun hd => ?_
  · rw [hs]
  · rw [not_draining_of_forward hk] at hd
    cases hd

theorem ResponseInv.onInvalidRequest (h : ResponseInv s) (hw : s.worker = .idle)
    (hf : s.stage = .fresh) (message : String) (eos : Bool) :
    ResponseInv (s.onInvalidRequest message eos) := by
  obtain ⟨hstate, hacc⟩ := h.fresh hf
  have hwire := h.wire
  rw [hstate] at hwire
  obtain ⟨hcan, htaken, hcalls⟩ := hwire
  have hstream : s.stream = false := by
    by_contra hn
    have hans := (h.held (by simpa using hn)).2
    rw [hstate] at hans
    cases hans
  have hat : s.submittedAt = false := by
    by_contra hn
    have hans := (h.counted.pending (by simpa using hn)).2.2
    rw [hstate] at hans
    cases hans
  refine ⟨by rintro ⟨⟩, h.produced, ⟨hcan, ?_⟩, fun hn => ?_, fun hd => ?_, fun hn => ?_, by rintro ⟨⟩,
    h.counted.submissions, fun hs => ?_, fun _ hok => ?_, h.counted.refused⟩
  · refine .rejected 400 message "ruvoy_fiber_invalid_request" htaken ?_
    show s.calls ++ _ = _
    rw [hcalls]
    rfl
  · exact absurd (hstream.symm.trans hn) Bool.false_ne_true
  · have hd' : s.worker.draining = true := hd
    rw [hw] at hd'
    cases hd'
  · exact absurd (hstream.symm.trans hn) Bool.false_ne_true
  · exact absurd (hat.symm.trans hs) Bool.false_ne_true
  · exact absurd (hacc.symm.trans hok) Bool.false_ne_true

/-- `on_stream_complete`: a request with no outcome yet was cancelled. -/
theorem ResponseInv.complete (h : ResponseInv s) (hw : s.worker = .idle) :
    ResponseInv { s.reportOutcome .cancelled with stage := .complete } := by
  refine ⟨by rintro ⟨⟩, h.produced, ?_, h.held, fun hd => ?_, by rintro _ ⟨⟩, fun _ => rfl, ?_⟩
  · show Wire _ s.state
    refine wire_congr ?_ ?_ ?_ ?_ h.wire <;> rfl
  · have hd' : s.worker.draining = true := hd
    rw [hw] at hd'
    cases hd'
  · refine h.counted.report (o := .cancelled) rfl rfl rfl rfl rfl (fun hs => ?_) fun _ => rfl
    exact h.wire.outcome_of_answering (h.counted.pending hs).2.2

theorem ResponseInv.onRequestHeaders (h : ResponseInv s) (hw : s.worker = .idle) (hf : s.stage = .fresh)
    (submission : State.Submission) (eos : Bool) : ResponseInv (s.onRequestHeaders submission eos) := by
  have hsub := h.submit hw hf submission eos
  unfold State.onRequestHeaders
  dsimp only
  split_ifs
  · exact hsub.forwardRequestBody
  · exact hsub

theorem ResponseInv.push (h : ResponseInv s) (hh : s.headPushed = true) :
    (∀ bytes, ResponseInv (s.produce (s.response.pushWithinBudget bytes)
        (decide (0 < (s.response.stream.pushChunkWithinBudget bytes).1.getD 0)))) ∧
      ResponseInv (s.produce (s.response.push .End) true) := by
  refine ⟨fun bytes => ?_, ?_⟩
  · refine h.frame ⟨rfl, rfl, rfl, rfl, rfl, rfl, rfl, rfl, rfl⟩ rfl
      (ResponseStream.pushChunkWithinBudget_cancelled _) ?_ Or.inl
    show Produced _ s.headPushed
    rw [hh]
    exact produced_write (hh ▸ h.produced) bytes
  · refine h.frame ⟨rfl, rfl, rfl, rfl, rfl, rfl, rfl, rfl, rfl⟩ rfl
      (ResponseStream.push_cancelled _) ?_ Or.inl
    show Produced _ s.headPushed
    rw [hh]
    exact produced_push (hh ▸ h.produced) rfl

theorem ResponseInv.step (h : ResponseInv s) {a : Action} (ht : step s a = some t) :
    ResponseInv t := by
  cases step_moves ht with
  | headers hw hf submission eos => exact h.onRequestHeaders hw hf submission eos
  | invalid hw hf message eos => exact h.onInvalidRequest hw hf message eos
  | body | redeliver | trailers | requestEvent =>
    exact ResponseInv.forwardRequestBody (h.ofRequest rfl id)
  | buffer => exact h.ofRequest rfl id
  | drain _ hl hgo =>
    exact h.beside ⟨rfl, rfl, rfl, rfl, rfl, rfl, rfl, rfl, rfl⟩ rfl rfl rfl rfl
      fun _ => Or.inr ⟨hgo.2, hl⟩
  | below =>
    refine h.beside ⟨rfl, rfl, rfl, rfl, rfl, rfl, rfl, rfl, rfl⟩ rfl rfl rfl rfl fun hd => ?_
    refine Or.inl ?_
    rw [show s.worker = .drainTake from eq_of_beq hd]
    rfl
  | released => exact h
  | complete hw => exact h.complete hw
  | drop =>
    exact h.beside ⟨rfl, rfl, rfl, rfl, rfl, rfl, rfl, rfl, rfl⟩ rfl rfl rfl rfl (by rintro ⟨⟩)
  | work ht => exact h.workStep ht
  | slices => exact h.ofRequest rfl (by rintro ⟨⟩)
  | pushHead _ hno head =>
    refine h.frame ⟨rfl, rfl, rfl, rfl, rfl, rfl, rfl, rfl, rfl⟩ rfl
      (ResponseStream.push_cancelled _) ?_ Or.inl
    exact produced_head (hno ▸ h.produced) head
  | pushFailure _ error =>
    exact h.frame ⟨rfl, rfl, rfl, rfl, rfl, rfl, rfl, rfl, rfl⟩ rfl
      (ResponseStream.push_cancelled _) (produced_failure h.produced error) Or.inl
  | write hh bytes => exact (h.push hh).1 bytes
  | finish hh => exact (h.push hh).2
  | parkWriter _ _ v =>
    exact h.beside ⟨rfl, rfl, rfl, rfl, rfl, rfl, rfl, rfl, rfl⟩ rfl rfl
      (ResponseStream.parkWriter_cancelled v) rfl Or.inl
  | @resolve q =>
    cases q <;> exact h.beside ⟨rfl, rfl, rfl, rfl, rfl, rfl, rfl, rfl, rfl⟩ rfl rfl rfl rfl Or.inl
  | _ => exact h.beside ⟨rfl, rfl, rfl, rfl, rfl, rfl, rfl, rfl, rfl⟩ rfl rfl rfl rfl Or.inl

theorem ResponseInv.of_reachable (h : system.Reachable s) : ResponseInv s := by
  refine h.induct ?_ ?_
  · rintro _ ⟨config, rfl⟩
    exact .init config
  · intro s a t hs _ ht
    exact hs.step ht

/-! ## What holds of every run -/

/-- The response calls Envoy may be made for one request. -/
inductive Word : List EnvoyCall → Prop
  | nothing : Word []
  | reply (status : ℕ) (body details : String) : Word [.sendResponse status body details]
  | streaming (headers : List (String × String)) (data : List Bytes) :
    Word (.sendResponseHeaders headers :: data.map .sendResponseData)
  | ended (headers : List (String × String)) (data : List Bytes) :
    Word (.sendResponseHeaders headers :: data.map .sendResponseData ++ [.sendResponseEnd])
  | reset (headers : List (String × String)) (data : List Bytes) (details : String) :
    Word (.sendResponseHeaders headers :: data.map .sendResponseData ++ [.resetStream details])

/-- The bytes of the response data sent. -/
def sentData (calls : List EnvoyCall) : Bytes :=
  calls.flatMap fun
    | .sendResponseData chunk => chunk
    | _ => []

theorem sentData_streamed (head : ResponseHead) (chunks : List Bytes) :
    sentData (s.streamed head chunks) = bodyOf (streamedItems head chunks) := by
  simp [sentData, State.streamed, bodyOf, streamedItems, List.flatMap_map, StreamItem.bytes]

theorem sentData_last (calls : List EnvoyCall) (x : StreamItem) :
    sentData (calls ++ [lastCall x]) = sentData calls := by
  cases x <;> simp [sentData, lastCall]

theorem bodyOf_last (items : List StreamItem) {x : StreamItem} (hx : x.terminal = true) :
    bodyOf (items ++ [x]) = bodyOf items := by
  match x with
  | .Head _ | .Chunk _ => cases hx
  | .End | .Failed _ => simp

theorem word_of_wire {f : FilterState} (h : Wire s f) : Word s.calls := by
  cases f with
  | Collecting => rw [h.2.2]; exact .nothing
  | Waiting => rw [h.2]; exact .nothing
  | Streaming =>
    obtain ⟨head, chunks, -, hcalls⟩ := h
    rw [hcalls]
    exact .streaming _ chunks
  | Responded =>
    cases h.2 with
    | rejected status body details _ hcalls => rw [hcalls]; exact .reply status body details
    | failed error _ hcalls => rw [hcalls]; exact .reply 500 _ _
    | streamed head chunks last hlast _ hcalls =>
      rw [hcalls]
      match last with
      | .Head _ | .Chunk _ => cases hlast
      | .End => exact .ended _ chunks
      | .Failed _ => exact .reset _ chunks _

theorem sentData_of_wire {f : FilterState} (h : Wire s f) :
    sentData s.calls = bodyOf s.response.taken := by
  cases f with
  | Collecting => rw [h.2.1, h.2.2]; rfl
  | Waiting => rw [h.1, h.2]; rfl
  | Streaming =>
    obtain ⟨head, chunks, htaken, hcalls⟩ := h
    rw [hcalls, htaken, sentData_streamed]
  | Responded =>
    cases h.2 with
    | rejected status body details htaken hcalls => rw [hcalls, htaken]; rfl
    | failed error htaken hcalls => rw [hcalls, htaken]; rfl
    | streamed head chunks last hlast htaken hcalls =>
      rw [hcalls, htaken, sentData_last, sentData_streamed, bodyOf_last _ hlast]

/-- The end is sent for an `End` that was taken. -/
theorem end_of_wire {f : FilterState} (h : Wire s f) (hend : .sendResponseEnd ∈ s.calls) :
    .End ∈ s.response.taken ∧ s.response.stream.cancelled = false := by
  cases f with
  | Collecting => rw [h.2.2] at hend; cases hend
  | Waiting => rw [h.2] at hend; cases hend
  | Streaming =>
    obtain ⟨head, chunks, -, hcalls⟩ := h
    rw [hcalls] at hend
    simp [State.streamed] at hend
  | Responded =>
    refine ⟨?_, h.1⟩
    cases h.2 with
    | rejected status body details _ hcalls => simp [hcalls] at hend
    | failed error _ hcalls => simp [hcalls] at hend
    | streamed head chunks last hlast htaken hcalls =>
      rw [htaken]
      match last with
      | .Head _ | .Chunk _ => cases hlast
      | .End => exact List.mem_append_right _ List.mem_cons_self
      | .Failed _ => simp [hcalls, State.streamed, lastCall] at hend

/-- **One well-formed response for a request.** The calls made form a word of `Word`; the data sent
is a prefix of the bytes accepted from the application; the end is sent only for an `End` that was
taken, with every accepted byte sent and no failure accepted; and a request that was accepted is
counted once when it is submitted and, by the end of `on_stream_complete`, once by how it ended. -/
theorem response_well_formed (h : system.Reachable s) :
    Word s.calls ∧
    sentData s.calls <+: bodyOf s.response.accepted ∧
    (.sendResponseEnd ∈ s.calls →
      .End ∈ s.response.taken ∧ sentData s.calls = bodyOf s.response.accepted ∧
        ∀ error, .Failed error ∉ s.response.accepted) ∧
    (s.accepted = true → s.config.metrics = true →
      s.submissions = 1 ∧ s.outcomes.length ≤ 1 ∧
        (s.stage = .complete → s.outcomes = [outcomeOf s.response.taken])) ∧
    (s.accepted = false → s.submissions = 0 ∧ s.outcomes = []) := by
  have hi := ResponseInv.of_reachable h
  have hsent := sentData_of_wire hi.wire
  refine ⟨word_of_wire hi.wire, ?_, fun hend => ?_, fun hok hm => ?_, fun hno => ?_⟩
  · rw [hsent]
    obtain ⟨rest, hrest⟩ := s.response.taken_prefix
    exact ⟨bodyOf rest, by rw [← hrest, bodyOf_append]⟩
  · obtain ⟨hmem, hcan⟩ := end_of_wire hi.wire hend
    have hall := (s.response.taken_all hcan hmem rfl).2
    refine ⟨hmem, by rw [hsent, hall], fun error hfail => ?_⟩
    rw [hall] at hmem
    have heq := s.response.terminal_unique hmem hfail rfl rfl
    cases heq
  · have hsub := hi.counted.submissions
    rw [hok, hm] at hsub
    refine ⟨hsub, ?_, fun hs => hi.counted.settled (hi.ended hs) hok hm⟩
    cases hat : s.submittedAt with
    | true => rw [(hi.counted.pending hat).2.1]; exact Nat.zero_le 1
    | false => rw [hi.counted.settled hat hok hm]; exact le_rfl
  · have hsub := hi.counted.submissions
    rw [hno] at hsub
    exact ⟨hsub, hi.counted.refused hno⟩

/-- A response in two drains, the second after a watermark, and the completion of the stream. -/
def twoDrains : List Action :=
  [.headers .accepted false, .pushHead ⟨200, [("content-type", "text/plain")], 8⟩, .write [1, 2],
    .event .response, .work, .work, .above, .write [3], .work, .work, .work, .finish, .below, .work,
    .event .response, .work, .work, .complete]

theorem response_well_formed_twoDrains :
    ∃ s, system.run { config := {} } twoDrains = some s ∧ .sendResponseEnd ∈ s.calls ∧
      sentData s.calls = bodyOf s.response.accepted ∧ bodyOf s.response.accepted = [1, 2, 3] ∧
      s.outcomes = [.completed] := by
  have hr : system.run { config := {} } twoDrains = some _ := rfl
  obtain ⟨-, -, hend, hcount, -⟩ := response_well_formed (System.reach_of_run ⟨_, rfl⟩ hr)
  have hsent := hend (by decide)
  exact ⟨_, hr, by decide, hsent.2.1, rfl, ((hcount rfl rfl).2.2 rfl).trans rfl⟩

end Ruvoy.Filter
