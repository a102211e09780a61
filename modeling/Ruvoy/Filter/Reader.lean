import Ruvoy.Filter.Writer

/-!
# The fiber parked on the request body

A fiber of the request reads what the client sends, and parks where there is nothing to read. It
hears of the end of the body, and when the filter is dropped first, that the client is gone.

* `State.bodyOver`: the request queue has ended or is cancelled;
* `ReaderInv`: what the filter owes a reader, kept by every step that meets `endedBeforeFailure`;
* **`reader_hears_drop`**: what holds of a dropped filter;
* `reader_never_told`: an application fails before the head, the local reply lets go of the request
  queue, and nothing cancels it any more.
-/

set_option autoImplicit false

namespace Ruvoy.Filter

open Runs

/-- The request queue has ended or is cancelled. -/
def State.bodyOver (s : State) : Bool := s.request.stream.ended || s.request.stream.cancelled

/-- The reactor is to resolve whoever waits in the request queue. -/
def State.readerListed (s : State) : Bool :=
  s.wakeups.contains .request || s.resolving.contains .request

/-- A `Failed` is taken before the head went out only once the request body has ended. -/
def endedBeforeFailure (s : State) : Action → Bool
  | .work =>
    match s.worker, s.response.stream.takeNext.1 with
    | .drainTake, some (.Failed _) => s.state != .Waiting || s.request.stream.ended
    | _, _ => true
  | _ => true

/-- The worker is about to wake the reader of the request body. -/
def Worker.waking : Worker → Bool
  | .forward (.wake true) | .dropRequestWake => true
  | _ => false

/-- The worker is past the point where `drop` lets go of the request queue. -/
def Worker.past : Worker → Bool
  | .dropRequestWake | .dropped => true
  | _ => false

structure ReaderInv (s : State) : Prop where
  fresh : s.stage = .fresh → s.accepted = false
  gone : s.accepted = true → s.requestBody = false → s.bodyOver = true
  heard : s.bodyOver = true → s.request.stream.waiter.isSome = true → s.worker.waking = false →
    s.readerListed = true
  past : s.worker.past = true → s.requestBody = false

variable {s t : State}

theorem ReaderInv.init (config : Config) : ReaderInv { config := config } where
  fresh _ := rfl
  gone := by rintro ⟨⟩
  heard := by rintro ⟨⟩
  past := by rintro ⟨⟩

/-- A step that neither ends the request queue nor lets go of it, and parks nobody in it once it is
over. -/
structure Spares (t s : State) : Prop where
  bodyOver : t.bodyOver = s.bodyOver
  waiter : t.bodyOver = true → t.request.stream.waiter.isSome = true →
    s.request.stream.waiter.isSome = true
  requestBody : t.requestBody = s.requestBody
  accepted : t.accepted = s.accepted
  stage : t.stage = .fresh → s.stage = .fresh
  listed : s.readerListed = true → t.readerListed = true
  worker : t.worker = s.worker ∨ s.worker.waking = false ∧ t.worker.past = false

theorem ReaderInv.spare (h : ReaderInv s) (hs : Spares t s) : ReaderInv t where
  fresh hf := hs.accepted.trans (h.fresh (hs.stage hf))
  gone ha hb := by
    rw [hs.bodyOver]
    exact h.gone (hs.accepted ▸ ha) (hs.requestBody ▸ hb)
  heard ho hw hnw := by
    refine hs.listed (h.heard (hs.bodyOver ▸ ho) (hs.waiter ho hw) ?_)
    rcases hs.worker with hsame | ⟨hn, -⟩
    · rwa [← hsame]
    · exact hn
  past hp := by
    rw [hs.requestBody]
    rcases hs.worker with hsame | ⟨-, hn⟩
    · exact h.past (hsame ▸ hp)
    · rw [hn] at hp
      cases hp

theorem ReaderInv.same (h : ReaderInv s) (hq : t.request = s.request)
    (hb : t.requestBody = s.requestBody) (ha : t.accepted = s.accepted)
    (hf : t.stage = .fresh → s.stage = .fresh) (hl : s.readerListed = true → t.readerListed = true)
    (hw : t.worker = s.worker ∨ s.worker.waking = false ∧ t.worker.past = false) : ReaderInv t :=
  h.spare ⟨by unfold State.bodyOver; rw [hq], fun _ hwait => hq ▸ hwait, hb, ha, hf, hl, hw⟩

/-! ## The worker -/

theorem readerListed_wakeBody (q : Queue) (h : s.readerListed = true) :
    (s.wakeBody q).readerListed = true := by
  simp only [State.readerListed, State.wakeBody, Bool.or_eq_true, List.contains_eq_mem,
    decide_eq_true_eq] at h ⊢
  exact h.imp (List.mem_append_left _) id

theorem readerListed_wakeBody_request : (s.wakeBody .request).readerListed = true := by
  simp [State.readerListed, State.wakeBody]

theorem bodyOver_push {x : StreamItem} (hx : x.terminal = false) (q : Tracked) :
    ((q.push x).stream.ended || (q.push x).stream.cancelled) =
      (q.stream.ended || q.stream.cancelled) := by
  rcases q.push_cases x with ⟨-, hq⟩ | ⟨hc, he, -, -, hin⟩
  · rw [hq]
  · rw [hin, ResponseStreamInner.append_ended, ResponseStreamInner.append_cancelled, hx, he]

theorem push_of_over {q : Tracked} (h : (q.stream.ended || q.stream.cancelled) = true)
    (x : StreamItem) : q.push x = q :=
  Tracked.push_of_shut (by rw [Bool.or_comm]; exact h) x

theorem ReaderInv.endCopy (h : ReaderInv s) (hw : s.worker.waking = false) (source : BodySource)
    (limit copied before : ℕ) : ReaderInv (s.endCopy source limit copied before) := by
  obtain ⟨hs, k, hk⟩ := endCopy_frame (s := s) source limit copied before
  refine h.same ?_ ?_ ?_ ?_ ?_ (Or.inr ⟨hw, by rw [hk]; rfl⟩)
  all_goals rw [hs]
  · exact id
  · exact id

/-- **`forward_request_body` wakes the reader it passed the end on to.** -/
theorem ReaderInv.forwardStep (h : ReaderInv s) {k : Forward} (hw : s.worker = .forward k)
    (ht : s.forwardStep k = some t) : ReaderInv t := by
  cases k with
  | room =>
    simp only [State.forwardStep, Option.some.injEq] at ht
    subst ht
    exact h.same rfl rfl rfl id id (Or.inr ⟨by rw [hw]; rfl, rfl⟩)
  | slices source limit before =>
    simp only [State.forwardStep, Option.ite_none_right_eq_some, Option.some.injEq] at ht
    obtain ⟨-, rfl⟩ := ht
    exact h.endCopy (by rw [hw]; rfl) source limit 0 before
  | copy source buffers limit copied before =>
    have hnw : s.worker.waking = false := by rw [hw]; rfl
    cases buffers with
    | nil =>
      simp only [State.forwardStep, Option.some.injEq] at ht
      subst ht
      exact h.endCopy hnw source limit copied before
    | cons slice rest =>
      simp only [State.forwardStep] at ht
      split_ifs at ht <;> cases ht
      · exact h.endCopy hnw source limit copied before
      · refine h.spare ⟨bodyOver_push rfl s.request, fun _ hwait => ?_, rfl, rfl, id, id, Or.inr ⟨hnw, rfl⟩⟩
        rwa [← ResponseStream.push_waiter (s := s.request.stream)]
  | finish copied =>
    simp only [State.forwardStep, Option.some.injEq] at ht
    subst ht
    by_cases hend : (s.requestEndPending && s.retained.length == 0 && s.receivedSize == 0) = true
    · simp only [hend, if_true, Bool.or_true]
      refine ⟨h.fresh, fun ha hb => ?_, fun _ _ => by rintro ⟨⟩, by rintro ⟨⟩⟩
      have hover := h.gone ha hb
      show ((s.request.push .End).stream.ended || _) = true
      rw [push_of_over hover]
      exact hover
    · simp only [hend]
      exact h.same rfl rfl rfl id id (Or.inr ⟨by rw [hw]; rfl, rfl⟩)
  | wake owed =>
    simp only [State.forwardStep, Option.some.injEq] at ht
    subst ht
    cases owed with
    | true => exact ⟨h.fresh, h.gone, fun _ _ _ => readerListed_wakeBody_request, by rintro ⟨⟩⟩
    | false => exact h.same rfl rfl rfl id id (Or.inr ⟨by rw [hw]; rfl, rfl⟩)

/-- **What `drain_stream` takes leaves the request alone, but for a `Failed` before the head**, which
lets go of a request queue that has ended. -/
theorem ReaderInv.drainStep (h : ReaderInv s) (hw : s.worker = .drainTake)
    (hc : endedBeforeFailure s .work = true) : ReaderInv s.drainStep := by
  have hnw : s.worker.waking = false := by rw [hw]; rfl
  unfold State.drainStep
  cases hx : s.response.stream.takeNext.1 with
  | none => exact h.same rfl rfl rfl id id (Or.inr ⟨hnw, rfl⟩)
  | some x =>
    cases x with
    | Head head =>
      simp only [State.drainItem]
      split_ifs <;> exact h.same rfl rfl rfl id id (Or.inr ⟨hnw, rfl⟩)
    | Chunk chunk =>
      simp only [State.drainItem]
      split_ifs <;> exact h.same rfl rfl rfl id id (Or.inr ⟨hnw, rfl⟩)
    | End => exact h.same rfl rfl rfl id id (Or.inr ⟨hnw, rfl⟩)
    | Failed error =>
      simp only [State.drainItem]
      split_ifs with hwait
      · simp only [endedBeforeFailure, hw, hx, hwait] at hc
        have hover : s.bodyOver = true := by
          rw [State.bodyOver, show s.request.stream.ended = true from hc, Bool.true_or]
        exact ⟨h.fresh, fun _ _ => hover, fun ho hslot _ => h.heard ho hslot hnw, by rintro ⟨⟩⟩
      · exact h.same rfl rfl rfl id id (Or.inr ⟨hnw, rfl⟩)

theorem ReaderInv.workStep (h : ReaderInv s) (hc : endedBeforeFailure s .work = true)
    (ht : s.workStep = some t) : ReaderInv t := by
  cases hw : s.worker with
  | forward k =>
    simp only [State.workStep, hw] at ht
    exact h.forwardStep hw ht
  | drainTake =>
    simp only [State.workStep, hw, Option.some.injEq] at ht
    subst ht
    exact h.drainStep hw hc
  | drainDone =>
    simp only [State.workStep, hw, Option.some.injEq] at ht
    subst ht
    exact h.same rfl rfl rfl id id (Or.inr ⟨by rw [hw]; rfl, rfl⟩)
  | drainCheck | belowCommit draining | dropCheck =>
    simp only [State.workStep, hw, Option.some.injEq] at ht
    subst ht
    refine h.same rfl rfl rfl id id (Or.inr ⟨by rw [hw]; rfl, ?_⟩)
    dsimp only
    split_ifs <;> rfl
  | drainWake | dropWake =>
    simp only [State.workStep, hw, Option.some.injEq] at ht
    subst ht
    exact h.same rfl rfl rfl id (readerListed_wakeBody _) (Or.inr ⟨by rw [hw]; rfl, rfl⟩)
  | dropCancel =>
    simp only [State.workStep, hw] at ht
    split_ifs at ht <;> cases ht <;> exact h.same rfl rfl rfl id id (Or.inr ⟨by rw [hw]; rfl, rfl⟩)
  | dropRequest =>
    simp only [State.workStep, hw] at ht
    split_ifs at ht with hheld <;> cases ht
    · exact ⟨h.fresh, fun _ _ => Bool.or_true _, fun _ _ => by rintro ⟨⟩, fun _ => rfl⟩
    · refine ⟨h.fresh, h.gone, fun ho hslot _ => h.heard ho hslot (by rw [hw]; rfl), fun _ => ?_⟩
      exact Bool.eq_false_iff.mpr hheld
  | dropRequestWake =>
    simp only [State.workStep, hw, Option.some.injEq] at ht
    subst ht
    exact ⟨h.fresh, h.gone, fun _ _ _ => readerListed_wakeBody_request,
      fun _ => h.past (by rw [hw]; rfl)⟩
  | idle | dropped => simp [State.workStep, hw] at ht

/-! ## Every step -/

theorem not_past_of_forward {w : Worker} (h : w = .idle ∨ ∃ k, w = .forward k) : w.past = false := by
  rcases h with rfl | ⟨k, rfl⟩ <;> rfl

theorem ReaderInv.forwardRequestBody (h : ReaderInv s) (hw : s.worker.waking = false) :
    ReaderInv s.forwardRequestBody := by
  obtain ⟨hs, hk⟩ := forwardRequestBody_frame (s := s)
  refine h.same ?_ ?_ ?_ ?_ ?_ (Or.inr ⟨hw, not_past_of_forward hk⟩)
  all_goals rw [hs]
  · exact id
  · exact id

theorem not_waking_of_watermarkable (h : s.watermarkable = true) : s.worker.waking = false := by
  simp only [State.watermarkable, Bool.or_eq_true, atRest_iff, Bool.and_eq_true, beq_iff_eq] at h
  rcases h with ⟨hw, -⟩ | ⟨hw, -⟩ <;> rw [hw] <;> rfl

theorem ReaderInv.vacate (h : ReaderInv s) (hq : t.request = s.request.unpark)
    (hb : t.requestBody = s.requestBody) (ha : t.accepted = s.accepted) (hf : t.stage = s.stage)
    (hw : t.worker = s.worker) : ReaderInv t where
  fresh hfresh := ha.trans (h.fresh (hf ▸ hfresh))
  gone hacc hbody := by
    have hover := h.gone (ha ▸ hacc) (hb ▸ hbody)
    unfold State.bodyOver
    rw [hq]
    exact hover
  heard _ hslot := by
    rw [hq] at hslot
    cases hslot
  past hp := hb.trans (h.past (hw ▸ hp))

/-- A request queue that is over parks nobody. -/
theorem ReaderInv.parkReader (h : ReaderInv s) (v : Variable) :
    ReaderInv { s with request := s.request.park v } := by
  refine h.spare ⟨?_, fun hover hslot => ?_, rfl, rfl, id, id, Or.inl rfl⟩
  · show ((s.request.stream.park v).2.ended || (s.request.stream.park v).2.cancelled) = _
    rw [ResponseStream.park_ended, ResponseStream.park_cancelled]
    rfl
  · rcases s.request.stream.park_cases v with ⟨-, hno⟩ | ⟨-, he, hcan, -, hin⟩
    · have hsame : (s.request.stream.park v).2.waiter = s.request.stream.waiter := by rw [hno]
      exact hsame ▸ hslot
    · have hopen : ((s.request.stream.park v).2.ended || (s.request.stream.park v).2.cancelled) = true :=
        hover
      rw [ResponseStream.park_ended, ResponseStream.park_cancelled, he, hcan] at hopen
      cases hopen

theorem ReaderInv.onRequestHeaders (h : ReaderInv s) (hw : s.worker = .idle) (hf : s.stage = .fresh)
    (submission : State.Submission) (eos : Bool) : ReaderInv (s.onRequestHeaders submission eos) := by
  have hnw : s.worker.waking = false := by rw [hw]; rfl
  have hnw' : (s.submit submission).worker.waking = false := by cases submission <;> exact hnw
  have hsub : ReaderInv { s.submit submission with
      stage := .live
      clientDone := eos
      requestEndPending := eos } := by
    cases submission with
    | accepted =>
      refine ⟨by rintro ⟨⟩, by rintro - ⟨⟩, h.heard, fun hp => ?_⟩
      have hidle : s.worker.past = true := hp
      rw [hw] at hidle
      cases hidle
    | refused error enqueued =>
      refine ⟨by rintro ⟨⟩, fun ha => ?_, h.heard, fun _ => rfl⟩
      exact absurd ((h.fresh hf).symm.trans ha) Bool.false_ne_true
  unfold State.onRequestHeaders
  dsimp only
  split_ifs
  · exact hsub.forwardRequestBody hnw'
  · exact hsub

theorem ReaderInv.takeRequest (h : ReaderInv s) : ReaderInv { s with
    request := s.request.takeNext
    requestWakes :=
      if s.request.stream.takeNext.1.isSome then s.requestWakes + 1 else s.requestWakes } := by
  refine h.spare ⟨?_, fun _ hslot => ?_, rfl, rfl, id, id, Or.inl rfl⟩
  · show (s.request.stream.takeNext.2.ended || s.request.stream.takeNext.2.cancelled) = _
    rw [ResponseStream.takeNext_ended, ResponseStream.takeNext_cancelled]
    rfl
  · rwa [← ResponseStream.takeNext_waiter]

theorem ReaderInv.takeWakeups (h : ReaderInv s) (hnil : s.resolving = []) :
    ReaderInv { s with wakeups := [], resolving := s.wakeups } := by
  refine h.same rfl rfl rfl id (fun hl => ?_) (Or.inl rfl)
  simpa [State.readerListed, hnil] using hl

theorem ReaderInv.resolve (h : ReaderInv s) {q : Queue} {rest : List Queue}
    (hq : s.resolving = q :: rest) : ReaderInv (s.resolve q rest) := by
  cases q with
  | request => exact h.vacate rfl rfl rfl rfl rfl
  | response =>
    refine h.same rfl rfl rfl id (fun hl => ?_) (Or.inl rfl)
    simpa [State.readerListed, State.resolve, hq] using hl

theorem ReaderInv.step (h : ReaderInv s) {a : Action} (hc : endedBeforeFailure s a = true)
    (ht : step s a = some t) : ReaderInv t := by
  cases step_moves ht with
  | headers hw hf submission eos => exact h.onRequestHeaders hw hf submission eos
  | invalid _ hf =>
    refine ⟨by rintro ⟨⟩, fun ha => ?_, h.heard, fun _ => rfl⟩
    exact absurd ((h.fresh hf).symm.trans ha) Bool.false_ne_true
  | body hw | redeliver hw | trailers hw | requestEvent hw =>
    refine ReaderInv.forwardRequestBody ?_ (by rw [hw]; rfl)
    exact h.same rfl rfl rfl id id (Or.inl rfl)
  | drain hw | drop hw | slices hw => exact h.same rfl rfl rfl id id (Or.inr ⟨by rw [hw]; rfl, rfl⟩)
  | below hm => exact h.same rfl rfl rfl id id (Or.inr ⟨not_waking_of_watermarkable hm, rfl⟩)
  | released => exact h
  | complete => exact h.same rfl rfl rfl (by rintro ⟨⟩) id (Or.inl rfl)
  | work ht => exact h.workStep hc ht
  | takeRequest => exact h.takeRequest
  | parkReader _ v => exact h.parkReader v
  | leaveReader => exact h.vacate rfl rfl rfl rfl rfl
  | takeWakeups hnil => exact h.takeWakeups hnil
  | resolve hq => exact h.resolve hq
  | _ => exact h.same rfl rfl rfl id id (Or.inl rfl)

theorem ReaderInv.of_reach (h : system.Reach (fun s a => endedBeforeFailure s a = true) s) :
    ReaderInv s := by
  refine h.induct ?_ ?_
  · rintro _ ⟨config, rfl⟩
    exact .init config
  · intro s a t hs hc ht
    exact hs.step hc ht

/-! ## A reader hears that the client is gone -/

/-- **A fiber that reads the request body hears that the client is gone**, when no `Failed` is taken
before the head went out while the body has not ended. Once a filter whose `submit` succeeded is
dropped, its request queue has ended or is cancelled, and a fiber in the waiter slot is on the list of
wakeups. -/
theorem reader_hears_drop (h : system.Reach (fun s a => endedBeforeFailure s a = true) s)
    (ha : s.accepted = true) (hd : s.worker = .dropped) :
    (s.request.stream.ended = true ∨ s.request.stream.cancelled = true) ∧
      (s.request.stream.waiter.isSome = true → s.readerListed = true) := by
  have hi := ReaderInv.of_reach h
  have hover := hi.gone ha (hi.past (by rw [hd]; rfl))
  refine ⟨by simpa [State.bodyOver] using hover, fun hslot => hi.heard hover hslot ?_⟩
  rw [hd]
  rfl

/-- A fiber waits for the body, the client is done, and the filter is dropped after the reply to a
failure. -/
def failedAfterBody : List Action :=
  [.headers .accepted false, .parkReader 7, .body [104, 105] true, .work, .slices [], .work,
    .slices [[104, 105]], .work, .work, .work, .work, .pushFailure (.Ruby "boom"), .event .response, .work,
    .drop, .work, .work]

theorem reader_hears_drop_failedAfterBody :
    ∃ s, system.runIf endedBeforeFailure { config := {} } failedAfterBody = some s ∧
      s.accepted = true ∧ s.worker = .dropped ∧ s.request.stream.waiter = some 7 ∧
      s.request.stream.ended = true ∧ s.readerListed = true := by
  have hr : system.runIf endedBeforeFailure { config := {} } failedAfterBody = some _ := rfl
  have hheard := reader_hears_drop (System.reach_of_runIf ⟨_, rfl⟩ hr) rfl rfl
  exact ⟨_, hr, rfl, rfl, rfl, rfl, hheard.2 rfl⟩

/-- A fiber waits for the body, the application fails before the head, and the filter is dropped
after the local reply. -/
def failedBeforeBody : List Action :=
  [.headers .accepted false, .parkReader 7, .pushFailure (.Ruby "boom"), .event .response, .work, .drop,
    .work, .work]

/-- The filter is dropped, its request queue is neither ended nor cancelled, and the fiber in its slot
is on no list. -/
theorem reader_never_told :
    ¬ ∀ s, system.Reachable s → s.accepted = true → s.worker = .dropped →
      (s.request.stream.ended = true ∨ s.request.stream.cancelled = true) ∧
        (s.request.stream.waiter.isSome = true → s.readerListed = true) := by
  intro hall
  have hr : system.run { config := {} } failedBeforeBody = some _ := rfl
  have hno := (hall _ (System.reach_of_run ⟨_, rfl⟩ hr) rfl rfl).2 rfl
  cases hno

end Ruvoy.Filter
