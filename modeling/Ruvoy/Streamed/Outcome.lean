import Ruvoy.Streamed.Outcome.Reports

/-!
# The counted outcome and what the fiber saw

* `Still`, `Closing.step`: a fiber that is in `close` has cancelled the response;
* `OutcomeInv.step`, `OutcomeInv.of_reach`: the outcome stays on its course, by the steps that count none
  against what the fiber saw;
* **`outcome_agrees`**: on runs of such steps the outcome counted agrees;
* `timed_out_counted_abandoned`: a stream that the fiber timed out is counted as abandoned.
-/

set_option autoImplicit false

namespace Ruvoy.Streamed

open Runs
open Upstream

variable {s t : State} {u u' : Bool} {l : List Micro} {outcome : CallOutcome} {stream : OpenStream}
  {m : Micro} {rest : List Micro}

/-! ## The invariant -/

/-- The worker does not stop the stream. -/
structure Still (s t : State) : Prop where
  ruby : t.ruby = s.ruby
  cancelled : t.channel.response.stream.cancelled = s.channel.response.stream.cancelled

theorem still_micro (m : Micro) (rest : List Micro) : Still s (s.micro m rest) := by
  cases m with
  | push r x =>
    cases r with
    | response n => exact ⟨rfl, ResponseStream.push_cancelled x⟩
    | call n => exact ⟨rfl, rfl⟩
    | request n => exact ⟨rfl, rfl⟩
  | data k bytes endStream =>
    have hcan : (s.onResponse (·.pushIfRoom bytes)).channel.response.stream.cancelled =
        s.channel.response.stream.cancelled := ResponseStream.pushChunkIfRoom_cancelled bytes
    simp only [State.micro]
    split
    · unfold State.deliverData
      dsimp only
      split
      · split <;> exact ⟨rfl, hcan⟩
      · exact ⟨rfl, hcan⟩
      · exact ⟨rfl, hcan⟩
    · exact ⟨rfl, rfl⟩
  | stopped k =>
    simp only [State.micro]
    split <;> exact ⟨rfl, rfl⟩
  | resetStopped | setTrailers | cancelRequest | wantReset | wake | checkWriter | count => exact ⟨rfl, rfl⟩

theorem still_phaseStep (ht : s.phaseStep = some t) : Still s t := by
  unfold State.phaseStep at ht
  split at ht
  · split_ifs at ht <;> cases ht <;> exact ⟨rfl, rfl⟩
  · cases ht
    exact ⟨rfl, rfl⟩
  · split_ifs at ht <;> cases ht <;> exact ⟨rfl, rfl⟩
  · cases ht
    unfold State.sendItem
    split <;> exact ⟨rfl, rfl⟩
  · cases ht
    exact ⟨rfl, rfl⟩
  · cases ht
  · cases ht

theorem still_envoyReturns {result : InitResult} (ht : s.envoyReturns result = some t) : Still s t := by
  unfold State.envoyReturns at ht
  split at ht
  · split at ht <;> cases ht <;> exact ⟨rfl, rfl⟩
  · cases ht

theorem still_onOpenStream {f : OpenStream → OpenStream × List Micro} (ht : s.onOpenStream f = some t) :
    Still s t := by
  obtain ⟨_, _, -, -, rfl⟩ := onOpenStream_eq ht
  exact ⟨rfl, rfl⟩

theorem still_onFinished {f : OpenStream → List Micro} (ht : s.onFinished f = some t) : Still s t := by
  obtain ⟨_, _, -, -, rfl⟩ := onFinished_eq ht
  exact ⟨rfl, rfl⟩

theorem still_abandon (ht : s.abandon = some t) : Still s t := by
  unfold State.abandon at ht
  split at ht <;> cases ht <;> exact ⟨rfl, rfl⟩

theorem Closing.still (h : Closing s) (hs : Still s t) : Closing t :=
  fun hr => hs.cancelled.trans (h (hs.ruby ▸ hr))

theorem closing_of_idle (hr : s.ruby = .idle ∨ ∃ n, s.ruby = .closeResponse n) : Closing s := by
  rintro ⟨n, hn | hn⟩ <;> rcases hr with h | ⟨n', h⟩ <;> rw [h] at hn <;> cases hn

theorem Closing.fiber (op : FiberOp) (hidle : s.ruby = .idle) : Closing (s.fiber op) := by
  cases op with
  | close => exact fun _ => rfl
  | timeOut => exact closing_of_idle (Or.inr ⟨0, rfl⟩)
  | take | park v | unpark | write bytes | finish | parkWriter v | unparkWriter =>
    exact closing_of_idle (Or.inl hidle)

theorem Closing.ruby (h : Closing s) (ht : s.rubyStep = some t) : Closing t := by
  cases hr : s.ruby with
  | idle =>
    rw [State.rubyStep, hr] at ht
    cases ht
  | closeResponse n =>
    rw [State.rubyStep, hr] at ht
    cases ht
    exact fun _ => rfl
  | closeRequest n =>
    have hcan := h ⟨n, Or.inl hr⟩
    rw [State.rubyStep, hr] at ht
    cases ht
    exact fun _ => hcan
  | wantReset n =>
    have hcan := h ⟨n, Or.inr hr⟩
    rw [State.rubyStep, hr] at ht
    cases ht
    exact fun _ => hcan

theorem Closing.step {a : Action} (h : Closing s) (ht : Streamed.step s a = some t) : Closing t := by
  cases a with
  | fiber op =>
    simp only [Streamed.step, Option.ite_none_right_eq_some, Option.some.injEq] at ht
    obtain ⟨hidle, rfl⟩ := ht
    exact .fiber op hidle
  | ruby => exact h.ruby ht
  | work =>
    simp only [Streamed.step] at ht
    split at ht
    · cases ht
      exact h.still (still_micro _ _)
    · exact h.still (still_phaseStep ht)
  | returns result => exact h.still (still_envoyReturns ht)
  | headers headers endStream => exact h.still (still_onOpenStream ht)
  | data data endStream => exact h.still (still_onOpenStream ht)
  | trailers trailers => exact h.still (still_onOpenStream ht)
  | complete => exact h.still (still_onFinished ht)
  | reset reason => exact h.still (still_onFinished ht)
  | abandon => exact h.still (still_abandon ht)

namespace OutcomeInv

theorem init (request : UpstreamStreamRequest) (trace : Fields) (budget : ℕ) (hasBody : Bool) :
    OutcomeInv (.queue request trace budget hasBody) false := by
  refine ⟨?_, closing_of_idle (Or.inl rfl)⟩
  cases hasBody <;> exact .before (Or.inl rfl) rfl rfl ⟨rfl, rfl, rfl⟩ (by rintro ⟨⟩)

/-- **Every such step keeps the course of the outcome.** -/
theorem step {a : Action} (h : OutcomeInv s u) (ho : stopsOnce s a = true)
    (ha : agreeing (s, u) a = true) (ht : Streamed.step s a = some t) :
    OutcomeInv t (switched s a u) := by
  refine ⟨?_, h.closing.step ht⟩
  cases a with
  | fiber op =>
    simp only [Streamed.step, Option.ite_none_right_eq_some, Option.some.injEq] at ht
    obtain ⟨-, rfl⟩ := ht
    exact h.course.fiber ho ha
  | ruby => exact h.course.ruby h.closing ha ht
  | work =>
    simp only [Streamed.step] at ht
    split at ht
    · rename_i m rest hh
      cases ht
      exact h.course.micro hh
    · rename_i hh
      exact h.course.phaseStep ha hh ht
  | returns result => exact h.course.returns ha ht
  | headers headers endStream => exact h.course.headers ha ht
  | data data endStream => exact h.course.data ha ht
  | trailers trailers => exact h.course.trailers ha ht
  | complete => exact h.course.complete ha ht
  | reset reason => exact h.course.reset ha ht
  | abandon => exact h.course.abandon ha ht

theorem of_reach {p : State × Bool}
    (h : watched.Reach (fun p a => stopsOnce p.1 a && agreeing p a) p) : OutcomeInv p.1 p.2 := by
  refine h.inductNoted (P := OutcomeInv) ?_ ?_
  · rintro s ⟨request, trace, budget, hasBody, rfl⟩
    exact .init request trace budget hasBody
  · intro s u a t hi hc ht
    rw [Bool.and_eq_true] at hc
    exact hi.step hc.1 hc.2 ht

end OutcomeInv

/-- **The outcome counted agrees with what the fiber saw**, on runs in which a stream that a fiber stopped
is ended by nothing that does not ask how it was stopped. -/
theorem outcome_agrees {p : State × Bool}
    (h : watched.Reach (fun p a => stopsOnce p.1 a && agreeing p a) p) :
    ∀ outcome ∈ p.1.counted, Agrees p.1 p.2 outcome := by
  intro outcome hmem
  have hempty : p.1.counted ≠ [] := List.ne_nil_of_mem hmem
  cases (OutcomeInv.of_reach h).course with
  | counted outcome' _ _ hcount hd =>
    rw [hcount, List.mem_singleton] at hmem
    rw [hmem]
    exact hd.agrees rfl
  | before _ _ hcount => exact (hempty hcount).elim
  | opened _ _ _ _ hcount => exact (hempty hcount).elim
  | delivering _ _ _ _ _ _ _ _ _ hcount => exact (hempty hcount).elim
  | asking _ _ _ _ _ _ _ hcount => exact (hempty hcount).elim
  | resetting _ _ _ _ hcount => exact (hempty hcount).elim
  | counting _ _ _ _ _ _ _ hcount => exact (hempty hcount).elim

/-- A stream without a body. -/
def bodiless : State := .queue ⟨0, "a", [], 0⟩ [] 8 false

/-- The fiber times the stream out, the worker resets it, and Envoy reports the reset. -/
def timedOutAndReset : List Action :=
  [.work, .work, .returns .Success, .fiber .timeOut, .ruby, .ruby, .ruby, .work, .reset .LocalReset,
    .work, .work, .work, .work, .work, .work, .work, .work]

theorem outcome_agrees_timedOutAndReset :
    ∃ p, watched.runIf (fun p a => stopsOnce p.1 a && agreeing p a) (bodiless, false) timedOutAndReset =
        some p ∧
      p.1.counted = [.TimedOut] ∧ p.1.stopped = true ∧ ∀ outcome ∈ p.1.counted, Agrees p.1 p.2 outcome := by
  have hr : watched.runIf (fun p a => stopsOnce p.1 a && agreeing p a) (bodiless, false)
    timedOutAndReset = some (_, _) := rfl
  have h := outcome_agrees (System.reach_of_runIf ⟨⟨_, [], 8, false, rfl⟩, rfl⟩ hr)
  exact ⟨_, hr, rfl, rfl, h⟩

/-- The fiber times the stream out, and the request is over before Envoy reports the reset. -/
def timedOutAndOver : List Action :=
  [.work, .work, .returns .Success, .fiber .timeOut, .ruby, .ruby, .ruby, .abandon, .work, .work, .work,
    .work, .work, .work, .work]

/-- **A stream that timed out can be counted as abandoned.** -/
theorem timed_out_counted_abandoned :
    ¬ ∀ p, watched.Reach (fun p a => stopsOnce p.1 a) p → ∀ outcome ∈ p.1.counted,
      Agrees p.1 p.2 outcome := by
  intro hall
  have hr : watched.runIf (fun p a => stopsOnce p.1 a) (bodiless, false) timedOutAndOver =
    some (_, _) := rfl
  have h := hall _ (System.reach_of_runIf ⟨⟨_, [], 8, false, rfl⟩, rfl⟩ hr) .Abandoned (by decide)
  cases h.timedOut rfl rfl

end Ruvoy.Streamed
