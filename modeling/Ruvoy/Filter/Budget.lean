import Ruvoy.Filter.Steps
import Ruvoy.Upstream.Budget

/-!
# The queues of one request keep to their budgets

`ChunkSink::write` queues the slice that fits. `forward_request_body` asks for the spare capacity once
and then pushes slices of two buffers without asking again; what it still means to push fits, because
it alone pushes to the request queue and all others only take of it.

* `Worker.owed`: the bytes the worker may still push of the room it was told;
* `Budgets`, `Budgets.of_reachable`: both queues keep to the budget;
* **`queues_within_budget`**: all the queues of a request do.
-/

set_option autoImplicit false

namespace Ruvoy.Filter

open Runs

variable {s t : State}

/-- What `forward_request_body` may still push. -/
def Worker.owed : Worker → ℕ
  | .forward (.slices _ limit _) => limit
  | .forward (.copy _ _ limit copied _) => limit - copied
  | _ => 0

/-- Both queues keep to the budget, the request queue with what is still to be pushed. -/
structure Budgets (s : State) : Prop where
  response : Tracked.Within maxBufferedBodyBytes s.response
  request : s.request.stream.maxBufferedBytes = maxBufferedBodyBytes
  room : s.request.stream.bufferedBytes + s.worker.owed ≤ maxBufferedBodyBytes

theorem Budgets.init (config : Config) : Budgets { config := config } where
  response := .new (by decide)
  request := rfl
  room := Nat.zero_le _

theorem Budgets.eases (h : Budgets s) (hresponse : s.response.Eases t.response)
    (hrequest : s.request.Eases t.request) (howed : t.worker.owed ≤ s.worker.owed) : Budgets t where
  response := h.response.eases hresponse
  request := hrequest.budget.trans h.request
  room := by
    have hroom := h.room
    have hbytes := hrequest.bytes
    omega

theorem Budgets.same (h : Budgets s) (hresponse : t.response = s.response)
    (hrequest : t.request = s.request) (howed : t.worker.owed ≤ s.worker.owed) : Budgets t := by
  refine h.eases ?_ ?_ howed
  · rw [hresponse]
    exact .refl _
  · rw [hrequest]
    exact .refl _

/-! ## `forward_request_body` -/

/-- The second buffer gets the room that the first left. -/
theorem owed_endCopy (source : BodySource) (limit copied before : ℕ) :
    (s.endCopy source limit copied before).worker.owed ≤ limit - copied := by
  unfold State.endCopy
  cases source with
  | Retained =>
    dsimp only
    split
    · exact le_rfl
    · exact Nat.zero_le _
  | Received => exact Nat.zero_le _

theorem Budgets.endCopy (h : Budgets s) {source : BodySource} {limit copied before : ℕ}
    (howed : s.worker.owed = limit - copied) : Budgets (s.endCopy source limit copied before) := by
  obtain ⟨hs, -⟩ := endCopy_frame (s := s) source limit copied before
  have hle := owed_endCopy (s := s) source limit copied before
  refine h.same ?_ ?_ (by omega)
  · rw [hs]
  · rw [hs]

theorem Budgets.forwardStep (h : Budgets s) {k : Forward} (hw : s.worker = .forward k)
    (ht : s.forwardStep k = some t) : Budgets t := by
  cases k with
  | room =>
    simp only [State.forwardStep, Option.some.injEq] at ht
    subst ht
    refine ⟨h.response, h.request, ?_⟩
    have hroom := h.room
    have hspare : s.request.stream.spareCapacity =
        maxBufferedBodyBytes - s.request.stream.bufferedBytes := by
      rw [← h.request]
      rfl
    simp only [Worker.owed, hspare]
    omega
  | slices source limit before =>
    simp only [State.forwardStep, Option.ite_none_right_eq_some, Option.some.injEq] at ht
    obtain ⟨-, rfl⟩ := ht
    exact h.endCopy (by rw [hw]; rfl)
  | copy source buffers limit copied before =>
    cases buffers with
    | nil =>
      simp only [State.forwardStep, Option.some.injEq] at ht
      subst ht
      exact h.endCopy (by rw [hw]; rfl)
    | cons slice rest =>
      simp only [State.forwardStep] at ht
      split_ifs at ht <;> cases ht
      · exact h.endCopy (by rw [hw]; rfl)
      · have hpush := s.request.bytes_push_le (slice.take (min slice.length (limit - copied)))
        have hroom := h.room
        rw [hw] at hroom
        simp only [Worker.owed] at hroom
        rw [List.length_take] at hpush
        refine ⟨h.response, h.request, ?_⟩
        simp only [Worker.owed]
        omega
  | finish copied =>
    simp only [State.forwardStep, Option.some.injEq] at ht
    subst ht
    refine h.eases (.refl _) ?_ (Nat.zero_le _)
    dsimp only
    split
    · exact s.request.eases_push rfl
    · exact .refl _
  | wake owed =>
    simp only [State.forwardStep, Option.some.injEq] at ht
    subst ht
    split <;> exact h.same rfl rfl (Nat.zero_le _)

theorem Budgets.forwardRequestBody (h : Budgets s) : Budgets s.forwardRequestBody := by
  unfold State.forwardRequestBody
  split <;> exact h.same rfl rfl (Nat.zero_le _)

/-! ## Every step -/

theorem Budgets.drainStep (h : Budgets s) : Budgets s.drainStep := by
  have htake := s.response.eases_takeNext
  unfold State.drainStep
  cases s.response.stream.takeNext.1 with
  | none => exact h.eases htake (.refl _) (Nat.zero_le _)
  | some x =>
    cases x with
    | Head head =>
      simp only [State.drainItem]
      split_ifs <;> exact h.eases htake (.refl _) (Nat.zero_le _)
    | Chunk chunk =>
      simp only [State.drainItem]
      split_ifs <;> exact h.eases htake (.refl _) (Nat.zero_le _)
    | End => exact h.eases htake (.refl _) (Nat.zero_le _)
    | Failed error =>
      simp only [State.drainItem]
      split_ifs <;> exact h.eases htake (.refl _) (Nat.zero_le _)

theorem Budgets.workStep (h : Budgets s) (ht : s.workStep = some t) : Budgets t := by
  cases hw : s.worker with
  | forward k =>
    simp only [State.workStep, hw] at ht
    exact h.forwardStep hw ht
  | drainTake =>
    simp only [State.workStep, hw, Option.some.injEq] at ht
    subst ht
    exact h.drainStep
  | dropCancel =>
    simp only [State.workStep, hw] at ht
    split_ifs at ht <;> cases ht
    · exact h.eases s.response.eases_cancel (.refl _) (Nat.zero_le _)
    · exact h.same rfl rfl (Nat.zero_le _)
  | dropRequest =>
    simp only [State.workStep, hw] at ht
    split_ifs at ht <;> cases ht
    · exact h.eases (.refl _) s.request.eases_cancel (Nat.zero_le _)
    · exact h.same rfl rfl (Nat.zero_le _)
  | drainCheck | belowCommit draining | dropCheck =>
    simp only [State.workStep, hw, Option.some.injEq] at ht
    subst ht
    refine h.same rfl rfl ?_
    dsimp only
    split_ifs <;> exact Nat.zero_le _
  | drainWake | dropWake | drainDone | dropRequestWake =>
    simp only [State.workStep, hw, Option.some.injEq] at ht
    subst ht
    exact h.same rfl rfl (Nat.zero_le _)
  | idle | dropped => simp [State.workStep, hw] at ht

theorem Budgets.submit (h : Budgets s) (submission : State.Submission) :
    Budgets (s.submit submission) := by
  cases submission with
  | accepted => exact h.same rfl rfl le_rfl
  | refused error enqueued => exact h.same rfl rfl le_rfl

theorem Budgets.onRequestHeaders (h : Budgets s) (submission : State.Submission) (eos : Bool) :
    Budgets (s.onRequestHeaders submission eos) := by
  have hsub : Budgets { s.submit submission with
      stage := .live
      clientDone := eos
      requestEndPending := eos } := (h.submit submission).same rfl rfl le_rfl
  unfold State.onRequestHeaders
  dsimp only
  split
  · exact hsub.forwardRequestBody
  · exact hsub

theorem Budgets.resolve (h : Budgets s) (q : Queue) (rest : List Queue) : Budgets (s.resolve q rest) := by
  cases q with
  | request => exact h.eases (.refl _) s.request.eases_unpark le_rfl
  | response => exact h.eases s.response.eases_unpark (.refl _) le_rfl

/-- **Every step keeps the queues within the budget.** -/
theorem Budgets.step (h : Budgets s) {a : Action} (ht : step s a = some t) : Budgets t := by
  cases step_moves ht with
  | headers _ _ submission eos => exact h.onRequestHeaders submission eos
  | body | redeliver | trailers | requestEvent =>
    exact Budgets.forwardRequestBody (h.same rfl rfl le_rfl)
  | invalid | responseEvent | buffer | complete | stopWriter | wakeResponse | wakeRequest
  | takeWakeups => exact h.same rfl rfl le_rfl
  | drain | drop => exact h.same rfl rfl (Nat.zero_le _)
  | above => exact h.eases (s.response.eases_setPaused true) (.refl _) le_rfl
  | below => exact h.eases (s.response.eases_setPaused false) (.refl _) (Nat.zero_le _)
  | released => exact h
  | work ht => exact h.workStep ht
  | @slices source limit before _ hw =>
    refine h.same rfl rfl ?_
    rw [hw]
    exact Nat.sub_le limit 0
  | pushHead | pushFailure | finish => exact h.eases (s.response.eases_push rfl) (.refl _) le_rfl
  | write _ bytes => exact ⟨h.response.pushWithinBudget bytes, h.request, h.room⟩
  | parkWriter _ _ v => exact h.eases (s.response.eases_parkWriter v) (.refl _) le_rfl
  | leaveWriter => exact h.eases s.response.eases_unpark (.refl _) le_rfl
  | takeRequest => exact h.eases (.refl _) s.request.eases_takeNext le_rfl
  | parkReader _ v => exact h.eases (.refl _) (s.request.eases_park v) le_rfl
  | leaveReader => exact h.eases (.refl _) s.request.eases_unpark le_rfl
  | @resolve q rest => exact h.resolve q rest

theorem Budgets.of_reachable (h : system.Reachable s) : Budgets s := by
  refine h.induct ?_ ?_
  · rintro _ ⟨config, rfl⟩
    exact .init config
  · intro s a t hs _ ht
    exact hs.step ht

end Ruvoy.Filter

namespace Ruvoy

open Runs

/-! ## All the queues -/

/-- **Every queue of a request keeps to its budget.** The response queue and the request-body queue of
the filter hold at most `MAX_BUFFERED_BODY_BYTES`. With settings that a filter can be given, the
request queue of a channel holds at most `stream_buffer_bytes`, and so does its response queue unless
it holds exactly one delivery; a delivery is queued whole or refused whole, and refused when bytes are
queued beside which it does not fit; and the response of a call holds at most `max_response_bytes`. -/
theorem queues_within_budget {c : Upstream.UpstreamConfig} {settings : Upstream.UpstreamSettings}
    (hc : c.intoSettings = .ok settings) :
    (∀ s, Filter.system.Reachable s → held s.response ≤ Filter.maxBufferedBodyBytes ∧
      held s.request ≤ Filter.maxBufferedBodyBytes) ∧
    ∀ s e, Upstream.reported.Reachable (s, e) → s.config.settings = settings →
      (∀ n, held (s.channels n).request ≤ settings.streamBufferBytes ∧
        (held (s.channels n).response ≤ settings.streamBufferBytes ∨
          ∃ b ∈ e, chunksOf (s.channels n).response.stream.items = [.Chunk b]) ∧
        held (s.calls n) ≤ settings.maxResponseBytes) ∧
      ∀ k bytes endStream rest stream t, s.handler = .data k bytes endStream :: rest →
        s.openStreams.lookup k = some stream → Upstream.step s .work = some t →
        ((t.channels stream.channel).response.stream.items =
            (s.channels stream.channel).response.stream.items ++ [.Chunk bytes] ∨
          (t.channels stream.channel).response.stream.items =
            (s.channels stream.channel).response.stream.items) ∧
        (0 < held (s.channels stream.channel).response →
          settings.streamBufferBytes < held (s.channels stream.channel).response + bytes.length →
          (t.channels stream.channel).response.stream.items =
            (s.channels stream.channel).response.stream.items) := by
  obtain ⟨hmax, hbuffer⟩ := Upstream.UpstreamConfig.positive hc
  refine ⟨fun s hr => ?_, fun s e hr hs => ?_⟩
  · have hb := Filter.Budgets.of_reachable hr
    rw [held_eq, held_eq]
    exact ⟨hb.response.bytes, Nat.le_of_add_right_le hb.room⟩
  · subst hs
    have hb := Upstream.Budgets.of_reachable hr hmax hbuffer
    refine ⟨fun n => ⟨?_, ?_, ?_⟩, fun k bytes endStream rest stream t hh hk ht => ⟨?_, ?_⟩⟩
    · rw [held_eq]
      exact (hb.request n).bytes
    · rcases (hb.response n).bytes with hle | ⟨b, hone⟩
      · left
        rw [held_eq]
        exact hle
      · right
        refine ⟨b, hb.delivered n b ?_, hone⟩
        rw [← Tracked.mem_chunksOf, hone]
        exact List.mem_singleton_self _
    · rw [held_eq]
      exact (hb.call n).bytes
    · rw [Upstream.delivery_step hh hk ht]
      rcases (s.channels stream.channel).response.pushIfRoom_cases bytes with
        ⟨-, hsame⟩ | ⟨-, -, -, -, -, hin⟩
      · rw [hsame]
        exact Or.inr rfl
      · rw [hin, ResponseStreamInner.append_items]
        exact Or.inl rfl
    · intro hpos hfull
      rw [hb.refused hh hk ht hpos hfull]

/-- A delivery of three bytes where two fit is queued alone, and one byte more arrives. -/
def overflowing : List Upstream.Action :=
  [.queueStream "c" [] 0 true, .event, .work, .work, .work, .work, .returns .Success 7, .order [] [7],
    .work, .work, .work, .streamData 7 [[1, 2, 3]] false, .work, .work, .work,
    .streamData 7 [[4]] false]

theorem queues_within_budget_overflowing :
    ∃ s e t, Upstream.reported.run ({ config := { settings := ⟨10, 2⟩ } }, []) overflowing =
        some (s, e) ∧
      Upstream.step s .work = some t ∧
      (held (s.channels 0).response ≤ 2 ∨
        ∃ b ∈ e, chunksOf (s.channels 0).response.stream.items = [.Chunk b]) ∧
      held (s.channels 0).response = 3 ∧
      (t.channels 0).response.stream.items = (s.channels 0).response.stream.items := by
  have hrun : Upstream.reported.run ({ config := { settings := ⟨10, 2⟩ } }, []) overflowing =
      some _ := rfl
  have hc : Upstream.UpstreamConfig.intoSettings ⟨["c"], 1, 10, 2⟩ = .ok ⟨10, 2⟩ := by
    simp [Upstream.UpstreamConfig.intoSettings]
  obtain ⟨hall, hdelivery⟩ :=
    (queues_within_budget hc).2 _ _ (System.reach_of_run ⟨⟨_, rfl⟩, rfl⟩ hrun) rfl
  refine ⟨_, _, _, hrun, rfl, (hall 0).2.1, rfl, ?_⟩
  exact (hdelivery 7 [4] false _ _ _ rfl rfl rfl).2 (by decide) (by decide)

end Ruvoy
