import Ruvoy.Filter.Request
import Ruvoy.Filter.Writer

/-!
# Nothing is left lying between the two threads

Each direction goes on because the thread that changed a queue then raises an event on the other.

* `DrainInv`: what is in the response queue of a filter that holds it will be drained;
* `ForwardInv`: what Envoy holds of the request body will be forwarded once there is room. A frame
  that a filter ahead keeps back counts from the next call of this filter on (`keptBack`);
* **`nothing_stranded`**: both, at every moment of every run.
-/

set_option autoImplicit false

namespace Ruvoy.Filter

open Runs

/-! ## The response -/

/-- The worker is in the loop of `drain_stream`, or in the callback of the low watermark. -/
def Worker.resuming : Worker → Bool
  | .drainTake | .belowCommit _ => true
  | _ => false

/-- The worker is about to look at the response queue. -/
def Scheduled (s : State) : Prop :=
  0 < s.responseEvents ∨ 0 < s.responseWakes ∨ s.worker.resuming = true

structure DrainInv (s : State) : Prop where
  fresh : s.stage = .fresh → s.enqueued = false ∧ s.headPushed = false ∧ s.response.stream.items = []
  owed : s.stream = true → s.response.stream.paused = false → s.response.stream.items ≠ [] →
    Scheduled s

variable {s t : State}

theorem DrainInv.init (config : Config) : DrainInv { config := config } where
  fresh _ := ⟨rfl, rfl, rfl⟩
  owed := by rintro ⟨⟩

/-- A step that leaves the items where they are and takes back no event. -/
structure Waits (t s : State) : Prop where
  items : t.response.stream.items = s.response.stream.items
  paused : t.response.stream.paused = s.response.stream.paused
  stream : t.stream = true → s.stream = true
  enqueued : t.enqueued = s.enqueued
  headPushed : t.headPushed = s.headPushed
  stage : t.stage = .fresh → s.stage = .fresh
  events : s.responseEvents ≤ t.responseEvents
  wakes : s.responseWakes ≤ t.responseWakes
  worker : s.worker.resuming = true → t.worker.resuming = true

theorem DrainInv.wait (h : DrainInv s) (hw : Waits t s) : DrainInv t where
  fresh hf := by
    rw [hw.enqueued, hw.headPushed, hw.items]
    exact h.fresh (hw.stage hf)
  owed hst hp hi := by
    rw [hw.paused] at hp
    rw [hw.items] at hi
    rcases h.owed (hw.stream hst) hp hi with he | hk | hr
    · exact Or.inl (he.trans_le hw.events)
    · exact Or.inr (Or.inl (hk.trans_le hw.wakes))
    · exact Or.inr (Or.inr (hw.worker hr))

theorem DrainInv.same (h : DrainInv s) (hq : t.response = s.response) (hst : t.stream = s.stream)
    (hen : t.enqueued = s.enqueued) (hhp : t.headPushed = s.headPushed)
    (hf : t.stage = .fresh → s.stage = .fresh) (he : t.responseEvents = s.responseEvents)
    (hk : t.responseWakes = s.responseWakes)
    (hw : s.worker.resuming = true → t.worker.resuming = true) : DrainInv t :=
  h.wait ⟨by rw [hq], by rw [hq], hst ▸ id, hen, hhp, hf, he.ge, hk.ge, hw⟩

theorem not_resuming {w : Worker} (h : w.resuming = false) {P : Prop} : w.resuming = true → P := by
  intro hn
  rw [h] at hn
  cases hn

/-- The worker goes to look, or lets go of the queue. -/
theorem DrainInv.look (h : DrainInv s) (hen : t.enqueued = s.enqueued)
    (hhp : t.headPushed = s.headPushed) (hf : t.stage = s.stage)
    (hi : s.response.stream.items = [] → t.response.stream.items = [])
    (hw : t.stream = true → t.worker.resuming = true ∨ 0 < t.responseEvents) : DrainInv t where
  fresh hfresh := by
    rw [hen, hhp]
    exact (h.fresh (hf ▸ hfresh)).imp id (And.imp id hi)
  owed hst _ _ := (hw hst).elim (fun hr => Or.inr (Or.inr hr)) Or.inl

theorem responseWakes_produce (q : Tracked) (wake : Bool) :
    s.responseWakes ≤ (s.produce q wake).responseWakes := by
  unfold State.produce
  cases wake with
  | true => exact Nat.le_succ _
  | false => exact le_rfl

/-- A fiber pushed an item, and is to wake the worker. -/
theorem DrainInv.produce (h : DrainInv s) (hq : t.response.stream.paused = s.response.stream.paused)
    (hst : t.stream = s.stream) (hf : t.stage = s.stage) (hlive : s.stage ≠ .fresh)
    (he : t.responseEvents = s.responseEvents) (hw : t.worker = s.worker)
    (hk : s.responseWakes ≤ t.responseWakes)
    (hnew : t.response.stream.items = s.response.stream.items ∨ 0 < t.responseWakes) :
    DrainInv t where
  fresh hfresh := absurd (hf ▸ hfresh) hlive
  owed hst' hp hi := by
    rcases hnew with hsame | hpos
    · rw [hsame] at hi
      rcases h.owed (hst ▸ hst') (hq ▸ hp) hi with hev | hwk | hr
      · exact Or.inl (he ▸ hev)
      · exact Or.inr (Or.inl (hwk.trans_le hk))
      · exact Or.inr (Or.inr (hw ▸ hr))
    · exact Or.inr (Or.inl hpos)

/-- **`drain_stream` leaves its loop only with nothing to take.** -/
theorem DrainInv.drainStep (h : DrainInv s) : DrainInv s.drainStep := by
  rcases s.response.stream.takeNext_cases with ⟨hidle, hnone⟩ | ⟨x, rest, hp, hitems, hsome, hin⟩
  · have hq : s.response.takeNext = s.response := by
      rcases s.response.takeNext_cases with ⟨-, -, hq⟩ | ⟨x, rest, -, hsome, -⟩
      · exact hq
      · rw [hnone] at hsome
        cases hsome
    unfold State.drainStep
    rw [hnone, hq]
    refine ⟨h.fresh, fun _ hp hi => ?_⟩
    rcases hidle with hpaused | hempty
    · exact absurd (hpaused.symm.trans hp) Bool.false_ne_true.symm
    · exact absurd hempty hi
  · have hnil : s.response.stream.items = [] → s.response.takeNext.stream.items = [] := by
      intro hno
      rw [hitems] at hno
      cases hno
    simp only [State.drainStep, hsome]
    cases x with
    | Head head =>
      simp only [State.drainItem]
      split_ifs <;> exact h.look rfl rfl rfl hnil fun _ => Or.inl rfl
    | Chunk chunk =>
      simp only [State.drainItem]
      split_ifs <;> exact h.look rfl rfl rfl hnil fun _ => Or.inl rfl
    | End => exact h.look rfl rfl rfl hnil (by rintro ⟨⟩)
    | Failed error =>
      simp only [State.drainItem]
      split_ifs <;> exact h.look rfl rfl rfl hnil (by rintro ⟨⟩)

theorem DrainInv.request (h : DrainInv s) (hs : t = { s with
      request := t.request
      requestEndPending := t.requestEndPending
      retained := t.retained
      frame := t.frame
      wakeups := t.wakeups
      worker := t.worker }) (hw : s.worker.resuming = false) : DrainInv t := by
  refine h.same ?_ ?_ ?_ ?_ ?_ ?_ ?_ (not_resuming hw)
  all_goals rw [hs]
  exact id

theorem DrainInv.forwardRequestBody (h : DrainInv s) (hw : s.worker.resuming = false) :
    DrainInv s.forwardRequestBody := by
  obtain ⟨hs, -⟩ := forwardRequestBody_frame (s := s)
  refine h.request ?_ hw
  rw [hs]

theorem DrainInv.workStep (h : DrainInv s) (ht : s.workStep = some t) : DrainInv t := by
  cases hw : s.worker with
  | forward k =>
    simp only [State.workStep, hw] at ht
    exact h.request (forwardStep_frame ht).1 (by rw [hw]; rfl)
  | drainTake =>
    simp only [State.workStep, hw, Option.some.injEq] at ht
    subst ht
    exact h.drainStep
  | drainCheck | drainWake | drainDone | dropCheck | dropWake | dropRequestWake =>
    simp only [State.workStep, hw, Option.some.injEq] at ht
    subst ht
    exact h.same rfl rfl rfl rfl id rfl rfl (not_resuming (by rw [hw]; rfl))
  | belowCommit draining =>
    simp only [State.workStep, hw, Option.some.injEq] at ht
    subst ht
    exact h.look rfl rfl rfl id fun _ => Or.inr (Nat.succ_pos _)
  | dropCancel =>
    simp only [State.workStep, hw] at ht
    split_ifs at ht <;> cases ht
    · exact h.look rfl rfl rfl (fun _ => rfl) (by rintro ⟨⟩)
    · exact h.same rfl rfl rfl rfl id rfl rfl (not_resuming (by rw [hw]; rfl))
  | dropRequest =>
    simp only [State.workStep, hw] at ht
    split_ifs at ht <;> cases ht <;>
      exact h.same rfl rfl rfl rfl id rfl rfl (not_resuming (by rw [hw]; rfl))
  | idle | dropped => simp [State.workStep, hw] at ht

theorem DrainInv.onRequestHeaders (h : DrainInv s) (hw : s.worker = .idle) (hf : s.stage = .fresh)
    (submission : State.Submission) (eos : Bool) : DrainInv (s.onRequestHeaders submission eos) := by
  obtain ⟨-, -, hnil⟩ := h.fresh hf
  have hunw : (s.submit submission).worker.resuming = false := by
    cases submission <;> (show s.worker.resuming = false) <;> rw [hw] <;> rfl
  have hsub : DrainInv { s.submit submission with
      stage := .live
      clientDone := eos
      requestEndPending := eos } := by
    cases submission <;> exact ⟨by rintro ⟨⟩, fun _ _ hne => absurd hnil hne⟩
  unfold State.onRequestHeaders
  dsimp only
  split_ifs
  · exact hsub.forwardRequestBody hunw
  · exact hsub

/-- A filter that holds the queue is answering, so it takes the event up. -/
theorem DrainInv.responseEvent (h : DrainInv s) (hi : ResponseInv s)
    (hno : ¬ ((s.state = .Waiting ∨ s.state = .Streaming) ∧ s.stream = true)) :
    DrainInv { s with responseEvents := s.responseEvents - 1 } := by
  refine h.look rfl rfl rfl id fun hst => absurd ⟨?_, hst⟩ hno
  have hans := (hi.held hst).2
  cases hf : s.state <;> rw [hf] at hans <;>
    first | exact Or.inl rfl | exact Or.inr rfl | cases hans

theorem DrainInv.pushHead (h : DrainInv s) (hen : s.enqueued = true) (head : ResponseHead) :
    DrainInv { s.produce (s.response.push (.Head head)) (s.response.stream.push (.Head head)).1 with
      headPushed := (s.response.stream.push (.Head head)).1 } := by
  have hlive : s.stage ≠ .fresh := fun hf => by simp [(h.fresh hf).1] at hen
  refine h.produce (ResponseStream.push_paused _) rfl rfl hlive rfl rfl
    (responseWakes_produce (s.response.push (.Head head)) _) ?_
  rcases s.response.stream.push_cases (.Head head) with ⟨-, hno⟩ | ⟨-, -, hok, -⟩
  · refine Or.inl ?_
    show (s.response.stream.push (.Head head)).2.items = _
    rw [hno]
  · refine Or.inr ?_
    show 0 < (if (s.response.stream.push (.Head head)).1 = true then _ else _)
    rw [if_pos hok]
    omega

theorem DrainInv.write (h : DrainInv s) (hh : s.headPushed = true) (bytes : Bytes) :
    DrainInv (s.produce (s.response.pushWithinBudget bytes)
      (decide (0 < (s.response.stream.pushChunkWithinBudget bytes).1.getD 0))) := by
  have hlive : s.stage ≠ .fresh := fun hf => by simp [(h.fresh hf).2.1] at hh
  refine h.produce (ResponseStream.pushChunkWithinBudget_paused _) rfl rfl hlive rfl rfl
    (responseWakes_produce (s.response.pushWithinBudget bytes) _) ?_
  rcases s.response.stream.pushChunkWithinBudget_cases bytes with
    ⟨-, hsame⟩ | ⟨n, hn, -, -, -, -, hok, -⟩
  · refine Or.inl ?_
    show (s.response.stream.pushChunkWithinBudget bytes).2.items = _
    rw [hsame]
  · refine Or.inr ?_
    show 0 < (if decide (0 < (s.response.stream.pushChunkWithinBudget bytes).1.getD 0) = true
      then _ else _)
    rw [hok, Option.getD_some, if_pos (decide_eq_true hn)]
    omega

/-- An `End` or a `Failed` wakes the worker, whether the queue takes it or not. -/
theorem DrainInv.pushLast (h : DrainInv s) (hlive : s.stage ≠ .fresh) (item : StreamItem) :
    DrainInv (s.produce (s.response.push item) true) :=
  h.produce (ResponseStream.push_paused _) rfl rfl hlive rfl rfl (Nat.le_succ _)
    (Or.inr (Nat.succ_pos _))

theorem DrainInv.step (h : DrainInv s) (hi : ResponseInv s) {a : Action} (ht : step s a = some t) :
    DrainInv t := by
  cases step_moves ht with
  | headers hw hf submission eos => exact h.onRequestHeaders hw hf submission eos
  | invalid | complete => exact h.same rfl rfl rfl rfl (by rintro ⟨⟩) rfl rfl id
  | body hw | redeliver hw | trailers hw | requestEvent hw =>
    refine DrainInv.forwardRequestBody ?_ (by rw [hw]; rfl)
    exact h.same rfl rfl rfl rfl id rfl rfl id
  | drain | below => exact h.look rfl rfl rfl id fun _ => Or.inl rfl
  | responseEvent _ _ hno => exact h.responseEvent hi hno
  | above => exact ⟨h.fresh, by rintro - ⟨⟩⟩
  | released => exact h
  | drop hw | slices hw => exact h.same rfl rfl rfl rfl id rfl rfl (not_resuming (by rw [hw]; rfl))
  | work ht => exact h.workStep ht
  | pushHead hen _ head => exact h.pushHead hen head
  | pushFailure hen error =>
    exact h.pushLast (fun hf => by simp [(h.fresh hf).1] at hen) (.Failed error)
  | write hh bytes => exact h.write hh bytes
  | finish hh => exact h.pushLast (fun hf => by simp [(h.fresh hf).2.1] at hh) .End
  | wakeResponse => exact h.look rfl rfl rfl id fun _ => Or.inr (Nat.succ_pos _)
  | parkWriter _ _ v =>
    exact h.wait ⟨ResponseStream.parkWriter_items v, ResponseStream.parkWriter_paused v, id, rfl, rfl, id,
      le_rfl, le_rfl, id⟩
  | leaveWriter => exact h.wait ⟨rfl, rfl, id, rfl, rfl, id, le_rfl, le_rfl, id⟩
  | @resolve q => cases q <;> exact h.wait ⟨rfl, rfl, id, rfl, rfl, id, le_rfl, le_rfl, id⟩
  | _ => exact h.same rfl rfl rfl rfl id rfl rfl id

theorem DrainInv.of_reachable (h : system.Reachable s) : DrainInv s := by
  refine h.inductOn (fun s hs => ResponseInv.of_reachable hs) ?_ ?_
  · rintro _ ⟨config, rfl⟩
    exact .init config
  · intro s a t hi hs _ ht
    exact hs.step hi ht

/-! ## The request -/

/-- The bytes at the end of Envoy's buffer that a filter ahead kept back since the last call of
`forward_request_body`. -/
def keptBack (_ : State) : Action → ℕ → ℕ
  | .buffer bytes, kept => kept + bytes.length
  | .headers _ true, _ | .body _ _, _ | .redeliver _, _ | .trailers, _ | .event .request, _ => 0
  | _, kept => kept

/-- The filter, with a note of what is kept back from it. -/
def keeping : System (State × ℕ) Action := system.recording 0 keptBack

/-- An event for the request is scheduled, or a fiber is about to schedule one. -/
def Called (s : State) : Prop := 0 < s.requestEvents ∨ 0 < s.requestWakes

/-- What the worker is still to copy. -/
def Worker.allowance : Worker → ℕ
  | .forward (.slices _ limit _) => limit
  | .forward (.copy _ _ limit copied _) => limit - copied
  | _ => 0

/-- What is pending will be copied or was kept back, or what will be copied fills the queue. -/
def Covered (s : State) (kept : ℕ) : Prop :=
  (s.pending s.worker).length ≤ s.worker.allowance + kept ∨
    s.request.stream.maxBufferedBytes ≤ s.request.stream.bufferedBytes + s.worker.allowance

structure ForwardInv (s : State) (kept : ℕ) : Prop where
  fresh : s.stage = .fresh → s.retained.length ≤ kept
  ending : s.requestBody = true → s.requestEndPending = true → kept = 0
  going : s.requestBody = true → Called s ∨ s.worker = .forward .room ∨ Covered s kept

variable {kept : ℕ}

theorem ForwardInv.init (config : Config) : ForwardInv { config := config } 0 where
  fresh _ := le_rfl
  ending := by rintro ⟨⟩
  going := by rintro ⟨⟩

theorem allowance_of_calm {w : Worker} (h : w.calm = true) : w.allowance = 0 := by
  cases w with
  | forward k => cases h
  | _ => rfl

/-- Nothing changes of what Envoy holds and how full the queue is. -/
structure Aside (t s : State) : Prop where
  bytes : t.request.stream.bufferedBytes = s.request.stream.bufferedBytes
  max : t.request.stream.maxBufferedBytes = s.request.stream.maxBufferedBytes
  retained : t.retained = s.retained
  frame : t.frame = s.frame
  requestEndPending : t.requestEndPending = true → s.requestEndPending = true
  requestBody : t.requestBody = true → s.requestBody = true
  stage : t.stage = .fresh → s.stage = .fresh
  called : Called s → Called t
  worker : t.worker = s.worker ∨ t.worker.calm = true ∧ s.worker.calm = true

theorem ForwardInv.aside (h : ForwardInv s kept) (ha : Aside t s) : ForwardInv t kept where
  fresh hf := by
    rw [ha.retained]
    exact h.fresh (ha.stage hf)
  ending hb he := h.ending (ha.requestBody hb) (ha.requestEndPending he)
  going hb := by
    have hcov : Covered s kept → Covered t kept := by
      unfold Covered
      rw [ha.bytes, ha.max]
      rcases ha.worker with hw | ⟨ht, hs⟩
      · rw [hw, pending_congr ha.retained ha.frame]
        exact id
      · rw [pending_of_calm ht, pending_of_calm hs, allowance_of_calm ht, allowance_of_calm hs,
          ha.retained, ha.frame]
        exact id
    rcases h.going (ha.requestBody hb) with hc | hr | hcov'
    · exact Or.inl (ha.called hc)
    · rcases ha.worker with hw | ⟨-, hs⟩
      · exact Or.inr (Or.inl (hw.trans hr))
      · rw [hr] at hs
        cases hs
    · exact Or.inr (Or.inr (hcov hcov'))

theorem ForwardInv.letGo (hb : t.requestBody = false) (hf : t.stage ≠ .fresh) : ForwardInv t kept where
  fresh h := absurd h hf
  ending h := by rw [hb] at h; cases h
  going h := by rw [hb] at h; cases h

/-! ### The copy -/

theorem covered_of {left : Bytes} {n : ℕ} (hp : t.pending t.worker = left)
    (hq : t.request = s.request) (hn : t.worker.allowance = n)
    (h : left.length ≤ n + kept ∨
      s.request.stream.maxBufferedBytes ≤ s.request.stream.bufferedBytes + n) : Covered t kept := by
  unfold Covered
  rw [hp, hq, hn]
  exact h

/-- The end of a copy, with all it was to copy behind it or the buffer at its end. -/
theorem covered_endCopy {source : BodySource} {limit copied before : ℕ}
    (hsrc : source = .Received → s.frame ≠ .buffered)
    (hret : source = .Retained → copied < limit → s.retained.drop copied = [])
    (hrec : source = .Received → copied < limit → Held.leftOf s copied .Received = [])
    (hcov : (Held.leftOf s copied source).length ≤ limit - copied + kept ∨
      s.request.stream.maxBufferedBytes ≤ s.request.stream.bufferedBytes + (limit - copied)) :
    Covered (s.endCopy source limit copied before) kept := by
  obtain ⟨hleft, hq, -, -, -, -, -, -, -⟩ := Held.drainBody_pending (s := s) copied source hsrc
  -- the copy is over when nothing was left to copy, or nothing is left in the buffers
  have hover : limit - copied = 0 ∨ Held.leftOf s copied source = [] →
      (Held.leftOf s copied source).length ≤ 0 + kept ∨
        s.request.stream.maxBufferedBytes ≤ s.request.stream.bufferedBytes + 0 := by
    rintro (h0 | h0)
    · rwa [h0] at hcov
    · refine Or.inl ?_
      rw [h0]
      exact Nat.zero_le _
  cases source with
  | Retained =>
    unfold State.endCopy
    by_cases hgo : (decide (copied < limit) && !s.receivedIsRetained) = true
    · simp only [hgo, if_true]
      exact covered_of hleft hq rfl hcov
    · simp only [hgo]
      refine covered_of hleft hq rfl (hover ?_)
      by_cases hlt : copied < limit
      · refine Or.inr ?_
        have hbuf : s.frame = .buffered := by simpa [hlt, State.receivedIsRetained] using hgo
        rw [Held.leftOf, hret rfl hlt, hbuf]
        rfl
      · omega
  | Received =>
    refine covered_of hleft hq rfl (hover ?_)
    by_cases hlt : copied < limit
    · exact Or.inr (hrec rfl hlt)
    · omega

theorem push_bytes (h : Held s) (he : s.request.stream.ended = false) (x : StreamItem) :
    (s.request.push x).stream.bufferedBytes = s.request.stream.bufferedBytes + x.bytes.length := by
  rcases s.request.push_cases x with ⟨hshut, -⟩ | ⟨-, -, -, -, hin⟩
  · rw [h.uncancelled, he] at hshut
    cases hshut
  · rw [hin]
    rfl

/-- A slice that is pushed is no longer pending, and fills the queue by as much as is less left to
copy. -/
theorem covered_copyStep (h : Held s) {source : BodySource} {buffers : List Bytes}
    {limit copied before : ℕ} (hw : s.worker = .forward (.copy source buffers limit copied before))
    (hcov : Covered s kept)
    (ht : s.forwardStep (.copy source buffers limit copied before) = some t) : Covered t kept := by
  have hcopy := h.copying
  rw [hw] at hcopy
  have hpend : s.pending s.worker = Held.leftOf s copied source := by
    rw [hw]
    cases source <;> rfl
  have hsrc : source = .Received → s.frame ≠ .buffered := by
    rintro rfl
    exact hcopy.1.2
  have hcov' : (Held.leftOf s copied source).length ≤ limit - copied + kept ∨
      s.request.stream.maxBufferedBytes ≤ s.request.stream.bufferedBytes + (limit - copied) := by
    unfold Covered at hcov
    rw [hpend, hw] at hcov
    exact hcov
  cases buffers with
  | nil =>
    simp only [State.forwardStep, Option.some.injEq] at ht
    subst ht
    refine covered_endCopy hsrc ?_ ?_ hcov'
    · rintro rfl hlt
      exact (hcopy.flatten hlt).symm
    · rintro rfl hlt
      rw [Held.leftOf, hcopy.1.1, ← hcopy.2.flatten hlt]
      rfl
  | cons slice rest =>
    simp only [State.forwardStep] at ht
    have hlen : 0 < slice.length := by
      refine List.length_pos_iff.mpr ?_
      cases source with
      | Retained => exact hcopy.nonempty slice List.mem_cons_self
      | Received => exact hcopy.2.nonempty slice List.mem_cons_self
    by_cases htake : min slice.length (limit - copied) = 0
    · rw [if_pos htake, Option.some.injEq] at ht
      subst ht
      refine covered_endCopy hsrc ?_ ?_ hcov' <;> rintro - hlt <;> omega
    · rw [if_neg htake, Option.some.injEq] at ht
      subst ht
      have hlt : copied < limit := by omega
      have hless : (Held.leftOf s (copied + min slice.length (limit - copied)) source).length +
          min slice.length (limit - copied) = (Held.leftOf s copied source).length := by
        cases source with
        | Retained =>
          have hnext := congrArg List.length (Held.copies_next hcopy hlt).1
          simp only [List.length_append, List.length_take, Held.leftOf] at hnext ⊢
          omega
        | Received =>
          have hnext := congrArg List.length (Held.copies_next hcopy.2 hlt).1
          simp only [List.length_append, List.length_take, Held.leftOf] at hnext ⊢
          omega
      have hne : s.pending s.worker ≠ [] := by
        rw [hpend, ← List.length_pos_iff]
        omega
      have hbytes := push_bytes h (h.not_ended hne)
        (.Chunk (slice.take (min slice.length (limit - copied))))
      rw [bytes_chunk, List.length_take] at hbytes
      unfold Covered
      rw [show State.pending _ _ = Held.leftOf s (copied + min slice.length (limit - copied)) source by
        cases source <;> rfl]
      show _ ≤ limit - (copied + _) + kept ∨ s.request.stream.maxBufferedBytes ≤
        (s.request.push _).stream.bufferedBytes + (limit - (copied + _))
      rw [hbytes]
      omega

theorem requestEndPending_forwardStep {k : Forward} (ht : s.forwardStep k = some t) :
    t.requestEndPending = true → s.requestEndPending = true := by
  have hcopy : ∀ source limit copied before,
      (s.endCopy source limit copied before).requestEndPending = s.requestEndPending := by
    intro source limit copied before
    rw [(endCopy_frame (s := s) source limit copied before).1]
  cases k with
  | room =>
    simp only [State.forwardStep, Option.some.injEq] at ht
    subst ht
    exact id
  | slices source limit before =>
    simp only [State.forwardStep, Option.ite_none_right_eq_some, Option.some.injEq] at ht
    obtain ⟨-, rfl⟩ := ht
    rw [hcopy]
    exact id
  | copy source buffers limit copied before =>
    cases buffers with
    | nil =>
      simp only [State.forwardStep, Option.some.injEq] at ht
      subst ht
      rw [hcopy]
      exact id
    | cons slice rest =>
      simp only [State.forwardStep] at ht
      split_ifs at ht <;> cases ht
      · rw [hcopy]
        exact id
      · exact id
  | finish copied =>
    simp only [State.forwardStep, Option.some.injEq] at ht
    subst ht
    dsimp only
    split_ifs
    · rintro ⟨⟩
    · exact id
  | wake owed =>
    simp only [State.forwardStep, Option.some.injEq] at ht
    subst ht
    cases owed <;> exact id

/-- The room for the copy is asked for once, and each further step keeps to it. -/
theorem covered_forwardStep (h : Held s) {k : Forward} (hw : s.worker = .forward k)
    (hcov : k = .room ∨ Covered s kept) (ht : s.forwardStep k = some t) : Covered t kept := by
  cases k with
  | room =>
    simp only [State.forwardStep, Option.some.injEq] at ht
    subst ht
    have hall : s.retained.length + (if s.receivedIsRetained then 0 else s.receivedSize) =
        (s.retained ++ s.frame.bytes).length := by
      rw [List.length_append]
      cases hf : s.frame <;>
        simp [State.receivedIsRetained, State.receivedSize, State.size, hf, Frame.bytes]
    refine covered_of (s := s) (n := min (s.retained.length +
      (if s.receivedIsRetained then 0 else s.receivedSize)) s.request.stream.spareCapacity) rfl rfl rfl ?_
    rw [hall, ResponseStream.spareCapacity, ResponseStreamInner.spareCapacity]
    show (s.retained ++ s.frame.bytes).length ≤ _ ∨ _
    omega
  | slices source limit before =>
    simp only [State.forwardStep, Option.ite_none_right_eq_some, Option.some.injEq] at ht
    obtain ⟨h0, rfl⟩ := ht
    have hcopy := h.copying
    rw [hw] at hcopy
    refine covered_endCopy ?_ (fun _ hlt => by omega) (fun _ hlt => by omega) ?_
    · rintro rfl
      exact hcopy.2
    · have hcov' := hcov.resolve_left (by rintro ⟨⟩)
      unfold Covered at hcov'
      rw [hw, show s.pending (.forward (.slices source limit before)) = Held.leftOf s 0 source by
        cases source <;> simp [State.pending, Held.leftOf]] at hcov'
      exact hcov'
  | copy source buffers limit copied before =>
    exact covered_copyStep h hw (hcov.resolve_left (by rintro ⟨⟩)) ht
  | finish copied =>
    simp only [State.forwardStep, Option.some.injEq] at ht
    subst ht
    have hcov' := hcov.resolve_left (by rintro ⟨⟩)
    unfold Covered at hcov' ⊢
    rw [hw] at hcov'
    refine hcov'.imp id fun hfull => ?_
    by_cases hend : (s.requestEndPending && s.retained.length == 0 && s.receivedSize == 0) = true
    · simp only [hend, if_true]
      refine hfull.trans (Nat.add_le_add_right ?_ _)
      rcases s.request.push_cases .End with ⟨-, hq⟩ | ⟨-, -, -, -, hin⟩
      · rw [hq]
      · rw [hin]
        exact Nat.le_add_right _ _
    · simp only [hend]
      exact hfull
  | wake owed =>
    simp only [State.forwardStep, Option.some.injEq] at ht
    subst ht
    have hcov' := hcov.resolve_left (by rintro ⟨⟩)
    unfold Covered at hcov'
    rw [hw] at hcov'
    have hend : Covered s.endCallback kept := by
      refine covered_of (s := s) (n := 0) ?_ rfl rfl hcov'
      show s.endCallback.retained ++ [] = _
      rw [List.append_nil, Held.endCallback_retained]
      rfl
    cases owed <;> exact hend

/-- **One step of `forward_request_body` keeps the invariant.** -/
theorem ForwardInv.forwardStep (h : ForwardInv s kept) (hi : RequestInv s) {k : Forward}
    (hw : s.worker = .forward k) (ht : s.forwardStep k = some t) : ForwardInv t kept := by
  obtain ⟨hs, -, -⟩ := forwardStep_frame ht
  have hbody : t.requestBody = s.requestBody := by rw [hs]
  refine ⟨fun hf => ?_, fun hb he => ?_, fun hb => ?_⟩
  · have hcalm := (hi.fresh (by rw [hs] at hf; exact hf)).calm
    rw [hw] at hcalm
    cases hcalm
  · exact h.ending (hbody ▸ hb) (requestEndPending_forwardStep ht he)
  · rcases h.going (hbody ▸ hb) with hc | hr | hcov
    · refine Or.inl ?_
      unfold Called
      rw [hs]
      exact hc
    · refine Or.inr (Or.inr (covered_forwardStep (hi.held (hbody ▸ hb)) hw (Or.inl ?_) ht))
      rw [hw] at hr
      cases hr
      rfl
    · exact Or.inr (Or.inr (covered_forwardStep (hi.held (hbody ▸ hb)) hw (Or.inr hcov) ht))

/-! ### Every step -/

theorem ForwardInv.drainStep (h : ForwardInv s kept) (hw : s.worker = .drainTake) :
    ForwardInv s.drainStep kept := by
  have hcalm : s.worker.calm = true := by rw [hw]; rfl
  unfold State.drainStep
  split
  · next item _ =>
    cases item with
    | Head head =>
      simp only [State.drainItem]
      split_ifs <;> exact h.aside ⟨rfl, rfl, rfl, rfl, id, id, id, id, Or.inr ⟨rfl, hcalm⟩⟩
    | Chunk chunk =>
      simp only [State.drainItem]
      split_ifs <;> exact h.aside ⟨rfl, rfl, rfl, rfl, id, id, id, id, Or.inr ⟨rfl, hcalm⟩⟩
    | End => exact h.aside ⟨rfl, rfl, rfl, rfl, id, id, id, id, Or.inr ⟨rfl, hcalm⟩⟩
    | Failed error =>
      simp only [State.drainItem]
      split_ifs
      · exact h.aside ⟨rfl, rfl, rfl, rfl, by rintro ⟨⟩, by rintro ⟨⟩, id, id, Or.inr ⟨rfl, hcalm⟩⟩
      · exact h.aside ⟨rfl, rfl, rfl, rfl, id, id, id, id, Or.inr ⟨rfl, hcalm⟩⟩
  · exact h.aside ⟨rfl, rfl, rfl, rfl, id, id, id, id, Or.inr ⟨rfl, hcalm⟩⟩

theorem ForwardInv.workStep (h : ForwardInv s kept) (hi : RequestInv s) (ht : s.workStep = some t) :
    ForwardInv t kept := by
  cases hw : s.worker with
  | forward k =>
    simp only [State.workStep, hw] at ht
    exact h.forwardStep hi hw ht
  | drainTake =>
    simp only [State.workStep, hw, Option.some.injEq] at ht
    subst ht
    exact h.drainStep hw
  | drainCheck | belowCommit draining | dropCheck =>
    simp only [State.workStep, hw, Option.some.injEq] at ht
    subst ht
    refine h.aside ⟨rfl, rfl, rfl, rfl, id, id, id, id, Or.inr ⟨?_, by rw [hw]; rfl⟩⟩
    dsimp only
    split_ifs <;> rfl
  | drainWake | drainDone | dropWake | dropRequestWake =>
    simp only [State.workStep, hw, Option.some.injEq] at ht
    subst ht
    exact h.aside ⟨rfl, rfl, rfl, rfl, id, id, id, id, Or.inr ⟨rfl, by rw [hw]; rfl⟩⟩
  | dropCancel =>
    simp only [State.workStep, hw] at ht
    split_ifs at ht <;> cases ht <;>
      exact h.aside ⟨rfl, rfl, rfl, rfl, id, id, id, id, Or.inr ⟨rfl, by rw [hw]; rfl⟩⟩
  | dropRequest =>
    simp only [State.workStep, hw] at ht
    split_ifs at ht <;> cases ht
    · exact ⟨h.fresh, by rintro ⟨⟩, by rintro ⟨⟩⟩
    · exact h.aside ⟨rfl, rfl, rfl, rfl, id, id, id, id, Or.inr ⟨rfl, by rw [hw]; rfl⟩⟩
  | idle | dropped => simp [State.workStep, hw] at ht

theorem ForwardInv.forwardRequestBody (hf : s.stage ≠ .fresh) : ForwardInv s.forwardRequestBody 0 := by
  unfold State.forwardRequestBody
  split_ifs with hb
  · exact ⟨fun h => absurd h hf, fun _ _ => rfl, fun _ => Or.inr (Or.inl rfl)⟩
  · exact .letGo (Bool.eq_false_iff.mpr hb) hf

theorem ForwardInv.onRequestHeaders (h : ForwardInv s kept) (hi : RequestInv s)
    (hw : s.worker = .idle) (hf : s.stage = .fresh) (submission : State.Submission) (eos : Bool) :
    ForwardInv (s.onRequestHeaders submission eos) (keptBack s (.headers submission eos) kept) := by
  unfold State.onRequestHeaders
  cases eos with
  | true => exact .forwardRequestBody (by rintro ⟨⟩)
  | false =>
    cases submission with
    | refused error enqueued => exact .letGo rfl (by rintro ⟨⟩)
    | accepted =>
      refine ⟨by rintro ⟨⟩, by rintro - ⟨⟩, fun _ => Or.inr (Or.inr (Or.inl ?_))⟩
      show (State.pending _ s.worker).length ≤ s.worker.allowance + kept
      rw [hw]
      show (s.retained ++ s.frame.bytes).length ≤ 0 + kept
      rw [(hi.fresh hf).frame, List.length_append, Nat.zero_add]
      exact h.fresh hf

/-- What a filter ahead keeps back is not pending for this one. -/
theorem ForwardInv.buffer (h : ForwardInv s kept) (hi : RequestInv s) (hw : s.worker = .idle)
    (hd : s.clientDone = false) (bytes : Bytes) :
    ForwardInv { s with retained := s.retained ++ bytes, client := s.client ++ bytes }
      (kept + bytes.length) where
  fresh hf := by
    have hkept := h.fresh hf
    rw [List.length_append]
    omega
  ending hb he := by
    have hdone := (hi.held hb).begun he
    rw [hd] at hdone
    cases hdone
  going hb := by
    refine (h.going hb).imp id fun hgo => Or.inr ?_
    rcases hgo with hr | hcov
    · rw [hw] at hr
      cases hr
    · unfold Covered at hcov ⊢
      rw [hw] at hcov
      show (State.pending _ s.worker).length ≤ s.worker.allowance + _ ∨ _ ≤ _ + s.worker.allowance
      rw [hw]
      refine hcov.imp (fun hle => ?_) id
      have hle' : (s.retained ++ s.frame.bytes).length ≤ 0 + kept := hle
      show ((s.retained ++ bytes) ++ s.frame.bytes).length ≤ 0 + (kept + bytes.length)
      simp only [List.length_append] at hle' ⊢
      omega

/-- A fiber that makes room is about to wake the worker. -/
theorem ForwardInv.takeRequest (h : ForwardInv s kept) :
    ForwardInv { s with
      request := s.request.takeNext
      requestWakes :=
        if s.request.stream.takeNext.1.isSome then s.requestWakes + 1 else s.requestWakes } kept := by
  rcases s.request.takeNext_cases with ⟨-, hnone, hq⟩ | ⟨x, rest, -, hsome, -⟩
  · rw [hnone, hq]
    exact h.aside ⟨rfl, rfl, rfl, rfl, id, id, id, id, Or.inl rfl⟩
  · rw [hsome]
    exact ⟨h.fresh, h.ending, fun _ => Or.inl (Or.inr (Nat.succ_pos _))⟩

theorem ForwardInv.slices (h : ForwardInv s kept) {source : BodySource} {limit before : ℕ}
    (hw : s.worker = .forward (.slices source limit before)) (buffers : List Bytes) :
    ForwardInv { s with worker := .forward (.copy source buffers limit 0 before) } kept := by
  refine ⟨h.fresh, h.ending, fun hb => (h.going hb).imp id fun hgo => Or.inr ?_⟩
  rcases hgo with hr | hcov
  · rw [hw] at hr
    cases hr
  · unfold Covered at hcov
    rw [hw] at hcov
    refine covered_of (s := s) ?_ rfl rfl hcov
    cases source <;> rfl

theorem ForwardInv.step (h : ForwardInv s kept) (hi : RequestInv s) {a : Action}
    (ht : step s a = some t) : ForwardInv t (keptBack s a kept) := by
  cases step_moves ht with
  | headers hw hf submission eos => exact h.onRequestHeaders hi hw hf submission eos
  | invalid => exact .letGo rfl (by rintro ⟨⟩)
  | body _ hl | redeliver _ hl | trailers _ hl | requestEvent _ hl =>
    refine ForwardInv.forwardRequestBody ?_
    show s.stage ≠ .fresh
    rw [hl]
    rintro ⟨⟩
  | buffer hw _ hd bytes => exact h.buffer hi hw hd bytes
  | drain hw | drop hw =>
    exact h.aside ⟨rfl, rfl, rfl, rfl, id, id, id, id, Or.inr ⟨rfl, by rw [hw]; rfl⟩⟩
  | below hm =>
    exact h.aside ⟨rfl, rfl, rfl, rfl, id, id, id, id, Or.inr ⟨rfl, calm_of_watermarkable hm⟩⟩
  | released ha => rcases ha with rfl | rfl <;> exact h
  | complete => exact h.aside ⟨rfl, rfl, rfl, rfl, id, id, by rintro ⟨⟩, id, Or.inl rfl⟩
  | work ht => exact h.workStep hi ht
  | @slices source limit before buffers hw => exact h.slices hw buffers
  | takeRequest => exact h.takeRequest
  | wakeRequest =>
    exact h.aside ⟨rfl, rfl, rfl, rfl, id, id, id, fun _ => Or.inl (Nat.succ_pos _), Or.inl rfl⟩
  | parkReader _ v =>
    exact h.aside ⟨ResponseStream.park_bytes v, rfl, rfl, rfl, id, id, id, id, Or.inl rfl⟩
  | @resolve q => cases q <;> exact h.aside ⟨rfl, rfl, rfl, rfl, id, id, id, id, Or.inl rfl⟩
  | _ => exact h.aside ⟨rfl, rfl, rfl, rfl, id, id, id, id, Or.inl rfl⟩

theorem ForwardInv.of_reachable {p : State × ℕ} (h : keeping.Reachable p) : ForwardInv p.1 p.2 := by
  refine h.inductOn (Q := fun p => RequestInv p.1) (P := fun p => ForwardInv p.1 p.2) ?_ ?_ ?_
  · exact fun p hp => RequestInv.of_reachable (hp.forget fun _ _ _ => trivial)
  · rintro ⟨s, n⟩ ⟨⟨config, rfl⟩, rfl⟩
    exact .init config
  · rintro ⟨s, n⟩ a ⟨t, m⟩ hi hs - ht
    obtain ⟨ht, hm⟩ := System.recording_step.mp ht
    have hnext := hs.step hi ht
    rw [← hm] at hnext
    exact hnext

/-! ## Both directions -/

/-- Between callbacks a filter with room in its queue has forwarded all that it was called with. -/
theorem not_held_of_covered (h : ForwardInv s kept) (hi : RequestInv s) (hb : s.requestBody = true)
    (hroom : s.request.stream.full = false) (hw : s.worker.calm = true) (hcov : Covered s kept) :
    ¬ (kept < s.retained.length + s.frame.bytes.length ∨ s.requestEndPending = true) := by
  unfold Covered at hcov
  rw [pending_of_calm hw, allowance_of_calm hw, Nat.zero_add, Nat.add_zero, List.length_append] at hcov
  have hless : ¬ s.request.stream.maxBufferedBytes ≤ s.request.stream.bufferedBytes := by
    obtain ⟨-, hd⟩ := Bool.or_eq_false_iff.mp hroom
    exact of_decide_eq_false hd
  have hle := hcov.resolve_right hless
  rintro (hlt | hend)
  · omega
  · have hkept := h.ending hb hend
    have hne := ((copying_of_calm hw).mp (hi.held hb).copying).2 hend
    have hpos := List.length_pos_iff.mpr hne
    omega

/-- **Nothing is stranded between the two threads.** While the filter holds the request queue and it is
not full, bytes Envoy holds for the filter, or an end that waits, have an event scheduled for them, or
the worker is in `forward_request_body`, or a fiber that took a piece is about to wake the worker. While
the filter holds the response queue and is answering, items in it that are not paused have an event
scheduled for them, or the worker is draining, or a fiber that pushed is about to wake the worker, or
the callback of the low watermark is about to schedule the event. -/
theorem nothing_stranded {p : State × ℕ} (h : keeping.Reachable p) :
    (p.1.requestBody = true → p.1.request.stream.full = false →
      (p.2 < p.1.retained.length + p.1.frame.bytes.length ∨ p.1.requestEndPending = true) →
      0 < p.1.requestEvents ∨ (∃ k, p.1.worker = .forward k) ∨ 0 < p.1.requestWakes) ∧
    (p.1.stream = true → (p.1.state = .Waiting ∨ p.1.state = .Streaming) →
      p.1.response.stream.items ≠ [] → p.1.response.stream.paused = false →
      0 < p.1.responseEvents ∨ p.1.worker = .drainTake ∨ 0 < p.1.responseWakes ∨
        ∃ draining, p.1.worker = .belowCommit draining) := by
  have hreach : system.Reachable p.1 := h.forget fun _ _ _ => trivial
  constructor
  · intro hb hroom hheld
    have hi := ForwardInv.of_reachable h
    by_cases hcalm : p.1.worker.calm = true
    · rcases hi.going hb with hc | hr | hcov
      · exact hc.imp id Or.inr
      · exact Or.inr (Or.inl ⟨_, hr⟩)
      · exact absurd hheld (not_held_of_covered hi (RequestInv.of_reachable hreach) hb hroom hcalm hcov)
    · refine Or.inr (Or.inl ?_)
      cases hw : p.1.worker with
      | forward k => exact ⟨k, rfl⟩
      | _ => rw [hw] at hcalm; exact absurd rfl hcalm
  · intro hst _ hi hp
    rcases (DrainInv.of_reachable hreach).owed hst hp hi with he | hk | hr
    · exact Or.inl he
    · exact Or.inr (Or.inr (Or.inl hk))
    · cases hw : p.1.worker <;> rw [hw] at hr <;> simp [Worker.resuming] at hr ⊢

/-- The last frame of the body is being forwarded, and the head of the response is pushed. -/
def bothWaiting : List Action :=
  [.headers .accepted false, .body [104, 105] true, .work, .slices [], .work, .pushHead ⟨200, [], 8⟩]

theorem nothing_stranded_bothWaiting :
    ∃ p, keeping.run ({ config := {} }, 0) bothWaiting = some p ∧ p.1.requestBody = true ∧
      p.1.requestEndPending = true ∧ p.1.stream = true ∧ p.1.response.stream.items ≠ [] ∧
      (0 < p.1.requestEvents ∨ (∃ k, p.1.worker = .forward k) ∨ 0 < p.1.requestWakes) ∧
      (0 < p.1.responseEvents ∨ p.1.worker = .drainTake ∨ 0 < p.1.responseWakes ∨
        ∃ draining, p.1.worker = .belowCommit draining) := by
  have hr : keeping.run ({ config := {} }, 0) bothWaiting = some (_, _) := rfl
  have hboth := nothing_stranded (System.reach_of_run ⟨⟨_, rfl⟩, rfl⟩ hr)
  exact ⟨_, hr, rfl, rfl, rfl, by rintro ⟨⟩, hboth.1 rfl rfl (Or.inr rfl),
    hboth.2 rfl (Or.inl rfl) (by rintro ⟨⟩) rfl⟩

end Ruvoy.Filter
