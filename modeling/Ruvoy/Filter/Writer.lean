import Ruvoy.Filter.Response

/-!
# The fiber parked in the response queue

A fiber that writes parks where the queue is full or paused. The worker owes it a wakeup once there
is room, and when the filter lets go of the queue.

* `Heard`: a fiber in the waiter slot is on the list of wakeups;
* `WriterInv`: what holds at each place of the worker, kept by every step that meets
  `heardBeforeEnd`;
* **`parked_writer_heard`**: what holds when a drain is over and when the filter let go;
* `writer_left_behind`: an `End` is taken past a parked fiber, which nothing wakes any more.
-/

set_option autoImplicit false

namespace Ruvoy.Filter

open Runs

/-! ## Queues that grow -/

/-- The application pushed an item, or was refused. -/
structure Grown (t s : ResponseStream) : Prop where
  max : t.maxBufferedBytes = s.maxBufferedBytes
  inner : t.inner = s.inner ∨ s.ended = false ∧ ∃ x, t.inner = s.inner.append x

theorem grown_push (s : ResponseStream) (x : StreamItem) : Grown (s.push x).2 s := by
  rcases s.push_cases x with ⟨-, h⟩ | ⟨-, he, -, h⟩
  · rw [h]
    exact ⟨rfl, Or.inl rfl⟩
  · exact ⟨rfl, Or.inr ⟨he, x, h⟩⟩

theorem grown_pushChunkWithinBudget (s : ResponseStream) (b : Bytes) :
    Grown (s.pushChunkWithinBudget b).2 s := by
  rcases s.pushChunkWithinBudget_cases b with ⟨-, h⟩ | ⟨n, -, -, -, -, he, -, h⟩
  · exact ⟨rfl, Or.inl h⟩
  · exact ⟨rfl, Or.inr ⟨he, _, h⟩⟩

/-- Everything was taken, the last item too, and the downstream is not paused. -/
structure Emptied (s : ResponseStream) : Prop where
  ended : s.ended = true
  items : s.items = []
  paused : s.paused = false

namespace Grown

variable {s t : ResponseStream}

theorem waiter (h : Grown t s) : t.waiter = s.waiter := by
  rcases h.inner with hi | ⟨-, x, hi⟩ <;> rw [hi]
  rfl

theorem cancelled (h : Grown t s) : t.cancelled = s.cancelled := by
  rcases h.inner with hi | ⟨-, x, hi⟩ <;> rw [hi]
  rfl

theorem full (h : Grown t s) (hf : t.full = false) : s.full = false := by
  rcases h.inner with hi | ⟨-, x, hi⟩
  · rw [ResponseStream.full, hi, h.max] at hf
    exact hf
  · rw [ResponseStream.full, hi, h.max] at hf
    obtain ⟨hp, hb⟩ := Bool.or_eq_false_iff.mp hf
    have hlt : ¬ s.bufferedBytes + x.bytes.length ≥ s.maxBufferedBytes := of_decide_eq_false hb
    refine Bool.or_eq_false_iff.mpr ⟨hp, decide_eq_false ?_⟩
    omega

theorem emptied (h : Grown t s) (he : Emptied s) : Emptied t := by
  rcases h.inner with hi | ⟨hno, -⟩
  · exact ⟨by rw [hi]; exact he.ended, by rw [hi]; exact he.items, by rw [hi]; exact he.paused⟩
  · rw [he.ended] at hno
    cases hno

end Grown

theorem Emptied.full {s : ResponseStream} (h : Emptied s) (hm : 0 < s.maxBufferedBytes) :
    s.full = false := by
  have hb : s.bufferedBytes = 0 := by
    rw [s.wf.bytes, h.items]
    rfl
  simp only [ResponseStream.full, ResponseStreamInner.full, h.paused, hb, Bool.false_or,
    decide_eq_false_iff_not]
  omega

/-! ## The invariant -/

/-- The reactor is to resolve whoever waits in the response queue. -/
def State.listed (s : State) : Bool :=
  s.wakeups.contains .response || s.resolving.contains .response

/-- A fiber in the slot of the response queue is on the list. -/
def Heard (s : State) : Prop := s.response.stream.waiter.isSome = true → s.listed = true

/-- An `End` or a `Failed` is taken only with the slot empty or the fiber in it on the list. -/
def heardBeforeEnd (s : State) : Action → Bool
  | .work =>
    match s.worker, s.response.stream.takeNext.1 with
    | .drainTake, some item =>
      !item.terminal || s.response.stream.waiter.isNone || s.listed
    | _, _ => true
  | _ => true

/-- The places of the worker that know something of the slot, or are about to. -/
def Worker.watched : Worker → Bool
  | .drainDone | .dropCheck | .dropWake => true
  | _ => false

structure WriterInv (s : State) : Prop where
  max : s.response.stream.maxBufferedBytes = maxBufferedBodyBytes
  slot : ∀ v, s.writer = .parked v → s.response.stream.waiter = some v
  fresh : s.stage = .fresh → s.released = false
  drained : s.worker = .drainDone → s.response.stream.full = false → Heard s
  dropping : s.worker = .dropCheck ∨ s.worker = .dropWake →
    s.released = true ∧ s.response.stream.cancelled = true
  shut : s.released = true →
    s.stream = false ∧ (s.response.stream.cancelled = true ∨ Emptied s.response.stream)
  released : s.released = true → s.worker ≠ .dropCheck → s.worker ≠ .dropWake → Heard s

variable {s t : State}

theorem WriterInv.init (config : Config) : WriterInv { config := config } where
  max := rfl
  slot := by rintro _ ⟨⟩
  fresh _ := rfl
  drained := by rintro ⟨⟩
  dropping h := by rcases h with h | h <;> cases h
  shut := by rintro ⟨⟩
  released := by rintro ⟨⟩

/-- No fiber parks in a queue the filter let go of. -/
theorem WriterInv.no_park (h : WriterInv s) (hr : s.released = true) :
    s.response.stream.cancelled = true ∨ s.response.stream.full = false := by
  refine (h.shut hr).2.imp id fun he => he.full ?_
  rw [h.max]
  decide

/-- A step that keeps the queue, or grows it. -/
structure Beside (t s : State) : Prop where
  grown : Grown t.response.stream s.response.stream
  writer : t.writer = s.writer
  stream : t.stream = s.stream
  released : t.released = s.released
  stage : t.stage = .fresh → s.stage = .fresh
  listed : s.listed = true → t.listed = true
  worker : t.worker = s.worker ∨ t.worker.watched = false ∧ s.worker.watched = false

theorem Beside.heard (hb : Beside t s) (h : Heard s) : Heard t := by
  intro hw
  rw [hb.grown.waiter] at hw
  exact hb.listed (h hw)

theorem WriterInv.beside (h : WriterInv s) (hb : Beside t s) : WriterInv t where
  max := hb.grown.max.trans h.max
  slot v hv := by
    rw [hb.grown.waiter]
    exact h.slot v (hb.writer ▸ hv)
  fresh hf := hb.released.trans (h.fresh (hb.stage hf))
  drained hd hf := by
    rcases hb.worker with hw | ⟨hw, -⟩
    · exact hb.heard (h.drained (hw ▸ hd) (hb.grown.full hf))
    · rw [hd] at hw
      cases hw
  dropping hd := by
    rw [hb.released, hb.grown.cancelled]
    rcases hb.worker with hw | ⟨hw, -⟩
    · exact h.dropping (hw ▸ hd)
    · rcases hd with hd | hd <;> rw [hd] at hw <;> cases hw
  shut hr := by
    rw [hb.stream, hb.grown.cancelled]
    exact (h.shut (hb.released ▸ hr)).imp id (Or.imp id hb.grown.emptied)
  released hr hn1 hn2 := by
    rcases hb.worker with hw | ⟨-, hw⟩
    · exact hb.heard (h.released (hb.released ▸ hr) (hw ▸ hn1) (hw ▸ hn2))
    · refine hb.heard (h.released (hb.released ▸ hr) ?_ ?_) <;> rintro hs <;> rw [hs] at hw <;> cases hw

theorem WriterInv.same (h : WriterInv s) (hq : t.response = s.response) (hwr : t.writer = s.writer)
    (hst : t.stream = s.stream) (hr : t.released = s.released)
    (hf : t.stage = .fresh → s.stage = .fresh) (hl : s.listed = true → t.listed = true)
    (hw : t.worker = s.worker ∨ t.worker.watched = false ∧ s.worker.watched = false) :
    WriterInv t :=
  h.beside ⟨⟨by rw [hq], Or.inl (by rw [hq])⟩, hwr, hst, hr, hf, hl, hw⟩

theorem WriterInv.holding (hm : t.response.stream.maxBufferedBytes = maxBufferedBodyBytes)
    (hs : ∀ v, t.writer = .parked v → t.response.stream.waiter = some v)
    (hr : t.released = false) (hw : t.worker.watched = false) : WriterInv t where
  max := hm
  slot := hs
  fresh _ := hr
  drained h := by rw [h] at hw; cases hw
  dropping h := by rcases h with h | h <;> rw [h] at hw <;> cases hw
  shut h := by rw [hr] at h; cases h
  released h := by rw [hr] at h; cases h

/-! ## The drain -/

theorem WriterInv.unreleased (h : WriterInv s) (hs : s.stream = true) : s.released = false := by
  by_contra hn
  have hno := (h.shut (by simpa using hn)).1
  rw [hs] at hno
  cases hno

theorem WriterInv.letGo (h : WriterInv s) (hq : t.response = s.response.takeNext)
    (hwr : t.writer = s.writer) (hst : t.stream = false) (hlive : t.stage ≠ .fresh)
    (hw : t.worker = .idle) (hl : t.listed = s.listed) (he : Emptied s.response.stream.takeNext.2)
    (hheard : Heard s) : WriterInv t where
  max := by rw [hq]; exact h.max
  slot v hv := by
    rw [hq]
    exact ResponseStream.takeNext_waiter.trans (h.slot v (hwr ▸ hv))
  fresh hf := absurd hf hlive
  drained hd := by rw [hw] at hd; cases hd
  dropping hd := by rw [hw] at hd; rcases hd with hd | hd <;> cases hd
  shut _ := by
    rw [hq]
    exact ⟨hst, Or.inr he⟩
  released _ _ _ hwait := by
    rw [hq] at hwait
    rw [hl]
    refine hheard ?_
    rwa [← ResponseStream.takeNext_waiter]

/-- **One round of the loop of `drain_stream`**, which lets go of the queue without a look at the
slot when it takes the last item. -/
theorem WriterInv.drainStep (h : WriterInv s) (hi : ResponseInv s) (hw : s.worker = .drainTake)
    (hc : heardBeforeEnd s .work = true) : WriterInv s.drainStep := by
  obtain ⟨hheld, hlive⟩ := hi.draining (by rw [hw]; rfl)
  have hrel := h.unreleased hheld
  rcases s.response.stream.takeNext_cases with ⟨hidle, hnone⟩ | ⟨x, rest, hp, hitems, hsome, hin⟩
  · have hq : s.response.takeNext = s.response := by
      rcases s.response.takeNext_cases with ⟨-, -, hq⟩ | ⟨x, rest, -, hsome, -⟩
      · exact hq
      · rw [hnone] at hsome
        cases hsome
    unfold State.drainStep
    rw [hnone, hq]
    exact h.same rfl rfl rfl rfl id id (Or.inr ⟨rfl, by rw [hw]; rfl⟩)
  · have hslot : ∀ v, s.writer = .parked v → s.response.takeNext.stream.waiter = some v :=
      fun v hv => ResponseStream.takeNext_waiter.trans (h.slot v hv)
    simp only [heardBeforeEnd, hw, hsome] at hc
    have hheard : x.terminal = true → Heard s := by
      intro hx hwait
      rw [hx, Bool.not_true, Bool.false_or, Bool.or_eq_true] at hc
      refine hc.resolve_left fun hn => ?_
      rw [Option.isNone_iff_eq_none] at hn
      rw [hn] at hwait
      cases hwait
    have hempty : x.terminal = true → Emptied s.response.stream.takeNext.2 := by
      intro hx
      have hrest : rest = [] := by
        have hlast := s.response.stream.wf.last
        rw [hitems] at hlast
        exact hlast.nil_of_append_cons (l := []) hx
      refine ⟨?_, ?_, ?_⟩
      · rw [ResponseStream.takeNext_ended]
        refine s.response.stream.wf.ended ?_
        rw [hitems, List.any_cons, hx, Bool.true_or]
      · rw [hin]
        exact hrest
      · rw [hin]
        exact hp
    cases x with
    | Head head =>
      simp only [State.drainStep, hsome, State.drainItem]
      split_ifs <;> exact .holding h.max hslot hrel rfl
    | Chunk chunk =>
      simp only [State.drainStep, hsome, State.drainItem]
      split_ifs <;> exact .holding h.max hslot hrel rfl
    | End =>
      simp only [State.drainStep, hsome, State.drainItem]
      refine h.letGo rfl rfl rfl ?_ rfl rfl (hempty rfl) (hheard rfl)
      show s.stage ≠ .fresh
      rw [hlive]
      rintro ⟨⟩
    | Failed error =>
      simp only [State.drainStep, hsome, State.drainItem]
      have hnf : s.stage ≠ .fresh := by rw [hlive]; rintro ⟨⟩
      split_ifs <;> exact h.letGo rfl rfl rfl hnf rfl rfl (hempty rfl) (hheard rfl)

/-! ## Every step -/

theorem not_watched_of_forward {w : Worker} (h : w = .idle ∨ ∃ k, w = .forward k) :
    w.watched = false := by
  rcases h with rfl | ⟨k, rfl⟩ <;> rfl

theorem WriterInv.request (h : WriterInv s) (hs : t = { s with
      request := t.request
      requestEndPending := t.requestEndPending
      retained := t.retained
      frame := t.frame
      wakeups := t.wakeups
      worker := t.worker })
    (ht : t.worker.watched = false) (hw : s.worker.watched = false)
    (hwake : s.wakeups <+: t.wakeups) : WriterInv t := by
  refine h.same ?_ ?_ ?_ ?_ ?_ (fun hl => ?_) (Or.inr ⟨ht, hw⟩)
  · rw [hs]
  · rw [hs]
  · rw [hs]
  · rw [hs]
  · rw [hs]
    exact id
  · have hr : t.resolving = s.resolving := by rw [hs]
    simp only [State.listed, hr, Bool.or_eq_true, List.contains_eq_mem, decide_eq_true_eq] at hl ⊢
    exact hl.imp (fun hm => hwake.subset hm) id

theorem listed_wakeBody (q : Queue) (h : s.listed = true) : (s.wakeBody q).listed = true := by
  simp only [State.listed, State.wakeBody, Bool.or_eq_true, List.contains_eq_mem,
    decide_eq_true_eq] at h ⊢
  exact h.imp (List.mem_append_left _) id

theorem listed_wakeBody_response : (s.wakeBody .response).listed = true := by
  simp [State.listed, State.wakeBody]

/-- A queue that owes nobody a wakeup, though a writer could go on, has an empty slot. -/
theorem heard_of_not_owed (ho : s.response.stream.writerOwedWakeup = false)
    (hgo : s.response.stream.cancelled = true ∨ s.response.stream.full = false) : Heard s := by
  intro hwait
  have hyes : s.response.stream.writerOwedWakeup = true := by
    refine Bool.and_eq_true_iff.mpr ⟨hwait, ?_⟩
    rcases hgo with hc | hf
    · rw [hc, Bool.true_or]
    · rw [show s.response.stream.inner.full _ = false from hf, Bool.not_false, Bool.or_true]
  rw [ho] at hyes
  cases hyes

theorem WriterInv.goDone (h : WriterInv s) (hw : s.worker ≠ .dropCheck) (hw' : s.worker ≠ .dropWake)
    (hq : t.response = s.response) (hwr : t.writer = s.writer) (hst : t.stream = s.stream)
    (hr : t.released = s.released) (hf : t.stage = s.stage)
    (hl : s.listed = true → t.listed = true) (ht : t.worker = .drainDone)
    (hd : s.response.stream.full = false → Heard t) : WriterInv t := by
  have hk : Heard s → Heard t := fun hs hwait => hl (hs (hq ▸ hwait))
  refine ⟨by rw [hq]; exact h.max, ?_, ?_, ?_, ?_, ?_, ?_⟩
  · rw [hq, hwr]
    exact h.slot
  · rw [hf, hr]
    exact h.fresh
  · rw [hq]
    exact fun _ => hd
  · rw [ht]
    rintro (hn | hn) <;> cases hn
  · rw [hr, hst, hq]
    exact h.shut
  · rw [hr]
    exact fun hrel _ _ => hk (h.released hrel hw hw')

theorem WriterInv.dropCancel (h : WriterInv s) (hf : s.stage ≠ .fresh) :
    WriterInv { s with
      stream := false
      released := true
      response := s.response.cancel
      worker := .dropCheck } where
  max := h.max
  slot := h.slot
  fresh hfresh := absurd hfresh hf
  drained := by rintro ⟨⟩
  dropping _ := ⟨rfl, rfl⟩
  shut _ := ⟨rfl, Or.inl rfl⟩
  released _ hn := absurd rfl hn

theorem WriterInv.goDropped (h : WriterInv s) (hq : t.response = s.response)
    (hwr : t.writer = s.writer) (hst : t.stream = s.stream) (hr : t.released = s.released)
    (hf : t.stage = s.stage) (ht : t.worker = .dropRequest) (hheard : Heard t) : WriterInv t := by
  refine ⟨by rw [hq]; exact h.max, ?_, ?_, ?_, ?_, ?_, fun _ _ _ => hheard⟩
  · rw [hq, hwr]
    exact h.slot
  · rw [hf, hr]
    exact h.fresh
  · rw [ht]
    rintro ⟨⟩
  · rw [ht]
    rintro (hn | hn) <;> cases hn
  · rw [hr, hst, hq]
    exact h.shut

theorem WriterInv.workStep (h : WriterInv s) (hi : ResponseInv s)
    (hc : heardBeforeEnd s .work = true) (ht : s.workStep = some t) : WriterInv t := by
  cases hw : s.worker with
  | forward k =>
    simp only [State.workStep, hw] at ht
    obtain ⟨hs, hk, hwake⟩ := forwardStep_frame ht
    exact h.request hs (not_watched_of_forward hk) (by rw [hw]; rfl) hwake
  | drainTake =>
    simp only [State.workStep, hw, Option.some.injEq] at ht
    subst ht
    exact h.drainStep hi hw hc
  | drainCheck =>
    simp only [State.workStep, hw, Option.some.injEq] at ht
    subst ht
    by_cases ho : s.response.stream.writerOwedWakeup = true
    · simp only [ho, if_true]
      exact h.same rfl rfl rfl rfl id id (Or.inr ⟨rfl, by rw [hw]; rfl⟩)
    · simp only [ho]
      refine h.goDone (by rw [hw]; rintro ⟨⟩) (by rw [hw]; rintro ⟨⟩) rfl rfl rfl rfl rfl id rfl
        fun hf => ?_
      exact heard_of_not_owed (s := { s with worker := .drainDone }) (by simpa using ho) (Or.inr hf)
  | drainWake =>
    simp only [State.workStep, hw, Option.some.injEq] at ht
    subst ht
    exact h.goDone (by rw [hw]; rintro ⟨⟩) (by rw [hw]; rintro ⟨⟩) rfl rfl rfl rfl rfl
      (listed_wakeBody _) rfl fun _ _ => listed_wakeBody_response
  | drainDone =>
    simp only [State.workStep, hw, Option.some.injEq] at ht
    subst ht
    refine ⟨h.max, h.slot, h.fresh, by rintro ⟨⟩, fun hd => ?_, h.shut, fun hr _ _ => ?_⟩
    · rcases hd with hd | hd <;> cases hd
    · exact h.released hr (by rw [hw]; rintro ⟨⟩) (by rw [hw]; rintro ⟨⟩)
  | belowCommit draining =>
    simp only [State.workStep, hw, Option.some.injEq] at ht
    subst ht
    refine h.same rfl rfl rfl rfl id id (Or.inr ⟨?_, by rw [hw]; rfl⟩)
    cases draining <;> rfl
  | dropCancel =>
    simp only [State.workStep, hw] at ht
    split_ifs at ht with hheld <;> cases ht
    · refine h.dropCancel fun hf => ?_
      have hans := (hi.held hheld).2
      rw [(hi.fresh hf).1] at hans
      cases hans
    · exact h.same rfl rfl rfl rfl id id (Or.inr ⟨rfl, by rw [hw]; rfl⟩)
  | dropCheck =>
    simp only [State.workStep, hw, Option.some.injEq] at ht
    subst ht
    obtain ⟨hrel, hcan⟩ := h.dropping (Or.inl hw)
    by_cases ho : s.response.stream.writerOwedWakeup = true
    · simp only [ho, if_true]
      exact ⟨h.max, h.slot, h.fresh, by rintro ⟨⟩, fun _ => ⟨hrel, hcan⟩, h.shut,
        fun _ _ hn => absurd rfl hn⟩
    · simp only [ho]
      refine h.goDropped rfl rfl rfl rfl rfl rfl ?_
      exact heard_of_not_owed (s := { s with worker := .dropRequest }) (by simpa using ho) (Or.inl hcan)
  | dropWake =>
    simp only [State.workStep, hw, Option.some.injEq] at ht
    subst ht
    exact h.goDropped rfl rfl rfl rfl rfl rfl fun _ => listed_wakeBody_response
  | dropRequest =>
    simp only [State.workStep, hw] at ht
    split_ifs at ht <;> cases ht <;>
      exact h.same rfl rfl rfl rfl id id (Or.inr ⟨rfl, by rw [hw]; rfl⟩)
  | dropRequestWake =>
    simp only [State.workStep, hw, Option.some.injEq] at ht
    subst ht
    exact h.same rfl rfl rfl rfl id (listed_wakeBody _) (Or.inr ⟨rfl, by rw [hw]; rfl⟩)
  | idle | dropped => simp [State.workStep, hw] at ht

theorem WriterInv.forwardRequestBody (h : WriterInv s) (hw : s.worker.watched = false) :
    WriterInv s.forwardRequestBody := by
  obtain ⟨hs, hk⟩ := forwardRequestBody_frame (s := s)
  refine h.request ?_ (not_watched_of_forward hk) hw ?_
  · rw [hs]
  · rw [hs]

theorem watched_of_watermarkable (h : s.watermarkable = true) : s.worker.watched = false := by
  simp only [State.watermarkable, Bool.or_eq_true, atRest_iff, Bool.and_eq_true, beq_iff_eq] at h
  rcases h with ⟨hw, -⟩ | ⟨hw, -⟩ <;> rw [hw] <;> rfl

theorem WriterInv.vacate (h : WriterInv s) (hq : t.response = s.response.unpark)
    (hwr : ∀ v, t.writer ≠ .parked v) (hst : t.stream = s.stream) (hr : t.released = s.released)
    (hf : t.stage = s.stage) (hw : t.worker = s.worker) : WriterInv t := by
  have hheard : Heard t := by
    intro hwait
    rw [hq] at hwait
    cases hwait
  refine ⟨by rw [hq]; exact h.max, fun v hv => absurd hv (hwr v), ?_, fun _ _ => hheard, ?_, ?_,
    fun _ _ _ => hheard⟩
  · rw [hf, hr]
    exact h.fresh
  · rw [hw, hr, hq]
    exact h.dropping
  · rw [hr, hst, hq]
    exact fun hrel => (h.shut hrel).imp id (Or.imp id fun he => ⟨he.ended, he.items, he.paused⟩)

/-- A fiber parks only where a write would have to wait, and in no queue that was let go of. -/
theorem WriterInv.parkWriter (h : WriterInv s) (hrun : s.writer = .running) (v : Variable) :
    WriterInv (s.parkWriter v) := by
  rcases s.response.stream.parkWriter_cases v with ⟨-, hno⟩ | ⟨hcan, hfull, hok, hin⟩
  · refine h.beside ⟨⟨rfl, Or.inl ?_⟩, ?_, rfl, rfl, id, id, Or.inl rfl⟩
    · show (s.response.stream.parkWriter v).2.inner = _
      rw [hno]
    · show (if (s.response.stream.parkWriter v).1 then Writer.parked v else .running) = s.writer
      rw [hno, hrun]
      rfl
  · have hfull' : (s.parkWriter v).response.stream.full = true := by
      show (s.response.stream.parkWriter v).2.full = true
      rw [ResponseStream.full, hin]
      exact hfull
    have hnrel : s.released = false := by
      by_contra hn
      rcases h.no_park (by simpa using hn) with hc | hf
      · rw [hcan] at hc
        cases hc
      · rw [hfull] at hf
        cases hf
    refine ⟨h.max, ?_, h.fresh, ?_, fun hd => ?_, fun hr => ?_, fun hr => ?_⟩
    · intro w hw
      have hw' : (if (s.response.stream.parkWriter v).1 then Writer.parked v else .running) =
        .parked w := hw
      rw [hok, if_pos rfl] at hw'
      cases hw'
      show (s.response.stream.parkWriter v).2.waiter = _
      rw [hin]
    · intro _ hf
      rw [hfull'] at hf
      cases hf
    · exact absurd (hnrel.symm.trans (h.dropping hd).1) Bool.false_ne_true
    · exact absurd (hnrel.symm.trans hr) Bool.false_ne_true
    · exact absurd (hnrel.symm.trans hr) Bool.false_ne_true

theorem WriterInv.resolve (h : WriterInv s) {q : Queue} {rest : List Queue}
    (hq : s.resolving = q :: rest) : WriterInv (s.resolve q rest) := by
  cases q with
  | request =>
    refine h.same rfl rfl rfl rfl id (fun hl => ?_) (Or.inl rfl)
    simpa [State.listed, State.resolve, hq] using hl
  | response =>
    refine h.vacate rfl (fun v hv => ?_) rfl rfl rfl rfl
    -- a parked writer is in the slot, and is resolved
    cases hw : s.writer with
    | running | leaving => simp [State.resolve, hw] at hv
    | parked w => simp [State.resolve, hw, h.slot w hw] at hv

theorem WriterInv.onRequestHeaders (h : WriterInv s) (hw : s.worker = .idle) (hf : s.stage = .fresh)
    (submission : State.Submission) (eos : Bool) : WriterInv (s.onRequestHeaders submission eos) := by
  have hunw : s.worker.watched = false := by rw [hw]; rfl
  have hsub : WriterInv { s.submit submission with
      stage := .live
      clientDone := eos
      requestEndPending := eos } := by
    cases submission <;> exact .holding h.max h.slot (h.fresh hf) hunw
  have hunw' : (s.submit submission).worker.watched = false := by cases submission <;> exact hunw
  unfold State.onRequestHeaders
  dsimp only
  split_ifs
  · exact hsub.forwardRequestBody hunw'
  · exact hsub

theorem WriterInv.takeWakeups (h : WriterInv s) (hnil : s.resolving = []) :
    WriterInv { s with wakeups := [], resolving := s.wakeups } := by
  refine h.same rfl rfl rfl rfl id (fun hl => ?_) (Or.inl rfl)
  simpa [State.listed, hnil] using hl

theorem WriterInv.step (h : WriterInv s) (hi : ResponseInv s) {a : Action}
    (hc : heardBeforeEnd s a = true) (ht : step s a = some t) : WriterInv t := by
  cases step_moves ht with
  | headers hw hf submission eos => exact h.onRequestHeaders hw hf submission eos
  | invalid | complete => exact h.same rfl rfl rfl rfl (by rintro ⟨⟩) id (Or.inl rfl)
  | body hw | redeliver hw | trailers hw | requestEvent hw =>
    refine WriterInv.forwardRequestBody ?_ (by rw [hw]; rfl)
    exact h.same rfl rfl rfl rfl id id (Or.inl rfl)
  | drain hw | drop hw | slices hw =>
    exact h.same rfl rfl rfl rfl id id (Or.inr ⟨rfl, by rw [hw]; rfl⟩)
  | above hm hs => exact .holding h.max h.slot (h.unreleased hs) (watched_of_watermarkable hm)
  | below _ hs => exact .holding h.max h.slot (h.unreleased hs) rfl
  | released => exact h
  | work ht => exact h.workStep hi hc ht
  | pushHead | pushFailure | finish =>
    exact h.beside ⟨grown_push _ _, rfl, rfl, rfl, id, id, Or.inl rfl⟩
  | write => exact h.beside ⟨grown_pushChunkWithinBudget _ _, rfl, rfl, rfl, id, id, Or.inl rfl⟩
  | parkWriter _ hr v => exact h.parkWriter hr v
  | stopWriter => exact ⟨h.max, by rintro _ ⟨⟩, h.fresh, h.drained, h.dropping, h.shut, h.released⟩
  | leaveWriter => exact h.vacate rfl (by rintro _ ⟨⟩) rfl rfl rfl rfl
  | takeWakeups hnil => exact h.takeWakeups hnil
  | resolve hq => exact h.resolve hq
  | _ => exact h.same rfl rfl rfl rfl id id (Or.inl rfl)

theorem WriterInv.of_reach (h : system.Reach (fun s a => heardBeforeEnd s a = true) s) :
    WriterInv s := by
  refine h.inductOn (fun s hs => ?_) ?_ ?_ (Q := ResponseInv)
  · exact .of_reachable (hs.mono fun _ _ _ => trivial)
  · rintro _ ⟨config, rfl⟩
    exact .init config
  · intro s a t hi hs hc ht
    exact hs.step hi hc ht

/-! ## A parked fiber hears of it -/

/-- **No parked writer is left behind**, when no `End` or `Failed` is taken past one that is not on
the list of wakeups. Whenever a drain is over with the queue neither full nor paused, and whenever the
filter let go of the queue, a fiber in the waiter slot is on the list, and with it the fiber that is
parked. -/
theorem parked_writer_heard (h : system.Reach (fun s a => heardBeforeEnd s a = true) s) :
    (s.worker = .drainDone → s.response.stream.full = false →
      s.response.stream.waiter.isSome = true → s.listed = true) ∧
    (s.released = true → s.worker ≠ .dropCheck → s.worker ≠ .dropWake →
      (s.response.stream.waiter.isSome = true → s.listed = true) ∧
        ∀ v, s.writer = .parked v → s.listed = true) := by
  have hi := WriterInv.of_reach h
  refine ⟨hi.drained, fun hr hn hn' => ⟨hi.released hr hn hn', fun v hv => ?_⟩⟩
  refine hi.released hr hn hn' ?_
  rw [hi.slot v hv]
  rfl

/-- A fiber parks while the downstream is paused, and the filter is dropped. -/
def droppedPastWriter : List Action :=
  [.headers .accepted false, .pushHead ⟨200, [], 8⟩, .above, .parkWriter 7, .drop, .work, .work, .work]

theorem parked_writer_heard_droppedPastWriter :
    ∃ s, system.runIf heardBeforeEnd { config := {} } droppedPastWriter = some s ∧
      s.released = true ∧ s.writer = .parked 7 ∧ s.listed = true := by
  have hr : system.runIf heardBeforeEnd { config := {} } droppedPastWriter = some _ := rfl
  have hheard := (parked_writer_heard (System.reach_of_runIf ⟨_, rfl⟩ hr)).2
  exact ⟨_, hr, rfl, rfl, (hheard rfl (by rintro ⟨⟩) (by rintro ⟨⟩)).2 7 rfl⟩

/-- A fiber parks while the downstream is paused, another one ends the response, and the drain after
the low watermark takes the end. -/
def endedPastWriter : List Action :=
  [.headers .accepted false, .pushHead ⟨200, [], 8⟩, .event .response, .work, .above, .work, .work,
    .work, .parkWriter 7, .finish, .wakeResponse, .below, .work, .event .response, .work]

/-- The filter let go of the queue, and the fiber in its slot is on no list. -/
theorem writer_left_behind :
    ¬ ∀ s, system.Reachable s → s.released = true → s.worker = .idle →
      s.response.stream.waiter.isSome = true → s.listed = true := by
  intro hall
  have hr : system.run { config := {} } endedPastWriter = some _ := rfl
  have hno := hall _ (System.reach_of_run ⟨_, rfl⟩ hr) rfl rfl rfl
  cases hno

end Ruvoy.Filter
