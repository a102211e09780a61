import Ruvoy.Filter.Progress

/-!
# The watermarks of the downstream

Envoy reports a write buffer that went over its high watermark, and one that went below its low one.
The stream and its connection are reported apart, so several reports of the first kind may be
outstanding; the filter keeps one flag.

* `marked`: the filter with a count of the reports that are outstanding;
* `WatermarkInv`: the flag agrees with the count, as long as each report below comes with one
  outstanding (`oneOutstanding`);
* **`paused_while_outstanding`**: nothing is taken while reports are outstanding, and the queue is
  drained again when they are not;
* `paused_too_short`: two reports above and one below, and the worker takes an item.
-/

set_option autoImplicit false

namespace Ruvoy.Filter

open Runs

/-- The reports above that no report below has matched, since the response queue was created. -/
def outstanding (s : State) : Action → ℕ → ℕ
  | .above, n => if s.stream then n + 1 else n
  | .below, n => if s.stream then n - 1 else n
  | _, n => n

/-- The filter, with a count of the outstanding reports. -/
def marked : System (State × ℕ) Action := system.recording 0 outstanding

/-- Every report below matches an earlier one above. -/
def matched (p : State × ℕ) : Action → Bool
  | .below => !p.1.stream || decide (0 < p.2)
  | _ => true

/-- A report below comes only when exactly one above is outstanding. -/
def oneOutstanding (p : State × ℕ) : Action → Bool
  | .below => !p.1.stream || p.2 == 1
  | _ => true

structure WatermarkInv (s : State) (n : ℕ) : Prop where
  fresh : s.stage = .fresh → s.response.stream.paused = false ∧ n = 0
  flag : s.stream = true → (s.response.stream.paused = true ↔ 0 < n)

variable {s t : State} {n : ℕ}

theorem WatermarkInv.init (config : Config) : WatermarkInv { config := config } 0 where
  fresh _ := ⟨rfl, rfl⟩
  flag := by rintro ⟨⟩

/-! ## Steps that are no report -/

/-- A step leaves the flag, begins to hold the queue only in the first callback, and takes nothing from
a queue that is paused. -/
structure Unmarked (t s : State) : Prop where
  paused : t.response.stream.paused = s.response.stream.paused
  taken : s.response.stream.paused = true → t.response.taken = s.response.taken
  stream : t.stream = true → s.stream = true ∨ s.stage = .fresh
  stage : t.stage = .fresh → s.stage = .fresh

theorem Unmarked.same (hq : t.response = s.response) (hst : t.stream = true → s.stream = true)
    (hf : t.stage = .fresh → s.stage = .fresh) : Unmarked t s where
  paused := by rw [hq]
  taken _ := by rw [hq]
  stream h := Or.inl (hst h)
  stage := hf

theorem drainStep_unmarked : Unmarked s.drainStep s := by
  have hq : s.drainStep.response = s.response.takeNext := by
    unfold State.drainStep
    split
    · next item _ =>
      cases item <;> simp only [State.drainItem] <;> (try split_ifs) <;> rfl
    · rfl
  have hfilter : (s.drainStep.stream = true → s.stream = true) ∧ s.drainStep.stage = s.stage := by
    unfold State.drainStep
    split
    · next item _ =>
      cases item <;> simp only [State.drainItem] <;> (try split_ifs) <;>
        first | exact ⟨id, rfl⟩ | exact ⟨by rintro ⟨⟩, rfl⟩
    · exact ⟨id, rfl⟩
  refine ⟨?_, fun hp => ?_, fun h => Or.inl (hfilter.1 h), fun h => hfilter.2 ▸ h⟩
  · rw [hq]
    exact ResponseStream.takeNext_paused
  · rcases s.response.takeNext_cases with ⟨-, -, hsame⟩ | ⟨x, rest, -, hsome, -⟩
    · rw [hq, hsame]
    · rw [(ResponseStream.takeNext_of_idle (Or.inl hp) :)] at hsome
      cases hsome

theorem workStep_unmarked (ht : s.workStep = some t) : Unmarked t s := by
  cases hw : s.worker with
  | forward k =>
    simp only [State.workStep, hw] at ht
    obtain ⟨hs, -, -⟩ := forwardStep_frame ht
    refine .same ?_ ?_ ?_ <;> rw [hs]
    · exact id
    · exact id
  | drainTake =>
    simp only [State.workStep, hw, Option.some.injEq] at ht
    subst ht
    exact drainStep_unmarked
  | drainCheck | drainWake | drainDone | belowCommit draining | dropCheck | dropWake
  | dropRequestWake =>
    simp only [State.workStep, hw, Option.some.injEq] at ht
    subst ht
    exact .same rfl id id
  | dropCancel =>
    simp only [State.workStep, hw] at ht
    split_ifs at ht <;> cases ht
    · exact ⟨rfl, fun _ => rfl, by rintro ⟨⟩, id⟩
    · exact .same rfl id id
  | dropRequest =>
    simp only [State.workStep, hw] at ht
    split_ifs at ht <;> cases ht <;> exact .same rfl id id
  | idle | dropped => simp [State.workStep, hw] at ht

theorem forwardRequestBody_unmarked (h : Unmarked t s) : Unmarked t.forwardRequestBody s := by
  obtain ⟨hs, -⟩ := forwardRequestBody_frame (s := t)
  refine ⟨?_, ?_, ?_, ?_⟩ <;> rw [hs]
  · exact h.paused
  · exact h.taken
  · exact h.stream
  · exact h.stage

theorem onRequestHeaders_unmarked (hf : s.stage = .fresh) (submission : State.Submission) (eos : Bool) :
    Unmarked (s.onRequestHeaders submission eos) s := by
  have hsub : Unmarked { s.submit submission with
      stage := .live
      clientDone := eos
      requestEndPending := eos } s := by
    cases submission <;> exact ⟨rfl, fun _ => rfl, fun _ => Or.inr hf, by rintro ⟨⟩⟩
  unfold State.onRequestHeaders
  dsimp only
  split_ifs
  · exact forwardRequestBody_unmarked hsub
  · exact hsub

theorem step_unmarked {a : Action} (ha : a ≠ .above) (hb : a ≠ .below) (ht : step s a = some t) :
    Unmarked t s := by
  cases step_moves ht with
  | above => exact absurd rfl ha
  | below => exact absurd rfl hb
  | headers _ hf submission eos => exact onRequestHeaders_unmarked hf submission eos
  | invalid | complete => exact .same rfl id (by rintro ⟨⟩)
  | body | redeliver | trailers | requestEvent => exact forwardRequestBody_unmarked (.same rfl id id)
  | work ht => exact workStep_unmarked ht
  | pushHead | pushFailure | finish => exact ⟨ResponseStream.push_paused _, fun _ => rfl, Or.inl, id⟩
  | write => exact ⟨ResponseStream.pushChunkWithinBudget_paused _, fun _ => rfl, Or.inl, id⟩
  | parkWriter _ _ v => exact ⟨ResponseStream.parkWriter_paused v, fun _ => rfl, Or.inl, id⟩
  | leaveWriter => exact ⟨rfl, fun _ => rfl, Or.inl, id⟩
  | @resolve q => cases q <;> exact ⟨rfl, fun _ => rfl, Or.inl, id⟩
  | _ => exact .same rfl id id

/-! ## The flag and the count -/

theorem WatermarkInv.unmarked (h : WatermarkInv s n) (hu : Unmarked t s) : WatermarkInv t n where
  fresh hf := by
    rw [hu.paused]
    exact h.fresh (hu.stage hf)
  flag hst := by
    rw [hu.paused]
    rcases hu.stream hst with hst' | hf
    · exact h.flag hst'
    · obtain ⟨hp, rfl⟩ := h.fresh hf
      simp [hp]

theorem live_of_watermarkable (h : s.watermarkable = true) : s.stage = .live := by
  simp only [State.watermarkable, Bool.or_eq_true, atRest_iff, Bool.and_eq_true, beq_iff_eq] at h
  rcases h with ⟨-, hl⟩ | ⟨-, hl⟩ <;> exact hl

theorem WatermarkInv.above (h : s.stage = .live) :
    WatermarkInv { s with response := s.response.setPaused true } (n + 1) :=
  ⟨fun hf => absurd (h.symm.trans hf) (by rintro ⟨⟩), fun _ => ⟨fun _ => Nat.succ_pos n, fun _ => rfl⟩⟩

theorem WatermarkInv.below (h : s.stage = .live) (hone : n = 1) : WatermarkInv { s with
    response := s.response.setPaused false
    worker := .belowCommit (s.worker == .drainTake) } (n - 1) := by
  refine ⟨fun hf => absurd (h.symm.trans hf) (by rintro ⟨⟩), fun _ => ⟨?_, fun hpos => ?_⟩⟩
  · rintro ⟨⟩
  · omega

/-- Only a report that finds the queue counts. -/
theorem outstanding_of_ne {a : Action} (h : a ≠ .above ∧ a ≠ .below ∨ s.stream = false) :
    outstanding s a n = n := by
  unfold outstanding
  split
  · rcases h with ⟨ha, -⟩ | hs
    · exact absurd rfl ha
    · simp [hs]
  · rcases h with ⟨-, hb⟩ | hs
    · exact absurd rfl hb
    · simp [hs]
  · rfl

/-- **Every step that meets the condition keeps the flag at the count.** -/
theorem WatermarkInv.step (h : WatermarkInv s n) {a : Action} (hc : oneOutstanding (s, n) a = true)
    (ht : step s a = some t) : WatermarkInv t (outstanding s a n) := by
  by_cases hmark : a = .above ∨ a = .below
  · cases step_moves ht with
    | above hm hs =>
      simp only [outstanding, if_pos hs]
      exact .above (live_of_watermarkable hm)
    | below hm hs =>
      simp only [outstanding, if_pos hs]
      exact .below (live_of_watermarkable hm) (by simpa [oneOutstanding, hs] using hc)
    | released _ hs =>
      rw [outstanding_of_ne (.inr hs)]
      exact h
    | _ => rcases hmark with hmark | hmark <;> cases hmark
  · obtain ⟨ha, hb⟩ := not_or.mp hmark
    rw [outstanding_of_ne (.inl ⟨ha, hb⟩)]
    exact h.unmarked (step_unmarked ha hb ht)

theorem WatermarkInv.of_reach {p : State × ℕ}
    (h : marked.Reach (fun p a => oneOutstanding p a = true) p) : WatermarkInv p.1 p.2 := by
  refine h.inductNoted (P := WatermarkInv) ?_ ?_
  · rintro s ⟨config, rfl⟩
    exact .init config
  · intro s n a t hs hc ht
    exact hs.step hc ht

/-- A paused queue gives nothing to whoever takes from it. -/
theorem taken_of_paused (hp : s.response.stream.paused = true) {a : Action}
    (ht : step s a = some t) : t.response.taken = s.response.taken := by
  by_cases hmark : a = .above ∨ a = .below
  · cases step_moves ht with
    | above | below | released => rfl
    | _ => rcases hmark with hmark | hmark <;> cases hmark
  · obtain ⟨ha, hb⟩ := not_or.mp hmark
    exact (step_unmarked ha hb ht).taken hp

/-! ## The queue is drained again -/

/-- One round of the loop takes the oldest item, and goes on unless it was the last. -/
theorem drainStep_takes {x : StreamItem} {rest : List StreamItem}
    (hp : s.response.stream.paused = false) (hi : s.response.stream.items = x :: rest) :
    s.drainStep.response.stream.items = rest ∧ s.drainStep.response.stream.paused = false ∧
      (s.drainStep.worker = .drainTake ∨ rest = []) := by
  obtain ⟨hsome, hin⟩ := ResponseStream.takeNext_of_cons hp hi
  have hq : s.response.takeNext.stream.items = rest ∧
      s.response.takeNext.stream.paused = false := by
    have hin' : s.response.takeNext.stream.inner = s.response.stream.inner.tail x rest := hin
    rw [hin']
    exact ⟨rfl, hp⟩
  have hlast : x.terminal = true → rest = [] := by
    intro hx
    have hsealed := s.response.stream.wf.last
    rw [hi] at hsealed
    exact hsealed.nil_of_append_cons (l := []) hx
  simp only [State.drainStep, hsome]
  cases x with
  | Head head =>
    simp only [State.drainItem]
    split_ifs <;> exact ⟨hq.1, hq.2, Or.inl rfl⟩
  | Chunk chunk =>
    simp only [State.drainItem]
    split_ifs <;> exact ⟨hq.1, hq.2, Or.inl rfl⟩
  | End => exact ⟨hq.1, hq.2, Or.inr (hlast rfl)⟩
  | Failed error =>
    simp only [State.drainItem]
    split_ifs <;> exact ⟨hq.1, hq.2, Or.inr (hlast rfl)⟩

/-- **The loop of `drain_stream` takes everything that is not paused.** -/
theorem drain_empties (items : List StreamItem) (hi : s.response.stream.items = items)
    (hw : s.worker = .drainTake) (hp : s.response.stream.paused = false) :
    system.Leads (fun a => a = .work ∨ a = .event .response)
      (fun t => t.response.stream.items = []) s := by
  induction items generalizing s with
  | nil => exact .here hi
  | cons x rest ih =>
    obtain ⟨hrest, hpaused, hgo⟩ := drainStep_takes hp hi
    have hstep : system.step s .work = some s.drainStep := by
      show s.workStep = _
      rw [State.workStep, hw]
    refine .next (Or.inl rfl) hstep ?_
    rcases hgo with hgo | rfl
    · exact ih hrest hgo hpaused
    · exact .here hrest

theorem event_empties (hi : ResponseInv s) (hrest : s.atRest = true) (hst : s.stream = true)
    (hp : s.response.stream.paused = false) :
    system.Leads (fun a => a = .work ∨ a = .event .response)
      (fun t => t.response.stream.items = []) s := by
  have hans : s.state = .Waiting ∨ s.state = .Streaming := by
    have hans := (hi.held hst).2
    cases hf : s.state <;> rw [hf] at hans <;> first | exact Or.inl rfl | exact Or.inr rfl | cases hans
  have hstep : system.step s (.event .response) =
      some { s with responseEvents := s.responseEvents - 1, worker := .drainTake } := by
    show (if s.atRest then _ else none) = _
    rw [if_pos hrest, if_pos ⟨hans, hst⟩]
  exact .next (Or.inr rfl) hstep (drain_empties _ rfl rfl hp)

/-! ## Nested reports -/

/-- **The backpressure holds as long as reports above are outstanding**, when a report below comes only
with one outstanding. While there are any, no step takes an item and no parked writer is owed a wakeup.
When there are none the worker is about to look at a queue that is not empty, and once it looks, or the
event for it is delivered, everything in it is taken. -/
theorem paused_while_outstanding {p : State × ℕ}
    (h : marked.Reach (fun p a => oneOutstanding p a = true) p) (hst : p.1.stream = true) :
    (0 < p.2 → (∀ a t, step p.1 a = some t → t.response.taken = p.1.response.taken) ∧
      p.1.response.stream.writerOwedWakeup = false) ∧
    (p.2 = 0 → (p.1.response.stream.items ≠ [] → Scheduled p.1) ∧
      (p.1.worker = .drainTake ∨ p.1.atRest = true ∧ 0 < p.1.responseEvents →
        system.Leads (fun a => a = .work ∨ a = .event .response)
          (fun t => t.response.stream.items = []) p.1)) := by
  have hreach : system.Reachable p.1 := h.forget fun _ _ _ => trivial
  have hi := ResponseInv.of_reachable hreach
  have hflag := (WatermarkInv.of_reach h).flag hst
  constructor
  · intro hpos
    have hp := hflag.mpr hpos
    refine ⟨fun a t ht => taken_of_paused hp ht, ?_⟩
    rw [ResponseStream.writerOwedWakeup, ResponseStreamInner.writerOwedWakeup, (hi.held hst).1,
      ResponseStreamInner.full, hp]
    simp
  · intro h0
    have hp : p.1.response.stream.paused = false := by
      by_contra hn
      have hpos := hflag.mp (by simpa using hn)
      omega
    refine ⟨(DrainInv.of_reachable hreach).owed hst hp, ?_⟩
    rintro (hw | ⟨hrest, -⟩)
    · exact drain_empties _ rfl hw hp
    · exact event_empties hi hrest hst hp

/-- The head goes out, the downstream is over its watermark and below it again, and the application
writes in between. -/
def resumedOnce : List Action :=
  [.headers .accepted false, .pushHead ⟨200, [], 8⟩, .wakeResponse, .event .response, .work, .above,
    .write [104, 105], .work, .work, .work, .wakeResponse, .below, .work]

theorem paused_while_outstanding_resumedOnce :
    ∃ p, marked.runIf oneOutstanding ({ config := {} }, 0) resumedOnce = some p ∧
      p.1.stream = true ∧ p.2 = 0 ∧ p.1.response.stream.items ≠ [] ∧ Scheduled p.1 ∧
      system.Leads (fun a => a = .work ∨ a = .event .response)
        (fun t => t.response.stream.items = []) p.1 := by
  have hr : marked.runIf oneOutstanding ({ config := {} }, 0) resumedOnce = some (_, _) := rfl
  have hboth := (paused_while_outstanding (System.reach_of_runIf ⟨⟨_, rfl⟩, rfl⟩ hr) rfl).2 rfl
  exact ⟨_, hr, rfl, rfl, by rintro ⟨⟩, hboth.1 (by rintro ⟨⟩), hboth.2 (Or.inr ⟨rfl, by decide⟩)⟩

/-- The stream and its connection both go over their watermarks, and one of them comes below it. -/
def resumedTooSoon : List Action :=
  [.headers .accepted false, .pushHead ⟨200, [], 8⟩, .above, .above, .below, .work, .event .response]

/-- One report is outstanding, and the worker takes an item. -/
theorem paused_too_short :
    ¬ ∀ p, marked.Reach (fun p a => matched p a = true) p → p.1.stream = true → 0 < p.2 →
      ∀ a t, step p.1 a = some t → t.response.taken = p.1.response.taken := by
  intro hall
  have hr : marked.runIf matched ({ config := {} }, 0) resumedTooSoon = some (_, _) := rfl
  have hno := hall _ (System.reach_of_runIf ⟨⟨_, rfl⟩, rfl⟩ hr) rfl (by decide) .work _ rfl
  cases hno

end Ruvoy.Filter
