import Ruvoy.Upstream.Requests.Start

/-!
# What the worker asks of Envoy about a stream

The worker asks things of a stream with the handle that `start_http_stream` returned, while Envoy has
not reported the stream finished: the table holds such handles alone.

* `Legal.step`, `Legal.of_reachable`: what is asked of one stream is a start, pieces of the body, at most
  one end and at most one reset, in every state of every run;
* `Adds`: a step asks one thing at most;
* **`requests_in_order`**: what holds of the requests of every run.
-/

set_option autoImplicit false

namespace Ruvoy.Upstream

open Runs

variable {s t : State} {e e' : Notes}

/-! ## Every step -/

section Noted

variable {a : Action}

theorem noted_same (e : Notes) : Noted s e e := ⟨rfl, fun _ => id, fun _ hn _ => hn⟩

theorem noted_note (hb : Books s) (hreturns : ∀ result id, a ≠ .returns result id) :
    Noted s e (note s a e) := by
  cases a with
  | returns result id => exact absurd rfl (hreturns result id)
  | fiber op =>
    cases op with
    | finish n => exact ⟨rfl, fun _ => List.mem_cons_of_mem n, fun _ hn _ => hn⟩
    | _ => exact noted_same e
  | queueStream cluster headers timeout hasBody =>
    cases hasBody with
    | true => exact noted_same e
    | false =>
      refine ⟨rfl, fun _ => id, fun n hn hstarted => ?_⟩
      rcases List.mem_cons.mp hn with rfl | hn
      · obtain ⟨q, hq, hi⟩ := List.mem_flatMap.mp hstarted
        have hacc := hb.queued.mem_iff.mpr (List.mem_append_right _ (hb.sent q hq _ hi))
        exact absurd (hb.known _ (List.mem_append_left _ hacc)) (Nat.lt_irrefl _)
      · exact hn
  | _ => exact noted_same e

end Noted

/-- A channel that is made is not started. -/
theorem shift_queueStream (hb : Books s) (cluster : String) (headers : Fields) (timeout : ℕ)
    (hasBody : Bool) : Shift s (s.queueStream cluster headers timeout hasBody) := by
  have hopened : Shift s (if hasBody then s else
      s.onQueue (.request s.nextChannel) (·.push .End)) := by
    split
    · exact .of_eq rfl rfl rfl rfl (fun _ => id) .same
    · exact shift_onQueue _ _
  have hnew : ¬ s.started s.nextChannel := by
    intro hstarted
    obtain ⟨q, hq, hi⟩ := List.mem_flatMap.mp hstarted
    have hacc := hb.queued.mem_iff.mpr (List.mem_append_right _ (hb.sent q hq _ hi))
    exact absurd (hb.known _ (List.mem_append_left _ hacc)) (Nat.lt_irrefl _)
  unfold State.queueStream
  dsimp only
  split
  · exact ⟨hopened.requests, hopened.asked, hopened.started, hopened.handles, hopened.table,
      hopened.finished, hopened.waiting, hopened.outer⟩
  · refine ⟨hopened.requests, hopened.asked, hopened.started, hopened.handles, hopened.table,
      hopened.finished, fun c hc => ?_, hopened.outer⟩
    obtain ⟨r, hr, rfl⟩ := stream_mem_waiting.mp hc
    rcases List.mem_append.mp hr with hr | hr
    · exact Or.inl (stream_mem_waiting.mpr ⟨r, hr, rfl⟩)
    · rw [List.mem_singleton.mp hr]
      exact Or.inr hnew

theorem Legal.envoyReturns (h : Legal s e) (hbooks : Books s) (hb : Bodies s e) {result : InitResult}
    {id : ℕ} (ht : s.envoyReturns result id = some t) : Legal t (note s (.returns result id) e) := by
  have hch : Channels s t := channels_step (a := .returns result id) hb.plain ht (by rintro _ _ ⟨⟩)
    (by rintro _ _ _ ⟨⟩)
  cases envoyReturns_moves ht with
  | call _ ho | noCall _ ho =>
    simp only [note, ho]
    exact h.shift (.of_eq rfl rfl rfl rfl (fun _ hr => hr) (goes_rest ho)) hch (noted_same e)
  | stream _ ho hok hid =>
    simp only [note, ho, hok]
    exact h.returned hbooks ho hid
  | noStream _ ho hno =>
    simp only [note, ho, hno]
    exact h.shift (.of_eq rfl rfl rfl rfl (fun _ hr => hr) (goes_rest ho)) hch (noted_same e)

theorem Legal.outerStep (h : Legal s e) (hbooks : Books s) (hb : Bodies s e) {o : Outer}
    {rest : List Outer} (hh : s.handler = []) (ho : s.outer = o :: rest)
    (ht : s.outerStep o rest = some t) : Legal t e := by
  have hstep : step s .work = some t := by
    simp only [step, hh, ho]
    exact ht
  have hquiet : o.quiet s = true → (∀ k, o ≠ .pumpTake k) → Legal t e := by
    intro hq hno
    refine h.shift (shift_outerStep h ho hq ht) (channels_step hb.plain hstep ?_ ?_) (noted_same e)
    · intro r rest' _ _ heq
      rw [ho] at heq
      rw [(List.cons.inj heq).1] at hq
      cases hq
    · intro k o' rest' _ _ heq
      rw [ho] at heq
      exact absurd (List.cons.inj heq).1 (hno k)
  cases o with
  | firstItem r =>
    have hstart := h.firstItem hbooks hb ho
    cases ht
    exact hstart
  | pumpTake k =>
    simp only [State.outerStep] at ht
    split at ht
    · rename_i hk
      cases ht
      refine h.shift (.of_eq rfl rfl rfl rfl (fun _ => id) ?_) (channels_step hb.plain hstep ?_ ?_)
        (noted_same e)
      · exact goes_to ho (no_stream_of_nil rfl) (by rintro _ ⟨⟩)
      · intro r rest' _ _ heq
        rw [ho] at heq
        cases heq
      · intro k' o' rest' _ _ heq
        rw [ho] at heq
        cases heq
        rw [hk]
        rintro ⟨⟩
    · rename_i stream hk
      cases ht
      exact h.pumpTake hb ho hk
  | pumpOne k =>
    by_cases hq : (Outer.pumpOne k).quiet s = true
    · exact hquiet hq (by rintro _ ⟨⟩)
    · simp only [State.outerStep] at ht
      split at ht
      · rename_i hk
        simp only [Outer.quiet, hk, not_true] at hq
      · rename_i stream hk
        simp only [Outer.quiet, hk, Bool.not_eq_true, Bool.or_eq_false_iff, Bool.not_eq_false'] at hq
        rw [if_pos hq.1, if_neg (by rw [hq.2]; rintro ⟨⟩)] at ht
        cases ht
        exact h.reset ho hk hq.1 hq.2
  | _ => exact hquiet rfl (by rintro _ ⟨⟩)

theorem goes_begin (hidle : s.idle = true) {o : Outer} (hi : o.items = [])
    (hno : ∀ k, o ≠ .pumpTake k) : Goes s [o] := by
  have hgoes : Goes s ([o] ++ s.outer.tail) := by
    refine .on fun o' hmem => ?_
    rw [List.mem_singleton.mp hmem]
    exact ⟨Or.inl (no_stream_of_nil hi), hno⟩
  rw [(idle_iff.mp hidle).2] at hgoes
  exact hgoes

theorem handle_of_reports {k : ℕ} (h : s.reports k = true) : k ∈ s.handles := by
  rw [State.reports, Bool.and_eq_true, Bool.and_eq_true] at h
  exact List.contains_iff_mem.mp h.1.2

theorem Legal.micro (h : Legal s e) (hb : Bodies s e) {m : Micro} {rest : List Micro}
    (hh : s.handler = m :: rest) (ht : step s .work = some (s.micro m rest)) :
    Legal (s.micro m rest) e := by
  refine h.shift (shift_micro m rest) (channels_step hb.plain ht ?_ ?_) (noted_same e)
  · intro _ _ _ hnil
    rw [hh] at hnil
    cases hnil
  · intro _ _ _ _ hnil
    rw [hh] at hnil
    cases hnil

/-- A callback begins, if there is anything to send. -/
theorem goes_event (hidle : s.idle = true) : Goes s (if s.upstreams then [.takeCalls] else []) := by
  split
  · exact goes_begin hidle rfl (by rintro _ ⟨⟩)
  · rw [← (idle_iff.mp hidle).2]
    exact .same

/-- **Every step keeps the requests legal.** -/
theorem Legal.step {a : Action} (h : Legal s e) (hbooks : Books s) (hb : Bodies s e)
    (ht : step s a = some t) : Legal t (note s a e) := by
  have hquiet : (∀ result id, a ≠ .returns result id) → a ≠ .work → Shift s t →
      Legal t (note s a e) := fun hreturns hwork hs =>
    h.shift hs (channels_step hb.plain ht (fun _ _ ha => absurd ha hwork)
      fun _ _ _ ha => absurd ha hwork) (noted_note hbooks hreturns)
  cases step_moves ht with
  | returns ht => exact h.envoyReturns hbooks hb ht
  | micro hh => exact h.micro hb hh ht
  | outerStep hh ho ht => exact h.outerStep hbooks hb hh ho ht
  | queueStream _ cluster headers timeout hasBody =>
    exact hquiet (by rintro _ _ ⟨⟩) (by rintro ⟨⟩)
      (shift_queueStream hbooks cluster headers timeout hasBody)
  | queue =>
    refine hquiet (by rintro _ _ ⟨⟩) (by rintro ⟨⟩) ?_
    unfold State.queue
    dsimp only
    split <;> exact .of_eq rfl rfl rfl rfl (fun _ => id) .same
  | fiber _ ht =>
    refine hquiet (by rintro _ _ ⟨⟩) (by rintro ⟨⟩) ?_
    rw [fiber_eq ht]
    exact .of_eq rfl rfl rfl rfl (fun _ => id) .same
  | ruby ht =>
    refine hquiet (by rintro _ _ ⟨⟩) (by rintro ⟨⟩) ?_
    rw [rubyStep_eq ht]
    exact .of_eq rfl rfl rfl rfl (fun _ => id) .same
  | event hidle =>
    exact hquiet (by rintro _ _ ⟨⟩) (by rintro ⟨⟩)
      (.of_eq rfl rfl rfl rfl (fun _ => id) (goes_event hidle))
  | complete hidle | drop hidle =>
    exact hquiet (by rintro _ _ ⟨⟩) (by rintro ⟨⟩)
      (.of_eq rfl rfl rfl rfl (fun _ => id) (goes_begin hidle rfl (by rintro _ ⟨⟩)))
  | calloutDone =>
    refine hquiet (by rintro _ _ ⟨⟩) (by rintro ⟨⟩) ?_
    unfold State.onHttpCalloutDone
    split <;> exact .of_eq rfl rfl rfl rfl (fun _ hr => hr) .same
  | streamHeaders _ headers endStream =>
    exact hquiet (by rintro _ _ ⟨⟩) (by rintro ⟨⟩)
      (shift_onOpenStream fun _ => alike_headersArrived headers endStream)
  | @streamData k _ data endStream =>
    exact hquiet (by rintro _ _ ⟨⟩) (by rintro ⟨⟩)
      (shift_onOpenStream fun _ => alike_dataArrived k data endStream)
  | streamTrailers _ trailers =>
    exact hquiet (by rintro _ _ ⟨⟩) (by rintro ⟨⟩)
      (shift_onOpenStream fun _ => alike_trailersArrived trailers)
  | streamComplete hr | streamReset hr =>
    exact hquiet (by rintro _ _ ⟨⟩) (by rintro ⟨⟩) (shift_onFinished (handle_of_reports hr))
  | order ht => exact hquiet (by rintro _ _ ⟨⟩) (by rintro ⟨⟩) (shift_ordered ht)
  | takeWakeups =>
    exact hquiet (by rintro _ _ ⟨⟩) (by rintro ⟨⟩) (.of_eq rfl rfl rfl rfl (fun _ => id) .same)
  | @resolve r =>
    exact hquiet (by rintro _ _ ⟨⟩) (by rintro ⟨⟩) ((shift_onQueue r (·.unpark)).trans_eq rfl)

theorem Legal.of_reachable (hr : watched.Reachable (s, e)) : Legal s e := by
  refine hr.inductOn (P := fun p => Legal p.1 p.2) (Q := fun p => Books p.1 ∧ Bodies p.1 p.2) ?_ ?_ ?_
  · rintro ⟨s, e⟩ hs
    exact ⟨.of_reachable (hs.forget fun _ _ _ => trivial), .of_reachable hs⟩
  · rintro ⟨_, _⟩ ⟨⟨config, rfl⟩, rfl⟩
    exact .init config
  · rintro ⟨s, e⟩ a ⟨t, e'⟩ ⟨hbooks, hb⟩ h - ht
    obtain ⟨ht, rfl⟩ := System.recording_step.mp ht
    exact h.step hbooks hb ht

/-! ## The requests of a step -/

/-- The requests that a step adds, when it makes an unsafe call, are made with a handle of the
table. -/
def Adds (s t : State) : Prop :=
  ∃ new, t.requests = s.requests ++ new ∧ ∀ q ∈ new, ∀ k, q.handle? = some k → k ∈ s.openStreams

theorem adds_none (h : t.requests = s.requests) : Adds s t :=
  ⟨[], by rw [h, List.append_nil], by rintro _ ⟨⟩⟩

theorem adds_one {q : EnvoyRequest} (h : t.requests = s.requests ++ [q])
    (hq : ∀ k, q.handle? = some k → k ∈ s.openStreams) : Adds s t := by
  refine ⟨[q], h, fun q' hmem => ?_⟩
  rw [List.mem_singleton.mp hmem]
  exact hq

theorem adds_outerStep {o : Outer} {rest : List Outer} (ht : s.outerStep o rest = some t) :
    Adds s t := by
  cases o with
  | sendCall r =>
    cases ht
    exact adds_one rfl (by rintro _ ⟨⟩)
  | startStream r =>
    simp only [State.outerStep] at ht
    split at ht <;> cases ht <;> exact adds_none rfl
  | firstItem r =>
    cases ht
    exact adds_one rfl (by rintro _ ⟨⟩)
  | pumpOne k =>
    simp only [State.outerStep] at ht
    split at ht
    · cases ht
      exact adds_none rfl
    · rename_i stream hk
      split at ht
      · split at ht <;> cases ht
        · exact adds_none rfl
        · refine adds_one rfl ?_
          rintro _ ⟨⟩
          exact mem_of_lookup hk
      · split at ht <;> cases ht <;> exact adds_none rfl
  | pumpTake k =>
    simp only [State.outerStep] at ht
    split at ht
    · cases ht
      exact adds_none rfl
    · rename_i stream hk
      cases ht
      unfold State.sendItem
      split
      · refine adds_one rfl ?_
        rintro _ ⟨⟩
        exact mem_of_lookup hk
      · refine adds_one rfl ?_
        rintro _ ⟨⟩
        exact mem_of_lookup hk
      · exact adds_none rfl
  | pumpWriter k =>
    simp only [State.outerStep] at ht
    split at ht <;> cases ht <;> exact adds_none rfl
  | inCallout r => cases ht
  | inStart r requestEnded => cases ht
  | pump => cases ht
  | abandon c => cases ht
  | _ =>
    cases ht
    exact adds_none rfl

theorem requests_micro (m : Micro) (rest : List Micro) :
    (s.micro m rest).requests = s.requests := by
  cases m with
  | push r x => cases r <;> rfl
  | data k bytes endStream =>
    simp only [State.micro, State.deliverData]
    split
    · rfl
    · split
      · split <;> rfl
      · rfl
      · rfl
  | stopped k =>
    simp only [State.micro]
    split <;> rfl
  | _ => rfl

/-- **An unsafe call is made with a handle of the table.** -/
theorem adds_step {a : Action} (ht : step s a = some t) : Adds s t := by
  cases step_moves ht with
  | queueStream =>
    unfold State.queueStream
    dsimp only
    split <;> split <;> exact adds_none rfl
  | queue =>
    unfold State.queue
    dsimp only
    split <;> exact adds_none rfl
  | fiber _ ht =>
    rw [fiber_eq ht]
    exact adds_none rfl
  | ruby ht =>
    rw [rubyStep_eq ht]
    exact adds_none rfl
  | calloutDone =>
    unfold State.onHttpCalloutDone
    split <;> exact adds_none rfl
  | micro => exact adds_none (requests_micro _ _)
  | outerStep _ _ ht => exact adds_outerStep ht
  | returns ht => cases envoyReturns_moves ht <;> exact adds_none rfl
  | order ht => cases ordered_moves ht <;> exact adds_none rfl
  | @resolve r =>
    rw [onQueue_eq s r]
    exact adds_none rfl
  | streamHeaders | streamData | streamTrailers =>
    unfold State.onOpenStream
    split <;> exact adds_none rfl
  | streamComplete | streamReset =>
    unfold State.onFinished
    split <;> exact adds_none rfl
  | event | complete | drop | takeWakeups => exact adds_none rfl

/-! ## The order of the requests -/

theorem bodyOf_mono {l l' : List StreamItem} (h : l <+: l') : bodyOf l <+: bodyOf l' := by
  obtain ⟨r, rfl⟩ := h
  rw [bodyOf_append]
  exact List.prefix_append _ _

/-- **The worker asks things of live streams alone, in order.** Every call of `reset_http_stream` and
`send_http_stream_data` is made with a handle that `start_http_stream` returned and that Envoy has not
reported finished. Every handle has a channel of its own, and the requests about it are its start,
pieces of the body, at most one end with nothing sent after it, and at most one reset, after which
there is nothing. The bytes that went out, with the start and after it, are a prefix of what the
writes of the fiber were accepted for. An end goes out when all of that went out and `finish` was
called; it goes out with the start also when the stream was opened without a body. -/
theorem requests_in_order (hr : watched.Reachable (s, e)) :
    (∀ a t, step s a = some t → ∃ new, t.requests = s.requests ++ new ∧
      ∀ q ∈ new, ∀ k, q.handle? = some k → k ∈ s.handles ∧ k ∉ s.finished) ∧
    (e.owner.map Prod.fst = s.handles ∧ s.handles.Nodup ∧ (e.owner.map Prod.snd).Nodup) ∧
    ∀ k c, (k, c) ∈ e.owner → ∃ a : Asked,
      s.requests.filter (·.about k c) = a.list k c ∧
      (a.ended = true → a.chunks = [] ∧ a.fin = false) ∧
      a.bytes <+: bodyOf (s.request c).accepted ∧
      (a.whole = true → a.bytes = bodyOf (s.request c).accepted) ∧
      (a.fin = true → c ∈ e.finishes) ∧ (a.ended = true → c ∈ e.finishes ∨ c ∈ e.bodiless) := by
  have h := Legal.of_reachable hr
  have hb := Bodies.of_reachable hr
  have hbooks := Books.of_reachable (hr.forget fun _ _ _ => trivial)
  refine ⟨fun a t ht => ?_, ⟨h.handles, h.once, h.channels⟩, fun k c hmem => ?_⟩
  · obtain ⟨new, hnew, hopen⟩ := adds_step ht
    refine ⟨new, hnew, fun q hq k hk => ?_⟩
    have hin := hopen q hq k hk
    exact ⟨hbooks.handles k hin, h.live k hin⟩
  · obtain ⟨a, ha⟩ := h.trails _ hmem
    have htaken := Tracked.taken_prefix (t := s.request c)
    refine ⟨a, ha.asked, ha.once, ?_, fun hw => ?_, ha.called, fun hended => ?_⟩
    · rw [← ha.bytes]
      exact bodyOf_mono htaken
    · rw [← ha.bytes, Tracked.taken_eq_of_terminal (ha.whole hw) rfl]
    · have hend := ha.whole (by rw [Asked.whole, hended, Bool.true_or])
      exact hb.finish c (htaken.subset hend)

/-- A body that goes out in two pieces and an end, and a stream that is closed after it. -/
def closedAfterEnd : List Action :=
  [.queueStream "a" [] 0 true, .fiber (.write 0 [1, 2]), .event, .work, .work, .work, .work,
    .returns .Success 5, .fiber (.write 0 [3]), .fiber (.finish 0), .order [] [5], .work, .work, .work,
    .work, .work, .work, .work, .fiber (.close 0), .ruby, .ruby, .work, .event, .work, .work,
    .order [] [5], .work]

theorem requests_in_order_closedAfterEnd :
    ∃ s e, watched.run ({ config := { settings := ⟨10, 4⟩ } }, {}) closedAfterEnd = some (s, e) ∧
      s.requests = [.start 0 "a" [] (some [1, 2]) false 0, .send 5 [3] false, .send 5 [] true,
        .reset 5] ∧
      e.owner = [(5, 0)] ∧ ∃ a : Asked, s.requests.filter (·.about 5 0) = a.list 5 0 ∧
        a.bytes <+: bodyOf (s.request 0).accepted ∧ (a.fin = true → 0 ∈ e.finishes) := by
  have hrun : watched.run ({ config := { settings := ⟨10, 4⟩ } }, {}) closedAfterEnd =
    some (_, _) := rfl
  have h := requests_in_order (System.reach_of_run ⟨⟨_, rfl⟩, rfl⟩ hrun)
  obtain ⟨a, hasked, -, hbytes, -, hfin, -⟩ := h.2.2 5 0 List.mem_cons_self
  exact ⟨_, _, hrun, rfl, rfl, a, hasked, hbytes, hfin⟩

end Ruvoy.Upstream
