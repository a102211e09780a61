import Ruvoy.Streamed.Outcome.Callbacks

/-!
# What Envoy reports and what the worker does

* `Course.headers`, `Course.data`, `Course.trailers`, `Course.complete`, `Course.reset`: the reports on an
  open stream;
* `Course.returns`, `Course.phaseStep`: the start, and what the worker pumps;
* `Course.abandon`: the end of the request.
-/

set_option autoImplicit false

namespace Ruvoy.Streamed

open Runs
open Upstream

variable {s t : State} {u u' : Bool} {l : List Micro} {outcome : CallOutcome} {stream : OpenStream}
  {m : Micro} {rest : List Micro}

/-! ## What Envoy reports -/

theorem onOpenStream_eq {f : OpenStream → OpenStream × List Micro} (ht : s.onOpenStream f = some t) :
    ∃ stream pump, s.handler = [] ∧ s.phase = .opened stream pump ∧
      t = s.update pump (f stream) (wakeStream 0) := by
  unfold State.onOpenStream at ht
  split at ht
  · cases ht
  · cases ht
  · rename_i hh hp
    cases ht
    exact ⟨_, _, hh, hp, rfl⟩
  · cases ht

theorem onFinished_eq {f : OpenStream → List Micro} (ht : s.onFinished f = some t) :
    ∃ stream pump, s.handler = [] ∧ s.phase = .opened stream pump ∧
      t = { s with phase := .over, handler := f stream } := by
  unfold State.onFinished at ht
  split at ht
  · cases ht
  · cases ht
  · rename_i hh hp
    cases ht
    exact ⟨_, _, hh, hp, rfl⟩
  · cases ht

theorem Course.table (h : Course s u) (hh : s.handler = []) {pump : Pump}
    (hp : s.phase = .opened stream pump) : s.counted = [] ∧ Opened s u stream [] := by
  have hover : s.phase = .over → False := by
    rw [hp]
    rintro ⟨⟩
  cases h with
  | before hphase =>
    rw [hp] at hphase
    rcases hphase with h | h | ⟨b, h⟩ <;> cases h
  | opened stream' pump' hphase hl hcount hopen =>
    rw [hp] at hphase
    cases hphase
    exact ⟨hcount, hh ▸ hopen⟩
  | delivering _ _ _ _ _ _ _ hl =>
    rw [hh] at hl
    cases hl
  | asking _ _ _ _ _ hl =>
    rw [hh] at hl
    cases hl
  | resetting _ _ hphase => exact (hover hphase).elim
  | counting _ _ _ _ hphase => exact (hover hphase).elim
  | counted _ hphase => exact (hover hphase).elim

theorem Course.start (h : Course s u)
    (hp : s.phase = .queued ∨ s.phase = .first ∨ ∃ b, s.phase = .starting b) :
    s.handler = [] ∧ s.counted = [] ∧ Unended s [] ∧
      (s.channel.resetWanted = true → s.channel.response.stream.cancelled = true) := by
  have hother : ∀ {q : Phase}, s.phase = q → (∀ b, q ≠ .starting b) → q ≠ .queued → q ≠ .first → False := by
    intro q hq h1 h2 h3
    rw [hq] at hp
    rcases hp with h | h | ⟨b, h⟩
    · exact h2 h
    · exact h3 h
    · exact h1 b h
  cases h with
  | before _ hl hcount hun hw => exact ⟨hl, hcount, hun, hw⟩
  | opened _ _ hphase => exact (hother hphase (by rintro _ ⟨⟩) (by rintro ⟨⟩) (by rintro ⟨⟩)).elim
  | delivering _ _ _ _ _ _ hphase =>
    exact (hother hphase (by rintro _ ⟨⟩) (by rintro ⟨⟩) (by rintro ⟨⟩)).elim
  | asking _ _ _ _ hphase => exact (hother hphase (by rintro _ ⟨⟩) (by rintro ⟨⟩) (by rintro ⟨⟩)).elim
  | resetting _ _ hphase => exact (hother hphase (by rintro _ ⟨⟩) (by rintro ⟨⟩) (by rintro ⟨⟩)).elim
  | counting _ _ _ _ hphase => exact (hother hphase (by rintro _ ⟨⟩) (by rintro ⟨⟩) (by rintro ⟨⟩)).elim
  | counted _ hphase => exact (hother hphase (by rintro _ ⟨⟩) (by rintro ⟨⟩) (by rintro ⟨⟩)).elim

/-- A stream that the worker has not ended is unsettled once a fiber stopped it. -/
theorem unsettled_eq {pump : Pump} (hp : s.phase = .opened stream pump)
    (hr : stream.responseEnded = false) (he : s.channel.response.stream.ended = false) :
    s.unsettled = s.channel.response.stream.cancelled := by
  rw [State.unsettled, State.stopped, hp, he]
  simp [hr]

theorem excuse {a b c : Bool} (h : (!a || b) = true) (ha : a = c) (hc : c = true) : b = true := by
  rw [ha, hc] at h
  exact h

theorem session_iff : session (s, u) = true ↔ s.channel.timedOut = false ∧ u = true := by
  rw [session, Bool.and_eq_true, Bool.not_eq_true', and_comm]

theorem switched_mono (a : Action) (hu : u = true) : switched s a u = true := by
  rw [hu]
  unfold switched
  split
  · split <;> rfl
  · rfl

theorem Course.headers (h : Course s u) {headers : Headers} {endStream : Bool}
    (ha : agreeing (s, u) (.headers headers endStream) = true)
    (ht : s.onOpenStream (·.headersArrived headers endStream) = some t) :
    Course t (switched s (.headers headers endStream) u) := by
  obtain ⟨stream, pump, hh, hp, rfl⟩ := onOpenStream_eq ht
  obtain ⟨hcount, hopen⟩ := h.table hh hp
  have hmono : u = true → switched s (.headers headers endStream) u = true := switched_mono _
  have hopen' := hopen.transfer (t := s) hmono id (fun _ hd => hd.mono hmono) rfl
  cases hr : stream.responseEnded with
  | true =>
    rw [OpenStream.headersArrived, if_pos hr]
    exact .update (hopen'.swap rfl rfl) rfl hcount
  | false =>
    obtain ⟨hout, hun⟩ := hopen.unended hr
    have hun' : Unended s (wakeStream 0) := ⟨hun.ended, rfl, hun.requestOver⟩
    rw [agreeing] at ha
    have hexcuse := excuse ha (unsettled_eq hp hr hun.ended)
    rw [OpenStream.headersArrived, if_neg (by rw [hr]; rintro ⟨⟩)]
    cases hhead : headOf headers with
    | none =>
      refine .update (.fail hopen'.upgrade hout hun' _ fun hc => ?_) rfl hcount
      have hs := hexcuse hc
      rw [hhead] at hs
      exact (session_iff.mp hs).imp id hmono
    | some head =>
      have hup : (head.status == 101) = true → switched s (.headers headers endStream) u = true := by
        intro h101
        simp only [switched, hp, hr, hhead, Option.any_some, h101, Bool.not_false, Bool.and_true, Bool.or_true]
      cases endStream with
      | false =>
        exact .update (r := ({ stream with upgraded := head.status == 101 }, [_]))
          (.of_unended hup hout hr ⟨hun.ended, rfl, hun.requestOver⟩) rfl hcount
      | true =>
        have hend : Opened s (switched s (.headers headers true) u)
            ({ stream with upgraded := head.status == 101 } : OpenStream).finish.1
            (({ stream with upgraded := head.status == 101 } : OpenStream).finish.2 ++ wakeStream 0) := by
          refine .finish hup hout hun' fun hc => ?_
          have hs := hexcuse hc
          rw [hhead] at hs
          simp only [Bool.not_true, Bool.false_or, Bool.and_eq_true, Bool.not_eq_true'] at hs
          refine ⟨hs.2, ?_⟩
          rcases Bool.or_eq_true _ _ |>.mp hs.1 with hu | h101
          · exact hmono hu
          · exact hup h101
        exact .update (r := (({ stream with upgraded := head.status == 101 } : OpenStream).finish.1, _ :: _))
          (hend.quiet rfl) rfl hcount

theorem Course.data (h : Course s u) {data : List Bytes} {endStream : Bool}
    (ha : agreeing (s, u) (.data data endStream) = true)
    (ht : s.onOpenStream (·.dataArrived 0 data endStream) = some t) : Course t u := by
  obtain ⟨stream, pump, hh, hp, rfl⟩ := onOpenStream_eq ht
  obtain ⟨hcount, hopen⟩ := h.table hh hp
  cases hr : stream.responseEnded with
  | true =>
    rw [OpenStream.dataArrived, if_pos hr]
    exact .update (hopen.swap rfl rfl) rfl hcount
  | false =>
    obtain ⟨hout, hun⟩ := hopen.unended hr
    rw [OpenStream.dataArrived, if_neg (by rw [hr]; rintro ⟨⟩)]
    by_cases hempty : data.flatten.isEmpty = true
    · rw [if_pos hempty]
      cases endStream with
      | false => exact .update (r := (stream, [])) (hopen.swap rfl rfl) rfl hcount
      | true =>
        refine .update (.finish hopen.upgrade hout ⟨hun.ended, rfl, hun.requestOver⟩ fun hc => ?_) rfl hcount
        rw [agreeing, hempty, unsettled_eq hp hr hun.ended, hc] at ha
        exact session_iff.mp ha
    · rw [if_neg hempty]
      exact .delivering stream pump 0 data.flatten endStream (wakeStream 0) rfl rfl rfl hcount hr
        ((hopen.swap rfl rfl).frame ⟨rfl, rfl, rfl, rfl, rfl⟩)

theorem Course.trailers (h : Course s u) {trailers : Headers}
    (ha : agreeing (s, u) (.trailers trailers) = true)
    (ht : s.onOpenStream (·.trailersArrived trailers) = some t) : Course t u := by
  obtain ⟨stream, pump, hh, hp, rfl⟩ := onOpenStream_eq ht
  obtain ⟨hcount, hopen⟩ := h.table hh hp
  cases hr : stream.responseEnded with
  | true =>
    rw [OpenStream.trailersArrived, if_pos hr]
    exact .update (hopen.swap rfl rfl) rfl hcount
  | false =>
    obtain ⟨hout, hun⟩ := hopen.unended hr
    rw [OpenStream.trailersArrived, if_neg (by rw [hr]; rintro ⟨⟩)]
    have hend : Opened s u stream.finish.1 (stream.finish.2 ++ wakeStream 0) :=
      .finish hopen.upgrade hout ⟨hun.ended, rfl, hun.requestOver⟩ fun hc =>
        session_iff.mp (excuse ha (unsettled_eq hp hr hun.ended) hc)
    exact .update (r := (stream.finish.1, _ :: _)) (hend.quiet rfl) rfl hcount

theorem Course.done {r : OpenStream × List Micro} (h : Opened s u stream [])
    (hr : stream.responseEnded = true) (hcount : s.counted = [])
    (hres : ∀ outcome, stream.outcome = some outcome →
      r.1.counted = outcome ∧ r.2 = [.cancelRequest stream.channel]) :
    Course { s with phase := .over, handler := OpenStream.close r } u := by
  obtain ⟨outcome, hout, hd⟩ := h.ended hr
  obtain ⟨hcounted, hl⟩ := hres outcome hout
  refine .close rfl rfl (by rw [hl]; rfl) hcount ?_
  rw [hcounted]
  exact (hd.swap rfl).frame ⟨rfl, rfl, rfl, rfl, rfl⟩

/-- Envoy is done with a stream whose response was not over: `item` ends it. -/
theorem Course.ends {r : OpenStream × List Micro} {item : StreamItem} {l : List Micro}
    (hun : Unended s []) (hcount : s.counted = []) (hres : r.1.counted = outcome ∧ r.2 = l)
    (hl : l.all simple = true) (hp : pending l = some item) (hx : outcome = .Completed → item = .End)
    (hc : s.channel.response.stream.cancelled = true → s.channel.timedOut = false ∧ u = true) :
    Course { s with phase := .over, handler := OpenStream.close r } u := by
  refine .close rfl rfl (by rw [hres.2]; exact hl) hcount ?_
  rw [hres.1, hres.2]
  refine Decided.frame (s := s) (.of_push hun.ended hun.requestOver ?_ hx hc) ⟨rfl, rfl, rfl, rfl, rfl⟩
  rw [pending_wakes, hp]

theorem Course.complete (h : Course s u) (ha : agreeing (s, u) .complete = true)
    (ht : s.onFinished (fun stream => OpenStream.close stream.completed) = some t) : Course t u := by
  obtain ⟨stream, pump, hh, hp, rfl⟩ := onFinished_eq ht
  obtain ⟨hcount, hopen⟩ := h.table hh hp
  cases hr : stream.responseEnded with
  | true => exact .done hopen hr hcount fun outcome ho => completed_ended stream hr ho
  | false =>
    obtain ⟨hout, hun⟩ := hopen.unended hr
    exact .ends hun hcount (completed_open stream hr hout) rfl (pending_of_ending rfl) (fun _ => rfl)
      fun hc => session_iff.mp (excuse ha (unsettled_eq hp hr hun.ended) hc)

/-- A reset is taken for the end of an upgraded stream, for the fiber's stop, or for what it is. -/
theorem onReset_cases (stream : OpenStream) (reason : ResetReason) :
    (stream.resetSent = false ∧ stream.onReset reason = OpenStream.close stream.completed) ∨
      (stream.resetSent = true ∧ stream.outcome = none ∧
        stream.onReset reason = [.resetStopped stream reason]) ∨
      ((stream.resetSent = true → stream.outcome ≠ none) ∧
        stream.onReset reason = OpenStream.close (stream.resetByEnvoy reason)) := by
  rw [OpenStream.onReset]
  split_ifs with h1 h2
  · rw [Bool.and_eq_true, Bool.not_eq_true'] at h1
    exact Or.inl ⟨h1.2, rfl⟩
  · rw [Bool.and_eq_true, Option.isNone_iff_eq_none] at h2
    exact Or.inr (Or.inl ⟨h2.1, h2.2, rfl⟩)
  · refine Or.inr (Or.inr ⟨fun hsent hout => h2 ?_, rfl⟩)
    rw [hsent, hout]
    rfl

theorem Course.reset (h : Course s u) {reason : ResetReason}
    (ha : agreeing (s, u) (.reset reason) = true) (ht : s.onFinished (·.onReset reason) = some t) :
    Course t u := by
  obtain ⟨stream, pump, hh, hp, rfl⟩ := onFinished_eq ht
  obtain ⟨hcount, hopen⟩ := h.table hh hp
  cases hr : stream.responseEnded with
  | true =>
    obtain ⟨outcome, hout, -⟩ := hopen.ended hr
    rcases onReset_cases stream reason with ⟨-, heq⟩ | ⟨-, hnone, -⟩ | ⟨-, heq⟩
    · rw [heq]
      exact .done hopen hr hcount fun outcome ho => completed_ended stream hr ho
    · rw [hout] at hnone
      cases hnone
    · rw [heq]
      exact .done hopen hr hcount fun outcome ho => reset_ended stream hr ho reason
  | false =>
    obtain ⟨hout, hun⟩ := hopen.unended hr
    have hsent : s.resetOut = stream.resetSent := by rw [State.resetOut, hp]
    -- without a reset of the worker's own, a stream that was stopped is an upgraded one
    have hexcuse : stream.resetSent = false → s.channel.response.stream.cancelled = true →
        s.channel.timedOut = false ∧ u = true := by
      intro hno hc
      rw [agreeing, unsettled_eq hp hr hun.ended, hc, hsent, hno] at ha
      exact session_iff.mp ha
    rcases onReset_cases stream reason with ⟨hno, heq⟩ | ⟨-, -, heq⟩ | ⟨hno, heq⟩
    · rw [heq]
      exact .ends hun hcount (completed_open stream hr hout) rfl (pending_of_ending rfl) (fun _ => rfl)
        (hexcuse hno)
    · rw [heq]
      exact .resetting stream reason rfl rfl hcount hr (hopen.frame ⟨rfl, rfl, rfl, rfl, rfl⟩)
    · rw [heq]
      have hno' : stream.resetSent = false := by
        by_contra hs
        exact hno (by simpa using hs) hout
      refine .ends hun hcount (reset_open stream hr reason) rfl (pending_channelFail _ _ _) ?_ (hexcuse hno')
      intro hdone
      rw [hout, Option.getD_none] at hdone
      split_ifs at hdone

/-! ## What the worker does -/

/-- A stream that did not get as far as the table is counted. -/
theorem Course.turnedAway {l : List Micro} {item : Item} {cluster : String} (hcount : s.counted = [])
    (hl : l.all simple = true) (hd : Decided s u l outcome) (hp : t.phase = .over)
    (hh : t.handler = l ++ [.count item cluster outcome]) (hn : t.counted = s.counted)
    (hs : t.channel = s.channel) (ho : t.requestOver = s.requestOver) : Course t u :=
  .counting l item cluster outcome hp hh hl (hn.trans hcount)
    (hd.frame ⟨by rw [hs], by rw [hs], by rw [hs], by rw [hs], ho⟩)

theorem Course.returns (h : Course s u) {result : InitResult} (ha : agreeing (s, u) (.returns result) = true)
    (ht : s.envoyReturns result = some t) : Course t u := by
  unfold State.envoyReturns at ht
  split at ht
  · rename_i ended hp
    obtain ⟨hh, hcount, hun, hw⟩ := h.start (Or.inr (Or.inr ⟨ended, hp⟩))
    split at ht
    · cases ht
      refine .opened _ .rest rfl (by rw [hh]; rfl) hcount ?_
      rw [hh]
      exact .of_unended (by rintro ⟨⟩) rfl rfl (hun.frame ⟨rfl, rfl, rfl, rfl, rfl⟩)
    · rename_i text href
      cases ht
      have hopen : s.channel.response.stream.cancelled = false := by
        rw [agreeing, href, State.unsettled, State.stopped, hp, hun.ended] at ha
        simpa using ha
      refine .turnedAway hcount rfl (.of_push hun.ended hun.requestOver (pending_channelFail _ _ _)
        (by rintro ⟨⟩) fun hc => ?_) rfl rfl rfl rfl rfl
      rw [hopen] at hc
      cases hc
  · cases ht

/-- **One access of `send_upstream_calls`.** -/
theorem Course.phaseStep (h : Course s u) (ha : agreeing (s, u) .work = true) (hh : s.handler = [])
    (ht : s.phaseStep = some t) : Course t u := by
  -- the flags of the stream that `next_action` sets are not looked at
  have hon : ∀ {stream stream' : OpenStream} {pump pump' : Pump} {t : State}, s.phase = .opened stream pump →
      t.phase = .opened stream' pump' → t.handler = [] → t.counted = s.counted → Seen s t →
      stream'.upgraded = stream.upgraded → stream'.outcome = stream.outcome →
      stream'.responseEnded = stream.responseEnded → Course t u := by
    intro stream stream' pump pump' t hp hp' hh' hn hseen h1 h2 h3
    obtain ⟨hcount, hopen⟩ := h.table hh hp
    refine .opened stream' pump' hp' (by rw [hh']; rfl) (hn.trans hcount) ?_
    rw [hh']
    exact (Opened.frame ⟨by rw [h1]; exact hopen.upgrade, by rw [h2, h3]; exact hopen.unended,
      by rw [h2, h3]; exact hopen.ended, hopen.requestOver⟩ hseen)
  unfold State.phaseStep at ht
  split at ht
  · rename_i hp
    obtain ⟨-, hcount, hun, hw⟩ := h.start (Or.inl hp)
    split_ifs at ht with hwant
    · cases ht
      have htout : s.channel.timedOut = false := by
        rw [agreeing, State.skips, hh, hp, hwant] at ha
        simpa using ha
      refine .turnedAway (l := []) hcount rfl (.stopped hun.ended (hw hwant) ?_ fun _ _ => rfl) rfl rfl rfl rfl rfl
      rw [htout]
      rintro ⟨⟩
    · cases ht
      exact .before (Or.inr (Or.inl rfl)) hh hcount (hun.frame ⟨rfl, rfl, rfl, rfl, rfl⟩) hw
  · rename_i hp
    obtain ⟨-, hcount, hun, hw⟩ := h.start (Or.inr (Or.inl hp))
    cases ht
    exact .before (Or.inr (Or.inr ⟨_, rfl⟩)) hh hcount (hun.frame ⟨rfl, rfl, rfl, rfl, rfl⟩) hw
  · rename_i stream hp
    split_ifs at ht
    · cases ht
      exact hon hp rfl hh rfl ⟨rfl, rfl, rfl, rfl, rfl⟩ rfl rfl rfl
    · cases ht
      exact hon hp rfl hh rfl ⟨rfl, rfl, rfl, rfl, rfl⟩ rfl rfl rfl
  · rename_i stream hp
    cases ht
    unfold State.sendItem
    split
    · exact hon hp rfl hh rfl ⟨rfl, rfl, rfl, rfl, rfl⟩ rfl rfl rfl
    · exact hon hp rfl hh rfl ⟨rfl, rfl, rfl, rfl, rfl⟩ rfl rfl rfl
    · exact hon hp rfl hh rfl ⟨rfl, rfl, rfl, rfl, rfl⟩ rfl rfl rfl
  · rename_i stream hp
    cases ht
    exact hon hp rfl hh rfl ⟨rfl, rfl, rfl, rfl, rfl⟩ rfl rfl rfl
  · cases ht
  · cases ht

theorem Decided.of_abandoned {n : ℕ} {l : List Micro} (hun : Unended s [])
    (hc : t.channel = s.channel) (htout : s.channel.response.stream.cancelled = true →
      s.channel.timedOut = false) (hx : outcome = .Abandoned ∨ u = true) :
    Decided t u (channelFail n (.Upstream "the request finished before the stream did") ++ l) outcome := by
  have hended : t.channel.response.stream.ended = false := by rw [hc]; exact hun.ended
  cases hcan : t.channel.response.stream.cancelled with
  | false =>
    refine .pending _ hended hcan (pending_channelFail _ _ _) (fun hd hu => ?_) fun _ => hx
    rcases hx with h | h
    · rw [h] at hd
      cases hd
    · rw [hu] at h
      cases h
  | true =>
    have ht := htout (by rwa [← hc])
    refine .stopped hended hcan (fun h => ?_) fun _ hu => ?_
    · rw [hc, ht] at h
      cases h
    · rcases hx with h | h
      · exact h
      · rw [hu] at h
        cases h

theorem Course.abandon (h : Course s u) (ha : agreeing (s, u) .abandon = true)
    (ht : s.abandon = some t) : Course t u := by
  unfold State.abandon at ht
  split at ht
  · rename_i hh hp
    obtain ⟨-, hcount, hun, -⟩ := h.start (Or.inl hp)
    cases ht
    refine .counting _ _ _ _ rfl rfl rfl hcount (.of_abandoned hun rfl (fun hc => ?_) (Or.inl rfl))
    rw [agreeing, State.unsettled, State.stopped, hp, hc, hun.ended] at ha
    simpa using ha
  · rename_i stream hh hp
    obtain ⟨hcount, hopen⟩ := h.table hh hp
    cases ht
    cases hr : stream.responseEnded with
    | true =>
      obtain ⟨outcome, hout, hd⟩ := hopen.ended hr
      obtain ⟨hcounted, hl⟩ := abandon_ended stream hr hout
      refine .counting (stream.abandon.2 ++ wakeStream stream.channel) _ _ _ rfl rfl ?_ hcount ?_
      · rw [hl]
        rfl
      · rw [hcounted]
        -- the response is over, so nothing is judged by the end of the request
        cases hd with
        | told he hend => exact .told he hend
        | stopped he hc ht ha => exact .stopped he hc ht ha
        | pending _ _ _ hp => cases hp
    | false =>
      obtain ⟨hout, hun⟩ := hopen.unended hr
      obtain ⟨hcounted, hl⟩ := abandon_open stream hr hout
      refine .counting (stream.abandon.2 ++ wakeStream stream.channel) _ _ _ rfl rfl ?_ hcount ?_
      · rw [hl]
        rfl
      · rw [hcounted, hl, List.append_assoc]
        refine .of_abandoned hun rfl (fun hc => ?_) ?_
        · rw [agreeing, unsettled_eq hp hr hun.ended, hc] at ha
          simpa using ha
        · split_ifs with hup
          · exact Or.inr (hopen.upgrade hup)
          · exact Or.inl rfl
  · cases ht

end Ruvoy.Streamed
