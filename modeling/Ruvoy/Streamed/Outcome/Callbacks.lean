import Ruvoy.Streamed.Outcome.Course

/-!
# The fibers and the callback that runs

* `Course.timeOut`, `Course.cancel`, `Course.fiber`, `Course.ruby`: a fiber pushes, takes, and stops the
  stream;
* `Opened.finish`, `Opened.fail`, `Course.deliver`, `Course.resetStopped`: where an outcome is set;
* `Course.micro`: each access of a callback.
-/

set_option autoImplicit false

namespace Ruvoy.Streamed

open Runs
open Upstream

variable {s t : State} {u u' : Bool} {l : List Micro} {outcome : CallOutcome} {stream : OpenStream}
  {m : Micro} {rest : List Micro}

/-! ## What the fibers do -/

theorem Course.transfer (h : Course s u) (hp : t.phase = s.phase) (hh : t.handler = s.handler)
    (hn : t.counted = s.counted) (ho : t.requestOver = s.requestOver) (hu : u = true → u' = true)
    (hU : ∀ l, Unended s l → Unended t l)
    (hD : ∀ l outcome, pending l = pending s.handler → Decided s u l outcome → Decided t u' l outcome)
    (hc : s.channel.response.stream.cancelled = true → t.channel.response.stream.cancelled = true)
    (hw : t.channel.resetWanted = true →
      s.channel.resetWanted = true ∨ t.channel.response.stream.cancelled = true) : Course t u' := by
  cases h with
  | before hphase hl hcount hun hwant =>
    refine .before (by rwa [hp]) (hh.trans hl) (hn.trans hcount) (hU _ hun) fun hw' => ?_
    rcases hw hw' with hw' | hw'
    · exact hc (hwant hw')
    · exact hw'
  | opened stream pump hphase hl hcount hopen =>
    exact .opened stream pump (hp.trans hphase) (by rwa [hh]) (hn.trans hcount)
      (by rw [hh]; exact hopen.transfer hu (hU _) (fun _ => hD _ _ rfl) ho)
  | delivering stream pump k bytes endStream l hphase hl hs hcount hr hopen =>
    refine .delivering stream pump k bytes endStream l (hp.trans hphase) (hh.trans hl) hs
      (hn.trans hcount) hr (hopen.transfer hu (hU _) (fun _ => hD _ _ ?_) ho)
    rw [hl, pending_of_quiet rfl]
  | asking stream pump k l hphase hl hs hcount hr hout hup hun hcan =>
    exact .asking stream pump k l (hp.trans hphase) (hh.trans hl) hs (hn.trans hcount) hr hout
      (fun h' => hu (hup h')) (hU _ hun) (hc hcan)
  | resetting stream reason hphase hl hcount hr hopen =>
    refine .resetting stream reason (hp.trans hphase) (hh.trans hl) (hn.trans hcount) hr
      (hopen.transfer hu (hU _) (fun _ => hD _ _ ?_) ho)
    rw [hl, pending_of_quiet rfl]
  | counting l item cluster outcome hphase hl hs hcount hd =>
    refine .counting l item cluster outcome (hp.trans hphase) (hh.trans hl) hs (hn.trans hcount)
      (hD _ _ ?_ hd)
    rw [hl, pending_append, pending_of_quiet rfl]
    exact (Option.or_none).symm
  | counted outcome hphase hl hcount hd =>
    exact .counted outcome (hp.trans hphase) (hh.trans hl) (hn.trans hcount) (hD _ _ (by rw [hl]) hd)

theorem Course.frame (h : Course s u) (hp : t.phase = s.phase) (hh : t.handler = s.handler)
    (hn : t.counted = s.counted) (hs : Seen s t)
    (hw : t.channel.resetWanted = true →
      s.channel.resetWanted = true ∨ t.channel.response.stream.cancelled = true) : Course t u :=
  h.transfer hp hh hn hs.requestOver id (fun _ hun => hun.frame hs) (fun _ _ _ hd => hd.frame hs)
    hs.cancelled.trans hw

theorem Course.timeOut (h : Course s u) (hc : s.channel.response.stream.cancelled = false) :
    Course (s.fiber .timeOut) u := by
  refine h.transfer rfl rfl rfl rfl id (fun l hun => ⟨hun.ended, hun.pending, hun.requestOver⟩) ?_ id Or.inl
  intro l outcome _ hd
  cases hd with
  | told he hend => exact .told he hend
  | stopped _ hcan =>
    rw [hc] at hcan
    cases hcan
  | pending x he hcan hp hx ho => exact .pending x he hcan hp hx ho

/-- **The stop lands.** -/
theorem Course.cancel (h : Course s u) (hclear : clear (s, u) = true)
    (hr : t.channel = { s.channel with response := s.channel.response.cancel }) (hp : t.phase = s.phase)
    (hh : t.handler = s.handler) (hn : t.counted = s.counted) (ho : t.requestOver = s.requestOver) :
    Course t u := by
  have hcan : t.channel.response.stream.cancelled = true := by rw [hr]; rfl
  have hended : t.channel.response.stream.ended = s.channel.response.stream.ended := by rw [hr]; rfl
  have htout : t.channel.timedOut = s.channel.timedOut := by rw [hr]
  refine h.transfer hp hh hn ho id
    (fun l hun => ⟨hended.trans hun.ended, hun.pending, ho.trans hun.requestOver⟩) ?_ (fun _ => hcan)
    fun _ => Or.inr hcan
  intro l outcome hl hd
  cases hd with
  | told he hend => exact .told (hended.trans he) (by rw [hr]; exact hend)
  | stopped he _ ht ha => exact .stopped (hended.trans he) hcan (by rwa [htout]) (by rwa [htout])
  | pending x he _ hp hx hover =>
    -- the stop fell between the decision and the push
    rw [clear, ← hl, hp, Option.isNone_some, Bool.false_or, Bool.and_eq_true, Bool.not_eq_true',
      Bool.or_eq_true] at hclear
    obtain ⟨ht, hexcuse⟩ := hclear
    refine .stopped (hended.trans he) hcan (by rw [htout, ht]; rintro ⟨⟩) fun _ hu => ?_
    rcases hexcuse with hu' | ho'
    · rw [hu] at hu'
      cases hu'
    · rcases hover ho' with hout | hu'
      · exact hout
      · rw [hu] at hu'
        cases hu'

theorem seen_response {q : Tracked} (he : q.stream.ended = s.channel.response.stream.ended)
    (hc : q.stream.cancelled = s.channel.response.stream.cancelled)
    (ha : q.accepted = s.channel.response.accepted) : Seen s (s.onResponse fun _ => q) :=
  ⟨he, hc, ha, rfl, rfl⟩

theorem Course.fiber (h : Course s u) {op : FiberOp} (ho : stopsOnce s (.fiber op) = true)
    (ha : agreeing (s, u) (.fiber op) = true) : Course (s.fiber op) u := by
  cases op with
  | take =>
    exact h.frame rfl rfl rfl (seen_response (q := s.channel.response.takeNext)
      ResponseStream.takeNext_ended ResponseStream.takeNext_cancelled rfl) Or.inl
  | park v =>
    exact h.frame rfl rfl rfl (seen_response (q := s.channel.response.park v)
      (ResponseStream.park_ended v) (ResponseStream.park_cancelled v) rfl) Or.inl
  | unpark | write bytes | finish | parkWriter v | unparkWriter =>
    exact h.frame rfl rfl rfl ⟨rfl, rfl, rfl, rfl, rfl⟩ Or.inl
  | close => exact h.cancel ha rfl rfl rfl rfl rfl
  | timeOut =>
    have hboth : (!(s.channel.response.stream.cancelled || s.channel.timedOut)) = true := ho
    rw [Bool.not_eq_true', Bool.or_eq_false_iff] at hboth
    exact h.timeOut hboth.1

theorem Course.ruby (h : Course s u) (hc : Closing s) (ha : agreeing (s, u) .ruby = true)
    (ht : s.rubyStep = some t) : Course t u := by
  cases hr : s.ruby with
  | idle =>
    rw [State.rubyStep, hr] at ht
    cases ht
  | closeResponse n =>
    rw [State.rubyStep, hr] at ht
    cases ht
    rw [agreeing, hr] at ha
    exact h.cancel ha rfl rfl rfl rfl rfl
  | closeRequest n =>
    rw [State.rubyStep, hr] at ht
    cases ht
    exact h.frame rfl rfl rfl ⟨rfl, rfl, rfl, rfl, rfl⟩ Or.inl
  | wantReset n =>
    have hcan := hc ⟨n, Or.inr hr⟩
    rw [State.rubyStep, hr] at ht
    cases ht
    exact h.frame rfl rfl rfl ⟨rfl, rfl, rfl, rfl, rfl⟩ fun _ => Or.inr hcan

/-! ## The callbacks -/

theorem failed_ne_completed (error : BridgeError) : failed error ≠ .Completed := by
  cases error <;> rintro ⟨⟩

namespace Opened

theorem of_decided (hup : stream.upgraded = true → u = true) (ho : stream.outcome = some outcome)
    (hr : stream.responseEnded = true) (hd : Decided s u l outcome) (hover : s.requestOver = false) :
    Opened s u stream l where
  upgrade := hup
  unended hn := by rw [hr] at hn; cases hn
  ended _ := ⟨outcome, ho, hd⟩
  requestOver := hover

theorem of_unended (hup : stream.upgraded = true → u = true) (ho : stream.outcome = none)
    (hr : stream.responseEnded = false) (hun : Unended s l) : Opened s u stream l where
  upgrade := hup
  unended _ := ⟨ho, hun⟩
  ended hn := by rw [hr] at hn; cases hn
  requestOver := hun.requestOver

/-- The response ends, where no fiber stopped it or it is an upgraded stream that did not time out. -/
theorem finish (hup : stream.upgraded = true → u = true) (ho : stream.outcome = none)
    (hun : Unended s l)
    (hc : s.channel.response.stream.cancelled = true → s.channel.timedOut = false ∧ u = true) :
    Opened s u stream.finish.1 (stream.finish.2 ++ l) := by
  have hout : stream.finish.1.outcome = some .Completed := by
    rw [OpenStream.finish, OpenStream.settle, ho]
    rfl
  exact of_decided hup hout rfl
    (.of_push hun.ended hun.requestOver (pending_of_ending rfl) (fun _ => rfl) hc) hun.requestOver

theorem fail (hup : stream.upgraded = true → u = true) (ho : stream.outcome = none) (hun : Unended s l)
    (error : BridgeError)
    (hc : s.channel.response.stream.cancelled = true → s.channel.timedOut = false ∧ u = true) :
    Opened s u (stream.fail error).1 ((stream.fail error).2 ++ l) := by
  have hout : (stream.fail error).1.outcome = some (failed error) := by
    rw [OpenStream.fail, OpenStream.settle, ho]
    rfl
  exact of_decided hup hout rfl
    (.of_push hun.ended hun.requestOver (pending_of_ending rfl)
      (fun h => (failed_ne_completed error h).elim) hc) hun.requestOver

theorem swap {l' : List Micro} (h : Opened s u stream l) (hl : pending l = none)
    (hl' : pending l' = none) : Opened s u stream l' where
  upgrade := h.upgrade
  unended hr := (h.unended hr).imp id fun hun => ⟨hun.ended, hl', hun.requestOver⟩
  ended hr := by
    obtain ⟨outcome, ho, hd⟩ := h.ended hr
    exact ⟨outcome, ho, hd.swap hl⟩
  requestOver := h.requestOver

theorem quiet (h : Opened s u stream l) (hm : ending m = none) : Opened s u stream (m :: l) where
  upgrade := h.upgrade
  unended hr := (h.unended hr).imp id fun hun =>
    ⟨hun.ended, (pending_of_quiet hm).trans hun.pending, hun.requestOver⟩
  ended hr := by
    obtain ⟨outcome, ho, hd⟩ := h.ended hr
    refine ⟨outcome, ho, ?_⟩
    cases hd with
    | told he hend => exact .told he hend
    | stopped he hc ht ha => exact .stopped he hc ht ha
    | pending x he hc hp hx ho => exact .pending x he hc ((pending_of_quiet hm).trans hp) hx ho
  requestOver := h.requestOver

end Opened

theorem Course.update {pump : Pump} {r : OpenStream × List Micro} (h : Opened s u r.1 (r.2 ++ rest))
    (hl : (r.2 ++ rest).all simple = true) (hcount : s.counted = []) :
    Course (s.update pump r rest) u :=
  .opened r.1 pump rfl hl hcount (h.frame ⟨rfl, rfl, rfl, rfl, rfl⟩)

theorem Course.deliver {pump : Pump} {bytes : Bytes} {endStream : Bool}
    (hl : rest.all simple = true) (hcount : s.counted = []) (hr : stream.responseEnded = false)
    (h : Opened s u stream rest) : Course (s.deliverData stream pump bytes endStream rest) u := by
  obtain ⟨hout, hun⟩ := h.unended hr
  rcases s.channel.response.stream.pushChunkIfRoom_cases bytes with
    ⟨hno, hin⟩ | ⟨hc, -, hok, hin⟩
  · -- refused: the queue is as it was
    have hended : (s.onResponse (·.pushIfRoom bytes)).channel.response.stream.ended = false := by
      show (s.channel.response.stream.pushChunkIfRoom bytes).2.ended = false
      rw [hin]
      exact hun.ended
    have hcan : (s.onResponse (·.pushIfRoom bytes)).channel.response.stream.cancelled =
        s.channel.response.stream.cancelled :=
      ResponseStream.pushChunkIfRoom_cancelled bytes
    rcases hno with ⟨hnone, hshut⟩ | ⟨hfull, hopen, -⟩
    · rw [hun.ended, Bool.or_false] at hshut
      simp only [State.deliverData, hnone]
      exact .asking _ pump 0 rest rfl rfl hl hcount rfl hout h.upgrade
        ⟨hended, hun.pending, hun.requestOver⟩ (hcan.trans hshut)
    · simp only [State.deliverData, hfull]
      refine .update (.fail h.upgrade hout ⟨hended, hun.pending, hun.requestOver⟩ _ ?_) hl hcount
      intro hcancelled
      rw [hcan, hopen] at hcancelled
      cases hcancelled
  · have hinner : (s.onResponse (·.pushIfRoom bytes)).channel.response.stream.inner =
        s.channel.response.stream.inner.append (.Chunk bytes) := hin
    have hun' : Unended (s.onResponse (·.pushIfRoom bytes)) rest :=
      ⟨by rw [hinner]; rfl, hun.pending, hun.requestOver⟩
    cases endStream with
    | false =>
      simp only [State.deliverData, hok]
      exact .update (r := (stream, [])) (.of_unended h.upgrade hout hr hun') hl hcount
    | true =>
      simp only [State.deliverData, hok, if_true]
      refine .update (.finish h.upgrade hout hun' ?_) hl hcount
      intro hcancelled
      rw [hinner, ResponseStreamInner.append_cancelled, hc] at hcancelled
      cases hcancelled

/-- How the fiber stopped the stream is what is counted. -/
theorem Decided.of_stopped (hup : stream.upgraded = true → u = true)
    (he : s.channel.response.stream.ended = false) (hc : s.channel.response.stream.cancelled = true) :
    Decided s u l (stream.stoppedByFiber s.channel.timedOut) := by
  refine .stopped he hc (fun ht => ?_) fun ht hu => ?_
  · rw [OpenStream.stoppedByFiber, ht, if_pos rfl]
  · rw [OpenStream.stoppedByFiber, ht, if_neg (by rintro ⟨⟩), if_neg]
    intro hn
    rw [hup hn] at hu
    cases hu

/-- The accesses that are left when Envoy is done with a stream: simple ones, and the count. -/
theorem close_eq (r : OpenStream × List Micro) : OpenStream.close r =
    (r.2 ++ wakeStream r.1.channel) ++ [.count r.1.item r.1.cluster r.1.counted] := rfl

theorem Course.close {r : OpenStream × List Micro} (hp : s.phase = .over)
    (hh : s.handler = OpenStream.close r) (hl : r.2.all simple = true) (hcount : s.counted = [])
    (hd : Decided s u (r.2 ++ wakeStream r.1.channel) r.1.counted) : Course s u := by
  refine .counting _ _ _ _ hp (hh.trans (close_eq r)) ?_ hcount hd
  rw [List.all_append, hl]
  rfl

theorem pending_wakes (l : List Micro) (n : ℕ) : pending (l ++ wakeStream n) = pending l := by
  rw [pending_append]
  exact Option.or_none

section Results

variable (stream)

/-- A stream whose response is over counts for what was decided. -/
theorem completed_ended (hr : stream.responseEnded = true) (ho : stream.outcome = some outcome) :
    stream.completed.1.counted = outcome ∧ stream.completed.2 = [.cancelRequest stream.channel] := by
  rw [OpenStream.completed, if_pos hr]
  exact ⟨by rw [OpenStream.gone, OpenStream.counted, ho]; rfl, rfl⟩

theorem completed_open (hr : stream.responseEnded = false) (ho : stream.outcome = none) :
    stream.completed.1.counted = .Completed ∧ stream.completed.2 =
      [.push (.response stream.channel) .End, .cancelRequest stream.channel] := by
  rw [OpenStream.completed, if_neg (by rw [hr]; rintro ⟨⟩)]
  exact ⟨by rw [OpenStream.gone, OpenStream.counted, OpenStream.finish, OpenStream.settle, ho]; rfl, rfl⟩

theorem abandon_ended (hr : stream.responseEnded = true) (ho : stream.outcome = some outcome) :
    stream.abandon.1.counted = outcome ∧ stream.abandon.2 = [.cancelRequest stream.channel] := by
  simp only [OpenStream.abandon, OpenStream.settle, ho, hr, if_true]
  exact ⟨rfl, rfl⟩

theorem abandon_open (hr : stream.responseEnded = false) (ho : stream.outcome = none) :
    stream.abandon.1.counted = (if stream.upgraded then .Completed else .Abandoned) ∧
      stream.abandon.2 = channelFail stream.channel
        (.Upstream "the request finished before the stream did") ++ [.cancelRequest stream.channel] := by
  simp only [OpenStream.abandon, OpenStream.settle, ho, hr, Bool.false_eq_true, if_false]
  exact ⟨rfl, rfl⟩

theorem reset_ended (hr : stream.responseEnded = true) (ho : stream.outcome = some outcome)
    (reason : ResetReason) : (stream.resetByEnvoy reason).1.counted = outcome ∧
      (stream.resetByEnvoy reason).2 = [.cancelRequest stream.channel] := by
  by_cases hover : reason = .Overflow
  · simp only [OpenStream.resetByEnvoy, if_pos hover, OpenStream.settle, hr, if_true, ho]
    exact ⟨rfl, rfl⟩
  · simp only [OpenStream.resetByEnvoy, if_neg hover, hr, if_true, OpenStream.gone, OpenStream.counted, ho]
    exact ⟨rfl, rfl⟩

/-- A reset fails the response, and counts for what was decided or for itself. -/
theorem reset_open (hr : stream.responseEnded = false) (reason : ResetReason) :
    (stream.resetByEnvoy reason).1.counted =
        stream.outcome.getD (if reason = .Overflow then .Refused else .Reset) ∧
      (stream.resetByEnvoy reason).2 = channelFail stream.channel (.Upstream (resetReason reason)) ++
        [.cancelRequest stream.channel] := by
  by_cases hover : reason = .Overflow
  · simp only [OpenStream.resetByEnvoy, if_pos hover, OpenStream.settle, hr, Bool.false_eq_true, if_false]
    exact ⟨rfl, rfl⟩
  · simp only [OpenStream.resetByEnvoy, if_neg hover, hr, Bool.false_eq_true, if_false]
    exact ⟨rfl, rfl⟩

end Results

theorem pending_channelFail (n : ℕ) (error : BridgeError) (l : List Micro) :
    pending (channelFail n error ++ l) = some (.Failed error) := pending_of_ending rfl

/-- The reset is reported of a stream that a fiber stopped, by the reset that the worker sent. -/
theorem Course.resetStopped {reason : ResetReason} (h : Opened s u stream [])
    (hr : stream.responseEnded = false) (hp : s.phase = .over) (hcount : s.counted = []) :
    Course (s.micro (.resetStopped stream reason) []) u := by
  obtain ⟨-, hun⟩ := h.unended hr
  obtain ⟨hout, hl⟩ := reset_open { stream with outcome := some (stream.stoppedByFiber s.channel.timedOut) } hr reason
  refine .close hp (List.append_nil _) (by rw [hl]; rfl) hcount ?_
  rw [hout, Option.getD_some, hl, List.append_assoc]
  refine Decided.frame (s := s) ?_ ⟨rfl, rfl, rfl, rfl, rfl⟩
  cases hcan : s.channel.response.stream.cancelled with
  | true => exact .of_stopped h.upgrade hun.ended hcan
  | false =>
    refine .pending _ hun.ended hcan (pending_channelFail _ _ _) (fun hdone hu => ?_) ?_
    · rw [OpenStream.stoppedByFiber] at hdone
      split_ifs at hdone with ht hup
      rw [h.upgrade hup] at hu
      cases hu
    · rw [hun.requestOver]
      rintro ⟨⟩

theorem simple_cons (h : (m :: rest).all simple = true) : simple m = true ∧ rest.all simple = true := by
  rwa [List.all_cons, Bool.and_eq_true] at h

/-- **One access of the callback that runs.** -/
theorem Course.micro (h : Course s u) (hh : s.handler = m :: rest) : Course (s.micro m rest) u := by
  cases h with
  | before _ hl =>
    rw [hh] at hl
    cases hl
  | opened stream pump hphase hl hcount hopen =>
    rw [hh] at hl hopen
    obtain ⟨hm, hrest⟩ := simple_cons hl
    obtain ⟨hb, hhandler⟩ := beside_micro s rest hm
    refine .opened stream pump (hb.phase.trans hphase) (by rwa [hhandler]) (hb.counted.trans hcount) ?_
    rw [hhandler]
    exact hopen.micro hm
  | delivering stream pump k bytes endStream l hphase hl hs hcount hr hopen =>
    rw [hh] at hl
    cases hl
    simp only [State.micro, hphase]
    exact .deliver hs hcount hr hopen
  | asking stream pump k l hphase hl hs hcount hr hout hup hun hcan =>
    rw [hh] at hl
    cases hl
    simp only [State.micro, hphase]
    have hsettled : (stream.settle (stream.stoppedByFiber s.channel.timedOut)).outcome =
        some (stream.stoppedByFiber s.channel.timedOut) := by
      rw [OpenStream.settle, hout]
      rfl
    exact .update (r := (stream.settle (stream.stoppedByFiber s.channel.timedOut), []))
      (.of_decided hup hsettled hr (.of_stopped hup hun.ended hcan) hun.requestOver) hs hcount
  | resetting stream reason hphase hl hcount hr hopen =>
    rw [hh] at hl
    cases hl
    exact .resetStopped hopen hr hphase hcount
  | counting l item cluster outcome hphase hl hs hcount hd =>
    cases l with
    | nil =>
      rw [hh] at hl
      cases hl
      refine .counted outcome hphase rfl ?_ (hd.frame ⟨rfl, rfl, rfl, rfl, rfl⟩)
      show s.counted ++ [outcome] = _
      rw [hcount]
      rfl
    | cons m' l =>
      rw [hh] at hl
      cases hl
      obtain ⟨hm, hrest⟩ := simple_cons hs
      obtain ⟨hb, hhandler⟩ := beside_micro s (l ++ [.count item cluster outcome]) hm
      refine .counting l item cluster outcome (hb.phase.trans hphase) hhandler hrest
        (hb.counted.trans hcount) ?_
      exact hd.micro hm
  | counted outcome hphase hl =>
    rw [hh] at hl
    cases hl

end Ruvoy.Streamed
