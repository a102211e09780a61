import Ruvoy.Streamed.Body
import Ruvoy.Streamed.Outcome

/-!
# The framing of an uploaded body

What is read ahead of a body, the content-length that goes with it, and what the worker asks of Envoy
beside what it took of the request queue.

* `preread_content`, `preread_none_iff`: what is read ahead, and when that is nothing;
* `fields_lengths`: the content-length that is added;
* `Pass`, `pass_step`: what a step that does not write does to the request queue;
* `Framed`: what the worker asked of Envoy agrees with what was taken of the request queue;
* `Bodiless`: a stream without a body is started with its end.
-/

set_option autoImplicit false

namespace Ruvoy.Streamed.Body

open Runs
open Upstream
open Exchange (uploadBytes)

/-! ## What is read ahead -/

theorem preread_content (read : Bytes) (pieces : List Bytes) :
    (preread read pieces).1.getD [] ++ ((preread read pieces).2.getD []).flatten =
      read ++ pieces.flatten := by
  induction pieces generalizing read with
  | nil =>
    rw [preread]
    split_ifs with hle hempty
    · rw [List.isEmpty_iff.mp hempty]
      rfl
    · rfl
    · rfl
  | cons piece pieces ih =>
    rw [preread]
    split_ifs with hle
    · rw [ih, List.flatten_cons, List.append_assoc]
    · rfl

/-- Nothing is read ahead of an empty body alone. -/
theorem preread_none_iff (read : Bytes) (pieces : List Bytes) :
    (preread read pieces).1 = none ↔ read ++ pieces.flatten = [] := by
  induction pieces generalizing read with
  | nil =>
    rw [preread, List.flatten_nil, List.append_nil]
    split_ifs with hle hempty
    · exact ⟨fun _ => List.isEmpty_iff.mp hempty, fun _ => rfl⟩
    · exact ⟨by rintro ⟨⟩, fun h => (hempty (List.isEmpty_iff.mpr h)).elim⟩
    · refine ⟨by rintro ⟨⟩, fun h => (hle ?_).elim⟩
      rw [h]
      exact Nat.zero_le _
  | cons piece pieces ih =>
    rw [preread, List.flatten_cons, ← List.append_assoc]
    split_ifs with hle
    · exact ih (read ++ piece)
    · refine ⟨by rintro ⟨⟩, fun h => (hle ?_).elim⟩
      rw [(List.append_eq_nil_iff.mp (List.append_eq_nil_iff.mp h).1).1]
      exact Nat.zero_le _

/-! ## The content-length -/

/-- The content-length fields among those of a request. -/
def lengths (fields : Fields) : Fields := fields.filter (·.1 == "content-length")

theorem lengths_append (fs gs : Fields) : lengths (fs ++ gs) = lengths fs ++ lengths gs :=
  List.filter_append ..

theorem lengths_nil_iff {fs : Fields} : lengths fs = [] ↔ fs.all (·.1 != "content-length") = true := by
  rw [lengths, List.filter_eq_nil_iff, List.all_eq_true]
  simp only [bne, Bool.not_eq_true', Bool.not_eq_true]

/-- The application sets no content-length of its own. -/
def Call.lengthless (c : Call) : Prop := ∀ h ∈ c.headers, c.text.downcase h.1 ≠ "content-length"

theorem addHeaders_lengths {text : RubyText} {headers : List (String × HeaderValue)} {r r' : String × Fields}
    (h : ∀ h ∈ headers, text.downcase h.1 ≠ "content-length")
    (ha : addHeaders text headers r = .ok r') :
    lengths r'.2 = lengths r.2 := by
  induction headers generalizing r with
  | nil => cases ha; rfl
  | cons header headers ih =>
    obtain ⟨name, value⟩ := header
    obtain ⟨host, fs⟩ := r
    have hrest := fun x hx => h x (List.mem_cons_of_mem _ hx)
    have hname : text.downcase name ≠ "content-length" := h _ List.mem_cons_self
    simp only [addHeaders] at ha
    split_ifs at ha with hcolon hhost
    · exact ih (r := (value.text, fs)) hrest ha
    · rw [ih hrest ha, lengths_append]
      have hnone : lengths (value.elements.map fun element => (text.downcase name, utf8 element)) = [] := by
        rw [lengths_nil_iff, List.all_map, List.all_eq_true]
        intro element _
        simpa using hname
      rw [hnone, List.append_nil]

/-- **One content-length is added for a body that is given.** -/
theorem fields_lengths {text : RubyText} {cluster method path : String} {headers : List (String × HeaderValue)}
    {body : Option Bytes} {fs : Fields} (h : ∀ h ∈ headers, text.downcase h.1 ≠ "content-length")
    (hf : fields text cluster method path headers body = .ok fs) :
    lengths fs = (body.map fun bytes => ("content-length", utf8 (toString bytes.length))).toList := by
  unfold fields at hf
  split_ifs at hf
  cases ha : addHeaders text headers
      (cluster, [(":method", utf8 (text.upcase method)), (":path", utf8 path)]) with
  | error text =>
    rw [ha] at hf
    cases hf
  | ok r =>
    rw [ha] at hf
    cases hf
    have hnone : lengths r.2 = [] := (addHeaders_lengths h ha).trans rfl
    cases body with
    | none =>
      rw [lengths_append, lengths_append, hnone]
      rfl
    | some bytes =>
      simp only [lengths_nil_iff.mp hnone, if_true]
      rw [lengths_append, lengths_append, hnone]
      rfl

theorem lengths_withTrace (fs : Fields) (up : Upstream.State) :
    lengths (withTrace fs up.readTrace) = lengths fs := by
  have hnone : lengths (up.readTrace.filter fun field => !fs.any (·.1 == field.1)) = [] := by
    rw [lengths_nil_iff, List.all_eq_true]
    intro field hf
    obtain ⟨name, hname, hfield⟩ := List.mem_filterMap.mp (List.mem_of_mem_filter hf)
    cases hv : up.config.requestHeader name with
    | none =>
      rw [hv] at hfield
      cases hfield
    | some value =>
      rw [hv] at hfield
      cases hfield
      have hall : traceHeaders.all (· != "content-length") = true := by decide
      exact List.all_eq_true.mp hall name hname
  rw [withTrace, lengths_append, hnone, List.append_nil]

/-! ## What the worker asked of Envoy -/

/-- The bytes of the body that go out with a request. -/
def sentBytes : EnvoyRequest → Bytes
  | .start _ _ _ body _ _ => body.getD []
  | .send _ data _ => data
  | _ => []

def sendsEnd : EnvoyRequest → Bool
  | .start _ _ _ _ endStream _ => endStream
  | .send _ _ endStream => endStream
  | _ => false

/-- The bytes Envoy was given. -/
def given (requests : List EnvoyRequest) : Bytes := requests.flatMap sentBytes

/-- Envoy was given the end of the stream. -/
def endGiven (requests : List EnvoyRequest) : Bool := requests.any sendsEnd

theorem given_concat (qs : List EnvoyRequest) (q : EnvoyRequest) :
    given (qs ++ [q]) = given qs ++ sentBytes q := by
  rw [given, List.flatMap_append, List.flatMap_singleton]
  rfl

theorem endGiven_concat (qs : List EnvoyRequest) (q : EnvoyRequest) :
    endGiven (qs ++ [q]) = (endGiven qs || sendsEnd q) := by
  rw [endGiven, List.any_append, List.any_cons, List.any_nil, Bool.or_false]
  rfl

/-! ## What a step does to the request queue -/

/-- The stream is not started. -/
def Phase.fresh (p : Phase) : Prop := p = .queued ∨ p = .first

/-- A step other than a take, or a write. -/
structure Rests (s t : Streamed.State) : Prop where
  request : t.request = s.request
  context : t.trace = s.trace
  requests : t.requests = s.requests ∨ t.requests = s.requests ++ [.reset 0]
  accepted : t.channel.request.accepted = s.channel.request.accepted
  taken : t.channel.request.taken = s.channel.request.taken
  ended : t.channel.request.stream.ended = s.channel.request.stream.ended
  paused : t.channel.request.stream.paused = s.channel.request.stream.paused
  cancelled : s.channel.request.stream.cancelled = true → t.channel.request.stream.cancelled = true
  response : s.channel.response.stream.cancelled = true → t.channel.response.stream.cancelled = true
  /-- While the stream is not started only the fibers cancel its body, after its response. -/
  fresh : Phase.fresh t.phase → Phase.fresh s.phase ∧ (s.handler = [] → t.handler = [] ∧
    t.requests = s.requests ∧ (t.channel.request.stream.cancelled = true →
      s.channel.request.stream.cancelled = true ∨ t.channel.response.stream.cancelled = true))

/-- What a step does that does not write to the request queue. -/
inductive Pass (s t : Streamed.State) : Prop
  | rests : Rests s t → Pass s t
  /-- The worker takes the first of the body at the start of the stream. -/
  | first : s.handler = [] → s.phase = .first → s.phaseStep = some t → Pass s t
  /-- The worker takes an item in the pump. -/
  | pumped {stream : OpenStream} : s.handler = [] → s.phase = .opened stream .take →
    s.phaseStep = some t → Pass s t

section Steps

variable {s t : Streamed.State}

theorem Rests.beside (hr : t.request = s.request) (hx : t.trace = s.trace)
    (hq : t.requests = s.requests ∨ ¬ Phase.fresh t.phase ∧ t.requests = s.requests ++ [.reset 0])
    (hb : t.channel.request = s.channel.request)
    (hc : s.channel.response.stream.cancelled = true → t.channel.response.stream.cancelled = true)
    (hp : Phase.fresh t.phase → Phase.fresh s.phase ∧ (s.handler = [] → t.handler = [])) : Rests s t where
  request := hr
  context := hx
  requests := hq.imp_right And.right
  accepted := by rw [hb]
  taken := by rw [hb]
  ended := by rw [hb]
  paused := by rw [hb]
  cancelled h := by rwa [hb]
  response := hc
  fresh h := by
    refine (hp h).imp id fun hh hidle => ⟨hh hidle, ?_, fun h' => Or.inl (hb ▸ h')⟩
    exact hq.resolve_right fun hreset => hreset.1 h

theorem Rests.started (hr : t.request = s.request) (hx : t.trace = s.trace)
    (hq : t.requests = s.requests) (hb : t.channel.request = s.channel.request)
    (hc : s.channel.response.stream.cancelled = true → t.channel.response.stream.cancelled = true)
    (hp : ¬ Phase.fresh t.phase) : Rests s t :=
  .beside hr hx (Or.inl hq) hb hc fun h => absurd h hp

theorem not_fresh_opened {stream : OpenStream} {pump : Pump} :
    ¬ Phase.fresh (.opened stream pump) := by
  rintro (h | h) <;> cases h

theorem not_fresh_over : ¬ Phase.fresh .over := by
  rintro (h | h) <;> cases h

theorem rests_fiber {op : FiberOp} (ho : writes (.fiber op) = false) : Rests s (s.fiber op) := by
  have hsame : Phase.fresh s.phase → Phase.fresh s.phase ∧ (s.handler = [] → s.handler = []) :=
    fun h => ⟨h, id⟩
  cases op with
  | take => exact .beside rfl rfl (Or.inl rfl) rfl ResponseStream.takeNext_cancelled.trans hsame
  | park v => exact .beside rfl rfl (Or.inl rfl) rfl (ResponseStream.park_cancelled v).trans hsame
  | unpark => exact .beside rfl rfl (Or.inl rfl) rfl id hsame
  | close => exact .beside rfl rfl (Or.inl rfl) rfl (fun _ => rfl) hsame
  | timeOut => exact .beside rfl rfl (Or.inl rfl) rfl id hsame
  | write | finish | parkWriter | unparkWriter => cases ho

theorem Rests.cancelled_request (hr : t.request = s.request) (hx : t.trace = s.trace)
    (hq : t.requests = s.requests)
    (hb : t.channel = { s.channel with request := s.channel.request.cancel }) (hp : t.phase = s.phase)
    (hh : s.handler = [] → t.handler = [] ∧ s.channel.response.stream.cancelled = true) : Rests s t where
  request := hr
  context := hx
  requests := Or.inl hq
  accepted := by rw [hb]; rfl
  taken := by rw [hb]; rfl
  ended := by rw [hb]; rfl
  paused := by rw [hb]; rfl
  cancelled _ := by rw [hb]; rfl
  response h := by rwa [hb]
  fresh h := by
    refine ⟨hp ▸ h, fun hidle => ⟨(hh hidle).1, hq, fun _ => Or.inr ?_⟩⟩
    rw [hb]
    exact (hh hidle).2

theorem rests_ruby (hc : Closing s) (ht : s.rubyStep = some t) : Rests s t := by
  cases hr : s.ruby with
  | idle =>
    rw [State.rubyStep, hr] at ht
    cases ht
  | closeResponse n =>
    rw [State.rubyStep, hr] at ht
    cases ht
    exact .beside rfl rfl (Or.inl rfl) rfl (fun _ => rfl) fun h => ⟨h, id⟩
  | closeRequest n =>
    have hcan := hc ⟨n, Or.inl hr⟩
    rw [State.rubyStep, hr] at ht
    cases ht
    exact .cancelled_request rfl rfl rfl rfl rfl fun hidle => ⟨hidle, hcan⟩
  | wantReset n =>
    rw [State.rubyStep, hr] at ht
    cases ht
    exact .beside rfl rfl (Or.inl rfl) rfl id fun h => ⟨h, id⟩

theorem rests_micro {m : Micro} {rest : List Micro} (hh : s.handler = m :: rest) :
    Rests s (s.micro m rest) := by
  have hcan : s.channel.response.stream.cancelled = true →
      (s.micro m rest).channel.response.stream.cancelled = true :=
    (still_micro m rest).cancelled.trans
  have hbusy : ∀ {l : List Micro}, Phase.fresh s.phase →
      Phase.fresh s.phase ∧ (s.handler = [] → l = []) := by
    intro l hp
    refine ⟨hp, fun hidle => ?_⟩
    rw [hh] at hidle
    cases hidle
  cases m with
  | push q x => cases q <;> exact .beside rfl rfl (Or.inl rfl) rfl hcan hbusy
  | cancelRequest n =>
    refine .cancelled_request rfl rfl rfl rfl rfl fun hidle => ?_
    rw [hh] at hidle
    cases hidle
  | data k bytes endStream =>
    have hpush : s.channel.response.stream.cancelled = true →
        (s.onResponse (·.pushIfRoom bytes)).channel.response.stream.cancelled = true :=
      (ResponseStream.pushChunkIfRoom_cancelled bytes).trans
    simp only [State.micro]
    split
    · unfold State.deliverData
      dsimp only
      split
      · split <;> exact .started rfl rfl rfl rfl hpush not_fresh_opened
      · exact .started rfl rfl rfl rfl hpush not_fresh_opened
      · exact .started rfl rfl rfl rfl hpush not_fresh_opened
    · exact .beside rfl rfl (Or.inl rfl) rfl id hbusy
  | stopped k =>
    simp only [State.micro]
    split
    · exact .started rfl rfl rfl rfl id not_fresh_opened
    · exact .beside rfl rfl (Or.inl rfl) rfl id hbusy
  | resetStopped | setTrailers | wantReset | wake | checkWriter | count =>
    exact .beside rfl rfl (Or.inl rfl) rfl hcan hbusy

theorem pass_phaseStep (hh : s.handler = []) (ht : s.phaseStep = some t) : Pass s t := by
  have hback := ht
  unfold State.phaseStep at ht
  split at ht
  · rename_i hp
    split_ifs at ht <;> cases ht
    · exact .rests (.started rfl rfl rfl rfl id not_fresh_over)
    · exact .rests (.beside rfl rfl (Or.inl rfl) rfl id fun _ => ⟨Or.inl hp, id⟩)
  · rename_i hp
    exact .first hh hp hback
  · split_ifs at ht <;> cases ht
    · exact .rests (.beside rfl rfl (Or.inr ⟨not_fresh_opened, rfl⟩) rfl id fun h => absurd h not_fresh_opened)
    · exact .rests (.started rfl rfl rfl rfl id not_fresh_opened)
  · rename_i hp
    exact .pumped hh hp hback
  · cases ht
    exact .rests (.started rfl rfl rfl rfl id not_fresh_opened)
  · cases ht
  · cases ht

theorem rests_envoyReturns {result : InitResult} (ht : s.envoyReturns result = some t) : Rests s t := by
  unfold State.envoyReturns at ht
  split at ht
  · split at ht <;> cases ht
    · exact .started rfl rfl rfl rfl id not_fresh_opened
    · exact .started rfl rfl rfl rfl id not_fresh_over
  · cases ht

theorem rests_onOpenStream {f : OpenStream → OpenStream × List Micro}
    (ht : s.onOpenStream f = some t) : Rests s t := by
  obtain ⟨_, _, -, -, rfl⟩ := onOpenStream_eq ht
  exact .started rfl rfl rfl rfl id not_fresh_opened

theorem rests_onFinished {f : OpenStream → List Micro} (ht : s.onFinished f = some t) : Rests s t := by
  obtain ⟨_, _, -, -, rfl⟩ := onFinished_eq ht
  exact .started rfl rfl rfl rfl id not_fresh_over

theorem rests_abandon (ht : s.abandon = some t) : Rests s t := by
  unfold State.abandon at ht
  split at ht <;> cases ht <;> exact .started rfl rfl rfl rfl id not_fresh_over

/-- **A step that does not write to the request queue leaves it alone, cancels it or takes of it.** -/
theorem pass_step {a : Streamed.Action} (hc : Closing s) (hw : writes a = false)
    (ht : Streamed.step s a = some t) : Pass s t := by
  cases a with
  | fiber op =>
    simp only [Streamed.step, Option.ite_none_right_eq_some, Option.some.injEq] at ht
    obtain ⟨-, rfl⟩ := ht
    exact .rests (rests_fiber hw)
  | ruby => exact .rests (rests_ruby hc ht)
  | work =>
    simp only [Streamed.step] at ht
    split at ht
    · rename_i m rest hh
      cases ht
      exact .rests (rests_micro hh)
    · rename_i hh
      exact pass_phaseStep hh ht
  | returns result => exact .rests (rests_envoyReturns ht)
  | headers | data | trailers => exact .rests (rests_onOpenStream ht)
  | complete | reset => exact .rests (rests_onFinished ht)
  | abandon => exact .rests (rests_abandon ht)

/-- What a take leaves alone. -/
structure Took (s t : Streamed.State) : Prop where
  request : t.request = s.request
  context : t.trace = s.trace
  queue : t.channel.request = s.channel.request.takeNext
  response : t.channel.response = s.channel.response

theorem took_first (hp : s.phase = .first) (ht : s.phaseStep = some t) : Took s t ∧
    (∃ b, t.phase = .starting b) ∧ ∃ body timeout,
      t.requests = s.requests ++ [.start 0 s.request.cluster (withTrace s.request.headers s.trace) body
        (s.channel.request.stream.takeNext.1 == some .End) timeout] ∧
      body.getD [] = (s.channel.request.stream.takeNext.1.elim [] StreamItem.bytes) := by
  simp only [State.phaseStep, hp, Option.some.injEq] at ht
  subst ht
  refine ⟨⟨rfl, rfl, rfl, rfl⟩, ⟨_, rfl⟩, _, _, rfl, ?_⟩
  cases s.channel.request.stream.takeNext.1 with
  | none => rfl
  | some x => cases x <;> rfl

theorem took_pumped {stream : OpenStream} (hp : s.phase = .opened stream .take)
    (ht : s.phaseStep = some t) : Took s t ∧ (∃ stream' pump, t.phase = .opened stream' pump) ∧
    (t.requests = s.requests ∧ s.channel.request.stream.takeNext.1.elim [] StreamItem.bytes = [] ∨
      ∃ x, s.channel.request.stream.takeNext.1 = some x ∧
        t.requests = s.requests ++ [.send 0 x.bytes (x == .End)]) := by
  simp only [State.phaseStep, hp, Option.some.injEq] at ht
  subst ht
  cases s.channel.request.stream.takeNext.1 with
  | none => exact ⟨⟨rfl, rfl, rfl, rfl⟩, ⟨_, _, rfl⟩, Or.inl ⟨rfl, rfl⟩⟩
  | some x =>
    cases x with
    | Head head => exact ⟨⟨rfl, rfl, rfl, rfl⟩, ⟨_, _, rfl⟩, Or.inl ⟨rfl, rfl⟩⟩
    | Failed error => exact ⟨⟨rfl, rfl, rfl, rfl⟩, ⟨_, _, rfl⟩, Or.inl ⟨rfl, rfl⟩⟩
    | Chunk chunk => exact ⟨⟨rfl, rfl, rfl, rfl⟩, ⟨_, _, rfl⟩, Or.inr ⟨_, rfl, rfl⟩⟩
    | End => exact ⟨⟨rfl, rfl, rfl, rfl⟩, ⟨_, _, rfl⟩, Or.inr ⟨_, rfl, rfl⟩⟩

end Steps

/-! ## What the worker asked, and what it took -/

/-- The requests, the request queue and the phase agree. -/
structure Framed (r : UpstreamStreamRequest) (trace : Fields) (s : Streamed.State) : Prop where
  request : s.request = r
  context : s.trace = trace
  closing : Closing s
  unpaused : s.channel.request.stream.paused = false
  given : given s.requests = bodyOf s.channel.request.taken
  ended : endGiven s.requests = true → .End ∈ s.channel.request.taken
  fresh : Phase.fresh s.phase → s.handler = [] ∧ s.requests = [] ∧ s.channel.request.taken = [] ∧
    (s.channel.request.stream.cancelled = true → s.channel.response.stream.cancelled = true)
  starts : ∀ n cluster headers body endStream timeout,
    .start n cluster headers body endStream timeout ∈ s.requests →
      headers = withTrace r.headers trace ∧ (endStream = true → s.channel.request.taken = [.End])

/-- The body is none: its queue took its end at once, and so is the stream started. -/
structure Bodiless (s : Streamed.State) : Prop where
  accepted : s.channel.request.accepted = [.End]
  starts : ∀ n cluster headers body endStream timeout,
    .start n cluster headers body endStream timeout ∈ s.requests →
      endStream = true ∨ s.channel.response.stream.cancelled = true

section Framing

variable {r : UpstreamStreamRequest} {trace : Fields} {s t : Streamed.State}

theorem mem_of_concat {qs : List EnvoyRequest} {q p : EnvoyRequest} (hq : q ∈ qs ++ [p])
    (hne : q ≠ p) : q ∈ qs := by
  rcases List.mem_append.mp hq with hq | hq
  · exact hq
  · exact absurd (List.mem_singleton.mp hq) hne

/-- A step other than a take starts nothing. -/
theorem start_of_rests (hr : Rests s t) {q : EnvoyRequest} (hq : q ∈ t.requests)
    (hne : q ≠ .reset 0) : q ∈ s.requests := by
  rcases hr.requests with heq | heq
  · rwa [heq] at hq
  · exact mem_of_concat (heq ▸ hq) hne

theorem start_of_pumped {stream : OpenStream} (hp : s.phase = .opened stream .take)
    (ht : s.phaseStep = some t) {q : EnvoyRequest} (hq : q ∈ t.requests)
    (hne : ∀ data endStream, q ≠ .send 0 data endStream) : q ∈ s.requests := by
  obtain ⟨-, -, ⟨heq, -⟩ | ⟨x, -, heq⟩⟩ := took_pumped hp ht
  · rwa [heq] at hq
  · exact mem_of_concat (heq ▸ hq) (hne _ _)

theorem Framed.rests (h : Framed r trace s) (hr : Rests s t) (hc : Closing t) : Framed r trace t where
  request := hr.request.trans h.request
  context := hr.context.trans h.context
  closing := hc
  unpaused := hr.paused.trans h.unpaused
  given := by
    rw [hr.taken, ← h.given]
    rcases hr.requests with heq | heq
    · rw [heq]
    · rw [heq, given_concat]
      exact List.append_nil _
  ended he := by
    rw [hr.taken]
    apply h.ended
    rcases hr.requests with heq | heq
    · rwa [heq] at he
    · rw [heq, endGiven_concat] at he
      simpa [sendsEnd] using he
  fresh hp := by
    obtain ⟨hfresh, hrest⟩ := hr.fresh hp
    obtain ⟨hidle, hnil, htaken, hold⟩ := h.fresh hfresh
    obtain ⟨hh, hq, hcan⟩ := hrest hidle
    refine ⟨hh, hq.trans hnil, hr.taken.trans htaken, fun hcancelled => ?_⟩
    rcases hcan hcancelled with hs | hs
    · exact hr.response (hold hs)
    · exact hs
  starts n cluster headers body endStream timeout hmem := by
    rw [hr.taken]
    exact h.starts n cluster headers body endStream timeout
      (start_of_rests hr hmem (by rintro ⟨⟩))

theorem taken_takeNext (q : Tracked) :
    q.takeNext.taken = q.taken ++ q.stream.takeNext.1.toList := by
  rcases q.takeNext_cases with ⟨-, hnone, hq⟩ | ⟨x, rest, -, hsome, -, htaken, -⟩
  · rw [hnone, hq]
    exact (List.append_nil _).symm
  · rw [hsome, htaken]
    rfl

theorem bodyOf_toList (x : Option StreamItem) : bodyOf x.toList = x.elim [] StreamItem.bytes := by
  cases x with
  | none => rfl
  | some x => exact List.append_nil _

theorem Framed.first (h : Framed r trace s) (hp : s.phase = .first) (ht : s.phaseStep = some t)
    (hc : Closing t) : Framed r trace t := by
  obtain ⟨htook, ⟨b, hphase⟩, body, timeout, hreq, hbody⟩ := took_first hp ht
  obtain ⟨-, hnil, htaken, -⟩ := h.fresh (Or.inr hp)
  have hnow : t.channel.request.taken = s.channel.request.stream.takeNext.1.toList := by
    rw [htook.queue, taken_takeNext, htaken, List.nil_append]
  have hend : (s.channel.request.stream.takeNext.1 == some .End) = true →
      t.channel.request.taken = [.End] := by
    intro he
    rw [hnow, beq_iff_eq.mp he]
    rfl
  rw [hnil, List.nil_append] at hreq
  refine ⟨htook.request.trans h.request, htook.context.trans h.context, hc, ?_, ?_, ?_, ?_, ?_⟩
  · rw [htook.queue]
    exact ResponseStream.takeNext_paused.trans h.unpaused
  · rw [hreq, hnow, bodyOf_toList, ← hbody]
    exact List.append_nil _
  · rw [hreq]
    intro he
    rw [hend (by simpa [endGiven, sendsEnd] using he)]
    exact List.mem_singleton_self _
  · rw [hphase]
    rintro (hf | hf) <;> cases hf
  · intro n cluster headers body' endStream timeout' hmem
    rw [hreq] at hmem
    cases List.mem_singleton.mp hmem
    rw [h.request, h.context]
    exact ⟨rfl, hend⟩

theorem Framed.pumped (h : Framed r trace s) {stream : OpenStream} (hp : s.phase = .opened stream .take)
    (ht : s.phaseStep = some t) (hc : Closing t) : Framed r trace t := by
  obtain ⟨htook, ⟨stream', pump, hphase⟩, hreq⟩ := took_pumped hp ht
  have hnow : t.channel.request.taken =
      s.channel.request.taken ++ s.channel.request.stream.takeNext.1.toList := by
    rw [htook.queue, taken_takeNext]
  refine ⟨htook.request.trans h.request, htook.context.trans h.context, hc, ?_, ?_, ?_, ?_, ?_⟩
  · rw [htook.queue]
    exact ResponseStream.takeNext_paused.trans h.unpaused
  · rw [hnow, bodyOf_append, bodyOf_toList, ← h.given]
    rcases hreq with ⟨hsame, hnone⟩ | ⟨x, hx, hsend⟩
    · rw [hsame, hnone, List.append_nil]
    · rw [hsend, given_concat, hx]
      rfl
  · rw [hnow]
    intro he
    rcases hreq with ⟨hsame, -⟩ | ⟨x, hx, hsend⟩
    · rw [hsame] at he
      exact List.mem_append_left _ (h.ended he)
    · rw [hsend, endGiven_concat, Bool.or_eq_true] at he
      rcases he with he | he
      · exact List.mem_append_left _ (h.ended he)
      · rw [hx, beq_iff_eq.mp he]
        exact List.mem_append_right _ (List.mem_singleton_self _)
  · rw [hphase]
    intro hf
    exact absurd hf not_fresh_opened
  · intro n cluster headers body endStream timeout hmem
    have hold := start_of_pumped hp ht hmem (by rintro _ _ ⟨⟩)
    obtain ⟨hheaders, hended⟩ := h.starts n cluster headers body endStream timeout hold
    refine ⟨hheaders, fun he => ?_⟩
    -- Behind an end nothing is taken.
    have hone := hended he
    have hall := Tracked.taken_eq_of_terminal (t := s.channel.request) (x := .End)
      (by rw [hone]; exact List.mem_singleton_self _) rfl
    have hpre := t.channel.request.taken_prefix
    have haccepted : t.channel.request.accepted = s.channel.request.accepted := by
      rw [htook.queue]
      rfl
    rw [haccepted, ← hall, hnow] at hpre
    have hlen := hpre.length_le
    rw [List.length_append] at hlen
    have hnil : s.channel.request.stream.takeNext.1.toList = [] :=
      List.eq_nil_of_length_eq_zero (by omega)
    rw [hnow, hnil, List.append_nil, hone]

/-- **Every step that does not write keeps the requests and the queue in agreement.** -/
theorem Framed.pass (h : Framed r trace s) (hp : Pass s t) (hc : Closing t) : Framed r trace t := by
  cases hp with
  | rests hr => exact h.rests hr hc
  | first _ hphase ht => exact h.first hphase ht hc
  | pumped _ hphase ht => exact h.pumped hphase ht hc

/-- A write adds to the queue behind what was taken. -/
theorem Framed.onRequest (h : Framed r trace s) {f : Tracked → Tracked}
    (ht : (f s.channel.request).taken = s.channel.request.taken)
    (hp : (f s.channel.request).stream.paused = s.channel.request.stream.paused)
    (hc : (f s.channel.request).stream.cancelled = s.channel.request.stream.cancelled) :
    Framed r trace (s.onRequest f) where
  request := h.request
  context := h.context
  closing := h.closing
  unpaused := hp.trans h.unpaused
  given := by
    show Body.given s.requests = bodyOf (f s.channel.request).taken
    rw [ht]
    exact h.given
  ended he := by
    show .End ∈ (f s.channel.request).taken
    rw [ht]
    exact h.ended he
  fresh hf := by
    obtain ⟨hh, hq, htaken, hcan⟩ := h.fresh hf
    exact ⟨hh, hq, ht.trans htaken, fun hcancelled => hcan (hc.symm.trans hcancelled)⟩
  starts n cluster headers body endStream timeout hmem := by
    show headers = _ ∧ (endStream = true → (f s.channel.request).taken = [.End])
    rw [ht]
    exact h.starts n cluster headers body endStream timeout hmem

theorem Framed.fiber (h : Framed r trace s) {op : FiberOp} (hw : writes (.fiber op) = true) :
    Framed r trace (s.fiber op) := by
  cases op with
  | write bytes =>
    exact h.onRequest (f := (·.pushWithinBudget bytes)) rfl
      (ResponseStream.pushChunkWithinBudget_paused bytes)
      (ResponseStream.pushChunkWithinBudget_cancelled bytes)
  | finish =>
    exact h.onRequest (f := (·.push .End)) rfl (ResponseStream.push_paused .End)
      (ResponseStream.push_cancelled .End)
  | parkWriter v =>
    exact h.onRequest (f := (·.parkWriter v)) rfl (ResponseStream.parkWriter_paused v)
      (ResponseStream.parkWriter_cancelled v)
  | unparkWriter => exact h.onRequest (f := (·.unpark)) rfl rfl rfl
  | take | park | unpark | close | timeOut => cases hw

/-- **A stream without a body stays so, and is started with its end.** -/
theorem Bodiless.pass (h : Bodiless s) (hf : Framed r trace s) (hp : Pass s t) : Bodiless t := by
  cases hp with
  | rests hr =>
    refine ⟨hr.accepted.trans h.accepted, fun n cluster headers body endStream timeout hmem => ?_⟩
    refine (h.starts n cluster headers body endStream timeout
      (start_of_rests hr hmem (by rintro ⟨⟩))).imp_right hr.response
  | first _ hphase ht =>
    obtain ⟨htook, -, body, timeout, hreq, -⟩ := took_first hphase ht
    obtain ⟨-, hnil, htaken, hcan⟩ := hf.fresh (Or.inr hphase)
    have haccepted : t.channel.request.accepted = [.End] := by
      rw [htook.queue]
      exact h.accepted
    refine ⟨haccepted, fun n cluster headers body' endStream timeout' hmem => ?_⟩
    rw [hreq, hnil, List.nil_append] at hmem
    cases List.mem_singleton.mp hmem
    cases hc : s.channel.request.stream.cancelled with
    | true =>
      right
      rw [htook.response]
      exact hcan hc
    | false =>
      left
      have hitems := Tracked.conserve hc
      rw [htaken, List.nil_append, h.accepted] at hitems
      rw [(ResponseStream.takeNext_of_cons hf.unpaused hitems).1]
      rfl
  | pumped _ hphase ht =>
    obtain ⟨htook, -, -⟩ := took_pumped hphase ht
    have haccepted : t.channel.request.accepted = [.End] := by
      rw [htook.queue]
      exact h.accepted
    refine ⟨haccepted, fun n cluster headers body endStream timeout hmem => ?_⟩
    have hold := start_of_pumped hphase ht hmem (by rintro _ _ ⟨⟩)
    rw [htook.response]
    exact h.starts n cluster headers body endStream timeout hold

end Framing

end Ruvoy.Streamed.Body
