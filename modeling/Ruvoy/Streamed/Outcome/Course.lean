import Ruvoy.Streamed.Model

/-!
# How far the outcome is

A fiber stops a stream by `close` or `time_out`. The outcome counted for the stream is set by whichever
callback runs first after that, and each of them looks at other flags: only the delivery of data and the
report of the reset that the worker sent ask how the fiber stopped the stream.

* `Agrees`: an outcome agrees with what the fiber saw;
* `stopsOnce`, `agreeing`: a fiber stops the stream at most once, and the steps by which no outcome is
  counted against what it saw;
* `Decided`, `Unended`, `Opened`, `Course`: how far the outcome is;
* `Closing`, `OutcomeInv`: the invariant of such runs.
-/

set_option autoImplicit false

namespace Ruvoy.Streamed

open Runs
open Upstream

/-! ## What the fiber saw -/

/-- A fiber stopped the stream before the worker ended or failed the response. -/
def State.stopped (s : State) : Bool :=
  s.channel.response.stream.cancelled && !s.channel.response.stream.ended

/-- Whether the upstream agreed to switch protocols, noted when the head arrives. -/
def switched (s : State) : Action → Bool → Bool
  | .headers headers _, upgraded =>
    match s.phase with
    | .opened stream _ =>
      upgraded || !stream.responseEnded && (headOf headers).any (·.status == 101)
    | _ => upgraded
  | _, upgraded => upgraded

/-- The system with that note. -/
def watched : System (State × Bool) Action := system.recording false switched

structure Agrees (s : State) (upgraded : Bool) (outcome : CallOutcome) : Prop where
  timedOut : s.stopped = true → s.channel.timedOut = true → outcome = .TimedOut
  closed : s.stopped = true → s.channel.timedOut = false → upgraded = false → outcome = .Abandoned
  completed : outcome = .Completed → upgraded = false → .End ∈ s.channel.response.accepted

/-! ## The steps -/

/-- A fiber stops the stream at most once. -/
def stopsOnce (s : State) : Action → Bool
  | .fiber .close | .fiber .timeOut => !(s.channel.response.stream.cancelled || s.channel.timedOut)
  | _ => true

/-- The item that ends the response, when the access pushes one. -/
def ending : Micro → Option StreamItem
  | .push (.response _) item => if item.terminal then some item else none
  | _ => none

/-- The item by which the callback that runs is still to end the response. -/
def pending (handler : List Micro) : Option StreamItem := handler.findSome? ending

/-- An upgraded stream that did not time out: to end it is how it completes. -/
def session (p : State × Bool) : Bool := p.2 && !p.1.channel.timedOut

/-- The stop does not fall between the worker's decision that the response is over and the push that
says so; a `close` may where the stream is upgraded or the request is over. -/
def clear (p : State × Bool) : Bool :=
  (pending p.1.handler).isNone || !p.1.channel.timedOut && (p.2 || p.1.requestOver)

/-- A stream that a fiber stopped, of which the worker has not yet said how it ended. -/
def State.unsettled (s : State) : Bool :=
  s.stopped && match s.phase with
    | .opened stream _ => !stream.responseEnded
    | .over => false
    | _ => true

/-- The reset that the worker sent is out. -/
def State.resetOut (s : State) : Bool :=
  match s.phase with
  | .opened stream _ => stream.resetSent
  | _ => false

/-- The stream is still to be looked at, and is to be skipped. -/
def State.skips (s : State) : Bool :=
  match s.handler, s.phase with
  | [], .queued => s.channel.resetWanted
  | _, _ => false

/-- A stream that a fiber stopped is ended by the delivery of data, or by the report of the reset that
the worker sent, and when its request is over or it was not started only if it did not time out; unless
it was upgraded and did not time out. And the stop is `clear`. -/
def agreeing (p : State × Bool) : Action → Bool
  | .fiber .close => clear p
  | .ruby =>
    match p.1.ruby with
    | .closeResponse _ => clear p
    | _ => true
  | .work => !p.1.skips || !p.1.channel.timedOut
  | .returns result => (refusal result p.1.request.cluster).isNone || !p.1.unsettled
  | .headers headers endStream =>
    !p.1.unsettled ||
      match headOf headers with
      | none => session p
      | some head => !endStream || (p.2 || head.status == 101) && !p.1.channel.timedOut
  | .data data endStream => !p.1.unsettled || !data.flatten.isEmpty || !endStream || session p
  | .trailers _ | .complete => !p.1.unsettled || session p
  | .reset _ => !p.1.unsettled || p.1.resetOut || session p
  | .abandon => !p.1.unsettled || !p.1.channel.timedOut
  | .fiber _ => true

/-! ## How far the outcome is -/

/-- The accesses that leave the stream and the count alone. -/
def simple : Micro → Bool
  | .push .. | .setTrailers .. | .cancelRequest _ | .wantReset _ | .wake _ | .checkWriter _ => true
  | _ => false

/-- An outcome that was decided, with what is left of the callback: the response has ended or failed,
or a fiber had stopped it, or its end is still to be pushed. -/
inductive Decided (s : State) (upgraded : Bool) (l : List Micro) (outcome : CallOutcome) : Prop
  | told : s.channel.response.stream.ended = true →
    (outcome = .Completed → upgraded = false → .End ∈ s.channel.response.accepted) →
    Decided s upgraded l outcome
  | stopped : s.channel.response.stream.ended = false → s.channel.response.stream.cancelled = true →
    (s.channel.timedOut = true → outcome = .TimedOut) →
    (s.channel.timedOut = false → upgraded = false → outcome = .Abandoned) →
    Decided s upgraded l outcome
  | pending (item : StreamItem) : s.channel.response.stream.ended = false →
    s.channel.response.stream.cancelled = false → pending l = some item →
    (outcome = .Completed → upgraded = false → item = .End) →
    (s.requestOver = true → outcome = .Abandoned ∨ upgraded = true) → Decided s upgraded l outcome

/-- The response has not ended, and is not about to. -/
structure Unended (s : State) (l : List Micro) : Prop where
  ended : s.channel.response.stream.ended = false
  pending : pending l = none
  requestOver : s.requestOver = false

/-- A stream of the table, with what is left of the callback. -/
structure Opened (s : State) (upgraded : Bool) (stream : OpenStream) (l : List Micro) : Prop where
  upgrade : stream.upgraded = true → upgraded = true
  unended : stream.responseEnded = false → stream.outcome = none ∧ Unended s l
  ended : stream.responseEnded = true → ∃ outcome, stream.outcome = some outcome ∧
    Decided s upgraded l outcome
  requestOver : s.requestOver = false

/-- Where the stream is on its way to the count. -/
inductive Course (s : State) (upgraded : Bool) : Prop
  | before : (s.phase = .queued ∨ s.phase = .first ∨ ∃ b, s.phase = .starting b) → s.handler = [] →
    s.counted = [] → Unended s [] →
    (s.channel.resetWanted = true → s.channel.response.stream.cancelled = true) → Course s upgraded
  | opened (stream : OpenStream) (pump : Pump) : s.phase = .opened stream pump →
    s.handler.all simple = true → s.counted = [] → Opened s upgraded stream s.handler →
    Course s upgraded
  /-- Bytes are about to be delivered. -/
  | delivering (stream : OpenStream) (pump : Pump) (k : ℕ) (bytes : Bytes) (endStream : Bool)
    (l : List Micro) : s.phase = .opened stream pump → s.handler = .data k bytes endStream :: l →
    l.all simple = true → s.counted = [] → stream.responseEnded = false → Opened s upgraded stream l →
    Course s upgraded
  /-- The delivery was refused, and the worker is about to ask how the fiber stopped the stream. -/
  | asking (stream : OpenStream) (pump : Pump) (k : ℕ) (l : List Micro) :
    s.phase = .opened stream pump → s.handler = .stopped k :: l → l.all simple = true →
    s.counted = [] → stream.responseEnded = true → stream.outcome = none →
    (stream.upgraded = true → upgraded = true) → Unended s l →
    s.channel.response.stream.cancelled = true → Course s upgraded
  /-- The reset is reported, and the worker is about to ask how the fiber stopped the stream. -/
  | resetting (stream : OpenStream) (reason : ResetReason) : s.phase = .over →
    s.handler = [.resetStopped stream reason] → s.counted = [] → stream.responseEnded = false →
    Opened s upgraded stream [] → Course s upgraded
  | counting (l : List Micro) (item : Item) (cluster : String) (outcome : CallOutcome) :
    s.phase = .over → s.handler = l ++ [.count item cluster outcome] → l.all simple = true →
    s.counted = [] → Decided s upgraded l outcome → Course s upgraded
  | counted (outcome : CallOutcome) : s.phase = .over → s.handler = [] → s.counted = [outcome] →
    Decided s upgraded [] outcome → Course s upgraded

/-- The Ruby thread goes on in `close` behind the cancel of the response. -/
def Closing (s : State) : Prop :=
  (∃ n, s.ruby = .closeRequest n ∨ s.ruby = .wantReset n) →
    s.channel.response.stream.cancelled = true

structure OutcomeInv (s : State) (upgraded : Bool) : Prop where
  course : Course s upgraded
  closing : Closing s

variable {s t : State} {u u' : Bool} {l : List Micro} {outcome : CallOutcome} {stream : OpenStream}

theorem pending_cons (m : Micro) (l : List Micro) : pending (m :: l) = (ending m).or (pending l) := by
  rw [pending, List.findSome?_cons]
  cases ending m <;> rfl

theorem pending_append (l l' : List Micro) : pending (l ++ l') = (pending l).or (pending l') :=
  List.findSome?_append

/-- What an outcome is judged by is the same in both states. -/
structure Seen (s t : State) : Prop where
  ended : t.channel.response.stream.ended = s.channel.response.stream.ended
  cancelled : t.channel.response.stream.cancelled = s.channel.response.stream.cancelled
  accepted : t.channel.response.accepted = s.channel.response.accepted
  timedOut : t.channel.timedOut = s.channel.timedOut
  requestOver : t.requestOver = s.requestOver

namespace Decided

theorem frame (h : Decided s u l outcome) (hs : Seen s t) : Decided t u l outcome := by
  cases h with
  | told he hend => exact .told (hs.ended.trans he) (by rw [hs.accepted]; exact hend)
  | stopped he hc ht ha =>
    exact .stopped (hs.ended.trans he) (hs.cancelled.trans hc) (by rw [hs.timedOut]; exact ht)
      (by rw [hs.timedOut]; exact ha)
  | pending x he hc hp hx ho =>
    exact .pending x (hs.ended.trans he) (hs.cancelled.trans hc) hp hx (by rw [hs.requestOver]; exact ho)

/-- A stream that is noted to be upgraded is judged by less. -/
theorem mono (h : Decided s u l outcome) (hu : u = true → u' = true) : Decided s u' l outcome := by
  have hdown : u' = false → u = false := by
    intro h'
    by_contra hn
    rw [hu (by simpa using hn)] at h'
    cases h'
  cases h with
  | told he hend => exact .told he fun ho h' => hend ho (hdown h')
  | stopped he hc ht ha => exact .stopped he hc ht fun ho h' => ha ho (hdown h')
  | pending x he hc hp hx ho =>
    exact .pending x he hc hp (fun h1 h' => hx h1 (hdown h')) fun h1 => (ho h1).imp id hu

theorem swap {l' : List Micro} (h : Decided s u l outcome) (hl : Streamed.pending l = none) :
    Decided s u l' outcome := by
  cases h with
  | told he hend => exact .told he hend
  | stopped he hc ht ha => exact .stopped he hc ht ha
  | pending x _ _ hp => rw [hl] at hp; cases hp

/-- The end is about to be pushed into a response that has none. Where a fiber stopped it, that is an
upgraded stream which did not time out. -/
theorem of_push {item : StreamItem} (hu : s.channel.response.stream.ended = false)
    (hover : s.requestOver = false) (hp : Streamed.pending l = some item)
    (hx : outcome = .Completed → item = .End)
    (hc : s.channel.response.stream.cancelled = true → s.channel.timedOut = false ∧ u = true) :
    Decided s u l outcome := by
  cases hcan : s.channel.response.stream.cancelled with
  | false =>
    exact .pending item hu hcan hp (fun ho _ => hx ho) (by rw [hover]; rintro ⟨⟩)
  | true =>
    obtain ⟨ht, rfl⟩ := hc hcan
    exact .stopped hu hcan (by rw [ht]; rintro ⟨⟩) (by rintro _ ⟨⟩)

/-- **An outcome that waits for no push agrees.** -/
theorem agrees (h : Decided s u l outcome) (hl : Streamed.pending l = none) : Agrees s u outcome := by
  have hstop : s.channel.response.stream.ended = true → s.stopped = true → False := by
    intro he hs
    rw [State.stopped, he, Bool.not_true, Bool.and_false] at hs
    cases hs
  cases h with
  | told he hend => exact ⟨fun hs => (hstop he hs).elim, fun hs => (hstop he hs).elim, hend⟩
  | stopped he hc ht ha =>
    refine ⟨fun _ => ht, fun _ => ha, fun ho hu => ?_⟩
    cases htout : s.channel.timedOut with
    | true => rw [ht htout] at ho; cases ho
    | false => rw [ha htout hu] at ho; cases ho
  | pending x _ _ hp => rw [hl] at hp; cases hp

end Decided

/-! ## The accesses of a callback -/

variable {m : Micro} {rest : List Micro}

/-- What a simple access leaves alone. -/
structure Beside (s t : State) : Prop where
  phase : t.phase = s.phase
  counted : t.counted = s.counted
  ruby : t.ruby = s.ruby
  resetWanted : s.channel.resetWanted = true → t.channel.resetWanted = true

theorem beside_micro (s : State) (rest : List Micro) (hm : simple m = true) :
    Beside s (s.micro m rest) ∧ (s.micro m rest).handler = rest := by
  cases m with
  | push r x => cases r <;> exact ⟨⟨rfl, rfl, rfl, id⟩, rfl⟩
  | wantReset n => exact ⟨⟨rfl, rfl, rfl, fun _ => rfl⟩, rfl⟩
  | setTrailers n trailers => exact ⟨⟨rfl, rfl, rfl, id⟩, rfl⟩
  | cancelRequest n => exact ⟨⟨rfl, rfl, rfl, id⟩, rfl⟩
  | wake r => exact ⟨⟨rfl, rfl, rfl, id⟩, rfl⟩
  | checkWriter n => exact ⟨⟨rfl, rfl, rfl, id⟩, rfl⟩
  | data | stopped | resetStopped | count => cases hm

/-- A simple access pushes into the response, or leaves it alone. -/
theorem micro_cases (s : State) (rest : List Micro) (hm : simple m = true) :
    (ending m = none ∧ Seen s (s.micro m rest)) ∨ ∃ n item, m = .push (.response n) item := by
  cases m with
  | push r x =>
    cases r with
    | response n => exact Or.inr ⟨n, x, rfl⟩
    | call n => exact Or.inl ⟨rfl, rfl, rfl, rfl, rfl, rfl⟩
    | request n => exact Or.inl ⟨rfl, rfl, rfl, rfl, rfl, rfl⟩
  | wantReset n => exact Or.inl ⟨rfl, rfl, rfl, rfl, rfl, rfl⟩
  | setTrailers n trailers => exact Or.inl ⟨rfl, rfl, rfl, rfl, rfl, rfl⟩
  | cancelRequest n => exact Or.inl ⟨rfl, rfl, rfl, rfl, rfl, rfl⟩
  | wake r => exact Or.inl ⟨rfl, rfl, rfl, rfl, rfl, rfl⟩
  | checkWriter n => exact Or.inl ⟨rfl, rfl, rfl, rfl, rfl, rfl⟩
  | data | stopped | resetStopped | count => cases hm

theorem pending_of_quiet (hm : ending m = none) : pending (m :: rest) = pending rest := by
  rw [pending_cons, hm, Option.none_or]

theorem pending_of_ending {item : StreamItem} (hm : ending m = some item) :
    pending (m :: rest) = some item := by
  rw [pending_cons, hm, Option.some_or]

theorem ending_push (n : ℕ) (item : StreamItem) :
    ending (.push (.response n) item) = if item.terminal then some item else none := rfl

/-- A push leaves a decided outcome decided. -/
theorem Decided.micro (h : Decided s u (m :: l) outcome) (hm : simple m = true) :
    Decided (s.micro m rest) u l outcome := by
  rcases micro_cases s rest hm with ⟨hq, hseen⟩ | ⟨n, x, rfl⟩
  · refine frame ?_ hseen
    cases h with
    | told he hend => exact .told he hend
    | stopped he hc ht ha => exact .stopped he hc ht ha
    | pending y he hc hp hx ho => exact .pending y he hc (by rwa [pending_of_quiet hq] at hp) hx ho
  · rcases s.channel.response.push_cases x with ⟨hshut, heq⟩ | ⟨hc, he, ha, -, hin⟩
    · have hseen : Seen s (s.micro (.push (.response n) x) rest) := by
        refine ⟨?_, ?_, ?_, rfl, rfl⟩ <;> simp only [State.micro, State.onResponse, heq]
      refine frame ?_ hseen
      cases h with
      | told he hend => exact .told he hend
      | stopped he hc ht ha => exact .stopped he hc ht ha
      | pending y he hc =>
        rw [he, hc] at hshut
        cases hshut
    · cases h with
      | told hended =>
        rw [he] at hended
        cases hended
      | stopped _ hcan =>
        rw [hc] at hcan
        cases hcan
      | pending y _ _ hp hx ho =>
        have hended : (s.micro (.push (.response n) x) rest).channel.response.stream.ended = x.terminal := by
          show (s.channel.response.push x).stream.ended = _
          rw [hin]
          rfl
        rw [pending_cons, ending_push] at hp
        split_ifs at hp with hterm
        · cases hp
          refine .told (hended.trans hterm) fun hdone hu => ?_
          show StreamItem.End ∈ (s.channel.response.push x).accepted
          rw [ha, hx hdone hu]
          exact List.mem_append_right _ List.mem_cons_self
        · refine .pending y (by rw [hended]; simpa using hterm) ?_ hp hx ho
          show (s.channel.response.push x).stream.cancelled = false
          rw [hin]
          exact hc

theorem Unended.frame (h : Unended s l) (hs : Seen s t) : Unended t l :=
  ⟨hs.ended.trans h.ended, h.pending, hs.requestOver.trans h.requestOver⟩

theorem Unended.micro (h : Unended s (m :: rest)) (hm : simple m = true) :
    Unended (s.micro m rest) rest := by
  have hp := h.pending
  rcases micro_cases s rest hm with ⟨hq, hseen⟩ | ⟨n, x, rfl⟩
  · rw [pending_of_quiet hq] at hp
    exact Unended.frame ⟨h.ended, hp, h.requestOver⟩ hseen
  · rw [pending_cons, ending_push, Option.or_eq_none_iff] at hp
    have hterm : x.terminal = false := by
      by_contra hn
      rw [Bool.not_eq_false] at hn
      rw [if_pos hn] at hp
      cases hp.1
    refine ⟨?_, hp.2, h.requestOver⟩
    show (s.channel.response.push x).stream.ended = false
    rcases s.channel.response.push_cases x with ⟨-, heq⟩ | ⟨-, -, -, -, hin⟩
    · rw [heq]
      exact h.ended
    · rw [hin]
      exact hterm

namespace Opened

theorem transfer (h : Opened s u stream l) (hu : u = true → u' = true) (hU : Unended s l → Unended t l)
    (hD : ∀ outcome, Decided s u l outcome → Decided t u' l outcome)
    (ho : t.requestOver = s.requestOver) : Opened t u' stream l where
  upgrade hup := hu (h.upgrade hup)
  unended hr := (h.unended hr).imp id hU
  ended hr := by
    obtain ⟨outcome, ho, hd⟩ := h.ended hr
    exact ⟨outcome, ho, hD outcome hd⟩
  requestOver := ho.trans h.requestOver

theorem frame (h : Opened s u stream l) (hs : Seen s t) : Opened t u stream l :=
  h.transfer id (·.frame hs) (fun _ hd => hd.frame hs) hs.requestOver

theorem micro (h : Opened s u stream (m :: rest)) (hm : simple m = true) :
    Opened (s.micro m rest) u stream rest where
  upgrade := h.upgrade
  unended hr := (h.unended hr).imp id (·.micro hm)
  ended hr := by
    obtain ⟨outcome, ho, hd⟩ := h.ended hr
    exact ⟨outcome, ho, hd.micro hm⟩
  requestOver := by
    rcases micro_cases s rest hm with ⟨-, hseen⟩ | ⟨n, x, rfl⟩
    · exact hseen.requestOver.trans h.requestOver
    · exact h.requestOver

end Opened

end Ruvoy.Streamed
