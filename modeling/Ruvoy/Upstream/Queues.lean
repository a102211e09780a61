import Ruvoy.Upstream.Accesses

/-!
# What a step does to the queues

* `Change`, **`queue_step`**: what a step does to one of the queues;
* `Untouched`: what the returns of Envoy's calls leave alone;
* `frame_step`: the configuration stays, and a channel is made when a fiber opens one.
-/

set_option autoImplicit false

namespace Ruvoy.Upstream

open Runs

variable {s t : State}

/-! ## The queues after a step -/

/-- One of the queues. -/
def State.queueAt (s : State) : Ref → Tracked
  | .call n => s.calls n
  | .response n => (s.channels n).response
  | .request n => (s.channels n).request

/-- Nothing is added to the queue, and nothing is taken of it. -/
inductive Idles (q : Tracked) : Tracked → Prop
  | same : Idles q q
  | cancelled : Idles q q.cancel
  | unparked : Idles q q.unpark
  | parked (v : Variable) : Idles q (q.park v)
  | writer (v : Variable) : Idles q (q.parkWriter v)

/-- What a step `a` from `s` does to a queue: it is the given one after the step. -/
inductive Change (s : State) (a : Action) : Ref → Tracked → Prop
  | idles {r : Ref} {q : Tracked} : Idles (s.queueAt r) q → Change s a r q
  /-- A fiber takes of it. -/
  | taken {r : Ref} : a = .fiber (.take r) → r.readable = true → Change s a r (s.queueAt r).takeNext
  /-- The worker takes the first of a body at the start of its stream. -/
  | first {r : UpstreamStreamRequest} {rest : List Outer} : a = .work → s.handler = [] →
    s.outer = .firstItem r :: rest →
    Change s a (.request r.channel) (s.queueAt (.request r.channel)).takeNext
  /-- The worker takes an item of a body in the pump. -/
  | pumped {k : ℕ} {o : OpenStream} {rest : List Outer} : a = .work → s.handler = [] →
    s.outer = .pumpTake k :: rest → s.openStreams.lookup k = some o →
    Change s a (.request o.channel) (s.queueAt (.request o.channel)).takeNext
  /-- The callback pushes to it. -/
  | pushed {r : Ref} {x : StreamItem} {rest : List Micro} : a = .work → s.handler = .push r x :: rest →
    Change s a r ((s.queueAt r).push x)
  /-- The callback delivers to it. -/
  | delivered {k : ℕ} {bytes : Bytes} {endStream : Bool} {rest : List Micro} {o : OpenStream} :
    a = .work → s.handler = .data k bytes endStream :: rest → s.openStreams.lookup k = some o →
    Change s a (.response o.channel) ((s.queueAt (.response o.channel)).pushIfRoom bytes)
  | written {n : ℕ} {bytes : Bytes} : a = .fiber (.write n bytes) →
    Change s a (.request n) ((s.queueAt (.request n)).pushWithinBudget bytes)
  | ended {n : ℕ} : a = .fiber (.finish n) →
    Change s a (.request n) ((s.queueAt (.request n)).push .End)
  /-- A channel is opened without a body. -/
  | bodiless {cluster : String} {headers : Fields} {timeout : ℕ} :
    a = .queueStream cluster headers timeout false →
    Change s a (.request s.nextChannel) ((s.queueAt (.request s.nextChannel)).push .End)

theorem queueAt_onQueue_self (r : Ref) (f : Tracked → Tracked) :
    (s.onQueue r f).queueAt r = f (s.queueAt r) := by
  cases r <;> simp [State.onQueue, State.queueAt, State.setCall, State.setChannel]

theorem queueAt_onQueue_ne {r q : Ref} (f : Tracked → Tracked) (h : q ≠ r) :
    (s.onQueue r f).queueAt q = s.queueAt q := by
  cases r with
  | call n =>
    cases q with
    | call m =>
      rw [State.queueAt, State.onQueue, State.queueAt, setCall_calls,
        if_neg fun heq => h (congrArg _ heq)]
    | _ => rfl
  | response n =>
    cases q with
    | call m => rfl
    | response m =>
      rw [State.queueAt, State.onQueue, State.queueAt, setChannel_channels,
        if_neg fun heq => h (congrArg _ heq)]
    | request m =>
      rw [State.queueAt, State.onQueue, State.queueAt, setChannel_channels]
      split
      · rename_i heq
        rw [heq]
      · rfl
  | request n =>
    cases q with
    | call m => rfl
    | response m =>
      rw [State.queueAt, State.onQueue, State.queueAt, setChannel_channels]
      split
      · rename_i heq
        rw [heq]
      · rfl
    | request m =>
      rw [State.queueAt, State.onQueue, State.queueAt, setChannel_channels,
        if_neg fun heq => h (congrArg _ heq)]

section Queues

variable {a : Action} {r : Ref}

theorem change_of_queues (hc : t.calls = s.calls) (hn : t.channels = s.channels) :
    Change s a r (t.queueAt r) := by
  have hsame : t.queueAt r = s.queueAt r := by
    cases r with
    | call n => rw [State.queueAt, State.queueAt, hc]
    | response n => rw [State.queueAt, State.queueAt, hn]
    | request n => rw [State.queueAt, State.queueAt, hn]
  rw [hsame]
  exact .idles .same

/-- One queue is changed, and `t` has the queues after it. -/
theorem change_onQueue {q : Ref} {f : Tracked → Tracked}
    (hc : t.calls = (s.onQueue q f).calls) (hn : t.channels = (s.onQueue q f).channels)
    (hf : Change s a q (f (s.queueAt q))) : Change s a r (t.queueAt r) := by
  have hsame : t.queueAt r = (s.onQueue q f).queueAt r := by
    cases r with
    | call n => rw [State.queueAt, State.queueAt, hc]
    | response n => rw [State.queueAt, State.queueAt, hn]
    | request n => rw [State.queueAt, State.queueAt, hn]
  rw [hsame]
  by_cases hr : r = q
  · rw [hr, queueAt_onQueue_self]
    exact hf
  · rw [queueAt_onQueue_ne f hr]
    exact .idles .same

theorem change_flags (n : ℕ) (f : StreamChannel → StreamChannel)
    (hf : ∀ c, (f c).response = c.response ∧ (f c).request = c.request)
    (hc : t.calls = s.calls) (hn : t.channels = (s.setChannel n f).channels) :
    Change s a r (t.queueAt r) := by
  have hsame : t.queueAt r = s.queueAt r := by
    cases r with
    | call m => rw [State.queueAt, State.queueAt, hc]
    | response m =>
      rw [State.queueAt, State.queueAt, hn, setChannel_channels]
      split
      · rename_i heq
        rw [(hf _).1, heq]
      · rfl
    | request m =>
      rw [State.queueAt, State.queueAt, hn, setChannel_channels]
      split
      · rename_i heq
        rw [(hf _).2, heq]
      · rfl
  rw [hsame]
  exact .idles .same

theorem change_micro {m : Micro} {rest : List Micro} (hh : s.handler = m :: rest) :
    Change s .work r ((s.micro m rest).queueAt r) := by
  cases m with
  | push r' x => exact change_onQueue (f := (·.push x)) rfl rfl (.pushed rfl hh)
  | data k bytes endStream =>
    simp only [State.micro, State.deliverData]
    split
    · exact change_of_queues rfl rfl
    · rename_i o hk
      have hdel : Change s .work (.response o.channel) _ := .delivered rfl hh hk
      split
      · split <;> exact change_onQueue (f := (·.pushIfRoom bytes)) rfl rfl hdel
      · exact change_onQueue (f := (·.pushIfRoom bytes)) rfl rfl hdel
      · exact change_onQueue (f := (·.pushIfRoom bytes)) rfl rfl hdel
  | stopped k =>
    simp only [State.micro]
    split <;> exact change_of_queues rfl rfl
  | setTrailers n trailers =>
    exact change_flags n ({ · with trailers := some trailers }) (fun _ => ⟨rfl, rfl⟩) rfl rfl
  | cancelRequest n =>
    exact change_onQueue (q := .request n) (f := (·.cancel)) rfl rfl (.idles .cancelled)
  | wantReset n =>
    exact change_flags n ({ · with resetWanted := true }) (fun _ => ⟨rfl, rfl⟩) rfl rfl
  | _ => exact change_of_queues rfl rfl

theorem change_outerStep {o : Outer} {rest : List Outer} (hh : s.handler = [])
    (ho : s.outer = o :: rest) (ht : s.outerStep o rest = some t) :
    Change s .work r (t.queueAt r) := by
  cases o with
  | startStream q =>
    simp only [State.outerStep] at ht
    split at ht <;> cases ht <;> exact change_of_queues rfl rfl
  | firstItem q =>
    cases ht
    exact change_onQueue (q := .request q.channel) (f := (·.takeNext)) rfl rfl (.first rfl hh ho)
  | pumpOne k =>
    simp only [State.outerStep] at ht
    split at ht
    · cases ht
      exact change_of_queues rfl rfl
    · split at ht
      · split at ht <;> cases ht <;> exact change_of_queues rfl rfl
      · split at ht <;> cases ht <;> exact change_of_queues rfl rfl
  | pumpTake k =>
    simp only [State.outerStep] at ht
    split at ht
    · cases ht
      exact change_of_queues rfl rfl
    · rename_i o hk
      cases ht
      have htake : Change s .work (.request o.channel) _ := .pumped rfl hh ho hk
      unfold State.sendItem
      split <;> exact change_onQueue (f := (·.takeNext)) rfl rfl htake
  | pumpWriter k =>
    simp only [State.outerStep] at ht
    split at ht <;> cases ht <;> exact change_of_queues rfl rfl
  | inCallout q => cases ht
  | inStart q requestEnded => cases ht
  | pump => cases ht
  | abandon c => cases ht
  | _ =>
    cases ht
    exact change_of_queues rfl rfl

theorem change_fiber {op : FiberOp} (ht : s.fiber op = some t) :
    Change s (.fiber op) r (t.queueAt r) := by
  cases op with
  | take r' =>
    simp only [State.fiber, Option.ite_none_right_eq_some, Option.some.injEq] at ht
    obtain ⟨hr, rfl⟩ := ht
    exact change_onQueue (f := (·.takeNext)) rfl rfl (.taken rfl hr)
  | park r' v =>
    simp only [State.fiber, Option.ite_none_right_eq_some, Option.some.injEq] at ht
    obtain ⟨-, rfl⟩ := ht
    exact change_onQueue (f := (·.park v)) rfl rfl (.idles (.parked v))
  | unpark r' =>
    cases ht
    exact change_onQueue (f := (·.unpark)) rfl rfl (.idles .unparked)
  | write n bytes =>
    cases ht
    exact change_onQueue (f := (·.pushWithinBudget bytes)) rfl rfl (.written rfl)
  | finish n =>
    cases ht
    exact change_onQueue (f := (·.push .End)) rfl rfl (.ended rfl)
  | parkWriter n v =>
    cases ht
    exact change_onQueue (f := (·.parkWriter v)) rfl rfl (.idles (.writer v))
  | close n =>
    cases ht
    exact change_onQueue (q := .response n) (f := (·.cancel)) rfl rfl (.idles .cancelled)
  | timeOut n =>
    cases ht
    exact change_flags n ({ · with timedOut := true }) (fun _ => ⟨rfl, rfl⟩) rfl rfl

theorem change_rubyStep (ht : s.rubyStep = some t) : Change s .ruby r (t.queueAt r) := by
  cases rubyStep_moves ht with
  | @response n =>
    exact change_onQueue (q := .response n) (f := (·.cancel)) rfl rfl (.idles .cancelled)
  | @request n =>
    exact change_onQueue (q := .request n) (f := (·.cancel)) rfl rfl (.idles .cancelled)
  | @reset n =>
    exact change_flags n ({ · with resetWanted := true }) (fun _ => ⟨rfl, rfl⟩) rfl rfl

/-- The queues are left alone with their numbers, and nothing is counted, accepted or woken. -/
structure Untouched (s t : State) : Prop where
  config : t.config = s.config
  calls : t.calls = s.calls
  channels : t.channels = s.channels
  nextChannel : t.nextChannel = s.nextChannel
  settled : t.settled = s.settled
  accepted : t.accepted = s.accepted
  wakeups : t.wakeups = s.wakeups
  resolving : t.resolving = s.resolving

theorem envoyReturns_frame {result : InitResult} {id : ℕ}
    (ht : s.envoyReturns result id = some t) : Untouched s t := by
  cases envoyReturns_moves ht <;> exact ⟨rfl, rfl, rfl, rfl, rfl, rfl, rfl, rfl⟩

theorem ordered_frame {calls handles : List ℕ} (ht : s.ordered calls handles = some t) :
    Untouched s t := by
  cases ordered_moves ht <;> exact ⟨rfl, rfl, rfl, rfl, rfl, rfl, rfl, rfl⟩

/-- **What a step does to a queue.** -/
theorem queue_step (ht : step s a = some t) (r : Ref) : Change s a r (t.queueAt r) := by
  cases step_moves ht with
  | queue =>
    unfold State.queue
    dsimp only
    split <;> exact change_of_queues rfl rfl
  | queueStream _ cluster headers timeout hasBody =>
    cases hasBody with
    | true =>
      unfold State.queueStream
      dsimp only
      split <;> exact change_of_queues rfl rfl
    | false =>
      unfold State.queueStream
      dsimp only
      split <;> exact change_onQueue (q := .request s.nextChannel) (f := (·.push .End)) rfl rfl
        (.bodiless rfl)
  | fiber _ ht => exact change_fiber ht
  | ruby ht => exact change_rubyStep ht
  | calloutDone =>
    unfold State.onHttpCalloutDone
    split <;> exact change_of_queues rfl rfl
  | streamHeaders | streamData | streamTrailers =>
    unfold State.onOpenStream
    split <;> exact change_of_queues rfl rfl
  | streamComplete | streamReset =>
    unfold State.onFinished
    split <;> exact change_of_queues rfl rfl
  | micro hh => exact change_micro hh
  | outerStep hh ho ht => exact change_outerStep hh ho ht
  | returns ht => exact change_of_queues (envoyReturns_frame ht).calls (envoyReturns_frame ht).channels
  | order ht => exact change_of_queues (ordered_frame ht).calls (ordered_frame ht).channels
  | resolve => exact change_onQueue (f := (·.unpark)) rfl rfl (.idles .unparked)
  | event | complete | drop | takeWakeups => exact change_of_queues rfl rfl

end Queues

/-! ## The configuration, and the channels made -/

theorem frame_micro (m : Micro) (rest : List Micro) :
    (s.micro m rest).config = s.config ∧ (s.micro m rest).nextChannel = s.nextChannel := by
  cases m with
  | push r x => cases r <;> exact ⟨rfl, rfl⟩
  | data k bytes endStream =>
    simp only [State.micro, State.deliverData]
    split
    · exact ⟨rfl, rfl⟩
    · split
      · split <;> exact ⟨rfl, rfl⟩
      · exact ⟨rfl, rfl⟩
      · exact ⟨rfl, rfl⟩
  | stopped k =>
    simp only [State.micro]
    split <;> exact ⟨rfl, rfl⟩
  | _ => exact ⟨rfl, rfl⟩

theorem frame_outerStep {o : Outer} {rest : List Outer} (ht : s.outerStep o rest = some t) :
    t.config = s.config ∧ t.nextChannel = s.nextChannel := by
  cases o with
  | startStream r =>
    simp only [State.outerStep] at ht
    split at ht <;> cases ht <;> exact ⟨rfl, rfl⟩
  | pumpOne k =>
    simp only [State.outerStep] at ht
    split at ht
    · cases ht
      exact ⟨rfl, rfl⟩
    · split at ht
      · split at ht <;> cases ht <;> exact ⟨rfl, rfl⟩
      · split at ht <;> cases ht <;> exact ⟨rfl, rfl⟩
  | pumpTake k =>
    simp only [State.outerStep] at ht
    split at ht <;> cases ht
    · exact ⟨rfl, rfl⟩
    · unfold State.sendItem
      split <;> exact ⟨rfl, rfl⟩
  | pumpWriter k =>
    simp only [State.outerStep] at ht
    split at ht <;> cases ht <;> exact ⟨rfl, rfl⟩
  | inCallout r => cases ht
  | inStart r requestEnded => cases ht
  | pump => cases ht
  | abandon c => cases ht
  | _ =>
    cases ht
    exact ⟨rfl, rfl⟩

/-- The action makes a channel. -/
def Action.opens : Action → Bool
  | .queueStream .. => true
  | _ => false

/-- **No step changes the configuration**, and channels are numbered as they are opened. -/
theorem frame_step {a : Action} (ht : step s a = some t) :
    t.config = s.config ∧ t.nextChannel = s.nextChannel + if a.opens then 1 else 0 := by
  cases step_moves ht with
  | queueStream =>
    unfold State.queueStream
    dsimp only
    split <;> split <;> exact ⟨rfl, rfl⟩
  | queue =>
    unfold State.queue
    dsimp only
    split <;> exact ⟨rfl, rfl⟩
  | fiber _ ht =>
    rw [fiber_eq ht]
    exact ⟨rfl, rfl⟩
  | ruby ht =>
    rw [rubyStep_eq ht]
    exact ⟨rfl, rfl⟩
  | calloutDone =>
    unfold State.onHttpCalloutDone
    split <;> exact ⟨rfl, rfl⟩
  | micro => exact frame_micro _ _
  | outerStep _ _ ht => exact frame_outerStep ht
  | returns ht => exact ⟨(envoyReturns_frame ht).config, (envoyReturns_frame ht).nextChannel⟩
  | order ht => exact ⟨(ordered_frame ht).config, (ordered_frame ht).nextChannel⟩
  | @resolve r =>
    rw [onQueue_eq s r]
    exact ⟨rfl, rfl⟩
  | streamHeaders | streamData | streamTrailers =>
    unfold State.onOpenStream
    split <;> exact ⟨rfl, rfl⟩
  | streamComplete | streamReset =>
    unfold State.onFinished
    split <;> exact ⟨rfl, rfl⟩
  | event | complete | drop | takeWakeups => exact ⟨rfl, rfl⟩

end Ruvoy.Upstream
