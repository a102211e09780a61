import Ruvoy.Sync.Model

/-!
# What a filter of the sync runtime and its thread can do

Each action with the condition under which it may come and what it leaves, as the invariants use them.

* `Moves`: the steps of the system, one by one;
* **`step_moves`**: there are no others;
* `send_eq`, `signal_cases`, `receive_eq`: what a client and the thread do to the runtime.
-/

set_option autoImplicit false

namespace Ruvoy.Sync

open Runs

/-- What an action leaves, and when it may come. -/
inductive Moves (c : Config) (s : State) : Action → State → Prop
  -- Envoy's callbacks
  | requestHeaders {n : ℕ} {headers : List (Bytes × Bytes)} {endOfStream : Bool} {t : State}
      (hc : s.Calm n) (hf : (s.streams n).headers = none)
      (ht : s.onRequestHeaders c n headers endOfStream = some t) :
      Moves c s (.requestHeaders n headers endOfStream) t
  | requestBody {n : ℕ} {received : Option (List Bytes)} {endOfStream : Bool} {t : State}
      (hc : s.Calm n) (hh : (s.streams n).headers ≠ none) (he : (s.streams n).ended = false)
      (ht : s.onRequestBody n received endOfStream = some t) :
      Moves c s (.requestBody n received endOfStream) t
  | requestTrailers {n : ℕ} {t : State} (hc : s.Calm n) (hh : (s.streams n).headers ≠ none)
      (he : (s.streams n).ended = false) (ht : s.onRequestTrailers n = some t) :
      Moves c s (.requestTrailers n) t
  | signal {n : ℕ} {t : State} (hn : n ∈ s.signalling) (ht : s.signal c n = some t) :
      Moves c s (.signal n) t
  | scheduled {n event : ℕ} {rest : List ℕ} (hc : s.Calm n) (he : (s.streams n).events = event :: rest) :
      Moves c s (.scheduled n) (s.update n fun x => { x with events := rest }.onScheduled c n event)
  | destroy {n : ℕ} (hc : s.Calm n) : Moves c s (.destroy n)
      (s.update n fun x => { x with destroyed := true, events := [] })
  -- the other clients
  | send {command : Command} {u : State} (hj : command.job = none) (hu : s.send command = some u) :
      Moves c s (.send command) { u with others := u.others + 1 }
  | signalOther {r : Serial.State} (hp : 0 < s.others)
      (hr : Serial.step s.runtime .signal = some r) :
      Moves c s .signalOther { s with runtime := r, others := s.others - 1 }
  | unheard (hp : 0 < s.others) (ho : s.readerOpen = false) :
      Moves c s .signalOther { s with others := s.others - 1 }
  -- the runtime thread
  | wake {r : Serial.State} (hl : s.turn = .loop) (hr : Serial.step s.runtime .wake = some r) :
      Moves c s .wake { s with runtime := r }
  | read {r : Serial.State} (hl : s.turn = .loop) (hr : Serial.step s.runtime .read = some r) :
      Moves c s .read { s with runtime := r }
  | receive {t : State} (hl : s.turn = .loop) (ht : s.receive = some t) : Moves c s .receive t
  | answer {job : Job} (hl : s.turn = .running job) (result : Answer) :
      Moves c s (.answer result) (s.answer job result)
  | commit {n : ℕ} (hl : s.turn = .committing n) : Moves c s .commit (s.commit n)
  | dropReader (hs : s.runtime.stage = .stopped) (hl : s.turn = .loop) :
      Moves c s .dropReader { s with readerOpen := false }
  | dropReceiver (ho : s.readerOpen = false) :
      Moves c s .dropReceiver { s with receiverOpen := false }

variable {c : Config} {s t : State} {n : ℕ}

theorem signalOther_moves (ht : step c s .signalOther = some t) : Moves c s .signalOther t := by
  obtain ⟨hp, ht⟩ := Option.ite_none_right_eq_some.mp ht
  split at ht
  · obtain ⟨r, hr, rfl⟩ := Option.map_eq_some_iff.mp ht
    exact .signalOther hp hr
  · next ho =>
    cases ht
    exact .unheard hp (Bool.eq_false_iff.mpr ho)

theorem scheduled_moves (ht : step c s (.scheduled n) = some t) : Moves c s (.scheduled n) t := by
  obtain ⟨hc, ht⟩ := Option.ite_none_right_eq_some.mp ht
  split at ht <;> cases ht
  next he => exact .scheduled hc he

/-- **What a step can do.** -/
theorem step_moves {a : Action} (ht : step c s a = some t) : Moves c s a t := by
  cases a with
  | requestHeaders n headers endOfStream =>
    obtain ⟨⟨hc, hf⟩, ht⟩ := Option.ite_none_right_eq_some.mp ht
    exact .requestHeaders hc hf ht
  | requestBody n received endOfStream =>
    obtain ⟨⟨hc, hh, he⟩, ht⟩ := Option.ite_none_right_eq_some.mp ht
    exact .requestBody hc hh he ht
  | requestTrailers n =>
    obtain ⟨⟨hc, hh, he⟩, ht⟩ := Option.ite_none_right_eq_some.mp ht
    exact .requestTrailers hc hh he ht
  | signal n =>
    obtain ⟨hn, ht⟩ := Option.ite_none_right_eq_some.mp ht
    exact .signal hn ht
  | scheduled n => exact scheduled_moves ht
  | destroy n =>
    obtain ⟨hc, rfl⟩ := of_guard ht
    exact .destroy hc
  | send command =>
    obtain ⟨⟨hj, -⟩, ht⟩ := Option.ite_none_right_eq_some.mp ht
    obtain ⟨u, hu, rfl⟩ := Option.map_eq_some_iff.mp ht
    exact .send hj hu
  | signalOther => exact signalOther_moves ht
  | wake =>
    obtain ⟨hl, ht⟩ := Option.ite_none_right_eq_some.mp ht
    obtain ⟨r, hr, rfl⟩ := Option.map_eq_some_iff.mp ht
    exact .wake hl hr
  | read =>
    obtain ⟨hl, ht⟩ := Option.ite_none_right_eq_some.mp ht
    obtain ⟨r, hr, rfl⟩ := Option.map_eq_some_iff.mp ht
    exact .read hl hr
  | receive =>
    obtain ⟨hl, ht⟩ := Option.ite_none_right_eq_some.mp ht
    exact .receive hl ht
  | answer result =>
    simp only [step] at ht
    split at ht <;> cases ht
    next hl => exact .answer hl result
  | commit =>
    simp only [step] at ht
    split at ht <;> cases ht
    next hl => exact .commit hl
  | dropReader =>
    obtain ⟨⟨hs, hl⟩, rfl⟩ := of_guard ht
    exact .dropReader hs hl
  | dropReceiver =>
    obtain ⟨ho, rfl⟩ := of_guard ht
    exact .dropReceiver ho

/-! ## The runtime under a step -/

theorem send_eq {command : Command} (ht : s.send command = some t) :
    ∃ r, Serial.step s.runtime (.send command.kind) = some r ∧
      t = { s with runtime := r, channel := s.channel ++ [command] } := by
  obtain ⟨r, hr, rfl⟩ := Option.map_eq_some_iff.mp ht
  exact ⟨r, hr, rfl⟩

/-- A callback that goes on to `wake::signal` is heard, or finds the reader gone. -/
theorem signal_cases (ht : s.signal c n = some t) :
    (∃ r, Serial.step s.runtime .signal = some r ∧
        t = { s with runtime := r, signalling := s.signalling.erase n }.update n fun x =>
          { x with filter := { x.filter with state := .Waiting } }) ∨
      s.readerOpen = false ∧ t = { s with signalling := s.signalling.erase n }.update n
        (·.sendBridgeError 503 (BridgeError.Io c.brokenPipe).display "ruvoy_sync_submit_failed") := by
  unfold State.signal at ht
  split at ht
  · obtain ⟨r, hr, rfl⟩ := Option.map_eq_some_iff.mp ht
    exact Or.inl ⟨r, hr, rfl⟩
  · next ho =>
    cases ht
    exact Or.inr ⟨Bool.eq_false_iff.mpr ho, rfl⟩

/-- The thread takes the oldest command, and runs it when it is a call. -/
theorem receive_eq (ht : s.receive = some t) :
    ∃ r, Serial.step s.runtime .receive = some r ∧
      t = { s with runtime := r, channel := s.channel.tail, turn := t.turn } := by
  obtain ⟨r, hr, ht⟩ := Option.map_eq_some_iff.mp ht
  refine ⟨r, hr, ?_⟩
  split at ht
  · next hq =>
    subst ht
    rw [hq]
    rfl
  · subst ht
    rfl

end Ruvoy.Sync
