import Mathlib
import Ruvoy.Lib.Doorbell
import Ruvoy.Reactor.Serial
import Ruvoy.Reactor.Wakeups

/-!
# Commands on their way to a runtime

What becomes of the commands that clients send to the fiber runtime, beside the wakeups that workers
owe and signal through the same socket, and of those that they send to the serial runtime.

* `note`, `noted`, `view`, `step_moves`: the fiber runtime's channel and socket are a queue with a
  doorbell;
* `drained`: its reactor gets to the end of the channel, or to a `Shutdown`, without its heartbeat;
* `Heeded`: what a runtime owes the commands it is sent;
* **`commands_heeded`**: both runtimes owe nothing, in any state of any run.
-/

set_option autoImplicit false

namespace Ruvoy.Reactor

open Runs Doorbell

/-- What a step sends or receives. -/
def note (s : State) (a : Action) (l : Log Command) : Log Command :=
  match a with
  | .send command => { l with sent := l.sent ++ [command] }
  | .receive => { l with received := l.received ++ s.commands.take 1 }
  | _ => l

/-- The reactor with a log of the commands sent and received. -/
def noted : System (State × Log Command) Action := system.recording {} note

def Stage.phase : Stage → Phase
  | .waiting => .waiting
  | .stopped => .stopped
  | _ => .awake

/-- The command after which nothing is received. -/
def isShutdown (c : Command) : Bool := c = .Shutdown

def view (p : State × Log Command) : Bell Command where
  sent := p.2.sent
  received := p.2.received
  queue := p.1.commands
  rung := p.1.socket.readable
  ringers := p.1.senders
  phase := p.1.reactor.phase

variable {s t : State} {l : Log Command}

/-- A pass that goes on is no news for the commands. -/
theorem moves_beside {u : State} (hc : u.commands = s.commands) (hs : u.socket = s.socket)
    (hn : u.senders = s.senders) (hp : u.reactor.phase = s.reactor.phase) :
    Moves isShutdown (view (s, l)) (view (u, l)) := by
  have hv : view (u, l) = view (s, l) := by simp only [view, hc, hs, hn, hp]
  rw [hv]
  exact .stay _

/-- A signal is heard by whoever waits, whichever side gave it. -/
theorem view_signal (workers : ℕ → Option ℕ) (senders : ℕ) :
    view ({ s with socket := s.socket.signal, workers := workers, senders := senders }, l) =
      { view (s, l) with rung := true, ringers := senders } := by
  simp only [view, s.socket.signal_readable]

theorem resolve_moves (ht : step s .resolve = some t) :
    Moves isShutdown (view (s, l)) (view (t, l)) := by
  cases hs : s.reactor with
  | resolving streams =>
    cases streams <;> simp only [step, hs, Option.some.injEq] at ht <;> subst ht <;>
      exact moves_beside rfl rfl rfl (by rw [hs]; rfl)
  | _ => simp [step, hs] at ht

theorem read_moves (ht : step s .read = some t) : Moves isShutdown (view (s, l)) (view (t, l)) := by
  simp only [step, Option.ite_none_right_eq_some] at ht
  obtain ⟨hs, ht⟩ := ht
  have hp : (view (s, l)).phase = .awake := congrArg Stage.phase hs
  by_cases hr : s.socket.readable = true
  · rw [if_pos hr, Option.some.injEq] at ht
    subst ht
    exact .silence (view (s, l)) s.socket.read.readable hp
  · rw [if_neg hr, Option.some.injEq] at ht
    cases hc : s.closed with
    | true =>
      have hv : view (t, l) = { view (s, l) with phase := .stopped } := by
        simp only [← ht, view, hc, if_true, Stage.phase]
      exact hv ▸ .stop _
    | false =>
      subst ht
      exact moves_beside rfl rfl rfl (by simp [hs, hc, Stage.phase])

/-- Nothing is queued: the reactor sleeps, or stops once its clients are gone. -/
theorem receive_nil_moves (hq : s.commands = []) (ht : step s .receive = some t) :
    Moves isShutdown (view (s, l)) (view (t, l)) := by
  simp only [step, Option.ite_none_right_eq_some, hq] at ht
  obtain ⟨hs, ht⟩ := ht
  have hp : (view (s, l)).phase = .awake := congrArg Stage.phase hs
  cases hc : s.closed with
  | true =>
    simp only [hc, if_true, Option.some.injEq] at ht
    have hv : view (t, l) = { view (s, l) with phase := .stopped } := by
      simp only [← ht, view, hq, Stage.phase]
    exact hv ▸ .stop _
  | false =>
    simp only [hc, Bool.false_eq_true, if_false, Option.some.injEq] at ht
    have hv : view (t, l) = { view (s, l) with phase := .waiting } := by
      simp only [← ht, view, hq, Stage.phase]
    exact hv ▸ .sleep _ hp hq

theorem receive_cons_moves {c : Command} {rest : List Command} (hq : s.commands = c :: rest)
    (ht : step s .receive = some t) :
    Moves isShutdown (view (s, l)) (view (t, { l with received := l.received ++ [c] })) := by
  simp only [step, Option.ite_none_right_eq_some, hq] at ht
  obtain ⟨hs, ht⟩ := ht
  have hp : (view (s, l)).phase = .awake := congrArg Stage.phase hs
  have hq' : (view (s, l)).queue = c :: rest := hq
  cases c with
  | Shutdown =>
    cases ht
    exact .finish (view (s, l)) .Shutdown rest hp hq' rfl
  | _ =>
    cases ht
    exact .receive (view (s, l)) _ rest hp hq' rfl

theorem step_moves {a : Action} (ht : step s a = some t) :
    Moves isShutdown (view (s, l)) (view (t, note s a l)) := by
  cases a with
  | owe | park =>
    simp only [step, Option.ite_none_right_eq_some, Option.some.injEq] at ht
    obtain ⟨-, rfl⟩ := ht
    exact .stay _
  | close =>
    cases ht
    exact .stay _
  | signal w =>
    simp only [step, Option.ite_none_right_eq_some, Option.some.injEq] at ht
    obtain ⟨-, rfl⟩ := ht
    exact view_signal _ s.senders ▸ .ringAlso _
  | send command =>
    simp only [step, Option.ite_none_right_eq_some, Option.some.injEq] at ht
    obtain ⟨-, rfl⟩ := ht
    exact .send _ command
  | signalCommand =>
    simp only [step, Option.ite_none_right_eq_some, Option.some.injEq] at ht
    obtain ⟨-, rfl⟩ := ht
    exact view_signal s.workers _ ▸ .ring _
  | wake heartbeat =>
    simp only [step, Option.ite_none_right_eq_some, Option.some.injEq] at ht
    obtain ⟨⟨hs, -⟩, rfl⟩ := ht
    exact .wake (view (s, l)) (congrArg Stage.phase hs)
  | take =>
    simp only [step, Option.ite_none_right_eq_some, Option.some.injEq] at ht
    obtain ⟨hs, rfl⟩ := ht
    exact moves_beside rfl rfl rfl (by rw [hs]; rfl)
  | resolve => exact resolve_moves ht
  | read => exact read_moves ht
  | receive =>
    cases hq : s.commands with
    | nil =>
      rw [show note s .receive l = l by simp [note, hq]]
      exact receive_nil_moves hq ht
    | cons c rest =>
      have hn : note s .receive l = { l with received := l.received ++ [c] } := by
        simp [note, hq]
      rw [hn]
      exact receive_cons_moves hq ht

theorem noted_ok {p : State × Log Command} (h : noted.Reachable p) : Ok isShutdown (view p) := by
  refine System.Reach.inductNoted (P := fun s l => Ok isShutdown (view (s, l))) ?_ ?_ h
  · rintro s ⟨capacity, rfl⟩
    exact Ok.new
  · intro s l a t hs _ ht
    exact (step_moves ht).ok hs

/-! ## The end of the channel is reached -/

/-- The reactor stops at a `Shutdown`, or when every client is gone. -/
def StoppedOk (s : State) (l : Log Command) : Prop :=
  s.reactor = .stopped → s.closed = true ∨ .Shutdown ∈ l.received

theorem StoppedOk.step (h : StoppedOk s l) {a : Action} (ht : step s a = some t) :
    StoppedOk t (note s a l) := by
  cases a with
  | owe w stream | signal w | send command | signalCommand | park stream v =>
    simp only [Reactor.step, Option.ite_none_right_eq_some, Option.some.injEq] at ht
    obtain ⟨-, rfl⟩ := ht
    exact fun hst => h hst
  | close =>
    cases ht
    exact fun _ => Or.inl rfl
  | wake heartbeat =>
    simp only [Reactor.step, Option.ite_none_right_eq_some, Option.some.injEq] at ht
    obtain ⟨-, rfl⟩ := ht
    rintro ⟨⟩
  | take =>
    simp only [Reactor.step, Option.ite_none_right_eq_some, Option.some.injEq] at ht
    obtain ⟨-, rfl⟩ := ht
    rintro ⟨⟩
  | resolve =>
    cases hs : s.reactor with
    | resolving streams =>
      cases streams with
      | nil =>
        simp only [Reactor.step, hs, Option.some.injEq] at ht
        subst ht
        rintro ⟨⟩
      | cons stream rest =>
        simp only [Reactor.step, hs, Option.some.injEq] at ht
        subst ht
        rintro ⟨⟩
    | _ => simp [Reactor.step, hs] at ht
  | read =>
    simp only [Reactor.step, Option.ite_none_right_eq_some] at ht
    obtain ⟨-, ht⟩ := ht
    split_ifs at ht with hr hc
    · rw [Option.some.injEq] at ht
      subst ht
      exact fun hst => h hst
    · cases ht
      exact fun _ => Or.inl hc
    · cases ht
      rintro ⟨⟩
  | receive =>
    simp only [Reactor.step, Option.ite_none_right_eq_some] at ht
    obtain ⟨hst, ht⟩ := ht
    split at ht
    · split_ifs at ht with hc
      · cases ht
        exact fun _ => Or.inl hc
      · cases ht
        rintro ⟨⟩
    · next rest hq =>
      intro _
      simp [note, hq]
    · cases ht
      intro hst'
      rw [show s.reactor = .stopped from hst'] at hst
      cases hst

theorem noted_stopped {p : State × Log Command} (h : noted.Reachable p) : StoppedOk p.1 p.2 := by
  refine System.Reach.inductNoted (P := StoppedOk) ?_ ?_ h
  · rintro s ⟨capacity, rfl⟩ hst
    cases hst
  · intro s l a t hs _ ht
    exact hs.step ht

/-- A client's pending signal, or a step of the reactor, which does without its heartbeat. -/
def drains : Action → Bool
  | .signalCommand | .wake false | .take | .resolve | .read | .receive => true
  | _ => false

def Stage.rank : Stage → ℕ
  | .waiting => 5
  | .passing => 4
  | .resolving streams => 3 + streams.length
  | .draining => 2
  | .receiving => 1
  | .stopped => 0

/-- How far it is to the end of the channel, at most. -/
def rank (s : State) : ℕ :=
  s.reactor.rank + s.wakeups.length + s.socket.bytes + s.commands.length + 2 * s.senders

theorem drains_frame {a : Action} (ha : drains a = true) (ht : step s a = some t) :
    t.closed = s.closed ∧ (note s a l).sent = l.sent := by
  cases a with
  | owe w stream | signal w | send command | close | park stream v => cases ha
  | signalCommand | wake heartbeat | take =>
    simp only [step, Option.ite_none_right_eq_some, Option.some.injEq] at ht
    obtain ⟨-, rfl⟩ := ht
    exact ⟨rfl, rfl⟩
  | resolve =>
    simp only [step] at ht
    split at ht <;> cases ht <;> exact ⟨rfl, rfl⟩
  | read =>
    simp only [step, Option.ite_none_right_eq_some] at ht
    obtain ⟨-, ht⟩ := ht
    split_ifs at ht <;> rw [Option.some.injEq] at ht <;> subst ht <;> exact ⟨rfl, rfl⟩
  | receive =>
    simp only [step, Option.ite_none_right_eq_some] at ht
    obtain ⟨-, ht⟩ := ht
    split at ht <;> cases ht <;> exact ⟨rfl, rfl⟩

/-- **There is a step towards the end of the channel**: the reactor does not sleep on a command. -/
theorem drains_step {p : State × Log Command} (h : noted.Reachable p) (hc : p.1.closed = false)
    (hne : p.1.commands ≠ []) (hs : .Shutdown ∉ p.2.received) :
    ∃ a t, drains a = true ∧ step p.1 a = some t ∧ rank t < rank p.1 := by
  obtain ⟨s, l⟩ := p
  dsimp only at hc hne hs ⊢
  cases hst : s.reactor with
  | waiting =>
    by_cases hsend : s.senders = 0
    · have hr : s.socket.readable = true :=
        ((noted_ok h).heard (congrArg Stage.phase hst) hsend).resolve_left hne
      refine ⟨.wake false, _, rfl, if_pos ⟨hst, by rw [hr]; rfl⟩, ?_⟩
      simp only [rank, Stage.rank, hst]
      omega
    · refine ⟨.signalCommand, _, rfl, if_pos (Nat.pos_of_ne_zero hsend), ?_⟩
      have hb := s.socket.signal_bytes
      simp only [rank, hst]
      omega
  | passing =>
    refine ⟨.take, _, rfl, if_pos hst, ?_⟩
    simp only [rank, Stage.rank, hst, List.length_nil]
    omega
  | resolving streams =>
    cases streams with
    | nil =>
      refine ⟨.resolve, { s with reactor := .draining }, rfl, by simp only [step, hst], ?_⟩
      simp only [rank, Stage.rank, hst, List.length_nil]
      omega
    | cons stream rest =>
      refine ⟨.resolve, s.resolve stream rest, rfl, by simp only [step, hst], ?_⟩
      simp only [rank, Stage.rank, hst, State.resolve, List.length_cons]
      omega
  | draining =>
    by_cases hr : s.socket.readable = true
    · refine ⟨.read, _, rfl, (if_pos hst).trans (if_pos hr), ?_⟩
      have hb := s.socket.read_bytes hr
      simp only [rank, hst]
      omega
    · refine ⟨.read, _, rfl, (if_pos hst).trans (if_neg hr), ?_⟩
      simp only [rank, hst, hc, Bool.false_eq_true, if_false, Stage.rank]
      omega
  | receiving =>
    cases hq : s.commands with
    | nil => exact absurd hq hne
    | cons c rest =>
      cases c with
      | Shutdown =>
        refine ⟨.receive, { s with commands := rest, reactor := .stopped }, rfl, ?_, ?_⟩
        · simp only [step, hst, hq, if_true]
        · simp only [rank, hst, hq, Stage.rank, List.length_cons]
          omega
      | _ =>
        refine ⟨.receive, { s with commands := rest }, rfl, ?_, ?_⟩
        · simp only [step, hst, hq, if_true]
        · simp only [rank, hq, List.length_cons]
          omega
  | stopped =>
    rcases noted_stopped h hst with hcl | hsh
    · rw [hc] at hcl
      cases hcl
    · exact absurd hsh hs

/-- **The end of the channel, or a `Shutdown`, is reached** while a client is there. -/
theorem drained {p : State × Log Command} (h : noted.Reachable p) (hc : p.1.closed = false) :
    noted.Leads (fun a => drains a) (fun q => (q.1.closed = false ∧ q.2.sent = p.2.sent) ∧
      (q.1.commands = [] ∨ .Shutdown ∈ q.2.received)) p := by
  refine System.Leads.of_reach (fun q => rank q.1) ?_ h ⟨hc, rfl⟩
  rintro q hq ⟨hqc, hsent⟩ hnot
  rw [not_or] at hnot
  obtain ⟨a, t, ha, ht, hlt⟩ := drains_step hq hqc hnot.1 hnot.2
  obtain ⟨hclosed, hs⟩ := drains_frame (l := q.2) ha ht
  exact ⟨a, (t, note q.1 a q.2), ha, System.recording_step.mpr ⟨ht, rfl⟩,
    ⟨hclosed.trans hqc, hs.trans hsent⟩, hlt⟩

/-! ## Both runtimes -/

/-- What a runtime thread owes the commands sent to it, where `waiting` says that it waits for the
socket, `ringers` counts the clients between their send and their signal, and `final` tells a
`Shutdown`. -/
structure Heeded {ι : Type} (final : ι → Bool) (waiting : Prop) (ringers : ℕ) (commands : List ι)
    (readable : Bool) (l : Log ι) : Prop where
  /-- It does not sleep on a command. -/
  awake : waiting → ringers = 0 → commands = [] ∨ readable = true
  /-- What was received and what is in the channel is what was sent, in order. -/
  once : l.received ++ commands = l.sent
  /-- Once a `Shutdown` was received, so was everything sent before it, and nothing after it. -/
  shutdown : ∀ c ∈ l.received, final c = true →
    l.received = l.sent.takeWhile (fun x => !final x) ++ [c]

theorem Heeded.of_ok {ι : Type} {final : ι → Bool} {b : Bell ι} (h : Ok final b) {waiting : Prop}
    (hw : waiting → b.phase = .waiting) :
    Heeded final waiting b.ringers b.queue b.rung b.toLog where
  awake hwait := h.heard (hw hwait)
  once := h.conserve
  shutdown _ hm hc := h.received_final hm hc

/-- **No command is left unseen**: neither runtime thread sleeps on one, each command is received once
and in order, and as long as a client is there the thread gets to the last command sent, or to a
`Shutdown`. -/
theorem commands_heeded :
    (∀ s l, Serial.noted.Reachable (s, l) →
      Heeded Serial.isShutdown (s.stage = .waiting) s.senders s.commands s.socket.readable l ∧
      (s.closed = false → Serial.noted.Leads (fun a => Serial.drains a)
        (fun q => (q.1.closed = false ∧ q.2.sent = l.sent) ∧
          (q.1.commands = [] ∨ .Shutdown ∈ q.2.received)) (s, l))) ∧
    (∀ s l, noted.Reachable (s, l) →
      Heeded isShutdown (s.reactor = .waiting) s.senders s.commands s.socket.readable l ∧
      (s.closed = false → noted.Leads (fun a => drains a)
        (fun q => (q.1.closed = false ∧ q.2.sent = l.sent) ∧
          (q.1.commands = [] ∨ .Shutdown ∈ q.2.received)) (s, l))) := by
  refine ⟨?_, ?_⟩
  · intro s l h
    refine ⟨Heeded.of_ok (Serial.noted_ok h) fun hw => ?_, fun hc => Serial.drained h hc⟩
    exact congrArg Serial.Stage.phase hw
  · intro s l h
    refine ⟨Heeded.of_ok (noted_ok h) fun hw => ?_, fun hc => drained h hc⟩
    exact congrArg Stage.phase hw

/-- A command sent after the socket was read and received in the same pass, and its signal after that:
the runtime thread waits, with a byte for nothing in its socket. -/
def lateSignal : List Serial.Action :=
  [.send .Call, .signal, .wake, .read, .read, .send .ForceGc, .receive, .receive, .receive, .signal]

theorem commands_heeded_lateSignal : ∃ s l, Serial.noted.run ({ socket := .empty 8 }, {}) lateSignal =
    some (s, l) ∧ s.stage = .waiting ∧ l.received = [.Call, .ForceGc] ∧
      Heeded Serial.isShutdown (s.stage = .waiting) s.senders s.commands s.socket.readable l := by
  have hr : Serial.noted.run ({ socket := .empty 8 }, {}) lateSignal = some (_, _) := rfl
  have hi : Serial.noted.init ({ socket := .empty 8 }, {}) := ⟨⟨8, rfl⟩, rfl⟩
  exact ⟨_, _, hr, rfl, rfl, (commands_heeded.1 _ _ (System.reach_of_run hi hr)).1⟩

end Ruvoy.Reactor
