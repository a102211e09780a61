import Mathlib
import Ruvoy.Lib.Doorbell
import Ruvoy.Reactor.Wakeups

/-!
# The loop of the serial runtime

`main` of `src/sync.rs`: wait until the wake socket is readable, read it until it is empty, receive
commands until the channel is. Nothing else wakes the runtime thread.

* `Stage`, `State`, `Action`, `step`: the runtime thread and its clients;
* `noted`: the loop with a log of the commands sent and received;
* `view`, `step_moves`: the channel and the socket are a queue with a doorbell;
* `drained`: the runtime thread gets to the end of the channel, or to a `Shutdown`.
-/

set_option autoImplicit false

namespace Ruvoy.Serial

open Runs Doorbell Reactor

inductive Command
  | Call
  | ForceGc
  | Shutdown
  deriving DecidableEq, Repr

/-- Where the runtime thread is. -/
inductive Stage
  /-- `ruby.thread_wait_fd`. -/
  | waiting
  /-- `wake::drain`. -/
  | draining
  /-- `try_recv`. -/
  | receiving
  | stopped
  deriving DecidableEq, Repr

structure State where
  socket : Socket
  /-- `command_tx` and `command_rx`. -/
  commands : List Command := []
  /-- Clients between `command_tx.send` and `wake::signal`. -/
  senders : ℕ := 0
  /-- Every client is gone: the channel and the writing end of the socket are closed. -/
  closed : Bool := false
  stage : Stage := .waiting

inductive Action
  | send (command : Command)
  | signal
  /-- The last client is dropped. -/
  | close
  /-- The socket is readable. -/
  | wake
  | read
  | receive
  deriving DecidableEq, Repr

def step (s : State) : Action → Option State
  | .send command =>
    if s.closed = false then
      some { s with commands := s.commands ++ [command], senders := s.senders + 1 }
    else none
  | .signal =>
    if 0 < s.senders then some { s with socket := s.socket.signal, senders := s.senders - 1 }
    else none
  | .close => if s.senders = 0 then some { s with closed := true } else none
  | .wake =>
    -- a closed socket is readable too
    if s.stage = .waiting ∧ (s.socket.readable || s.closed) then some { s with stage := .draining }
    else none
  | .read =>
    if s.stage = .draining then
      if s.socket.readable then some { s with socket := s.socket.read }
      else some { s with stage := if s.closed then .stopped else .receiving }
    else none
  | .receive =>
    if s.stage = .receiving then
      match s.commands with
      | [] => some { s with stage := if s.closed then .stopped else .waiting }
      | .Shutdown :: rest => some { s with commands := rest, stage := .stopped }
      | _ :: rest => some { s with commands := rest }
    else none

/-- Nothing sent, on a wake socket of any size. -/
def system : System State Action where
  init s := ∃ capacity, s = { socket := .empty capacity }
  step := step

/-- What a step sends or receives. -/
def note (s : State) (a : Action) (l : Log Command) : Log Command :=
  match a with
  | .send command => { l with sent := l.sent ++ [command] }
  | .receive => { l with received := l.received ++ s.commands.take 1 }
  | _ => l

def noted : System (State × Log Command) Action := system.recording {} note

/-! ## A queue with a doorbell -/

def Stage.phase : Stage → Phase
  | .waiting => .waiting
  | .draining | .receiving => .awake
  | .stopped => .stopped

/-- The command after which nothing is received. -/
def isShutdown (c : Command) : Bool := c = .Shutdown

def view (p : State × Log Command) : Bell Command where
  sent := p.2.sent
  received := p.2.received
  queue := p.1.commands
  rung := p.1.socket.readable
  ringers := p.1.senders
  phase := p.1.stage.phase

variable {s t : State} {l : Log Command}

theorem read_moves (ht : step s .read = some t) : Moves isShutdown (view (s, l)) (view (t, l)) := by
  simp only [step, Option.ite_none_right_eq_some] at ht
  obtain ⟨hs, ht⟩ := ht
  have hp : (view (s, l)).phase = .awake := congrArg Stage.phase hs
  by_cases hr : s.socket.readable = true
  · rw [if_pos hr, Option.some.injEq] at ht
    subst ht
    exact .silence (view (s, l)) s.socket.read.readable hp
  · rw [if_neg hr, Option.some.injEq] at ht
    subst ht
    cases hc : s.closed with
    | true => exact .stop (view (s, l))
    | false =>
      have hv : view ({ s with stage := .receiving }, l) = view (s, l) := by
        simp only [view, hs, Stage.phase]
      have hm : Moves isShutdown (view (s, l)) (view ({ s with stage := .receiving }, l)) := by
        rw [hv]
        exact .stay _
      rw [hc] at hm
      exact hm

theorem receive_nil_moves (hq : s.commands = []) (ht : step s .receive = some t) :
    Moves isShutdown (view (s, l)) (view (t, l)) := by
  simp only [step, Option.ite_none_right_eq_some, hq] at ht
  obtain ⟨hs, ht⟩ := ht
  have hp : (view (s, l)).phase = .awake := congrArg Stage.phase hs
  cases hc : s.closed with
  | true =>
    simp only [hc, if_true, Option.some.injEq] at ht
    have hv : view (t, l) = { view (s, l) with phase := .stopped } := by
      simp only [← ht, view, hq, Stage.phase]
    exact hv ▸ .stop _
  | false =>
    simp only [hc, Bool.false_eq_true, if_false, Option.some.injEq] at ht
    have hv : view (t, l) = { view (s, l) with phase := .waiting } := by
      simp only [← ht, view, hq, Stage.phase]
    exact hv ▸ .sleep _ hp hq

theorem receive_cons_moves {c : Command} {rest : List Command} (hq : s.commands = c :: rest)
    (ht : step s .receive = some t) :
    Moves isShutdown (view (s, l)) (view (t, { l with received := l.received ++ [c] })) := by
  simp only [step, Option.ite_none_right_eq_some, hq] at ht
  obtain ⟨hs, ht⟩ := ht
  have hp : (view (s, l)).phase = .awake := congrArg Stage.phase hs
  have hq' : (view (s, l)).queue = c :: rest := hq
  cases c with
  | Shutdown =>
    cases ht
    exact .finish (view (s, l)) .Shutdown rest hp hq' rfl
  | Call =>
    cases ht
    exact .receive (view (s, l)) .Call rest hp hq' rfl
  | ForceGc =>
    cases ht
    exact .receive (view (s, l)) .ForceGc rest hp hq' rfl

theorem step_moves {a : Action} (ht : step s a = some t) :
    Moves isShutdown (view (s, l)) (view (t, note s a l)) := by
  cases a with
  | send command =>
    simp only [step, Option.ite_none_right_eq_some, Option.some.injEq] at ht
    obtain ⟨-, rfl⟩ := ht
    exact .send _ command
  | signal =>
    simp only [step, Option.ite_none_right_eq_some, Option.some.injEq] at ht
    obtain ⟨-, rfl⟩ := ht
    have hr : view ({ s with socket := s.socket.signal, senders := s.senders - 1 }, l) =
        { view (s, l) with rung := true, ringers := s.senders - 1 } := by
      simp only [view, s.socket.signal_readable]
    exact hr ▸ .ring _
  | close =>
    simp only [step, Option.ite_none_right_eq_some, Option.some.injEq] at ht
    obtain ⟨-, rfl⟩ := ht
    exact .stay _
  | wake =>
    simp only [step, Option.ite_none_right_eq_some, Option.some.injEq] at ht
    obtain ⟨⟨hs, -⟩, rfl⟩ := ht
    exact .wake (view (s, l)) (congrArg Stage.phase hs)
  | read => exact read_moves ht
  | receive =>
    cases hq : s.commands with
    | nil =>
      rw [show note s .receive l = l by simp [note, hq]]
      exact receive_nil_moves hq ht
    | cons c rest =>
      have hn : note s .receive l = { l with received := l.received ++ [c] } := by simp [note, hq]
      rw [hn]
      exact receive_cons_moves hq ht

theorem noted_ok {p : State × Log Command} (h : noted.Reachable p) : Ok isShutdown (view p) := by
  refine System.Reach.inductNoted (P := fun s l => Ok isShutdown (view (s, l))) ?_ ?_ h
  · rintro s ⟨capacity, rfl⟩
    exact Ok.new
  · intro s l a t hs _ ht
    exact (step_moves ht).ok hs

/-! ## The end of the channel is reached -/

/-- The thread stops at a `Shutdown`, or when every client is gone. -/
def StoppedOk (s : State) (l : Log Command) : Prop :=
  s.stage = .stopped → s.closed = true ∨ .Shutdown ∈ l.received

theorem StoppedOk.step (h : StoppedOk s l) {a : Action} (ht : step s a = some t) :
    StoppedOk t (note s a l) := by
  cases a with
  | send command | signal =>
    simp only [Serial.step, Option.ite_none_right_eq_some, Option.some.injEq] at ht
    obtain ⟨-, rfl⟩ := ht
    exact h
  | close =>
    simp only [Serial.step, Option.ite_none_right_eq_some, Option.some.injEq] at ht
    obtain ⟨-, rfl⟩ := ht
    exact fun _ => Or.inl rfl
  | wake =>
    simp only [Serial.step, Option.ite_none_right_eq_some, Option.some.injEq] at ht
    obtain ⟨-, rfl⟩ := ht
    rintro ⟨⟩
  | read =>
    simp only [Serial.step, Option.ite_none_right_eq_some] at ht
    obtain ⟨-, ht⟩ := ht
    split_ifs at ht with hr hc
    · rw [Option.some.injEq] at ht
      subst ht
      exact fun hst => h hst
    · cases ht
      exact fun _ => Or.inl hc
    · cases ht
      rintro ⟨⟩
  | receive =>
    simp only [Serial.step, Option.ite_none_right_eq_some] at ht
    obtain ⟨hst, ht⟩ := ht
    split at ht
    · split_ifs at ht with hc
      · cases ht
        exact fun _ => Or.inl hc
      · cases ht
        rintro ⟨⟩
    · next rest hq =>
      intro _
      simp [note, hq]
    · cases ht
      intro hst'
      rw [show s.stage = .stopped from hst'] at hst
      cases hst

theorem noted_stopped {p : State × Log Command} (h : noted.Reachable p) : StoppedOk p.1 p.2 := by
  refine System.Reach.inductNoted (P := StoppedOk) ?_ ?_ h
  · rintro s ⟨capacity, rfl⟩ hst
    cases hst
  · intro s l a t hs _ ht
    exact hs.step ht

/-- A client's pending signal, or a step of the runtime thread. -/
def drains : Action → Bool
  | .send _ | .close => false
  | _ => true

def Stage.rank : Stage → ℕ
  | .waiting => 3
  | .draining => 2
  | .receiving => 1
  | .stopped => 0

/-- How far it is to the end of the channel, at most. -/
def rank (s : State) : ℕ := s.stage.rank + s.socket.bytes + s.commands.length + 2 * s.senders

theorem drains_frame {a : Action} (ha : drains a = true) (ht : step s a = some t) :
    t.closed = s.closed ∧ (note s a l).sent = l.sent := by
  cases a with
  | send command => cases ha
  | close => cases ha
  | signal =>
    simp only [step, Option.ite_none_right_eq_some, Option.some.injEq] at ht
    obtain ⟨-, rfl⟩ := ht
    exact ⟨rfl, rfl⟩
  | wake =>
    simp only [step, Option.ite_none_right_eq_some, Option.some.injEq] at ht
    obtain ⟨-, rfl⟩ := ht
    exact ⟨rfl, rfl⟩
  | read =>
    simp only [step, Option.ite_none_right_eq_some] at ht
    obtain ⟨-, ht⟩ := ht
    split_ifs at ht <;> rw [Option.some.injEq] at ht <;> subst ht <;> exact ⟨rfl, rfl⟩
  | receive =>
    simp only [step, Option.ite_none_right_eq_some] at ht
    obtain ⟨-, ht⟩ := ht
    split at ht <;> cases ht <;> exact ⟨rfl, rfl⟩

/-- **There is a step towards the end of the channel**: the thread does not sleep on a command. -/
theorem drains_step {p : State × Log Command} (h : noted.Reachable p) (hc : p.1.closed = false)
    (hne : p.1.commands ≠ []) (hs : .Shutdown ∉ p.2.received) :
    ∃ a t, drains a = true ∧ step p.1 a = some t ∧ rank t < rank p.1 := by
  obtain ⟨s, l⟩ := p
  dsimp only at hc hne hs ⊢
  cases hst : s.stage with
  | waiting =>
    by_cases hsend : s.senders = 0
    · have hr : s.socket.readable = true :=
        ((noted_ok h).heard (congrArg Stage.phase hst) hsend).resolve_left hne
      refine ⟨.wake, _, rfl, if_pos ⟨hst, by rw [hr]; rfl⟩, ?_⟩
      simp only [rank, Stage.rank, hst]
      omega
    · refine ⟨.signal, _, rfl, if_pos (Nat.pos_of_ne_zero hsend), ?_⟩
      have hb := s.socket.signal_bytes
      simp only [rank, hst]
      omega
  | draining =>
    by_cases hr : s.socket.readable = true
    · refine ⟨.read, _, rfl, (if_pos hst).trans (if_pos hr), ?_⟩
      have hb := s.socket.read_bytes hr
      simp only [rank, hst]
      omega
    · refine ⟨.read, _, rfl, (if_pos hst).trans (if_neg hr), ?_⟩
      simp only [rank, hst, hc, Bool.false_eq_true, if_false, Stage.rank]
      omega
  | receiving =>
    cases hq : s.commands with
    | nil => exact absurd hq hne
    | cons c rest =>
      cases c with
      | Shutdown =>
        refine ⟨.receive, { s with commands := rest, stage := .stopped }, rfl, ?_, ?_⟩
        · simp only [step, hst, hq, if_true]
        · simp only [rank, hst, hq, Stage.rank, List.length_cons]
          omega
      | Call =>
        refine ⟨.receive, { s with commands := rest }, rfl, ?_, ?_⟩
        · simp only [step, hst, hq, if_true]
        · simp only [rank, hq, List.length_cons]
          omega
      | ForceGc =>
        refine ⟨.receive, { s with commands := rest }, rfl, ?_, ?_⟩
        · simp only [step, hst, hq, if_true]
        · simp only [rank, hq, List.length_cons]
          omega
  | stopped =>
    rcases noted_stopped h hst with hcl | hsh
    · rw [hc] at hcl
      cases hcl
    · exact absurd hsh hs

/-- **The end of the channel, or a `Shutdown`, is reached** while a client is there. -/
theorem drained {p : State × Log Command} (h : noted.Reachable p) (hc : p.1.closed = false) :
    noted.Leads (fun a => drains a) (fun q => (q.1.closed = false ∧ q.2.sent = p.2.sent) ∧
      (q.1.commands = [] ∨ .Shutdown ∈ q.2.received)) p := by
  refine System.Leads.of_reach (fun q => rank q.1) ?_ h ⟨hc, rfl⟩
  rintro q hq ⟨hqc, hsent⟩ hnot
  rw [not_or] at hnot
  obtain ⟨a, t, ha, ht, hlt⟩ := drains_step hq hqc hnot.1 hnot.2
  obtain ⟨hclosed, hs⟩ := drains_frame (l := q.2) ha ht
  exact ⟨a, (t, note q.1 a q.2), ha, System.recording_step.mpr ⟨ht, rfl⟩,
    ⟨hclosed.trans hqc, hs.trans hsent⟩, hlt⟩

end Ruvoy.Serial
