import Mathlib
import Ruvoy.Lib.Runs
import Ruvoy.Stream.Model

/-!
# Wakeups and the reactor's pass

Workers run `FiberRuntimeClient::wake_body`: append a stream to `Wakeups`, then write one byte to
the wake socket. The reactor of `ruby/fiber_runner.rb` waits for the socket to become readable, at
most for its heartbeat, and then runs `FiberBridge::drain`: it takes the whole list and resolves the
waiters, reads the socket until it is empty, and receives commands until the channel is.

* `Socket`: the wake socket, `signal` and one `read` of `wake::drain`;
* `Stage`, `State`, `Action`, `step`: every step of every party. `passes` counts the times the
  list was taken, so that a worker between its append and its write knows how old its append is;
* `inTime`: the steps that do not write, in the middle of a pass, for an append that the pass has
  not taken;
* **`owed_wakeup_readable`**: on runs of such steps the reactor never sleeps on an owed wakeup.
  On other runs it may: the byte is read by a pass that took the list before the append.
-/

set_option autoImplicit false

namespace Ruvoy.Reactor

open Runs

/-! ## The wake socket -/

/-- A non-blocking socket: the bytes written and not read, and how many fit. -/
structure Socket where
  bytes : ℕ
  capacity : ℕ
  capacity_pos : 0 < capacity
  bytes_le : bytes ≤ capacity

namespace Socket

theorem max_one_pos (n : ℕ) : 0 < max n 1 := Nat.lt_of_lt_of_le Nat.one_pos (Nat.le_max_right n 1)

/-- A socket nothing was written to. -/
def empty (capacity : ℕ) : Socket where
  bytes := 0
  capacity := max capacity 1
  capacity_pos := max_one_pos capacity
  bytes_le := Nat.zero_le _

variable (s : Socket)

def readable : Bool := decide (0 < s.bytes)

/-- `signal`: write one byte, or nothing when the buffer is full (`WouldBlock`). -/
def signal : Socket :=
  if h : s.bytes < s.capacity then { s with bytes := s.bytes + 1, bytes_le := h } else s

/-- The buffer of `wake::drain`. -/
def bufferSize : ℕ := 256

/-- One `read` of `wake::drain`. -/
def read : Socket :=
  { s with
    bytes := s.bytes - bufferSize
    bytes_le := (Nat.sub_le _ _).trans s.bytes_le }

/-- A full buffer already means an unread wakeup is pending. -/
theorem signal_readable : s.signal.readable = true := by
  have hp := s.capacity_pos
  rw [readable, decide_eq_true_eq, signal]
  split_ifs with h
  · exact Nat.succ_pos _
  · omega

theorem signal_bytes : s.signal.bytes ≤ s.bytes + 1 := by
  rw [signal]
  split_ifs
  · exact Nat.le_refl _
  · exact Nat.le_succ _

theorem read_bytes (h : s.readable = true) : s.read.bytes < s.bytes := by
  rw [readable, decide_eq_true_eq] at h
  exact Nat.sub_lt h (by decide)

end Socket

/-! ## The reactor and the workers -/

inductive Command
  | Call
  | Admin
  | Drain
  | Shutdown
  deriving DecidableEq, Repr

/-- Where the reactor is. -/
inductive Stage
  /-- `io.wait_readable(heartbeat_seconds)`. -/
  | waiting
  /-- `bridge.drain` begins: the list is not yet taken. -/
  | passing
  /-- `resolve_wakeups`, with the streams taken and not yet unparked. -/
  | resolving (streams : List ℕ)
  /-- `wake::drain`. -/
  | draining
  /-- `try_recv`. -/
  | receiving
  /-- Shut down, or the socket or the channel was closed. -/
  | stopped
  deriving DecidableEq, Repr

/-- The list was taken and the socket not yet found empty. -/
def Stage.midPass : Stage → Bool
  | .resolving _ | .draining => true
  | _ => false

structure State where
  /-- `Wakeups`: streams whose parked fiber is owed a wakeup. -/
  wakeups : List ℕ := []
  socket : Socket
  /-- `command_tx` and `command_rx`. -/
  commands : List Command := []
  /-- A worker between its append and its write, with the passes begun at the append. -/
  workers : ℕ → Option ℕ := fun _ => none
  /-- Senders between `command_tx.send` and `wake::signal`. -/
  senders : ℕ := 0
  /-- Every client is gone: the channel and the writing end of the socket are closed. -/
  closed : Bool := false
  /-- The waiter slot of each stream. -/
  slots : ℕ → Option Variable := fun _ => none
  resolved : List Variable := []
  reactor : Stage := .waiting
  /-- How often the list was taken. -/
  passes : ℕ := 0

inductive Action
  /-- `wakeups.owe(stream)` by a worker. -/
  | owe (worker stream : ℕ)
  /-- The worker's `wake::signal`. -/
  | signal (worker : ℕ)
  /-- `command_tx.send`. -/
  | send (command : Command)
  | signalCommand
  /-- The last client is dropped. -/
  | close
  /-- A fiber parks on a stream. -/
  | park (stream : ℕ) (v : Variable)
  /-- The socket is readable, or the heartbeat is over. -/
  | wake (heartbeat : Bool)
  /-- `wakeups.take()`. -/
  | take
  | resolve
  | read
  | receive
  deriving DecidableEq, Repr

/-- The next of the streams taken: its waiter, if any, is unparked and resolved. -/
def State.resolve (s : State) (stream : ℕ) (rest : List ℕ) : State :=
  { s with
    slots := Function.update s.slots stream none
    resolved := s.resolved ++ (s.slots stream).toList
    reactor := .resolving rest }

def step (s : State) : Action → Option State
  | .owe w stream =>
    if s.closed = false ∧ s.workers w = none then
      some { s with
        wakeups := s.wakeups ++ [stream]
        workers := Function.update s.workers w (some s.passes) }
    else none
  | .signal w =>
    if (s.workers w).isSome then
      some { s with socket := s.socket.signal, workers := Function.update s.workers w none }
    else none
  | .send command =>
    if s.closed = false then
      some { s with commands := s.commands ++ [command], senders := s.senders + 1 }
    else none
  | .signalCommand =>
    if 0 < s.senders then some { s with socket := s.socket.signal, senders := s.senders - 1 }
    else none
  | .close => some { s with closed := true }
  | .park stream v =>
    if s.reactor = .waiting then some { s with slots := Function.update s.slots stream (some v) }
    else none
  | .wake heartbeat =>
    if s.reactor = .waiting ∧ (s.socket.readable || heartbeat) then
      some { s with reactor := .passing }
    else none
  | .take =>
    if s.reactor = .passing then
      some { s with wakeups := [], reactor := .resolving s.wakeups, passes := s.passes + 1 }
    else none
  | .resolve =>
    match s.reactor with
    | .resolving (stream :: rest) => some (s.resolve stream rest)
    | .resolving [] => some { s with reactor := .draining }
    | _ => none
  | .read =>
    if s.reactor = .draining then
      if s.socket.readable then some { s with socket := s.socket.read }
      else some { s with reactor := if s.closed then .stopped else .receiving }
    else none
  | .receive =>
    if s.reactor = .receiving then
      match s.commands with
      | [] => some { s with reactor := if s.closed then .stopped else .waiting }
      | .Shutdown :: rest => some { s with commands := rest, reactor := .stopped }
      | _ :: rest => some { s with commands := rest }
    else none

/-- Nothing owed and nothing sent, on a wake socket of any size. -/
def system : System State Action where
  init s := ∃ capacity, s = { socket := .empty capacity }
  step := step

/-- The reactor does not sleep on an owed wakeup: while it waits and no worker is between its append
and its write, nothing is owed or the socket is readable. -/
def State.Awake (s : State) : Prop :=
  s.reactor = .waiting → (∀ w, s.workers w = none) → s.wakeups = [] ∨ s.socket.readable = true

/-! ## Writes that are in time -/

/-- A worker does not write between the reactor's `take` and the end of that pass's `wake::drain`,
unless the reactor had already taken what the worker appended. -/
def inTime (s : State) : Action → Bool
  | .signal w => !(s.reactor.midPass && s.workers w == some s.passes)
  | _ => true

/-- Some worker is still to write for what it appended since the list was last taken. -/
def State.Coming (s : State) : Prop := ∃ w, s.workers w = some s.passes

/-- What is owed is still to be signalled, or, outside the middle of a pass, the socket is
readable. -/
def Inv (s : State) : Prop :=
  s.wakeups = [] ∨ s.Coming ∨ (s.reactor.midPass = false ∧ s.socket.readable = true)

variable {s : State}

/-- A write leaves the socket readable, and in the middle of a pass it is not the one awaited. -/
theorem Inv.signal (h : Inv s) {w : ℕ} (hw : s.reactor.midPass = true → s.workers w ≠ some s.passes) :
    Inv { s with socket := s.socket.signal, workers := Function.update s.workers w none } := by
  cases hm : s.reactor.midPass with
  | false => exact Or.inr (Or.inr ⟨hm, s.socket.signal_readable⟩)
  | true =>
    rcases h with h | ⟨v, hv⟩ | ⟨hm', -⟩
    · exact Or.inl h
    · have hvw : v ≠ w := by
        rintro rfl
        exact hw hm hv
      refine Or.inr (Or.inl ⟨v, ?_⟩)
      show Function.update s.workers w none v = some s.passes
      rw [Function.update_of_ne hvw]
      exact hv
    · rw [hm] at hm'
      cases hm'

/-- A step that keeps the list and the workers, and reads no byte, keeps the invariant; so does one
in the middle of a pass that reads. -/
theorem Inv.of_frame (h : Inv s) {t : State} (hl : t.wakeups = s.wakeups)
    (hw : t.workers = s.workers) (hp : t.passes = s.passes)
    (hr : s.reactor.midPass = false → s.socket.readable = true →
      t.reactor.midPass = false ∧ t.socket.readable = true) : Inv t := by
  rcases h with h | ⟨v, hv⟩ | ⟨hm, hs⟩
  · exact Or.inl (hl.trans h)
  · exact Or.inr (Or.inl ⟨v, by rw [hw, hp]; exact hv⟩)
  · exact Or.inr (Or.inr (hr hm hs))

/-- **One step that is in time keeps the invariant.** -/
theorem Inv.step (h : Inv s) {a : Action} {t : State} (ha : inTime s a = true)
    (ht : Reactor.step s a = some t) : Inv t := by
  cases a with
  | owe w stream =>
    simp only [Reactor.step, Option.ite_none_right_eq_some, Option.some.injEq] at ht
    obtain ⟨-, rfl⟩ := ht
    exact Or.inr (Or.inl ⟨w, Function.update_self _ _ _⟩)
  | signal w =>
    simp only [Reactor.step, Option.ite_none_right_eq_some, Option.some.injEq] at ht
    obtain ⟨-, rfl⟩ := ht
    refine h.signal fun hm hw => ?_
    simp [inTime, hm, hw] at ha
  | send command =>
    simp only [Reactor.step, Option.ite_none_right_eq_some, Option.some.injEq] at ht
    obtain ⟨-, rfl⟩ := ht
    exact h.of_frame rfl rfl rfl fun hm hs => ⟨hm, hs⟩
  | signalCommand =>
    simp only [Reactor.step, Option.ite_none_right_eq_some, Option.some.injEq] at ht
    obtain ⟨-, rfl⟩ := ht
    exact h.of_frame rfl rfl rfl fun hm _ => ⟨hm, s.socket.signal_readable⟩
  | close =>
    cases ht
    exact h.of_frame rfl rfl rfl fun hm hs => ⟨hm, hs⟩
  | park stream v =>
    simp only [Reactor.step, Option.ite_none_right_eq_some, Option.some.injEq] at ht
    obtain ⟨-, rfl⟩ := ht
    exact h.of_frame rfl rfl rfl fun hm hs => ⟨hm, hs⟩
  | wake heartbeat =>
    simp only [Reactor.step, Option.ite_none_right_eq_some, Option.some.injEq] at ht
    obtain ⟨-, rfl⟩ := ht
    exact h.of_frame rfl rfl rfl fun _ hs => ⟨rfl, hs⟩
  | take =>
    simp only [Reactor.step, Option.ite_none_right_eq_some, Option.some.injEq] at ht
    obtain ⟨-, rfl⟩ := ht
    exact Or.inl rfl
  | resolve =>
    cases hr : s.reactor with
    | resolving streams =>
      -- in the middle of a pass the third alternative of the invariant is not there to keep
      have hmid : s.reactor.midPass = true := by rw [hr]; rfl
      cases streams with
      | nil =>
        simp only [Reactor.step, hr, Option.some.injEq] at ht
        subst ht
        exact h.of_frame rfl rfl rfl fun hm => by rw [hmid] at hm; cases hm
      | cons stream rest =>
        simp only [Reactor.step, hr, Option.some.injEq] at ht
        subst ht
        exact h.of_frame rfl rfl rfl fun hm => by rw [hmid] at hm; cases hm
    | _ => simp [Reactor.step, hr] at ht
  | read =>
    simp only [Reactor.step, Option.ite_none_right_eq_some] at ht
    obtain ⟨hr, ht⟩ := ht
    have hmid : s.reactor.midPass = true := by rw [hr]; rfl
    split_ifs at ht <;> cases ht <;>
      exact h.of_frame rfl rfl rfl fun hm => by rw [hmid] at hm; cases hm
  | receive =>
    simp only [Reactor.step, Option.ite_none_right_eq_some] at ht
    obtain ⟨hr, ht⟩ := ht
    split at ht <;> cases ht
    · exact h.of_frame rfl rfl rfl fun _ hs => ⟨by dsimp only; split_ifs <;> rfl, hs⟩
    · exact h.of_frame rfl rfl rfl fun _ hs => ⟨rfl, hs⟩
    · exact h.of_frame rfl rfl rfl fun hm hs => ⟨hm, hs⟩

theorem Inv.of_reach (h : system.Reach (fun s a => inTime s a) s) : Inv s := by
  refine System.Reach.induct ?_ (fun _ _ _ hi hc ht => hi.step hc ht) h
  rintro s ⟨capacity, rfl⟩
  exact Or.inl rfl

/-- **The reactor never sleeps on an owed wakeup**, in every state of every run in which each write
in the middle of a pass is for an append that the pass has taken. -/
theorem owed_wakeup_readable (s : State) (h : system.Reach (fun s a => inTime s a) s) : s.Awake := by
  intro hw hidle
  rcases Inv.of_reach h with hl | ⟨w, hc⟩ | ⟨-, hr⟩
  · exact Or.inl hl
  · rw [hidle w] at hc
    cases hc
  · exact Or.inr hr

/-- A worker appends in the middle of a pass and writes once the reactor waits. -/
def lateWrite : List Action :=
  [.wake true, .take, .owe 0 5, .resolve, .read, .receive, .signal 0]

theorem owed_wakeup_readable_lateWrite :
    ∃ s, system.runIf inTime { socket := .empty 8 } lateWrite = some s ∧ s.wakeups = [5] ∧ s.Awake :=
  ⟨_, rfl, rfl,
    owed_wakeup_readable _
      (System.reach_of_runIf ⟨8, rfl⟩ (rfl : system.runIf inTime _ lateWrite = some _))⟩

/-- A worker appends after the reactor took the list, and writes before the pass reads the
socket: the byte is gone and the wakeup still owed. -/
def lostWrite : List Action :=
  [.wake true, .take, .owe 0 5, .signal 0, .resolve, .read, .read, .receive]

/-- **A wakeup can be lost**: not every reachable state is awake. -/
theorem owed_wakeup_lost : ¬ ∀ s, system.Reachable s → s.Awake := by
  intro h
  have hs := h _ (System.reach_of_run ⟨8, rfl⟩ (rfl : system.run _ lostWrite = some _))
  have hidle : ∀ w, Function.update (Function.update (fun _ => none) 0 (some 1)) 0 none w =
      (none : Option ℕ) := by
    intro w
    rw [Function.update_idem, Function.update_eq_self_iff.mpr rfl]
  rcases hs rfl hidle with hl | hr
  · cases hl
  · cases hr

end Ruvoy.Reactor
