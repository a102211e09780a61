import Mathlib

/-!
# A queue with a doorbell

Any number of producers put items on a queue and then ring a bell; one consumer sleeps until the bell
rings, silences it and then takes items until the queue is empty. Queue and bell are touched one at a
time, by anyone, and the bell may ring without an item. A final item ends the consumer.

* `Bell`: the queue, the bell and the consumer, with what was sent and received so far;
* `Moves`: what may happen next;
* `Ok`: the invariant, and **`Moves.ok`**: whatever happens keeps it;
* `Ok.received_final`: what was received once a final item was.
-/

set_option autoImplicit false

namespace Doorbell

/-- What was sent and received so far. -/
structure Log (ι : Type) where
  sent : List ι := []
  received : List ι := []

/-- Where the consumer is. -/
inductive Phase
  /-- Until the bell rings. -/
  | waiting
  /-- It will take items until the queue is empty. -/
  | awake
  | stopped
  deriving DecidableEq, Repr

structure Bell (ι : Type) extends Log ι where
  queue : List ι
  rung : Bool
  /-- Producers that put an item on the queue and have not rung yet. -/
  ringers : ℕ
  phase : Phase

variable {ι : Type} (final : ι → Bool)

/-- One thing that may happen. -/
inductive Moves : Bell ι → Bell ι → Prop
  | stay (b : Bell ι) : Moves b b
  | send (b : Bell ι) (x : ι) :
      Moves b { b with sent := b.sent ++ [x], queue := b.queue ++ [x], ringers := b.ringers + 1 }
  | ring (b : Bell ι) : Moves b { b with rung := true, ringers := b.ringers - 1 }
  /-- Someone rings who sent nothing. -/
  | ringAlso (b : Bell ι) : Moves b { b with rung := true }
  | wake (b : Bell ι) (h : b.phase = .waiting) : Moves b { b with phase := .awake }
  /-- The consumer reads the bell, which may be rung again before it is done. -/
  | silence (b : Bell ι) (rung : Bool) (h : b.phase = .awake) : Moves b { b with rung := rung }
  | receive (b : Bell ι) (x : ι) (rest : List ι) (h : b.phase = .awake) (hq : b.queue = x :: rest)
      (hx : final x = false) : Moves b { b with received := b.received ++ [x], queue := rest }
  | finish (b : Bell ι) (x : ι) (rest : List ι) (h : b.phase = .awake) (hq : b.queue = x :: rest)
      (hx : final x = true) :
      Moves b { b with received := b.received ++ [x], queue := rest, phase := .stopped }
  | sleep (b : Bell ι) (h : b.phase = .awake) (hq : b.queue = []) :
      Moves b { b with phase := .waiting }
  | stop (b : Bell ι) : Moves b { b with phase := .stopped }

/-- Items are received in the order in which they were sent, none after a final one, and the consumer
does not sleep on an item that was rung for. -/
structure Ok (b : Bell ι) : Prop where
  conserve : b.received ++ b.queue = b.sent
  heard : b.phase = .waiting → b.ringers = 0 → b.queue = [] ∨ b.rung = true
  before : ∀ x ∈ b.received.dropLast, final x = false
  last : b.phase ≠ .stopped → ∀ x ∈ b.received, final x = false

variable {final} {b c : Bell ι}

/-- Nothing was sent yet. -/
def Bell.new : Bell ι where
  sent := []
  received := []
  queue := []
  rung := false
  ringers := 0
  phase := .waiting

theorem Ok.new : Ok final (Bell.new : Bell ι) where
  conserve := rfl
  heard _ _ := Or.inl rfl
  before x h := by cases h
  last _ x h := by cases h

theorem Ok.conserve_take (h : Ok final b) {x : ι} {rest : List ι} (hq : b.queue = x :: rest) :
    (b.received ++ [x]) ++ rest = b.sent := by
  rw [← h.conserve, hq, List.append_assoc]
  rfl

theorem Ok.before_take (h : Ok final b) (hp : b.phase = .awake) (x : ι) :
    ∀ y ∈ (b.received ++ [x]).dropLast, final y = false := by
  rw [List.dropLast_concat]
  exact h.last (by rw [hp]; rintro ⟨⟩)

/-- **Whatever happens keeps the invariant.** -/
theorem Moves.ok (hm : Moves final b c) (h : Ok final b) : Ok final c := by
  cases hm with
  | stay => exact h
  | send x =>
    refine ⟨?_, ?_, h.before, h.last⟩
    · change b.received ++ (b.queue ++ [x]) = b.sent ++ [x]
      rw [← List.append_assoc, h.conserve]
    · intro _ hr
      exact absurd hr (Nat.succ_ne_zero _)
  | ring => exact ⟨h.conserve, fun _ _ => Or.inr rfl, h.before, h.last⟩
  | ringAlso => exact ⟨h.conserve, fun _ _ => Or.inr rfl, h.before, h.last⟩
  | wake hp =>
    have hne : b.phase ≠ .stopped := by rw [hp]; rintro ⟨⟩
    exact ⟨h.conserve, by rintro ⟨⟩, h.before, fun _ => h.last hne⟩
  | silence rung hp =>
    refine ⟨h.conserve, fun hw => ?_, h.before, h.last⟩
    rw [show b.phase = .waiting from hw] at hp
    cases hp
  | receive x rest hp hq hx =>
    refine ⟨h.conserve_take hq, fun hw => ?_, h.before_take hp x, fun hne y hy => ?_⟩
    · rw [show b.phase = .waiting from hw] at hp
      cases hp
    · rcases List.mem_append.mp hy with hy | hy
      · exact h.last hne y hy
      · rw [List.mem_singleton.mp hy]
        exact hx
  | finish x rest hp hq hx =>
    exact ⟨h.conserve_take hq, by rintro ⟨⟩, h.before_take hp x, fun hne => absurd rfl hne⟩
  | sleep hp hq =>
    have hne : b.phase ≠ .stopped := by rw [hp]; rintro ⟨⟩
    exact ⟨h.conserve, fun _ _ => Or.inl hq, h.before, fun _ => h.last hne⟩
  | stop => exact ⟨h.conserve, by rintro ⟨⟩, h.before, fun hne => absurd rfl hne⟩

/-- **A final item is received after everything sent before it**, and nothing after it. -/
theorem Ok.received_final (h : Ok final b) {x : ι} (hm : x ∈ b.received) (hx : final x = true) :
    b.received = b.sent.takeWhile (fun y => !final y) ++ [x] := by
  have hne : b.received ≠ [] := List.ne_nil_of_mem hm
  obtain ⟨l, y, hl⟩ : ∃ l y, b.received = l ++ [y] :=
    ⟨_, _, (List.dropLast_append_getLast hne).symm⟩
  have hbefore := h.before
  rw [hl, List.dropLast_concat] at hbefore
  have hxy : x = y := by
    rw [hl, List.mem_append, List.mem_singleton] at hm
    exact hm.resolve_left fun hxl => by rw [hbefore x hxl] at hx; cases hx
  subst hxy
  rw [← h.conserve, hl, List.append_assoc, List.takeWhile_append_of_pos fun z hz => by
    rw [hbefore z hz]; rfl]
  simp [hx]

end Doorbell
