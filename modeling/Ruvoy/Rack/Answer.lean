import Ruvoy.Rack.Model

/-!
# When a response is answered

* `Tracked.Settled`: the queue has accepted an item that nothing follows, or was cancelled; no
  operation undoes this;
* `proceed_over`: where the code of the runtime gets to the end of `respond`;
* **`step_answers`**: a fiber that returns without an error leaves its queue settled.
-/

set_option autoImplicit false

namespace Ruvoy

/-! ## Settled queues -/

namespace Tracked

/-- The queue has ended, or nobody is there to read it. -/
def Settled (t : Tracked) : Prop := t.stream.cancelled = true ∨ t.stream.ended = true

variable {t : Tracked}

theorem settled_of_shut (h : (t.stream.cancelled || t.stream.ended) = true) : t.Settled := by
  simpa [Settled] using h

/-- **No operation unsettles a queue.** -/
theorem Settled.apply (h : t.Settled) (op : QueueOp) : (t.apply op).Settled := by
  rcases h with hc | he
  · left
    rw [apply_cancelled, hc, Bool.true_or]
  · right
    have hshut : (t.stream.cancelled || t.stream.ended) = true := by rw [he, Bool.or_true]
    rw [← any_terminal, apply_accepted_of_shut hshut, any_terminal]
    exact he

theorem settled_push (t : Tracked) {x : StreamItem} (hx : x.terminal = true) :
    (t.push x).Settled := by
  rcases t.push_cases x with ⟨hs, h⟩ | ⟨-, -, hacc, -, -⟩
  · rw [h]
    exact settled_of_shut hs
  · right
    rw [← any_terminal, hacc, List.any_append]
    simp [hx]

/-- What a settled queue has accepted, when it was not cancelled. -/
theorem Settled.cases (h : t.Settled) :
    t.stream.cancelled = true ∨ .End ∈ t.accepted ∨ ∃ e, .Failed e ∈ t.accepted := by
  refine h.imp id fun he => ?_
  rw [← any_terminal, List.any_eq_true] at he
  obtain ⟨x, hx, hterm⟩ := he
  cases x with
  | Head head => cases hterm
  | Chunk bytes => cases hterm
  | End => exact Or.inl hx
  | Failed e => exact Or.inr ⟨e, hx⟩

end Tracked

/-! ## The fiber of a response -/

namespace Rack

variable {V : Type} {s t : State V}

/-- `respond` has returned without an error. -/
def Pc.over : Pc → Bool
  | .closeInput (.ok _) | .returned (.ok _) => true
  | _ => false

theorem over_afterReader (s : State V) (r : Except String Unit) : (s.afterReader r).pc.over = false := by
  cases r <;> rfl

/-- The code of the runtime gets to the end of `respond` only with a settled queue. -/
theorem proceed_over (ht : s.proceed = some t) (hover : t.pc.over = true) :
    s.pc.over = true ∧ t.stream = s.stream ∨ t.stream.Settled := by
  cases hp : s.pc with
  | respond =>
    simp only [State.proceed, hp] at ht
    split at ht <;> cases ht <;> cases hover
  | pushHead head =>
    simp only [State.proceed, hp, Option.some.injEq] at ht
    subst ht
    right
    rcases s.stream.push_cases (.Head head) with ⟨hs, h⟩ | ⟨hc, he, -, -, -⟩
    · exact h.symm ▸ Tracked.settled_of_shut hs
    · -- an open queue takes the head, and the body reader is next
      have hok : (s.stream.stream.pushHead head).1 = true :=
        (ResponseStream.push_of_open hc he (.Head head)).1
      rw [hok] at hover
      cases hover
  | reader | writing chunk offset =>
    simp only [State.proceed, hp] at ht
    split_ifs at ht <;> cases ht <;> cases hover
  | detach | closeWrite =>
    simp only [State.proceed, hp, Option.some.injEq] at ht
    subst ht
    cases hover
  | park chunk offset =>
    simp only [State.proceed, hp, Option.some.injEq] at ht
    subst ht
    dsimp only at hover
    split_ifs at hover <;> cases hover
  | unpark chunk offset stopped =>
    simp only [State.proceed, hp, Option.some.injEq] at ht
    subst ht
    cases stopped <;> cases hover
  | push chunk offset =>
    simp only [State.proceed, hp] at ht
    split at ht
    · cases ht
      cases hover
    · cases ht
      dsimp only at hover
      split_ifs at hover <;> cases hover
  | ensure result =>
    simp only [State.proceed, hp] at ht
    split_ifs at ht
    · cases ht
      cases hover
    · cases ht
      rw [over_afterReader] at hover
      cases hover
  | pushEnd =>
    simp only [State.proceed, hp, Option.some.injEq] at ht
    subst ht
    exact Or.inr (s.stream.settled_push rfl)
  | closeInput result =>
    simp only [State.proceed, hp, Option.some.injEq] at ht
    subst ht
    refine Or.inl ⟨?_, rfl⟩
    cases result with
    | ok u => rfl
    | error e => cases hover
  | body | parked | refused | closing | returned => simp [State.proceed, hp] at ht

/-- **A fiber that returns without an error leaves its queue settled.** -/
theorem step_answers {a : Action} (h : s.pc.over = true → s.stream.Settled)
    (ht : step s a = some t) (hover : t.pc.over = true) : t.stream.Settled := by
  cases a with
  | proceed =>
    rcases proceed_over ht hover with ⟨hs, hst⟩ | hset
    · rw [hst]
      exact h hs
    · exact hset
  | yields chunk =>
    cases hp : s.pc with
    | body =>
      simp only [step, State.yields, hp] at ht
      split_ifs at ht
      · cases ht
        rw [hp] at hover
        cases hover
      · cases ht
        cases hover
    | _ => simp [step, State.yields, hp] at ht
  | closesWrite =>
    cases hp : s.pc with
    | body =>
      simp only [step, hp] at ht
      split_ifs at ht
      cases ht
      have hpc : s.closeWrite.pc = s.pc := by
        unfold State.closeWrite
        split_ifs <;> rfl
      rw [hpc, hp] at hover
      cases hover
    | _ => simp [step, hp] at ht
  | returns =>
    cases hp : s.pc with
    | body =>
      simp only [step, State.returns, hp, Option.some.injEq] at ht
      subst ht
      dsimp only at hover
      split_ifs at hover <;> cases hover
    | refused =>
      simp only [step, State.returns, hp, Option.some.injEq] at ht
      subst ht
      cases hover
    | closing result =>
      simp only [step, State.returns, hp, Option.some.injEq] at ht
      subst ht
      rw [over_afterReader] at hover
      cases hover
    | _ => simp [step, State.returns, hp] at ht
  | raises error =>
    cases hp : s.pc with
    | detach | body | refused =>
      simp only [step, State.raises, hp, Option.some.injEq] at ht
      subst ht
      cases hover
    | closing result =>
      simp only [step, State.raises, hp, Option.some.injEq] at ht
      subst ht
      rw [over_afterReader] at hover
      cases hover
    | _ => simp [step, State.raises, hp] at ht
  | stop =>
    cases hp : s.pc with
    | parked v chunk offset =>
      simp only [step, hp, Option.some.injEq] at ht
      subst ht
      cases hover
    | _ => simp [step, hp] at ht
  | resolve =>
    simp only [step, Option.some.injEq] at ht
    subst ht
    have hpc : s.resolve.pc.over = true → s.pc.over = true := by
      intro ho
      cases hp : s.pc with
      | parked v chunk offset =>
        simp only [State.resolve, hp] at ho
        split_ifs at ho <;> cases ho
      | _ => simpa only [State.resolve, hp] using ho
    have hst : s.resolve.stream = s.stream.apply .unpark := by
      unfold State.resolve
      split
      · split_ifs <;> rfl
      · rfl
    rw [hst]
    exact (h (hpc hover)).apply .unpark
  | queue op =>
    simp only [step, Option.some.injEq] at ht
    subst ht
    exact (h hover).apply op

end Rack

end Ruvoy
