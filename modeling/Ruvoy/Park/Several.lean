import Ruvoy.Park.Slot

/-!
# Several fibers at one queue

The slot of a queue holds one variable. A fiber that parks puts its own there, and one that leaves
`Park.on` empties it, whatever it holds.

* `State.busy`: some fiber waits on the queue, or has waited and not yet left `Park.on`;
* `oneAtATime`: a fiber that would have to wait asks to be parked only while no other does;
* `WaitInv`: then at most one fiber waits or leaves, and one that waits and was not resolved is in the
  slot or in the reactor's hand;
* **`waiting_in_slot`**: what holds then, and that the fiber gets to run again;
* `waiting_fiber_lost`: a second writer parks over the first.
-/

set_option autoImplicit false

namespace Ruvoy.Park

open Runs

/-- A fiber in `variable.wait`, or on its way out of it. -/
def Place.held : Place → Bool
  | .waiting _ | .leaving _ => true
  | .outside | .created _ => false

/-- Some fiber is. -/
def State.busy (s : State) : Bool :=
  (List.range s.nextVariable).any fun v =>
    match s.creator v with
    | none => false
    | some f => (s.fibers f).held

/-- A reader would find nothing to read, or a writer no room. -/
def State.mustWait (s : State) : End → Bool
  | .reader => !(decide (s.queue.stream.bufferedBytes > 0) || s.queue.stream.ended ||
      s.queue.stream.cancelled)
  | .writer => !s.queue.stream.cancelled && s.queue.stream.full

/-- A fiber that would have to wait asks to be parked only while no other fiber waits, or has yet to
leave `Park.on`. -/
def oneAtATime (s : State) : Action → Bool
  | .park _ e => !s.mustWait e || !s.busy
  | _ => true

/-- A fiber in `variable.wait` has its variable in the slot, or the reactor has it in hand. -/
structure WaitInv (s : State) : Prop where
  one : ∀ f g, (s.fibers f).held = true → (s.fibers g).held = true → f = g
  waits : ∀ f v, s.fibers f = .waiting v → s.resolved v = 0 → s.slot = some v ∨ s.hand = some v

variable {s t : State}

theorem Place.held_variable {p : Place} (h : p.held = true) : ∃ v, p.variable = some v := by
  cases p with
  | outside | created v => cases h
  | waiting v | leaving v => exact ⟨v, rfl⟩

/-- **The queue is busy exactly when some fiber waits or leaves.** -/
theorem Inv.busy_iff (h : Inv s) : s.busy = true ↔ ∃ f, (s.fibers f).held = true := by
  simp only [State.busy, List.any_eq_true, List.mem_range]
  constructor
  · rintro ⟨v, -, hv⟩
    cases hc : s.creator v with
    | none =>
      rw [hc] at hv
      cases hv
    | some f =>
      rw [hc] at hv
      exact ⟨f, hv⟩
  · rintro ⟨f, hf⟩
    obtain ⟨v, hv⟩ := Place.held_variable hf
    obtain ⟨hlt, hc⟩ := h.refs f v hv
    refine ⟨v, hlt, ?_⟩
    rw [hc]
    exact hf

/-- The queue parks a fiber exactly when it would have to wait. -/
theorem parks_eq_mustWait (e : End) (v : Variable) : s.parks e v = s.mustWait e := by
  cases e with
  | reader =>
    simp only [State.parks, State.mustWait, ResponseStream.park, ResponseStreamInner.park]
    split_ifs with h
    · simp only [h, Bool.not_true]
    · simp only [h, Bool.not_false]
  | writer =>
    simp only [State.parks, State.mustWait, ResponseStream.parkWriter, ResponseStreamInner.parkWriter]
    rw [← ResponseStream.full]
    cases s.queue.stream.cancelled <;> cases s.queue.stream.full <;> rfl

theorem WaitInv.move (h : WaitInv s) {f : ℕ} {p : Place} (hp : ∀ v, p ≠ .waiting v)
    (hheld : p.held = true → (s.fibers f).held = true)
    (hf : t.fibers = Function.update s.fibers f p) (hs : t.slot = s.slot) (hh : t.hand = s.hand)
    (hr : t.resolved = s.resolved) : WaitInv t where
  one g g' hg hg' := by
    have hback : ∀ i, (t.fibers i).held = true → (s.fibers i).held = true := by
      intro i hi
      rw [hf] at hi
      by_cases hif : i = f
      · subst hif
        rw [Function.update_self] at hi
        exact hheld hi
      · rw [Function.update_of_ne hif] at hi
        exact hi
    exact h.one g g' (hback g hg) (hback g' hg')
  waits g v hg hv := by
    rw [hs, hh]
    rw [hr] at hv
    rw [hf] at hg
    by_cases hgf : g = f
    · subst hgf
      rw [Function.update_self] at hg
      exact absurd hg (hp v)
    · rw [Function.update_of_ne hgf] at hg
      exact h.waits g v hg hv

theorem WaitInv.park (h : WaitInv s) (hi : Inv s) {f : ℕ} {v : Variable} {e : End}
    (hc : oneAtATime s (.park f e) = true) : WaitInv (s.park f e v) := by
  rcases park_slot s f e v with ⟨hr, hslot⟩ | ⟨hr, hslot⟩
  · refine h.move (f := f) (p := .outside) (fun _ => by rintro ⟨⟩) (by rintro ⟨⟩) ?_ hslot rfl rfl
    simp only [State.park, hr, Bool.false_eq_true, if_false]
  · have hno : ∀ g, (s.fibers g).held ≠ true := by
      intro g hg
      have hbusy := hi.busy_iff.mpr ⟨g, hg⟩
      rw [parks_eq_mustWait] at hr
      simp only [oneAtATime, hr, hbusy, Bool.not_true, Bool.or_self] at hc
      cases hc
    have hfib : (s.park f e v).fibers = Function.update s.fibers f (.waiting v) := by
      simp only [State.park, hr, if_true]
    have honly : ∀ g, ((s.park f e v).fibers g).held = true → g = f := by
      intro g hg
      by_contra hgf
      rw [hfib, Function.update_of_ne hgf] at hg
      exact hno g hg
    refine ⟨fun g g' hg hg' => (honly g hg).trans (honly g' hg').symm, fun g w hg _ => ?_⟩
    have hgf := honly g (by rw [hg]; rfl)
    rw [hgf, hfib, Function.update_self] at hg
    cases hg
    exact Or.inl hslot

/-- A fiber that leaves was the only one held, so that what it takes out of the slot is nobody's. -/
theorem WaitInv.leave (h : WaitInv s) {f : ℕ} {v : Variable} (hf : s.fibers f = .leaving v) :
    WaitInv (s.leave f) := by
  have hnone : ∀ g, ((s.leave f).fibers g).held ≠ true := by
    intro g hg
    have hg' : (Function.update s.fibers f .outside g).held = true := hg
    by_cases hgf : g = f
    · rw [hgf, Function.update_self] at hg'
      cases hg'
    · rw [Function.update_of_ne hgf] at hg'
      exact hgf (h.one g f hg' (by rw [hf]; rfl))
  exact ⟨fun g _ hg => absurd hg (hnone g), fun g w hg => absurd (by rw [hg]; rfl) (hnone g)⟩

theorem WaitInv.unpark (h : WaitInv s) (hnone : s.hand = none) : WaitInv s.unpark where
  one := h.one
  waits f v hf hv := by
    refine Or.inr ((h.waits f v hf hv).resolve_right fun hh => ?_)
    rw [hnone] at hh
    cases hh

theorem WaitInv.resolve (h : WaitInv s) {v : Variable} (hv : s.hand = some v) :
    WaitInv (s.resolve v) where
  one := h.one
  waits f w hf hw := by
    have hw' : Function.update s.resolved v (s.resolved v + 1) w = 0 := hw
    by_cases hwv : w = v
    · subst hwv
      rw [Function.update_self] at hw'
      omega
    · rw [Function.update_of_ne hwv] at hw'
      refine Or.inl ((h.waits f w hf hw').resolve_right fun hh => hwv ?_)
      rw [hv, Option.some.injEq] at hh
      exact hh.symm

theorem WaitInv.step (h : WaitInv s) (hi : Inv s) {a : Action} (hc : oneAtATime s a = true)
    (ht : step s a = some t) : WaitInv t := by
  cases a with
  | create f =>
    simp only [Park.step, Option.ite_none_right_eq_some, Option.some.injEq] at ht
    obtain ⟨-, rfl⟩ := ht
    exact h.move (fun _ => by rintro ⟨⟩) (by rintro ⟨⟩) rfl rfl rfl rfl
  | park f e =>
    cases hf : s.fibers f with
    | created v =>
      simp only [Park.step, hf, Option.some.injEq] at ht
      subst ht
      exact h.park hi hc
    | _ => simp [Park.step, hf] at ht
  | wake f =>
    cases hf : s.fibers f with
    | waiting v =>
      simp only [Park.step, hf, Option.ite_none_right_eq_some, Option.some.injEq] at ht
      obtain ⟨-, rfl⟩ := ht
      exact h.move (fun _ => by rintro ⟨⟩) (fun _ => by rw [hf]; rfl) rfl rfl rfl rfl
    | _ => simp [Park.step, hf] at ht
  | timeOut f | stop f =>
    cases hf : s.fibers f with
    | waiting v =>
      simp only [Park.step, hf, Option.some.injEq] at ht
      subst ht
      exact h.move (fun _ => by rintro ⟨⟩) (fun _ => by rw [hf]; rfl) rfl rfl rfl rfl
    | _ => simp [Park.step, hf] at ht
  | leave f =>
    cases hf : s.fibers f with
    | leaving v =>
      simp only [Park.step, hf, Option.some.injEq] at ht
      subst ht
      exact h.leave hf
    | _ => simp [Park.step, hf] at ht
  | owe =>
    cases ht
    exact ⟨h.one, h.waits⟩
  | take =>
    simp only [Park.step, Option.ite_none_right_eq_some, Option.some.injEq] at ht
    obtain ⟨-, rfl⟩ := ht
    exact ⟨h.one, h.waits⟩
  | unpark =>
    simp only [Park.step, Option.ite_none_right_eq_some, Option.some.injEq] at ht
    obtain ⟨⟨-, hnone⟩, rfl⟩ := ht
    exact h.unpark hnone
  | resolve =>
    cases hv : s.hand with
    | none => simp [Park.step, hv] at ht
    | some v =>
      simp only [Park.step, hv, Option.some.injEq] at ht
      subst ht
      exact h.resolve hv
  | op o =>
    simp only [Park.step, Option.ite_none_right_eq_some, Option.some.injEq] at ht
    obtain ⟨ho, rfl⟩ := ht
    exact ⟨h.one, fun f v hf hv => (h.waits f v hf hv).imp (apply_waiter _ ho).trans id⟩

theorem WaitInv.of_reach (h : system.Reach (fun s a => oneAtATime s a = true) s) : WaitInv s := by
  refine h.inductOn (Q := Inv) (fun s hs => ?_) ?_ fun s a t hi hs hc ht => hs.step hi hc ht
  · exact Inv.of_reachable (hs.mono fun _ _ _ => trivial)
  · rintro s ⟨m, rfl⟩
    exact ⟨by rintro f g ⟨⟩, by rintro f v ⟨⟩⟩

/-- **A fiber that waits is not lost**, when one fiber at a time waits on the queue: its variable is in
the slot, or in the hand of the reactor that is about to resolve it, until it is resolved; and once a
wakeup that was owed is resolved, the fiber gets to run again. -/
theorem waiting_in_slot (h : system.Reach (fun s a => oneAtATime s a = true) s) {f : ℕ} {v : Variable}
    (hf : s.fibers f = .waiting v) (hv : s.resolved v = 0) :
    (s.slot = some v ∨ s.hand = some v) ∧
      ∀ t, system.run s [.unpark, .resolve] = some t → (step t (.wake f)).isSome = true := by
  have hin := (WaitInv.of_reach h).waits f v hf hv
  refine ⟨hin, fun t ht => ?_⟩
  rw [System.run_cons] at ht
  obtain ⟨u, hu, ht⟩ := Option.bind_eq_some_iff.mp ht
  have hu' : (if 0 < s.taken ∧ s.hand = none then some s.unpark else none) = some u := hu
  simp only [Option.ite_none_right_eq_some, Option.some.injEq] at hu'
  obtain ⟨⟨-, hnone⟩, rfl⟩ := hu'
  have hslot : s.slot = some v := hin.resolve_right fun hh => by rw [hnone] at hh; cases hh
  have hstep : system.step s.unpark .resolve = some (s.unpark.resolve v) := by
    show Park.step s.unpark .resolve = _
    rw [Park.step, show s.unpark.hand = some v from hslot]
  rw [System.run_cons, hstep] at ht
  cases ht
  have hwake : 0 < (s.unpark.resolve v).resolved v := by
    show 0 < Function.update s.resolved v (s.resolved v + 1) v
    rw [Function.update_self]
    omega
  rw [Park.step, show (s.unpark.resolve v).fibers f = .waiting v from hf]
  simp only [hwake, if_true, Option.isSome_some]

/-- A writer parks on a full queue, and after room was made another one does. -/
def oneAfterAnother : List Action :=
  [.op (.pushChunk [7]), .create 0, .park 0 .writer, .op .takeNext, .owe, .take, .unpark, .resolve,
    .wake 0, .leave 0, .op (.pushChunk [8]), .create 1, .park 1 .writer, .op .takeNext, .owe, .take]

theorem waiting_in_slot_oneAfterAnother :
    ∃ s, system.runIf oneAtATime { queue := Tracked.new 1 } oneAfterAnother = some s ∧
      s.fibers 1 = .waiting 1 ∧ s.resolved 1 = 0 ∧ (s.slot = some 1 ∨ s.hand = some 1) := by
  have hr : system.runIf oneAtATime { queue := Tracked.new 1 } oneAfterAnother = some _ := rfl
  have hin := waiting_in_slot (System.reach_of_runIf ⟨1, rfl⟩ hr) (f := 1) (v := 1) rfl rfl
  exact ⟨_, hr, rfl, rfl, hin.1⟩

/-- Two writers park on a full queue. -/
def parkedTwice : List Action :=
  [.op (.pushChunk [7]), .create 0, .park 0 .writer, .create 1, .park 1 .writer]

/-- The first fiber waits for a variable that nobody holds to resolve. -/
theorem waiting_fiber_lost :
    ¬ ∀ s, system.Reachable s → ∀ f v, s.fibers f = .waiting v → s.resolved v = 0 →
      s.slot = some v ∨ s.hand = some v := by
  intro hall
  have hr : system.run { queue := Tracked.new 1 } parkedTwice = some _ := rfl
  have hno := hall _ (System.reach_of_run ⟨1, rfl⟩ hr) 0 0 rfl rfl
  rcases hno with hno | hno <;> cases hno

end Ruvoy.Park
