import Mathlib
import Ruvoy.Lib.Runs
import Ruvoy.Stream.History

/-!
# The waiter slot of a queue

`Park.on` of `ruby/stream.rb`, run by any number of fibers on one queue, beside the reactor of
`FiberBridge::resolve_wakeups` and everything else that may happen to the queue. The slot holds an
`Async::Variable` as an opaque handle, so what it holds must be kept alive by the fiber that made
it.

* `Place`: where a fiber is in `Park.on`;
* `State`, `Action`, `step`: fibers, workers and the reactor, one lock acquisition at a time. The
  reactor's `unpark` and its `resolve` are two steps, with fibers free to move in between: more
  interleavings than the one Ruby thread allows;
* `Inv`: the invariant, kept by each step;
* **`slot_kept_alive`**: what holds in every reachable state.
-/

set_option autoImplicit false

namespace Ruvoy.Park

open Runs

/-- Where a fiber is in `Park.on`. -/
inductive Place
  /-- Not in `Park.on`. -/
  | outside
  /-- The variable is made and the queue not yet asked. -/
  | created (v : Variable)
  /-- In `variable.wait`. -/
  | waiting (v : Variable)
  /-- In the `ensure`, before `queue.unpark`. -/
  | leaving (v : Variable)
  deriving DecidableEq, Repr

/-- The variable a fiber in `Park.on` references. -/
def Place.variable : Place → Option Variable
  | .outside => none
  | .created v | .waiting v | .leaving v => some v

/-- Which end of the queue a fiber waits at. -/
inductive End
  | reader
  | writer
  deriving DecidableEq, Repr

structure State where
  queue : Tracked
  fibers : ℕ → Place := fun _ => .outside
  /-- Variables from here on have not been made. -/
  nextVariable : Variable := 0
  /-- Which fiber made a variable. -/
  creator : Variable → Option ℕ := fun _ => none
  /-- How often the queue is on the list of owed wakeups. -/
  owed : ℕ := 0
  /-- How often it is among those the reactor took and has not unparked. -/
  taken : ℕ := 0
  /-- Unparked by the reactor and not yet resolved. -/
  hand : Option Variable := none
  /-- How often a variable was resolved. -/
  resolved : Variable → ℕ := fun _ => 0

namespace State

variable (s : State)

/-- The variable in the slot. -/
def slot : Option Variable := s.queue.stream.waiter

/-- `Async::Variable.new`. -/
def create (f : ℕ) : State :=
  { s with
    fibers := Function.update s.fibers f (.created s.nextVariable)
    nextVariable := s.nextVariable + 1
    creator := Function.update s.creator s.nextVariable (some f) }

/-- The answer of `queue.park`, which is `park_writer` at a sink. -/
def parks (e : End) (v : Variable) : Bool :=
  match e with
  | .reader => (s.queue.stream.park v).1
  | .writer => (s.queue.stream.parkWriter v).1

/-- `queue.park(variable)`: the fiber waits, or returns at once when the queue refuses. -/
def park (f : ℕ) (e : End) (v : Variable) : State :=
  { s with
    queue := match e with
      | .reader => s.queue.park v
      | .writer => s.queue.parkWriter v
    fibers := Function.update s.fibers f (if s.parks e v then .waiting v else .outside) }

/-- The wait is over: woken, timed out or stopped, the fiber runs the `ensure`. -/
def endWait (f : ℕ) (v : Variable) : State :=
  { s with fibers := Function.update s.fibers f (.leaving v) }

/-- `queue.unpark` in the `ensure`. -/
def leave (f : ℕ) : State :=
  { s with
    queue := s.queue.unpark
    fibers := Function.update s.fibers f .outside }

/-- `stream.unpark()` in `resolve_wakeups`. -/
def unpark : State :=
  { s with queue := s.queue.unpark, taken := s.taken - 1, hand := s.slot }

/-- `resolve` on the variable in hand. -/
def resolve (v : Variable) : State :=
  { s with
    hand := none
    resolved := Function.update s.resolved v (s.resolved v + 1) }

end State

/-- What happens next, and who does it. -/
inductive Action
  | create (fiber : ℕ)
  | park (fiber : ℕ) (e : End)
  | wake (fiber : ℕ)
  | timeOut (fiber : ℕ)
  | stop (fiber : ℕ)
  | leave (fiber : ℕ)
  /-- A worker appends the stream to the list of owed wakeups. -/
  | owe
  /-- The reactor takes the list. -/
  | take
  | unpark
  | resolve
  /-- A push, a take, a cancel or a pause, by anyone. -/
  | op (o : QueueOp)
  deriving DecidableEq, Repr

/-- The operation does not name the slot. -/
def besideSlot : QueueOp → Bool
  | .park _ | .parkWriter _ | .unpark => false
  | _ => true

def step (s : State) : Action → Option State
  | .create f => if s.fibers f = .outside then some (s.create f) else none
  | .park f e =>
    match s.fibers f with
    | .created v => some (s.park f e v)
    | _ => none
  | .wake f =>
    match s.fibers f with
    | .waiting v => if 0 < s.resolved v then some (s.endWait f v) else none
    | _ => none
  | .timeOut f | .stop f =>
    match s.fibers f with
    | .waiting v => some (s.endWait f v)
    | _ => none
  | .leave f =>
    match s.fibers f with
    | .leaving _ => some (s.leave f)
    | _ => none
  | .owe => some { s with owed := s.owed + 1 }
  | .take =>
    if s.taken = 0 ∧ s.hand = none then some { s with owed := 0, taken := s.owed } else none
  | .unpark => if 0 < s.taken ∧ s.hand = none then some s.unpark else none
  | .resolve =>
    match s.hand with
    | some v => some (s.resolve v)
    | none => none
  | .op o => if besideSlot o then some { s with queue := s.queue.apply o } else none

/-- One queue of any size, with no fiber in `Park.on` yet. -/
def system : System State Action where
  init s := ∃ m, s = { queue := Tracked.new m }
  step := step

/-! ## The invariant -/

/-- A variable is referenced by its maker alone; the slot holds one that its maker still
references; and a variable in the slot or in hand has not been resolved. -/
structure Inv (s : State) : Prop where
  refs : ∀ f v, (s.fibers f).variable = some v → v < s.nextVariable ∧ s.creator v = some f
  slot : ∀ v, s.slot = some v →
    (∃ f, (s.fibers f).variable = some v) ∧ s.hand ≠ some v ∧ s.resolved v = 0
  made : ∀ f v, s.fibers f = .created v →
    s.slot ≠ some v ∧ s.hand ≠ some v ∧ s.resolved v = 0
  hand : ∀ v, s.hand = some v → v < s.nextVariable ∧ s.resolved v = 0
  fresh : ∀ v, s.nextVariable ≤ v → s.resolved v = 0
  once : ∀ v, s.resolved v ≤ 1

variable {s : State}

theorem Inv.new (m : ℕ) : Inv { queue := Tracked.new m } where
  refs _ _ h := by cases h
  slot _ h := by cases h
  made _ _ h := by cases h
  hand _ h := by cases h
  fresh _ _ := rfl
  once _ := Nat.zero_le 1

theorem Inv.slot_lt (h : Inv s) {v : Variable} (hv : s.slot = some v) : v < s.nextVariable := by
  obtain ⟨⟨f, hf⟩, -⟩ := h.slot v hv
  exact (h.refs f v hf).1

theorem Inv.create (h : Inv s) {f : ℕ} (hf : s.fibers f = .outside) : Inv (s.create f) where
  refs g v hg := by
    by_cases hgf : g = f
    · subst hgf
      simp only [State.create, Function.update_self, Place.variable, Option.some.injEq] at hg ⊢
      subst hg
      exact ⟨Nat.lt_succ_self _, Function.update_self _ _ _⟩
    · simp only [State.create, Function.update_of_ne hgf] at hg ⊢
      obtain ⟨hlt, hc⟩ := h.refs g v hg
      refine ⟨Nat.lt_succ_of_lt hlt, ?_⟩
      rw [Function.update_of_ne (Nat.ne_of_lt hlt)]
      exact hc
  slot v hv := by
    obtain ⟨⟨g, hg⟩, hrest⟩ := h.slot v hv
    refine ⟨⟨g, ?_⟩, hrest⟩
    have hgf : g ≠ f := by
      rintro rfl
      rw [hf] at hg
      cases hg
    show (Function.update s.fibers f _ g).variable = some v
    rw [Function.update_of_ne hgf]
    exact hg
  made g v hg := by
    by_cases hgf : g = f
    · subst hgf
      simp only [State.create, Function.update_self, Place.created.injEq] at hg
      subst hg
      refine ⟨fun hs => ?_, fun hh => ?_, h.fresh _ le_rfl⟩
      · exact absurd (h.slot_lt hs) (lt_irrefl _)
      · exact absurd (h.hand _ hh).1 (lt_irrefl _)
    · simp only [State.create, Function.update_of_ne hgf] at hg
      exact h.made g v hg
  hand v hv := ⟨Nat.lt_succ_of_lt (h.hand v hv).1, (h.hand v hv).2⟩
  fresh v hv := h.fresh v (Nat.le_of_succ_le hv)
  once := h.once

/-- A fiber moves on with the variable it has: what the others reference is as it was. -/
theorem Inv.refs_update (h : Inv s) {f : ℕ} {p : Place} {v : Variable}
    (hf : (s.fibers f).variable = some v) (hp : p.variable = some v ∨ p = .outside) (g : ℕ)
    (w : Variable) (hg : (Function.update s.fibers f p g).variable = some w) :
    w < s.nextVariable ∧ s.creator w = some g := by
  by_cases hgf : g = f
  · subst hgf
    rw [Function.update_self] at hg
    rcases hp with hp | rfl
    · rw [hp, Option.some.injEq] at hg
      subst hg
      exact h.refs g v hf
    · cases hg
  · rw [Function.update_of_ne hgf] at hg
    exact h.refs g w hg

/-- No other fiber makes a variable when one moves past `queue.park`. -/
theorem Inv.made_update (h : Inv s) {f : ℕ} {p : Place} (hp : ∀ v, p ≠ .created v) (g : ℕ)
    (w : Variable) (hg : Function.update s.fibers f p g = .created w) :
    g ≠ f ∧ s.slot ≠ some w ∧ s.hand ≠ some w ∧ s.resolved w = 0 := by
  by_cases hgf : g = f
  · subst hgf
    rw [Function.update_self] at hg
    exact absurd hg (hp w)
  · rw [Function.update_of_ne hgf] at hg
    exact ⟨hgf, h.made g w hg⟩

theorem Inv.endWait (h : Inv s) {f : ℕ} {v : Variable} (hf : s.fibers f = .waiting v) :
    Inv (s.endWait f v) where
  refs := h.refs_update (by rw [hf]; rfl) (Or.inl rfl)
  slot w hw := by
    obtain ⟨⟨g, hg⟩, hrest⟩ := h.slot w hw
    refine ⟨⟨g, ?_⟩, hrest⟩
    show (Function.update s.fibers f (.leaving v) g).variable = some w
    by_cases hgf : g = f
    · subst hgf
      rw [hf] at hg
      rw [Function.update_self]
      exact hg
    · rw [Function.update_of_ne hgf]
      exact hg
  made g w hg := (h.made_update (p := .leaving v) (fun _ => by rintro ⟨⟩) g w hg).2
  hand := h.hand
  fresh := h.fresh
  once := h.once

theorem Inv.leave (h : Inv s) {f : ℕ} {v : Variable} (hf : s.fibers f = .leaving v) :
    Inv (s.leave f) where
  refs := h.refs_update (by rw [hf]; rfl) (Or.inr rfl)
  slot w hw := by cases hw
  made g w hg := ⟨by rintro ⟨⟩, (h.made_update (p := .outside) (fun _ => by rintro ⟨⟩) g w hg).2.2⟩
  hand := h.hand
  fresh := h.fresh
  once := h.once

/-- After `queue.park` the slot is as it was or holds the fiber's own variable. -/
theorem park_slot (s : State) (f : ℕ) (e : End) (v : Variable) :
    (s.parks e v = false ∧ (s.park f e v).slot = s.slot) ∨
      (s.parks e v = true ∧ (s.park f e v).slot = some v) := by
  cases e with
  | reader =>
    rcases s.queue.stream.park_cases v with ⟨-, h⟩ | ⟨-, -, -, hok, h⟩
    · refine Or.inl ⟨by rw [State.parks, h], ?_⟩
      show (s.queue.stream.park v).2.waiter = _
      rw [h]
      rfl
    · refine Or.inr ⟨hok, ?_⟩
      show (s.queue.stream.park v).2.waiter = _
      rw [h]
  | writer =>
    rcases s.queue.stream.parkWriter_cases v with ⟨-, h⟩ | ⟨-, -, hok, h⟩
    · refine Or.inl ⟨by rw [State.parks, h], ?_⟩
      show (s.queue.stream.parkWriter v).2.waiter = _
      rw [h]
      rfl
    · refine Or.inr ⟨hok, ?_⟩
      show (s.queue.stream.parkWriter v).2.waiter = _
      rw [h]

theorem Inv.park (h : Inv s) {f : ℕ} {v : Variable} (hf : s.fibers f = .created v) (e : End) :
    Inv (s.park f e v) := by
  have hown : (s.fibers f).variable = some v := by rw [hf]; rfl
  obtain ⟨hvs, hvh, hvr⟩ := h.made f v hf
  rcases park_slot s f e v with ⟨hr, hslot⟩ | ⟨hr, hslot⟩
  · -- refused: the fiber is outside again and the slot never held its variable
    have hfib : (s.park f e v).fibers = Function.update s.fibers f .outside := by
      simp only [State.park, hr, Bool.false_eq_true, if_false]
    refine ⟨?_, ?_, ?_, h.hand, h.fresh, h.once⟩
    · rw [hfib]
      exact h.refs_update hown (Or.inr rfl)
    · intro w hw
      rw [hslot] at hw
      obtain ⟨⟨g, hg⟩, hrest⟩ := h.slot w hw
      refine ⟨⟨g, ?_⟩, hrest⟩
      have hgf : g ≠ f := by
        rintro rfl
        rw [hown, Option.some.injEq] at hg
        subst hg
        exact hvs hw
      rw [hfib, Function.update_of_ne hgf]
      exact hg
    · intro g w hg
      rw [hfib] at hg
      rw [hslot]
      exact (h.made_update (p := .outside) (fun _ => by rintro ⟨⟩) g w hg).2
  · -- parked: whatever the slot held before, it now holds the fiber's own variable
    have hfib : (s.park f e v).fibers = Function.update s.fibers f (.waiting v) := by
      simp only [State.park, hr, if_true]
    refine ⟨?_, ?_, ?_, h.hand, h.fresh, h.once⟩
    · rw [hfib]
      exact h.refs_update hown (Or.inl rfl)
    · intro w hw
      rw [hslot, Option.some.injEq] at hw
      subst hw
      refine ⟨⟨f, ?_⟩, hvh, hvr⟩
      rw [hfib, Function.update_self]
      rfl
    · intro g w hg
      rw [hfib] at hg
      obtain ⟨hgf, -, hh, hr'⟩ := h.made_update (p := .waiting v) (fun _ => by rintro ⟨⟩) g w hg
      rw [Function.update_of_ne hgf] at hg
      refine ⟨?_, hh, hr'⟩
      rw [hslot]
      rintro hvw
      rw [Option.some.injEq] at hvw
      subst hvw
      have hcf := (h.refs f v hown).2
      have hcg := (h.refs g v (by rw [hg]; rfl)).2
      rw [hcf, Option.some.injEq] at hcg
      exact hgf hcg.symm

theorem Inv.unpark (h : Inv s) : Inv s.unpark where
  refs := h.refs
  slot v hv := by cases hv
  made f v hf := ⟨by rintro ⟨⟩, (h.made f v hf).1, (h.made f v hf).2.2⟩
  hand v hv := ⟨h.slot_lt hv, (h.slot v hv).2.2⟩
  fresh := h.fresh
  once := h.once

theorem Inv.resolve (h : Inv s) {v : Variable} (hv : s.hand = some v) : Inv (s.resolve v) := by
  obtain ⟨hlt, h0⟩ := h.hand v hv
  have hne : ∀ {w : Variable}, w ≠ v → (s.resolve v).resolved w = s.resolved w :=
    fun hw => Function.update_of_ne hw _ _
  refine ⟨h.refs, ?_, ?_, by rintro _ ⟨⟩, ?_, ?_⟩
  · intro w hw
    obtain ⟨hf, hh, hr⟩ := h.slot w hw
    have hwv : w ≠ v := fun he => hh (he ▸ hv)
    exact ⟨hf, by rintro ⟨⟩, (hne hwv).trans hr⟩
  · intro f w hf
    obtain ⟨hs, hh, hr⟩ := h.made f w hf
    have hwv : w ≠ v := fun he => hh (he ▸ hv)
    exact ⟨hs, by rintro ⟨⟩, (hne hwv).trans hr⟩
  · intro w hw
    have hwv : w ≠ v := fun he => absurd hlt (by rw [← he]; exact Nat.not_lt.mpr hw)
    exact (hne hwv).trans (h.fresh w hw)
  · intro w
    by_cases hwv : w = v
    · subst hwv
      show Function.update s.resolved w (s.resolved w + 1) w ≤ 1
      rw [Function.update_self, h0]
    · rw [hne hwv]
      exact h.once w

/-- Pushes, takes, cancels and pauses leave the slot alone. -/
theorem apply_waiter (t : Tracked) {o : QueueOp} (ho : besideSlot o = true) :
    (t.apply o).stream.waiter = t.stream.waiter := by
  cases o with
  | park | parkWriter | unpark => cases ho
  | takeNext => exact ResponseStream.takeNext_waiter
  | pushChunkWithinBudget b => exact ResponseStream.pushChunkWithinBudget_waiter b
  | pushChunkIfRoom b => exact ResponseStream.pushChunkIfRoom_waiter b
  | pushHead | pushChunk | pushEnd | pushFailure => exact ResponseStream.push_waiter _
  | cancel | setPaused => rfl

/-- The invariant speaks of the queue only through its slot. -/
theorem Inv.of_slot (h : Inv s) {q : Tracked} {m n : ℕ} (hq : q.stream.waiter = s.slot) :
    Inv { s with queue := q, owed := m, taken := n } where
  refs := h.refs
  slot v hv := h.slot v (hq.symm.trans hv)
  made f v hf := ⟨fun hs => (h.made f v hf).1 (hq.symm.trans hs), (h.made f v hf).2⟩
  hand := h.hand
  fresh := h.fresh
  once := h.once

theorem Inv.step (h : Inv s) {a : Action} {t : State} (ht : Park.step s a = some t) : Inv t := by
  cases a with
  | create f =>
    simp only [Park.step, Option.ite_none_right_eq_some, Option.some.injEq] at ht
    obtain ⟨hf, rfl⟩ := ht
    exact h.create hf
  | park f e =>
    cases hf : s.fibers f with
    | created v =>
      simp only [Park.step, hf, Option.some.injEq] at ht
      subst ht
      exact h.park hf e
    | _ => simp [Park.step, hf] at ht
  | wake f | timeOut f | stop f =>
    cases hf : s.fibers f with
    | waiting v =>
      simp only [Park.step, hf, Option.ite_none_right_eq_some, Option.some.injEq] at ht
      first
        | (subst ht; exact h.endWait hf)
        | (obtain ⟨-, rfl⟩ := ht; exact h.endWait hf)
    | _ => simp [Park.step, hf] at ht
  | leave f =>
    cases hf : s.fibers f with
    | leaving v =>
      simp only [Park.step, hf, Option.some.injEq] at ht
      subst ht
      exact h.leave hf
    | _ => simp [Park.step, hf] at ht
  | owe =>
    cases ht
    exact h.of_slot rfl
  | take =>
    simp only [Park.step, Option.ite_none_right_eq_some, Option.some.injEq] at ht
    obtain ⟨-, rfl⟩ := ht
    exact h.of_slot rfl
  | unpark =>
    simp only [Park.step, Option.ite_none_right_eq_some, Option.some.injEq] at ht
    obtain ⟨-, rfl⟩ := ht
    exact h.unpark
  | resolve =>
    cases hv : s.hand with
    | none => simp [Park.step, hv] at ht
    | some v =>
      simp only [Park.step, hv, Option.some.injEq] at ht
      subst ht
      exact h.resolve hv
  | op o =>
    simp only [Park.step, Option.ite_none_right_eq_some, Option.some.injEq] at ht
    obtain ⟨ho, rfl⟩ := ht
    exact h.of_slot (apply_waiter _ ho)

theorem Inv.of_reachable (h : system.Reachable s) : Inv s := by
  refine System.Reach.induct ?_ (fun _ _ _ hi _ ht => hi.step ht) h
  rintro s ⟨m, rfl⟩
  exact .new m

/-! ## The slot -/

/-- **The slot never holds a variable nobody keeps alive.** In every reachable state the fiber that
made the variable in the slot is still in `Park.on` for it, and no variable was resolved twice. -/
theorem slot_kept_alive (s : State) (h : system.Reachable s) :
    (∀ v, s.slot = some v → ∃ f, s.creator v = some f ∧ (s.fibers f).variable = some v) ∧
      ∀ v, s.resolved v ≤ 1 := by
  have hi := Inv.of_reachable h
  refine ⟨fun v hv => ?_, hi.once⟩
  obtain ⟨⟨f, hf⟩, -⟩ := hi.slot v hv
  exact ⟨f, (hi.refs f v hf).2, hf⟩

/-- A writer parks over a reader, and the reader is stopped but has not run its `ensure`. -/
def overwriting : List Action :=
  [.create 0, .park 0 .reader, .create 1, .op (.pushChunk [7]), .park 1 .writer, .stop 0]

theorem slot_kept_alive_overwriting :
    ∃ s, system.run { queue := Tracked.new 1 } overwriting = some s ∧ s.slot = some 1 ∧
      ∃ f, s.creator 1 = some f ∧ (s.fibers f).variable = some 1 :=
  ⟨_, rfl, rfl,
    (slot_kept_alive _
      (System.reach_of_run ⟨1, rfl⟩ (rfl : system.run _ overwriting = some _))).1 1 rfl⟩

end Ruvoy.Park
