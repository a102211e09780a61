import Mathlib

/-!
# Runs of an executable transition system

A system is a set of initial states and a partial step function: `step s a = none` says that
action `a` is not enabled in `s`. Interleavings of several parties are runs of one system whose
actions name the party that moves.

* `System.run`: the state after a list of actions, and `System.runIf`, where each action also meets
  a condition;
* `System.Reach C`: the states reached by steps that all meet the condition `C`, and
  `System.Reachable`, where `C` asks nothing;
* `of_guard`: what an enabled step that is guarded leaves;
* `Reach.induct`, `Reach.inductOn`: the two invariant rules;
* `System.Leads A P`: some of the parties, taking the actions in `A`, can get to `P`;
* `reach_of_run`, `reach_of_runIf`: a run, evaluated on concrete actions, reaches its last state;
* `System.recording`: a system with notes taken of its steps, `Reach.inductNoted`, its invariant rule,
  and what its runs have to do with those of the system.
-/

set_option autoImplicit false

namespace Runs

/-- A guarded step was enabled, and led where it leads. -/
theorem of_guard {σ : Type} {p : Prop} [Decidable p] {s t : σ}
    (h : (if p then some s else none) = some t) : p ∧ s = t := by
  simpa using h

/-- A transition system with an executable, partial step function. -/
structure System (σ α : Type) where
  init : σ → Prop
  step : σ → α → Option σ

namespace System

variable {σ α : Type} (S : System σ α)

/-- The state after the actions of a list, when each of them is enabled in turn. -/
def run : σ → List α → Option σ
  | s, [] => some s
  | s, a :: as => (S.step s a).bind fun t => run t as

/-- The same, when each action also meets `c` in the state it is taken in. -/
def runIf (c : σ → α → Bool) : σ → List α → Option σ
  | s, [] => some s
  | s, a :: as => if c s a then (S.step s a).bind fun t => runIf c t as else none

/-- The states reached from an initial one by steps that meet `C`. -/
inductive Reach (C : σ → α → Prop) : σ → Prop
  | init {s : σ} : S.init s → Reach C s
  | step {s t : σ} {a : α} : Reach C s → C s a → S.step s a = some t → Reach C t

/-- The states reached from an initial one by any steps. -/
abbrev Reachable : σ → Prop := S.Reach fun _ _ => True

/-- Some run of actions in `A` leads from here to a state in `P`. -/
inductive Leads (A : α → Prop) (P : σ → Prop) : σ → Prop
  | here {s : σ} : P s → Leads A P s
  | next {s t : σ} {a : α} : A a → S.step s a = some t → Leads A P t → Leads A P s

variable {S} {C D : σ → α → Prop}

@[simp] theorem run_nil (s : σ) : S.run s [] = some s := rfl

theorem run_cons (s : σ) (a : α) (as : List α) :
    S.run s (a :: as) = (S.step s a).bind fun t => S.run t as := rfl

/-- **Invariant rule.** -/
theorem Reach.induct {P : σ → Prop} (h0 : ∀ s, S.init s → P s)
    (hs : ∀ s a t, P s → C s a → S.step s a = some t → P t) {s : σ} (h : S.Reach C s) : P s := by
  induction h with
  | init hi => exact h0 _ hi
  | step _ hc ht ih => exact hs _ _ _ ih hc ht

/-- **Invariant rule relative to another invariant.** -/
theorem Reach.inductOn {P Q : σ → Prop} (hQ : ∀ s, S.Reach C s → Q s) (h0 : ∀ s, S.init s → P s)
    (hs : ∀ s a t, Q s → P s → C s a → S.step s a = some t → P t) {s : σ} (h : S.Reach C s) :
    P s := by
  induction h with
  | init hi => exact h0 _ hi
  | step hr hc ht ih => exact hs _ _ _ (hQ _ hr) ih hc ht

/-- An invariant of the steps in `A` holds where they lead. -/
theorem Leads.inv {A : α → Prop} {P I : σ → Prop}
    (hI : ∀ s a t, A a → I s → S.step s a = some t → I t) {s : σ} (hl : S.Leads A P s) (h : I s) :
    S.Leads A (fun t => P t ∧ I t) s := by
  induction hl with
  | here hp => exact .here ⟨hp, h⟩
  | next ha ht _ ih => exact .next ha ht (ih (hI _ _ _ ha h ht))

theorem Leads.bind {A : α → Prop} {P Q : σ → Prop} {s : σ} (hl : S.Leads A P s)
    (hPQ : ∀ t, P t → S.Leads A Q t) : S.Leads A Q s := by
  induction hl with
  | here hp => exact hPQ _ hp
  | next ha ht _ ih => exact .next ha ht ih

/-- **A rank that falls at every step but the last leads there.** -/
theorem Leads.of_rank {β : Type} [LT β] [WellFoundedLT β] (rank : σ → β) {A : α → Prop} {P I : σ → Prop}
    (hstep : ∀ s, I s → ∃ a t, A a ∧ S.step s a = some t ∧ (P t ∨ I t ∧ rank t < rank s)) {s : σ}
    (h : I s) : S.Leads A P s := by
  induction hr : rank s using WellFoundedLT.induction generalizing s with
  | ind r ih =>
    subst hr
    obtain ⟨a, t, ha, ht, hp | ⟨hi, hlt⟩⟩ := hstep s h
    · exact .next ha ht (.here hp)
    · exact .next ha ht (ih _ hlt hi rfl)

/-- **A reachable state leads on**, when as long as it is not there some step of it falls. -/
theorem Leads.of_reach {β : Type} [LT β] [WellFoundedLT β] (rank : σ → β) {A : α → Prop} {P K : σ → Prop}
    (hstep : ∀ s, S.Reachable s → K s → ¬ P s → ∃ a t, A a ∧ S.step s a = some t ∧ K t ∧ rank t < rank s)
    {s : σ} (h : S.Reachable s) (hk : K s) : S.Leads A (fun t => K t ∧ P t) s := by
  by_cases hp : P s
  · exact .here ⟨hk, hp⟩
  · refine Leads.of_rank rank (I := fun t => S.Reachable t ∧ K t ∧ ¬ P t) ?_ ⟨h, hk, hp⟩
    rintro t ⟨ht, hkt, hpt⟩
    obtain ⟨a, u, ha, hu, hku, hlt⟩ := hstep t ht hkt hpt
    refine ⟨a, u, ha, hu, ?_⟩
    by_cases hpu : P u
    · exact Or.inl ⟨hku, hpu⟩
    · exact Or.inr ⟨⟨.step ht trivial hu, hku, hpu⟩, hlt⟩

theorem Leads.mono {A B : α → Prop} {P : σ → Prop} {s : σ} (hl : S.Leads A P s)
    (hAB : ∀ a, A a → B a) : S.Leads B P s := by
  induction hl with
  | here hp => exact .here hp
  | next ha ht _ ih => exact .next (hAB _ ha) ht ih

/-- Fewer conditions on the steps reach more states. -/
theorem Reach.mono (hCD : ∀ s a, C s a → D s a) {s : σ} (h : S.Reach C s) : S.Reach D s := by
  induction h with
  | init hi => exact .init hi
  | step _ hc ht ih => exact .step ih (hCD _ _ hc) ht

/-- A run whose every action meets `c` stays among the states reached by such actions. -/
theorem Reach.runIf {c : σ → α → Bool} {s t : σ} {as : List α} (h : S.Reach (fun s a => c s a) s)
    (hr : S.runIf c s as = some t) : S.Reach (fun s a => c s a) t := by
  induction as generalizing s with
  | nil => cases hr; exact h
  | cons a as ih =>
    rw [System.runIf] at hr
    split_ifs at hr with hc
    cases ha : S.step s a with
    | none => rw [ha] at hr; cases hr
    | some u =>
      rw [ha] at hr
      exact ih (.step h hc ha) hr

theorem Reach.run {s t : σ} {as : List α} (h : S.Reachable s) (hr : S.run s as = some t) :
    S.Reachable t := by
  induction as generalizing s with
  | nil => cases hr; exact h
  | cons a as ih =>
    rw [run_cons] at hr
    cases ha : S.step s a with
    | none => rw [ha] at hr; cases hr
    | some u =>
      rw [ha] at hr
      exact ih (.step h trivial ha) hr

/-- **A run reaches its last state.** -/
theorem reach_of_run {s t : σ} {as : List α} (hi : S.init s) (hr : S.run s as = some t) :
    S.Reachable t :=
  Reach.run (.init hi) hr

theorem reach_of_runIf {c : σ → α → Bool} {s t : σ} {as : List α} (hi : S.init s)
    (hr : S.runIf c s as = some t) : S.Reach (fun s a => c s a) t :=
  Reach.runIf (.init hi) hr

/-! ## Notes of a run -/

/-- The system with notes beside its state: `note` adds to them at every step, and no step reads
them. -/
def recording {η : Type} (S : System σ α) (first : η) (note : σ → α → η → η) :
    System (σ × η) α where
  init p := S.init p.1 ∧ p.2 = first
  step p a := (S.step p.1 a).map fun t => (t, note p.1 a p.2)

section Recording

variable {η : Type} {first : η} {note : σ → α → η → η}

theorem recording_step {p q : σ × η} {a : α} :
    (S.recording first note).step p a = some q ↔
      S.step p.1 a = some q.1 ∧ q.2 = note p.1 a p.2 := by
  rw [recording, Option.map_eq_some_iff]
  constructor
  · rintro ⟨t, ht, rfl⟩
    exact ⟨ht, rfl⟩
  · rintro ⟨ht, hq⟩
    exact ⟨q.1, ht, by rw [← hq]⟩

/-- **Invariant rule with notes**: an invariant of states and of what was noted on the way. -/
theorem Reach.inductNoted {D : σ × η → α → Prop} {P : σ → η → Prop}
    (h0 : ∀ s, S.init s → P s first)
    (hs : ∀ s e a t, P s e → D (s, e) a → S.step s a = some t → P t (note s a e)) {p : σ × η}
    (h : (S.recording first note).Reach D p) : P p.1 p.2 := by
  induction h with
  | init hi =>
    rw [hi.2]
    exact h0 _ hi.1
  | step _ hc ht ih =>
    obtain ⟨hstep, hnote⟩ := recording_step.mp ht
    rw [hnote]
    exact hs _ _ _ _ ih hc hstep

theorem Reach.record {s : σ} (h : S.Reachable s) : ∃ e, (S.recording first note).Reachable (s, e) := by
  induction h with
  | init hi => exact ⟨first, .init ⟨hi, rfl⟩⟩
  | step _ _ ht ih =>
    obtain ⟨e, hr⟩ := ih
    exact ⟨_, hr.step trivial (recording_step.mpr ⟨ht, rfl⟩)⟩

theorem Reach.forget {D : σ × η → α → Prop} (hD : ∀ p a, D p a → C p.1 a) {p : σ × η}
    (h : (S.recording first note).Reach D p) : S.Reach C p.1 := by
  induction h with
  | init hi => exact .init hi.1
  | step _ hc ht ih => exact .step ih (hD _ _ hc) (recording_step.mp ht).1

end Recording

end System

end Runs
