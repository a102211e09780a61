import Mathlib

/-!
# Scripts with what they rely on

A script is a list of accesses still to be made. An outline says of each access which facts have to
hold when it is made and which it brings about, given those that hold. A script is valid from a set
of facts when every access finds what it relies on, among the facts held at first and those brought
about on the way.

* `Outline.next`, `Outline.after`: the facts after one access, and after a script;
* `Outline.Valid`: every access finds what it relies on;
* `valid_append`, `Valid.append`, `valid_flatMap`, `Valid.mono`: how valid scripts are put together.
-/

set_option autoImplicit false

/-- What accesses rely on and bring about. -/
structure Outline (μ φ : Type) where
  needs : μ → φ → Prop
  gives : (φ → Prop) → μ → φ → Prop
  gives_mono : ∀ {P Q : φ → Prop} {m : μ} {f : φ}, (∀ g, P g → Q g) → gives P m f → gives Q m f

namespace Outline

variable {μ φ : Type} (o : Outline μ φ)

/-- The facts after an access. -/
def next (P : φ → Prop) (m : μ) (f : φ) : Prop := P f ∨ o.gives P m f

/-- The facts after a script. -/
def after (P : φ → Prop) : List μ → φ → Prop
  | [] => P
  | m :: l => after (o.next P m) l

/-- Every access finds what it relies on. -/
def Valid (P : φ → Prop) : List μ → Prop
  | [] => True
  | m :: l => (∀ f, o.needs m f → P f) ∧ Valid (o.next P m) l

variable {o} {P Q : φ → Prop} {l l' : List μ}

theorem next_mono (h : ∀ f, P f → Q f) (m : μ) (f : φ) : o.next P m f → o.next Q m f :=
  Or.imp (h f) (o.gives_mono h)

theorem after_mono (h : ∀ f, P f → Q f) (f : φ) : o.after P l f → o.after Q l f := by
  induction l generalizing P Q with
  | nil => exact h f
  | cons m l ih => exact ih (next_mono h m)

theorem le_after (f : φ) (h : P f) : o.after P l f := by
  induction l generalizing P with
  | nil => exact h
  | cons m l ih => exact ih (Or.inl h)

theorem Valid.mono (h : ∀ f, P f → Q f) (hv : o.Valid P l) : o.Valid Q l := by
  induction l generalizing P Q with
  | nil => trivial
  | cons m l ih => exact ⟨fun f hf => h f (hv.1 f hf), ih (next_mono h m) hv.2⟩

theorem valid_append : o.Valid P (l ++ l') ↔ o.Valid P l ∧ o.Valid (o.after P l) l' := by
  induction l generalizing P with
  | nil => simp only [List.nil_append, Valid, after, true_and]
  | cons m l ih =>
    rw [List.cons_append, Valid, Valid, ih, and_assoc]
    rfl

/-- Two scripts that rely on nothing of each other. -/
theorem Valid.append (h : o.Valid P l) (h' : o.Valid P l') : o.Valid P (l ++ l') :=
  valid_append.mpr ⟨h, h'.mono le_after⟩

theorem after_append : o.after P (l ++ l') = o.after (o.after P l) l' := by
  induction l generalizing P with
  | nil => rfl
  | cons m l ih => exact ih

theorem valid_flatMap {β : Type} {bs : List β} {f : β → List μ} (h : ∀ b ∈ bs, o.Valid P (f b)) :
    o.Valid P (bs.flatMap f) := by
  induction bs with
  | nil => trivial
  | cons b bs ih =>
    rw [List.flatMap_cons]
    exact (h b List.mem_cons_self).append (ih fun c hc => h c (List.mem_cons_of_mem b hc))

/-- What one part of a script brings about holds after the whole. -/
theorem after_flatMap {β : Type} {bs : List β} {f : β → List μ} {b : β} (hb : b ∈ bs) {g : φ}
    (hg : o.after P (f b) g) : o.after P (bs.flatMap f) g := by
  induction bs with
  | nil => cases hb
  | cons c bs ih =>
    rw [List.flatMap_cons, after_append]
    rcases List.mem_cons.mp hb with rfl | hmem
    · exact le_after g hg
    · exact after_mono le_after g (ih hmem)

end Outline
