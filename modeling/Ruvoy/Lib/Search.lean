import Mathlib

/-!
# Finding a word in a text

Where a word occurs in a text, the first such place, and what a search through a part of the text says
about the whole of it.

* `Occurs sep text i`: the word stands at place `i`;
* `First sep text start i`: the first place at or after `start`;
* `index`: the first place of all, computed, with **`index_eq_some_iff`** and `index_eq_none_iff`;
* `occurs_append`, `occurs_window`: places in a longer text, and in a window cut out of one;
* `pieces`: a text cut into pieces of one size.
-/

set_option autoImplicit false

namespace Search

variable {α : Type} {sep text more : List α} {i start : ℕ}

/-- The word stands at place `i` of the text. -/
def Occurs (sep text : List α) (i : ℕ) : Prop := sep <+: text.drop i

/-- The first place at or after `start`. -/
structure First (sep text : List α) (start i : ℕ) : Prop where
  le : start ≤ i
  occurs : Occurs sep text i
  least : ∀ j, start ≤ j → j < i → ¬ Occurs sep text j

theorem Occurs.add_le (h : Occurs sep text i) (hs : sep ≠ []) : i + sep.length ≤ text.length := by
  have hle := h.length_le
  have hpos := List.length_pos_iff.mpr hs
  rw [List.length_drop] at hle
  omega

/-- A place in a longer text, when the shorter one reaches that far. -/
theorem occurs_append (h : i + sep.length ≤ text.length) :
    Occurs sep (text ++ more) i ↔ Occurs sep text i := by
  have hlen : sep.length ≤ (text.drop i).length := by
    rw [List.length_drop]
    omega
  unfold Occurs
  rw [List.drop_append_of_le_length (by omega)]
  constructor
  · intro hp
    exact List.prefix_of_prefix_length_le hp (List.prefix_append _ _) hlen
  · intro hp
    exact hp.trans (List.prefix_append _ _)

theorem occurs_drop (k : ℕ) : Occurs sep (text.drop k) i ↔ Occurs sep text (k + i) := by
  unfold Occurs
  rw [List.drop_drop]

theorem occurs_window {k n : ℕ} (h : i + sep.length ≤ n) :
    Occurs sep ((text.drop k).take n) i ↔ Occurs sep text (k + i) := by
  rw [← occurs_drop]
  unfold Occurs
  rw [List.drop_take, List.prefix_take_iff]
  constructor
  · exact And.left
  · intro hp
    exact ⟨hp, by omega⟩

/-- The first place of a text is that of every longer one. -/
theorem First.append (h : First sep text start i) (hs : sep ≠ []) :
    First sep (text ++ more) start i where
  le := h.le
  occurs := (occurs_append (h.occurs.add_le hs)).mpr h.occurs
  least j hj hlt := by
    have hle := h.occurs.add_le hs
    rw [occurs_append (by omega)]
    exact h.least j hj hlt

/-! ## The first place, computed -/

section Index

variable [DecidableEq α]

/-- The first place of the word in the text. -/
def index (text sep : List α) : Option ℕ :=
  (List.range (text.length + 1)).find? fun i => sep.isPrefixOf (text.drop i)

/-- **The first place is found.** -/
theorem index_eq_some_iff (hs : sep ≠ []) : index text sep = some i ↔ First sep text 0 i := by
  rw [index, List.find?_range_eq_some]
  simp only [List.isPrefixOf_iff_prefix, List.mem_range, Bool.not_eq_true', ← Bool.not_eq_true]
  constructor
  · rintro ⟨ho, -, hl⟩
    exact ⟨Nat.zero_le i, ho, fun j _ hj => hl j hj⟩
  · intro h
    have hle := h.occurs.add_le hs
    exact ⟨h.occurs, by omega, fun j hj => h.least j (Nat.zero_le j) hj⟩

theorem index_eq_none_iff (hs : sep ≠ []) : index text sep = none ↔ ∀ i, ¬ Occurs sep text i := by
  rw [index, List.find?_range_eq_none]
  simp only [List.isPrefixOf_iff_prefix, Bool.not_eq_true', ← Bool.not_eq_true]
  constructor
  · intro h i ho
    have hle := ho.add_le hs
    exact h i (by omega) ho
  · exact fun h i _ => h i

/-- What is found in the rest of a text is the first place from there on. -/
theorem index_drop_eq_some (hs : sep ≠ []) (h : First sep text start i) :
    index (text.drop start) sep = some (i - start) := by
  have hle := h.le
  refine (index_eq_some_iff hs).mpr ⟨Nat.zero_le _, ?_, fun j _ hj => ?_⟩
  · rw [occurs_drop, Nat.add_sub_cancel' hle]
    exact h.occurs
  · rw [occurs_drop]
    exact h.least _ (Nat.le_add_right _ _) (by omega)

theorem index_drop_eq_none (hs : sep ≠ []) (h : ∀ j, start ≤ j → ¬ Occurs sep text j) :
    index (text.drop start) sep = none := by
  refine (index_eq_none_iff hs).mpr fun j hj => ?_
  rw [occurs_drop] at hj
  exact h _ (Nat.le_add_right _ _) hj

end Index

/-! ## Pieces -/

/-- The text cut into pieces of a size, as far as the fuel goes. -/
def piecesIn (size : ℕ) : ℕ → List α → List (List α)
  | 0, _ => []
  | fuel + 1, text =>
    match text with
    | [] => []
    | x :: xs => (x :: xs).take size :: piecesIn size fuel ((x :: xs).drop size)

/-- The text cut into pieces of a size, the last of which may be shorter. -/
def pieces (size : ℕ) (text : List α) : List (List α) := piecesIn size text.length text

@[simp] theorem pieces_nil (size : ℕ) : pieces size ([] : List α) = [] := rfl

theorem piecesIn_of_le {size fuel : ℕ} (hsize : 0 < size) (h : text.length ≤ fuel) :
    piecesIn size fuel text = pieces size text := by
  induction fuel using Nat.strong_induction_on generalizing text with
  | _ fuel ih =>
    cases text with
    | nil => cases fuel <;> rfl
    | cons x xs =>
      cases fuel with
      | zero => simp at h
      | succ k =>
        simp only [List.length_cons] at h
        have hlen : ((x :: xs).drop size).length ≤ xs.length := by
          rw [List.length_drop, List.length_cons]
          omega
        rw [pieces, List.length_cons, piecesIn, piecesIn, ih k (by omega) (by omega)]
        rcases Nat.lt_or_ge xs.length (k + 1) with hlt | hge
        · rw [ih xs.length hlt hlen]
        · omega

/-- **The first piece, and the pieces of the rest.** -/
theorem pieces_of_ne_nil {size : ℕ} (hsize : 0 < size) (h : text ≠ []) :
    pieces size text = text.take size :: pieces size (text.drop size) := by
  obtain ⟨x, xs, rfl⟩ := List.exists_cons_of_ne_nil h
  rw [pieces, List.length_cons, piecesIn, piecesIn_of_le hsize]
  rw [List.length_drop, List.length_cons]
  omega

end Search
