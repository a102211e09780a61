import Mathlib

/-!
# Text sliced at byte offsets

A string is the list of its characters, and an offset into it counts the bytes of their UTF-8
encodings. A slice at an offset beyond the end or inside a character is an error.

* `size`, `sliceTo`, `sliceFrom`, and `find` for the offset of a character;
* `stripPrefix`, `splitOnce`, `rsplitOnce`;
* `parse`: an unsigned decimal number, with an optional sign and no more than a bound;
* `sliceTo_size`, `sliceFrom_size`: a slice between two characters is no error;
* `rsplitOnce_append_cons`, **`parse_toDigits`**: a text is split, and a number read, as it was
  written.
-/

set_option autoImplicit false

namespace Text

/-- Why a slice fails. -/
inductive SliceError
  | outOfRange
  | notCharBoundary
  deriving DecidableEq, Repr

/-- The bytes of a text. -/
def size : List Char → ℕ
  | [] => 0
  | c :: s => c.utf8Size + size s

/-- The text before an offset. -/
def sliceTo : List Char → ℕ → Except SliceError (List Char)
  | _, 0 => .ok []
  | [], _ + 1 => .error .outOfRange
  | c :: s, n + 1 =>
    if c.utf8Size ≤ n + 1 then (sliceTo s (n + 1 - c.utf8Size)).map (c :: ·)
    else .error .notCharBoundary

/-- The text from an offset on. -/
def sliceFrom : List Char → ℕ → Except SliceError (List Char)
  | s, 0 => .ok s
  | [], _ + 1 => .error .outOfRange
  | c :: s, n + 1 =>
    if c.utf8Size ≤ n + 1 then sliceFrom s (n + 1 - c.utf8Size) else .error .notCharBoundary

/-- The offset of the first `c`. -/
def find (c : Char) : List Char → Option ℕ
  | [] => none
  | d :: s => if d = c then some 0 else (find c s).map (d.utf8Size + ·)

/-- What follows a first `c`. -/
def stripPrefix (c : Char) : List Char → Option (List Char)
  | [] => none
  | d :: s => if d = c then some s else none

/-- What stands on either side of the first `c`. -/
def splitOnce (c : Char) : List Char → Option (List Char × List Char)
  | [] => none
  | d :: s => if d = c then some ([], s) else (splitOnce c s).map fun p => (d :: p.1, p.2)

/-- What stands on either side of the last `c`. -/
def rsplitOnce (c : Char) : List Char → Option (List Char × List Char)
  | [] => none
  | d :: s =>
    match rsplitOnce c s with
    | some (a, b) => some (d :: a, b)
    | none => if d = c then some ([], s) else none

/-! ## Slices -/

theorem size_append (a b : List Char) : size (a ++ b) = size a + size b := by
  induction a with
  | nil => rw [List.nil_append, size, Nat.zero_add]
  | cons c a ih => rw [List.cons_append, size, size, ih, Nat.add_assoc]

theorem sliceTo_size (a b : List Char) : sliceTo (a ++ b) (size a) = .ok a := by
  induction a with
  | nil => cases b <;> rfl
  | cons c a ih =>
    have hpos := c.utf8Size_pos
    obtain ⟨n, hn⟩ : ∃ n, size (c :: a) = n + 1 := ⟨size (c :: a) - 1, by rw [size]; omega⟩
    have hle : c.utf8Size ≤ n + 1 := by rw [← hn, size]; omega
    have hsub : n + 1 - c.utf8Size = size a := by rw [← hn, size]; omega
    rw [hn, List.cons_append, sliceTo, if_pos hle, hsub, ih]
    rfl

theorem sliceFrom_size (a b : List Char) : sliceFrom (a ++ b) (size a) = .ok b := by
  induction a with
  | nil => cases b <;> rfl
  | cons c a ih =>
    have hpos := c.utf8Size_pos
    obtain ⟨n, hn⟩ : ∃ n, size (c :: a) = n + 1 := ⟨size (c :: a) - 1, by rw [size]; omega⟩
    have hle : c.utf8Size ≤ n + 1 := by rw [← hn, size]; omega
    have hsub : n + 1 - c.utf8Size = size a := by rw [← hn, size]; omega
    rw [hn, List.cons_append, sliceFrom, if_pos hle, hsub, ih]

/-! ## Searches -/

theorem find_append_cons {c : Char} {a : List Char} (h : c ∉ a) (b : List Char) :
    find c (a ++ c :: b) = some (size a) := by
  induction a with
  | nil => simp only [List.nil_append, find, if_pos, size]
  | cons d a ih =>
    rw [List.mem_cons, not_or] at h
    rw [List.cons_append, find, if_neg (Ne.symm h.1), ih h.2]
    rfl

theorem find_of_notMem {c : Char} {s : List Char} (h : c ∉ s) : find c s = none := by
  induction s with
  | nil => rfl
  | cons d s ih =>
    rw [List.mem_cons, not_or] at h
    rw [find, if_neg (Ne.symm h.1), ih h.2]
    rfl

theorem rsplitOnce_of_notMem {c : Char} {s : List Char} (h : c ∉ s) : rsplitOnce c s = none := by
  induction s with
  | nil => rfl
  | cons d s ih =>
    rw [List.mem_cons, not_or] at h
    rw [rsplitOnce, ih h.2]
    exact if_neg (Ne.symm h.1)

/-- **The last `c` is where the right side has none.** -/
theorem rsplitOnce_append_cons {c : Char} {b : List Char} (h : c ∉ b) (a : List Char) :
    rsplitOnce c (a ++ c :: b) = some (a, b) := by
  induction a with
  | nil =>
    rw [List.nil_append, rsplitOnce, rsplitOnce_of_notMem h]
    exact if_pos rfl
  | cons d a ih => rw [List.cons_append, rsplitOnce, ih]

/-- A text with a `c` in it ends with its last `c` and what follows. -/
theorem exists_last {c : Char} {s : List Char} (h : c ∈ s) : ∃ a b, s = a ++ c :: b ∧ c ∉ b := by
  induction s with
  | nil => cases h
  | cons d s ih =>
    by_cases hs : c ∈ s
    · obtain ⟨a, b, rfl, hb⟩ := ih hs
      exact ⟨d :: a, b, rfl, hb⟩
    · have hd : c = d := (List.mem_cons.mp h).resolve_right hs
      exact ⟨[], s, by rw [hd, List.nil_append], hs⟩

/-! ## Numbers -/

/-- The digits after a value, as long as it does not exceed `max`. -/
def parseDigits (max : ℕ) : ℕ → List Char → Option ℕ
  | n, [] => some n
  | n, c :: s =>
    if c.isDigit ∧ 10 * n + (c.toNat - '0'.toNat) ≤ max then
      parseDigits max (10 * n + (c.toNat - '0'.toNat)) s
    else none

/-- An unsigned number: digits, and a plus sign at most before them. -/
def parse (max : ℕ) : List Char → Option ℕ
  | [] => none
  | ['+'] => none
  | '+' :: s => parseDigits max 0 s
  | s => parseDigits max 0 s

theorem le_ofDigitChars (s : List Char) (n : ℕ) : n ≤ Nat.ofDigitChars 10 s n := by
  induction s generalizing n with
  | nil => rw [Nat.ofDigitChars_nil]
  | cons c s ih =>
    rw [Nat.ofDigitChars_cons]
    refine le_trans ?_ (ih _)
    omega

theorem parseDigits_of_le {max : ℕ} {s : List Char} (hs : ∀ c ∈ s, c.isDigit = true) {n : ℕ}
    (h : Nat.ofDigitChars 10 s n ≤ max) : parseDigits max n s = some (Nat.ofDigitChars 10 s n) := by
  induction s generalizing n with
  | nil => rw [parseDigits, Nat.ofDigitChars_nil]
  | cons c s ih =>
    rw [Nat.ofDigitChars_cons] at h ⊢
    have hle := (le_ofDigitChars s _).trans h
    rw [parseDigits, if_pos ⟨hs c List.mem_cons_self, hle⟩]
    exact ih (fun d hd => hs d (List.mem_cons_of_mem c hd)) h

/-- **A number is parsed from its own decimal digits.** -/
theorem parse_toDigits {max n : ℕ} (h : n ≤ max) : parse max (Nat.toDigits 10 n) = some n := by
  have hdigit : ∀ c ∈ Nat.toDigits 10 n, c.isDigit = true := fun c hc =>
    Nat.isDigit_of_mem_toDigits (by decide) (by decide) hc
  have hvalue : Nat.ofDigitChars 10 (Nat.toDigits 10 n) 0 = n := Nat.ofDigitChars_ten_toDigits
  have hparse : parseDigits max 0 (Nat.toDigits 10 n) = some n := by
    rw [parseDigits_of_le hdigit (by rwa [hvalue]), hvalue]
  cases hs : Nat.toDigits 10 n with
  | nil => exact absurd hs Nat.toDigits_ne_nil
  | cons c s =>
    rw [hs] at hparse hdigit
    have hc : c ≠ '+' := by
      rintro rfl
      exact absurd (hdigit '+' List.mem_cons_self) (by decide)
    rw [parse]
    · exact hparse
    · rintro ⟨⟩
    · intro hcs
      exact hc (List.cons.inj hcs).1
    · intro r hcs
      exact hc (List.cons.inj hcs).1

end Text
