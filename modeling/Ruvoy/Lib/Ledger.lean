import Mathlib

/-!
# The ledger of a first-in first-out queue

What a queue is for, apart from how it is implemented: it accepts items, hands them out in
acceptance order, may discard everything it holds once and for all, and accepts nothing after a
final item. A `Ledger` is the history of such a queue together with the proofs that nothing else
ever becomes of an accepted item, so a queue that is shown to move along with a ledger inherits
them.

* `Sealed final l`: only the last element of `l` may be final;
* `Ledger.accept`, `Ledger.take`, `Ledger.discard` and what each does to the history;
* `Ledger.conserve`, `Ledger.taken_prefix`, `Ledger.final_last`: the invariants, carried as fields.
-/

set_option autoImplicit false

namespace Fifo

variable {ι : Type} {final : ι → Bool}

/-! ## Lists with at most one final element -/

/-- Only the last element may be final. -/
def Sealed (final : ι → Bool) (l : List ι) : Prop := ∀ x ∈ l.dropLast, final x = false

theorem sealed_nil : Sealed final [] := by simp [Sealed]

/-- A list without a final element may be extended by anything. -/
theorem sealed_concat {l : List ι} (h : l.any final = false) (x : ι) : Sealed final (l ++ [x]) := by
  intro y hy
  rw [List.dropLast_concat] at hy
  rw [List.any_eq_false] at h
  simpa using h y hy

/-- What follows a final element is nothing. -/
theorem Sealed.nil_of_append_cons {l r : List ι} {x : ι} (h : Sealed final (l ++ x :: r))
    (hx : final x = true) : r = [] := by
  by_contra hr
  have hmem : x ∈ (l ++ x :: r).dropLast := by
    rw [List.dropLast_append_of_ne_nil (by simp), List.dropLast_cons_of_ne_nil hr]
    simp
  rw [h x hmem] at hx
  exact Bool.noConfusion hx

/-- At most one element of a sealed list is final. -/
theorem Sealed.countP_le_one {l : List ι} (h : Sealed final l) : l.countP final ≤ 1 := by
  rcases List.eq_nil_or_concat l with rfl | ⟨r, x, rfl⟩
  · simp
  · rw [List.concat_eq_append] at h ⊢
    have hr : r.countP final = 0 := by
      rw [List.countP_eq_zero]
      intro y hy
      simp [h y (by rw [List.dropLast_concat]; exact hy)]
    rw [List.countP_append, hr, Nat.zero_add]
    exact (List.countP_le_length).trans (by simp)

/-! ## Ledgers -/

/-- The history of a queue: what it accepted, what was taken off it and what it still holds. -/
structure Ledger (final : ι → Bool) where
  accepted : List ι
  taken : List ι
  queued : List ι
  discarded : Bool
  conserve : discarded = false → taken ++ queued = accepted
  taken_prefix : taken <+: accepted
  queued_nil : discarded = true → queued = []
  final_last : Sealed final accepted

namespace Ledger

variable (l : Ledger final)

/-- The history of a new queue. -/
def empty : Ledger final where
  accepted := []
  taken := []
  queued := []
  discarded := false
  conserve _ := rfl
  taken_prefix := List.nil_prefix
  queued_nil := by rintro ⟨⟩
  final_last := sealed_nil

/-- A final item has been accepted. -/
def closed : Bool := l.accepted.any final

/-- Accept an item, unless the queue was discarded or closed. -/
def accept (x : ι) : Ledger final :=
  if h : l.discarded = true ∨ l.closed = true then l
  else
    { accepted := l.accepted ++ [x]
      taken := l.taken
      queued := l.queued ++ [x]
      discarded := l.discarded
      conserve := fun hd => by rw [← List.append_assoc, l.conserve hd]
      taken_prefix := l.taken_prefix.trans (List.prefix_append _ _)
      queued_nil := fun hd => absurd (Or.inl hd) h
      final_last := sealed_concat (by simpa [closed] using fun hc => h (Or.inr hc)) x }

/-- Hand out the oldest item. -/
def take : Ledger final :=
  match hq : l.queued with
  | [] => l
  | x :: rest =>
    { accepted := l.accepted
      taken := l.taken ++ [x]
      queued := rest
      discarded := l.discarded
      conserve := fun hd => by rw [List.append_assoc, ← l.conserve hd, hq]; rfl
      taken_prefix := by
        have hd : l.discarded = false := by
          by_contra hc
          rw [l.queued_nil (by simpa using hc)] at hq
          cases hq
        rw [← l.conserve hd, hq]
        exact ⟨rest, by rw [List.append_assoc]; rfl⟩
      queued_nil := fun hd => by rw [l.queued_nil hd] at hq; cases hq
      final_last := l.final_last }

/-- Throw away what is queued, for good. -/
def discard : Ledger final where
  accepted := l.accepted
  taken := l.taken
  queued := []
  discarded := true
  conserve := by rintro ⟨⟩
  taken_prefix := l.taken_prefix
  queued_nil _ := rfl
  final_last := l.final_last

variable {l}

theorem accept_of_open (hd : l.discarded = false) (hc : l.closed = false) (x : ι) :
    (l.accept x).accepted = l.accepted ++ [x] ∧ (l.accept x).taken = l.taken ∧
      (l.accept x).queued = l.queued ++ [x] ∧ (l.accept x).discarded = false := by
  have h : ¬ (l.discarded = true ∨ l.closed = true) := by simp [hd, hc]
  rw [accept, dif_neg h]
  exact ⟨rfl, rfl, rfl, hd⟩

theorem take_of_cons {x : ι} {rest : List ι} (h : l.queued = x :: rest) :
    l.take.accepted = l.accepted ∧ l.take.taken = l.taken ++ [x] ∧ l.take.queued = rest ∧
      l.take.discarded = l.discarded := by
  unfold take
  split
  · next hq => rw [h] at hq; cases hq
  · next y r hq =>
    rw [h] at hq
    cases hq
    exact ⟨rfl, rfl, rfl, rfl⟩

end Ledger

end Fifo
