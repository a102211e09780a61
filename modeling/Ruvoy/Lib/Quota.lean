import Mathlib

/-!
# Lending out of a fixed capacity

What an admission limit is for, apart from how it counts: it lends amounts as long as they fit and
takes them back one by one. A `Quota` is the loans that are out, with the proof that together they
fit.

* `Quota.lend`, `Quota.release`: the two operations, and what each does to the total;
* `Quota.le_sum`: a loan is at most the total;
* `Quota.Moves`: one quota comes from another by at most one operation.
-/

set_option autoImplicit false

namespace Lending

variable {α : Type} [AddCommMonoid α] [PartialOrder α]

/-- The loans that are out. -/
structure Quota (capacity : α) where
  lent : Multiset α
  fits : lent.sum ≤ capacity

namespace Quota

variable {capacity : α} (q : Quota capacity)

/-- Lend an amount that fits. -/
def lend (n : α) (h : q.lent.sum + n ≤ capacity) : Quota capacity where
  lent := n ::ₘ q.lent
  fits := by rwa [Multiset.sum_cons, add_comm]

@[simp] theorem lend_lent {n : α} (h : q.lent.sum + n ≤ capacity) :
    (q.lend n h).lent = n ::ₘ q.lent := rfl

theorem lend_sum {n : α} (h : q.lent.sum + n ≤ capacity) : (q.lend n h).lent.sum = q.lent.sum + n := by
  rw [lend_lent, Multiset.sum_cons, add_comm]

variable [CanonicallyOrderedAdd α] [DecidableEq α]

/-- Nothing is lent. -/
def empty (capacity : α) : Quota capacity where
  lent := 0
  fits := by rw [Multiset.sum_zero]; exact zero_le

/-- Take a loan back. -/
def release (n : α) (h : n ∈ q.lent) : Quota capacity where
  lent := q.lent.erase n
  fits := by
    refine le_trans ?_ q.fits
    rw [← Multiset.sum_erase h, add_comm]
    exact le_self_add

@[simp] theorem release_lent {n : α} (h : n ∈ q.lent) : (q.release n h).lent = q.lent.erase n := rfl

theorem release_sum {n : α} (h : n ∈ q.lent) : n + (q.release n h).lent.sum = q.lent.sum :=
  Multiset.sum_erase h

theorem le_sum {n : α} (h : n ∈ q.lent) : n ≤ q.lent.sum := by
  rw [← release_sum q h]
  exact le_self_add

/-- Nothing happens, or one amount is lent or one loan taken back. -/
inductive Moves : Quota capacity → Quota capacity → Prop
  | stay (q : Quota capacity) : Moves q q
  | lend (q : Quota capacity) (n : α) (h : q.lent.sum + n ≤ capacity) : Moves q (q.lend n h)
  | release (q : Quota capacity) (n : α) (h : n ∈ q.lent) : Moves q (q.release n h)

end Quota

end Lending
