import Mathlib
import Ruvoy.Lib.Runs
import Ruvoy.Lib.Quota

/-!
# The admission budget

`Budget` of `src/budget.rs`, used by any number of threads, one atomic operation at a time. A read
that is not the read of a successful exchange may return any value the counter has had: the load
and the failing exchanges are relaxed, and a weak exchange may fail for no reason.

* `Place`: where a thread is in `Budget::try_acquire`;
* `State`, `Action`, `step`: the counter, its earlier values, the live leases and the threads;
* `Refines`: the counter is the total of a `Quota` that lends what the threads and leases hold;
* `Inv`: the invariant, and `step_moves`: every step lends, takes back or leaves the quota;
* **`budget_lends_within_capacity`**: what holds in every reachable state.
-/

set_option autoImplicit false

namespace Ruvoy.Admission

open Runs Lending

-- the width of a `usize`, and the number of threads
variable {w n : ℕ}

/-- `usize::saturating_sub`. -/
def saturatingSub (a b : BitVec w) : BitVec w := if b ≤ a then a - b else 0

/-- Where a thread is in `Budget::try_acquire`. -/
inductive Place (w : ℕ)
  | outside
  /-- In `take`, before the load. -/
  | loading (amount : BitVec w)
  /-- At the top of the loop. -/
  | checking (amount used : BitVec w)
  /-- Before `compare_exchange_weak`. -/
  | exchanging (amount used : BitVec w)
  /-- `take` returned true, and the lease is not built yet. -/
  | taken (amount : BitVec w)
  /-- `try_acquire` returned `None`. -/
  | refused (amount : BitVec w)
  deriving DecidableEq, Repr

/-- What a thread took and has not put in a lease. -/
def Place.holds : Place w → Multiset ℕ
  | .taken amount => {amount.toNat}
  | _ => 0

structure State (w n : ℕ) where
  /-- `Ceiling::used`. -/
  used : BitVec w := 0
  /-- The values it had before. -/
  earlier : List (BitVec w) := []
  /-- The live leases, each with what it holds. -/
  leases : List (BitVec w) := []
  threads : Fin n → Place w := fun _ => .outside

namespace State

variable (s : State w n)

/-- A thread moves on. -/
def move (i : Fin n) (p : Place w) : State w n :=
  { s with threads := Function.update s.threads i p }

@[simp] theorem threads_move (i : Fin n) (p : Place w) :
    (s.move i p).threads = Function.update s.threads i p := rfl

/-- A read may return this. -/
def observable (v : BitVec w) : Bool := decide (v ∈ s.used :: s.earlier)

/-- The counter is written. -/
def write (v : BitVec w) : State w n :=
  { s with used := v, earlier := s.used :: s.earlier }

end State

/-- What happens next; for a read, the value it returns. -/
inductive Action (w n : ℕ)
  | call (i : Fin n) (amount : BitVec w)
  | load (i : Fin n) (v : BitVec w)
  /-- `amount > capacity.saturating_sub(used)`. -/
  | check (i : Fin n)
  /-- The exchange succeeds. -/
  | exchange (i : Fin n)
  /-- It fails, spuriously or because the counter is not what was expected. -/
  | fail (i : Fin n) (v : BitVec w)
  /-- The `Lease` is built and returned. -/
  | lease (i : Fin n)
  /-- The caller goes on after `None`. -/
  | leave (i : Fin n)
  /-- The lease at an index is dropped, by any thread. -/
  | drop (k : ℕ)
  deriving DecidableEq, Repr

def step (capacity : BitVec w) (s : State w n) : Action w n → Option (State w n)
  | .call i amount =>
    match s.threads i with
    | .outside => some (s.move i (.loading amount))
    | _ => none
  | .load i v =>
    match s.threads i with
    | .loading amount => if s.observable v then some (s.move i (.checking amount v)) else none
    | _ => none
  | .check i =>
    match s.threads i with
    | .checking amount used =>
      if saturatingSub capacity used < amount then some (s.move i (.refused amount))
      else some (s.move i (.exchanging amount used))
    | _ => none
  | .exchange i =>
    match s.threads i with
    | .exchanging amount used =>
      if s.used = used then some ((s.write (used + amount)).move i (.taken amount)) else none
    | _ => none
  | .fail i v =>
    match s.threads i with
    | .exchanging amount _ => if s.observable v then some (s.move i (.checking amount v)) else none
    | _ => none
  | .lease i =>
    match s.threads i with
    | .taken amount =>
      some { s.move i .outside with leases := s.leases ++ [amount] }
    | _ => none
  | .leave i =>
    match s.threads i with
    | .refused _ => some (s.move i .outside)
    | _ => none
  | .drop k =>
    match s.leases[k]? with
    | some held => some { s.write (s.used - held) with leases := s.leases.eraseIdx k }
    | none => none

/-- `Budget::new(capacity)`, shared by the threads. -/
def system (n : ℕ) (capacity : BitVec w) : System (State w n) (Action w n) where
  init s := s = {}
  step := step capacity

/-! ## What a step can do -/

/-- A thread moves without writing the counter. -/
inductive Moves (capacity : BitVec w) (s : State w n) (i : Fin n) :
    Action w n → Place w → Place w → Prop
  | call (amount : BitVec w) : Moves capacity s i (.call i amount) .outside (.loading amount)
  | load (amount v : BitVec w) (h : s.observable v = true) :
      Moves capacity s i (.load i v) (.loading amount) (.checking amount v)
  | refuse (amount used : BitVec w) (h : saturatingSub capacity used < amount) :
      Moves capacity s i (.check i) (.checking amount used) (.refused amount)
  | accept (amount used : BitVec w) (h : ¬ saturatingSub capacity used < amount) :
      Moves capacity s i (.check i) (.checking amount used) (.exchanging amount used)
  | fail (amount used v : BitVec w) (h : s.observable v = true) :
      Moves capacity s i (.fail i v) (.exchanging amount used) (.checking amount v)
  | leave (amount : BitVec w) : Moves capacity s i (.leave i) (.refused amount) .outside

/-- **A thread moves, exchanges, builds its lease, or a lease is dropped.** -/
theorem step_cases {capacity : BitVec w} {s t : State w n} {a : Action w n}
    (ht : step capacity s a = some t) :
    (∃ i p, Moves capacity s i a (s.threads i) p ∧ t = s.move i p) ∨
    (∃ i amount, a = .exchange i ∧ s.threads i = .exchanging amount s.used ∧
      t = (s.write (s.used + amount)).move i (.taken amount)) ∨
    (∃ i amount, a = .lease i ∧ s.threads i = .taken amount ∧
      t = { s.move i .outside with leases := s.leases ++ [amount] }) ∨
    (∃ k held, a = .drop k ∧ s.leases[k]? = some held ∧
      t = { s.write (s.used - held) with leases := s.leases.eraseIdx k }) := by
  cases a with
  | call i amount =>
    cases hi : s.threads i with
    | outside =>
      simp only [step, hi, Option.some.injEq] at ht
      exact Or.inl ⟨i, _, hi ▸ .call amount, ht.symm⟩
    | _ => simp [step, hi] at ht
  | load i v =>
    cases hi : s.threads i with
    | loading amount =>
      simp only [step, hi, Option.ite_none_right_eq_some, Option.some.injEq] at ht
      exact Or.inl ⟨i, _, hi ▸ .load amount v ht.1, ht.2.symm⟩
    | _ => simp [step, hi] at ht
  | check i =>
    cases hi : s.threads i with
    | checking amount used =>
      simp only [step, hi] at ht
      split_ifs at ht with hc
      · exact Or.inl ⟨i, _, hi ▸ .refuse amount used hc, (Option.some.inj ht).symm⟩
      · exact Or.inl ⟨i, _, hi ▸ .accept amount used hc, (Option.some.inj ht).symm⟩
    | _ => simp [step, hi] at ht
  | exchange i =>
    cases hi : s.threads i with
    | exchanging amount used =>
      simp only [step, hi, Option.ite_none_right_eq_some, Option.some.injEq] at ht
      obtain ⟨rfl, rfl⟩ := ht
      exact Or.inr (Or.inl ⟨i, amount, rfl, hi, rfl⟩)
    | _ => simp [step, hi] at ht
  | fail i v =>
    cases hi : s.threads i with
    | exchanging amount used =>
      simp only [step, hi, Option.ite_none_right_eq_some, Option.some.injEq] at ht
      exact Or.inl ⟨i, _, hi ▸ .fail amount used v ht.1, ht.2.symm⟩
    | _ => simp [step, hi] at ht
  | lease i =>
    cases hi : s.threads i with
    | taken amount =>
      simp only [step, hi, Option.some.injEq] at ht
      exact Or.inr (Or.inr (Or.inl ⟨i, amount, rfl, hi, ht.symm⟩))
    | _ => simp [step, hi] at ht
  | leave i =>
    cases hi : s.threads i with
    | refused amount =>
      simp only [step, hi, Option.some.injEq] at ht
      exact Or.inl ⟨i, _, hi ▸ .leave amount, ht.symm⟩
    | _ => simp [step, hi] at ht
  | drop k =>
    cases hk : s.leases[k]? with
    | none => simp [step, hk] at ht
    | some held =>
      simp only [step, hk, Option.some.injEq] at ht
      exact Or.inr (Or.inr (Or.inr ⟨k, held, rfl, hk, ht.symm⟩))

/-! ## The quota behind the counter -/

/-- Everything that is lent: by exchanges whose lease is not built yet, and by live leases. -/
def State.lent (s : State w n) : Multiset ℕ :=
  ∑ i, (s.threads i).holds + (s.leases.map BitVec.toNat : List ℕ)

/-- The counter is the total of what is lent. -/
structure Refines {capacity : BitVec w} (s : State w n) (q : Quota capacity.toNat) : Prop where
  lent : q.lent = s.lent
  used : s.used.toNat = q.lent.sum

/-- What a thread last observed fits, and so does what it tries to make of it. -/
def Place.Fits (capacity : BitVec w) : Place w → Prop
  | .checking _ used => used.toNat ≤ capacity.toNat
  | .exchanging amount used => used.toNat + amount.toNat ≤ capacity.toNat
  | _ => True

/-- The counter is the total of a quota, and nothing a thread may read or write is beyond it. -/
structure Inv (capacity : BitVec w) (s : State w n) : Prop where
  quota : ∃ q : Quota capacity.toNat, Refines s q
  earlier : ∀ v ∈ s.earlier, v.toNat ≤ capacity.toNat
  threads : ∀ i, (s.threads i).Fits capacity

variable {capacity : BitVec w} {s t : State w n}

theorem toNat_saturatingSub (a b : BitVec w) : (saturatingSub a b).toNat = a.toNat - b.toNat := by
  unfold saturatingSub
  split_ifs with h
  · exact BitVec.toNat_sub_of_le h
  · rw [BitVec.le_def] at h
    simp only [BitVec.ofNat_eq_ofNat, BitVec.toNat_ofNat, Nat.zero_mod]
    omega

theorem lent_move (s : State w n) (i : Fin n) (p : Place w) :
    (s.threads i).holds + (s.move i p).lent = p.holds + s.lent := by
  have hsum : ∑ j, (Function.update s.threads i p j).holds + (s.threads i).holds =
      ∑ j, (s.threads j).holds + p.holds := by
    rw [← Finset.add_sum_erase _ _ (Finset.mem_univ i), ← Finset.add_sum_erase _ _ (Finset.mem_univ i),
      Function.update_self]
    have hrest : ∀ j ∈ Finset.univ.erase i,
        (Function.update s.threads i p j).holds = (s.threads j).holds := by
      intro j hj
      rw [Function.update_of_ne (Finset.ne_of_mem_erase hj)]
    rw [Finset.sum_congr rfl hrest]
    abel
  simp only [State.lent, State.move]
  rw [← add_assoc, add_comm (s.threads i).holds, hsum]
  abel

theorem lent_move_of_eq {i : Fin n} {p : Place w} (h : (s.threads i).holds = p.holds) :
    (s.move i p).lent = s.lent := by
  have hm := lent_move s i p
  rw [h] at hm
  exact add_left_cancel hm

theorem lent_write (s : State w n) (v : BitVec w) : (s.write v).lent = s.lent := rfl

theorem lent_leases (s : State w n) (l : List (BitVec w)) :
    State.lent { s with leases := l } =
      ∑ i, (s.threads i).holds + (l.map BitVec.toNat : List ℕ) := rfl

theorem lease_mem_lent {held : BitVec w} (h : held ∈ s.leases) : held.toNat ∈ s.lent :=
  Multiset.mem_add.mpr (Or.inr (Multiset.mem_coe.mpr (List.mem_map_of_mem h)))

theorem lent_drop {k : ℕ} {held : BitVec w} (h : s.leases[k]? = some held) :
    State.lent { s with leases := s.leases.eraseIdx k } = s.lent.erase held.toNat := by
  have hlt : k < s.leases.length := (List.getElem?_eq_some_iff.mp h).1
  have hget : s.leases[k] = held := (List.getElem?_eq_some_iff.mp h).2
  have hperm : (s.leases.map BitVec.toNat).Perm
      (held.toNat :: (s.leases.eraseIdx k).map BitVec.toNat) := by
    rw [← List.map_cons, ← hget]
    exact ((List.getElem_cons_eraseIdx_perm hlt).symm).map _
  have hcons : s.lent = held.toNat ::ₘ State.lent { s with leases := s.leases.eraseIdx k } := by
    rw [lent_leases, State.lent, Multiset.coe_eq_coe.mpr hperm, ← Multiset.cons_coe, Multiset.add_cons]
  rw [hcons, Multiset.erase_cons_head]

/-! ## What a step does to the quota -/

section Steps

variable {q : Quota capacity.toNat}

theorem Inv.new : Inv capacity ({} : State w n) where
  quota := ⟨Quota.empty _, by simp [Quota.empty, State.lent, Place.holds], by simp [Quota.empty]⟩
  earlier _ hv := by cases hv
  threads _ := trivial

theorem Inv.used_le (h : Inv capacity s) : s.used.toNat ≤ capacity.toNat := by
  obtain ⟨q, hq⟩ := h.quota
  rw [hq.used]
  exact q.fits

theorem Inv.observed_le (h : Inv capacity s) {v : BitVec w} (hv : s.observable v = true) :
    v.toNat ≤ capacity.toNat := by
  rw [State.observable, decide_eq_true_eq, List.mem_cons] at hv
  rcases hv with rfl | hv
  · exact h.used_le
  · exact h.earlier v hv

/-- The sum that an exchange writes does not wrap around. -/
theorem toNat_add_of_fits {used amount : BitVec w}
    (h : used.toNat + amount.toNat ≤ capacity.toNat) :
    (used + amount).toNat = used.toNat + amount.toNat := by
  rw [BitVec.toNat_add, Nat.mod_eq_of_lt (h.trans_lt capacity.isLt)]

theorem Refines.move (hq : Refines s q) {i : Fin n} {p : Place w}
    (hp : (s.threads i).holds = p.holds) : Refines (s.move i p) q where
  lent := hq.lent.trans (lent_move_of_eq hp).symm
  used := hq.used

theorem Refines.exchange (hq : Refines s q) {i : Fin n} {amount : BitVec w}
    (hi : s.threads i = .exchanging amount s.used)
    (hfit : s.used.toNat + amount.toNat ≤ capacity.toNat) :
    ∃ h : q.lent.sum + amount.toNat ≤ capacity.toNat,
      Refines ((s.write (s.used + amount)).move i (.taken amount)) (q.lend amount.toNat h) := by
  refine ⟨hq.used ▸ hfit, ?_, ?_⟩
  · have hm := lent_move (s.write (s.used + amount)) i (.taken amount)
    have hi' : (s.write (s.used + amount)).threads i = .exchanging amount s.used := hi
    rw [hi', lent_write] at hm
    simp only [Place.holds, zero_add, Multiset.singleton_add] at hm
    rw [Quota.lend_lent, hq.lent, hm]
  · have hadd : (s.used + amount).toNat = q.lent.sum + amount.toNat := by
      rw [toNat_add_of_fits hfit, hq.used]
    rw [Quota.lend_sum]
    exact hadd

theorem Refines.lease (hq : Refines s q) {i : Fin n} {amount : BitVec w}
    (hi : s.threads i = .taken amount) :
    Refines { s.move i .outside with leases := s.leases ++ [amount] } q := by
  refine ⟨?_, hq.used⟩
  have hm := lent_move s i .outside
  rw [hi] at hm
  simp only [Place.holds, zero_add] at hm
  rw [hq.lent, ← hm, State.lent, lent_leases, List.map_append, ← Multiset.coe_add]
  simp only [State.move, List.map_cons, List.map_nil, Multiset.coe_singleton]
  abel

theorem Refines.drop (hq : Refines s q) {k : ℕ} {held : BitVec w} (hk : s.leases[k]? = some held) :
    held.toNat ≤ s.used.toNat ∧ ∃ h : held.toNat ∈ q.lent,
      Refines { s.write (s.used - held) with leases := s.leases.eraseIdx k }
        (q.release held.toNat h) := by
  have hmem : held.toNat ∈ q.lent := by
    rw [hq.lent]
    exact lease_mem_lent (List.mem_of_getElem? hk)
  have hle : held.toNat ≤ s.used.toNat := by
    rw [hq.used]
    exact q.le_sum hmem
  refine ⟨hle, hmem, ?_, ?_⟩
  · rw [Quota.release_lent, hq.lent, ← lent_drop hk]
    rfl
  · have hsum := q.release_sum hmem
    have hsub : (s.used - held).toNat = s.used.toNat - held.toNat :=
      BitVec.toNat_sub_of_le (BitVec.le_def.mpr hle)
    rw [← hq.used] at hsum
    change (s.used - held).toNat = _
    omega

theorem Moves.holds {i : Fin n} {a : Action w n} {p p' : Place w} (h : Moves capacity s i a p p') :
    p.holds = p'.holds := by
  cases h <;> rfl

/-- **Every step lends, takes back, or leaves the quota alone.** -/
theorem step_moves (h : Inv capacity s) (hq : Refines s q) {a : Action w n}
    (ht : step capacity s a = some t) : ∃ q', q.Moves q' ∧ Refines t q' := by
  rcases step_cases ht with ⟨i, p, hm, rfl⟩ | ⟨i, amount, -, hi, rfl⟩ | ⟨i, amount, -, hi, rfl⟩ |
    ⟨k, held, -, hk, rfl⟩
  · exact ⟨q, .stay q, hq.move hm.holds⟩
  · have hfits := h.threads i
    rw [hi] at hfits
    obtain ⟨hfit, hr⟩ := hq.exchange hi hfits
    exact ⟨_, .lend q _ hfit, hr⟩
  · exact ⟨q, .stay q, hq.lease hi⟩
  · obtain ⟨-, hmem, hr⟩ := hq.drop hk
    exact ⟨_, .release q _ hmem, hr⟩

end Steps

/-! ## Every run -/

/-- An exchange is tried only when the amount fits what the counter is expected to be. -/
theorem fits_of_accept {amount used : BitVec w} (hu : used.toNat ≤ capacity.toNat)
    (h : ¬ saturatingSub capacity used < amount) : used.toNat + amount.toNat ≤ capacity.toNat := by
  rw [BitVec.lt_def, toNat_saturatingSub] at h
  omega

theorem Inv.fits_moves (h : Inv capacity s) {i : Fin n} {a : Action w n} {p p' : Place w}
    (hm : Moves capacity s i a p p') (hp : p.Fits capacity) : p'.Fits capacity := by
  cases hm with
  | call amount => trivial
  | load amount v hv => exact h.observed_le hv
  | refuse amount used hc => trivial
  | accept amount used hc => exact fits_of_accept hp hc
  | fail amount used v hv => exact h.observed_le hv
  | leave amount => trivial

/-- What holds of every thread at its place still does after one of them moved. -/
theorem update_place {P : Fin n → Place w → Prop} {f : Fin n → Place w} (h : ∀ j, P j (f j)) {i : Fin n}
    {p : Place w} (hp : P i p) (j : Fin n) : P j (Function.update f i p j) := by
  by_cases hji : j = i
  · subst hji
    rwa [Function.update_self]
  · rw [Function.update_of_ne hji]
    exact h j

theorem Inv.step (h : Inv capacity s) {a : Action w n} (ht : step capacity s a = some t) :
    Inv capacity t := by
  obtain ⟨q, hq⟩ := h.quota
  obtain ⟨q', -, hq'⟩ := step_moves h hq ht
  have hold : ∀ v ∈ s.used :: s.earlier, v.toNat ≤ capacity.toNat := fun v hv =>
    h.observed_le (decide_eq_true hv)
  rcases step_cases ht with ⟨i, p, hm, rfl⟩ | ⟨i, amount, -, hi, rfl⟩ | ⟨i, amount, -, hi, rfl⟩ |
    ⟨k, held, -, hk, rfl⟩
  · exact ⟨⟨q', hq'⟩, h.earlier,
      update_place (P := fun _ p => p.Fits capacity) h.threads (h.fits_moves hm (h.threads i))⟩
  · exact ⟨⟨q', hq'⟩, hold, update_place (P := fun _ p => p.Fits capacity) h.threads trivial⟩
  · exact ⟨⟨q', hq'⟩, h.earlier, update_place (P := fun _ p => p.Fits capacity) h.threads trivial⟩
  · exact ⟨⟨q', hq'⟩, hold, h.threads⟩

theorem reachable_inv (h : (system n capacity).Reachable s) : Inv capacity s := by
  refine h.induct ?_ ?_
  · rintro _ rfl
    exact Inv.new
  · intro s a t hs _ ht
    exact hs.step ht

/-! ## What the callers are told -/

/-- The last value each thread observed. -/
def observed (_ : State w n) (a : Action w n) (seen : Fin n → Option (BitVec w)) :
    Fin n → Option (BitVec w) :=
  match a with
  | .load i v | .fail i v => Function.update seen i (some v)
  | _ => seen

/-- The budget with a note of what each thread last observed. -/
def noted (n : ℕ) (capacity : BitVec w) :
    System (State w n × (Fin n → Option (BitVec w))) (Action w n) :=
  (system n capacity).recording (fun _ => none) observed

/-- A thread works on the last value it observed, and is refused on it. -/
def Place.Told (capacity : BitVec w) (seen : Option (BitVec w)) : Place w → Prop
  | .checking _ used | .exchanging _ used => seen = some used
  | .refused amount => ∃ v, seen = some v ∧ capacity.toNat - v.toNat < amount.toNat
  | _ => True

variable {seen : Fin n → Option (BitVec w)}

theorem Moves.told {i : Fin n} {a : Action w n} {p p' : Place w} (hm : Moves capacity s i a p p')
    (hp : p.Told capacity (seen i)) : p'.Told capacity (observed s a seen i) := by
  cases hm with
  | call amount => trivial
  | load amount v hv => exact Function.update_self ..
  | refuse amount used hc =>
    rw [BitVec.lt_def, toNat_saturatingSub] at hc
    exact ⟨used, hp, hc⟩
  | accept amount used hc => exact hp
  | fail amount used v hv => exact Function.update_self ..
  | leave amount => trivial

theorem Moves.observed_of_ne {i j : Fin n} {a : Action w n} {p p' : Place w}
    (hm : Moves capacity s i a p p') (hj : j ≠ i) : observed s a seen j = seen j := by
  cases hm with
  | load amount v hv => exact Function.update_of_ne hj ..
  | fail amount used v hv => exact Function.update_of_ne hj ..
  | _ => rfl

theorem told_step (h : ∀ i, (s.threads i).Told capacity (seen i)) {a : Action w n}
    (ht : step capacity s a = some t) (i : Fin n) :
    (t.threads i).Told capacity (observed s a seen i) := by
  rcases step_cases ht with ⟨j, p, hm, rfl⟩ | ⟨j, amount, rfl, hj, rfl⟩ | ⟨j, amount, rfl, hj, rfl⟩ |
    ⟨k, held, rfl, hk, rfl⟩
  · by_cases hij : i = j
    · subst hij
      rw [State.threads_move, Function.update_self]
      exact hm.told (h i)
    · rw [State.threads_move, Function.update_of_ne hij, hm.observed_of_ne hij]
      exact h i
  · refine update_place (P := fun i p => p.Told capacity (seen i)) h ?_ i
    exact trivial
  · refine update_place (P := fun i p => p.Told capacity (seen i)) h ?_ i
    exact trivial
  · exact h i

theorem noted_told {p : State w n × (Fin n → Option (BitVec w))} (h : (noted n capacity).Reachable p) :
    ∀ i, (p.1.threads i).Told capacity (p.2 i) := by
  refine System.Reach.inductNoted (P := fun s seen => ∀ i, (s.threads i).Told capacity (seen i)) ?_ ?_ h
  · rintro s rfl
    exact fun _ => trivial
  · intro s seen a t hs _ ht
    exact told_step hs ht

/-- **The counter is what is lent, never more than the capacity; nothing wraps around; and a caller
is refused only on a value that left too little.** -/
theorem budget_lends_within_capacity (h : (noted n capacity).Reachable (s, seen)) :
    s.used.toNat = s.lent.sum ∧ s.used.toNat ≤ capacity.toNat ∧
      (∀ i amount used, s.threads i = .exchanging amount used →
        (used + amount).toNat = used.toNat + amount.toNat) ∧
      (∀ held ∈ s.leases, (s.used - held).toNat + held.toNat = s.used.toNat) ∧
      ∀ i amount, s.threads i = .refused amount →
        ∃ v, seen i = some v ∧ capacity.toNat - v.toNat < amount.toNat := by
  have hi : Inv capacity s := reachable_inv (System.Reach.forget (fun _ _ _ => trivial) h)
  obtain ⟨q, hq⟩ := hi.quota
  refine ⟨by rw [hq.used, hq.lent], hi.used_le, ?_, ?_, ?_⟩
  · intro i amount used hp
    have hfits := hi.threads i
    rw [hp] at hfits
    exact toNat_add_of_fits hfits
  · intro held hm
    obtain ⟨k, hk⟩ := List.mem_iff_getElem?.mp hm
    have hle := (hq.drop hk).1
    rw [BitVec.toNat_sub_of_le (BitVec.le_def.mpr hle)]
    omega
  · intro i amount hp
    have ht := noted_told h i
    dsimp only at ht
    rw [hp] at ht
    exact ht

/-- One thread is refused on what it read before another dropped its lease. -/
theorem budget_lends_within_capacity_stale :
    ∃ (s : State 8 2) (seen : Fin 2 → Option (BitVec 8)),
      (noted 2 (4 : BitVec 8)).Reachable (s, seen) ∧ s.used = 0 ∧ s.threads 1 = .refused 3 ∧
        ∃ v, seen 1 = some v ∧ 4 - v.toNat < 3 := by
  have hr : (noted 2 (4 : BitVec 8)).run ({}, fun _ => none)
      [.call 0 3, .load 0 0, .check 0, .call 1 3, .exchange 0, .load 1 3, .lease 0, .drop 0,
        .check 1] = some (_, _) := rfl
  have hi : (noted 2 (4 : BitVec 8)).init ({}, fun _ => none) := ⟨rfl, rfl⟩
  have h := System.reach_of_run hi hr
  exact ⟨_, _, h, rfl, rfl, (budget_lends_within_capacity h).2.2.2.2 1 3 rfl⟩

end Ruvoy.Admission
