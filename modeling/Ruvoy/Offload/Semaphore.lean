import Mathlib.Data.Finset.Card

/-!
# The semaphore that callers wait for

`Async::Semaphore` is a parameter: what it does when a caller asks for a place, is let in, gives its
place back or leaves before it had one.

* `Places`: what a semaphore shows, its limit, who is inside and who waits, with what becomes of it;
* `Semaphore`, `Semaphore.Documented`: a semaphore, and what its documentation promises;
* `inTurn`: one that lets its callers in strictly in turn.
-/

set_option autoImplicit false

namespace Ruvoy.Offloaded

/-- `limit`, and by the numbers of their calls those that `count` counts and those of `waiting`, the
longest first. -/
structure Places where
  limit : ℕ
  inside : Finset ℕ := ∅
  waiting : List ℕ := []

namespace Places

variable (p : Places) (i : ℕ)

def ask : Places := { p with waiting := p.waiting ++ [i] }

def letIn : Places := { p with inside := insert i p.inside, waiting := p.waiting.erase i }

def release : Places := { p with inside := p.inside.erase i }

def leave : Places := { p with waiting := p.waiting.erase i }

end Places

/-- A semaphore with block `acquire`. -/
structure Semaphore where
  Inner : Type
  /-- `new(limit)`. -/
  new : ℕ → Inner
  /-- A caller is in `acquire`. -/
  ask : Inner → ℕ → Inner
  /-- It goes on to its block, or has to wait. -/
  letIn : Inner → ℕ → Option Inner
  /-- The `ensure` after the block. -/
  release : Inner → ℕ → Inner
  /-- A caller is interrupted where it waits. -/
  leave : Inner → ℕ → Inner

/-- What `Async::Semaphore` documents: it limits how many are inside, `acquire` blocks at the limit,
the place comes back after the block, and who waits is let in first come, first served. Whether one who
comes may pass those who wait is left open. -/
structure Semaphore.Documented (S : Semaphore) (shows : S.Inner → Places) : Prop where
  new : ∀ n, shows (S.new n) = { limit := n }
  ask : ∀ q i, shows (S.ask q i) = (shows q).ask i
  /-- Nobody is let in at the limit, nor without asking. -/
  capacity : ∀ q i q', S.letIn q i = some q' → (shows q).inside.card < (shows q).limit ∧
    i ∈ (shows q).waiting ∧ shows q' = (shows q).letIn i
  release : ∀ q i, shows (S.release q i) = (shows q).release i
  leave : ∀ q i, shows (S.leave q i) = (shows q).leave i
  /-- Below the limit the one that has waited longest is let in. -/
  fifo : ∀ q i rest, (shows q).inside.card < (shows q).limit → (shows q).waiting = i :: rest →
    (S.letIn q i).isSome = true

/-- Whoever waits is let in in turn. -/
def inTurn : Semaphore where
  Inner := Places
  new n := { limit := n }
  ask := Places.ask
  letIn p i := if p.inside.card < p.limit ∧ p.waiting.head? = some i then some (p.letIn i) else none
  release := Places.release
  leave := Places.leave

theorem inTurn_documented : inTurn.Documented id where
  new _ := rfl
  ask _ _ := rfl
  capacity p i p' h := by
    obtain ⟨⟨hroom, hhead⟩, h⟩ := Option.ite_none_right_eq_some.mp h
    cases h
    exact ⟨hroom, List.mem_of_mem_head? hhead, rfl⟩
  release _ _ := rfl
  leave _ _ := rfl
  fifo p i rest hroom hwaiting := by
    have hguard : p.inside.card < p.limit ∧ p.waiting.head? = some i :=
      ⟨hroom, by rw [show p.waiting = i :: rest from hwaiting]; rfl⟩
    show (if _ then _ else none : Option Places).isSome = true
    rw [if_pos hguard]
    rfl

end Ruvoy.Offloaded
