import Mathlib

/-!
# Tables by number

A hash map from numbers, as the list of its entries with no key twice (`AList`). What is said of
tables here is about the values they hold: which values there are after an insertion or a removal, up
to order, and in which orders they can be listed.

* `Table.values`, `Table.pick`: the values, and the values in the order of given keys;
* `values_perm`, `values_insert`, `map_insert_perm`: insertion and removal;
* `pick_perm`: every order of the keys lists the same values.
-/

set_option autoImplicit false

/-- A hash map from numbers. -/
abbrev Table (β : Type) : Type := AList fun _ : ℕ => β

namespace Table

variable {β : Type} {t : Table β} {k : ℕ} {v : β}

/-- The values of the entries. -/
def values (t : Table β) : List β := t.entries.map Sigma.snd

/-- The values in the order of the keys given. -/
def pick (t : Table β) (order : List ℕ) : List β := order.filterMap t.lookup

@[simp] theorem values_empty : values (∅ : Table β) = [] := rfl

theorem eq_empty (h : ∀ k, k ∉ t) : t = ∅ :=
  AList.ext (List.eq_nil_iff_forall_not_mem.mpr fun e he => h e.1 (List.mem_keys_of_mem he))

theorem mem_values_of_lookup (h : t.lookup k = some v) : v ∈ t.values :=
  List.mem_map.mpr ⟨⟨k, v⟩, AList.mem_lookup_iff.mp h, rfl⟩

/-- What is there before a removal is what is removed and what is left. -/
theorem values_perm (h : t.lookup k = some v) : t.values.Perm (v :: values (t.erase k)) := by
  have hk : k ∈ t.entries.keys := by
    rw [← List.dlookup_isSome, show List.dlookup k t.entries = some v from h]
    rfl
  obtain ⟨w, before, after, hnot, hentries, herase⟩ := List.exists_of_kerase hk
  have hw : w = v := by
    have hl : List.dlookup k t.entries = some v := h
    rw [hentries, List.dlookup_append, List.dlookup_eq_none.mpr hnot, Option.none_or,
      List.dlookup_cons_eq] at hl
    exact Option.some.inj hl
  have hleft : values (t.erase k) = (before ++ after).map Sigma.snd := congrArg _ herase
  rw [hleft, values, hentries, hw, List.map_append, List.map_cons, List.map_append]
  exact List.perm_middle

theorem values_insert (t : Table β) (k : ℕ) (v : β) :
    values (t.insert k v) = v :: values (t.erase k) := rfl

/-- A new value for a key that is there, seen through a function that does not tell the two apart. -/
theorem map_insert_perm {γ : Type} {f : β → γ} {w : β} (h : t.lookup k = some v) (hf : f w = f v) :
    ((values (t.insert k w)).map f).Perm (t.values.map f) := by
  rw [values_insert, List.map_cons, hf, ← List.map_cons]
  exact (values_perm h).symm.map f

theorem values_erase_of_notMem (h : k ∉ t) : values (t.erase k) = t.values := by
  show (List.kerase k t.entries).map Sigma.snd = t.entries.map Sigma.snd
  rw [List.kerase_of_notMem_keys h]

theorem mem_of_mem_values_erase (h : v ∈ values (t.erase k)) : v ∈ t.values := by
  obtain ⟨e, he, rfl⟩ := List.mem_map.mp h
  exact List.mem_map.mpr ⟨e, (List.kerase_sublist k t.entries).subset he, rfl⟩

/-- **Any order of the keys lists the values**, each once. -/
theorem pick_perm {order : List ℕ} (h : order.Perm t.keys) : (t.pick order).Perm t.values := by
  have hsome : ∀ e ∈ t.entries, t.lookup e.1 = some e.2 := fun e he => AList.mem_lookup_iff.mpr he
  have hkeys : t.pick t.keys = t.values := by
    show (t.entries.map Sigma.fst).filterMap _ = t.entries.map Sigma.snd
    rw [List.filterMap_map]
    exact List.filterMap_eq_map_iff_forall_eq_some.mpr hsome
  rw [← hkeys]
  exact h.filterMap _

end Table
