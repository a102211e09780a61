import Ruvoy.Lib.Hash
import Ruvoy.Rack.Model

/-!
# Header fields through a hash

`rack_headers` makes of the fields of an upstream response the hash that the application gets, with an
array for a name that comes more than once; `copy_headers` makes fields of the hash that the
application answers with.

* `RackValue`, `rubyStrings`: the Ruby values in such a hash, and their conversions;
* `rackHeaders`, `proxied`: the hash, and the fields that come out when it is answered with;
* `held`: what the hash has for a name, from the values of the name in order;
* **`proxied_keeps_fields`**: a proxied response has all its fields, grouped by name.
-/

set_option autoImplicit false

namespace Ruvoy.Rack

/-! ## The model -/

/-- A value in a hash of headers. -/
inductive RackValue
  | string (s : String)
  | array (values : List String)
  deriving DecidableEq, Repr

/-- `RArray::from_value`, `to_vec` and `String::try_convert` on such values. -/
def rubyStrings : Conversions RackValue where
  toI64 _ := .error "no implicit conversion into Integer"
  toHash _ := .error "no implicit conversion into Hash"
  toArray
    | .string _ => none
    | .array values => some (values.map .string)
  toStr
    | .string s => .ok s
    | .array _ => .error "no implicit conversion of Array into String"
  debug s := s

/-- One turn of the loop of `rack_headers`. -/
def addField (headers : Hash String RackValue) (field : String × String) : Hash String RackValue :=
  match headers.get field.1 with
  | none => headers.set field.1 (.string field.2)
  | some (.array values) => headers.set field.1 (.array (values ++ [field.2]))
  | some (.string existing) => headers.set field.1 (.array [existing, field.2])

def rackHeaders (fields : Headers) : Hash String RackValue := fields.foldl addField Hash.empty

/-- The pairs that `foreach` yields. -/
def pairs (headers : Hash String RackValue) : List (RackValue × RackValue) :=
  headers.entries.map fun e => (.string e.1, e.2)

/-- The fields of a response that is answered with the headers it came with. -/
def proxied (fields : Headers) : Except BridgeError Headers :=
  copyHeaders rubyStrings (pairs (rackHeaders fields))

/-! ## What the hash has -/

/-- The values of a name, in order. -/
def valuesOf (name : String) (fields : Headers) : List String :=
  (fields.filter fun f => f.1 = name).map Prod.snd

/-- The names, in the order in which they first come. -/
def names (fields : Headers) : List String := (fields.map Prod.fst).eraseDups

/-- What stands for the values of a name. -/
def held : List String → RackValue
  | [value] => .string value
  | values => .array values

variable {fields : Headers} {name : String}

theorem valuesOf_concat (name : String) (fields : Headers) (field : String × String) :
    valuesOf name (fields ++ [field]) =
      valuesOf name fields ++ if field.1 = name then [field.2] else [] := by
  rw [valuesOf, List.filter_append, List.map_append]
  by_cases h : field.1 = name
  · rw [if_pos h, List.filter_cons_of_pos (by simpa using h)]
    rfl
  · rw [if_neg h, List.filter_cons_of_neg (by simpa using h)]
    rfl

theorem names_concat (fields : Headers) (field : String × String) :
    names (fields ++ [field]) =
      if field.1 ∈ names fields then names fields else names fields ++ [field.1] := by
  rw [names, List.map_append, List.eraseDups_append, List.map_cons, List.map_nil]
  by_cases h : field.1 ∈ fields.map Prod.fst
  · rw [if_pos (by rwa [names, List.mem_eraseDups]), List.cons_removeAll,
      if_neg (by simpa using h)]
    exact List.append_nil _
  · rw [if_neg (by rwa [names, List.mem_eraseDups]), List.cons_removeAll, if_pos (by simpa using h)]
    rfl

theorem valuesOf_ne_nil (h : name ∈ names fields) : valuesOf name fields ≠ [] := by
  rw [names, List.mem_eraseDups, List.mem_map] at h
  obtain ⟨f, hf, rfl⟩ := h
  exact List.ne_nil_of_mem (List.mem_map_of_mem (List.mem_filter.mpr ⟨hf, by simp⟩))

theorem valuesOf_eq_nil (h : name ∉ names fields) : valuesOf name fields = [] := by
  rw [valuesOf, List.map_eq_nil_iff, List.filter_eq_nil_iff]
  intro f hf hn
  rw [decide_eq_true_eq] at hn
  rw [names, List.mem_eraseDups] at h
  exact h (hn ▸ List.mem_map_of_mem hf)

/-- The hash is the names, each with what stands for its values. -/
structure Groups (headers : Hash String RackValue) (fields : Headers) : Prop where
  keys : headers.keys = names fields
  get : ∀ name ∈ names fields, headers.get name = some (held (valuesOf name fields))

/-- **A field is added to the values of its name**, whichever way they are held. -/
theorem Groups.add {headers : Hash String RackValue} (h : Groups headers fields)
    (field : String × String) : Groups (addField headers field) (fields ++ [field]) := by
  have hset : addField headers field =
      headers.set field.1 (held (valuesOf field.1 (fields ++ [field]))) := by
    rw [valuesOf_concat, if_pos rfl, addField]
    by_cases hn : field.1 ∈ names fields
    · have hne := valuesOf_ne_nil hn
      rw [h.get field.1 hn]
      cases hv : valuesOf field.1 fields with
      | nil => exact absurd hv hne
      | cons v vs =>
        cases vs with
        | nil => rfl
        | cons w ws => rfl
    · rw [Hash.get_eq_none (by rwa [h.keys]), valuesOf_eq_nil hn]
      rfl
  rw [hset]
  refine ⟨?_, ?_⟩
  · rw [Hash.keys_set, names_concat, h.keys]
  · intro name hname
    by_cases he : name = field.1
    · rw [he, Hash.get_set_self]
    · rw [Hash.get_set_of_ne _ _ he, valuesOf_concat, if_neg (Ne.symm he), List.append_nil]
      refine h.get name ?_
      rw [names_concat] at hname
      split_ifs at hname with hm
      · exact hname
      · exact (List.mem_append.mp hname).resolve_right fun hs => he (List.mem_singleton.mp hs)

theorem rackHeaders_groups (fields : Headers) : Groups (rackHeaders fields) fields := by
  induction fields using List.reverseRecOn with
  | nil => exact ⟨rfl, fun _ h => by cases h⟩
  | append_singleton fields field ih =>
    rw [rackHeaders, List.foldl_append]
    exact ih.add field

/-! ## What comes out -/

theorem mapM_ok {α β ε : Type} {f : α → Except ε β} {g : α → β} {l : List α}
    (h : ∀ a ∈ l, f a = .ok (g a)) : l.mapM f = .ok (l.map g) := by
  induction l with
  | nil => rfl
  | cons a l ih =>
    rw [List.mapM_cons, h a List.mem_cons_self, ih fun b hb => h b (List.mem_cons_of_mem a hb)]
    rfl

/-- One field for each value, whether one string or an array stands for them. -/
theorem copyHeader_held (name : String) (values : List String) :
    copyHeader rubyStrings name (held values) = .ok (values.map fun value => (name, value)) := by
  have harray : ∀ vs : List String,
      copyHeader rubyStrings name (.array vs) = .ok (vs.map fun value => (name, value)) := by
    intro vs
    have hm : (vs.map RackValue.string).mapM rubyStrings.toStr = .ok vs := by
      rw [List.mapM_map]
      exact (mapM_ok (g := id) fun _ _ => rfl).trans (by rw [List.map_id])
    simp only [copyHeader, rubyStrings] at hm ⊢
    rw [hm]
    rfl
  cases values with
  | nil => exact harray []
  | cons v vs =>
    cases vs with
    | nil => rfl
    | cons w ws => exact harray (v :: w :: ws)

/-- The fields, with those of one name together, in the order in which the names first come. -/
def grouped (fields : Headers) : Headers :=
  (names fields).flatMap fun name => (valuesOf name fields).map fun value => (name, value)

/-- When every entry is copied without an error, the fields are those of the entries in turn. -/
theorem copyHeaders_ok {V α : Type} {c : Conversions V} {entry : α → V × V} {l : List α} {g : α → Headers}
    (h : ∀ a ∈ l, (c.toStr (entry a).1 >>= fun name => copyHeader c name (entry a).2) = .ok (g a)) :
    copyHeaders c (l.map entry) = .ok (l.flatMap g) := by
  have hm : ((l.map entry).mapM fun e => c.toStr e.1 >>= fun name => copyHeader c name e.2) =
      .ok (l.map g) := by
    rw [List.mapM_map]
    exact mapM_ok h
  have hc : copyHeaders c (l.map entry) = inContext "copying response headers"
      (((l.map entry).mapM fun e => c.toStr e.1 >>= fun name => copyHeader c name e.2) >>=
        fun copied => pure copied.flatten) := rfl
  rw [hc, hm]
  rfl

/-- **What comes out is grouped by name.** -/
theorem proxied_eq (fields : Headers) : proxied fields = .ok (grouped fields) := by
  have hg := rackHeaders_groups fields
  have hentries : (rackHeaders fields).entries =
      (names fields).map fun name => (name, held (valuesOf name fields)) := by
    rw [← hg.keys]
    exact Hash.entries_eq_map fun k hk => hg.get k (hg.keys ▸ hk)
  rw [proxied, pairs, hentries, List.map_map]
  exact copyHeaders_ok fun name _ => copyHeader_held name (valuesOf name fields)

theorem nodup_names (fields : Headers) : (names fields).Nodup := by
  rw [← (rackHeaders_groups fields).keys]
  exact (rackHeaders fields).nodup

/-! ## Nothing is lost -/

theorem valuesOf_append (name : String) (a b : Headers) :
    valuesOf name (a ++ b) = valuesOf name a ++ valuesOf name b := by
  rw [valuesOf, List.filter_append, List.map_append]
  rfl

/-- A group has the values of its own name and of no other. -/
theorem valuesOf_group (name n : String) (values : List String) :
    valuesOf name (values.map fun value => (n, value)) = if n = name then values else [] := by
  rw [valuesOf, List.filter_map, List.map_map]
  split_ifs with h
  · subst h
    simp [Function.comp_def]
  · simp [Function.comp_def, h]

theorem valuesOf_flatMap {ns : List String} (hn : ns.Nodup) (values : String → List String)
    (name : String) :
    valuesOf name (ns.flatMap fun n => (values n).map fun value => (n, value)) =
      if name ∈ ns then values name else [] := by
  induction ns with
  | nil => rfl
  | cons n ns ih =>
    rw [List.nodup_cons] at hn
    rw [List.flatMap_cons, valuesOf_append, valuesOf_group, ih hn.2]
    by_cases h : n = name
    · subst h
      rw [if_pos rfl, if_neg hn.1, if_pos List.mem_cons_self, List.append_nil]
    · have hiff : name ∈ n :: ns ↔ name ∈ ns :=
        ⟨fun hm => (List.mem_cons.mp hm).resolve_left (Ne.symm h), List.mem_cons_of_mem n⟩
      rw [if_neg h, List.nil_append, if_congr hiff rfl rfl]

theorem valuesOf_grouped (name : String) (fields : Headers) :
    valuesOf name (grouped fields) = valuesOf name fields := by
  rw [grouped, valuesOf_flatMap (nodup_names fields)]
  split_ifs with h
  · rfl
  · exact (valuesOf_eq_nil h).symm

theorem count_eq (e : String × String) (fields : Headers) :
    fields.count e = (valuesOf e.1 fields).count e.2 := by
  induction fields with
  | nil => rfl
  | cons f fields ih =>
    rw [List.count_cons, ih, valuesOf, valuesOf]
    by_cases h : f.1 = e.1
    · rw [List.filter_cons_of_pos (by simpa using h), List.map_cons, List.count_cons]
      congr 1
      refine if_congr ?_ rfl rfl
      rw [beq_iff_eq, beq_iff_eq, Prod.ext_iff]
      exact ⟨fun he => he.2, fun he => ⟨h, he⟩⟩
    · rw [List.filter_cons_of_neg (by simpa using h), if_neg, Nat.add_zero]
      rw [beq_iff_eq]
      rintro rfl
      exact h rfl

/-- Fields with the same values for every name are the same up to order. -/
theorem perm_of_valuesOf {a b : Headers} (h : ∀ name, valuesOf name a = valuesOf name b) : a.Perm b := by
  rw [List.perm_iff_count]
  intro e
  rw [count_eq, count_eq, h]

/-! ## The order is kept the second time -/

theorem names_of_grouped (fields : Headers) :
    (grouped fields).map Prod.fst =
      (names fields).flatMap fun name => List.replicate (valuesOf name fields).length name := by
  rw [grouped, List.map_flatMap]
  refine List.flatMap_congr fun name _ => ?_
  rw [List.map_map]
  exact List.map_const' ..

theorem eraseDups_replicate (name : String) (n : ℕ) :
    (List.replicate (n + 1) name).eraseDups = [name] := by
  rw [List.replicate_succ, List.eraseDups_cons]
  have hnil : (List.replicate n name).filter (fun b => !b == name) = [] := by
    rw [List.filter_eq_nil_iff]
    intro b hb
    rw [List.eq_of_mem_replicate hb]
    simp
  rw [hnil]
  rfl

theorem eraseDups_flatMap {ns : List String} (hn : ns.Nodup) {count : String → ℕ}
    (hc : ∀ name ∈ ns, count name ≠ 0) :
    (ns.flatMap fun name => List.replicate (count name) name).eraseDups = ns := by
  induction ns with
  | nil => rfl
  | cons n ns ih =>
    rw [List.nodup_cons] at hn
    obtain ⟨k, hk⟩ := Nat.exists_eq_succ_of_ne_zero (hc n List.mem_cons_self)
    have hrest : (ns.flatMap fun name => List.replicate (count name) name).removeAll
        (List.replicate (count n) n) = ns.flatMap fun name => List.replicate (count name) name := by
      rw [List.removeAll, List.filter_eq_self]
      intro b hb
      obtain ⟨name, hname, hb⟩ := List.mem_flatMap.mp hb
      rw [List.eq_of_mem_replicate hb]
      simp only [Bool.not_eq_true', List.elem_eq_contains, List.contains_eq_mem, decide_eq_false_iff_not]
      intro hm
      rw [List.eq_of_mem_replicate hm] at hname
      exact hn.1 hname
    rw [List.flatMap_cons, List.eraseDups_append, hrest, hk, eraseDups_replicate,
      ih hn.2 fun name hname => hc name (List.mem_cons_of_mem n hname)]
    rfl

theorem names_grouped (fields : Headers) : names (grouped fields) = names fields := by
  rw [names, names_of_grouped]
  refine eraseDups_flatMap (nodup_names fields) fun name hname => ?_
  rw [ne_eq, List.length_eq_zero_iff]
  exact valuesOf_ne_nil hname

/-- **A proxied response has all its fields**: the values of every name in their order, the names
together in the order in which they first come, no field more or less, and the second time the same. -/
theorem proxied_keeps_fields (fields : Headers) :
    ∃ out, proxied fields = .ok out ∧
      (∀ name, valuesOf name out = valuesOf name fields) ∧
      out.map Prod.fst =
        (names fields).flatMap (fun name => List.replicate (valuesOf name fields).length name) ∧
      out.length = fields.length ∧ proxied out = .ok out := by
  have hvalues : ∀ name, valuesOf name (grouped fields) = valuesOf name fields := fun name =>
    valuesOf_grouped name fields
  refine ⟨grouped fields, proxied_eq fields, hvalues, names_of_grouped fields,
    (perm_of_valuesOf hvalues).length_eq, ?_⟩
  rw [proxied_eq]
  refine congrArg Except.ok ?_
  rw [grouped, names_grouped]
  exact List.flatMap_congr fun name _ => by rw [hvalues]

end Ruvoy.Rack
