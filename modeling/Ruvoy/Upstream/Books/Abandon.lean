import Ruvoy.Upstream.Books.Sending

/-!
# The end of the request keeps the accounts

`on_http_stream_complete` and the drop of the filter count whatever has no outcome yet, in the order that
the tables give.

* `Phase.abandoning`, `Phase.shut`: the worker's work until then, and after;
* `Books.abandonComplete`: all that was queued or open is counted;
* `Books.ordered`, `Books.event`, `Books.complete`, `Books.drop`: the callbacks that come to it.
-/

set_option autoImplicit false

namespace Ruvoy.Upstream

open Runs

variable {s t : State}

/-! ## The end of the request -/

section Abandon

theorem items_count {β : Type} (l : List β) (item : β → Item) (cluster : β → String)
    (outcome : β → CallOutcome) :
    (l.map fun b => Micro.count (item b) (cluster b) (outcome b)).flatMap Micro.items =
      l.map item := by
  rw [List.flatMap_map]
  exact List.flatMap_pure_eq_map _ _

theorem items_abandonCall (calls : List PendingCall) :
    (calls.flatMap State.abandonCall).flatMap Micro.items = [] := by
  rw [List.flatMap_assoc]
  exact List.flatMap_eq_nil_iff.mpr fun _ _ => rfl

theorem items_abandonQueued (streams : List UpstreamStreamRequest) :
    (streams.flatMap State.abandonQueued).flatMap Micro.items = [] := by
  rw [List.flatMap_assoc]
  exact List.flatMap_eq_nil_iff.mpr fun _ _ => rfl

theorem items_abandonOpen (streams : List OpenStream) :
    (streams.flatMap State.abandonOpen).flatMap Micro.items = [] := by
  rw [List.flatMap_assoc]
  refine List.flatMap_eq_nil_iff.mpr fun o _ => ?_
  rw [State.abandonOpen, List.flatMap_append, (stays_abandon o).2]
  rfl

variable {calls handles : List ℕ}

theorem Phase.abandoning (h : Phase s) {counting : Bool} {rest : List Outer}
    (ho : s.outer = .abandon counting :: rest) :
    rest = [] ∧ (s.stage = .complete ∧ counting = true ∧ s.upstreams = true ∨
      s.stage = .dropped ∧ counting = false ∧ Shut s) := by
  unfold Phase at h
  cases hs : s.stage with
  | live =>
    rw [hs, ho] at h
    cases h.2
  | complete =>
    rw [hs, ho] at h
    rcases h with ⟨-, heq, hu⟩ | ⟨heq, -⟩
    · cases heq
      exact ⟨rfl, Or.inl ⟨rfl, rfl, hu⟩⟩
    · cases heq
  | dropped =>
    rw [hs, ho] at h
    rcases h with ⟨-, heq | heq, hshut⟩
    · cases heq
      exact ⟨rfl, Or.inr ⟨rfl, rfl, hshut⟩⟩
    · cases heq

/-- `abandon_upstreams` of `on_stream_complete` hands out what is queued and counts it, with all that
is in the tables. -/
theorem Books.abandonComplete (h : Books s) (hh : s.handler = []) (ho : s.outer = [.abandon true])
    (hs : s.stage = .complete) (hu : s.upstreams = true) (hc : calls.Perm s.inFlight.keys)
    (hp : handles.Perm s.openStreams.keys) :
    Books (s.abandonUpstreams true [] calls handles) := by
  have hflight : ((s.inFlight.pick calls).map (·.item)).Perm (s.inFlight.values.map (·.item)) :=
    (Table.pick_perm hc).map _
  have hopen : ((s.openStreams.pick handles).map (·.item)).Perm (s.openStreams.values.map (·.item)) :=
    (Table.pick_perm hp).map _
  rw [List.perm_iff_count] at hflight hopen
  have hin := h.handed
  rw [inHand_cons ho, List.perm_iff_count] at hin
  have heq : s.abandonUpstreams true [] calls handles =
      { s with
        upstreams := false
        closed := true
        queued := []
        streams := []
        handed := s.handed ++ s.queued.map (·.item) ++ s.streams.map (·.item)
        inFlight := ∅
        openStreams := ∅
        handler := (s.abandonUpstreams true [] calls handles).handler
        outer := [] } := by
    simp only [State.abandonUpstreams, hu, if_true, Bool.or_true]
  have hitems : (s.abandonUpstreams true [] calls handles).handler.flatMap Micro.items =
      s.queued.map (·.item) ++ (s.inFlight.pick calls).map (·.item) ++ s.streams.map (·.item) ++
        (s.openStreams.pick handles).map (·.item) := by
    simp only [State.abandonUpstreams, hu, if_true, List.flatMap_append, items_abandonCall,
      items_abandonQueued, items_abandonOpen, List.nil_append, items_count, List.map_append]
    rw [List.map_map]
    rfl
  rw [heq]
  generalize (s.abandonUpstreams true [] calls handles).handler = handler at hitems ⊢
  refine ⟨?_, ?_, ?_, h.once, ?_, ?_, h.counted, ?_, ?_⟩
  · refine h.queued.trans (List.perm_iff_count.mpr fun i => ?_)
    simp only [State.waiting, List.count_append, List.map_nil, List.count_nil]
    omega
  · refine List.perm_iff_count.mpr fun i => ?_
    have hi := hin i
    have hfi := hflight i
    have hoi := hopen i
    simp only [State.inHand, State.atWork, hitems, hh, Outer.items, List.flatMap_nil,
      Table.values_empty, List.map_nil, List.count_append, List.count_nil] at hi ⊢
    omega
  · intro i hi
    have := h.known i hi
    cases i <;> exact this
  · exact fun k hk => absurd hk (AList.notMem_empty k)
  · exact fun k hk => absurd hk (AList.notMem_empty k)
  · intro r hr i hi
    exact List.mem_append_left _ (List.mem_append_left _ (h.sent r hr i hi))
  · unfold Phase
    rw [hs]
    exact Or.inr ⟨rfl, rfl, rfl, rfl, rfl, rfl, rfl⟩

/-- `abandon_upstreams` of `drop` finds nothing left. -/
theorem abandonUpstreams_of_shut (h : Shut s) (hh : s.handler = [])
    (hc : calls.Perm s.inFlight.keys) (hp : handles.Perm s.openStreams.keys) :
    s.abandonUpstreams false [] calls handles = { s with outer := [] } := by
  have hcalls : calls = [] := by
    rw [h.inFlight] at hc
    exact hc.eq_nil
  have hhandles : handles = [] := by
    rw [h.openStreams] at hp
    exact hp.eq_nil
  obtain ⟨hclosed, hupstreams, hqueued, hstreams, hflight, hopen⟩ := h
  cases s
  simp_all [State.abandonUpstreams, Table.pick]

theorem Books.turns (h : Books s) (ht : t = { s with stage := t.stage, outer := t.outer })
    (hs : s.outer.flatMap Outer.items = []) (hout : t.outer.flatMap Outer.items = [])
    (hp : Phase t) : Books t := by
  have hwork : t.atWork = s.atWork := by rw [ht]; rfl
  refine ⟨?_, ?_, ?_, ?_, ?_, ?_, ?_, ?_, hp⟩
  · rw [ht]; exact h.queued
  · have hin := h.handed
    have hh : t.handed = s.handed := by rw [ht]
    rw [State.inHand, hs] at hin
    rw [hh, State.inHand, hout, hwork]
    exact hin
  · rw [ht]
    intro i hi
    have := h.known i hi
    cases i <;> exact this
  · rw [ht]; exact h.once
  · rw [ht]; exact h.callouts
  · rw [ht]; exact h.handles
  · rw [ht]; exact h.counted
  · rw [ht]; exact h.sent

/-- What the worker comes to when the order of a table is chosen, for the pump or to abandon what it
holds. -/
inductive OrderMoves (s : State) (calls handles : List ℕ) : State → Prop
  | pump {rest : List Outer} (handler : s.handler = []) (outer : s.outer = .pump :: rest)
      (opened : handles.Perm s.openStreams.keys) :
      OrderMoves s calls handles { s with outer := handles.map .pumpOne ++ rest }
  | abandon {counting : Bool} {rest : List Outer} (handler : s.handler = [])
      (outer : s.outer = .abandon counting :: rest) (waiting : calls.Perm s.inFlight.keys)
      (opened : handles.Perm s.openStreams.keys) :
      OrderMoves s calls handles (s.abandonUpstreams counting rest calls handles)

theorem ordered_moves (ht : s.ordered calls handles = some t) : OrderMoves s calls handles t := by
  unfold State.ordered at ht
  split at ht
  · rename_i rest hh ho
    simp only [Option.ite_none_right_eq_some, Option.some.injEq] at ht
    obtain ⟨hp, rfl⟩ := ht
    exact .pump hh ho hp
  · rename_i counting rest hh ho
    simp only [Option.ite_none_right_eq_some, Option.some.injEq] at ht
    obtain ⟨⟨hc, hp⟩, rfl⟩ := ht
    exact .abandon hh ho hc hp
  · cases ht

theorem Books.ordered (h : Books s) (ht : s.ordered calls handles = some t) : Books t := by
  cases ordered_moves ht with
  | pump _ ho => exact h.pump ho
  | abandon hh ho hc hp =>
    obtain ⟨rfl, ⟨hs, rfl, hu⟩ | ⟨hs, rfl, hshut⟩⟩ := h.phase.abandoning ho
    · exact h.abandonComplete hh ho hs hu hc hp
    · rw [abandonUpstreams_of_shut hshut hh hc hp]
      refine h.turns rfl (by rw [ho]; rfl) rfl ?_
      unfold Phase
      rw [show ({ s with outer := [] } : State).stage = .dropped from hs]
      exact ⟨hh, Or.inr rfl, hshut.1, hshut.2, hshut.3, hshut.4, hshut.5, hshut.6⟩

theorem idle_iff : s.idle = true ↔ s.handler = [] ∧ s.outer = [] := by
  rw [State.idle, Bool.and_eq_true, List.isEmpty_iff, List.isEmpty_iff]

/-- An end of the request that has come leaves nothing. -/
theorem Phase.shut (h : Phase s) (ho : s.outer = []) (hs : s.stage ≠ .live) : Shut s := by
  unfold Phase at h
  cases hstage : s.stage with
  | live => exact absurd hstage hs
  | complete =>
    rw [hstage, ho] at h
    rcases h with ⟨-, heq, -⟩ | ⟨-, hshut⟩
    · cases heq
    · exact hshut
  | dropped =>
    rw [hstage] at h
    exact h.2.2

/-- An event after the end of the request finds the route gone. -/
theorem Books.event (h : Books s) (hidle : s.idle = true) :
    Books { s with outer := if s.upstreams then [.takeCalls] else [] } := by
  obtain ⟨hh, ho⟩ := idle_iff.mp hidle
  by_cases hlive : s.stage = .live
  · refine h.turns rfl (by rw [ho]; rfl) (by dsimp only; split <;> rfl) ?_
    refine h.phase.sending hlive rfl rfl fun _ => ?_
    dsimp only
    split <;> rfl
  · have hshut := h.phase.shut ho hlive
    have heq : (if s.upstreams then [Outer.takeCalls] else []) = s.outer := by
      rw [hshut.upstreams, ho]
      rfl
    rw [heq]
    exact h

theorem Books.complete (h : Books s) (hidle : s.idle = true) (hs : s.stage = .live) :
    Books { s with stage := .complete, outer := [.abandon true] } := by
  obtain ⟨hh, ho⟩ := idle_iff.mp hidle
  exact h.turns rfl (by rw [ho]; rfl) rfl (Or.inl ⟨hh, rfl, (h.phase.live hs).1⟩)

theorem Books.drop (h : Books s) (hidle : s.idle = true) (hs : s.stage = .complete) :
    Books { s with stage := .dropped, outer := [.abandon false] } := by
  obtain ⟨hh, ho⟩ := idle_iff.mp hidle
  have hshut := h.phase.shut ho (by rw [hs]; rintro ⟨⟩)
  exact h.turns rfl (by rw [ho]; rfl) rfl
    ⟨hh, Or.inl rfl, hshut.1, hshut.2, hshut.3, hshut.4, hshut.5, hshut.6⟩

end Abandon

end Ruvoy.Upstream
