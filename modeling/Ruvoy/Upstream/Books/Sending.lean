import Ruvoy.Upstream.Books.Accounts

/-!
# `send_upstream_calls` keeps the accounts

The worker takes the queued calls, then the queued streams, and sends them one by one; in between Envoy
answers a start, and open streams are pumped.

* `Books.goesOn`, `Books.changes`, `Books.taken`: what is left of the work goes on, changes hands, or is
  taken from the queue;
* `Books.outerStep`, `Books.envoyReturns`, `Books.pump`: each of its steps.
-/

set_option autoImplicit false

namespace Ruvoy.Upstream

open Runs

variable {s t : State}

/-! ## `send_upstream_calls` -/

section Outer

variable {o : Outer} {rest : List Outer}

theorem inHand_cons (ho : s.outer = o :: rest) :
    s.inHand = o.items ++ rest.flatMap Outer.items ++ s.atWork := by
  rw [State.inHand, ho, List.flatMap_cons]

theorem abandons_rest {outer : List Outer} (ho : s.outer = o :: rest)
    (ha : outer.any Outer.abandons = rest.any Outer.abandons)
    (h : s.outer.any Outer.abandons = false) : outer.any Outer.abandons = false := by
  rw [ho, List.any_cons, Bool.or_eq_false_iff] at h
  exact ha.trans h.2

theorem sent_append {requests : List EnvoyRequest} {q : EnvoyRequest} {p : Item → Prop}
    (hq : ∀ i ∈ q.items, p i) (r : EnvoyRequest) (hr : r ∈ requests ++ [q]) :
    r ∈ requests ∨ ∀ i ∈ r.items, p i := by
  rcases List.mem_append.mp hr with hmem | hmem
  · exact Or.inl hmem
  · rw [List.mem_singleton.mp hmem]
    exact Or.inr hq

theorem Books.goesOn (h : Books s) (hs : s.stage = .live) (ho : s.outer = o :: rest)
    (ht : t = { s with
      calls := t.calls, channels := t.channels, outer := t.outer, requests := t.requests })
    (hitems : t.outer.flatMap Outer.items = o.items ++ rest.flatMap Outer.items)
    (ha : t.outer.any Outer.abandons = rest.any Outer.abandons)
    (hsent : ∀ r ∈ t.requests, r ∈ s.requests ∨ ∀ i ∈ r.items, i ∈ o.items) : Books t := by
  have hwork : t.atWork = s.atWork := by rw [ht]; rfl
  refine h.sending hs (by rw [ht]) (abandons_rest ho ha) ?_ ?_ ?_ ?_
  · rw [State.inHand, hitems, hwork, inHand_cons ho]
  · rw [ht]; exact h.callouts
  · rw [ht]; exact h.handles
  · intro r hr
    refine (hsent r hr).imp_right fun hin i hi => ?_
    rw [inHand_cons ho]
    exact List.mem_append_left _ (List.mem_append_left _ (hin i hi))

theorem Books.changes (h : Books s) (hs : s.stage = .live) (ho : s.outer = o :: rest)
    (hnone : o.items = []) {k : ℕ} {stream stream' : OpenStream}
    (hk : s.openStreams.lookup k = some stream)
    (ht : t = { s with
      calls := t.calls, channels := t.channels, outer := t.outer, requests := t.requests,
      openStreams := s.openStreams.insert k stream' })
    (hi : stream'.item = stream.item)
    (hitems : t.outer.flatMap Outer.items = rest.flatMap Outer.items)
    (ha : t.outer.any Outer.abandons = rest.any Outer.abandons)
    (hsent : ∀ r ∈ t.requests, r ∈ s.requests ∨ ∀ i ∈ r.items, i ∈ o.items) : Books t := by
  have hwork : t.atWork.Perm s.atWork := by
    rw [ht]
    exact ((Table.map_insert_perm (f := OpenStream.item) hk hi).append_left _).append_right _
  refine h.sending hs (by rw [ht]) (abandons_rest ho ha) ?_ ?_ ?_ ?_
  · rw [State.inHand, hitems, inHand_cons ho, hnone, List.nil_append]
    exact hwork.append_left _
  · rw [ht]; exact h.callouts
  · rw [ht]
    intro k' hk'
    rcases (AList.mem_insert _).mp hk' with rfl | hmem
    · exact h.handles k' (AList.lookup_isSome.mp (by rw [hk]; rfl))
    · exact h.handles k' hmem
  · intro r hr
    refine (hsent r hr).imp_right fun hin i hi => ?_
    have := hin i hi
    rw [hnone] at this
    cases this

theorem Books.taken (h : Books s) (hs : s.stage = .live)
    (ht : t = { s with
      queued := t.queued, streams := t.streams, handed := t.handed, trace := t.trace,
      outer := t.outer })
    (ha : s.outer.any Outer.abandons = false → t.outer.any Outer.abandons = false)
    (hmoved : (t.waiting ++ t.handed).Perm (s.waiting ++ s.handed)) (hhand : t.handed.Perm t.inHand)
    (hsub : s.handed ⊆ t.handed) : Books t := by
  refine ⟨?_, hhand, ?_, ?_, ?_, ?_, ?_, ?_, ?_⟩
  · have : t.accepted = s.accepted := by rw [ht]
    rw [this]
    exact h.queued.trans hmoved.symm
  · rw [ht]
    intro i hi
    have := h.known i hi
    cases i <;> exact this
  · rw [ht]; exact h.once
  · rw [ht]; exact h.callouts
  · rw [ht]; exact h.handles
  · rw [ht]; exact h.counted
  · intro r hr i hi
    have hr' : r ∈ s.requests := by rw [ht] at hr; exact hr
    exact hsub (h.sent r hr' i hi)
  · exact h.phase.sending hs (by rw [ht]) (by rw [ht]) ha

theorem items_sendCall (calls : List UpstreamRequest) :
    (calls.map Outer.sendCall).flatMap Outer.items = calls.map (·.item) := by
  rw [List.flatMap_map]
  exact List.flatMap_pure_eq_map _ _

theorem items_startStream (streams : List UpstreamStreamRequest) :
    (streams.map Outer.startStream).flatMap Outer.items = streams.map (·.item) := by
  rw [List.flatMap_map]
  exact List.flatMap_pure_eq_map _ _

theorem Books.takeCalls (h : Books s) (hs : s.stage = .live) (ho : s.outer = .takeCalls :: rest) :
    Books { s with
      queued := []
      handed := s.handed ++ s.queued.map (·.item)
      outer := .takeStreams s.queued :: rest } := by
  refine h.taken hs rfl (abandons_rest ho rfl) ?_ ?_ (List.subset_append_left _ _)
  · rw [List.perm_iff_count]
    intro i
    simp only [State.waiting, List.count_append, List.map_nil, List.count_nil]
    omega
  · have hin := h.handed
    rw [inHand_cons ho, List.perm_iff_count] at hin
    rw [List.perm_iff_count]
    intro i
    have hi := hin i
    simp only [State.inHand, State.atWork, Outer.items, List.flatMap_cons, List.count_append,
      List.count_nil] at hi ⊢
    omega

theorem Books.takeStreams (h : Books s) (hs : s.stage = .live) {calls : List UpstreamRequest}
    (ho : s.outer = .takeStreams calls :: rest) (trace : Option Fields) :
    Books { s with
      streams := []
      handed := s.handed ++ s.streams.map (·.item)
      trace := trace
      outer := calls.map .sendCall ++ s.streams.map .startStream ++ .pump :: rest } := by
  refine h.taken hs rfl (abandons_rest ho ?_) ?_ ?_ (List.subset_append_left _ _)
  · simp only [List.any_append, List.any_cons, List.any_map]
    simp [Function.comp_def, Outer.abandons]
  · rw [List.perm_iff_count]
    intro i
    simp only [State.waiting, List.count_append, List.map_nil, List.count_nil]
    omega
  · have hin := h.handed
    rw [inHand_cons ho, List.perm_iff_count] at hin
    rw [List.perm_iff_count]
    intro i
    have hi := hin i
    simp only [State.inHand, State.atWork, Outer.items, List.flatMap_cons, List.flatMap_append,
      items_sendCall, items_startStream, List.count_append, List.count_nil] at hi ⊢
    omega

/-- Something the worker is done with, with what its callback has left to do. -/
theorem Books.leaves (h : Books s) (hs : s.stage = .live) (hh : s.handler = [])
    (ho : s.outer = o :: rest) {handler : List Micro}
    (hitems : handler.flatMap Micro.items = o.items) :
    Books { s with handler := handler, outer := rest } := by
  refine h.sending hs rfl (abandons_rest ho rfl) ?_ h.callouts h.handles fun r hr => Or.inl hr
  rw [inHand_cons ho, List.perm_iff_count]
  intro i
  simp only [State.inHand, State.atWork, hh, hitems, List.flatMap_nil, List.count_append,
    List.count_nil]
  omega

theorem Books.sendItem (h : Books s) (hs : s.stage = .live) {k : ℕ} {stream : OpenStream}
    (hk : s.openStreams.lookup k = some stream) (ho : s.outer = .pumpTake k :: rest)
    (item : Option StreamItem) : Books (s.sendItem k stream rest item) := by
  unfold State.sendItem
  split
  · exact h.goesOn hs ho rfl rfl rfl (sent_append (by rintro _ ⟨⟩))
  · exact h.changes hs ho rfl hk rfl rfl rfl rfl (sent_append (by rintro _ ⟨⟩))
  · exact h.goesOn hs ho rfl rfl rfl fun r hr => Or.inl hr

theorem Books.outerStep (h : Books s) (hh : s.handler = []) (ho : s.outer = o :: rest)
    (ht : s.outerStep o rest = some t) : Books t := by
  have hs : s.stage = .live := by
    refine h.phase.live_of_outer ho ?_
    rintro c rfl
    cases ht
  have hkept : ∀ r ∈ s.requests, r ∈ s.requests ∨ ∀ i ∈ r.items, i ∈ o.items :=
    fun r hr => Or.inl hr
  cases o with
  | takeCalls =>
    cases ht
    exact h.takeCalls hs ho
  | takeStreams calls =>
    cases ht
    exact h.takeStreams hs ho _
  | sendCall r =>
    cases ht
    exact h.goesOn hs ho rfl rfl rfl (sent_append fun _ => id)
  | startStream r =>
    simp only [State.outerStep] at ht
    split at ht
    · cases ht
      exact h.leaves hs hh ho rfl
    · cases ht
      exact h.goesOn hs ho rfl rfl rfl hkept
  | firstItem r =>
    cases ht
    exact h.goesOn hs ho rfl rfl rfl (sent_append fun _ => id)
  | pumpOne k =>
    simp only [State.outerStep] at ht
    split at ht
    · cases ht
      exact h.goesOn hs ho rfl rfl rfl hkept
    · rename_i stream hk
      split at ht
      · split at ht
        · cases ht
          exact h.goesOn hs ho rfl rfl rfl hkept
        · cases ht
          exact h.changes hs ho rfl hk rfl rfl rfl rfl (sent_append (by rintro _ ⟨⟩))
      · split at ht <;> cases ht <;> exact h.goesOn hs ho rfl rfl rfl hkept
  | pumpTake k =>
    simp only [State.outerStep] at ht
    split at ht
    · cases ht
      exact h.goesOn hs ho rfl rfl rfl hkept
    · rename_i stream hk
      cases ht
      have hq : Books (s.onQueue (.request stream.channel) (·.takeNext)) := h.beside rfl
      exact hq.sendItem hs hk ho _
  | inReset k =>
    cases ht
    exact h.goesOn hs ho rfl rfl rfl hkept
  | inSend k =>
    cases ht
    exact h.goesOn hs ho rfl rfl rfl hkept
  | pumpWriter k =>
    simp only [State.outerStep] at ht
    split at ht
    · cases ht
      exact h.goesOn hs ho rfl rfl rfl hkept
    · cases ht
      refine h.leaves hs hh ho ?_
      split <;> rfl
  | inCallout r => cases ht
  | inStart r requestEnded => cases ht
  | pump => cases ht
  | abandon c => cases ht

/-- What the worker comes to when Envoy returns from a call: what Envoy takes goes into a table, under
a number that is new, and what it refuses has failed. -/
inductive ReturnMoves (s : State) (result : InitResult) (id : ℕ) : State → Prop
  | call {r : UpstreamRequest} {rest : List Outer} (handler : s.handler = [])
      (outer : s.outer = .inCallout r :: rest) (takes : refusal result r.cluster = none)
      (new : id ∉ s.callouts) :
      ReturnMoves s result id { s with
        inFlight := s.inFlight.insert id ⟨r.response, r.cluster⟩
        callouts := id :: s.callouts
        outer := rest }
  | noCall {r : UpstreamRequest} {rest : List Outer} {text : String} (handler : s.handler = [])
      (outer : s.outer = .inCallout r :: rest) (refuses : refusal result r.cluster = some text) :
      ReturnMoves s result id { s with
        handler := [.push (.call r.response) (.Failed (.Upstream text)), .wake (.call r.response),
          .count r.item r.cluster .Refused]
        outer := rest }
  | stream {r : UpstreamStreamRequest} {requestEnded : Bool} {rest : List Outer}
      (handler : s.handler = []) (outer : s.outer = .inStart r requestEnded :: rest)
      (takes : refusal result r.cluster = none) (new : id ∉ s.handles) :
      ReturnMoves s result id { s with
        openStreams := s.openStreams.insert id
          { channel := r.channel, cluster := r.cluster, requestEnded := requestEnded }
        handles := id :: s.handles
        outer := rest }
  | noStream {r : UpstreamStreamRequest} {requestEnded : Bool} {rest : List Outer} {text : String}
      (handler : s.handler = []) (outer : s.outer = .inStart r requestEnded :: rest)
      (refuses : refusal result r.cluster = some text) :
      ReturnMoves s result id { s with
        handler := channelFail r.channel (.Upstream text) ++ wakeStream r.channel ++
          [.count r.item r.cluster .Refused]
        outer := rest }

theorem envoyReturns_moves {result : InitResult} {id : ℕ} (ht : s.envoyReturns result id = some t) :
    ReturnMoves s result id t := by
  unfold State.envoyReturns at ht
  split at ht
  · rename_i r rest hh ho
    split at ht
    · rename_i hnone
      simp only [Option.ite_none_left_eq_some, Option.some.injEq] at ht
      obtain ⟨hnew, rfl⟩ := ht
      exact .call hh ho hnone hnew
    · rename_i text hsome
      cases ht
      exact .noCall hh ho hsome
  · rename_i r requestEnded rest hh ho
    split at ht
    · rename_i hnone
      simp only [Option.ite_none_left_eq_some, Option.some.injEq] at ht
      obtain ⟨hnew, rfl⟩ := ht
      exact .stream hh ho hnone hnew
    · rename_i text hsome
      cases ht
      exact .noStream hh ho hsome
  · cases ht

theorem Books.envoyReturns (h : Books s) {result : InitResult} {id : ℕ}
    (ht : s.envoyReturns result id = some t) : Books t := by
  have hlive {o : Outer} {rest : List Outer} (ho : s.outer = o :: rest)
      (hno : ∀ c, o ≠ .abandon c) : s.stage = .live :=
    h.phase.live_of_outer ho hno
  cases envoyReturns_moves ht with
  | call _ ho _ hnew =>
    refine h.sending (hlive ho (by rintro _ ⟨⟩)) rfl (abandons_rest ho rfl) ?_ ?_ h.handles
      fun r hr => Or.inl hr
    · have hold : id ∉ s.inFlight := fun hmem => hnew (h.callouts id hmem)
      rw [inHand_cons ho, List.perm_iff_count]
      intro i
      simp only [State.inHand, State.atWork, Table.values_insert,
        Table.values_erase_of_notMem hold, Outer.items, List.count_append, List.map_cons,
        List.count_cons, List.count_nil, PendingCall.item, UpstreamRequest.item]
      omega
    · intro k hk
      rcases (AList.mem_insert _).mp hk with rfl | hmem
      · exact List.mem_cons_self
      · exact List.mem_cons_of_mem _ (h.callouts k hmem)
  | stream _ ho _ hnew =>
    refine h.sending (hlive ho (by rintro _ ⟨⟩)) rfl (abandons_rest ho rfl) ?_ h.callouts ?_
      fun r hr => Or.inl hr
    · have hold : id ∉ s.openStreams := fun hmem => hnew (h.handles id hmem)
      rw [inHand_cons ho, List.perm_iff_count]
      intro i
      simp only [State.inHand, State.atWork, Table.values_insert,
        Table.values_erase_of_notMem hold, Outer.items, List.count_append, List.map_cons,
        List.count_cons, List.count_nil, OpenStream.item, UpstreamStreamRequest.item]
      omega
    · intro k hk
      rcases (AList.mem_insert _).mp hk with rfl | hmem
      · exact List.mem_cons_self
      · exact List.mem_cons_of_mem _ (h.handles k hmem)
  | noCall hh ho => exact h.leaves (hlive ho (by rintro _ ⟨⟩)) hh ho rfl
  | noStream hh ho => exact h.leaves (hlive ho (by rintro _ ⟨⟩)) hh ho rfl

theorem Books.pump (h : Books s) {handles : List ℕ} (ho : s.outer = .pump :: rest) :
    Books { s with outer := handles.map .pumpOne ++ rest } := by
  have hs : s.stage = .live := h.phase.live_of_outer ho (fun c => (by rintro ⟨⟩))
  have hitems : (handles.map Outer.pumpOne).flatMap Outer.items = [] := by
    rw [List.flatMap_map]
    exact List.flatMap_eq_nil_iff.mpr fun _ _ => rfl
  refine h.goesOn hs ho rfl ?_ ?_ fun r hr => Or.inl hr
  · rw [List.flatMap_append, hitems]
    rfl
  · rw [List.any_append, List.any_map]
    simp [Function.comp_def, Outer.abandons]

end Outer

end Ruvoy.Upstream
