import Ruvoy.Upstream.Requests.Quiet

/-!
# An open stream is pumped

The worker resets a stream that its fiber cancelled, and sends what the request queue of any other has, to
its end.

* `Pumps`, `Legal.pumps`: one request about one open stream keeps what is said of all the others;
* `Legal.reset`, `Legal.pumpTake`: the reset, a piece of the body and its end.
-/

set_option autoImplicit false

namespace Ruvoy.Upstream

open Runs

variable {s t : State} {e e' : Notes}

/-! ## Steps that ask something of a stream -/

theorem filter_about_append (qs : List EnvoyRequest) (k c : ℕ)
    (hq : ∀ q ∈ qs, q.about k c = false) :
    (s.requests ++ qs).filter (·.about k c) = s.requests.filter (·.about k c) := by
  have hnil : qs.filter (·.about k c) = [] :=
    List.filter_eq_nil_iff.mpr fun q hmem => Bool.not_eq_true _ ▸ hq q hmem
  rw [List.filter_append, hnil, List.append_nil]

theorem about_of_handle {q : EnvoyRequest} {k k' c : ℕ} (hq : q.handle? = some k) (hne : k ≠ k') :
    q.about k' c = false := by
  cases q with
  | callout => cases hq
  | start => cases hq
  | send h data endStream =>
    cases hq
    exact beq_false_of_ne hne
  | reset h =>
    cases hq
    exact beq_false_of_ne hne

theorem items_of_handle {q : EnvoyRequest} {k : ℕ} (hq : q.handle? = some k) : q.items = [] := by
  cases q <;> first | rfl | cases hq

/-- A step of the pump on the stream `o` of handle `k`. -/
structure Pumps (s t : State) (k : ℕ) (o o' : OpenStream) : Prop where
  opened : s.openStreams.lookup k = some o
  table : ∀ k', t.openStreams.lookup k' = if k' = k then some o' else s.openStreams.lookup k'
  channel : o'.channel = o.channel
  handles : t.handles = s.handles
  finished : t.finished = s.finished
  streams : t.streams = s.streams
  requests : ∃ qs, t.requests = s.requests ++ qs ∧ ∀ q ∈ qs, q.handle? = some k
  outer : ∃ x rest first, s.outer = first :: rest ∧ t.outer = x :: rest ∧ x.items = [] ∧
    ∀ k, x ≠ .pumpTake k
  taken : ∀ c, c ≠ o.channel → (t.request c).taken = (s.request c).taken
  cancelled : ∀ c, (s.request c).stream.cancelled = true → (t.request c).stream.cancelled = true
  wanted : ∀ c, (s.channels c).resetWanted = true → (t.channels c).resetWanted = true
  resetSent : o'.resetSent = true → (s.channels o.channel).resetWanted = true

namespace Pumps

variable {k : ℕ} {o o' : OpenStream}

theorem started (hp : Pumps s t k o o') (c : ℕ) : t.started c ↔ s.started c := by
  obtain ⟨qs, hreq, hqs⟩ := hp.requests
  have hnil : qs.flatMap EnvoyRequest.items = [] :=
    List.flatMap_eq_nil_iff.mpr fun q hq => items_of_handle (hqs q hq)
  rw [State.started, State.started, hreq, List.flatMap_append, hnil, List.append_nil]

/-- The list is shorter by at most the entry that is worked on. -/
theorem goes (hp : Pumps s t k o o') : Goes s t.outer := by
  obtain ⟨x, rest, first, ho, ht, hx, hno⟩ := hp.outer
  rw [ht]
  exact goes_to ho (no_stream_of_nil hx) hno

theorem trail (hp : Pumps s t k o o') {k' c : ℕ} {a : Asked} (h : Trail s e k' c a) (hk : k ≠ k')
    (hc : c ≠ o.channel) : Trail t e k' c a := by
  obtain ⟨qs, hreq, hqs⟩ := hp.requests
  refine ⟨?_, h.once, ?_, ?_, h.called, ?_, ?_⟩
  · rw [hreq, filter_about_append qs k' c fun q hq => about_of_handle (hqs q hq) hk]
    exact h.asked
  · rw [hp.taken c hc]
    exact h.bytes
  · rw [hp.taken c hc]
    exact h.whole
  · exact fun hb => (h.bodiless hb).imp_right (hp.cancelled c)
  · intro o'' ho''
    rw [hp.table k', if_neg hk.symm] at ho''
    exact h.opened o'' ho''

end Pumps

theorem mem_of_lookup {tab : Table OpenStream} {k : ℕ} {o : OpenStream} (h : tab.lookup k = some o) :
    k ∈ tab := AList.lookup_isSome.mp (Option.isSome_iff_exists.mpr ⟨o, h⟩)

theorem Legal.owner_handle (h : Legal s e) {p : ℕ × ℕ} (hp : p ∈ e.owner) : p.1 ∈ s.handles := by
  rw [← h.handles]
  exact List.mem_map_of_mem hp

theorem Legal.owner_key (h : Legal s e) {k c c' : ℕ} (hc : (k, c) ∈ e.owner)
    (hc' : (k, c') ∈ e.owner) : c = c' := by
  have hnd : (e.owner.map Prod.fst).Nodup := by
    rw [h.handles]
    exact h.once
  exact congrArg Prod.snd (List.inj_on_of_nodup_map hnd hc hc' rfl)

theorem Legal.owner_channel (h : Legal s e) {k k' c : ℕ} (hk : (k, c) ∈ e.owner)
    (hk' : (k', c) ∈ e.owner) : k = k' :=
  congrArg Prod.fst (List.inj_on_of_nodup_map h.channels hk hk' rfl)

/-- **A step of the pump keeps the requests legal**, when it keeps the trail of its stream. -/
theorem Legal.pumps (h : Legal s e) {k : ℕ} {o o' : OpenStream} (hp : Pumps s t k o o')
    (htrail : ∀ a, Trail s e k o.channel a → ∃ a', Trail t e k o.channel a') : Legal t e := by
  have hown := h.owned k o hp.opened
  have hhandle : k ∈ s.handles := h.owner_handle hown
  have hold : ∀ k' o'', t.openStreams.lookup k' = some o'' →
      k' = k ∧ o'' = o' ∨ s.openStreams.lookup k' = some o'' := by
    intro k' o'' ho''
    rw [hp.table k'] at ho''
    split at ho''
    · rename_i heq
      exact Or.inl ⟨heq, (Option.some.inj ho'').symm⟩
    · exact Or.inr ho''
  have hwait : ∀ c, .stream c ∈ t.waiting → .stream c ∈ s.waiting := by
    intro c hc
    obtain ⟨r, hr, hrc⟩ := stream_mem_waiting.mp hc
    exact stream_mem_waiting.mpr ⟨r, hp.streams ▸ hr, hrc⟩
  refine ⟨?_, ?_, ?_, ?_, ?_, h.channels, ?_, ?_, ?_, ?_, ?_, ?_, ?_, ?_, ?_⟩
  · intro k' hk' hfin
    rw [hp.finished] at hfin
    obtain ⟨o'', ho''⟩ := Option.isSome_iff_exists.mp (AList.lookup_isSome.mpr hk')
    rcases hold k' o'' ho'' with ⟨rfl, -⟩ | hwas
    · exact h.live k' (mem_of_lookup hp.opened) hfin
    · exact h.live k' (mem_of_lookup hwas) hfin
  · rw [hp.finished, hp.handles]
    exact h.finished
  · obtain ⟨qs, hreq, hqs⟩ := hp.requests
    intro q hq k' hk'
    rw [hreq] at hq
    rw [hp.handles]
    rcases List.mem_append.mp hq with hq | hq
    · exact h.asked q hq k' hk'
    · rw [hqs q hq] at hk'
      cases hk'
      exact hhandle
  · rw [hp.handles]
    exact h.handles
  · rw [hp.handles]
    exact h.once
  · intro k' o'' ho''
    rcases hold k' o'' ho'' with ⟨rfl, rfl⟩ | hwas
    · rw [hp.channel]
      exact hown
    · exact h.owned k' o'' hwas
  · intro p hmem hin
    rcases List.mem_append.mp hin with hw | ho
    · exact h.past p hmem (List.mem_append_left _ (hwait _ hw))
    · exact h.past p hmem (hp.goes.items ho)
  · intro c hstarted hin
    have hwas := (hp.started c).mp hstarted
    rcases List.mem_append.mp hin with hw | ho
    · exact h.unsent c hwas (List.mem_append_left _ (hwait _ hw))
    · exact h.unsent c hwas (hp.goes.unsent ho)
  · intro c hno
    have hne : c ≠ o.channel := by
      rintro rfl
      obtain ⟨a, ha⟩ := h.trails _ hown
      exact hno ((hp.started _).mpr ha.started)
    rw [hp.taken c hne]
    exact h.untouched c fun hwas => hno ((hp.started c).mpr hwas)
  · intro k' o'' ho'' hsent
    rcases hold k' o'' ho'' with ⟨-, rfl⟩ | hwas
    · rw [hp.channel]
      exact hp.wanted _ (hp.resetSent hsent)
    · exact hp.wanted _ (h.wanted k' o'' hwas hsent)
  · exact fun k' hk' => h.tail k' (hp.goes.tail hk')
  · obtain ⟨x, rest, first, ho, ht, hx, hno⟩ := hp.outer
    intro k' rest' ho'
    rw [ht] at ho'
    exact absurd (List.cons.inj ho').1 (hno k')
  · intro r b hmem
    have hwas := hp.goes.starting hmem
    obtain ⟨a, hfresh, ha⟩ := h.starting r b hwas
    refine ⟨a, hfresh, fun k' hk' => ?_⟩
    rw [hp.handles] at hk'
    refine hp.trail (ha k' hk') (fun heq => hk' (heq ▸ hhandle)) fun heq => ?_
    refine h.past _ hown (List.mem_append_right _ (List.mem_flatMap.mpr ⟨_, hwas, ?_⟩))
    rw [← heq]
    exact List.mem_cons_self
  · intro p hmem
    by_cases heq : p.1 = k
    · have hpair : p = (k, o.channel) := by
        refine Prod.ext heq (h.owner_key (k := k) ?_ hown)
        rw [← heq]
        exact hmem
      rw [hpair]
      obtain ⟨a, ha⟩ := h.trails _ hown
      exact htrail a ha
    · obtain ⟨a, ha⟩ := h.trails p hmem
      refine ⟨a, hp.trail ha (Ne.symm heq) fun hc => heq ?_⟩
      refine h.owner_channel (c := o.channel) ?_ hown
      rw [← hc]
      exact hmem

section Asks

variable {a : Asked} {k c : ℕ}

theorem list_chunk (hf : a.fin = false) (hr : a.rst = false) (b : Bytes) :
    { a with chunks := a.chunks ++ [b] }.list k c = a.list k c ++ [.send k b false] := by
  simp only [Asked.list, hf, hr, List.map_append, List.map_cons, List.map_nil, Bool.false_eq_true,
    if_false, List.append_nil, List.cons_append]

theorem list_fin (hf : a.fin = false) (hr : a.rst = false) :
    { a with fin := true }.list k c = a.list k c ++ [.send k [] true] := by
  simp only [Asked.list, hf, hr, Bool.false_eq_true, if_false, if_true, List.append_nil,
    List.cons_append]

theorem list_rst (hr : a.rst = false) :
    { a with rst := true }.list k c = a.list k c ++ [.reset k] := by
  simp only [Asked.list, hr, Bool.false_eq_true, if_false, if_true, List.append_nil,
    List.cons_append, List.append_assoc]

theorem filter_about_concat {q : EnvoyRequest} (hq : q.about k c = true) :
    (s.requests ++ [q]).filter (·.about k c) = s.requests.filter (·.about k c) ++ [q] := by
  rw [List.filter_append, List.filter_cons_of_pos hq, List.filter_nil]

theorem lookup_same {tab : Table OpenStream} {o : OpenStream} (h : tab.lookup k = some o) (k' : ℕ) :
    tab.lookup k' = if k' = k then some o else tab.lookup k' := by
  split
  · rename_i heq
    rw [heq, h]
  · rfl

theorem lookup_insert (tab : Table OpenStream) (k : ℕ) (o : OpenStream) (k' : ℕ) :
    (tab.insert k o).lookup k' = if k' = k then some o else tab.lookup k' := by
  split
  · rename_i heq
    rw [heq, AList.lookup_insert]
  · rename_i hne
    exact AList.lookup_insert_ne hne

variable {o : OpenStream} {rest : List Outer}

theorem Legal.reset (h : Legal s e) (ho : s.outer = .pumpOne k :: rest)
    (hk : s.openStreams.lookup k = some o)
    (hw : (s.channels o.channel).resetWanted = true) (hs : o.resetSent = false) :
    Legal { s with
      openStreams := s.openStreams.insert k { o with resetSent := true }
      requests := s.requests ++ [.reset k]
      outer := .inReset k :: rest } e := by
  have hp : Pumps s { s with
      openStreams := s.openStreams.insert k { o with resetSent := true }
      requests := s.requests ++ [.reset k]
      outer := .inReset k :: rest } k o { o with resetSent := true } := by
    refine ⟨hk, lookup_insert _ _ _, rfl, rfl, rfl, rfl, ⟨[.reset k], rfl, ?_⟩,
      ⟨_, rest, _, ho, rfl, rfl, by rintro _ ⟨⟩⟩, fun _ _ => rfl, fun _ => id, fun _ => id, fun _ => hw⟩
    exact fun q hq => by rw [List.mem_singleton.mp hq]; rfl
  refine h.pumps hp fun a ha => ?_
  have hflags := ha.opened o hk
  have hrst : a.rst = false := hflags.2.symm.trans hs
  refine ⟨{ a with rst := true }, ?_, ha.once, ha.bytes, ha.whole, ha.called, ha.bodiless, ?_⟩
  · have habout : (EnvoyRequest.reset k).about k o.channel = true := beq_self_eq_true k
    rw [filter_about_concat habout, list_rst hrst, ha.asked]
  · intro o' ho'
    rw [hp.table k, if_pos rfl] at ho'
    cases ho'
    exact ⟨hflags.1, rfl⟩

theorem request_take (c' : ℕ) :
    (s.onQueue (.request c) (·.takeNext)).request c' =
      if c' = c then (s.request c).takeNext else s.request c' := by
  rw [request_onQueue]
  by_cases heq : c' = c
  · rw [heq, if_pos rfl, if_pos rfl]
  · rw [if_neg heq, if_neg fun h => heq (Ref.request.inj h).symm]

/-- What a pump step that takes from a body has in common, whatever it takes. -/
theorem pumps_take {o' : OpenStream} {x : Outer} (qs : List EnvoyRequest) {tab : Table OpenStream}
    (ho : s.outer = .pumpTake k :: rest) (hk : s.openStreams.lookup k = some o)
    (htab : ∀ k', tab.lookup k' = if k' = k then some o' else s.openStreams.lookup k')
    (hc : o'.channel = o.channel) (hs : o'.resetSent = false)
    (hqs : ∀ q ∈ qs, q.handle? = some k) (hx : x.items = []) (hno : ∀ k, x ≠ .pumpTake k) :
    Pumps s { s.onQueue (.request o.channel) (·.takeNext) with
      openStreams := tab, requests := s.requests ++ qs, outer := x :: rest } k o o' := by
  refine ⟨hk, htab, hc, rfl, rfl, rfl, ⟨qs, rfl, hqs⟩, ⟨x, rest, _, ho, rfl, hx, hno⟩, ?_, ?_, ?_, ?_⟩
  · intro c' hne
    show ((s.onQueue (.request o.channel) (·.takeNext)).request c').taken = _
    rw [request_take, if_neg hne]
  · intro c' hcan
    show ((s.onQueue (.request o.channel) (·.takeNext)).request c').stream.cancelled = true
    rw [request_take]
    split
    · rename_i heq
      rw [heq] at hcan
      exact ResponseStream.takeNext_cancelled.trans hcan
    · exact hcan
  · exact wants_onQueue (s := s) (.request o.channel) (·.takeNext)
  · intro hsent
    rw [hs] at hsent
    cases hsent

/-- An end that is taken in the pump was sent by `finish`: that of a stream without a body goes out
with its start. -/
theorem finishes_of_taken (hb : Bodies s e) (ha : Trail s e k c a) (hended : a.ended = false)
    {rest : List StreamItem} (hitems : (s.request c).stream.items = .End :: rest) :
    c ∈ e.finishes := by
  have hcan : (s.request c).stream.cancelled = false := by
    rw [← Bool.not_eq_true]
    intro hc
    rw [(s.request c).stream.wf.cancelled hc] at hitems
    cases hitems
  have hend : .End ∈ (s.request c).accepted := by
    rw [← (s.request c).conserve hcan, hitems]
    exact List.mem_append_right _ List.mem_cons_self
  refine (hb.finish c hend).resolve_right fun hless => ?_
  rcases ha.bodiless hless with h | h
  · rw [hended] at h
    cases h
  · rw [hcan] at h
    cases h

/-- The trail of a stream the worker takes from, when the requests agree with what it took. -/
theorem Trail.takes (ha : Trail s e k c a) (hq : t.request c = (s.request c).takeNext) {a' : Asked}
    (hasked : t.requests.filter (·.about k c) = a'.list k c) (hended : a.ended = false)
    (hended' : a'.ended = a.ended) (hbytes : bodyOf (s.request c).takeNext.taken = a'.bytes)
    (hfin : a'.fin = true → .End ∈ (s.request c).takeNext.taken ∧ c ∈ e.finishes)
    (hopen : ∀ o, t.openStreams.lookup k = some o → o.requestEnded = a'.fin ∧ o.resetSent = a'.rst) :
    Trail t e k c a' := by
  have hwhole : a'.whole = a'.fin := by rw [Asked.whole, hended', hended, Bool.false_or]
  refine ⟨hasked, ?_, ?_, ?_, fun hf => (hfin hf).2, fun hless => ?_, ?_⟩
  · rw [hended', hended]
    rintro ⟨⟩
  · rw [hq]
    exact hbytes
  · rw [hq, hwhole]
    exact fun hf => (hfin hf).1
  · rw [hended', hq]
    exact (ha.bodiless hless).imp_right ResponseStream.takeNext_cancelled.trans
  · rw [hwhole]
    exact hopen

theorem Legal.pumpTake (h : Legal s e) (hb : Bodies s e) (ho : s.outer = .pumpTake k :: rest)
    (hk : s.openStreams.lookup k = some o) :
    Legal ((s.onQueue (.request o.channel) (·.takeNext)).sendItem k o rest
      (s.request o.channel).stream.takeNext.1) e := by
  obtain ⟨hended, hsent⟩ := h.pumping k rest ho o hk
  have hself : (s.onQueue (.request o.channel) (·.takeNext)).request o.channel =
      (s.request o.channel).takeNext := by rw [request_take, if_pos rfl]
  have hflags : ∀ a, Trail s e k o.channel a → a.ended = false ∧ a.fin = false ∧ a.rst = false := by
    intro a ha
    obtain ⟨hw, hr⟩ := ha.opened o hk
    rw [hended, Asked.whole, eq_comm, Bool.or_eq_false_iff] at hw
    exact ⟨hw.1, hw.2, hr.symm.trans hsent⟩
  -- the pump goes on to the writer, with nothing to send
  have hidle : bodyOf (s.request o.channel).takeNext.taken = bodyOf (s.request o.channel).taken →
      Legal { s.onQueue (.request o.channel) (·.takeNext) with outer := .pumpWriter k :: rest } e := by
    intro hbytes
    have hp := pumps_take [] (x := .pumpWriter k) ho hk (lookup_same hk) rfl hsent
      (by rintro _ ⟨⟩) rfl (by rintro _ ⟨⟩)
    rw [List.append_nil] at hp
    refine h.pumps hp fun a ha => ⟨a, ?_⟩
    obtain ⟨hstart, hfin, hrst⟩ := hflags a ha
    refine ha.takes ?_ ha.asked hstart rfl (hbytes.trans ha.bytes) ?_ fun o' ho' => ?_
    · exact hself
    · rw [hfin]
      rintro ⟨⟩
    · cases hk.symm.trans ho'
      exact ⟨hended.trans hfin.symm, hsent.trans hrst.symm⟩
  rcases (s.request o.channel).takeNext_cases with ⟨-, hnone, hsame⟩ |
    ⟨x, items, hitems, hsome, -, htaken, -⟩
  · rw [hnone]
    exact hidle (by rw [hsame])
  · rw [hsome]
    rw [htaken, bodyOf_append, bodyOf_cons, bodyOf_nil, List.append_nil] at hidle
    cases x with
    | Chunk b =>
      refine h.pumps (pumps_take [.send k b false] (x := .inSend k) ho hk (lookup_same hk) rfl hsent ?_
        rfl (by rintro _ ⟨⟩)) fun a ha => ?_
      · exact fun q hq => by rw [List.mem_singleton.mp hq]; rfl
      obtain ⟨hstart, hfin, hrst⟩ := hflags a ha
      refine ⟨{ a with chunks := a.chunks ++ [b] }, ha.takes ?_ ?_ hstart rfl ?_ ?_ ?_⟩
      · exact hself
      · have habout : (EnvoyRequest.send k b false).about k o.channel = true := beq_self_eq_true k
        exact (filter_about_concat (s := s) habout).trans (by rw [list_chunk hfin hrst, ha.asked])
      · rw [htaken, bodyOf_append, ha.bytes]
        simp only [Asked.bytes, bodyOf_cons, bytes_chunk, bodyOf_nil, List.append_nil,
          List.flatten_append, List.flatten_cons, List.flatten_nil, List.append_assoc]
      · intro hf
        rw [hfin] at hf
        cases hf
      · intro o' ho'
        cases hk.symm.trans ho'
        exact ⟨hended.trans hfin.symm, hsent.trans hrst.symm⟩
    | End =>
      refine h.pumps (pumps_take [.send k [] true] (x := .inSend k) ho hk (lookup_insert _ k _) rfl
        hsent ?_ rfl (by rintro _ ⟨⟩)) fun a ha => ?_
      · exact fun q hq => by rw [List.mem_singleton.mp hq]; rfl
      obtain ⟨hstart, hfin, hrst⟩ := hflags a ha
      refine ⟨{ a with fin := true }, ha.takes ?_ ?_ hstart rfl ?_ ?_ ?_⟩
      · exact hself
      · have habout : (EnvoyRequest.send k [] true).about k o.channel = true := beq_self_eq_true k
        exact (filter_about_concat (s := s) habout).trans (by rw [list_fin hfin hrst, ha.asked])
      · rw [htaken, bodyOf_append, ha.bytes]
        exact List.append_nil _
      · intro _
        rw [htaken]
        exact ⟨List.mem_append_right _ List.mem_cons_self, finishes_of_taken hb ha hstart hitems⟩
      · intro o' ho'
        have hlook := lookup_insert s.openStreams k { o with requestEnded := true } k
        rw [if_pos rfl] at hlook
        cases hlook.symm.trans ho'
        exact ⟨rfl, hsent.trans hrst.symm⟩
    | Head head => exact hidle (List.append_nil _)
    | Failed error => exact hidle (List.append_nil _)

end Asks

end Ruvoy.Upstream
