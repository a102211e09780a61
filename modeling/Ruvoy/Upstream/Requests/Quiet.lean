import Ruvoy.Upstream.Requests.Trail

/-!
# The steps that ask nothing

* `WantsMono`, `channels_step`: a reset that is wanted stays wanted, and nothing is taken of a body;
* `shift_micro`, `shift_onOpenStream`, `shift_onFinished`: the callbacks ask nothing of a stream;
* `Outer.quiet`, `shift_outerStep`, `shift_ordered`: nor does the worker, but where it pumps or starts one.
-/

set_option autoImplicit false

namespace Ruvoy.Upstream

open Runs

variable {s t : State} {e e' : Notes}

/-! ## The channels -/

/-- A reset that is wanted stays wanted. -/
def WantsMono (s t : State) : Prop :=
  ∀ c, (s.channels c).resetWanted = true → (t.channels c).resetWanted = true

section Channels

theorem wants_of_channels (h : t.channels = s.channels) : WantsMono s t := by
  intro c hc
  rw [h]
  exact hc

theorem wants_onQueue (r : Ref) (f : Tracked → Tracked) : WantsMono s (s.onQueue r f) :=
  fun c hc => (onQueue_resetWanted r f c).trans hc

theorem wants_setChannel (n : ℕ) (f : StreamChannel → StreamChannel)
    (hf : ∀ c, c.resetWanted = true → (f c).resetWanted = true) :
    WantsMono s (s.setChannel n f) := by
  intro c hc
  rw [setChannel_channels]
  split
  · rename_i heq
    rw [heq] at hc
    exact hf _ hc
  · exact hc

theorem wants_micro (m : Micro) (rest : List Micro) : WantsMono s (s.micro m rest) := by
  cases m with
  | push r x => exact wants_onQueue (s := s) r (·.push x)
  | data k bytes endStream =>
    simp only [State.micro, State.deliverData]
    split
    · exact wants_of_channels rfl
    · rename_i o hk
      have hw : WantsMono s (s.onQueue (.response o.channel) (·.pushIfRoom bytes)) :=
        wants_onQueue _ _
      split
      · split <;> exact hw
      · exact hw
      · exact hw
  | stopped k =>
    simp only [State.micro]
    split <;> exact wants_of_channels rfl
  | setTrailers n trailers =>
    exact wants_setChannel (s := s) n ({ · with trailers := some trailers }) fun _ hc => hc
  | cancelRequest n => exact wants_onQueue (s := s) (.request n) (·.cancel)
  | wantReset n => exact wants_setChannel (s := s) n ({ · with resetWanted := true }) fun _ _ => rfl
  | _ => exact wants_of_channels rfl

theorem wants_outerStep {o : Outer} {rest : List Outer} (ht : s.outerStep o rest = some t) :
    WantsMono s t := by
  cases o with
  | startStream r =>
    simp only [State.outerStep] at ht
    split at ht <;> cases ht <;> exact wants_of_channels rfl
  | firstItem r =>
    cases ht
    exact wants_onQueue (s := s) (.request r.channel) (·.takeNext)
  | pumpOne k =>
    simp only [State.outerStep] at ht
    split at ht
    · cases ht
      exact wants_of_channels rfl
    · split at ht
      · split at ht <;> cases ht <;> exact wants_of_channels rfl
      · split at ht <;> cases ht <;> exact wants_of_channels rfl
  | pumpTake k =>
    simp only [State.outerStep] at ht
    split at ht
    · cases ht
      exact wants_of_channels rfl
    · rename_i o hk
      cases ht
      have hw : WantsMono s (s.onQueue (.request o.channel) (·.takeNext)) := wants_onQueue _ _
      unfold State.sendItem
      split <;> exact hw
  | pumpWriter k =>
    simp only [State.outerStep] at ht
    split at ht <;> cases ht <;> exact wants_of_channels rfl
  | inCallout r => cases ht
  | inStart r requestEnded => cases ht
  | pump => cases ht
  | abandon c => cases ht
  | _ =>
    cases ht
    exact wants_of_channels rfl

theorem wants_fiber {op : FiberOp} (ht : s.fiber op = some t) : WantsMono s t := by
  cases op with
  | take r | park r v =>
    simp only [State.fiber, Option.ite_none_right_eq_some, Option.some.injEq] at ht
    obtain ⟨-, rfl⟩ := ht
    exact wants_onQueue r _
  | unpark r | write n bytes | finish n | parkWriter n v =>
    cases ht
    exact wants_onQueue _ _
  | close n =>
    cases ht
    exact wants_onQueue (s := s) (.response n) (·.cancel)
  | timeOut n =>
    cases ht
    exact wants_setChannel (s := s) n ({ · with timedOut := true }) fun _ hc => hc

theorem wants_rubyStep (ht : s.rubyStep = some t) : WantsMono s t := by
  cases rubyStep_moves ht with
  | @response n => exact wants_onQueue (s := s) (.response n) (·.cancel)
  | @request n => exact wants_onQueue (s := s) (.request n) (·.cancel)
  | @reset n =>
    exact wants_setChannel (s := s) n ({ · with resetWanted := true }) fun _ _ => rfl

theorem wants_step {a : Action} (ht : step s a = some t) : WantsMono s t := by
  cases step_moves ht with
  | queueStream _ cluster headers timeout hasBody =>
    have hw : WantsMono s (if hasBody then s else
        s.onQueue (.request s.nextChannel) (·.push .End)) := by
      split
      · exact wants_of_channels rfl
      · exact wants_onQueue _ _
    unfold State.queueStream
    dsimp only
    split <;> exact hw
  | queue =>
    unfold State.queue
    dsimp only
    split <;> exact wants_of_channels rfl
  | fiber _ ht => exact wants_fiber ht
  | ruby ht => exact wants_rubyStep ht
  | calloutDone =>
    unfold State.onHttpCalloutDone
    split <;> exact wants_of_channels rfl
  | micro => exact wants_micro _ _
  | outerStep _ _ ht => exact wants_outerStep ht
  | returns ht => exact wants_of_channels (envoyReturns_frame ht).channels
  | order ht => exact wants_of_channels (ordered_frame ht).channels
  | @resolve r => exact wants_onQueue (s := s) r (·.unpark)
  | streamHeaders | streamData | streamTrailers =>
    unfold State.onOpenStream
    split <;> exact wants_of_channels rfl
  | streamComplete | streamReset =>
    unfold State.onFinished
    split <;> exact wants_of_channels rfl
  | event | complete | drop | takeWakeups => exact wants_of_channels rfl

theorem channels_step {a : Action} (hb : Plain s.handler) (ht : step s a = some t)
    (hfirst : ∀ r rest, a = .work → s.handler = [] → s.outer ≠ .firstItem r :: rest)
    (hpump : ∀ k o rest, a = .work → s.handler = [] → s.outer = .pumpTake k :: rest →
      s.openStreams.lookup k ≠ some o) : Channels s t := by
  refine ⟨fun c => ?_, cancelled_step hb ht, wants_step ht⟩
  have hturn := request_step hb ht c
  generalize t.request c = q at hturn ⊢
  cases hturn with
  | rests hr => exact hr.taken
  | first ha hh ho => exact absurd ho (hfirst _ _ ha hh)
  | pumped ha hh ho hk => exact absurd hk (hpump _ _ _ ha hh ho)
  | written => rfl
  | ended => rfl
  | bodiless => rfl

end Channels

/-! ## Steps that ask nothing, by what they do -/

section Quiet

variable {o : OpenStream}

theorem alike_refl (o : OpenStream) : Alike o o := ⟨rfl, rfl, rfl⟩

theorem alike_headersArrived (headers : Headers) (endStream : Bool) :
    Alike o (o.headersArrived headers endStream).1 := by
  unfold OpenStream.headersArrived
  split
  · exact alike_refl o
  · split
    · exact ⟨rfl, rfl, rfl⟩
    · cases endStream <;> exact ⟨rfl, rfl, rfl⟩

theorem alike_dataArrived (handle : ℕ) (data : List Bytes) (endStream : Bool) :
    Alike o (o.dataArrived handle data endStream).1 := by
  unfold OpenStream.dataArrived
  split
  · exact alike_refl o
  · split
    · cases endStream <;> exact ⟨rfl, rfl, rfl⟩
    · exact alike_refl o

theorem alike_trailersArrived (trailers : Headers) : Alike o (o.trailersArrived trailers).1 := by
  unfold OpenStream.trailersArrived
  split <;> exact ⟨rfl, rfl, rfl⟩

/-- A stream of the table that is changed as far as the requests do not go. -/
theorem table_insert {tab : Table OpenStream} {k : ℕ} {o' : OpenStream} (hk : tab.lookup k = some o)
    (ha : Alike o o') (k' : ℕ) (o'' : OpenStream) (h : (tab.insert k o').lookup k' = some o'') :
    ∃ o₀, tab.lookup k' = some o₀ ∧ Alike o₀ o'' := by
  by_cases heq : k' = k
  · rw [heq, AList.lookup_insert] at h
    cases h
    exact ⟨o, heq ▸ hk, ha⟩
  · rw [AList.lookup_insert_ne heq] at h
    exact ⟨o'', h, alike_refl _⟩

theorem Shift.of_table (hr : t.requests = s.requests) (hh : t.handles = s.handles)
    (ho : ∀ k o', t.openStreams.lookup k = some o' → ∃ o, s.openStreams.lookup k = some o ∧ Alike o o')
    (hf : ∀ k ∈ t.finished, k ∈ s.finished ∨ k ∈ s.handles ∧ t.openStreams.lookup k = none)
    (hw : ∀ r ∈ t.streams, r ∈ s.streams) (hout : Goes s t.outer) : Shift s t := by
  refine ⟨fun k c => by rw [hr], fun q hq _ _ => hr ▸ hq, fun c => by rw [State.started, hr]; rfl, hh,
    ho, hf, ?_, hout⟩
  intro c hc
  obtain ⟨r, hmem, hrc⟩ := stream_mem_waiting.mp hc
  exact Or.inl (stream_mem_waiting.mpr ⟨r, hw r hmem, hrc⟩)

theorem Shift.of_eq (hr : t.requests = s.requests) (hh : t.handles = s.handles)
    (ho : t.openStreams = s.openStreams) (hf : t.finished = s.finished)
    (hw : ∀ r ∈ t.streams, r ∈ s.streams) (hout : Goes s t.outer) : Shift s t := by
  refine .of_table hr hh ?_ ?_ hw hout
  · rw [ho]
    exact fun k o hk => ⟨o, hk, alike_refl o⟩
  · rw [hf]
    exact fun k hk => Or.inl hk

theorem shift_update {k : ℕ} {r : OpenStream × List Micro} {l : List Micro}
    (hk : s.openStreams.lookup k = some o) (ha : Alike o r.1) : Shift s (s.update k r l) :=
  .of_table rfl rfl (table_insert hk ha) (fun _ => Or.inl) (fun _ => id) .same

theorem shift_onQueue (r : Ref) (f : Tracked → Tracked) : Shift s (s.onQueue r f) := by
  rw [onQueue_eq s r]
  exact .of_eq rfl rfl rfl rfl (fun _ => id) .same

theorem Shift.trans_eq {u : State} (h : Shift s t) (hu : u = { t with
    calls := u.calls, channels := u.channels, ruby := u.ruby, wakeups := u.wakeups,
    resolving := u.resolving, handler := u.handler }) : Shift s u := by
  rw [hu]
  exact ⟨h.requests, h.asked, h.started, h.handles, h.table, h.finished, h.waiting, h.outer⟩

theorem shift_deliverData {k : ℕ} {bytes : Bytes} {endStream : Bool} {rest : List Micro} :
    Shift s (s.deliverData k bytes endStream rest) := by
  unfold State.deliverData
  split
  · exact .of_eq rfl rfl rfl rfl (fun _ => id) .same
  · rename_i o hk
    have hq : ∀ {r : OpenStream × List Micro}, Alike o r.1 →
        Shift s ((s.onQueue (.response o.channel) (·.pushIfRoom bytes)).update k r rest) :=
      fun ha => (shift_update hk ha (l := rest)).trans_eq rfl
    dsimp only
    split
    · split
      · exact hq ⟨rfl, rfl, rfl⟩
      · exact .of_eq rfl rfl rfl rfl (fun _ => id) .same
    · exact hq ⟨rfl, rfl, rfl⟩
    · exact hq ⟨rfl, rfl, rfl⟩

theorem shift_micro (m : Micro) (rest : List Micro) : Shift s (s.micro m rest) := by
  cases m with
  | push r x => exact (shift_onQueue r (·.push x)).trans_eq rfl
  | data k bytes endStream => exact shift_deliverData
  | stopped k =>
    simp only [State.micro]
    split
    · exact .of_eq rfl rfl rfl rfl (fun _ => id) .same
    · rename_i o hk
      exact shift_update hk ⟨rfl, rfl, rfl⟩
  | _ => exact .of_eq rfl rfl rfl rfl (fun _ => id) .same

theorem shift_onOpenStream {k : ℕ} {f : OpenStream → OpenStream × List Micro}
    (hf : ∀ o, Alike o (f o).1) : Shift s (s.onOpenStream k f) := by
  unfold State.onOpenStream
  split
  · exact .of_eq rfl rfl rfl rfl (fun _ => id) .same
  · rename_i o hk
    exact shift_update hk (hf o)

theorem shift_onFinished {k : ℕ} {f : OpenStream → List Micro} (hk : k ∈ s.handles) :
    Shift s { s.onFinished k f with finished := k :: s.finished } := by
  have hnone : (s.onFinished k f).openStreams.lookup k = none := by
    unfold State.onFinished
    split
    · assumption
    · exact AList.lookup_erase _ _
  have hsub : ∀ k' o', (s.onFinished k f).openStreams.lookup k' = some o' →
      ∃ o, s.openStreams.lookup k' = some o ∧ Alike o o' := by
    intro k' o' ho'
    refine ⟨o', ?_, alike_refl o'⟩
    by_cases heq : k' = k
    · rw [heq, hnone] at ho'
      cases ho'
    · unfold State.onFinished at ho'
      split at ho'
      · exact ho'
      · rwa [AList.lookup_erase_ne heq] at ho'
  have hfields : s.onFinished k f = { s with
      openStreams := (s.onFinished k f).openStreams, handler := (s.onFinished k f).handler } := by
    unfold State.onFinished
    split <;> rfl
  refine .of_table ?_ ?_ hsub ?_ ?_ ?_
  · rw [hfields]
  · rw [hfields]
  · intro k' hk'
    rcases List.mem_cons.mp hk' with rfl | hold
    · exact Or.inr ⟨hk, hnone⟩
    · exact Or.inl hold
  · rw [hfields]
    exact fun _ => id
  · rw [hfields]
    exact .same

end Quiet

section Outer

variable {o : Outer} {rest : List Outer}

theorem goes_on (ho : s.outer = o :: rest) {l : List Outer}
    (hl : ∀ o ∈ l, Comes s o ∧ ∀ k, o ≠ .pumpTake k) : Goes s (l ++ rest) := by
  have h := Goes.on hl
  rw [ho] at h
  exact h

theorem goes_rest (ho : s.outer = o :: rest) : Goes s rest := goes_on (l := []) ho (by rintro _ ⟨⟩)

theorem goes_to (ho : s.outer = o :: rest) {o' : Outer} (hi : ∀ c, .stream c ∉ o'.items)
    (hp : ∀ k, o' ≠ .pumpTake k) : Goes s (o' :: rest) := by
  refine goes_on (l := [o']) ho fun o'' hmem => ?_
  rw [List.mem_singleton.mp hmem]
  exact ⟨Or.inl hi, hp⟩

theorem no_stream_of_nil {o : Outer} (h : o.items = []) (c : ℕ) : .stream c ∉ o.items := by
  rw [h]
  exact List.not_mem_nil

theorem no_stream_of_calls {o : Outer} (calls : List UpstreamRequest)
    (h : o.items = calls.map (·.item)) (c : ℕ) : .stream c ∉ o.items := by
  rw [h]
  intro hmem
  obtain ⟨r, -, hr⟩ := List.mem_map.mp hmem
  cases hr

theorem shift_sendCall {r : UpstreamRequest} (ho : s.outer = .sendCall r :: rest)
    (ht : s.outerStep (.sendCall r) rest = some t) : Shift s t := by
  cases ht
  refine ⟨fun k c => ?_, fun q hq k hk => ?_, fun c => ?_, rfl, ?_, fun _ => Or.inl, fun _ => Or.inl, ?_⟩
  · exact (List.filter_append _ _).trans (List.append_nil _)
  · rcases List.mem_append.mp hq with hq | hq
    · exact hq
    · rw [List.mem_singleton.mp hq] at hk
      cases hk
  · rw [State.started, State.started, List.flatMap_append, List.mem_append]
    refine ⟨fun h => h.resolve_right fun hmem => ?_, Or.inl⟩
    cases List.mem_singleton.mp hmem
  · exact fun k o hk => ⟨o, hk, alike_refl o⟩
  · exact goes_to ho (no_stream_of_calls [r] rfl) (by rintro _ ⟨⟩)

theorem shift_takeStreams {calls : List UpstreamRequest} (ho : s.outer = .takeStreams calls :: rest)
    (ht : s.outerStep (.takeStreams calls) rest = some t) : Shift s t := by
  cases ht
  refine .of_eq rfl rfl rfl rfl (by rintro _ ⟨⟩) ?_
  have hgoes := goes_on ho (l := calls.map .sendCall ++ s.streams.map .startStream ++ [.pump]) ?_
  · simpa only [List.append_assoc, List.singleton_append] using hgoes
  · intro o hmem
    simp only [List.mem_append, List.mem_map, List.mem_singleton] at hmem
    rcases hmem with (⟨r, -, rfl⟩ | ⟨r, hr, rfl⟩) | rfl
    · exact ⟨Or.inl (no_stream_of_calls [r] rfl), by rintro _ ⟨⟩⟩
    · exact ⟨Or.inr (Or.inl ⟨r, hr, rfl⟩), by rintro _ ⟨⟩⟩
    · exact ⟨Or.inl (no_stream_of_nil rfl), by rintro _ ⟨⟩⟩

theorem shift_pump {handles : List ℕ} (ho : s.outer = .pump :: rest) :
    Shift s { s with outer := handles.map .pumpOne ++ rest } := by
  refine .of_eq rfl rfl rfl rfl (fun _ => id) (goes_on ho fun o hmem => ?_)
  obtain ⟨k, -, rfl⟩ := List.mem_map.mp hmem
  exact ⟨Or.inl (no_stream_of_nil rfl), by rintro _ ⟨⟩⟩

/-- The worker asks nothing: neither a start, nor a piece of a body, nor a reset. -/
def Outer.quiet (s : State) : Outer → Bool
  | .firstItem _ => false
  | .pumpTake _ => false
  | .pumpOne k =>
    match s.openStreams.lookup k with
    | none => true
    | some stream => !(s.channels stream.channel).resetWanted || stream.resetSent
  | _ => true

theorem shift_outerStep (h : Legal s e) (ho : s.outer = o :: rest) (hq : o.quiet s = true)
    (ht : s.outerStep o rest = some t) : Shift s t := by
  cases o with
  | takeCalls =>
    cases ht
    exact .of_eq rfl rfl rfl rfl (fun _ => id)
      (goes_to ho (no_stream_of_calls _ rfl) (by rintro _ ⟨⟩))
  | takeStreams calls => exact shift_takeStreams ho ht
  | sendCall r => exact shift_sendCall ho ht
  | startStream r =>
    simp only [State.outerStep] at ht
    split at ht
    · cases ht
      exact .of_eq rfl rfl rfl rfl (fun _ => id) (goes_rest ho)
    · cases ht
      refine .of_eq rfl rfl rfl rfl (fun _ => id) (goes_on (l := [_]) ho fun o hmem => ?_)
      rw [List.mem_singleton.mp hmem]
      refine ⟨Or.inr (Or.inr ⟨r, rfl, ?_⟩), by rintro _ ⟨⟩⟩
      rw [ho]
      exact List.mem_cons_self
  | firstItem r => cases hq
  | pumpTake k => cases hq
  | pumpOne k =>
    simp only [State.outerStep] at ht
    have hwriter : Goes s (.pumpWriter k :: rest) :=
      goes_to ho (no_stream_of_nil rfl) (by rintro _ ⟨⟩)
    split at ht
    · cases ht
      exact .of_eq rfl rfl rfl rfl (fun _ => id) hwriter
    · rename_i stream hk
      simp only [Outer.quiet, hk] at hq
      split at ht
      · rename_i hwants
        rw [hwants, Bool.not_true, Bool.false_or] at hq
        rw [if_pos hq] at ht
        cases ht
        exact .of_eq rfl rfl rfl rfl (fun _ => id) hwriter
      · rename_i hwants
        split at ht
        · cases ht
          exact .of_eq rfl rfl rfl rfl (fun _ => id) hwriter
        · rename_i hended
          cases ht
          refine .of_eq rfl rfl rfl rfl (fun _ => id) ?_
          have hflags : ∀ o, s.openStreams.lookup k = some o →
              o.requestEnded = false ∧ o.resetSent = false := by
            intro o hlook
            rw [hk] at hlook
            cases hlook
            refine ⟨Bool.not_eq_true _ ▸ hended, ?_⟩
            rw [← Bool.not_eq_true]
            exact fun hsent => hwants (h.wanted k _ hk hsent)
          have hgoes := Goes.takes hflags
          rw [ho] at hgoes
          exact hgoes
  | inReset k =>
    cases ht
    exact .of_eq rfl rfl rfl rfl (fun _ => id) (goes_to ho (no_stream_of_nil rfl) (by rintro _ ⟨⟩))
  | inSend k =>
    cases ht
    exact .of_eq rfl rfl rfl rfl (fun _ => id) (goes_to ho (no_stream_of_nil rfl) (by rintro _ ⟨⟩))
  | pumpWriter k =>
    simp only [State.outerStep] at ht
    split at ht <;> cases ht <;> exact .of_eq rfl rfl rfl rfl (fun _ => id) (goes_rest ho)
  | inCallout r => cases ht
  | inStart r requestEnded => cases ht
  | pump => cases ht
  | abandon c => cases ht

theorem shift_ordered {calls handles : List ℕ} (ht : s.ordered calls handles = some t) :
    Shift s t := by
  cases ordered_moves ht with
  | pump _ ho => exact shift_pump ho
  | abandon _ ho =>
    refine .of_table rfl rfl ?_ (fun _ => Or.inl) ?_ (goes_rest ho)
    · rintro k o' ⟨⟩
    · intro r hr
      dsimp only [State.abandonUpstreams] at hr
      split at hr
      · cases hr
      · exact hr

end Outer

end Ruvoy.Upstream
